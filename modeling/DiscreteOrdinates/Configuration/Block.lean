import DiscreteOrdinates.Configuration.Basic
import DiscreteOrdinates.Decimal.Literal

/-!
# Configuration blocks

The text form of a configuration: the family on a line of its own, a keyword
with its value on each line that follows, and `end`.

    level symmetric
      order 4
      dimension 3
    end

Blank lines and lines that start with `#` are left out, letters may be of either
case, and of several lines with one keyword the last one counts.
-/

namespace DiscreteOrdinates

namespace Configuration

/-! ## Writing -/

/-- A keyword line, if there is a value for it. -/
def optionalLine (keyword : String) : Option String → List String
  | some value => ["  " ++ keyword ++ " " ++ value]
  | none => []

/-- The lines of a configuration. -/
def lines (c : Configuration Float) : List String :=
  [c.family.name, "  order " ++ toString c.order]
    ++ optionalLine "dimension" (c.dimension.map toString)
    ++ optionalLine "norm" (c.norm.map floatText)
    ++ optionalLine "levels" (c.levels.map toString)
    ++ ["end"]

/-- The block that describes a configuration, as far as blocks can. -/
def text (c : Configuration Float) : String :=
  Text.join "\n" c.lines

/-! ## Lines -/

/-- What one line of a block says. -/
inductive Line where
  | order (n : Nat)
  | dimension (n : Nat)
  | norm (x : Float)
  | levels (n : Nat)
  | finish

/-- Removes a word from the front of a text. -/
def dropWord? (word cs : List Char) : Option (List Char) :=
  if Text.lower (cs.take word.length) = word then some (cs.drop word.length) else none

/-- A space or a tab. -/
def isGap (c : Char) : Bool :=
  c == ' ' || c == '\t'

/-- Removes one or more gaps from the front of a text. -/
def dropGaps? : List Char → Option (List Char)
  | c :: cs => if isGap c then some (cs.dropWhile isGap) else none
  | [] => none

/-- Reads a natural number below `2 ^ 64`. -/
def readCount (cs : List Char) : Option Nat :=
  if cs ≠ [] ∧ cs.all Char.isDigit then
    let n := Decimal.ofDigits cs
    if n < UInt64.size then some n else none
  else none

/-- Reads a decimal literal, `nan` or `inf`. -/
def readNorm (cs : List Char) : Option Float :=
  match Literal.ofText? cs with
  | some literal => some literal.nearest
  | none =>
    match String.ofList (Text.lower cs) with
    | "nan" => some (0.0 / 0.0)
    | "inf" => some (1.0 / 0.0)
    | _ => none

/-- Reads the value of a keyword, with a gap in front. -/
def readValue {α : Type} (keyword : String) (read : List Char → Option α) (cs : List Char) :
    Option α := do
  read (← dropGaps? (← dropWord? keyword.toList cs))

/-- Reads a keyword line without surrounding blanks. -/
def Line.read (cs : List Char) : Option Line :=
  (readValue "order" readCount cs).map .order
    <|> (readValue "dimension" readCount cs).map .dimension
    <|> (readValue "norm" readNorm cs).map .norm
    <|> (readValue "levels" readCount cs).map .levels
    <|> if Text.lower cs = "end".toList then some .finish else none

/-- Reads a family line without surrounding blanks. -/
def readFamily (cs : List Char) : Option Family :=
  Family.all.find? fun family => Text.lower cs = Text.lower family.name.toList

/-! ## Blocks -/

/-- The lines of a text that say something. -/
def significantLines (cs : List Char) : List (List Char) :=
  (Text.trimmedLines cs).filter fun line =>
    match line with
    | [] => false
    | c :: _ => c != '#'

/-- Takes the lines up to `end` into a configuration. The order stays apart,
because a block has to state it. -/
def readLines (c : Configuration Float) (order : Option Nat) :
    List (List Char) → Except (QuadratureError Float) (Configuration Float)
  | [] => .error (.missingKeyword .finish)
  | line :: rest =>
    match Line.read line with
    | none => .error (.malformedLine (String.ofList line))
    | some (.order n) => readLines c (some n) rest
    | some (.dimension n) => readLines { c with dimension := some n } order rest
    | some (.norm x) => readLines { c with norm := some x } order rest
    | some (.levels n) => readLines { c with levels := some n } order rest
    | some .finish =>
      match order with
      | some n => .ok { c with order := n }
      | none => .error (.missingKeyword .order)

/-- Reads a block. What follows `end` does not matter. -/
def ofBlock (text : String) : Except (QuadratureError Float) (Configuration Float) :=
  match significantLines text.toList with
  | [] => .error (.missingKeyword .family)
  | first :: rest =>
    match readFamily first with
    | some family => readLines { family, order := 0 } none rest
    | none => .error (.malformedLine (String.ofList first))

end Configuration

end DiscreteOrdinates
