import DiscreteOrdinates.Decimal.Literal

/-!
# JSON tokens

The lexical level of JSON: marks, names, numbers and strings, with blanks
between them.
-/

namespace DiscreteOrdinates

namespace Json

/-- A lexical unit of a JSON text. -/
inductive Token where
  | openArray
  | closeArray
  | openObject
  | closeObject
  | colon
  | comma
  | null
  | bool (value : Bool)
  | number (value : Literal)
  | string (value : Option String)
  deriving DecidableEq

namespace Token

/-! ## Strings -/

/-- One position of a written string: a character, or a 16-bit unit given by
`\u`. -/
inductive Item where
  | char (c : Char)
  | unit (code : Nat)

/-- Whether a 16-bit unit opens a surrogate pair. -/
def isHighSurrogate (code : Nat) : Bool :=
  0xD800 ≤ code && code < 0xDC00

/-- Whether a 16-bit unit closes a surrogate pair. -/
def isLowSurrogate (code : Nat) : Bool :=
  0xDC00 ≤ code && code < 0xE000

/-- The characters that a string denotes, none if half of a surrogate pair
stands alone. -/
def decode : List Item → Option (List Char)
  | [] => some []
  | .char c :: items => (decode items).map (c :: ·)
  | .unit high :: .unit low :: items =>
    if isHighSurrogate high && isLowSurrogate low then
      let c := Char.ofNat (0x10000 + (high - 0xD800) * 0x400 + (low - 0xDC00))
      (decode items).map (c :: ·)
    else if isHighSurrogate high || isLowSurrogate high then none
    else (decode (.unit low :: items)).map (Char.ofNat high :: ·)
  | .unit code :: items =>
    if isHighSurrogate code || isLowSurrogate code then none
    else (decode items).map (Char.ofNat code :: ·)

/-- The value of a hexadecimal digit. -/
def hexDigit? (c : Char) : Option Nat :=
  if c.isDigit then some (c.toNat - '0'.toNat)
  else if 'a' ≤ c && c ≤ 'f' then some (c.toNat - 'a'.toNat + 10)
  else if 'A' ≤ c && c ≤ 'F' then some (c.toNat - 'A'.toNat + 10)
  else none

/-- The character behind a backslash, other than `\u`. -/
def escape? : Char → Option Char
  | '"' => some '"'
  | '\\' => some '\\'
  | '/' => some '/'
  | 'b' => some '\x08'
  | 'f' => some '\x0c'
  | 'n' => some '\n'
  | 'r' => some '\r'
  | 't' => some '\t'
  | _ => none

/-- Reads the rest of a string behind its opening quote. Control characters have
to be escaped. -/
def readString (done : List Item) : List Char → Option (List Item × List Char)
  | '"' :: rest => some (done.reverse, rest)
  | '\\' :: 'u' :: a :: b :: c :: d :: rest =>
    match hexDigit? a, hexDigit? b, hexDigit? c, hexDigit? d with
    | some a, some b, some c, some d =>
      readString (.unit (((a * 16 + b) * 16 + c) * 16 + d) :: done) rest
    | _, _, _, _ => none
  | '\\' :: c :: rest =>
    match escape? c with
    | some c => readString (.char c :: done) rest
    | none => none
  | c :: rest => if c.toNat < 0x20 then none else readString (.char c :: done) rest
  | [] => none

/-! ## Numbers -/

/-- Reads a number: no leading zeros, and digits on both sides of a point. -/
def readNumber (cs : List Char) : Option (Literal × List Char) :=
  let (negative, cs) : Bool × List Char :=
    match cs with
    | '-' :: rest => (true, rest)
    | _ => (false, cs)
  match Literal.spanDigits cs with
  | ([], _) => none
  | ('0' :: _ :: _, _) => none
  | (whole, '.' :: cs) =>
    match Literal.spanDigits cs with
    | ([], _) => none
    | (fraction, cs) =>
      (Literal.readExponent cs).map fun (exponent, rest) =>
        (⟨negative, whole, fraction, exponent⟩, rest)
  | (whole, cs) =>
    (Literal.readExponent cs).map fun (exponent, rest) => (⟨negative, whole, [], exponent⟩, rest)

/-! ## Texts -/

/-- Blanks of JSON, fewer than those of Unicode. -/
def isSpace (c : Char) : Bool :=
  c == ' ' || c == '\t' || c == '\n' || c == '\r'

/-- Reads one token at the front of a text that does not start with a blank. -/
def read : List Char → Option (Token × List Char)
  | '[' :: rest => some (.openArray, rest)
  | ']' :: rest => some (.closeArray, rest)
  | '{' :: rest => some (.openObject, rest)
  | '}' :: rest => some (.closeObject, rest)
  | ':' :: rest => some (.colon, rest)
  | ',' :: rest => some (.comma, rest)
  | 'n' :: 'u' :: 'l' :: 'l' :: rest => some (.null, rest)
  | 't' :: 'r' :: 'u' :: 'e' :: rest => some (.bool true, rest)
  | 'f' :: 'a' :: 'l' :: 's' :: 'e' :: rest => some (.bool false, rest)
  | '"' :: rest =>
    (readString [] rest).map fun (items, rest) =>
      (.string ((decode items).map String.ofList), rest)
  | cs => (readNumber cs).map fun (literal, rest) => (.number literal, rest)

/-- The tokens of a text, in at most `fuel` steps. -/
def readAll (done : List Token) : (fuel : Nat) → List Char → Option (List Token)
  | _, [] => some done.reverse
  | 0, _ => none
  | fuel + 1, c :: cs =>
    if isSpace c then readAll done fuel cs
    else
      match read (c :: cs) with
      | some (token, rest) => readAll (token :: done) fuel rest
      | none => none

/-- The tokens of a text. Each step takes a character at least, so there are
never more steps than characters. -/
def ofText? (cs : List Char) : Option (List Token) :=
  readAll [] cs.length cs

end Token

end Json

end DiscreteOrdinates
