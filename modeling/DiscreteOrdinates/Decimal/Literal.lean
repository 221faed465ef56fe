import DiscreteOrdinates.Decimal.Binary

/-!
# Decimal literals

The parts of a written number, how they are recognised at the front of a text,
and the float nearest to the number they write.
-/

namespace DiscreteOrdinates

/-- A written number: sign, digits before and after the point, and the power of
ten behind `e` if there is one. -/
structure Literal where
  negative : Bool
  whole : List Char
  fraction : List Char
  exponent : Option Int
  deriving DecidableEq, Repr

namespace Literal

/-! ## Recognition -/

/-- Splits the decimal digits off the front of a text. -/
def spanDigits (cs : List Char) : List Char × List Char :=
  (cs.takeWhile Char.isDigit, cs.dropWhile Char.isDigit)

/-- Splits an optional sign off the front of a text, `true` for a minus. -/
def spanSign : List Char → Bool × List Char
  | '-' :: cs => (true, cs)
  | '+' :: cs => (false, cs)
  | cs => (false, cs)

/-- Whether a character announces a power of ten. -/
def isExponentMark (c : Char) : Bool :=
  c == 'e' || c == 'E'

/-- Reads an optional power of ten. A mark without digits behind it is refused,
not left for others to read. -/
def readExponent : List Char → Option (Option Int × List Char)
  | [] => some (none, [])
  | c :: cs =>
    if isExponentMark c then
      let (negative, cs) := spanSign cs
      match spanDigits cs with
      | ([], _) => none
      | (ds, rest) =>
        let n : Int := Decimal.ofDigits ds
        some (some (if negative then -n else n), rest)
    else some (none, c :: cs)

/-- Reads the longest number at the front of a text: a sign is optional, and so
are the digits on one side of the point. -/
def read (cs : List Char) : Option (Literal × List Char) :=
  let (negative, cs) := spanSign cs
  let (whole, cs) := spanDigits cs
  let (fraction, cs) : List Char × List Char :=
    match cs with
    | '.' :: rest =>
      let (fraction, after) := spanDigits rest
      -- A point without any digit is not part of a number.
      if whole.isEmpty && fraction.isEmpty then ([], cs) else (fraction, after)
    | _ => ([], cs)
  if whole.isEmpty && fraction.isEmpty then none
  else
    (readExponent cs).map fun (exponent, rest) => (⟨negative, whole, fraction, exponent⟩, rest)

/-- Reads a text that is a number from its first to its last character. -/
def ofText? (cs : List Char) : Option Literal :=
  match read cs with
  | some (literal, []) => some literal
  | _ => none

/-! ## Value -/

/-- All digits as one natural number. -/
def coefficient (l : Literal) : Nat :=
  Decimal.ofDigits (l.whole ++ l.fraction)

/-- The power of ten that the last digit stands for. -/
def scale (l : Literal) : Int :=
  l.exponent.getD 0 - l.fraction.length

/-- The float nearest to the written number. Beyond the decades of floats the
answer is infinite or zero, whatever the digits are. -/
def nearest (l : Literal) : Float :=
  let top := l.scale + digitCount l.coefficient
  if l.coefficient = 0 ∨ top < -330 then Binary.nearest l.negative 0 1
  else
    let (num, den) := scaledRatio l.coefficient 10 (min l.scale (400 - digitCount l.coefficient))
    Binary.nearest l.negative num den

end Literal

end DiscreteOrdinates
