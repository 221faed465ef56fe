import DiscreteOrdinates.Decimal.Binary

/-!
# Rounded decimals

Scientific and fixed notation with a given number of places. The exact value is
rounded once, a tie going to the even digit.
-/

namespace DiscreteOrdinates

namespace Decimal

/-- `num / den` to `places` digits after the first one: the coefficient has
`places + 1` digits and the first one stands for `10 ^ exponent`. -/
def scientific (places num den : Nat) : Decimal :=
  if num = 0 then ⟨0, 0⟩
  else
    let top := decade num den
    let (a, b) := scaledRatio den 10 (top - places)
    let coefficient := roundHalfEven (num * b) a
    if coefficient = Nat.pow 10 (places + 1) then ⟨Nat.pow 10 places, top + 1⟩
    else ⟨coefficient, top⟩

end Decimal

namespace Binary

/-- Digits of the scientific notation and its exponent, which infinities and
undefined values do not have. -/
def scientific (places : Nat) : Binary → String × Option Int
  | .undefined => ("NaN", none)
  | .infinite negative => (if negative then "-inf" else "inf", none)
  | .finite negative significand exponent =>
    let (num, den) := scaledRatio significand 2 exponent
    let d := Decimal.scientific places num den
    let digits := Decimal.insertPoint places (Decimal.digits d.coefficient)
    (String.ofList (if negative then '-' :: digits else digits), some d.exponent)

/-- Scientific notation with a plain exponent, `1.50e-7`. -/
def scientificText (places : Nat) (d : Binary) : String :=
  match d.scientific places with
  | (digits, some exponent) => digits ++ "e" ++ toString exponent
  | (digits, none) => digits

/-- Scientific notation with a signed exponent of at least `width` digits,
`1.50e-07`. Every value has an exponent here. -/
def signedScientificText (places width : Nat) (d : Binary) : String :=
  let (digits, exponent) := d.scientific places
  let exponent := exponent.getD 0
  let sign := if exponent < 0 then "-" else "+"
  digits ++ "e" ++ sign ++ String.ofList ((Decimal.digits exponent.natAbs).leftpad width '0')

/-- Fixed notation, `-0.125`. -/
def fixedText (places : Nat) : Binary → String
  | .undefined => "NaN"
  | .infinite negative => if negative then "-inf" else "inf"
  | .finite negative significand exponent =>
    let (num, den) := scaledRatio significand 2 exponent
    let coefficient := roundHalfEven (num * Nat.pow 10 places) den
    let digits := Decimal.insertPoint places (Decimal.digits coefficient)
    String.ofList (if negative then '-' :: digits else digits)

end Binary

/-- The notation of every table of the library: five places and two digits of
exponent. -/
def tableText (x : Float) : String :=
  (Binary.ofFloat x).signedScientificText 5 2

end DiscreteOrdinates
