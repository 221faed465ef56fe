import DiscreteOrdinates.Json.Value

/-!
# JSON numbers as floats

A number is read by scaling: the leading digits that fit in 64 bits become a
float, which is multiplied or divided by a power of ten. The answer is within a
few units of the last place of the nearest float, and a number beyond the range
of floats is refused.
-/

namespace DiscreteOrdinates

namespace Json

/-- Appends decimal digits to a number as long as the result stays below
`2 ^ 64`. Gives the number, how many digits were taken and the rest. -/
def takeDigits (n taken : Nat) : List Char → Nat × Nat × List Char
  | [] => (n, taken, [])
  | c :: cs =>
    let next := n * 10 + (c.toNat - '0'.toNat)
    if next < UInt64.size then takeDigits next (taken + 1) cs else (n, taken, c :: cs)

/-- The power of ten nearest to `10 ^ e`. -/
def powerOfTen (e : Nat) : Float :=
  Binary.nearest false (Nat.pow 10 e) 1

/-- Multiplies a float by `10 ^ exponent`, in steps of at most `10 ^ 308`.
Refuses what becomes infinite. -/
def scaleFloat (x : Float) (exponent : Int) : Option Float :=
  if 0 ≤ exponent then
    if exponent ≤ 308 then
      let y := x * powerOfTen exponent.toNat
      if y.isInf then none else some y
    else if x == 0.0 then some x
    else none
  else if -308 ≤ exponent then some (x / powerOfTen exponent.natAbs)
  else if x == 0.0 then some x
  else scaleFloat (x / powerOfTen 308) (exponent + 308)
termination_by exponent.natAbs

/-- Largest power of ten that a number may write. -/
def largestExponent : Int := 2147483647

/-- The magnitude of a literal. Digits of the fraction are still taken behind a
whole part that was cut off, if they fit. -/
def magnitude? (l : Literal) : Option Float :=
  let (n, _, cut) := takeDigits 0 0 l.whole
  let (n, places, _) := takeDigits n 0 l.fraction
  let exponent := l.exponent.getD 0
  if largestExponent < exponent ∧ n ≠ 0 then none
  else if largestExponent < exponent.natAbs then some 0.0
  else scaleFloat n.toUInt64.toFloat (cut.length - places + exponent)

/-- A number as a float. -/
def float? : Json → Option Float
  | .number l => (magnitude? l).map fun x => if l.negative then -x else x
  | _ => none

end Json

end DiscreteOrdinates
