import DiscreteOrdinates.Text.Blank

/-!
# Decimal numerals

Rounding of ratios of natural numbers, the decade a ratio lies in, and decimals
`coefficient · 10 ^ exponent` with their positional text.
-/

namespace DiscreteOrdinates

/-! ## Rounding and decades -/

/-- The natural number nearest to `num / den`, the even one of two. -/
def roundHalfEven (num den : Nat) : Nat :=
  let quotient := num / den
  let twice := 2 * (num % den)
  if twice < den ∨ (twice = den ∧ quotient % 2 = 0) then quotient else quotient + 1

/-- Rounding moves a ratio by at most a half. -/
theorem roundHalfEven_near (num : Nat) {den : Nat} (h : 0 < den) :
    2 * (roundHalfEven num den * den) ≤ 2 * num + den ∧
      2 * num ≤ 2 * (roundHalfEven num den * den) + den := by
  have hdiv := Nat.div_add_mod num den
  have hmod := Nat.mod_lt num h
  rw [Nat.mul_comm] at hdiv
  simp only [roundHalfEven]
  split
  · omega
  · rw [Nat.add_mul, Nat.one_mul]; omega

/-- `base ^ exponent · m` as numerator and denominator. -/
def scaledRatio (m base : Nat) : (exponent : Int) → Nat × Nat
  | .ofNat e => (m * Nat.pow base e, 1)
  | .negSucc e => (m, Nat.pow base (e + 1))

/-- How many decimal digits a natural number has, none for zero. -/
def digitCount (n : Nat) : Nat :=
  if n = 0 then 0 else digitCount (n / 10) + 1

/-- The exponent `e` with `10 ^ e ≤ num / den < 10 ^ (e + 1)`, for a positive
ratio. -/
def decade (num den : Nat) : Int :=
  if den ≤ num then digitCount (num / den) - 1
  else -digitCount ((den - 1) / num)

/-! ## Decimals -/

/-- The decimal `coefficient · 10 ^ exponent`. -/
structure Decimal where
  coefficient : Nat
  exponent : Int
  deriving DecidableEq, Repr

namespace Decimal

/-- Decimal digits of a natural number. -/
def digits (n : Nat) : List Char :=
  Nat.toDigits 10 n

/-- The natural number that a list of decimal digits writes. -/
def ofDigits (cs : List Char) : Nat :=
  Nat.ofDigitChars 10 cs 0

theorem ofDigits_digits (n : Nat) : ofDigits (digits n) = n :=
  Nat.ofDigitChars_toDigits (by decide) (by decide)

/-- Writes the last `places` digits behind a point, with at least one digit in
front of it. -/
def insertPoint (places : Nat) (ds : List Char) : List Char :=
  let ds := ds.leftpad (places + 1) '0'
  let whole := ds.length - places
  if places = 0 then ds else ds.take whole ++ '.' :: ds.drop whole

/-- The text of a decimal without an exponent. -/
def positional (d : Decimal) : List Char :=
  match d.exponent with
  | .ofNat e => if d.coefficient = 0 then ['0'] else digits d.coefficient ++ List.replicate e '0'
  | .negSucc e => insertPoint (e + 1) (digits d.coefficient)

end Decimal

end DiscreteOrdinates
