import DiscreteOrdinates.Decimal.Basic

/-!
# Binary numbers

What a float stands for: an exact number `± significand · 2 ^ exponent`, an
infinity, or nothing. The converse direction rounds a ratio to the nearest
float.
-/

namespace DiscreteOrdinates

/-- The exact meaning of a binary floating point number. -/
inductive Binary where
  | undefined
  | infinite (negative : Bool)
  | finite (negative : Bool) (significand : Nat) (exponent : Int)
  deriving DecidableEq, Repr

namespace Binary

/-- Exponent of the smallest positive float. -/
def leastExponent : Int := -1074

/-- The least significand of a binade. A float does not store its leading bit. -/
def hiddenBit : Nat := Nat.pow 2 52

/-- Place of the sign in the bits of a float. -/
def signBit : Nat := Nat.pow 2 63

/-- The exponent field of infinities and undefined values. -/
def specialField : Nat := 2047

/-- Decodes sign, biased exponent and fraction of a float. -/
def ofFloat (x : Float) : Binary :=
  let bits := x.toBits.toNat
  let negative : Bool := signBit ≤ bits
  let biased : Nat := bits / hiddenBit % (specialField + 1)
  let fraction : Nat := bits % hiddenBit
  if biased = specialField then
    if fraction = 0 then .infinite negative else .undefined
  else if biased = 0 then .finite negative fraction leastExponent
  else .finite negative (hiddenBit + fraction) (leastExponent + (biased - 1 : Nat))

/-- An integer as a binary number. -/
def ofInt (n : Int) : Binary :=
  .finite (n < 0) n.natAbs 0

/-- The exponent `e` with `2 ^ e ≤ num / den < 2 ^ (e + 1)`, for a positive
ratio. -/
def binade (num den : Nat) : Int :=
  let guess : Int := num.log2 - den.log2
  let (a, b) := scaledRatio den 2 guess
  if a ≤ num * b then guess else guess - 1

/-- Bits of the float nearest to `num / den`, to even on a tie and infinite
beyond the largest float. With the least exponent subtracted, exponent and
significand add up to the bit pattern, a carry into the next binade included. -/
def nearestBits (num den : Nat) : Nat :=
  if num = 0 then 0
  else
    let exponent := max (binade num den - 52) leastExponent
    let (a, b) := scaledRatio den 2 exponent
    let significand := roundHalfEven (num * b) a
    min ((exponent - leastExponent).toNat * hiddenBit + significand) (specialField * hiddenBit)

/-- The float nearest to `± num / den`. -/
def nearest (negative : Bool) (num den : Nat) : Float :=
  let bits := nearestBits num den
  Float.ofBits (UInt64.ofNat (if negative then bits + signBit else bits))

end Binary

end DiscreteOrdinates
