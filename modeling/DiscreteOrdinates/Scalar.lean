/-!
# Scalars

The arithmetic in which directions, weights and moments are computed. Every
numerical definition of the library is written over a `Scalar`, so that one
definition is both what runs, over `Float`, and what is reasoned about, over
an exact field.
-/

namespace DiscreteOrdinates

/-- Numbers with the field operations, the comparisons and the few elementary
functions that a quadrature set needs. Nothing is assumed about rounding. -/
class Scalar (R : Type) extends Add R, Sub R, Mul R, Div R, Neg R, NatCast R,
    OfScientific R, LT R, LE R, BEq R where
  [decidableLT : DecidableLT R]
  [decidableLE : DecidableLE R]
  /-- Magnitude. -/
  abs : R → R
  /-- Square root. -/
  sqrt : R → R
  /-- Cosine of an angle in radians. -/
  cos : R → R
  /-- Sine of an angle in radians. -/
  sin : R → R
  /-- `atan2 y z` is the angle in `(-π, π]` of the point with abscissa `z` and
  ordinate `y`. -/
  atan2 : R → R → R
  /-- Half the circumference of the unit circle. -/
  pi : R
  /-- Neither infinite nor undefined. -/
  isFinite : R → Bool
  /-- A total order, also on values that `≤` leaves incomparable. -/
  order : R → R → Ordering

attribute [reducible, instance] Scalar.decidableLT Scalar.decidableLE

namespace Scalar

/-! ## Floating point -/

/-- Place of a bit pattern in the total order of floats: negative values descend
from `-1`, so `-0.0` comes directly before `0.0`. -/
def patternKey (pattern : UInt64) : Int :=
  let bits := pattern.toNat
  let half := UInt64.size / 2
  if bits < half then bits else half - 1 - (bits : Int)

/-- Place of a float in the total order of its bit patterns. -/
def orderKey (x : Float) : Int :=
  patternKey x.toBits

instance : Scalar Float where
  natCast := Float.ofNat
  abs := Float.abs
  sqrt := Float.sqrt
  cos := Float.cos
  sin := Float.sin
  atan2 := Float.atan2
  pi := 3.141592653589793
  isFinite := Float.isFinite
  order x y := compare (orderKey x) (orderKey y)

/-! ## Derived operations -/

variable {R : Type} [Scalar R]

/-- The positive part of `x`. -/
@[specialize] def positivePart (x : R) : R :=
  if 0.0 < x then x else 0.0

/-- The larger of two numbers, the first if they are incomparable. -/
@[specialize] def larger (x y : R) : R :=
  if x < y then y else x

/-- The smaller of two numbers, the first if they are incomparable. -/
@[specialize] def smaller (x y : R) : R :=
  if y < x then y else x

/-- Sum of a list from left to right. The start is the neutral element `-0.0`
of floating point addition, so that a sum of negative zeros keeps its sign. -/
@[specialize] def sum (xs : List R) : R :=
  xs.foldl (· + ·) (-0.0)

/-- Sum of `f 0`, …, `f (n - 1)` in this order. -/
@[specialize] def sumFin (n : Nat) (f : Fin n → R) : R :=
  Fin.foldl n (fun total k => total + f k) (-0.0)

/-- Number `m` of a list, zero beyond its end. -/
def nth (xs : List R) (m : Nat) : R :=
  xs[m]?.getD 0.0

/-- Multiplies `acc` by `x ^ n`, squaring `x` for each binary digit of `n`. -/
def powerLoop (x acc : R) (n : Nat) : R :=
  if n = 0 then acc
  else
    let acc := if n % 2 = 1 then acc * x else acc
    if n = 1 then acc else powerLoop (x * x) acc (n / 2)
termination_by n

/-- `x ^ n` by repeated squaring. -/
def power (x : R) (n : Nat) : R :=
  powerLoop x 1.0 n

end Scalar

end DiscreteOrdinates
