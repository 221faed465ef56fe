import DiscreteOrdinates.Quadrature.Error
import DiscreteOrdinates.Requirement

/-!
# Ordinates

One discrete direction with its weight, and the order in which ordinates are
swept. The `z` cosine is the one that defines levels.
-/

namespace DiscreteOrdinates

/-- A direction with its quadrature weight. -/
structure Ordinate (R : Type) where
  x : R
  y : R
  z : R
  weight : R
  deriving Repr

namespace Ordinate

variable {R : Type} [Scalar R]

/-- How far the squared length of a direction may be from one. -/
def unitTolerance : R := 1e-8

/-- The squared length of a direction. -/
def squaredLength (x y z : R) : R :=
  x * x + y * y + z * z

/-- A weight that an ordinate may carry. -/
def IsWeight (w : R) : Prop :=
  Scalar.isFinite w = true ∧ 0.0 ≤ w

instance (w : R) : Decidable (IsWeight w) :=
  inferInstanceAs (Decidable (_ ∧ _))

/-- A direction in space. It has to be a unit vector, with a weight that is not
negative. -/
def ofDirection (x y z weight : R) : Except (QuadratureError R) (Ordinate R) := do
  require (Scalar.abs (squaredLength x y z - 1.0) ≤ unitTolerance) (.notUnitVector x y z)
  require (IsWeight weight) (.invalidWeight 0 weight)
  return ⟨x, y, z, weight⟩

/-- A direction of which only one cosine matters. It must not be zero, since
nothing moves along such a direction. -/
def ofCosine (x weight : R) : Except (QuadratureError R) (Ordinate R) := do
  require (¬ (x == 0.0) ∧ Scalar.isFinite x ∧ ¬ 1.0 < Scalar.abs x) .zeroCosine
  require (IsWeight weight) (.invalidWeight 0 weight)
  return ⟨x, 0.0, 0.0, weight⟩

/-- The direction cosines. -/
def cosines (o : Ordinate R) : List R :=
  [o.x, o.y, o.z]

/-- Whether the ordinate only starts a level, which it does without weight. -/
def isStart (o : Ordinate R) : Bool :=
  o.weight == 0.0

/-! ## Sweep order -/

/-- Order of the sweep: levels ascending, and ascending cosines within a level. -/
def sweepOrder (a b : Ordinate R) : Ordering :=
  (Scalar.order a.z b.z).then (Scalar.order a.x b.x)

/-- Ordinates in sweep order. Equal ones keep their order. -/
def sorted (os : List (Ordinate R)) : List (Ordinate R) :=
  os.mergeSort fun a b => (sweepOrder a b).isLE

end Ordinate

end DiscreteOrdinates
