import DiscreteOrdinates.Scalar

/-!
# Soft equality

Comparison of a value with a reference to within a relative precision. A
reference that is practically zero is compared in absolute terms instead.
-/

namespace DiscreteOrdinates

variable {R : Type} [Scalar R]

/-- References of smaller magnitude count as zero. -/
def zeroThreshold : R := 1e-14

/-- Whether `value` lies within `precision`, relative to `reference`. -/
def softEq (value reference precision : R) : Bool :=
  if Scalar.abs (value - reference) ≤ precision * Scalar.abs reference then true
  else Scalar.abs reference < zeroThreshold && Scalar.abs value < precision

/-- Whether two lists have the same length and are softly equal entry by entry. -/
def softEqList (values references : List R) (precision : R) : Bool :=
  values.length == references.length &&
    (values.zip references).all fun (value, reference) => softEq value reference precision

end DiscreteOrdinates
