import DiscreteOrdinates.Scalar
import DiscreteOrdinates.Decimal.Shortest

/-!
# Samples

Finite lists of measured numbers: their extremes, and their representatives
once numbers that differ by no more than a tolerance are taken for one.
-/

namespace DiscreteOrdinates

/-- Why a sample has no answer. -/
inductive SampleError (R : Type) where
  | empty
  | undefinedValue
  | unreasonableTolerance (tolerance : R)
  deriving Repr

/-- The wording of a sample error. -/
def SampleError.message : SampleError Float → String
  | .empty => "slice contains no values"
  | .undefinedValue => "slice contains undefined values (NaN or infinite)"
  | .unreasonableTolerance tolerance =>
    "unreasonable tolerance " ++ floatText tolerance ++ ", expected a finite value >= 0"

namespace Sample

variable {R : Type} [Scalar R]

/-! ## Extremes -/

/-- The least value. -/
def minimum (xs : List R) : Except (SampleError R) R :=
  if xs.all Scalar.isFinite then
    match xs with
    | [] => .error .empty
    -- Of values that compare equal the first one stays.
    | x :: xs => .ok (xs.foldl (fun least x => if Scalar.order x least = .lt then x else least) x)
  else .error .undefinedValue

/-- The greatest value. -/
def maximum (xs : List R) : Except (SampleError R) R :=
  if xs.all Scalar.isFinite then
    match xs with
    | [] => .error .empty
    -- Of values that compare equal the last one counts.
    | x :: xs =>
      .ok (xs.foldl (fun greatest x => if Scalar.order x greatest = .lt then greatest else x) x)
  else .error .undefinedValue

/-! ## Clusters -/

/-- The values in ascending order. -/
def sorted (xs : List R) : List R :=
  xs.mergeSort fun x y => (Scalar.order x y).isLE

/-- Drops every value that lies within `tolerance` of the last one kept, which
is `kept` at first. -/
def thin (tolerance kept : R) : List R → List R
  | [] => []
  | x :: xs =>
    if Scalar.abs (x - kept) ≤ tolerance then thin tolerance kept xs
    else x :: thin tolerance x xs

/-- The least value of each cluster of an ascending list. A value opens a new
cluster if it is more than `tolerance` away from the value that opened the
current one. -/
def representatives (tolerance : R) : List R → List R
  | [] => []
  | x :: xs => x :: thin tolerance x xs

/-- The values that remain, ascending, if values within `tolerance` of each
other count as one. -/
def distinctWithin (tolerance : R) (xs : List R) : Except (SampleError R) (List R) :=
  if ¬ Scalar.isFinite tolerance ∨ tolerance < 0.0 then .error (.unreasonableTolerance tolerance)
  else if xs.all Scalar.isFinite then .ok (representatives tolerance (sorted xs))
  else .error .undefinedValue

end Sample

end DiscreteOrdinates
