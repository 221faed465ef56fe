import DiscreteOrdinates.Matrix.Solver
import DiscreteOrdinates.Moments.Selection
import DiscreteOrdinates.SoftEquality

/-!
# Moment operators

The matrix `M`, which turns moments into the angular flux, and the matrix `D`,
which turns the flux back into moments. An entry of `M` is

    (2l + 1) / norm · c l k · P l |k| μ · T k φ

for the moment `(l, k)` and a direction. `D` is the inverse of `M`, or its
pseudo-inverse in the metric of the weights.
-/

namespace DiscreteOrdinates

/-- The moment operators of a quadrature set. -/
structure MomentOperators (R : Type) where
  model : Interpolation
  dimension : Nat
  norm : R
  ordinates : List (Ordinate R)
  moments : List MomentIndex
  toFlux : DenseMatrix R
  toMoments : DenseMatrix R

namespace MomentOperators

variable {R : Type} [Scalar R]

/-! ## Matrices -/

/-- The entry of `M` for a moment and an ordinate. -/
def fluxEntry (norm : R) (i : MomentIndex) (o : Ordinate R) : Except (MomentError R) R :=
  match Harmonic.tesseral i.l i.k o with
  | .ok y => .ok ((2 * i.l + 1 : Nat) / norm * y)
  | .error e => .error (.quadrature e)

/-- The matrix `M`, a row for each ordinate and a column for each moment. -/
def fluxMatrix (norm : R) (os : List (Ordinate R)) (is : List MomentIndex) :
    Except (MomentError R) (DenseMatrix R) :=
  DenseMatrix.ofFnM os.length is.length fun m n => fluxEntry norm (is.get n) (os.get m)

/-- The inverse of `M`, refused if it is singular or not finite. -/
def inverse [MatrixSolver R] (model : Interpolation) (M : DenseMatrix R) :
    Except (MomentError R) (DenseMatrix R) :=
  match MatrixSolver.inverse? M with
  | some D =>
    if D.toList.all Scalar.isFinite then .ok D else .error (.singularOperator model)
  | none => .error (.singularOperator model)

/-- Smallest ratio of extreme singular values that is accepted. -/
def rankTolerance : R := 1e-10

/-- A matrix whose row `m` is multiplied by factor `m`. -/
def scaleRows (A : DenseMatrix R) (factors : List R) : DenseMatrix R :=
  DenseMatrix.ofFn A.rows A.cols fun m n => Scalar.nth factors m * A.entry m n

/-- A matrix whose column `m` is multiplied by factor `m`. -/
def scaleCols (A : DenseMatrix R) (factors : List R) : DenseMatrix R :=
  DenseMatrix.ofFn A.rows A.cols fun n m => A.entry n m * Scalar.nth factors m

/-- The largest of several values that are not negative. -/
def largest (values : List R) : R :=
  values.foldl Scalar.larger 0.0

/-- The ratio of the smallest to the largest of several values, zero if all of
them are. -/
def extremeRatio (values : List R) : R :=
  let top := largest values
  if 0.0 < top then values.foldl Scalar.smaller top / top else 0.0

/-- The pseudo-inverse in the metric of the weights, `pinv (W^½ M) W^½`. It is a
left inverse of `M` unless the columns of `M` depend on one another, which is
refused. -/
def weightedInverse [MatrixSolver R] (M : DenseMatrix R) (weights : List R) :
    Except (MomentError R) (DenseMatrix R) := do
  require (M.rows ≠ 0 ∧ M.cols ≠ 0) .noMoments
  match weights.zipIdx.find? fun (w, _) => w < 0.0 with
  | some (w, index) => .error (.negativeWeight index w)
  | none =>
    let roots := weights.map Scalar.sqrt
    let decomposition := MatrixSolver.decompose (scaleRows M roots)
    let ratio := extremeRatio decomposition.values
    require (¬ ratio < rankTolerance) (.rankDeficient ratio)
    let cutoff := rankTolerance * largest decomposition.values
    return scaleCols (decomposition.pseudoInverse cutoff) roots

/-! ## Construction -/

/-- The operators for a list of moments that fits the set. -/
def build [MatrixSolver R] (q : Quadrature R) (model : Interpolation) (is : List MomentIndex) :
    Except (MomentError R) (MomentOperators R) := do
  let os := q.ordinates
  let M ← fluxMatrix q.norm os is
  let D ← if model.isSquare then inverse model M else weightedInverse M q.table.wt
  return ⟨model, q.dimension, q.norm, os, is, M, D⟩

/-- The operators for the moments that an interpolation selects. -/
def ofQuadrature [MatrixSolver R] (q : Quadrature R) (model : Interpolation)
    (expansionOrder : Option Nat) : Except (MomentError R) (MomentOperators R) := do
  build q model (← MomentIndex.select q model expansionOrder)

/-- The operators for moments that a user chose. -/
def ofMoments [MatrixSolver R] (q : Quadrature R) (model : Interpolation)
    (is : List MomentIndex) : Except (MomentError R) (MomentOperators R) := do
  MomentIndex.validate is q.dimension model q.angles
  build q model is

/-! ## Application -/

/-- Number `n` of a list. -/
def pick {α : Type} (xs : List α) (n : Nat) : Except (MomentError R) α :=
  match xs[n]? with
  | some x => .ok x
  | none => .error (.indexOutOfRange n xs.length)

/-- The product with a vector of a certain length. -/
def multiply (A : DenseMatrix R) (operand : Operand) (expected : Nat) (v : List R) :
    Except (MomentError R) (List R) := do
  require (v.length = expected) (.shape ⟨operand, expected, v.length⟩)
  match A.mulVec v with
  | .ok u => .ok u
  | .error e => .error (.shape e)

/-- The angular flux of moments. -/
def flux (s : MomentOperators R) (moments : List R) : Except (MomentError R) (List R) :=
  multiply s.toFlux .moments s.moments.length moments

/-- The moments of an angular flux. -/
def project (s : MomentOperators R) (flux : List R) : Except (MomentError R) (List R) :=
  multiply s.toMoments .flux s.ordinates.length flux

/-- Degree and order of moment `n`. -/
def moment (s : MomentOperators R) (n : Nat) : Except (MomentError R) MomentIndex :=
  pick s.moments n

/-- The entry that `M` would have for moment `n` and any ordinate. -/
def entryAt (s : MomentOperators R) (n : Nat) (o : Ordinate R) : Except (MomentError R) R := do
  fluxEntry s.norm (← s.moment n) o

/-- The azimuth of ordinate `m`. -/
def azimuth (s : MomentOperators R) (m : Nat) : Except (MomentError R) R := do
  let o ← pick s.ordinates m
  return Harmonic.azimuth o.y o.z

/-! ## Tests -/

/-- Absolute tolerance on `D M = 1`. -/
def inverseTolerance : R := 1e-8

/-- Whether `D` is a left inverse of `M`. -/
def isLeftInverse (s : MomentOperators R) : Bool :=
  match s.toMoments.mul s.toFlux with
  | .ok product => product.isIdentity inverseTolerance
  | .error _ => false

/-- Relative tolerance on the weights in the first row of `D`. -/
def rowTolerance : R := 1e-9

/-- Whether the first moment is `(0, 0)` and the first row of `D` repeats the
weights of the set. -/
def firstRowIsWeights (s : MomentOperators R) : Bool :=
  s.moments.head? == some ⟨0, 0⟩ &&
    match s.toMoments.row? 0 with
    | none => false
    | some row => softEqList row (s.ordinates.map (·.weight)) rowTolerance

end MomentOperators

end DiscreteOrdinates
