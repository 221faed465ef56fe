import DiscreteOrdinates.Proofs.Matrix.Nonsingular
import DiscreteOrdinates.Proofs.Matrix.Product
import DiscreteOrdinates.Matrix.Solver

/-!
# Exact inversion

What is asked of a function that inverts matrices in the layout of columns, and
what becomes of it in the layout of rows.
-/

namespace DiscreteOrdinates

/-! ## Layouts -/

namespace ColumnMatrix

/-- A matrix, stored column by column. -/
def ofMatrix {R : Type} {n m : ℕ} (a : Matrix (Fin n) (Fin m) R) : ColumnMatrix R :=
  ofFn n m fun i j => a i j

theorem toDense_ofMatrix {R : Type} {n m : ℕ} (a : Matrix (Fin n) (Fin m) R) :
    (ofMatrix a).toDense = .ofMatrix a :=
  toDense_ofFn n m _

end ColumnMatrix

theorem DenseMatrix.toColumnMatrix_ofMatrix {R : Type} {n m : ℕ} (a : Matrix (Fin n) (Fin m) R) :
    (ofMatrix a).toColumnMatrix = .ofMatrix a :=
  toColumnMatrix_ofFn n m _

/-! ## Inverses -/

namespace ColumnMatrix

open Classical in
/-- Whether a function gives the inverse of each square matrix that has one, and
none of any other square matrix. -/
def InvertsExactly (inverse? : ColumnMatrix ℝ → Option (ColumnMatrix ℝ)) : Prop :=
  ∀ (n : ℕ) (a : Matrix (Fin n) (Fin n) ℝ),
    inverse? (ofMatrix a) = if a.det = 0 then none else some (ofMatrix a⁻¹)

/-- By way of columns, a matrix that is stored row by row is inverted exactly. -/
theorem InvertsExactly.inverse?_ofMatrix {inverse? : ColumnMatrix ℝ → Option (ColumnMatrix ℝ)}
    (h : InvertsExactly inverse?) (decompose : DenseMatrix ℝ → SingularDecomposition ℝ) {n : ℕ}
    (a : Matrix (Fin n) (Fin n) ℝ) :
    (MatrixSolver.ofColumns inverse? decompose).inverse? (.ofMatrix a) =
      if a.det = 0 then none else some (.ofMatrix a⁻¹) := by
  show (inverse? (DenseMatrix.ofMatrix a).toColumnMatrix).map toDense = _
  rw [DenseMatrix.toColumnMatrix_ofMatrix, h n a]
  split
  · rfl
  · rw [Option.map_some, toDense_ofMatrix]

/-- The inverse of nonsingular matrices, in the layout of columns. -/
noncomputable def exactInverse? (A : ColumnMatrix ℝ) : Option (ColumnMatrix ℝ) :=
  A.toDense.exactInverse?.map DenseMatrix.toColumnMatrix

theorem invertsExactly_exactInverse? : InvertsExactly exactInverse? := by
  intro n a
  have hentries : (DenseMatrix.ofMatrix a).toSquare rfl = a := by
    ext i j
    exact DenseMatrix.entry_ofMatrix a i j
  have hnonsingular : (DenseMatrix.ofMatrix a).IsNonsingular ↔ a.det ≠ 0 := by
    constructor
    · rintro ⟨_, hdet⟩
      rwa [hentries] at hdet
    · intro hdet
      refine ⟨rfl, ?_⟩
      rwa [hentries]
  rw [exactInverse?, toDense_ofMatrix, DenseMatrix.exactInverse?]
  by_cases hdet : a.det = 0
  · rw [dif_neg fun h => hnonsingular.mp h hdet, if_pos hdet]
    rfl
  · rw [dif_pos (hnonsingular.mpr hdet), if_neg hdet, Option.map_some, hentries]
    exact congrArg some (DenseMatrix.toColumnMatrix_ofMatrix a⁻¹)

end ColumnMatrix

end DiscreteOrdinates
