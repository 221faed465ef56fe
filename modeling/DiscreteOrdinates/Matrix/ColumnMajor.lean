import DiscreteOrdinates.Matrix.Basic

/-!
# Column-major matrices

Matrices stored column by column, the layout that the solvers work on. Entry `(i, j)`
stands at position `j * rows + i`, and changing the layout back and forth gives
the same entries.
-/

namespace DiscreteOrdinates

/-- A matrix, column by column. This is the storage that the library of the solvers
documents for its matrices. -/
structure ColumnMatrix (R : Type) where
  rows : Nat
  cols : Nat
  entries : Vector R (cols * rows)

namespace ColumnMatrix

variable {R : Type}

/-- The entry in row `i` and column `j`. -/
def entry (A : ColumnMatrix R) (i : Fin A.rows) (j : Fin A.cols) : R :=
  A.entries.get ⟨j.val * A.rows + i.val, DenseMatrix.position_lt j i⟩

/-- The matrix of the values of a function. -/
def ofFn (rows cols : Nat) (f : Fin rows → Fin cols → R) : ColumnMatrix R :=
  ⟨rows, cols, Vector.ofFn fun p => f (DenseMatrix.colOf p) (DenseMatrix.rowOf p)⟩

@[simp] theorem entry_ofFn (rows cols : Nat) (f : Fin rows → Fin cols → R)
    (i : Fin rows) (j : Fin cols) : (ofFn rows cols f).entry i j = f i j := by
  simp only [entry, ofFn, Vector.get, Vector.toArray_ofFn, Array.getElem_ofFn]
  exact congr (congrArg f (DenseMatrix.colOf_position j i)) (DenseMatrix.rowOf_position j i)

/-- The same matrix, row by row. -/
def toDense (A : ColumnMatrix R) : DenseMatrix R :=
  DenseMatrix.ofFn A.rows A.cols A.entry

theorem toDense_ofFn (rows cols : Nat) (f : Fin rows → Fin cols → R) :
    (ofFn rows cols f).toDense = DenseMatrix.ofFn rows cols f := by
  have hentries : (ofFn rows cols f).entry = f := by
    funext i j
    exact entry_ofFn rows cols f i j
  rw [toDense, hentries]
  rfl

end ColumnMatrix

namespace DenseMatrix

variable {R : Type}

/-- The same matrix, column by column. -/
def toColumnMatrix (A : DenseMatrix R) : ColumnMatrix R :=
  ⟨A.rows, A.cols, Vector.ofFn fun p => A.entry (colOf p) (rowOf p)⟩

@[simp] theorem entry_toColumnMatrix (A : DenseMatrix R) (i : Fin A.rows) (j : Fin A.cols) :
    A.toColumnMatrix.entry i j = A.entry i j := by
  simp only [toColumnMatrix, ColumnMatrix.entry, Vector.get, Vector.toArray_ofFn,
    Array.getElem_ofFn]
  exact congr (congrArg A.entry (colOf_position j i)) (rowOf_position j i)

theorem toColumnMatrix_ofFn (rows cols : Nat) (f : Fin rows → Fin cols → R) :
    (ofFn rows cols f).toColumnMatrix = ColumnMatrix.ofFn rows cols f := by
  have hentries : (ofFn rows cols f).entry = f := by
    funext i j
    exact entry_ofFn rows cols f i j
  rw [toColumnMatrix, hentries]
  rfl

end DenseMatrix

end DiscreteOrdinates
