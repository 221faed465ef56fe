import DiscreteOrdinates.Scalar

/-!
# Dense matrices

Matrices of any shape, stored row by row in one buffer whose size is part of
the type. Entry `(i, j)` stands at position `i * cols + j`; `entry_ofFn` says
that filling a matrix from a function and reading it back agree on that.
-/

namespace DiscreteOrdinates

/-- A matrix, row by row. -/
structure DenseMatrix (R : Type) where
  rows : Nat
  cols : Nat
  entries : Vector R (rows * cols)

/-- What has the wrong size. -/
inductive Operand where
  | entries
  | vector
  | rows
  | moments
  | flux
  deriving DecidableEq, Repr

/-- An operand whose size does not fit. -/
structure ShapeMismatch where
  operand : Operand
  expected : Nat
  found : Nat
  deriving DecidableEq, Repr

namespace DenseMatrix

variable {R : Type}

/-! ## Positions -/

theorem position_lt {rows cols : Nat} (i : Fin rows) (j : Fin cols) :
    i.val * cols + j.val < rows * cols :=
  calc
    i.val * cols + j.val < i.val * cols + cols := Nat.add_lt_add_left j.isLt _
    _ = (i.val + 1) * cols := (Nat.succ_mul _ _).symm
    _ ≤ rows * cols := Nat.mul_le_mul_right _ i.isLt

/-- The row of a position in the buffer. -/
def rowOf {rows cols : Nat} (p : Fin (rows * cols)) : Fin rows :=
  ⟨p.val / cols, Nat.div_lt_of_lt_mul (Nat.mul_comm rows cols ▸ p.isLt)⟩

/-- The column of a position in the buffer. -/
def colOf {rows cols : Nat} (p : Fin (rows * cols)) : Fin cols :=
  ⟨p.val % cols, Nat.mod_lt _ (Nat.pos_of_mul_pos_left (Nat.lt_of_le_of_lt (Nat.zero_le _) p.isLt))⟩

@[simp] theorem rowOf_position {rows cols : Nat} (i : Fin rows) (j : Fin cols) :
    rowOf ⟨i.val * cols + j.val, position_lt i j⟩ = i := by
  apply Fin.ext
  show (i.val * cols + j.val) / cols = i.val
  rw [Nat.mul_comm, Nat.mul_add_div (Nat.lt_of_le_of_lt (Nat.zero_le _) j.isLt),
    Nat.div_eq_of_lt j.isLt, Nat.add_zero]

@[simp] theorem colOf_position {rows cols : Nat} (i : Fin rows) (j : Fin cols) :
    colOf ⟨i.val * cols + j.val, position_lt i j⟩ = j := by
  apply Fin.ext
  show (i.val * cols + j.val) % cols = j.val
  rw [Nat.mul_comm, Nat.mul_add_mod, Nat.mod_eq_of_lt j.isLt]

/-! ## Entries -/

/-- The entry in row `i` and column `j`. -/
def entry (A : DenseMatrix R) (i : Fin A.rows) (j : Fin A.cols) : R :=
  A.entries.get ⟨i.val * A.cols + j.val, position_lt i j⟩

/-- The matrix of the values of a function. -/
def ofFn (rows cols : Nat) (f : Fin rows → Fin cols → R) : DenseMatrix R :=
  ⟨rows, cols, Vector.ofFn fun p => f (rowOf p) (colOf p)⟩

@[simp] theorem rows_ofFn (rows cols : Nat) (f : Fin rows → Fin cols → R) :
    (ofFn rows cols f).rows = rows := rfl

@[simp] theorem cols_ofFn (rows cols : Nat) (f : Fin rows → Fin cols → R) :
    (ofFn rows cols f).cols = cols := rfl

@[simp] theorem entry_ofFn (rows cols : Nat) (f : Fin rows → Fin cols → R)
    (i : Fin rows) (j : Fin cols) : (ofFn rows cols f).entry i j = f i j := by
  simp only [entry, ofFn, Vector.get, Vector.toArray_ofFn, Array.getElem_ofFn]
  exact congr (congrArg f (rowOf_position i j)) (colOf_position i j)

/-- The matrix of the values of a function that may fail. It is filled row by
row, and the first failure is the answer. -/
def ofFnM {ε : Type} (rows cols : Nat) (f : Fin rows → Fin cols → Except ε R) :
    Except ε (DenseMatrix R) := do
  let entries ← Vector.ofFnM fun p => f (rowOf p) (colOf p)
  return ⟨rows, cols, entries⟩

/-- A matrix from a list that holds its entries row by row. -/
def ofList (rows cols : Nat) (xs : List R) : Except ShapeMismatch (DenseMatrix R) :=
  if h : xs.length = rows * cols then .ok ⟨rows, cols, ⟨xs.toArray, by simpa using h⟩⟩
  else .error ⟨.entries, rows * cols, xs.length⟩

/-- All entries, row by row. -/
def toList (A : DenseMatrix R) : List R :=
  A.entries.toList

/-- The entry in row `i` and column `j`, if the matrix has such a place. -/
def get? (A : DenseMatrix R) (i j : Nat) : Option R :=
  if i < A.rows ∧ j < A.cols then A.entries[i * A.cols + j]? else none

/-- The entry at the position that row `i` and column `j` would have. Only the
buffer is consulted, so a column beyond the last one leads into a later row. -/
def at? (A : DenseMatrix R) (i j : Nat) : Option R :=
  A.entries[i * A.cols + j]?

/-- Row `i`, as far as the buffer holds such a row. -/
def row? (A : DenseMatrix R) (i : Nat) : Option (List R) :=
  if (i + 1) * A.cols ≤ A.rows * A.cols then
    some ((A.toList.drop (i * A.cols)).take A.cols)
  else none

/-- The entries of a row of the matrix. -/
def row (A : DenseMatrix R) (i : Fin A.rows) : List R :=
  List.ofFn fun j => A.entry i j

/-- The rows of the matrix. -/
def toRows (A : DenseMatrix R) : List (List R) :=
  List.ofFn fun i => A.row i

/-- Rows become columns. -/
def transpose (A : DenseMatrix R) : DenseMatrix R :=
  ofFn A.cols A.rows fun i j => A.entry j i

/-! ## Arithmetic -/

variable [Scalar R]

/-- The matrix of zeros. -/
def zeros (rows cols : Nat) : DenseMatrix R :=
  ofFn rows cols fun _ _ => 0.0

/-- One on the diagonal, zero elsewhere. -/
def unitEntry {n m : Nat} (i : Fin n) (j : Fin m) : R :=
  if i.val = j.val then 1.0 else 0.0

/-- The identity matrix of size `n`. -/
def identity (n : Nat) : DenseMatrix R :=
  ofFn n n unitEntry

/-- The product with a vector of `cols` entries. -/
def mulVec (A : DenseMatrix R) (v : List R) : Except ShapeMismatch (List R) :=
  if h : v.length = A.cols then
    .ok (List.ofFn fun i =>
      Scalar.sumFin A.cols fun k => A.entry i k * v.get ⟨k.val, by rw [h]; exact k.isLt⟩)
  else .error ⟨.vector, A.cols, v.length⟩

/-- The product of two matrices whose inner sizes agree. -/
@[specialize] def product (A B : DenseMatrix R) (h : B.rows = A.cols) : DenseMatrix R :=
  ofFn A.rows B.cols fun i j =>
    Scalar.sumFin A.cols fun k => A.entry i k * B.entry (k.cast h.symm) j

/-- The product of two matrices. -/
def mul (A B : DenseMatrix R) : Except ShapeMismatch (DenseMatrix R) :=
  if h : B.rows = A.cols then .ok (A.product B h)
  else .error ⟨.rows, A.cols, B.rows⟩

/-! ## Tests -/

/-- Whether no entry of the leading diagonal is zero. -/
def diagonalNonzero (A : DenseMatrix R) : Bool :=
  (List.finRange (min A.rows A.cols)).all fun i =>
    !(A.entry (i.castLE (Nat.min_le_left ..)) (i.castLE (Nat.min_le_right ..)) == 0.0)

/-- Whether the matrix is square and each entry within `tolerance` of the
identity. -/
def isIdentity (A : DenseMatrix R) (tolerance : R) : Bool :=
  A.rows == A.cols &&
    (List.finRange A.rows).all fun i =>
      (List.finRange A.cols).all fun j =>
        Scalar.abs (A.entry i j - unitEntry i j) ≤ tolerance

/-- Equality of shape and entries, in the sense of the scalars. -/
def beq (A B : DenseMatrix R) : Bool :=
  A.rows == B.rows && A.cols == B.cols && A.toList == B.toList

instance : BEq (DenseMatrix R) := ⟨beq⟩

end DenseMatrix

end DiscreteOrdinates
