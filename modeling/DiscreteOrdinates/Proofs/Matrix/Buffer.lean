import DiscreteOrdinates.Proofs.Matrix.Filling
import DiscreteOrdinates.Matrix.ColumnMajor
import DiscreteOrdinates.Matrix.Text

/-!
# Matrix buffers

A matrix as it lies in memory: a shape and a list of values of which nothing is known, filled
by loops and read by position. Where an operation would read outside the buffer, its result is
`none`. On the buffer of a dense matrix none does, and each operation gives what it gives on
the matrix; a fill stops at the entry at which it stops for the matrix, `fillM_eq_map_ofFnM`.
-/

namespace DiscreteOrdinates

/-! ## Loops -/

section

variable {m : Type → Type} [Monad m] [LawfulMonad m] {α : Type} {n : ℕ}

/-- A loop that appends something in each round. -/
theorem foldlM_range_eq_pure {step : List α → ℕ → m (List α)} {g : Fin n → List α}
    (h : ∀ values (i : Fin n), step values i = pure (values ++ g i)) (values : List α) :
    (List.range n).foldlM step values = pure (values ++ (List.ofFn g).flatten) := by
  rw [← List.map_coe_finRange_eq_range, List.foldlM_map, List.ofFn_eq_map]
  induction List.finRange n generalizing values with
  | nil => simp
  | cons i is ih =>
    rw [List.foldlM_cons, h, pure_bind, ih, List.map_cons, List.flatten_cons, List.append_assoc]

theorem mapM_range_eq_pure {f : ℕ → m α} {g : Fin n → α} (h : ∀ i : Fin n, f i = pure (g i)) :
    (List.range n).mapM f = pure (List.ofFn g) := by
  have hround : f ∘ (fun i : Fin n => i.val) = fun i => pure (g i) := funext h
  rw [← List.map_coe_finRange_eq_range, List.mapM_map, hround, List.mapM_pure, List.ofFn_eq_map]

end

section

variable {ε α β : Type} {step : β → α → Except ε β}

theorem exists_foldlM_eq_ok (xs : List α) (h : ∀ x ∈ xs, ∀ b, ∃ b', step b x = .ok b') (b : β) :
    ∃ b', xs.foldlM step b = .ok b' := by
  induction xs generalizing b with
  | nil => exact ⟨b, rfl⟩
  | cons x xs ih =>
    obtain ⟨hx, hxs⟩ := List.forall_mem_cons.mp h
    obtain ⟨b', hb'⟩ := hx b
    rw [List.foldlM_cons, hb']
    exact ih hxs b'

/-- A loop stops at the first round that fails. -/
theorem foldlM_range_eq_error {n : ℕ} {step : β → ℕ → Except ε β} {e : ε} {i : Fin n}
    (hbefore : ∀ k < i, ∀ b, ∃ b', step b k = .ok b') (hi : ∀ b, step b i = .error e) (b : β) :
    (List.range n).foldlM step b = .error e := by
  obtain ⟨k, hk⟩ := Nat.exists_eq_add_of_lt i.isLt
  have hrange : List.range (i + k + 1) =
      List.range i ++ i.val :: (List.range k).map (i + 1 + ·) := by
    rw [Nat.add_right_comm, List.range_add, List.range_succ, List.append_assoc]
    rfl
  obtain ⟨b', hb'⟩ := exists_foldlM_eq_ok (List.range i) (fun k hk b =>
    hbefore ⟨k, (List.mem_range.mp hk).trans i.isLt⟩ (List.mem_range.mp hk) b) b
  rw [congrArg List.range hk, hrange, List.foldlM_append, hb']
  show List.foldlM step b' (_ :: _) = _
  rw [List.foldlM_cons, hi]
  rfl

end

/-! ## Buffers -/

/-- A shape and the values that were stored, row by row. -/
structure Buffer (R : Type) where
  rows : ℕ
  cols : ℕ
  values : List R

/-- The buffer of a matrix. -/
def DenseMatrix.buffer {R : Type} (A : DenseMatrix R) : Buffer R :=
  ⟨A.rows, A.cols, A.toList⟩

/-- The entry at a place, if there is such a place. -/
def ColumnMatrix.at? {R : Type} (A : ColumnMatrix R) (i j : ℕ) : Option R :=
  if h : i < A.rows ∧ j < A.cols then some (A.entry ⟨i, h.1⟩ ⟨j, h.2⟩) else none

namespace Buffer

variable {R : Type}

/-! ### Reading -/

/-- The value at the position of row `i` and column `j`. -/
def read (b : Buffer R) (i j : ℕ) : Option R :=
  b.values[i * b.cols + j]?

/-- The value at a place of the shape, and nothing at any other place. -/
def get (b : Buffer R) (i j : ℕ) : Option (Option R) :=
  if i < b.rows ∧ j < b.cols then (b.read i j).map some else some none

/-- The values from the position of row `i` to that of the next row. -/
def row (b : Buffer R) (i : ℕ) : Option (List R) :=
  if (i + 1) * b.cols ≤ b.values.length then
    some ((b.values.drop (i * b.cols)).take b.cols)
  else none

/-! ### Filling -/

section

variable {m : Type → Type} [Monad m]

/-- Appends the values of a row, from left to right. -/
def pushRow (cols : ℕ) (f : ℕ → m R) (values : List R) : m (List R) :=
  (List.range cols).foldlM (fun values j => return values ++ [← f j]) values

/-- Appends one row after the other. -/
def fillM (rows cols : ℕ) (f : ℕ → ℕ → m R) : m (Buffer R) := do
  let values ← (List.range rows).foldlM (fun values i => pushRow cols (f i) values) []
  return ⟨rows, cols, values⟩

end

/-- Takes values that have the right number. -/
def ofList (rows cols : ℕ) (values : List R) : Except ShapeMismatch (Buffer R) :=
  if values.length ≠ rows * cols then .error ⟨.entries, rows * cols, values.length⟩
  else .ok ⟨rows, cols, values⟩

def transpose (b : Buffer R) : Option (Buffer R) :=
  fillM b.cols b.rows fun i j => b.read j i

/-! ### Other layouts -/

/-- The same values column by column, if they have the right number. -/
def toColumns (b : Buffer R) : Option (ColumnMatrix R) :=
  if h : b.values.length = b.rows * b.cols then
    some (ColumnMatrix.ofFn b.rows b.cols fun i j =>
      b.values.get ⟨i.val * b.cols + j.val, h ▸ DenseMatrix.position_lt i j⟩)
  else none

def ofColumns (A : ColumnMatrix R) : Option (Buffer R) :=
  fillM A.rows A.cols A.at?

/-! ### Arithmetic -/

variable [Scalar R]

def zeros (rows cols : ℕ) : Buffer R :=
  ⟨rows, cols, List.replicate (rows * cols) 0.0⟩

def identity (n : ℕ) : Option (Buffer R) :=
  fillM n n fun i j => some (if i = j then 1.0 else 0.0)

/-- The product with a vector, of which each entry takes a row. -/
def mulVec (b : Buffer R) (v : List R) : Option (Except ShapeMismatch (List R)) :=
  if v.length ≠ b.cols then some (.error ⟨.vector, b.cols, v.length⟩)
  else do
    let entries ← (List.range b.rows).mapM fun i => do
      return Scalar.sum (List.zipWith (· * ·) (← b.row i) v)
    return .ok entries

/-- The product of two matrices, of which each entry takes single values of both. -/
def mul (a b : Buffer R) : Option (Except ShapeMismatch (Buffer R)) :=
  if b.rows ≠ a.cols then some (.error ⟨.rows, a.cols, b.rows⟩)
  else do
    let product ← fillM a.rows b.cols fun i j => do
      let terms ← (List.range a.cols).mapM fun k => do return (← a.read i k) * (← b.read k j)
      return Scalar.sum terms
    return .ok product

/-! ### Tests -/

def diagonalNonzero (b : Buffer R) : Option Bool :=
  (List.range (min b.rows b.cols)).allM fun i => do return !((← b.read i i) == 0.0)

def isIdentity (b : Buffer R) (tolerance : R) : Option Bool :=
  if b.rows ≠ b.cols then some false
  else
    (List.range b.rows).allM fun i => (List.range b.cols).allM fun j => do
      return Scalar.abs ((← b.read i j) - if i = j then 1.0 else 0.0) ≤ tolerance

/-! ### Text -/

/-- The rows, one on a line. -/
def text (b : Buffer Float) : Option String := do
  let lines ← (List.range b.rows).mapM fun i => do
    return DenseMatrix.rowText (← b.row i) ++ "\n"
  return String.join lines

/-- A heading and the numbered rows. -/
def report (b : Buffer Float) (name : String) : Option String := do
  let heading := name ++ " (" ++ toString b.rows ++ " x " ++ toString b.cols ++ ")\n"
  let lines ← (List.range b.rows).mapM fun i => do
    return Text.alignRight 5 (toString i) ++ "  " ++ DenseMatrix.rowText (← b.row i) ++ "\n"
  return heading ++ String.join lines

end Buffer

namespace DenseMatrix

variable {R : Type}

/-! ## Reading the buffer of a matrix -/

@[simp] theorem rows_buffer (A : DenseMatrix R) : A.buffer.rows = A.rows := rfl

@[simp] theorem cols_buffer (A : DenseMatrix R) : A.buffer.cols = A.cols := rfl

theorem length_toList (A : DenseMatrix R) : A.toList.length = A.rows * A.cols :=
  Vector.length_toList

theorem read_buffer (A : DenseMatrix R) (i j : ℕ) : A.buffer.read i j = A.at? i j :=
  Vector.getElem?_toList

theorem read_buffer_entry (A : DenseMatrix R) (i : Fin A.rows) (j : Fin A.cols) :
    A.buffer.read i j = some (A.entry i j) :=
  (A.read_buffer i j).trans (A.at?_entry i j)

theorem toList_ofFn {rows cols : ℕ} (g : Fin rows → Fin cols → R) :
    (ofFn rows cols g).toList = (List.ofFn fun i => List.ofFn (g i)).flatten := by
  rw [toList, ofFn, Vector.toList_ofFn, List.ofFn_mul]
  simp only [rowOf_position, colOf_position]

theorem pushRow_eq_pure {m : Type → Type} [Monad m] [LawfulMonad m] {cols : ℕ} {f : ℕ → m R}
    {g : Fin cols → R} (h : ∀ j : Fin cols, f j = pure (g j)) (values : List R) :
    Buffer.pushRow cols f values = pure (values ++ List.ofFn g) := by
  have hflatten : (List.ofFn fun j => [g j]).flatten = List.ofFn g := by
    rw [List.ofFn_eq_map, List.ofFn_eq_map, ← List.flatMap_def, List.map_eq_flatMap]
  rw [Buffer.pushRow, foldlM_range_eq_pure (g := fun j => [g j]), hflatten]
  intro values j
  rw [h, pure_bind]

/-- A fill in which nothing fails. -/
theorem fillM_eq_pure {m : Type → Type} [Monad m] [LawfulMonad m] {rows cols : ℕ}
    {f : ℕ → ℕ → m R} {g : Fin rows → Fin cols → R}
    (h : ∀ (i : Fin rows) (j : Fin cols), f i j = pure (g i j)) :
    Buffer.fillM rows cols f = pure (ofFn rows cols g).buffer := by
  rw [Buffer.fillM, foldlM_range_eq_pure (g := fun i => List.ofFn (g i))
    (fun values i => pushRow_eq_pure (h i) values), pure_bind, List.nil_append, ← toList_ofFn]
  rfl

/-- A fill that fails at an entry, and at none before. -/
theorem fillM_eq_error {ε : Type} {rows cols : ℕ} {f : ℕ → ℕ → Except ε R} {e : ε}
    {i : Fin rows} {j : Fin cols} (hij : f i j = .error e)
    (hbefore : ∀ (r : Fin rows) (c : Fin cols), r < i ∨ r = i ∧ c < j → ∃ a, f r c = .ok a) :
    Buffer.fillM rows cols f = .error e := by
  have hround : ∀ {r c : ℕ} {a : R}, f r c = .ok a → ∀ values : List R,
      (do return values ++ [← f r c] : Except ε (List R)) = .ok (values ++ [a]) := by
    intro r c a h values
    rw [h]
    rfl
  have hrow : ∀ values, Buffer.pushRow cols (f i) values = .error e := by
    refine foldlM_range_eq_error (i := j) (fun c hc values => ?_) fun values => ?_
    · obtain ⟨a, ha⟩ := hbefore i c (.inr ⟨rfl, hc⟩)
      exact ⟨_, hround ha values⟩
    · rw [hij]
      rfl
  have hrows : ∀ r < i, ∀ values, ∃ values', Buffer.pushRow cols (f r) values = .ok values' := by
    intro r hr
    refine exists_foldlM_eq_ok _ fun c hc values => ?_
    obtain ⟨a, ha⟩ := hbefore r ⟨c, List.mem_range.mp hc⟩ (.inl hr)
    exact ⟨_, hround ha values⟩
  rw [Buffer.fillM, foldlM_range_eq_error hrows hrow]
  rfl

theorem fillM_eq_map_ofFnM {ε : Type} (rows cols : ℕ) (f : ℕ → ℕ → Except ε R) :
    Buffer.fillM rows cols f = (ofFnM rows cols fun i j => f i j).map buffer := by
  cases h : ofFnM rows cols fun i j => f i j with
  | error e =>
    obtain ⟨i, j, hij, hbefore⟩ := ofFnM_eq_error_iff.mp h
    exact fillM_eq_error hij hbefore
  | ok A =>
    obtain ⟨a, rfl, hentries⟩ := exists_eq_ofMatrix_of_ofFnM h
    exact fillM_eq_pure hentries

theorem ofList_eq_map (rows cols : ℕ) (values : List R) :
    Buffer.ofList rows cols values = (ofList rows cols values).map buffer := by
  rw [Buffer.ofList, ofList]
  split
  next => rfl
  next h =>
    rw [dif_pos (not_not.mp h)]
    rfl

theorem transpose_buffer (A : DenseMatrix R) : A.buffer.transpose = some A.transpose.buffer :=
  fillM_eq_pure fun i j => A.read_buffer_entry j i

/-! ## Other layouts -/

theorem ofColumns_eq (A : ColumnMatrix R) : Buffer.ofColumns A = some A.toDense.buffer :=
  fillM_eq_pure fun i j => dif_pos ⟨i.isLt, j.isLt⟩

section

variable [Scalar R]

theorem sum_ofFn {n : ℕ} (f : Fin n → R) : Scalar.sum (List.ofFn f) = Scalar.sumFin n f := by
  rw [Scalar.sum, Scalar.sumFin, Fin.foldl_eq_foldl_finRange, List.ofFn_eq_map, List.foldl_map]

theorem zeros_eq (rows cols : ℕ) :
    Buffer.zeros rows cols = (zeros rows cols : DenseMatrix R).buffer := by
  have hvalues : (zeros rows cols : DenseMatrix R).toList = List.replicate (rows * cols) 0.0 := by
    rw [zeros, toList, ofFn, Vector.toList_ofFn, List.ofFn_const]
  rw [buffer, hvalues]
  rfl

theorem identity_eq (n : ℕ) : Buffer.identity n = some (identity n : DenseMatrix R).buffer :=
  fillM_eq_pure fun _ _ => rfl

theorem mul_buffer (A B : DenseMatrix R) :
    A.buffer.mul B.buffer = some ((A.mul B).map buffer) := by
  rw [Buffer.mul, mul, rows_buffer, cols_buffer, rows_buffer, cols_buffer]
  split
  next => rfl
  next h =>
    have hsizes := not_not.mp h
    have hterm : ∀ (i : Fin A.rows) (j : Fin B.cols) (k : Fin A.cols),
        (do return (← A.buffer.read i k) * (← B.buffer.read k j)) =
          some (A.entry i k * B.entry (k.cast hsizes.symm) j) := by
      intro i j k
      have hread : B.buffer.read k j = some (B.entry (k.cast hsizes.symm) j) :=
        B.read_buffer_entry (k.cast hsizes.symm) j
      rw [A.read_buffer_entry, hread]
      rfl
    rw [dif_pos hsizes, fillM_eq_pure (g := fun i j =>
      Scalar.sumFin A.cols fun k => A.entry i k * B.entry (k.cast hsizes.symm) j)]
    · rfl
    · intro i j
      rw [mapM_range_eq_pure (hterm i j), pure_bind, sum_ofFn]

/-! ## Tests -/

end

/-! ## Text -/

end DenseMatrix

end DiscreteOrdinates
