import DiscreteOrdinates.Proofs.RealScalar
import DiscreteOrdinates.Matrix.Basic

/-!
# Products of dense matrices

Every dense matrix is stored from a matrix in the sense of Mathlib. On stored
matrices over the reals, identity and products are those of Mathlib.
-/

namespace DiscreteOrdinates

theorem Scalar.sumFin_real (n : ℕ) (f : Fin n → ℝ) : Scalar.sumFin n f = ∑ k, f k := by
  unfold Scalar.sumFin
  rw [Scalar.zero_real, neg_zero, Fin.foldl_eq_foldl_finRange, Fin.sum_univ_def,
    List.sum_eq_foldl, List.foldl_map]

/-- A list is the list of the values of a function on its places. -/
theorem exists_eq_ofFn_of_length {α : Type} {xs : List α} {n : ℕ} (h : xs.length = n) :
    ∃ f : Fin n → α, xs = List.ofFn f := by
  subst h
  exact ⟨xs.get, (List.ofFn_get xs).symm⟩

namespace DenseMatrix

/-! ## Stored matrices -/

/-- A matrix, stored row by row. -/
def ofMatrix {R : Type} {n m : ℕ} (a : Matrix (Fin n) (Fin m) R) : DenseMatrix R :=
  ofFn n m fun i j => a i j

@[simp] theorem entry_ofMatrix {R : Type} {n m : ℕ} (a : Matrix (Fin n) (Fin m) R) (i : Fin n)
    (j : Fin m) : (ofMatrix a).entry i j = a i j :=
  entry_ofFn n m _ i j

theorem eq_ofMatrix {R : Type} (A : DenseMatrix R) : A = ofMatrix (Matrix.of A.entry) := by
  obtain ⟨rows, cols, entries⟩ := A
  have hentries : entries = Vector.ofFn fun p : Fin (rows * cols) =>
      (⟨rows, cols, entries⟩ : DenseMatrix R).entry (rowOf p) (colOf p) := by
    ext p hp
    have hposition : p / cols * cols + p % cols = p := Nat.div_add_mod' p cols
    simp [entry, rowOf, colOf, Vector.get, hposition]
  exact congrArg (DenseMatrix.mk rows cols) hentries

theorem exists_eq_ofMatrix {R : Type} {A : DenseMatrix R} {rows cols : ℕ} (hrows : A.rows = rows)
    (hcols : A.cols = cols) : ∃ a : Matrix (Fin rows) (Fin cols) R, A = ofMatrix a := by
  subst hrows hcols
  exact ⟨_, A.eq_ofMatrix⟩

theorem exists_matrix {R : Type} (A : DenseMatrix R) :
    ∃ (n m : ℕ) (a : Matrix (Fin n) (Fin m) R), A = ofMatrix a :=
  ⟨_, _, _, A.eq_ofMatrix⟩

theorem exists_matrix_of_rows {R : Type} {A : DenseMatrix R} {n : ℕ} (h : A.rows = n) :
    ∃ (m : ℕ) (a : Matrix (Fin n) (Fin m) R), A = ofMatrix a :=
  ⟨_, exists_eq_ofMatrix h rfl⟩

theorem exists_matrix_of_cols {R : Type} {A : DenseMatrix R} {m : ℕ} (h : A.cols = m) :
    ∃ (n : ℕ) (a : Matrix (Fin n) (Fin m) R), A = ofMatrix a :=
  ⟨_, exists_eq_ofMatrix rfl h⟩

/-- A vector is only filled if no element fails. -/
theorem getElem_of_ofFnM_eq_ok {ε α : Type} {n : ℕ} {f : Fin n → Except ε α} {v : Vector α n}
    (h : Vector.ofFnM f = .ok v) (i : Fin n) : f i = .ok v[i] := by
  induction n with
  | zero => exact i.elim0
  | succ n ih =>
    rw [Vector.ofFnM_succ] at h
    cases hfirst : Vector.ofFnM fun i => f i.castSucc with
    | error e => simp [hfirst, bind, Except.bind] at h
    | ok u =>
      cases hlast : f (Fin.last n) with
      | error e => simp [hfirst, hlast, bind, Except.bind] at h
      | ok a =>
        simp only [hfirst, hlast, bind, Except.bind, pure, Except.pure, Except.ok.injEq] at h
        subst h
        refine Fin.lastCases ?_ (fun i => ?_) i
        · simp [hlast]
        · simp [ih hfirst i]

/-- A fill that succeeds holds the values that were asked for. -/
theorem exists_eq_ofMatrix_of_ofFnM {ε R : Type} {rows cols : ℕ}
    {f : Fin rows → Fin cols → Except ε R} {A : DenseMatrix R} (h : ofFnM rows cols f = .ok A) :
    ∃ a : Matrix (Fin rows) (Fin cols) R, A = ofMatrix a ∧ ∀ i j, f i j = .ok (a i j) := by
  unfold ofFnM at h
  cases hentries : Vector.ofFnM fun p => f (rowOf p) (colOf p) with
  | error e => simp [hentries, bind, Except.bind] at h
  | ok entries =>
    simp only [hentries, bind, Except.bind, pure, Except.pure, Except.ok.injEq] at h
    subst h
    refine ⟨_, eq_ofMatrix _, fun i j => ?_⟩
    have hvalue := getElem_of_ofFnM_eq_ok hentries ⟨i.val * cols + j.val, position_lt i j⟩
    rw [rowOf_position, colOf_position] at hvalue
    exact hvalue

/-- Inside a matrix the position in the buffer is that of the entry. -/
theorem at?_entry {R : Type} (A : DenseMatrix R) (i : Fin A.rows) (j : Fin A.cols) :
    A.at? i j = some (A.entry i j) :=
  Vector.getElem?_eq_getElem (position_lt i j)

theorem get?_entry {R : Type} (A : DenseMatrix R) (i : Fin A.rows) (j : Fin A.cols) :
    A.get? i j = some (A.entry i j) :=
  (if_pos ⟨i.isLt, j.isLt⟩).trans (A.at?_entry i j)

theorem at?_ofMatrix {R : Type} {n m : ℕ} (a : Matrix (Fin n) (Fin m) R) (i : Fin n) (j : Fin m) :
    (ofMatrix a).at? i j = some (a i j) := by
  rw [← entry_ofMatrix a i j]
  exact at?_entry (ofMatrix a) i j

theorem get?_ofMatrix {R : Type} {n m : ℕ} (a : Matrix (Fin n) (Fin m) R) (i : Fin n) (j : Fin m) :
    (ofMatrix a).get? i j = some (a i j) := by
  rw [← entry_ofMatrix a i j]
  exact get?_entry (ofMatrix a) i j

/-- The row of a stored matrix. -/
theorem row?_ofMatrix {R : Type} {n m : ℕ} (a : Matrix (Fin n) (Fin m) R) (i : Fin n) :
    (ofMatrix a).row? i = some (List.ofFn (a i)) := by
  have hinside : (i.val + 1) * m ≤ n * m := Nat.mul_le_mul_right m i.isLt
  have hlength : (ofMatrix a).toList.length = n * m := Vector.length_toList
  have hrow : ((ofMatrix a).toList.drop (i * m)).take m = List.ofFn (a i) := by
    apply List.ext_getElem
    · rw [List.length_take, List.length_drop, hlength, List.length_ofFn]
      rw [Nat.succ_mul] at hinside
      omega
    · intro j hj hj'
      rw [List.length_ofFn] at hj'
      rw [List.getElem_take, List.getElem_drop, List.getElem_ofFn]
      exact entry_ofMatrix a i ⟨j, hj'⟩
  rw [row?, ← hrow]
  exact if_pos hinside

theorem ofMatrix_injective {R : Type} {n m : ℕ} :
    Function.Injective (ofMatrix : Matrix (Fin n) (Fin m) R → DenseMatrix R) := by
  intro a b h
  funext i
  have hrow := congrArg (fun A => A.row? i) h
  simp only [row?_ofMatrix, Option.some.injEq] at hrow
  exact List.ofFn_injective hrow

/-! ## Transposition -/

theorem transpose_ofMatrix {R : Type} {n m : ℕ} (a : Matrix (Fin n) (Fin m) R) :
    (ofMatrix a).transpose = ofMatrix a.transpose := by
  have hentries : (fun (i : Fin m) (j : Fin n) => (ofMatrix a).entry j i) = a.transpose := by
    funext i j
    exact entry_ofMatrix a j i
  exact congrArg (ofFn m n) hentries

theorem transpose_transpose {R : Type} (A : DenseMatrix R) : A.transpose.transpose = A := by
  obtain ⟨n, m, a, rfl⟩ := A.exists_matrix
  rw [transpose_ofMatrix, transpose_ofMatrix, Matrix.transpose_transpose]

/-! ## Identity and products -/

theorem identity_eq_ofMatrix (n : ℕ) : identity n = ofMatrix (1 : Matrix (Fin n) (Fin n) ℝ) := by
  have hunit : (fun i j : Fin n => unitEntry i j) =
      fun i j => (1 : Matrix (Fin n) (Fin n) ℝ) i j := by
    funext i j
    simp [unitEntry, Matrix.one_apply, Scalar.zero_real, Scalar.one_real, Fin.ext_iff]
  exact congrArg (ofFn n n) hunit

theorem mul_ofMatrix {n k m : ℕ} (a : Matrix (Fin n) (Fin k) ℝ) (b : Matrix (Fin k) (Fin m) ℝ) :
    (ofMatrix a).mul (ofMatrix b) = .ok (ofMatrix (a * b)) := by
  have hentries : (fun (i : Fin n) (j : Fin m) =>
      Scalar.sumFin k fun l => (ofMatrix a).entry i l * (ofMatrix b).entry l j) =
      fun i j => (a * b) i j := by
    funext i j
    simp only [Scalar.sumFin_real, entry_ofMatrix, Matrix.mul_apply]
  have hmul : (ofMatrix a).mul (ofMatrix b) = .ok ((ofMatrix a).product (ofMatrix b) rfl) :=
    dif_pos rfl
  rw [hmul]
  exact congrArg (fun f => Except.ok (ofFn n m f)) hentries

theorem mul_eq_identity_iff {n m : ℕ} (d : Matrix (Fin m) (Fin n) ℝ) (a : Matrix (Fin n) (Fin m) ℝ) :
    (ofMatrix d).mul (ofMatrix a) = .ok (identity m) ↔ d * a = 1 := by
  rw [mul_ofMatrix, identity_eq_ofMatrix, Except.ok.injEq, ofMatrix_injective.eq_iff]

theorem mulVec_ofMatrix {n m : ℕ} (a : Matrix (Fin n) (Fin m) ℝ) (v : Fin m → ℝ) :
    (ofMatrix a).mulVec (List.ofFn v) = .ok (List.ofFn (a.mulVec v)) := by
  have hlength : (List.ofFn v).length = (ofMatrix a).cols := List.length_ofFn
  have hentries : (fun i : Fin n => Scalar.sumFin m fun k =>
      (ofMatrix a).entry i k * (List.ofFn v).get ⟨k.val, by rw [hlength]; exact k.isLt⟩) =
      a.mulVec v := by
    funext i
    simp only [Scalar.sumFin_real, entry_ofMatrix, List.get_ofFn, Matrix.mulVec, dotProduct]
    rfl
  rw [mulVec, dif_pos hlength]
  exact congrArg (fun f => Except.ok (List.ofFn f)) hentries

end DenseMatrix

end DiscreteOrdinates
