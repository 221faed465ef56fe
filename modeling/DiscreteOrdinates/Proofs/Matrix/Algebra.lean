import DiscreteOrdinates.Proofs.Matrix.Product
import DiscreteOrdinates.Requirement

/-!
# The algebra of dense matrices

In exact arithmetic dense matrices of all shapes multiply as matrices do, empty ones among
them, and a product is refused just when the inner sizes differ. Main statement:
`productLaws`.
-/

namespace DiscreteOrdinates

namespace DenseMatrix

/-! ## Shapes -/

section

variable {R : Type} [Scalar R] {A B : DenseMatrix R} {v : List R}

theorem mul_of_ne (h : B.rows ≠ A.cols) : A.mul B = .error ⟨.rows, A.cols, B.rows⟩ :=
  dif_neg h

theorem mulVec_of_ne (h : v.length ≠ A.cols) : A.mulVec v = .error ⟨.vector, A.cols, v.length⟩ :=
  dif_neg h

theorem rows_eq_of_mul_eq_ok {D : DenseMatrix R} (h : A.mul B = .ok D) : B.rows = A.cols := by
  by_contra hne
  rw [mul_of_ne hne] at h
  cases h

theorem length_eq_of_mulVec_eq_ok {w : List R} (h : A.mulVec v = .ok w) : v.length = A.cols := by
  by_contra hne
  rw [mulVec_of_ne hne] at h
  cases h

theorem exists_mul_eq_ok_iff :
    (∃ D, A.mul B = .ok D ∧ D.rows = A.rows ∧ D.cols = B.cols) ↔ B.rows = A.cols :=
  ⟨fun ⟨_, h, _⟩ => rows_eq_of_mul_eq_ok h, fun h => ⟨A.product B h, dif_pos h, rfl, rfl⟩⟩

theorem exists_mulVec_eq_ok_iff :
    (∃ w, A.mulVec v = .ok w ∧ w.length = A.rows) ↔ v.length = A.cols :=
  ⟨fun ⟨_, h, _⟩ => length_eq_of_mulVec_eq_ok h, fun h => ⟨_, dif_pos h, List.length_ofFn⟩⟩

theorem mul_eq_error_iff (e : ShapeMismatch) :
    A.mul B = .error e ↔ B.rows ≠ A.cols ∧ e = ⟨.rows, A.cols, B.rows⟩ := by
  unfold mul
  split
  next h => simp [h]
  next h => simp [h, eq_comm]

theorem mulVec_eq_error_iff (e : ShapeMismatch) :
    A.mulVec v = .error e ↔ v.length ≠ A.cols ∧ e = ⟨.vector, A.cols, v.length⟩ := by
  unfold mulVec
  split
  next h => simp [h]
  next h => simp [h, eq_comm]

end

/-! ## Products of stored matrices -/

variable {A B D : DenseMatrix ℝ} {n k m : ℕ}

/-- What a stored matrix can be multiplied by, and what the product is. -/
theorem ofMatrix_mul_eq_ok_iff (a : Matrix (Fin n) (Fin k) ℝ) :
    (ofMatrix a).mul B = .ok D ↔
      ∃ (m : ℕ) (b : Matrix (Fin k) (Fin m) ℝ), B = ofMatrix b ∧ D = ofMatrix (a * b) := by
  constructor
  · intro h
    obtain ⟨m, b, rfl⟩ := exists_matrix_of_rows (n := k) (rows_eq_of_mul_eq_ok h)
    rw [mul_ofMatrix] at h
    exact ⟨m, b, rfl, (Except.ok.inj h).symm⟩
  · rintro ⟨m, b, rfl, rfl⟩
    exact mul_ofMatrix a b

/-- What can be multiplied by a stored matrix, and what the product is. -/
theorem mul_ofMatrix_eq_ok_iff (b : Matrix (Fin k) (Fin m) ℝ) :
    A.mul (ofMatrix b) = .ok D ↔
      ∃ (n : ℕ) (a : Matrix (Fin n) (Fin k) ℝ), A = ofMatrix a ∧ D = ofMatrix (a * b) := by
  constructor
  · intro h
    obtain ⟨n, a, rfl⟩ := exists_matrix_of_cols (m := k) (rows_eq_of_mul_eq_ok h).symm
    rw [mul_ofMatrix] at h
    exact ⟨n, a, rfl, (Except.ok.inj h).symm⟩
  · rintro ⟨n, a, rfl, rfl⟩
    exact mul_ofMatrix a b

/-- What a stored matrix can be applied to, and what comes of it. -/
theorem ofMatrix_mulVec_eq_ok_iff (a : Matrix (Fin n) (Fin k) ℝ) {v w : List ℝ} :
    (ofMatrix a).mulVec v = .ok w ↔
      ∃ u : Fin k → ℝ, v = List.ofFn u ∧ w = List.ofFn (a.mulVec u) := by
  constructor
  · intro h
    obtain ⟨u, rfl⟩ := exists_eq_ofFn_of_length (length_eq_of_mulVec_eq_ok h)
    exact ⟨u, rfl, Except.ok.inj (h.symm.trans (mulVec_ofMatrix a u))⟩
  · rintro ⟨u, rfl, rfl⟩
    exact mulVec_ofMatrix a u

/-! ## Laws -/

/-- The order in which three matrices are multiplied does not matter. -/
theorem mul_assoc_iff (A B C D : DenseMatrix ℝ) :
    (A.mul B >>= fun P => P.mul C) = .ok D ↔ (B.mul C >>= fun Q => A.mul Q) = .ok D := by
  rw [bind_eq_ok, bind_eq_ok]
  constructor
  · rintro ⟨P, hP, hD⟩
    obtain ⟨n, k, a, rfl⟩ := A.exists_matrix
    obtain ⟨m, b, rfl, rfl⟩ := (ofMatrix_mul_eq_ok_iff a).mp hP
    obtain ⟨l, c, rfl, rfl⟩ := (ofMatrix_mul_eq_ok_iff (a * b)).mp hD
    exact ⟨_, mul_ofMatrix b c, by rw [mul_ofMatrix, Matrix.mul_assoc]⟩
  · rintro ⟨Q, hQ, hD⟩
    obtain ⟨m, l, c, rfl⟩ := C.exists_matrix
    obtain ⟨k, b, rfl, rfl⟩ := (mul_ofMatrix_eq_ok_iff c).mp hQ
    obtain ⟨n, a, rfl, rfl⟩ := (mul_ofMatrix_eq_ok_iff (b * c)).mp hD
    exact ⟨_, mul_ofMatrix a b, by rw [mul_ofMatrix, Matrix.mul_assoc]⟩

/-- A product acts as its factors do, one after the other. -/
theorem mulVec_mul_iff (A B : DenseMatrix ℝ) (v w : List ℝ) :
    (A.mul B >>= fun P => P.mulVec v) = .ok w ↔ (B.mulVec v >>= fun u => A.mulVec u) = .ok w := by
  obtain ⟨k, m, b, rfl⟩ := B.exists_matrix
  rw [bind_eq_ok, bind_eq_ok]
  constructor
  · rintro ⟨P, hP, hw⟩
    obtain ⟨n, a, rfl, rfl⟩ := (mul_ofMatrix_eq_ok_iff b).mp hP
    obtain ⟨u, rfl, rfl⟩ := (ofMatrix_mulVec_eq_ok_iff (a * b)).mp hw
    exact ⟨_, mulVec_ofMatrix b u, by rw [mulVec_ofMatrix, Matrix.mulVec_mulVec]⟩
  · rintro ⟨x, hx, hw⟩
    obtain ⟨u, rfl, rfl⟩ := (ofMatrix_mulVec_eq_ok_iff b).mp hx
    obtain ⟨n, a, rfl⟩ := exists_matrix_of_cols
      ((length_eq_of_mulVec_eq_ok hw).symm.trans List.length_ofFn)
    rw [mulVec_ofMatrix] at hw
    exact ⟨_, mul_ofMatrix a b, by rw [mulVec_ofMatrix, ← Matrix.mulVec_mulVec, hw]⟩

theorem identity_mul_iff (n : ℕ) (A : DenseMatrix ℝ) : (identity n).mul A = .ok A ↔ A.rows = n := by
  refine ⟨rows_eq_of_mul_eq_ok, fun h => ?_⟩
  obtain ⟨m, a, rfl⟩ := exists_matrix_of_rows h
  rw [identity_eq_ofMatrix, mul_ofMatrix, Matrix.one_mul]

theorem mul_identity_iff (n : ℕ) (A : DenseMatrix ℝ) : A.mul (identity n) = .ok A ↔ A.cols = n := by
  refine ⟨fun h => (rows_eq_of_mul_eq_ok h).symm, fun h => ?_⟩
  obtain ⟨k, a, rfl⟩ := exists_matrix_of_cols h
  rw [identity_eq_ofMatrix, mul_ofMatrix, Matrix.mul_one]

theorem identity_mulVec_iff (n : ℕ) (v : List ℝ) : (identity n).mulVec v = .ok v ↔ v.length = n := by
  refine ⟨length_eq_of_mulVec_eq_ok, fun h => ?_⟩
  obtain ⟨u, rfl⟩ := exists_eq_ofFn_of_length h
  rw [identity_eq_ofMatrix, mulVec_ofMatrix, Matrix.one_mulVec]

/-- Transposition turns a product around. -/
theorem transpose_mul_iff (A B D : DenseMatrix ℝ) :
    (A.mul B).map transpose = .ok D ↔ B.transpose.mul A.transpose = .ok D := by
  obtain ⟨n, k, a, rfl⟩ := A.exists_matrix
  obtain ⟨l, m, b, rfl⟩ := B.exists_matrix
  by_cases h : l = k
  · subst h
    rw [mul_ofMatrix, transpose_ofMatrix, transpose_ofMatrix, mul_ofMatrix, Except.map,
      transpose_ofMatrix, Matrix.transpose_mul]
  · have hleft := mul_of_ne (A := ofMatrix a) (B := ofMatrix b) h
    have hright := mul_of_ne (A := (ofMatrix b).transpose) (B := (ofMatrix a).transpose) (Ne.symm h)
    rw [hleft, hright]
    exact iff_of_false nofun nofun

/-- The laws of products, with the sizes that they need. -/
structure ProductLaws (A B C : DenseMatrix ℝ) (v : List ℝ) : Prop where
  mul_ok : (∃ D, A.mul B = .ok D ∧ D.rows = A.rows ∧ D.cols = B.cols) ↔ B.rows = A.cols
  mul_error : ∀ e, A.mul B = .error e ↔ B.rows ≠ A.cols ∧ e = ⟨.rows, A.cols, B.rows⟩
  mulVec_ok : (∃ w, A.mulVec v = .ok w ∧ w.length = A.rows) ↔ v.length = A.cols
  mulVec_error : ∀ e, A.mulVec v = .error e ↔ v.length ≠ A.cols ∧ e = ⟨.vector, A.cols, v.length⟩
  mul_assoc : ∀ D, (A.mul B >>= fun P => P.mul C) = .ok D ↔ (B.mul C >>= fun Q => A.mul Q) = .ok D
  mulVec_mul : ∀ w,
    (A.mul B >>= fun P => P.mulVec v) = .ok w ↔ (B.mulVec v >>= fun u => A.mulVec u) = .ok w
  identity_mul : ∀ n, (identity n).mul A = .ok A ↔ A.rows = n
  mul_identity : ∀ n, A.mul (identity n) = .ok A ↔ A.cols = n
  identity_mulVec : ∀ n, (identity n).mulVec v = .ok v ↔ v.length = n
  transpose_mul : ∀ D, (A.mul B).map transpose = .ok D ↔ B.transpose.mul A.transpose = .ok D

/-- Matrices and vectors of all shapes obey the laws of products. -/
theorem productLaws (A B C : DenseMatrix ℝ) (v : List ℝ) : ProductLaws A B C v where
  mul_ok := exists_mul_eq_ok_iff
  mul_error := mul_eq_error_iff
  mulVec_ok := exists_mulVec_eq_ok_iff
  mulVec_error := mulVec_eq_error_iff
  mul_assoc := mul_assoc_iff A B C
  mulVec_mul := mulVec_mul_iff A B v
  identity_mul n := identity_mul_iff n A
  mul_identity n := mul_identity_iff n A
  identity_mulVec n := identity_mulVec_iff n v
  transpose_mul := transpose_mul_iff A B

end DenseMatrix

end DiscreteOrdinates
