import DiscreteOrdinates.Proofs.Matrix.SingularFactors

/-!
# Pseudo-inverses of related matrices

A pseudo-inverse depends on the matrix and the cutoff alone, not on the factors it
is made of (`pseudoInverse_eq`). So it follows a reordering of rows and columns, and
a scaling of the matrix together with its cutoff.
-/

namespace DiscreteOrdinates

open Matrix

namespace SingularFactors

variable {n m : ℕ} {a : Matrix (Fin n) (Fin m) ℝ}

/-! ## Independence of the factors -/

/-- A function of the singular values, between the right factors. -/
noncomputable def spectral (f : SingularFactors a) (h : ℝ → ℝ) : Matrix (Fin m) (Fin m) ℝ :=
  f.right * diagonal (fun i => h (f.values i)) * f.rightᵀ

/-- The right factors of two factorisations mix only columns of equal singular values. -/
theorem diagonal_mul_mix (f g : SingularFactors a) (h : ℝ → ℝ) :
    diagonal (fun i => h (g.values i)) * (g.rightᵀ * f.right) =
      g.rightᵀ * f.right * diagonal (fun i => h (f.values i)) := by
  have hsquares : diagonal (fun i => g.values i ^ 2) * (g.rightᵀ * f.right) =
      g.rightᵀ * f.right * diagonal (fun i => f.values i ^ 2) := by
    have heq := g.transpose_mul_self.symm.trans f.transpose_mul_self
    calc
      diagonal (fun i => g.values i ^ 2) * (g.rightᵀ * f.right)
          = g.rightᵀ * g.right * diagonal (fun i => g.values i ^ 2) * (g.rightᵀ * f.right) := by
        rw [g.right_orthonormal, Matrix.one_mul]
      _ = g.rightᵀ * (g.right * diagonal (fun i => g.values i ^ 2) * g.rightᵀ) * f.right := by
        simp only [Matrix.mul_assoc]
      _ = g.rightᵀ * f.right * diagonal (fun i => f.values i ^ 2) * (f.rightᵀ * f.right) := by
        rw [heq]
        simp only [Matrix.mul_assoc]
      _ = g.rightᵀ * f.right * diagonal (fun i => f.values i ^ 2) := by
        rw [f.right_orthonormal, Matrix.mul_one]
  ext i j
  have hentry := congrFun (congrFun hsquares i) j
  rw [diagonal_mul, mul_diagonal] at hentry ⊢
  by_cases hmix : (g.rightᵀ * f.right) i j = 0
  · rw [hmix, mul_zero, zero_mul]
  · rw [mul_comm] at hentry
    have hvalue : g.values i = f.values j :=
      (pow_left_inj₀ (g.values_nonneg i) (f.values_nonneg j) two_ne_zero).mp
        (mul_left_cancel₀ hmix hentry)
    rw [hvalue, mul_comm]

theorem spectral_eq (f g : SingularFactors a) (h : ℝ → ℝ) : f.spectral h = g.spectral h := by
  have hmix : g.rightᵀ * f.right * f.rightᵀ = g.rightᵀ := by
    rw [Matrix.mul_assoc, f.right_mul_transpose, Matrix.mul_one]
  symm
  calc
    g.spectral h
        = g.right * diagonal (fun i => h (g.values i)) * (g.rightᵀ * f.right * f.rightᵀ) := by
      rw [hmix, spectral]
    _ = g.right * (diagonal (fun i => h (g.values i)) * (g.rightᵀ * f.right)) * f.rightᵀ := by
      simp only [Matrix.mul_assoc]
    _ = g.right * g.rightᵀ * f.spectral h := by
      rw [diagonal_mul_mix, spectral]
      simp only [Matrix.mul_assoc]
    _ = f.spectral h := by rw [g.right_mul_transpose, Matrix.one_mul]

theorem pseudoInverse_eq_spectral_mul (f : SingularFactors a) {cutoff : ℝ} (hcutoff : 0 ≤ cutoff) :
    f.pseudoInverse cutoff =
      f.spectral (fun σ => if cutoff < σ then (σ ^ 2)⁻¹ else 0) * aᵀ := by
  have hvalues : ∀ i, (if cutoff < f.values i then (f.values i ^ 2)⁻¹ else 0) * f.values i =
      if cutoff < f.values i then (f.values i)⁻¹ else 0 := by
    intro i
    split
    next h =>
      have hne : f.values i ≠ 0 := (hcutoff.trans_lt h).ne'
      field_simp
    next => exact zero_mul _
  have hright : ∀ b c : Matrix (Fin m) (Fin m) ℝ,
      f.right * b * f.rightᵀ * (f.right * c * f.leftᵀ) = f.right * (b * c) * f.leftᵀ := by
    intro b c
    calc
      f.right * b * f.rightᵀ * (f.right * c * f.leftᵀ)
          = f.right * b * (f.rightᵀ * f.right) * c * f.leftᵀ := by
        simp only [Matrix.mul_assoc]
      _ = f.right * (b * c) * f.leftᵀ := by
        rw [f.right_orthonormal, Matrix.mul_one]
        simp only [Matrix.mul_assoc]
  rw [spectral, f.transpose_eq, hright, diagonal_mul_diagonal, pseudoInverse]
  simp only [hvalues]

theorem pseudoInverse_eq (f g : SingularFactors a) {cutoff : ℝ} (hcutoff : 0 ≤ cutoff) :
    f.pseudoInverse cutoff = g.pseudoInverse cutoff := by
  rw [f.pseudoInverse_eq_spectral_mul hcutoff, g.pseudoInverse_eq_spectral_mul hcutoff,
    f.spectral_eq g]

/-! ## Reordering -/

/-- The factors of a matrix whose rows and columns are reordered. -/
def reorder (f : SingularFactors a) (σ : Equiv.Perm (Fin n)) (π : Equiv.Perm (Fin m)) :
    SingularFactors (a.submatrix σ π) where
  left := f.left.submatrix σ id
  values := f.values
  right := f.right.submatrix π id
  left_orthonormal := by
    rw [transpose_submatrix, submatrix_mul_equiv, f.left_orthonormal, submatrix_id_id]
  right_orthonormal := by
    rw [transpose_submatrix, submatrix_mul_equiv, f.right_orthonormal, submatrix_id_id]
  values_nonneg := f.values_nonneg
  factors := by
    have hdiagonal : diagonal f.values =
        (diagonal f.values).submatrix (Equiv.refl (Fin m)) (Equiv.refl (Fin m)) := rfl
    nth_rewrite 1 [f.factors]
    rw [transpose_submatrix, hdiagonal]
    exact (submatrix_mul _ _ _ _ _ (Equiv.refl (Fin m)).bijective).trans
      (congrArg (· * f.rightᵀ.submatrix id π)
        (submatrix_mul _ _ _ _ _ (Equiv.refl (Fin m)).bijective))

@[simp] theorem values_reorder (f : SingularFactors a) (σ : Equiv.Perm (Fin n))
    (π : Equiv.Perm (Fin m)) : (f.reorder σ π).values = f.values := rfl

theorem pseudoInverse_reorder (f : SingularFactors a) (σ : Equiv.Perm (Fin n))
    (π : Equiv.Perm (Fin m)) (cutoff : ℝ) :
    (f.reorder σ π).pseudoInverse cutoff = (f.pseudoInverse cutoff).submatrix π σ := by
  rfl

/-! ## Scaling -/

/-- The factors of a multiple of a matrix. -/
def scale (f : SingularFactors a) {c : ℝ} (hc : 0 ≤ c) : SingularFactors (c • a) where
  left := f.left
  values i := c * f.values i
  right := f.right
  left_orthonormal := f.left_orthonormal
  right_orthonormal := f.right_orthonormal
  values_nonneg i := mul_nonneg hc (f.values_nonneg i)
  factors := by
    have hdiagonal : diagonal (fun i => c * f.values i) = c • diagonal f.values := by
      rw [← diagonal_smul]
      rfl
    nth_rewrite 1 [f.factors]
    rw [hdiagonal, Matrix.mul_smul, Matrix.smul_mul]

@[simp] theorem values_scale (f : SingularFactors a) {c : ℝ} (hc : 0 ≤ c) (i : Fin m) :
    (f.scale hc).values i = c * f.values i := rfl

theorem pseudoInverse_scale (f : SingularFactors a) {c : ℝ} (hc : 0 < c) (cutoff : ℝ) :
    (f.scale hc.le).pseudoInverse (c * cutoff) = c⁻¹ • f.pseudoInverse cutoff := by
  have hvalues : (fun i => if c * cutoff < c * f.values i then (c * f.values i)⁻¹ else 0) =
      c⁻¹ • fun i => if cutoff < f.values i then (f.values i)⁻¹ else 0 := by
    funext i
    simp only [mul_lt_mul_iff_right₀ hc, Pi.smul_apply, smul_eq_mul, mul_inv, mul_ite, mul_zero]
  have hscaled : (f.scale hc.le).pseudoInverse (c * cutoff) = f.right *
      diagonal (fun i => if c * cutoff < c * f.values i then (c * f.values i)⁻¹ else 0) *
        f.leftᵀ := rfl
  rw [hscaled, hvalues, diagonal_smul, Matrix.mul_smul, Matrix.smul_mul, pseudoInverse]

end SingularFactors

end DiscreteOrdinates
