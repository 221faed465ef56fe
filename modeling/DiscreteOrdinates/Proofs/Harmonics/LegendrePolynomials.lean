import DiscreteOrdinates.Proofs.Harmonics.Recurrence

/-!
# Legendre polynomials

The polynomials of which the upward recurrence computes the values. Those of order
zero are the Legendre polynomials. Those of any other order are left of an associated
function when the function of equal degree and order is taken out. Each has the degree
that it is numbered with, so no associated function vanishes identically.
-/

namespace DiscreteOrdinates

namespace Legendre

open Polynomial

/-! ## Any order -/

/-- What the associated function of order `m` and degree `m + n` has beside the one of
equal degree and order, by the recurrence of its values. -/
noncomputable def cofactor (m : ℕ) : ℕ → ℝ[X]
  | 0 => 1
  | 1 => C ((2 * m + 1 : ℕ) : ℝ) * X
  | n + 2 =>
    C ((2 * (m + n) + 3 : ℕ) / (n + 2 : ℕ) : ℝ) * (X * cofactor m (n + 1)) -
      C ((2 * m + n + 1 : ℕ) / (n + 2 : ℕ) : ℝ) * cofactor m n

/-- The climb holds the values of neighbouring polynomials. -/
theorem climb_eq_cofactor (m : ℕ) (x : ℝ) (j : ℕ) :
    climb m x j =
      ((cofactor m (j + 1)).eval x * sectoral m x, (cofactor m j).eval x * sectoral m x) := by
  induction j with
  | zero =>
    rw [climb_zero, cofactor, cofactor]
    refine Prod.ext ?_ ?_
    · simp only [eval_mul, eval_C, eval_X]
      push_cast
      ring
    · rw [eval_one, one_mul]
  | succ j ih =>
    rw [climb_succ, ih, cofactor]
    refine Prod.ext ?_ rfl
    simp only [eval_sub, eval_mul, eval_C, eval_X]
    push_cast
    ring

theorem natDegree_cofactor_le (m n : ℕ) : (cofactor m n).natDegree ≤ n := by
  induction n using Nat.twoStepInduction with
  | zero => simp [cofactor]
  | one =>
    rw [cofactor]
    exact (natDegree_C_mul_le _ _).trans natDegree_X.le
  | more n ih₀ ih₁ =>
    rw [cofactor]
    refine (natDegree_sub_le _ _).trans (max_le ?_ ?_)
    · refine (natDegree_C_mul_le _ _).trans (natDegree_mul_le.trans ?_)
      rw [natDegree_X]
      omega
    · exact (natDegree_C_mul_le _ _).trans (ih₀.trans (Nat.le_add_right n 2))

/-- Leading coefficients are positive, since the lower polynomial does not reach the
degree of the next. -/
theorem coeff_cofactor_pos (m n : ℕ) : 0 < (cofactor m n).coeff n := by
  induction n using Nat.twoStepInduction with
  | zero => simp [cofactor]
  | one =>
    rw [cofactor, coeff_C_mul, coeff_X_one, mul_one]
    positivity
  | more n _ ih =>
    have hlower : (cofactor m n).coeff (n + 2) = 0 :=
      coeff_eq_zero_of_natDegree_lt ((natDegree_cofactor_le m n).trans_lt (by omega))
    rw [cofactor, coeff_sub, coeff_C_mul, coeff_X_mul, coeff_C_mul, hlower, mul_zero, sub_zero]
    exact mul_pos (by positivity) ih

/-- No associated function vanishes throughout an interval inside `(-1, 1)`. -/
theorem exists_associated_ne_zero {l m : ℕ} (h : m ≤ l) {a b : ℝ} (hab : a < b) (ha : -1 ≤ a)
    (hb : b ≤ 1) : ∃ x ∈ Set.Ioo a b, associated l m x ≠ 0 := by
  obtain ⟨j, rfl⟩ := Nat.exists_eq_add_of_le h
  have hne : cofactor m j ≠ 0 := by
    intro hzero
    have hcoeff := coeff_cofactor_pos m j
    rw [hzero, coeff_zero] at hcoeff
    exact hcoeff.false
  -- The polynomial has finitely many roots, the interval has infinitely many points.
  obtain ⟨x, hx, hroot⟩ :=
    (Set.Ioo_infinite hab).exists_notMem_finset (cofactor m j).roots.toFinset
  have hsquare : x * x < 1 := by nlinarith only [ha.trans_lt hx.1, hx.2.trans_le hb]
  rw [Multiset.mem_toFinset, mem_roots hne] at hroot
  refine ⟨x, hx, ?_⟩
  rw [associated_add, climb_eq_cofactor]
  exact mul_ne_zero hroot (sectoral_pos m hsquare).ne'

/-! ## Order zero -/

/-- The Legendre polynomial of degree `n`, by the recurrence of its values. -/
noncomputable def formal : ℕ → ℝ[X]
  | 0 => 1
  | 1 => X
  | n + 2 =>
    C ((2 * n + 3 : ℕ) / (n + 2 : ℕ) : ℝ) * (X * formal (n + 1)) -
      C ((n + 1 : ℕ) / (n + 2 : ℕ) : ℝ) * formal n

theorem formal_eq_cofactor (n : ℕ) : formal n = cofactor 0 n := by
  induction n using Nat.twoStepInduction with
  | zero => rfl
  | one => simp [formal, cofactor]
  | more n ih₀ ih₁ => simp only [formal, cofactor, ih₀, ih₁, Nat.mul_zero, Nat.zero_add]

/-- The functions of order zero are the values of the polynomials. -/
theorem associated_eq_eval (n : ℕ) (x : ℝ) : associated n 0 x = (formal n).eval x := by
  have h := associated_add 0 n x
  rwa [Nat.zero_add, climb_eq_cofactor, sectoral_zero, mul_one, mul_one, ← formal_eq_cofactor n] at h

theorem natDegree_formal_le (n : ℕ) : (formal n).natDegree ≤ n :=
  formal_eq_cofactor n ▸ natDegree_cofactor_le 0 n

theorem coeff_formal_pos (n : ℕ) : 0 < (formal n).coeff n :=
  formal_eq_cofactor n ▸ coeff_cofactor_pos 0 n

end Legendre

end DiscreteOrdinates
