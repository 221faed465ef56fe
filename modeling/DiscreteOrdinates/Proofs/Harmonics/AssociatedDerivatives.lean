import DiscreteOrdinates.Proofs.Harmonics.Rodrigues

/-!
# Associated functions as derivatives

The associated function of degree `l` and order `m` is the derivative of order `m` of a
Legendre polynomial, up to a power of `1 - x²`. The climb starts from the derivative that
is a constant and follows the recurrence of the derivatives. Main statement:
`associated_eq_iteratedDeriv`.
-/

namespace DiscreteOrdinates

namespace Legendre

open Polynomial

/-! ## Start of the climb -/

/-- The derivative of as many orders as the polynomial has degrees. -/
theorem iterate_derivative_rodrigues_self_succ (m : ℕ) :
    derivative^[m + 1] (rodrigues (m + 1)) =
      (2 * m + 1 : ℝ[X]) * derivative^[m] (rodrigues m) := by
  have h := iterate_derivative_rodrigues_succ m m
  rw [iterate_derivative_rodrigues_eq_zero m.lt_succ_self] at h
  linear_combination h

/-- One order fewer leaves a multiple of `x`. -/
theorem iterate_derivative_rodrigues_succ_self (m : ℕ) :
    derivative^[m] (rodrigues (m + 1)) =
      (2 * m + 1 : ℝ[X]) * (X * derivative^[m] (rodrigues m)) := by
  have h := iterate_derivative_rodrigues m m
  rw [iterate_derivative_rodrigues_eq_zero m.lt_succ_self, iterate_derivative_rodrigues_self_succ]
    at h
  linear_combination h

theorem sectoral_eq_derivative (m : ℕ) (x : ℝ) :
    sectoral m x = √(max (1 - x * x) 0) ^ m * (derivative^[m] (rodrigues m)).eval x := by
  induction m with
  | zero => simp [sectoral_zero, rodrigues_zero]
  | succ m ih =>
    rw [sectoral_succ, ih, iterate_derivative_rodrigues_self_succ]
    simp only [eval_mul, eval_add, eval_natCast, eval_ofNat, eval_one]
    ring

/-! ## Steps of the climb -/

/-- The climb holds the derivatives of neighbouring degrees. -/
theorem climb_eq_derivative (m : ℕ) (x : ℝ) (j : ℕ) :
    climb m x j =
      (√(max (1 - x * x) 0) ^ m * (derivative^[m] (rodrigues (m + j + 1))).eval x,
        √(max (1 - x * x) 0) ^ m * (derivative^[m] (rodrigues (m + j))).eval x) := by
  induction j with
  | zero =>
    rw [climb_zero, sectoral_eq_derivative, Nat.add_zero, iterate_derivative_rodrigues_succ_self]
    refine Prod.ext ?_ rfl
    simp only [eval_mul, eval_add, eval_natCast, eval_ofNat, eval_one, eval_X]
    ring
  | succ j ih =>
    rw [climb_succ, ih]
    refine Prod.ext ?_ rfl
    have hstep := congrArg (eval x) (iterate_derivative_rodrigues_succ_succ (m + j) m)
    simp only [eval_mul, eval_sub, eval_add, eval_natCast, eval_ofNat, eval_one, eval_X] at hstep
    push_cast at hstep
    have hne : (j + 2 : ℝ) ≠ 0 := by positivity
    dsimp only
    rw [div_eq_iff hne]
    linear_combination -√(max (1 - x * x) 0) ^ m * hstep

/-- Every associated function, also those that vanish because the order exceeds the
degree. -/
theorem associated_eq_derivative (l m : ℕ) (x : ℝ) :
    associated l m x =
      √(max (1 - x * x) 0) ^ m * (derivative^[m] (rodrigues l)).eval x := by
  rcases lt_or_ge l m with h | h
  · rw [iterate_derivative_rodrigues_eq_zero h, eval_zero, mul_zero, associated, if_pos h,
      Scalar.zero_real]
  · obtain ⟨j, rfl⟩ := Nat.exists_eq_add_of_le h
    rw [associated_add, climb_eq_derivative]

/-! ## On the interval -/

theorem iteratedDeriv_eval (p : ℝ[X]) (m : ℕ) :
    iteratedDeriv m (fun x => p.eval x) = fun x => (derivative^[m] p).eval x := by
  induction m with
  | zero => exact iteratedDeriv_zero
  | succ m ih =>
    rw [iteratedDeriv_succ, ih, Function.iterate_succ_apply']
    exact funext fun x => Polynomial.deriv _

/-- On `[-1, 1]` the root of the recurrence is a power of `1 - x²`. -/
theorem sqrt_pow_eq_rpow {x : ℝ} (hx : x ∈ Set.Icc (-1) 1) (m : ℕ) :
    √(max (1 - x * x) 0) ^ m = (1 - x ^ 2) ^ (m / 2 : ℝ) := by
  have hnonneg : 0 ≤ 1 - x ^ 2 := by nlinarith only [hx.1, hx.2]
  rw [← sq, max_eq_left hnonneg, Real.sqrt_eq_rpow, ← Real.rpow_mul_natCast hnonneg]
  ring_nf

/-- The associated functions are those of the textbooks, without a phase: `(1 - x²)^(m/2)`
times the derivative of order `m` of the Legendre polynomial. Both vanish for an order
above the degree. -/
theorem associated_eq_iteratedDeriv (l m : ℕ) {x : ℝ} (hx : x ∈ Set.Icc (-1) 1) :
    associated l m x =
        (1 - x ^ 2) ^ (m / 2 : ℝ) * iteratedDeriv m (fun t => (rodrigues l).eval t) x ∧
      (l < m → associated l m x = 0 ∧ iteratedDeriv m (fun t => (rodrigues l).eval t) x = 0) ∧
      polynomial l x = (rodrigues l).eval x := by
  refine ⟨?_, fun h => ?_, ?_⟩
  · rw [associated_eq_derivative, sqrt_pow_eq_rpow hx, iteratedDeriv_eval]
  · have hzero : (derivative^[m] (rodrigues l)).eval x = 0 := by
      rw [iterate_derivative_rodrigues_eq_zero h, eval_zero]
    rw [associated_eq_derivative, iteratedDeriv_eval]
    exact ⟨mul_eq_zero_of_right _ hzero, hzero⟩
  · rw [polynomial, associated_eq_derivative, pow_zero, one_mul, Function.iterate_zero_apply]

/-- The second derivative of the polynomial of degree three, and an order above the
degree. -/
theorem associated_eq_iteratedDeriv_cubic :
    (3 / 5 : ℝ) ∈ Set.Icc (-1) 1 ∧
      (1 - (3 / 5) ^ 2) ^ ((2 : ℕ) / 2 : ℝ) *
        iteratedDeriv 2 (fun t => (rodrigues 3).eval t) (3 / 5) = 144 / 25 ∧
      iteratedDeriv 3 (fun t => (rodrigues 2).eval t) (3 / 5) = 0 := by
  have hx : (3 / 5 : ℝ) ∈ Set.Icc (-1) 1 := by constructor <;> norm_num
  have hroot : √(max (1 - 3 / 5 * (3 / 5)) 0) = (4 / 5 : ℝ) := by
    rw [max_eq_left (by norm_num), Real.sqrt_eq_iff_mul_self_eq (by norm_num) (by norm_num)]
    norm_num
  have hvalue : associated 3 2 (3 / 5 : ℝ) = 144 / 25 := by
    rw [associated_add 2 1, climb_succ, climb_zero, sectoral_succ, sectoral_succ, sectoral_zero,
      hroot]
    norm_num
  obtain ⟨hformula, -, -⟩ := associated_eq_iteratedDeriv 3 2 hx
  obtain ⟨-, hvanish, -⟩ := associated_eq_iteratedDeriv 2 3 hx
  exact ⟨hx, hformula.symm.trans hvalue, (hvanish (by decide)).2⟩

end Legendre

end DiscreteOrdinates
