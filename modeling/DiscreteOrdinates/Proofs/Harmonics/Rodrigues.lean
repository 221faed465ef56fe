import DiscreteOrdinates.Proofs.Harmonics.LegendrePolynomials

/-!
# Rodrigues' formula

The Legendre polynomials as derivatives of the powers of `x² - 1`. They obey the
recurrence by which the values are computed, so both definitions give the same
polynomials (`formal_eq_rodrigues`). What neighbouring degrees and their derivatives
have to do with each other follows from the formula, and so does the differential
equation of each degree.
-/

namespace DiscreteOrdinates

namespace Legendre

open Polynomial
open scoped Nat

/-- The factor that makes the polynomial of degree `n` one at one. -/
noncomputable def scale (n : ℕ) : ℝ :=
  1 / (2 ^ n * n ! : ℕ)

/-- The Legendre polynomial of degree `n`, by Rodrigues' formula. -/
noncomputable def rodrigues (n : ℕ) : ℝ[X] :=
  C (scale n) * derivative^[n] ((X ^ 2 - 1 : ℝ[X]) ^ n)

/-- The antiderivative of the polynomial of degree `n + 1` that has one derivative less
in the formula. -/
noncomputable def primitive (n : ℕ) : ℝ[X] :=
  C (scale (n + 1)) * derivative^[n] ((X ^ 2 - 1 : ℝ[X]) ^ (n + 1))

theorem scale_eq (n : ℕ) : scale n = scale (n + 1) * (2 * (n + 1)) := by
  rw [scale, scale, Nat.factorial_succ, pow_succ]
  push_cast
  field_simp

theorem derivative_primitive (n : ℕ) : derivative (primitive n) = rodrigues (n + 1) := by
  rw [primitive, rodrigues, derivative_C_mul, Function.iterate_succ_apply']

theorem rodrigues_zero : rodrigues 0 = 1 := by
  simp [rodrigues, scale]

/-! ## Neighbouring degrees -/

theorem iterate_derivative_X_mul (n : ℕ) (p : ℝ[X]) :
    derivative^[n] (X * p) = X * derivative^[n] p + (n : ℝ[X]) * derivative^[n - 1] p := by
  rw [mul_comm X p, iterate_derivative_mul_X, nsmul_eq_mul, mul_comm]

/-- One derivative is spent on the power of `x² - 1` in the formula for the next degree. -/
theorem scale_mul_iterate_derivative_succ (n k : ℕ) :
    C (scale (n + 1)) * derivative^[k + 1] ((X ^ 2 - 1 : ℝ[X]) ^ (n + 1)) =
      C (scale n) * derivative^[k] (X * (X ^ 2 - 1 : ℝ[X]) ^ n) := by
  have hpower : derivative ((X ^ 2 - 1 : ℝ[X]) ^ (n + 1)) =
      C (2 * (n + 1) : ℝ) * (X * (X ^ 2 - 1) ^ n) := by
    rw [derivative_pow_succ, derivative_sub, derivative_X_pow, derivative_one]
    simp
    ring
  rw [Function.iterate_succ_apply, hpower, iterate_derivative_C_mul, ← mul_assoc, ← C_mul,
    ← scale_eq]

theorem rodrigues_one : rodrigues 1 = X := by
  rw [rodrigues, scale_mul_iterate_derivative_succ]
  simp [scale]

/-- The next degree from the last one and the antiderivative between them. -/
theorem rodrigues_eq_add_primitive (n : ℕ) :
    rodrigues (n + 2) = X * rodrigues (n + 1) + (n + 1 : ℝ[X]) * primitive n := by
  rw [rodrigues, scale_mul_iterate_derivative_succ, iterate_derivative_X_mul, Nat.add_sub_cancel,
    rodrigues, primitive]
  push_cast
  ring

/-- The antiderivative from the degrees on both sides of it. -/
theorem primitive_eq (n : ℕ) :
    (n + 2 : ℝ[X]) * primitive n = X * rodrigues (n + 1) - rodrigues n := by
  have hpower : (X ^ 2 - 1 : ℝ[X]) ^ (n + 1) = X * (X * (X ^ 2 - 1) ^ n) - (X ^ 2 - 1) ^ n := by
    ring
  have htwice : C (scale n) * derivative^[n] ((X ^ 2 - 1 : ℝ[X]) ^ (n + 1)) =
      2 * (n + 1 : ℝ[X]) * primitive n := by
    rw [scale_eq, primitive]
    simp only [C_mul, C_add, map_ofNat, map_natCast, C_1]
    ring
  -- Without a derivative to spend, the second term of the product rule has the factor zero.
  have hlower : (n : ℝ[X]) * (C (scale n) * derivative^[n - 1] (X * (X ^ 2 - 1 : ℝ[X]) ^ n)) =
      (n : ℝ[X]) * primitive n := by
    cases n with
    | zero => simp
    | succ n => rw [Nat.add_sub_cancel, ← scale_mul_iterate_derivative_succ, primitive]
  rw [hpower, iterate_derivative_sub, iterate_derivative_X_mul, mul_sub, mul_add,
    mul_left_comm _ X, ← scale_mul_iterate_derivative_succ, mul_left_comm _ (n : ℝ[X]), hlower]
    at htwice
  rw [rodrigues, rodrigues]
  linear_combination -htwice

/-- The recurrence by which the values are computed. -/
theorem rodrigues_succ_succ (n : ℕ) :
    (n + 2 : ℝ[X]) * rodrigues (n + 2) =
      (2 * n + 3 : ℝ[X]) * (X * rodrigues (n + 1)) - (n + 1 : ℝ[X]) * rodrigues n := by
  linear_combination (n + 2 : ℝ[X]) * rodrigues_eq_add_primitive n +
    (n + 1 : ℝ[X]) * primitive_eq n

theorem formal_eq_rodrigues (n : ℕ) : formal n = rodrigues n := by
  induction n using Nat.twoStepInduction with
  | zero => rw [formal, rodrigues_zero]
  | one => rw [formal, rodrigues_one]
  | more n ih₀ ih₁ =>
    have hcancel (a : ℕ) : (n + 2 : ℝ[X]) * C ((a : ℝ) / (n + 2 : ℕ)) = (a : ℝ[X]) := by
      have hdegree : (n + 2 : ℝ[X]) = C ((n + 2 : ℕ) : ℝ) := by
        rw [map_natCast, Nat.cast_add, Nat.cast_ofNat]
      rw [hdegree, ← C_mul, mul_div_cancel₀ _ (by positivity), map_natCast]
    have hlead := hcancel (2 * n + 3)
    have htrail := hcancel (n + 1)
    have hne : (n + 2 : ℝ[X]) ≠ 0 := by exact_mod_cast (n + 1).succ_ne_zero
    push_cast at hlead htrail
    refine mul_left_cancel₀ hne ?_
    rw [formal, ih₀, ih₁, rodrigues_succ_succ]
    push_cast
    linear_combination X * rodrigues (n + 1) * hlead - rodrigues n * htrail

theorem eval_one_rodrigues (n : ℕ) : (rodrigues n).eval 1 = 1 := by
  induction n using Nat.twoStepInduction with
  | zero => rw [rodrigues_zero, eval_one]
  | one => rw [rodrigues_one, eval_X]
  | more n ih₀ ih₁ =>
    have hstep := congrArg (eval 1) (rodrigues_succ_succ n)
    simp only [eval_mul, eval_sub, eval_add, eval_natCast, eval_ofNat, eval_one, eval_X, ih₀, ih₁]
      at hstep
    have hne : (n + 2 : ℝ) ≠ 0 := by positivity
    refine mul_left_cancel₀ hne ?_
    linear_combination hstep

/-! ## Derivatives -/

/-- The derivative of the next degree from that of the last one. -/
theorem derivative_rodrigues_succ (n : ℕ) :
    derivative (rodrigues (n + 1)) =
      X * derivative (rodrigues n) + (n + 1 : ℝ[X]) * rodrigues n := by
  cases n with
  | zero => simp [rodrigues_zero, rodrigues_one]
  | succ n =>
    rw [rodrigues_eq_add_primitive, ← Nat.cast_succ n, derivative_add, derivative_natCast_mul,
      derivative_primitive, derivative_mul, derivative_X]
    push_cast
    ring

/-- The degree below is what the derivative falls short of `n + 1` times the polynomial. -/
theorem derivative_rodrigues (n : ℕ) :
    derivative (rodrigues n) =
      X * derivative (rodrigues (n + 1)) - (n + 1 : ℝ[X]) * rodrigues (n + 1) := by
  have hcast : (n + 2 : ℝ[X]) = ((n + 2 : ℕ) : ℝ[X]) := by push_cast; rfl
  have h := congrArg derivative (primitive_eq n)
  rw [hcast, derivative_natCast_mul, derivative_primitive, derivative_sub, derivative_mul,
    derivative_X, one_mul] at h
  push_cast at h
  linear_combination h

/-- The derivative of a degree from its value and that of the degree before. -/
theorem mul_derivative_rodrigues_succ (n : ℕ) :
    (X ^ 2 - 1) * derivative (rodrigues (n + 1)) =
      (n + 1 : ℝ[X]) * (X * rodrigues (n + 1) - rodrigues n) := by
  linear_combination -derivative_rodrigues_succ n - X * derivative_rodrigues n

/-! ## Derivatives of any order -/

theorem natDegree_rodrigues_le (n : ℕ) : (rodrigues n).natDegree ≤ n :=
  formal_eq_rodrigues n ▸ natDegree_formal_le n

theorem iterate_derivative_rodrigues_eq_zero {n m : ℕ} (h : n < m) :
    derivative^[m] (rodrigues n) = 0 :=
  iterate_derivative_eq_zero ((natDegree_rodrigues_le n).trans_lt h)

theorem iterate_derivative_rodrigues_succ (n m : ℕ) :
    derivative^[m + 1] (rodrigues (n + 1)) =
      X * derivative^[m + 1] (rodrigues n) +
        (n + m + 1 : ℝ[X]) * derivative^[m] (rodrigues n) := by
  rw [Function.iterate_succ_apply, derivative_rodrigues_succ, ← Nat.cast_succ n, iterate_map_add,
    iterate_derivative_natCast_mul, mul_comm X, iterate_derivative_derivative_mul_X, nsmul_eq_mul]
  push_cast
  ring

theorem iterate_derivative_rodrigues (n m : ℕ) :
    derivative^[m + 1] (rodrigues n) =
      X * derivative^[m + 1] (rodrigues (n + 1)) -
        (n + 1 - m : ℝ[X]) * derivative^[m] (rodrigues (n + 1)) := by
  rw [Function.iterate_succ_apply, derivative_rodrigues, ← Nat.cast_succ n, iterate_derivative_sub,
    iterate_derivative_natCast_mul, mul_comm X, iterate_derivative_derivative_mul_X, nsmul_eq_mul]
  push_cast
  ring

/-- The recurrence in the degree holds for the derivatives of each order. -/
theorem iterate_derivative_rodrigues_succ_succ (n m : ℕ) :
    (n + 2 - m : ℝ[X]) * derivative^[m] (rodrigues (n + 2)) =
      (2 * n + 3 : ℝ[X]) * (X * derivative^[m] (rodrigues (n + 1))) -
        (n + m + 1 : ℝ[X]) * derivative^[m] (rodrigues n) := by
  cases m with
  | zero =>
    simp only [Function.iterate_zero_apply]
    push_cast
    linear_combination rodrigues_succ_succ n
  | succ m =>
    -- Both neighbours of the middle degree lead to its derivative of the order before.
    have hnext := iterate_derivative_rodrigues_succ (n + 1) m
    have hlast := iterate_derivative_rodrigues n m
    push_cast at hnext ⊢
    linear_combination (n + 1 - m : ℝ[X]) * hnext + (n + m + 2 : ℝ[X]) * hlast

/-- The differential equation of the polynomial of degree `n`, differentiated `m` times. -/
theorem differential_equation (n m : ℕ) :
    (1 - X ^ 2) * derivative^[m + 2] (rodrigues n) -
        2 * (m + 1 : ℝ[X]) * (X * derivative^[m + 1] (rodrigues n)) +
      (n - m : ℝ[X]) * (n + m + 1 : ℝ[X]) * derivative^[m] (rodrigues n) = 0 := by
  have hnext := iterate_derivative_rodrigues_succ n m
  have hnext' := iterate_derivative_rodrigues_succ n (m + 1)
  have hlast := iterate_derivative_rodrigues n (m + 1)
  push_cast at hnext' hlast
  linear_combination hlast + X * hnext' - (n - m : ℝ[X]) * hnext

end Legendre

end DiscreteOrdinates
