import DiscreteOrdinates.Proofs.Harmonics.AssociatedDerivatives
import DiscreteOrdinates.Proofs.Harmonics.Parity

/-!
# Orthogonality of the Legendre polynomials

A Legendre polynomial has no integral over `[-1, 1]` with any polynomial of lower degree,
and the polynomials up to a degree make a kernel that singles out the roots of the next
one. So the integral of a polynomial of less than twice the degree is a sum over the
roots (`integral_eq_sum_roots`), with the weights that the derivative has there.
-/

namespace DiscreteOrdinates

namespace Legendre

open Polynomial

/-! ## Orthogonality -/

/-- Fewer derivatives than factors leave a power of `x² - 1` zero at the ends. -/
theorem eval_iterate_derivative_pow {n k : ℕ} (h : k < n) {x : ℝ} (hx : x ^ 2 = 1) :
    (derivative^[k] ((X ^ 2 - 1 : ℝ[X]) ^ n)).eval x = 0 := by
  obtain ⟨q, hq⟩ := (dvd_pow_self _ (Nat.sub_ne_zero_of_lt h)).trans
    (pow_sub_dvd_iterate_derivative_pow (X ^ 2 - 1 : ℝ[X]) n k)
  simp [hq, hx]

theorem integral_mul_derivative (p q : ℝ[X]) (a b : ℝ) :
    ∫ x in a..b, p.eval x * (derivative q).eval x =
      p.eval b * q.eval b - p.eval a * q.eval a - ∫ x in a..b, (derivative p).eval x * q.eval x :=
  intervalIntegral.integral_mul_deriv_eq_deriv_mul (fun x _ => p.hasDerivAt x)
    (fun x _ => q.hasDerivAt x) ((derivative p).continuous.intervalIntegrable _ _)
    ((derivative q).continuous.intervalIntegrable _ _)

/-- Each integration by parts moves a derivative to the other factor. -/
theorem integral_mul_iterate_derivative {n k : ℕ} (h : k ≤ n) {q : ℝ[X]}
    (hq : derivative^[k] q = 0) :
    ∫ x in (-1)..1, q.eval x * (derivative^[k] ((X ^ 2 - 1 : ℝ[X]) ^ n)).eval x = 0 := by
  induction k generalizing q with
  | zero =>
    obtain rfl : q = 0 := hq
    simp
  | succ k ih =>
    rw [Function.iterate_succ_apply', integral_mul_derivative,
      eval_iterate_derivative_pow h (by norm_num), eval_iterate_derivative_pow h (by norm_num),
      ih (Nat.le_of_succ_le h) hq]
    ring

theorem integral_mul_rodrigues {n : ℕ} {q : ℝ[X]} (hq : q.degree < n) :
    ∫ x in (-1)..1, q.eval x * (rodrigues n).eval x = 0 := by
  have h := integral_mul_iterate_derivative le_rfl (iterate_derivative_eq_zero_of_degree_lt hq)
  simp only [rodrigues, eval_mul, eval_C, mul_left_comm _ (scale n)]
  rw [intervalIntegral.integral_const_mul, h, mul_zero]

/-! ## Kernel -/

/-- The kernel of the polynomials up to degree `n` at `z`. -/
noncomputable def kernel (n : ℕ) (z : ℝ) : ℝ[X] :=
  ∑ k ∈ Finset.range (n + 1), C ((2 * k + 1 : ℕ) * (rodrigues k).eval z) * rodrigues k

theorem kernel_zero (z : ℝ) : kernel 0 z = 1 := by
  simp [kernel, rodrigues_zero]

theorem kernel_succ (n : ℕ) (z : ℝ) :
    kernel (n + 1) z =
      kernel n z + C ((2 * (n + 1) + 1) * (rodrigues (n + 1)).eval z) * rodrigues (n + 1) := by
  rw [kernel, Finset.sum_range_succ, ← kernel]
  push_cast
  rfl

/-- The formula of Christoffel and Darboux. -/
theorem X_sub_C_mul_kernel (n : ℕ) (z : ℝ) :
    (X - C z) * kernel n z =
      (n + 1 : ℝ[X]) * (C ((rodrigues n).eval z) * rodrigues (n + 1) -
        C ((rodrigues (n + 1)).eval z) * rodrigues n) := by
  induction n with
  | zero => simp [kernel_zero, rodrigues_zero, rodrigues_one]
  | succ n ih =>
    have hstep := rodrigues_succ_succ n
    have hvalue := congrArg C (congrArg (eval z) hstep)
    simp only [eval_mul, eval_sub, eval_add, eval_natCast, eval_ofNat, eval_one, eval_X, C_mul,
      C_sub, C_add, map_natCast, map_ofNat, C_1] at hvalue
    rw [kernel_succ, mul_add, ih]
    push_cast
    simp only [C_mul, C_add, map_natCast, map_ofNat, C_1]
    linear_combination C ((rodrigues (n + 1)).eval z) * -hstep + rodrigues (n + 1) * hvalue

theorem natDegree_kernel_le (n : ℕ) (z : ℝ) : (kernel n z).natDegree ≤ n := by
  refine natDegree_sum_le_of_forall_le _ _ fun k hk => ?_
  exact (natDegree_C_mul_le _ _).trans
    ((natDegree_rodrigues_le k).trans (Nat.le_of_lt_succ (Finset.mem_range.mp hk)))

theorem integral_kernel (n : ℕ) (z : ℝ) : ∫ x in (-1)..1, (kernel n z).eval x = 2 := by
  induction n with
  | zero =>
    simp only [kernel_zero, eval_one]
    norm_num
  | succ n ih =>
    have hdegree : (1 : ℝ[X]).degree < (n + 1 : ℕ) := by
      rw [degree_one]
      exact_mod_cast n.succ_pos
    have hzero := integral_mul_rodrigues hdegree
    simp only [eval_one, one_mul] at hzero
    simp only [kernel_succ, eval_add, eval_mul, eval_C]
    rw [intervalIntegral.integral_add (Continuous.intervalIntegrable (by fun_prop) _ _)
      (Continuous.intervalIntegrable (by fun_prop) _ _), ih, intervalIntegral.integral_const_mul,
      hzero, mul_zero, add_zero]

theorem eval_self_kernel_pos (n : ℕ) (z : ℝ) : 0 < (kernel n z).eval z := by
  induction n with
  | zero => simp [kernel_zero]
  | succ n ih =>
    rw [kernel_succ, eval_add, eval_mul, eval_C, mul_assoc]
    have := mul_self_nonneg ((rodrigues (n + 1)).eval z)
    positivity

/-! ## Roots -/

theorem eval_neg_rodrigues (n : ℕ) (z : ℝ) :
    (rodrigues n).eval (-z) = (-1) ^ n * (rodrigues n).eval z := by
  have h := associated_neg n.zero_le z
  simpa only [associated_eq_derivative, pow_zero, one_mul, Function.iterate_zero_apply,
    Nat.add_zero] using h

theorem isRoot_neg {n : ℕ} {z : ℝ} (h : (rodrigues n).IsRoot z) : (rodrigues n).IsRoot (-z) := by
  rw [IsRoot.def, eval_neg_rodrigues, h.eq_zero, mul_zero]

theorem isRoot_zero_of_odd {n : ℕ} (h : n % 2 = 1) : (rodrigues n).IsRoot 0 := by
  have hneg := eval_neg_rodrigues n 0
  rw [neg_zero, Odd.neg_one_pow (Nat.odd_iff.mpr h), neg_one_mul] at hneg
  exact self_eq_neg.mp hneg

section

variable {n : ℕ} {z : ℝ} (h : (rodrigues (n + 1)).IsRoot z)

include h

theorem X_sub_C_mul_kernel_of_isRoot :
    (X - C z) * kernel n z = (n + 1 : ℝ[X]) * (C ((rodrigues n).eval z) * rodrigues (n + 1)) := by
  rw [X_sub_C_mul_kernel, h.eq_zero, C_0, zero_mul, sub_zero]

/-- The kernel at a root vanishes at all other roots. -/
theorem eval_kernel_eq_zero {y : ℝ} (hy : (rodrigues (n + 1)).IsRoot y) (hne : y ≠ z) :
    (kernel n z).eval y = 0 := by
  have hvalue := congrArg (eval y) (X_sub_C_mul_kernel_of_isRoot h)
  simp only [eval_mul, eval_sub, eval_X, eval_C, hy.eq_zero, mul_zero] at hvalue
  exact (mul_eq_zero.mp hvalue).resolve_left (sub_ne_zero.mpr hne)

/-- At the root itself the kernel is what the derivative leaves. -/
theorem eval_self_kernel :
    (kernel n z).eval z = (1 - z ^ 2) * (derivative (rodrigues (n + 1))).eval z ^ 2 := by
  have hslope := congrArg (eval z) (mul_derivative_rodrigues_succ n)
  have hvalue := congrArg (eval z) (congrArg derivative (X_sub_C_mul_kernel_of_isRoot h))
  rw [← Nat.cast_succ n, derivative_mul, derivative_natCast_mul, derivative_C_mul, derivative_sub, derivative_X,
    derivative_C] at hvalue
  simp only [eval_mul, eval_sub, eval_add, eval_pow, eval_natCast, eval_one, eval_X, eval_C,
    eval_zero, h.eq_zero] at hslope hvalue
  push_cast at hvalue
  linear_combination hvalue + (derivative (rodrigues (n + 1))).eval z * hslope

theorem derivative_ne_zero_of_isRoot : (derivative (rodrigues (n + 1))).eval z ≠ 0 := by
  intro hzero
  have hpos := eval_self_kernel_pos n z
  rw [eval_self_kernel h, hzero] at hpos
  norm_num at hpos

theorem sq_lt_one_of_isRoot : z ^ 2 < 1 := by
  have hpos := eval_self_kernel_pos n z
  rw [eval_self_kernel h] at hpos
  exact sub_pos.mp (pos_of_mul_pos_left hpos (sq_nonneg _))

end

/-! ## Sums over the roots -/

theorem degree_rodrigues (n : ℕ) : (rodrigues n).degree = n := by
  have hne : (rodrigues n).coeff n ≠ 0 := by
    rw [← formal_eq_rodrigues]
    exact (coeff_formal_pos n).ne'
  exact degree_eq_of_le_of_coeff_ne_zero
    (degree_le_of_natDegree_le (natDegree_rodrigues_le n)) hne

theorem rodrigues_ne_zero (n : ℕ) : rodrigues n ≠ 0 := by
  rw [ne_eq, ← degree_eq_bot, degree_rodrigues]
  exact WithBot.coe_ne_bot

theorem degree_div_rodrigues_lt {n : ℕ} {p : ℝ[X]} (hp : p.degree < (2 * n : ℕ)) :
    (p / rodrigues n).degree < n := by
  have hne := rodrigues_ne_zero n
  by_cases hzero : p / rodrigues n = 0
  · rw [hzero, degree_zero]
    exact WithBot.bot_lt_coe n
  · have hsum := degree_add_div hne (not_lt.mp (mt (Polynomial.div_eq_zero_iff hne).mpr hzero))
    rw [degree_rodrigues, degree_eq_natDegree hzero] at hsum
    rw [← hsum] at hp
    rw [degree_eq_natDegree hzero]
    norm_cast at hp ⊢
    omega

/-- Multiples of a Legendre polynomial by one of lower degree have no integral. -/
theorem integral_mod_rodrigues {n : ℕ} {p : ℝ[X]} (hp : p.degree < (2 * n : ℕ)) :
    ∫ x in (-1)..1, (p % rodrigues n).eval x = ∫ x in (-1)..1, p.eval x := by
  have hsplit (x : ℝ) : p.eval x =
      (p / rodrigues n).eval x * (rodrigues n).eval x + (p % rodrigues n).eval x := by
    conv_lhs => rw [← EuclideanDomain.div_add_mod p (rodrigues n)]
    rw [eval_add, eval_mul, mul_comm]
  simp only [hsplit]
  rw [intervalIntegral.integral_add (Continuous.intervalIntegrable (by fun_prop) _ _)
    (Continuous.intervalIntegrable (by fun_prop) _ _),
    integral_mul_rodrigues (degree_div_rodrigues_lt hp), zero_add]

theorem eval_mod_of_isRoot {p q : ℝ[X]} {z : ℝ} (h : q.IsRoot z) :
    (p % q).eval z = p.eval z := by
  conv_rhs => rw [← EuclideanDomain.div_add_mod p q]
  rw [eval_add, eval_mul, h.eq_zero, zero_mul, zero_add]

section

variable {n : ℕ} {roots : Finset ℝ} (hcard : roots.card = n + 1)
  (hroots : ∀ z ∈ roots, (rodrigues (n + 1)).IsRoot z)

include hcard hroots

/-- A polynomial of lower degree from its values at the roots. -/
theorem eq_sum_kernel {q : ℝ[X]} (hq : q.degree < (n + 1 : ℕ)) :
    q = ∑ z ∈ roots, C (q.eval z / (kernel n z).eval z) * kernel n z := by
  -- Both sides are of lower degree than there are roots, so the values decide.
  refine eq_of_degrees_lt_of_eval_finset_eq roots (hcard ▸ hq) ?_ fun y hy => ?_
  · have hdegree : (∑ z ∈ roots, C (q.eval z / (kernel n z).eval z) * kernel n z).natDegree ≤ n :=
      natDegree_sum_le_of_forall_le _ _ fun z _ =>
        (natDegree_C_mul_le _ _).trans (natDegree_kernel_le n z)
    rw [hcard]
    exact degree_le_natDegree.trans_lt (by exact_mod_cast Nat.lt_succ_of_le hdegree)
  · rw [eval_finsetSum, Finset.sum_eq_single_of_mem y hy fun z hz hne => ?_]
    · rw [eval_mul, eval_C, div_mul_cancel₀ _ (eval_self_kernel_pos n y).ne']
    · rw [eval_mul, eval_kernel_eq_zero (hroots z hz) (hroots y hy) hne.symm, mul_zero]

/-- The sum over the roots is exact for all polynomials of less than twice the degree. -/
theorem integral_eq_sum_roots {p : ℝ[X]} (hp : p.degree < (2 * (n + 1) : ℕ)) :
    ∫ x in (-1)..1, p.eval x =
      ∑ z ∈ roots, 2 / ((1 - z ^ 2) * (derivative (rodrigues (n + 1))).eval z ^ 2) * p.eval z := by
  have hrest : (p % rodrigues (n + 1)).degree < (n + 1 : ℕ) :=
    degree_rodrigues (n + 1) ▸ degree_mod_lt p (rodrigues_ne_zero _)
  have hkernel (x : ℝ) : (p % rodrigues (n + 1)).eval x =
      ∑ z ∈ roots, (p % rodrigues (n + 1)).eval z / (kernel n z).eval z * (kernel n z).eval x := by
    conv_lhs => rw [eq_sum_kernel hcard hroots hrest]
    simp only [eval_finsetSum, eval_mul, eval_C]
  calc ∫ x in (-1)..1, p.eval x
      = ∫ x in (-1)..1, (p % rodrigues (n + 1)).eval x := (integral_mod_rodrigues hp).symm
    _ = ∫ x in (-1)..1, ∑ z ∈ roots,
          (p % rodrigues (n + 1)).eval z / (kernel n z).eval z * (kernel n z).eval x :=
        intervalIntegral.integral_congr fun x _ => hkernel x
    _ = ∑ z ∈ roots, (p % rodrigues (n + 1)).eval z / (kernel n z).eval z * 2 := by
        rw [intervalIntegral.integral_finsetSum fun z _ =>
          Continuous.intervalIntegrable (by fun_prop) _ _]
        simp only [intervalIntegral.integral_const_mul, integral_kernel]
    _ = ∑ z ∈ roots,
          2 / ((1 - z ^ 2) * (derivative (rodrigues (n + 1))).eval z ^ 2) * p.eval z := by
        refine Finset.sum_congr rfl fun z hz => ?_
        rw [eval_mod_of_isRoot (hroots z hz), eval_self_kernel (hroots z hz)]
        ring

end

end Legendre

end DiscreteOrdinates
