import DiscreteOrdinates.Proofs.Harmonics.AssociatedDerivatives
import DiscreteOrdinates.Proofs.Harmonics.Parity

/-!
# Normalisation of a shell

The squares of all tesseral harmonics of one degree add up to one in every direction,
which is the addition theorem of a direction with itself. The azimuth drops out of each
pair of opposite orders. What is left is a polynomial in the polar cosine whose
derivative telescopes over the orders, so it is the constant that it is at the pole.
Main statement: `sum_tesseral_sq`.
-/

namespace DiscreteOrdinates

namespace Harmonic

open Polynomial
open Legendre (rodrigues)
open scoped Nat

/-! ## Factors of the orders -/

/-- The next order divides the ratio by `(l - m) (l + m + 1)`. -/
theorem factorialRatio_eq_mul {l m : ℕ} (h : m < l) :
    (factorialRatio l m : ℝ) = factorialRatio l (m + 1) * ((l - m) * (l + m + 1)) := by
  obtain ⟨j, rfl⟩ := Nat.exists_eq_add_of_lt h
  have hnext := factorialRatio_add (m + 1) j
  have hlast := factorialRatio_add m (j + 1)
  have hfac : ((2 * (m + 1) + j)! : ℝ) = (2 * m + j + 2) * (2 * m + (j + 1))! := by
    rw [show 2 * (m + 1) + j = 2 * m + (j + 1) + 1 by ring, Nat.factorial_succ]
    push_cast
    ring
  have hne : ((2 * m + (j + 1))! : ℝ) ≠ 0 := by positivity
  rw [Nat.add_right_comm] at hnext
  rw [Nat.add_assoc m j 1, hlast]
  rw [← Nat.add_assoc m j 1, hnext, hfac, Nat.factorial_succ]
  push_cast
  field_simp
  ring

/-! ## Sum over the orders -/

/-- The squares of the functions of degree `l` and of the orders up to `n`, each order
above zero counted for its cosine and its sine. -/
noncomputable def shellSum (l : ℕ) : ℕ → ℝ[X]
  | 0 => rodrigues l ^ 2
  | n + 1 =>
    shellSum l n +
      C ((2 : ℕ) * (factorialRatio l (n + 1) : ℝ)) *
        ((1 - X ^ 2) ^ (n + 1) * derivative^[n + 1] (rodrigues l) ^ 2)

theorem shellSum_succ (l n : ℕ) :
    shellSum l (n + 1) =
      shellSum l n +
        C (2 * factorialRatio l (n + 1)) *
          ((1 - X ^ 2) ^ (n + 1) * derivative^[n + 1] (rodrigues l) ^ 2) := by
  rw [shellSum, Nat.cast_two]

/-- The derivative of the sum up to an order is one product: the differential equation
lets the next order take up what the last one leaves. -/
theorem derivative_shellSum {l n : ℕ} (h : n ≤ l) :
    derivative (shellSum l n) =
      C (2 * factorialRatio l n) *
        ((1 - X ^ 2) ^ n * (derivative^[n] (rodrigues l) * derivative^[n + 1] (rodrigues l))) := by
  induction n with
  | zero =>
    rw [shellSum, factorialRatio_zero, derivative_sq, Function.iterate_zero_apply,
      Function.iterate_one]
    simp only [map_ofNat, mul_one]
    ring
  | succ n ih =>
    have hequation := Legendre.differential_equation l n
    have hratio : (C (2 * factorialRatio l n) : ℝ[X]) =
        C (2 * factorialRatio l (n + 1)) * ((l - n : ℝ[X]) * (l + n + 1 : ℝ[X])) := by
      rw [factorialRatio_eq_mul h, ← mul_assoc]
      simp
    have hpower : derivative ((1 - X ^ 2 : ℝ[X]) ^ (n + 1)) =
        -2 * (n + 1 : ℝ[X]) * (X * (1 - X ^ 2) ^ n) := by
      rw [derivative_pow_succ, derivative_sub, derivative_one, derivative_X_sq]
      simp only [C_add, map_natCast, map_ofNat, C_1]
      ring
    have hsquare : derivative (derivative^[n + 1] (rodrigues l) ^ 2) =
        2 * derivative^[n + 1] (rodrigues l) * derivative^[n + 2] (rodrigues l) := by
      rw [derivative_sq, ← Function.iterate_succ_apply' derivative, map_ofNat]
    rw [shellSum_succ, derivative_add, ih (Nat.le_of_succ_le h), hratio, derivative_C_mul,
      derivative_mul, hpower, hsquare]
    linear_combination C (2 * factorialRatio l (n + 1)) * (1 - X ^ 2) ^ n *
      derivative^[n + 1] (rodrigues l) * hequation

theorem eval_one_shellSum (l n : ℕ) : (shellSum l n).eval 1 = 1 := by
  induction n with
  | zero => rw [shellSum, eval_pow, Legendre.eval_one_rodrigues, one_pow]
  | succ n ih => simp [shellSum_succ, ih]

/-- All orders of a degree together add up to one. -/
theorem shellSum_self (l : ℕ) : shellSum l l = 1 := by
  have hderivative : derivative (shellSum l l) = 0 := by
    rw [derivative_shellSum le_rfl, Legendre.iterate_derivative_rodrigues_eq_zero l.lt_succ_self,
      mul_zero, mul_zero, mul_zero]
  have hconst := eq_C_of_natDegree_eq_zero (derivative_eq_zero.mp hderivative)
  have hone := eval_one_shellSum l l
  rw [hconst, eval_C] at hone
  rw [hconst, hone, C_1]

/-! ## Sum over the shell -/

theorem tesseralAt_zero (l : ℕ) (d : Direction) :
    tesseralAt l 0 d = Legendre.associated l 0 d.1 := by
  have h := tesseral_zero_order l ⟨d.1, d.2.1, d.2.2, 0⟩
  rw [tesseral_eq_tesseralAt (Nat.zero_le l)] at h
  exact Except.ok.inj h

/-- The cosine and the sine of an order above zero lose their azimuth together. -/
theorem tesseralAt_sq_add_sq {l k : ℕ} (hpos : 0 < k) (hk : k ≤ l) (d : Direction) :
    tesseralAt l k d ^ 2 + tesseralAt l (-k) d ^ 2 =
      2 * factorialRatio l k * Legendre.associated l k d.1 ^ 2 := by
  have hdelta (j : ℤ) (hj : j ≠ 0) : (2.0 - delta j 0 : ℝ) = 2 := by
    simp [delta, hj, Scalar.zero_real, Scalar.two_real]
  have hratio : 0 ≤ 2 * (factorialRatio l k : ℝ) := by
    obtain ⟨j, rfl⟩ := Nat.exists_eq_add_of_le hk
    have := factorialRatio_pos k j
    positivity
  have hcos := Real.cos_sq_add_sin_sq (k * azimuth d.2.1 d.2.2)
  rw [tesseralAt, tesseralAt, azimuthalFactor_real, azimuthalFactor_real, if_pos (by omega),
    if_neg (by omega), hdelta _ (by omega), hdelta _ (by omega), Int.natAbs_neg,
    Int.natAbs_natCast]
  simp only [mul_pow, Real.sq_sqrt hratio]
  linear_combination 2 * factorialRatio l k * Legendre.associated l k d.1 ^ 2 * hcos

/-- The squares of the harmonics up to an order, as the value of a polynomial. -/
theorem sum_tesseralAt_sq {l n : ℕ} (h : n ≤ l) {d : Direction} (hx : d.1 ∈ Set.Icc (-1) 1) :
    ∑ k ∈ Finset.Icc (-n : ℤ) n, tesseralAt l k d ^ 2 = (shellSum l n).eval d.1 := by
  induction n with
  | zero =>
    have hsingle : Finset.Icc (-(0 : ℕ) : ℤ) (0 : ℕ) = {0} := rfl
    rw [hsingle, Finset.sum_singleton, tesseralAt_zero, Legendre.associated_eq_derivative, pow_zero,
      one_mul, Function.iterate_zero_apply, shellSum, eval_pow]
  | succ n ih =>
    have hnonneg : 0 ≤ 1 - d.1 * d.1 := by nlinarith only [hx.1, hx.2]
    have hpair := tesseralAt_sq_add_sq (Nat.add_one_pos n) h d
    rw [Legendre.associated_eq_derivative, max_eq_left hnonneg, mul_pow, ← pow_mul, mul_comm _ 2,
      pow_mul, Real.sq_sqrt hnonneg] at hpair
    rw [Nat.cast_add_one, Finset.sum_Icc_succ_eq_add_endpoints, ih (Nat.le_of_succ_le h),
      ← Nat.cast_add_one, hpair, shellSum_succ]
    simp only [eval_add, eval_mul, eval_C, eval_pow, eval_sub, eval_one, eval_X]
    ring

/-- A sum over the orders of a shell. -/
theorem sum_map_shell (l : ℕ) (f : ℤ → ℝ) :
    ((MomentIndex.shell l).map fun i => f i.k).sum = ∑ k ∈ Finset.Icc (-l : ℤ) l, f k := by
  have hnodup : ((MomentIndex.shell l).map (·.k)).Nodup := by
    rw [MomentIndex.shell, List.map_map]
    refine List.nodup_range.map fun a b hab => ?_
    simpa using hab
  have hmem : ((MomentIndex.shell l).map (·.k)).toFinset = Finset.Icc (-l : ℤ) l := by
    ext k
    simp only [MomentIndex.shell, List.mem_toFinset, List.mem_map, List.mem_range, Finset.mem_Icc,
      exists_exists_and_eq_and]
    exact ⟨by rintro ⟨p, hp, rfl⟩; omega, fun hk => ⟨(k + l).toNat, by omega, by omega⟩⟩
  rw [← hmem, List.sum_toFinset f hnodup, List.map_map]
  rfl

/-- In every direction whose polar cosine lies on the interval, all harmonics of a degree
exist, and their squares add up to one. -/
theorem sum_tesseral_sq (l : ℕ) {o : Ordinate ℝ} (hx : o.x ∈ Set.Icc (-1) 1) :
    ∃ v : ℤ → ℝ, (∀ k : ℤ, k.natAbs ≤ l → tesseral l k o = .ok (v k)) ∧
      ∑ k ∈ Finset.Icc (-l : ℤ) l, v k ^ 2 = 1 ∧
      ((MomentIndex.shell l).map fun i => v i.k ^ 2).sum = 1 := by
  have hsum : ∑ k ∈ Finset.Icc (-l : ℤ) l, tesseralAt l k o.direction ^ 2 = 1 := by
    rw [sum_tesseralAt_sq le_rfl hx, shellSum_self, eval_one]
  refine ⟨fun k => tesseralAt l k o.direction, fun k hk => tesseral_eq_tesseralAt hk o, hsum, ?_⟩
  rw [sum_map_shell l fun k => tesseralAt l k o.direction ^ 2, hsum]

theorem sum_tesseral_sq_oblique :
    oblique.x ∈ Set.Icc (-1) 1 ∧
      ∃ v : ℤ → ℝ, (∀ k ∈ Finset.Icc (-3 : ℤ) 3, tesseral 3 k oblique = .ok (v k)) ∧
        v (-3) ^ 2 + v (-2) ^ 2 + v (-1) ^ 2 + v 0 ^ 2 + v 1 ^ 2 + v 2 ^ 2 + v 3 ^ 2 = 1 := by
  have hx : oblique.x ∈ Set.Icc (-1) 1 := by
    unfold oblique
    constructor <;> norm_num
  obtain ⟨v, hvalues, -, hsum⟩ := sum_tesseral_sq 3 hx
  refine ⟨hx, v, fun k hk => hvalues k ?_, ?_⟩
  · rw [Finset.mem_Icc] at hk
    omega
  · rw [← hsum]
    simp [MomentIndex.shell, List.range_succ]
    ring

end Harmonic

end DiscreteOrdinates
