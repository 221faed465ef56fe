import Mathlib
import DiscreteOrdinates.Decimal.Binary

/-!
# Scales

Ratios of natural numbers as rational numbers: what a scaled ratio stands for,
which decade and which binade a ratio lies in, and which natural number is
nearest to it. Main statements: the bounds `decade_bounds` and `binade_bounds`,
and `roundHalfEven_eq` for the number that a ratio rounds to.
-/

namespace DiscreteOrdinates

/-! ## Scaled ratios -/

section

variable {m base : ℕ}

theorem scaledRatio_div (m base : ℕ) (e : ℤ) :
    ((scaledRatio m base e).1 : ℚ) / (scaledRatio m base e).2 = m * (base : ℚ) ^ e := by
  cases e with
  | ofNat e => simp [scaledRatio]
  | negSucc e => simp [scaledRatio, zpow_negSucc, div_eq_mul_inv]

theorem scaledRatio_num_pos (hm : 0 < m) (hbase : 0 < base) (e : ℤ) :
    0 < (scaledRatio m base e).1 := by
  cases e with
  | ofNat e => exact Nat.mul_pos hm (Nat.pow_pos hbase)
  | negSucc e => exact hm

theorem scaledRatio_den_pos (m : ℕ) (hbase : 0 < base) (e : ℤ) :
    0 < (scaledRatio m base e).2 := by
  cases e with
  | ofNat e => exact Nat.one_pos
  | negSucc e => exact Nat.pow_pos hbase

end

/-! ## Decades -/

theorem digitCount_pos {n : ℕ} (h : 0 < n) : 0 < digitCount n := by
  rw [digitCount, if_neg h.ne']
  exact Nat.succ_pos _

theorem lt_pow_digitCount (n : ℕ) : n < 10 ^ digitCount n := by
  fun_induction digitCount n with
  | case1 => simp
  | case2 n hn ih =>
    rw [pow_succ]
    omega

theorem pow_digitCount_le {n : ℕ} (h : 0 < n) : 10 ^ (digitCount n - 1) ≤ n := by
  fun_induction digitCount n with
  | case1 => exact absurd h (Nat.lt_irrefl 0)
  | case2 n hn ih =>
    rw [Nat.add_sub_cancel]
    by_cases hsmall : n / 10 = 0
    · rw [hsmall, digitCount, if_pos rfl, pow_zero]
      omega
    · have hpos : 0 < n / 10 := Nat.pos_of_ne_zero hsmall
      have hcount : digitCount (n / 10) = digitCount (n / 10) - 1 + 1 :=
        (Nat.sub_add_cancel (digitCount_pos hpos)).symm
      rw [hcount, pow_succ]
      have := ih hpos
      omega

theorem digitCount_bounds {n : ℕ} (h : 0 < n) :
    (10 : ℚ) ^ ((digitCount n : ℤ) - 1) ≤ n ∧ (n : ℚ) < (10 : ℚ) ^ (digitCount n : ℤ) := by
  constructor
  · have hcount : (digitCount n : ℤ) - 1 = (digitCount n - 1 : ℕ) := by
      have := digitCount_pos h
      omega
    rw [hcount, zpow_natCast]
    exact_mod_cast pow_digitCount_le h
  · rw [zpow_natCast]
    exact_mod_cast lt_pow_digitCount n

section

variable {num den : ℕ}

/-- A ratio from one on has the decade of its integral part. -/
private theorem decade_bounds_of_le (hden : 0 < den) (hle : den ≤ num) :
    (10 : ℚ) ^ ((digitCount (num / den) : ℤ) - 1) ≤ num / den ∧
      (num : ℚ) / den < (10 : ℚ) ^ (digitCount (num / den) : ℤ) := by
  have hquotient : 0 < num / den := Nat.div_pos hle hden
  have hden' : (0 : ℚ) < den := by exact_mod_cast hden
  constructor
  · exact (digitCount_bounds hquotient).1.trans Nat.cast_div_le
  · rw [zpow_natCast, div_lt_iff₀ hden']
    exact_mod_cast (Nat.div_lt_iff_lt_mul hden).mp (lt_pow_digitCount (num / den))

/-- A ratio below one has the decade that the integral part of its inverse
leads to. -/
private theorem decade_bounds_of_lt (hnum : 0 < num) (hlt : num < den) :
    (10 : ℚ) ^ (-(digitCount ((den - 1) / num) : ℤ)) ≤ num / den ∧
      (num : ℚ) / den < (10 : ℚ) ^ (-(digitCount ((den - 1) / num) : ℤ) + 1) := by
  have hquotient : 0 < (den - 1) / num := Nat.div_pos (by omega) hnum
  have hden : (0 : ℚ) < den := by exact_mod_cast hnum.trans hlt
  obtain ⟨k, hk⟩ : ∃ k, digitCount ((den - 1) / num) = k + 1 :=
    ⟨_, (Nat.sub_add_cancel (digitCount_pos hquotient)).symm⟩
  have hlow : den ≤ num * 10 ^ (k + 1) := by
    have := (Nat.div_lt_iff_lt_mul hnum).mp (hk ▸ lt_pow_digitCount ((den - 1) / num))
    rw [mul_comm] at this
    omega
  have hhigh : num * 10 ^ k < den := by
    have := (Nat.le_div_iff_mul_le hnum).mp (hk ▸ pow_digitCount_le hquotient)
    rw [Nat.add_sub_cancel, mul_comm] at this
    omega
  rw [hk, show -((k + 1 : ℕ) : ℤ) + 1 = -(k : ℤ) by push_cast; ring, zpow_neg, zpow_neg,
    zpow_natCast, zpow_natCast]
  constructor
  · rw [inv_le_iff_one_le_mul₀ (by positivity), div_mul_eq_mul_div, one_le_div hden]
    exact_mod_cast hlow
  · rw [div_lt_iff₀ hden, inv_mul_eq_div, lt_div_iff₀ (by positivity)]
    exact_mod_cast hhigh

theorem decade_bounds (hnum : 0 < num) (hden : 0 < den) :
    (10 : ℚ) ^ decade num den ≤ num / den ∧
      (num : ℚ) / den < (10 : ℚ) ^ (decade num den + 1) := by
  rw [decade]
  split
  next hle => simpa using decade_bounds_of_le hden hle
  next hlt => exact decade_bounds_of_lt hnum (Nat.lt_of_not_le hlt)

/-! ## Binades -/

namespace Binary

/-- The exponents of numerator and denominator leave two binades. -/
private theorem binade_guess (hnum : 0 < num) (hden : 0 < den) :
    (2 : ℚ) ^ ((num.log2 : ℤ) - den.log2 - 1) ≤ num / den ∧
      (num : ℚ) / den < (2 : ℚ) ^ ((num.log2 : ℤ) - den.log2 + 1) := by
  have hden' : (0 : ℚ) < den := by exact_mod_cast hden
  have hnumLow : (2 : ℚ) ^ (num.log2 : ℤ) ≤ num := by
    rw [zpow_natCast]
    exact_mod_cast Nat.log2_self_le hnum.ne'
  have hnumHigh : (num : ℚ) < (2 : ℚ) ^ ((num.log2 : ℤ) + 1) := by
    exact_mod_cast Nat.lt_log2_self
  have hdenLow : (2 : ℚ) ^ (den.log2 : ℤ) ≤ den := by
    rw [zpow_natCast]
    exact_mod_cast Nat.log2_self_le hden.ne'
  have hdenHigh : (den : ℚ) < (2 : ℚ) ^ ((den.log2 : ℤ) + 1) := by
    exact_mod_cast Nat.lt_log2_self
  constructor
  · rw [le_div_iff₀ hden']
    calc (2 : ℚ) ^ ((num.log2 : ℤ) - den.log2 - 1) * den
        ≤ (2 : ℚ) ^ ((num.log2 : ℤ) - den.log2 - 1) * (2 : ℚ) ^ ((den.log2 : ℤ) + 1) := by
          gcongr
      _ = (2 : ℚ) ^ (num.log2 : ℤ) := by
          rw [← zpow_add₀ two_ne_zero]
          congr 1
          ring
      _ ≤ num := hnumLow
  · rw [div_lt_iff₀ hden']
    calc (num : ℚ) < (2 : ℚ) ^ ((num.log2 : ℤ) + 1) := hnumHigh
      _ = (2 : ℚ) ^ ((num.log2 : ℤ) - den.log2 + 1) * (2 : ℚ) ^ (den.log2 : ℤ) := by
          rw [← zpow_add₀ two_ne_zero]
          congr 1
          ring
      _ ≤ (2 : ℚ) ^ ((num.log2 : ℤ) - den.log2 + 1) * den := by gcongr

/-- The test that decides between the two binades. -/
private theorem scaledRatio_le_iff (hden : 0 < den) (e : ℤ) :
    (scaledRatio den 2 e).1 ≤ num * (scaledRatio den 2 e).2 ↔ (2 : ℚ) ^ e ≤ num / den := by
  have hscale : (0 : ℚ) < (scaledRatio den 2 e).2 := by
    exact_mod_cast scaledRatio_den_pos den two_pos e
  have hden' : (0 : ℚ) < den := by exact_mod_cast hden
  have hratio := scaledRatio_div den 2 e
  rw [Nat.cast_ofNat, mul_comm] at hratio
  rw [le_div_iff₀ hden', ← hratio, div_le_iff₀ hscale]
  exact_mod_cast Iff.rfl

theorem binade_bounds (hnum : 0 < num) (hden : 0 < den) :
    (2 : ℚ) ^ binade num den ≤ num / den ∧
      (num : ℚ) / den < (2 : ℚ) ^ (binade num den + 1) := by
  obtain ⟨hlow, hhigh⟩ := binade_guess hnum hden
  simp only [binade]
  split
  next hle => exact ⟨(scaledRatio_le_iff hden _).mp hle, hhigh⟩
  next hlt =>
    refine ⟨hlow, ?_⟩
    rw [sub_add_cancel]
    exact lt_of_not_ge fun hle => hlt ((scaledRatio_le_iff hden _).mpr hle)

end Binary

end

/-! ## Rounding -/

/-- The number `s` is the nearest one to `q`, the even one of two. -/
def IsNearest (q : ℚ) (s : ℕ) : Prop :=
  |q - s| < 1 / 2 ∨ |q - s| = 1 / 2 ∧ Even s

/-- The nearest number to a ratio, by the numerators over the common
denominator. -/
theorem isNearest_div_iff {num den s : ℕ} (hden : 0 < den) :
    IsNearest (num / den) s ↔
      2 * num < 2 * (s * den) + den ∧ 2 * (s * den) < 2 * num + den ∨
        (2 * num = 2 * (s * den) + den ∨ 2 * (s * den) = 2 * num + den) ∧ Even s := by
  have hden' : (0 : ℚ) < den := by exact_mod_cast hden
  have hsub : (num : ℚ) / den - s = (2 * num - 2 * (s * den)) / (2 * den) := by
    field_simp
  have hhalf : (1 / 2 : ℚ) = den / (2 * den) := by
    field_simp
  rw [IsNearest, hsub, abs_div, abs_of_pos (mul_pos two_pos hden'), hhalf,
    div_lt_div_iff_of_pos_right (mul_pos two_pos hden'),
    div_left_inj' (mul_pos two_pos hden').ne', abs_lt, abs_eq hden'.le]
  refine or_congr (and_comm.trans (and_congr ?_ ?_)) (and_congr_left' (or_congr ?_ ?_))
  · rw [sub_lt_iff_lt_add']
    exact_mod_cast Iff.rfl
  · rw [neg_lt_sub_iff_lt_add']
    exact_mod_cast Iff.rfl
  · rw [sub_eq_iff_eq_add']
    exact_mod_cast Iff.rfl
  · rw [sub_eq_iff_eq_add', ← sub_eq_add_neg, eq_sub_iff_add_eq, eq_comm]
    exact_mod_cast Iff.rfl

theorem roundHalfEven_eq {num den s : ℕ} (hden : 0 < den) (h : IsNearest (num / den) s) :
    roundHalfEven num den = s := by
  rw [isNearest_div_iff hden, Nat.even_iff] at h
  have hdiv := Nat.div_add_mod num den
  have hmod := Nat.mod_lt num hden
  simp only [roundHalfEven]
  generalize num / den = quotient at hdiv ⊢
  generalize num % den = rest at hdiv hmod ⊢
  rw [mul_comm] at hdiv
  -- Only the quotient and its successor are within a half.
  have hnear : s = quotient ∨ s = quotient + 1 := by
    by_contra hfar
    rcases Nat.lt_or_ge s quotient with hlt | hge
    · have := Nat.mul_le_mul_right den (Nat.succ_le_of_lt hlt)
      rw [Nat.succ_mul] at this
      omega
    · have := Nat.mul_le_mul_right den (show quotient + 2 ≤ s by omega)
      rw [Nat.add_mul] at this
      omega
  rcases hnear with rfl | rfl
  · rw [if_pos (by omega)]
  · rw [Nat.succ_mul quotient den] at h
    rw [if_neg (by omega)]

end DiscreteOrdinates
