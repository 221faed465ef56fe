import DiscreteOrdinates.Proofs.RealScalar
import DiscreteOrdinates.Harmonics.Normalised

/-!
# Recurrences of the Legendre functions

What one step of each recurrence does over the reals, for the functions with
and without normalisation, and the closed form of the factorial ratio that
separates the two.
-/

namespace DiscreteOrdinates

open scoped Nat

/-! ## Without normalisation -/

namespace Legendre

theorem sectoral_zero (x : ℝ) : sectoral 0 x = 1 := by
  simp only [sectoral, Nat.fold_zero, Scalar.one_real]

theorem sectoral_succ (m : ℕ) (x : ℝ) :
    sectoral (m + 1) x = sectoral m x * ((2 * m + 1) * √(max (1 - x * x) 0)) := by
  simp [sectoral, Nat.fold_succ, Scalar.one_real]

theorem sectoral_pos (m : ℕ) {x : ℝ} (h : x * x < 1) : 0 < sectoral m x := by
  have hroot : 0 < √(max (1 - x * x) 0) := Real.sqrt_pos.mpr (lt_max_of_lt_left (sub_pos.mpr h))
  induction m with
  | zero => rw [sectoral_zero]; exact one_pos
  | succ m ih =>
    rw [sectoral_succ]
    positivity

theorem climb_zero (m : ℕ) (x : ℝ) :
    climb m x 0 = (x * (2 * m + 1) * sectoral m x, sectoral m x) := by
  simp [climb]

theorem climb_succ (m : ℕ) (x : ℝ) (j : ℕ) :
    climb m x (j + 1) =
      ((x * (2 * (m + j) + 3) * (climb m x j).1 - (2 * m + j + 1) * (climb m x j).2) / (j + 2),
        (climb m x j).1) := by
  simp [climb, Nat.fold_succ]

/-- Degree `m + j` is what the climb has left behind after `j` steps. -/
theorem associated_add (m j : ℕ) (x : ℝ) : associated (m + j) m x = (climb m x j).2 := by
  cases j with
  | zero => simp [associated, climb_zero]
  | succ j =>
    have hlt : ¬ m + (j + 1) < m := by omega
    have hne : ¬ m + (j + 1) = m := by omega
    have hsteps : m + (j + 1) - m - 1 = j := by omega
    rw [associated, if_neg hlt, if_neg hne, hsteps, climb_succ]

theorem associated_zero_zero (x : ℝ) : associated 0 0 x = 1 := by
  rw [associated_add 0 0, climb_zero, sectoral_zero]

theorem associated_one_zero (x : ℝ) : associated 1 0 x = x := by
  rw [associated_add 0 1, climb_succ, climb_zero, sectoral_zero]
  norm_num

end Legendre

/-! ## With normalisation -/

namespace NormalisedHarmonic

theorem lead_real (n m : ℝ) : lead n m = √((4 * n * n - 1) / (n * n - m * m)) := by
  unfold lead
  norm_num

theorem trail_real (n m : ℝ) :
    trail n m = √(((n - 1) ^ 2 - m * m) / (4 * (n - 1) ^ 2 - 1)) := by
  have hsquare (x : ℝ) : Scalar.power x 2 = x ^ 2 := by
    rw [Scalar.power, Scalar.powerLoop]
    norm_num [Scalar.powerLoop.eq_def _ _ 1, sq]
  unfold trail
  rw [hsquare]
  norm_num

theorem climb_zero (m : ℕ) (x : ℝ) :
    climb m x 0 = (√(2 * m + 3) * x * sectoral m x, sectoral m x) := by
  simp [climb]

theorem climb_succ (m : ℕ) (x : ℝ) (j : ℕ) :
    climb m x (j + 1) =
      (lead (m + 2 + j : ℝ) m * (x * (climb m x j).1 - trail (m + 2 + j : ℝ) m * (climb m x j).2),
        (climb m x j).1) := by
  simp [climb, Nat.fold_succ]

/-- Degree `m + j` is what the climb has left behind after `j` steps. -/
theorem legendre_add (m j : ℕ) (x : ℝ) : legendre (m + j) m x = (climb m x j).2 := by
  cases j with
  | zero => simp [legendre, climb_zero]
  | succ j =>
    have hne : ¬ m + (j + 1) = m := by omega
    have hsteps : m + (j + 1) - m - 1 = j := by omega
    rw [legendre, if_neg hne, hsteps, climb_succ]

end NormalisedHarmonic

/-! ## Factorial ratio -/

namespace Harmonic

/-- Dividing by `n + 1`, …, `n + k` one after the other. -/
theorem fold_div_eq_factorial (n k : ℕ) :
    Nat.fold k (fun i _ (ratio : ℝ) => ratio / (n + 1 + i : ℕ)) 1 = n ! / (n + k)! := by
  induction k with
  | zero =>
    have hn : (n ! : ℝ) ≠ 0 := by positivity
    simp [hn]
  | succ k ih =>
    have hk : ((n + k)! : ℝ) ≠ 0 := by positivity
    have hs : ((n + 1 + k : ℕ) : ℝ) ≠ 0 := by positivity
    have hfac : ((n + (k + 1))! : ℝ) = (n + 1 + k : ℕ) * (n + k)! := by
      rw [← Nat.cast_mul, ← Nat.add_assoc, Nat.factorial_succ, Nat.add_right_comm]
    rw [Nat.fold_succ, ih, hfac, div_div, mul_comm]

theorem factorialRatio_add (m j : ℕ) :
    (factorialRatio (m + j) m : ℝ) = j ! / (2 * m + j)! := by
  have h := fold_div_eq_factorial j (2 * m)
  simp only [factorialRatio, Scalar.natCast_real, Scalar.one_real, Nat.add_sub_cancel_left]
  rw [h, Nat.add_comm j]

theorem factorialRatio_zero (l : ℕ) : (factorialRatio l 0 : ℝ) = 1 := by
  simp [factorialRatio, Scalar.one_real]

theorem factorialRatio_pos (m j : ℕ) : 0 < (factorialRatio (m + j) m : ℝ) := by
  rw [factorialRatio_add]
  positivity

/-- The next degree multiplies the ratio by `(j + 1) / (2m + j + 1)`. -/
theorem factorialRatio_succ (m j : ℕ) :
    (factorialRatio (m + (j + 1)) m : ℝ) = factorialRatio (m + j) m * ((j + 1) / (2 * m + j + 1)) := by
  have hf : ((2 * m + j)! : ℝ) ≠ 0 := by positivity
  have hd : (2 * m + j + 1 : ℝ) ≠ 0 := by positivity
  rw [factorialRatio_add, factorialRatio_add, ← Nat.add_assoc, Nat.factorial_succ,
    Nat.factorial_succ]
  push_cast
  field_simp

end Harmonic

end DiscreteOrdinates
