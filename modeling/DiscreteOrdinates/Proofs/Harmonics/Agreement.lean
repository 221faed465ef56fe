import DiscreteOrdinates.Proofs.Harmonics.Tesseral

/-!
# Agreement of the two harmonics

The harmonic with factorials and the harmonic of the normalised recurrence are
the same function. Main statement: `spherical_eq_normalised`. It rests on
`climb_eq_normalisation_mul`, which follows the factor between the two families
of Legendre functions through one step of both recurrences.
-/

namespace DiscreteOrdinates

namespace NormalisedHarmonic

open scoped Nat
open Harmonic (factorialRatio factorialRatio_add factorialRatio_pos factorialRatio_succ)

/-- The factor that normalises the function of order `m` and degree `m + j`. -/
noncomputable def normalisation (m j : ℕ) : ℝ :=
  √((2 * (m + j) + 1) * factorialRatio (m + j) m)

/-- Square roots are compared through their squares. -/
theorem sqrt_mul_sqrt_eq {a b c r : ℝ} (ha : 0 ≤ a) (hc : 0 ≤ c) (hr : 0 ≤ r)
    (h : a * b = c * r ^ 2) : √a * √b = √c * r := by
  rw [← Real.sqrt_mul ha, h, Real.sqrt_mul hc, Real.sqrt_sq hr]

/-! ## Equal degree and order -/

/-- Behind `n` factors the two products differ by `√(1 / (2n)!)`. -/
theorem fold_eq_sqrt_mul_fold (c s : ℝ) (n : ℕ) :
    Nat.fold n (fun i _ p => p * (√((2 * i + 1) / (2 * i + 2)) * s)) c =
      c * √(1 / (2 * n)!) * Nat.fold n (fun i _ p => p * ((2 * i + 1) * s)) 1 := by
  induction n with
  | zero => simp
  | succ n ih =>
    have hfac : ((2 * (n + 1))! : ℝ) = (2 * n + 2) * ((2 * n + 1) * (2 * n)!) := by
      rw [Nat.mul_succ, Nat.factorial_succ, Nat.factorial_succ]
      push_cast
      ring
    have hroot : √(1 / (2 * n)!) * √((2 * n + 1) / (2 * n + 2)) =
        √(1 / (2 * (n + 1))!) * (2 * n + 1) := by
      apply sqrt_mul_sqrt_eq (by positivity) (by positivity) (by positivity)
      rw [hfac]
      field_simp
    simp only [Nat.fold_succ, ih]
    generalize Nat.fold n (fun i _ p => p * ((2 * i + 1) * s)) 1 = product
    calc c * √(1 / (2 * n)!) * product * (√((2 * n + 1) / (2 * n + 2)) * s)
        = c * (√(1 / (2 * n)!) * √((2 * n + 1) / (2 * n + 2))) * product * s := by ring
      _ = c * √(1 / (2 * (n + 1))!) * (product * ((2 * n + 1) * s)) := by rw [hroot]; ring

theorem sectoral_eq_normalisation_mul (m : ℕ) (x : ℝ) :
    sectoral m x = normalisation m 0 * Legendre.sectoral m x := by
  have hfold := fold_eq_sqrt_mul_fold (√(2 * m + 1)) (√(max (1 - x * x) 0)) m
  have hleft : sectoral m x = Nat.fold m
      (fun i _ p => p * (√((2 * i + 1) / (2 * i + 2)) * √(max (1 - x * x) 0))) (√(2 * m + 1)) := by
    simp [sectoral, Scalar.one_real]
  have hright : Legendre.sectoral m x =
      Nat.fold m (fun i _ p => p * ((2 * i + 1) * √(max (1 - x * x) 0))) 1 := by
    simp [Legendre.sectoral, Scalar.one_real]
  have hfactor : normalisation m 0 = √(2 * m + 1) * √(1 / (2 * m)!) := by
    rw [normalisation, factorialRatio_add, ← Real.sqrt_mul (by positivity)]
    simp
  rw [hleft, hright, hfactor, hfold]

/-! ## One step of the recurrence -/

/-- The first step away from equal degree and order. -/
theorem sqrt_mul_normalisation (m : ℕ) :
    √(2 * m + 3) * normalisation m 0 = normalisation m 1 * (2 * m + 1) := by
  have hpos := factorialRatio_pos m 0
  apply sqrt_mul_sqrt_eq (by positivity) (by have := factorialRatio_pos m 1; positivity)
    (by positivity)
  have hsucc := factorialRatio_succ m 0
  rw [Nat.zero_add] at hsucc
  rw [hsucc]
  push_cast
  field_simp
  ring

/-- The factor of the recurrence in front of the last degree. -/
theorem lead_mul_normalisation (m j : ℕ) :
    lead (m + 2 + j : ℝ) m * normalisation m (j + 1) =
      normalisation m (j + 2) * ((2 * (m + j) + 3) / (j + 2)) := by
  have h₁ := factorialRatio_pos m (j + 1)
  have h₂ := factorialRatio_pos m (j + 2)
  have hn : (m + 2 + j : ℝ) * (m + 2 + j) - m * m = (j + 2) * (2 * m + j + 2) := by ring
  have hlead : (4 * (m + 2 + j) * (m + 2 + j) - 1 : ℝ) = (2 * (m + j) + 3) * (2 * (m + j) + 5) := by
    ring
  rw [lead_real, hn, hlead]
  apply sqrt_mul_sqrt_eq (by positivity) (by positivity) (by positivity)
  rw [factorialRatio_succ m (j + 1)]
  push_cast
  field_simp
  ring

/-- The factor of the recurrence in front of the degree before the last. -/
theorem lead_mul_trail_mul_normalisation (m j : ℕ) :
    lead (m + 2 + j : ℝ) m * (trail (m + 2 + j : ℝ) m * normalisation m j) =
      normalisation m (j + 2) * ((2 * m + j + 1) / (j + 2)) := by
  have h₀ := factorialRatio_pos m j
  have h₁ := factorialRatio_pos m (j + 1)
  -- The trailing factor goes from degree `m + j` to the next one, the leading factor goes on.
  have htrail : trail (m + 2 + j : ℝ) m * normalisation m j =
      normalisation m (j + 1) * ((2 * m + j + 1) / (2 * (m + j) + 3)) := by
    have hn : ((m + 2 + j - 1) ^ 2 - m * m : ℝ) = (j + 1) * (2 * m + j + 1) := by ring
    have hd : (4 * (m + 2 + j - 1) ^ 2 - 1 : ℝ) = (2 * (m + j) + 1) * (2 * (m + j) + 3) := by ring
    rw [trail_real, hn, hd]
    apply sqrt_mul_sqrt_eq (by positivity) (by positivity) (by positivity)
    rw [factorialRatio_succ m j]
    push_cast
    field_simp
    ring
  rw [htrail, ← mul_assoc, lead_mul_normalisation]
  field_simp

/-! ## All degrees -/

/-- Both recurrences climb in step: the factor of each degree separates them. -/
theorem climb_eq_normalisation_mul (m : ℕ) (x : ℝ) (j : ℕ) :
    climb m x j =
      (normalisation m (j + 1) * (Legendre.climb m x j).1,
        normalisation m j * (Legendre.climb m x j).2) := by
  induction j with
  | zero =>
    rw [climb_zero, Legendre.climb_zero, sectoral_eq_normalisation_mul]
    refine Prod.ext ?_ rfl
    have h := sqrt_mul_normalisation m
    linear_combination x * Legendre.sectoral m x * h
  | succ j ih =>
    rw [climb_succ, Legendre.climb_succ, ih]
    refine Prod.ext ?_ rfl
    have hlead := lead_mul_normalisation m j
    have htrail := lead_mul_trail_mul_normalisation m j
    dsimp only
    linear_combination x * (Legendre.climb m x j).1 * hlead - (Legendre.climb m x j).2 * htrail

theorem legendre_eq_sqrt_mul {l m : ℕ} (h : m ≤ l) (x : ℝ) :
    legendre l m x = √((2 * l + 1) * factorialRatio l m) * Legendre.associated l m x := by
  obtain ⟨j, rfl⟩ := Nat.exists_eq_add_of_le h
  rw [legendre_add, Legendre.associated_add, climb_eq_normalisation_mul, normalisation]
  push_cast
  rfl

end NormalisedHarmonic

/-! ## Harmonics -/

namespace Harmonic

theorem delta_natAbs (k : ℤ) : (delta k.natAbs 0 : ℝ) = delta k 0 := by
  simp [delta]

/-- For every moment with `|k| ≤ l` the two harmonics have the same value at
every ordinate. For every other one the first is refused, and the second is
zero. -/
theorem spherical_eq_normalised (l : ℕ) (k : ℤ) (o : Ordinate ℝ) (norm : ℝ) (hnorm : 0 < norm) :
    (k.natAbs ≤ l →
      spherical l k o norm =
        .ok (NormalisedHarmonic.value l k o.x (azimuth o.y o.z) norm)) ∧
    (l < k.natAbs →
      spherical l k o norm = .error (.degenerateCoefficient l k) ∧
      ∀ x φ, NormalisedHarmonic.value l k x φ norm = 0) := by
  constructor
  · intro h
    have hdelta := delta_le_one k
    have hvalue : NormalisedHarmonic.value l k o.x (azimuth o.y o.z) norm =
        √((2 - delta k 0) / norm) * NormalisedHarmonic.legendre l k.natAbs o.x
          * azimuthalFactor k (azimuth o.y o.z) := by
      rw [NormalisedHarmonic.value, if_neg (Nat.not_lt.mpr h), delta_natAbs, Scalar.two_real,
        Scalar.sqrt_real]
    -- The degree and the norm change places between the two square roots.
    have hroot : √((2 * l + 1) / norm) * √((2 - delta k 0) * factorialRatio l k.natAbs) =
        √((2 - delta k 0) / norm) * √((2 * l + 1) * factorialRatio l k.natAbs) := by
      rw [← Real.sqrt_mul (by positivity),
        ← Real.sqrt_mul (div_nonneg (by linarith) hnorm.le)]
      ring_nf
    rw [hvalue, NormalisedHarmonic.legendre_eq_sqrt_mul h, spherical, tesseral_eq_ok h]
    refine congrArg Except.ok ?_
    rw [Scalar.sqrt_real, Scalar.natCast_real]
    push_cast
    linear_combination Legendre.associated l k.natAbs o.x * azimuthalFactor k (azimuth o.y o.z) * hroot
  · intro h
    refine ⟨?_, fun x φ => ?_⟩
    · rw [spherical, tesseral_eq_error h]
      rfl
    · rw [NormalisedHarmonic.value, if_pos h, Scalar.zero_real]

theorem spherical_eq_normalised_three :
    (0 : ℝ) < 4 * Real.pi ∧
    spherical 3 (-2) (⟨0.6, 0, 0.8, 1⟩ : Ordinate ℝ) (4 * Real.pi) =
      .ok (NormalisedHarmonic.value 3 (-2) 0.6 (azimuth 0 0.8) (4 * Real.pi)) := by
  have hnorm : 0 < 4 * Real.pi := by positivity
  exact ⟨hnorm, (spherical_eq_normalised 3 (-2) ⟨0.6, 0, 0.8, 1⟩ _ hnorm).1 (by decide)⟩

end Harmonic

end DiscreteOrdinates
