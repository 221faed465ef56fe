import DiscreteOrdinates.Proofs.Harmonics.Recurrence

/-!
# Existence of tesseral harmonics

In exact arithmetic no normalisation underflows, so a tesseral harmonic exists
exactly if its order does not exceed its degree.
-/

namespace DiscreteOrdinates

namespace Harmonic

theorem delta_le_one (k : ℤ) : (delta k 0 : ℝ) ≤ 1 := by
  unfold delta
  split <;> norm_num

theorem coefficient_pos {l : ℕ} {k : ℤ} (h : k.natAbs ≤ l) :
    0 < √((2 - delta k 0) * factorialRatio l k.natAbs) := by
  obtain ⟨j, hj⟩ := Nat.exists_eq_add_of_le h
  have hratio : 0 < (factorialRatio l k.natAbs : ℝ) := by rw [hj]; exact factorialRatio_pos _ j
  have hdelta := delta_le_one k
  apply Real.sqrt_pos.mpr
  apply mul_pos _ hratio
  linarith

/-- The normalisation of a moment exists exactly if its order does not exceed
its degree. -/
theorem coefficient_eq_ok {l : ℕ} {k : ℤ} (h : k.natAbs ≤ l) :
    (coefficient l k : Except (QuadratureError ℝ) ℝ) =
      .ok (√((2 - delta k 0) * factorialRatio l k.natAbs)) := by
  rw [coefficient, if_neg (Nat.not_lt.mpr h)]
  simp [Scalar.two_real, Scalar.zero_real, coefficient_pos h]

theorem coefficient_eq_error {l : ℕ} {k : ℤ} (h : l < k.natAbs) :
    (coefficient l k : Except (QuadratureError ℝ) ℝ) = .error (.degenerateCoefficient l k) := by
  rw [coefficient, if_pos h]

theorem tesseral_eq_ok {l : ℕ} {k : ℤ} (h : k.natAbs ≤ l) (o : Ordinate ℝ) :
    tesseral l k o =
      .ok (√((2 - delta k 0) * factorialRatio l k.natAbs) * Legendre.associated l k.natAbs o.x
        * azimuthalFactor k (azimuth o.y o.z)) := by
  rw [tesseral, coefficient_eq_ok h]
  rfl

theorem tesseral_eq_error {l : ℕ} {k : ℤ} (h : l < k.natAbs) (o : Ordinate ℝ) :
    tesseral l k o = .error (.degenerateCoefficient l k) := by
  rw [tesseral, coefficient_eq_error h]
  rfl

/-- Of the order zero only the Legendre function is left. -/
theorem tesseral_zero_order (l : ℕ) (o : Ordinate ℝ) :
    tesseral l 0 o = .ok (Legendre.associated l 0 o.x) := by
  have hdelta : (delta (0 : ℤ) 0 : ℝ) = 1 := by
    simp [delta, Scalar.one_real]
  rw [tesseral_eq_ok (Nat.zero_le l), Int.natAbs_zero, factorialRatio_zero, hdelta]
  norm_num [azimuthalFactor]

/-- The sine of degree one. -/
theorem tesseral_one_sine (o : Ordinate ℝ) :
    tesseral 1 (-1) o = .ok (√(max (1 - o.x * o.x) 0) * Real.sin (azimuth o.y o.z)) := by
  have hratio : (factorialRatio 1 1 : ℝ) = 1 / 2 := by
    simpa using factorialRatio_add 1 0
  have hdelta : (delta (-1 : ℤ) 0 : ℝ) = 0 := by
    simp [delta, Scalar.zero_real]
  have hlegendre : Legendre.associated 1 1 o.x = √(max (1 - o.x * o.x) 0) := by
    rw [Legendre.associated_add 1 0, Legendre.climb_zero]
    simp [Legendre.sectoral, Scalar.one_real]
  rw [tesseral_eq_ok (by decide)]
  simp [hratio, hdelta, hlegendre, azimuthalFactor]

/-! ## Azimuth on the axes -/

theorem poleTolerance_pos : (0 : ℝ) < poleTolerance := by
  unfold poleTolerance
  norm_num

theorem azimuth_zero_zero : azimuth (0 : ℝ) 0 = 0 := by
  simp [azimuth, poleTolerance_pos, Scalar.zero_real]

/-- Off the polar axis the azimuth is an argument, or one full turn more. -/
theorem azimuth_eq_ite {y z : ℝ} (h : poleTolerance ≤ max |y| |z|) :
    azimuth y z =
      if Complex.arg ⟨z, y⟩ < 0 then Complex.arg ⟨z, y⟩ + 2 * Real.pi else Complex.arg ⟨z, y⟩ := by
  have hoff : ¬ (Scalar.abs y < poleTolerance ∧ Scalar.abs z < poleTolerance) := by
    rintro ⟨hy, hz⟩
    exact absurd (max_lt hy hz) (not_lt.mpr h)
  rw [azimuth, if_neg hoff, Scalar.zero_real, Scalar.two_real, Scalar.pi_real]
  rfl

/-- Off the polar axis and not below it, the azimuth is an argument. -/
theorem azimuth_eq_arg {y z : ℝ} (hy : 0 ≤ y) (hoff : 1 ≤ |y| ∨ 1 ≤ |z|) :
    azimuth y z = Complex.arg ⟨z, y⟩ := by
  have hpole : (poleTolerance : ℝ) ≤ 1 := by
    unfold poleTolerance
    norm_num
  rw [azimuth_eq_ite (hpole.trans (le_max_iff.mpr hoff)),
    if_neg (not_lt.mpr (Complex.arg_nonneg_iff.mpr hy))]

end Harmonic

end DiscreteOrdinates
