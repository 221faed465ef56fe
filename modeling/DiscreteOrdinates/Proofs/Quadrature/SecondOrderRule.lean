import DiscreteOrdinates.Proofs.RealScalar
import DiscreteOrdinates.Quadrature.IntervalRule

/-!
# The iteration of order two

Over the reals the iteration of order two settles from its estimate: a step squares the
distance of `z²` from `1/3`, and the estimate is close enough for the distance to fall below
the tolerance in a few steps. So there is a rule of this order
(`exists_gaussLegendre_two`).
-/

namespace DiscreteOrdinates

namespace IntervalRule

/-! ## Steps -/

/-- A step from `z` towards the square root of `a`. -/
noncomputable def rootStep (a z : ℝ) : ℝ :=
  (z ^ 2 - a) / (z + z)

theorem newton_two_succ (steps : ℕ) {z : ℝ} (hzero : z ≠ 0) (hone : z ^ 2 ≠ 1) :
    newton 2 (steps + 1) z =
      if |rootStep (1 / 3) z| ≤ newtonTolerance then some (z - rootStep (1 / 3) z)
      else newton 2 steps (z - rootStep (1 / 3) z) := by
  have hne : z ^ 2 - 1 ≠ 0 := sub_ne_zero.mpr hone
  have hvalues : Legendre.neighbours 2 z = ((3 * z ^ 2 - 1) / 2, z) := by
    simp [Legendre.neighbours, Nat.fold, Scalar.one_real, Scalar.zero_real]
    ring
  have hslope : Legendre.slope 2 z ((3 * z ^ 2 - 1) / 2) z = 3 * z := by
    rw [Legendre.slope, Scalar.natCast_real, Scalar.one_real, ← sq, div_eq_iff hne]
    push_cast
    ring
  have hstep : (3 * z ^ 2 - 1) / 2 / (3 * z) = rootStep (1 / 3) z := by
    rw [rootStep]
    field_simp
    ring
  have hnewton : newtonStep 2 z = rootStep (1 / 3) z := by
    rw [newtonStep, hvalues]
    dsimp only
    rw [hslope, hstep]
  rw [newton, hnewton, Scalar.abs_real]

section

variable {a z : ℝ} (hz : 1 / 2 ≤ z)

include hz

theorem abs_rootStep_le : |rootStep a z| ≤ |z ^ 2 - a| := by
  rw [rootStep, abs_div, abs_of_pos (by linarith : 0 < z + z)]
  exact div_le_self (abs_nonneg _) (by linarith)

theorem sub_rootStep_sq : (z - rootStep a z) ^ 2 - a = rootStep a z ^ 2 := by
  have hne : z ≠ 0 := by linarith
  rw [rootStep]
  field_simp
  ring

theorem le_sub_rootStep (ha : 1 / 4 ≤ a) : 1 / 2 ≤ z - rootStep a z := by
  have hpos : 0 < z + z := by linarith
  rw [rootStep, le_sub_iff_add_le, ← le_sub_iff_add_le', div_le_iff₀ hpos]
  nlinarith only [ha, sq_nonneg (z - 1 / 2)]

end

/-- Each step squares the distance from the root, so the iteration settles. -/
theorem exists_newton_two {n steps : ℕ} (hsteps : n < steps) {z : ℝ} (hz : 1 / 2 ≤ z)
    (hclose : |z ^ 2 - 1 / 3| ≤ 1 / 4) (hsmall : |z ^ 2 - 1 / 3| ^ 2 ^ n ≤ newtonTolerance) :
    ∃ r, newton 2 steps z = some r := by
  induction n generalizing steps z with
  | zero =>
    obtain ⟨steps, rfl⟩ := Nat.exists_eq_succ_of_ne_zero hsteps.ne'
    rw [pow_zero, pow_one] at hsmall
    rw [newton_two_succ steps (by linarith) (by linarith [(abs_le.mp hclose).2]),
      if_pos ((abs_rootStep_le hz).trans hsmall)]
    exact ⟨_, rfl⟩
  | succ n ih =>
    obtain ⟨steps, rfl⟩ := Nat.exists_eq_succ_of_ne_zero (Nat.ne_zero_of_lt hsteps)
    rw [newton_two_succ steps (by linarith) (by linarith [(abs_le.mp hclose).2])]
    split
    next => exact ⟨_, rfl⟩
    next =>
      have hsquare : |(z - rootStep (1 / 3) z) ^ 2 - 1 / 3| ≤ |z ^ 2 - 1 / 3| ^ 2 := by
        rw [sub_rootStep_sq hz, abs_pow]
        exact pow_le_pow_left₀ (abs_nonneg _) (abs_rootStep_le hz) 2
      refine ih (Nat.lt_of_succ_lt_succ hsteps) (le_sub_rootStep hz (by norm_num)) ?_ ?_
      · nlinarith only [hsquare, hclose, abs_nonneg (z ^ 2 - 1 / 3)]
      · calc |(z - rootStep (1 / 3) z) ^ 2 - 1 / 3| ^ 2 ^ n
            ≤ (|z ^ 2 - 1 / 3| ^ 2) ^ 2 ^ n := pow_le_pow_left₀ (abs_nonneg _) hsquare _
          _ = |z ^ 2 - 1 / 3| ^ 2 ^ (n + 1) := by rw [← pow_mul, pow_succ' 2 n]
          _ ≤ newtonTolerance := hsmall

/-! ## Estimate -/

/-- The estimate is the cosine of `3 π / 10`, between those of `π / 3` and `π / 4`. -/
theorem rootEstimate_two :
    1 / 2 ≤ rootEstimate (R := ℝ) 2 0 ∧ |rootEstimate (R := ℝ) 2 0 ^ 2 - 1 / 3| ≤ 1 / 4 := by
  have hpi := Real.pi_pos
  have hestimate : (rootEstimate 2 0 : ℝ) = Real.cos (3 / 10 * Real.pi) := by
    rw [rootEstimate, Scalar.cos_real, Scalar.pi_real, Scalar.natCast_real, Scalar.natCast_real]
    congr 1
    norm_num
    ring
  have hlow : 1 / 2 ≤ Real.cos (3 / 10 * Real.pi) := by
    rw [← Real.cos_pi_div_three]
    exact Real.cos_le_cos_of_nonneg_of_le_pi (by positivity) (by linarith) (by linarith)
  have hhigh : Real.cos (3 / 10 * Real.pi) ≤ √2 / 2 := by
    rw [← Real.cos_pi_div_four]
    exact Real.cos_le_cos_of_nonneg_of_le_pi (by positivity) (by linarith) (by linarith)
  have hsq := Real.sq_sqrt (zero_le_two : (0 : ℝ) ≤ 2)
  rw [hestimate, abs_le]
  refine ⟨hlow, ?_, ?_⟩
  · nlinarith only [hlow]
  · nlinarith only [hlow, hhigh, hsq, Real.sqrt_nonneg 2]

theorem exists_gaussLegendre_two : ∃ rule : IntervalRule ℝ, gaussLegendre 2 = .ok rule := by
  obtain ⟨hlow, hclose⟩ := rootEstimate_two
  -- Five steps make a quarter smaller than the tolerance.
  have hsmall : |rootEstimate (R := ℝ) 2 0 ^ 2 - 1 / 3| ^ 2 ^ 5 ≤ newtonTolerance := by
    refine (pow_le_pow_left₀ (abs_nonneg _) hclose _).trans ?_
    unfold newtonTolerance
    norm_num
  obtain ⟨r, hr⟩ := exists_newton_two (by decide : 5 < newtonLimit) hlow hclose hsmall
  have hroots : rootsWith newtonRoot 2 = some [r] := by
    simp [rootsWith, newtonRoot, List.range_succ, hr]
  refine ⟨ofRoots 2 [r], ?_⟩
  rw [gaussLegendre, gaussLegendreWith, require, if_pos (by decide), hroots]
  rfl

end IntervalRule

end DiscreteOrdinates
