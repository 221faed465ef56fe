import DiscreteOrdinates.Proofs.Angular.Levels

/-!
# Levels of two directions

Two directions of weight one on a level share it equally, so all that is formed
for them can be written down. Main statement: `exists_ofQuadrature_of_two`.
-/

namespace DiscreteOrdinates

/-! ## Sweep -/

namespace SweepSet

/-- Two directions of a level keep their order and get one start. -/
theorem ofQuadrature_of_two {q : Quadrature ℝ} {geometry : Geometry} {meshDimension : ℕ}
    {a b : Ordinate ℝ} (harrange : arrange q geometry meshDimension =
      some (Ordinate.withStarts (Ordinate.sorted q.ordinates)))
    (hos : q.ordinates = [a, b]) (hab : Ordinate.SweepLE a b)
    (hclose : |b.z - a.z| ≤ levelTolerance) :
    ofQuadrature q geometry meshDimension =
      .ok ⟨[Ordinate.levelStart a.z, a, b], geometry, q.dimension, meshDimension, q.norm⟩ := by
  have hsorted : Ordinate.sorted [a, b] = [a, b] := by
    apply List.mergeSort_of_pairwise
    simpa only [Ordinate.isLE_sweepOrder, List.pairwise_pair]
  have hstarts : Ordinate.withStarts [a, b] = [Ordinate.levelStart a.z, a, b] := by
    simp [Ordinate.withStarts, Ordinate.withStartsFrom, Ordinate.opensLevel, hclose.not_gt]
  rw [ofQuadrature, harrange, hos, hsorted, hstarts]

end SweepSet

namespace AngularRedistribution

/-! ## Nodes -/

theorem assignLevels_of_two {a b : Ordinate ℝ} (hz : a.z ≤ b.z)
    (hclose : |b.z - a.z| ≤ levelTolerance) :
    assignLevels [Ordinate.levelStart a.z, a, b] = .ok [0, 0, 0] := by
  have hsorted : Sample.sorted [a.z, a.z, b.z] = [a.z, a.z, b.z] := by
    apply Sample.sorted_of_pairwise
    simp [hz]
  have hreached : a.z ≤ b.z + levelTolerance := by linarith [levelTolerance_pos]
  simp [assignLevels, Ordinate.levelStart, Sample.distinctWithin, hsorted, Sample.representatives,
    Sample.thin, levelOf, lastIndex?, Scalar.zero_real, levelTolerance_pos.le,
    levelTolerance_pos.not_gt, hclose, hreached]

/-- How far a level reaches to either side. -/
noncomputable def reach (geometry : Geometry) (z : ℝ) : ℝ :=
  match geometry with
  | .spherical => 1
  | _ => √(max (1 - z * z) 0)

@[simp] theorem reach_spherical (z : ℝ) : reach .spherical z = 1 := rfl

theorem reach_pos {geometry : Geometry} {z : ℝ} (hz : |z| < 1) : 0 < reach geometry z := by
  have hradius : 0 < √(max (1 - z * z) 0) := by
    rw [Real.sqrt_pos, lt_max_iff, sub_pos, ← abs_mul_abs_self z]
    exact .inl (mul_lt_one_of_nonneg_of_lt_one_left (abs_nonneg z) hz hz.le)
  cases geometry with
  | spherical => exact one_pos
  | cartesian => exact hradius
  | axisymmetric => exact hradius

/-- The nodes of two directions of a level, which meet in the middle. -/
noncomputable def twoNodes (geometry : Geometry) (a b : Ordinate ℝ) : List (AngularNode ℝ) :=
  [{ ordinate := Ordinate.levelStart a.z, weight := 0, level := 0, alpha := 0, tau := 1 },
    { ordinate := a, weight := 0.5, level := 0, dependent := true
      alpha := recursionFactor geometry * 0.5 * a.x
      tau := (a.x + reach geometry a.z) / reach geometry a.z },
    { ordinate := b, weight := 0.5, level := 0, dependent := true
      alpha := recursionFactor geometry * 0.5 * a.x + recursionFactor geometry * 0.5 * b.x
      tau := b.x / reach geometry a.z }]

theorem closeLevels_of_two {geometry : Geometry} {a b : Ordinate ℝ}
    (hgeometry : geometry.isCurvilinear) (hreach : 0 < reach geometry a.z) :
    closeLevels geometry 0 (groupLevels
      [{ ordinate := Ordinate.levelStart a.z, weight := 0, level := 0, alpha := 0, tau := 1 },
        { ordinate := a, weight := 2⁻¹, level := 0, alpha := 0, tau := 1 },
        { ordinate := b, weight := 2⁻¹, level := 0, alpha := 0, tau := 1 }]) =
      .ok (twoNodes geometry a b) := by
  have hone : ¬ (1 : ℝ) ≤ 0 := by norm_num
  have hwhole : (2⁻¹ + 2⁻¹ : ℝ) = 1 := by norm_num
  have hhalf : (0.5 : ℝ) = 2⁻¹ := by norm_num
  cases geometry with
  | cartesian => cases hgeometry
  | spherical =>
    simp [twoNodes, reach, bind, Except.bind, pure, Except.pure, groupLevels, List.splitBy,
      List.splitBy.loop, closeLevels, closeLevel, LevelShape.close, LevelShape.start,
      LevelShape.next, LevelShape.upper, recursionFactor, hone, hwhole, hhalf, Scalar.zero_real,
      Scalar.one_real, Scalar.two_real]
  | axisymmetric =>
    have hradius : ¬ √(max (1 - a.z * a.z) 0) ≤ 0 := not_le.mpr hreach
    -- The first cell ends at a right angle, and the second one takes the rest.
    have hright : Real.cos (Real.pi * 2⁻¹) = 0 := by
      rw [← div_eq_mul_inv, Real.cos_pi_div_two]
    have hrest : Real.pi - Real.pi * 2⁻¹ - Real.pi * 2⁻¹ = 0 := by ring
    simp [twoNodes, reach, bind, Except.bind, pure, Except.pure, groupLevels, List.splitBy,
      List.splitBy.loop, closeLevels, closeLevel, LevelShape.close, LevelShape.start,
      LevelShape.next, LevelShape.upper, LevelShape.nextAzimuth, recursionFactor, hone, hwhole,
      hhalf, hradius, hright, hrest, Ordinate.levelStart, Scalar.zero_real, Scalar.one_real]

theorem ofSweep_of_two {sweep : SweepSet ℝ} {a b : Ordinate ℝ}
    (hgeometry : sweep.geometry.isCurvilinear)
    (hos : sweep.ordinates = [Ordinate.levelStart a.z, a, b]) (hz : a.z ≤ b.z)
    (hclose : |b.z - a.z| ≤ levelTolerance) (hreach : 0 < reach sweep.geometry a.z)
    (ha : a.weight = 1) (hb : b.weight = 1) :
    ofSweep sweep = .ok ⟨sweep, twoNodes sweep.geometry a b⟩ := by
  have hstart : (Ordinate.levelStart a.z).weight = 0 := Scalar.zero_real
  have htotal : (sweep.ordinates.map (·.weight)).sum = 2 := by
    simp [hos, hstart, ha, hb]
    norm_num
  have hpositive : ¬ (2 : ℝ) ≤ 0 := by norm_num
  have hassign : assignLevels sweep.ordinates = .ok [0, 0, 0] := by
    rw [hos, assignLevels_of_two hz hclose]
  simp only [ofSweep, hassign, Scalar.sum_real, htotal]
  simp [hos, hstart, ha, hb, require, bind, Except.bind, pure, Except.pure, hgeometry, hpositive,
    closeLevels_of_two hgeometry hreach, Scalar.zero_real, Scalar.one_real]

theorem exists_ofQuadrature_of_two {q : Quadrature ℝ} {geometry : Geometry} {meshDimension : ℕ}
    {a b : Ordinate ℝ} (hgeometry : geometry.isCurvilinear)
    (harrange : SweepSet.arrange q geometry meshDimension =
      some (Ordinate.withStarts (Ordinate.sorted q.ordinates)))
    (hos : q.ordinates = [a, b]) (hab : Ordinate.SweepLE a b)
    (hclose : |b.z - a.z| ≤ levelTolerance) (hreach : 0 < reach geometry a.z)
    (ha : a.weight = 1) (hb : b.weight = 1) :
    ∃ r, ofQuadrature q geometry meshDimension = .ok r ∧ r.nodes = twoNodes geometry a b := by
  rw [ofQuadrature, SweepSet.ofQuadrature_of_two harrange hos hab hclose]
  exact ⟨_, ofSweep_of_two hgeometry rfl hab.z_le hclose hreach ha hb, rfl⟩

/-! ## Two directions on a sphere -/

/-- Two directions on a line, of equal weight. -/
noncomputable def beams (a b : ℝ) : Quadrature ℝ :=
  ⟨.general "beams" 1 1, 2, 2.0, { mu := [a, b], wt := [1, 1] }⟩

theorem exists_ofQuadrature_beams {a b : ℝ} (hab : a ≤ b) :
    ∃ r, ofQuadrature (beams a b) .spherical 1 = .ok r ∧
      r.nodes = twoNodes .spherical ⟨a, 0, 0, 1⟩ ⟨b, 0, 0, 1⟩ :=
  exists_ofQuadrature_of_two rfl rfl (Quadrature.ordinates_of_line rfl rfl) (.inr ⟨rfl, hab⟩)
    (by simp [levelTolerance_pos.le]) one_pos rfl rfl

end AngularRedistribution

end DiscreteOrdinates
