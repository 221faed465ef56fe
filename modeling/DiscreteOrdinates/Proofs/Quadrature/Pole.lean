import DiscreteOrdinates.Proofs.Quadrature.FullSphere

/-!
# The pole

What the flag of a reflected set says about the pole `xi = -1`. It is taken from
the octant, where it looks for the lowest cosine only, while the set holds both
images of every cosine. Main statement: the flag is right exactly if the lowest
cosine is that of the pole whenever some cosine is that of either pole
(`isOpenInterval_iff_of_octant`).
-/

namespace DiscreteOrdinates

namespace UserOctant

open Ordinate

theorem abs_abs_sub_one_le (x : ℝ) : |(|x| - 1)| ≤ |x + 1| := by
  have hdistance := abs_abs_sub_abs_le x (-1)
  rwa [abs_neg, abs_one, sub_neg_eq_add] at hdistance

/-- A reflected set holds the pole if a row of the octant has the cosine of
either pole. -/
theorem exists_pole_iff {layout : Layout} {levels : ℕ} {norm : ℝ} {octant t : DirectionTable ℝ}
    {openInterval : Bool} (h : table layout levels norm octant = .ok (t, openInterval)) {ε : ℝ} :
    (∃ o ∈ t.rows, |o.z + 1| ≤ ε) ↔ ∃ x ∈ octant.xi, |(|x| - 1)| ≤ ε := by
  obtain ⟨hcheck, -, -, -⟩ := table_eq_ok.mp h
  obtain ⟨-, -, hxi, hwt, -, -⟩ := check_eq_ok.mp hcheck
  rw [← DirectionTable.map_z_rows (hxi.trans hwt.symm)]
  constructor
  · rintro ⟨o, ho, hpole⟩
    obtain ⟨r, hr, hmagnitudes⟩ :=
      (mem_map_direction_of_table h).mp (List.mem_map_of_mem (f := direction) ho)
    have hz : |r.z| = |o.z| := congrArg (·.2.2) hmagnitudes
    exact ⟨r.z, List.mem_map_of_mem hr, hz ▸ (abs_abs_sub_one_le o.z).trans hpole⟩
  · rintro ⟨x, hx, hpole⟩
    obtain ⟨r, hr, rfl⟩ := List.mem_map.mp hx
    -- The image of the row on the lower half of the sphere.
    have hmagnitudes : magnitudes r.direction = magnitudes (r.x, r.y, -|r.z|) := by
      simp [magnitudes, direction]
    obtain ⟨o, ho, hdirection⟩ :=
      List.mem_map.mp ((mem_map_direction_of_table h).mpr ⟨r, hr, hmagnitudes⟩)
    have hz : o.z = -|r.z| := congrArg (·.2.2) hdirection
    refine ⟨o, ho, ?_⟩
    rw [hz, neg_add_eq_sub, abs_sub_comm]
    exact hpole

end UserOctant

namespace Quadrature

section

variable {table : DirectionTable ℝ} {levels : ℕ} {layout : Layout} {norm : Option ℝ}
  {q : Quadrature ℝ} (h : octant table levels layout norm = .ok q)

include h

/-- The flag looks at the lowest cosine of the octant. -/
theorem exists_least_of_octant :
    ∃ least ∈ table.xi, (∀ x ∈ table.xi, least ≤ x) ∧
      (q.kind.isOpenInterval = true ↔ |least + 1| ≤ 1e-12) := by
  obtain ⟨t, openInterval, htable, -, rfl⟩ := octant_eq_ok.mp h
  obtain ⟨-, hreached, -, -⟩ := UserOctant.table_eq_ok.mp htable
  obtain ⟨least, hmem, hle, rfl⟩ := UserOctant.reachesPole_eq_ok.mp hreached
  exact ⟨least, hmem, hle, decide_eq_true_iff⟩

theorem exists_pole_iff_of_octant {ε : ℝ} :
    (∃ o ∈ q.table.rows, |o.z + 1| ≤ ε) ↔ ∃ x ∈ table.xi, |(|x| - 1)| ≤ ε := by
  obtain ⟨t, openInterval, htable, -, rfl⟩ := octant_eq_ok.mp h
  exact UserOctant.exists_pole_iff htable

end

/-- The flag of a reflected set is set if the lowest cosine of the octant is
practically `-1`, but the set holds the pole if any cosine of the octant is
practically `-1` or `1`. So a flag that is set is right, and one that is not is
wrong exactly if the octant has such a cosine and its lowest one is another. -/
theorem isOpenInterval_iff_of_octant {table : DirectionTable ℝ} {levels : ℕ} {layout : Layout}
    {norm : Option ℝ} {q : Quadrature ℝ} (h : octant table levels layout norm = .ok q) :
    ∃ least ∈ table.xi, (∀ x ∈ table.xi, least ≤ x) ∧
      (q.kind.isOpenInterval = true ↔ |least + 1| ≤ 1e-12) ∧
      ((∃ o ∈ q.table.rows, |o.z + 1| ≤ 1e-12) ↔ ∃ x ∈ table.xi, |(|x| - 1)| ≤ 1e-12) ∧
      (q.kind.isOpenInterval = true → ∃ o ∈ q.table.rows, |o.z + 1| ≤ 1e-12) ∧
      ((q.kind.isOpenInterval = true ↔ ∃ o ∈ q.table.rows, |o.z + 1| ≤ 1e-12) ↔
        ((∃ x ∈ table.xi, |(|x| - 1)| ≤ 1e-12) → |least + 1| ≤ 1e-12)) := by
  obtain ⟨least, hmem, hle, hflag⟩ := exists_least_of_octant h
  have hset : (∃ o ∈ q.table.rows, |o.z + 1| ≤ 1e-12) ↔ ∃ x ∈ table.xi, |(|x| - 1)| ≤ 1e-12 :=
    exists_pole_iff_of_octant h
  have hright : |least + 1| ≤ 1e-12 → ∃ x ∈ table.xi, |(|x| - 1)| ≤ 1e-12 := fun hpole =>
    ⟨least, hmem, (UserOctant.abs_abs_sub_one_le least).trans hpole⟩
  refine ⟨least, hmem, hle, hflag, hset, fun hopen => hset.mpr (hright (hflag.mp hopen)), ?_⟩
  rw [hflag, hset]
  exact ⟨fun heq => heq.mpr, fun hleft => ⟨hright, hleft⟩⟩

/-- An octant whose only direction is a pole. -/
noncomputable def upright (z : ℝ) : DirectionTable ℝ :=
  { mu := [0], eta := [0], xi := [z], wt := [1] }

theorem exists_octant_upright {z norm : ℝ} (hz : z * z = 1) (hnorm : 0 ≤ norm) :
    ∃ q, octant (upright z) 2 .square (some norm) = .ok q := by
  have hrows : (upright z).rows = [⟨0, 0, z, 1⟩] := by
    simp [upright, DirectionTable.rows, DirectionTable.row]
  have hcheck : UserOctant.check .square 2 (upright z) = .ok () := by
    rw [UserOctant.check_eq_ok]
    refine ⟨rfl, rfl, rfl, rfl, DirectionTable.checkWeights_eq_ok.mpr (by simp [upright]), ?_⟩
    apply DirectionTable.checkDirections_eq_ok
    · intro heta
      cases heta
    · rw [hrows]
      norm_num [Ordinate.squaredLength, Ordinate.unitTolerance, hz]
    · simp [hrows]
  have hreached : UserOctant.reachesPole (upright z) = .ok (decide (|z + 1| ≤ 1e-12)) :=
    UserOctant.reachesPole_eq_ok.mpr ⟨z, by simp [upright], by simp [upright], rfl⟩
  obtain ⟨t, openInterval, htable⟩ :
      ∃ t openInterval, UserOctant.table .square 2 norm (upright z) = .ok (t, openInterval) :=
    ⟨_, _, UserOctant.table_eq_ok.mpr ⟨hcheck, hreached, by simp [upright], rfl⟩⟩
  have hclosure := (UserOctant.closesExactly_of_table htable).checkClosure_eq_ok hnorm
  exact ⟨_, octant_eq_ok.mpr ⟨t, openInterval, htable, hclosure, rfl⟩⟩

/-- An octant that reaches the lower pole is flagged, and its set holds this pole. -/
theorem isOpenInterval_iff_of_octant_upright :
    ∃ q, octant (upright (-1)) 2 .square (some 2) = .ok q ∧ q.kind.isOpenInterval = true ∧
      ∃ o ∈ q.table.rows, |o.z + 1| ≤ 1e-12 := by
  obtain ⟨q, hq⟩ := exists_octant_upright (z := -1) (by norm_num) zero_le_two
  obtain ⟨least, hmem, -, hflag, -, hholds, -⟩ := isOpenInterval_iff_of_octant hq
  have hleast : least = -1 := by simpa [upright] using hmem
  have hopen : q.kind.isOpenInterval = true := by
    rw [hflag, hleast]
    norm_num
  exact ⟨q, hq, hopen, hholds hopen⟩

/-- The set of an octant that reaches the upper pole holds the lower one as well,
but it is not flagged. -/
theorem not_isOpenInterval_upright :
    ∃ q, octant (upright 1) 2 .square (some 2) = .ok q ∧ q.kind.isOpenInterval = false ∧
      ∃ o ∈ q.table.rows, |o.z + 1| ≤ 1e-12 := by
  obtain ⟨q, hq⟩ := exists_octant_upright (z := 1) (one_mul 1) zero_le_two
  obtain ⟨least, hmem, -, hflag⟩ := exists_least_of_octant hq
  have hleast : least = 1 := by simpa [upright] using hmem
  refine ⟨q, hq, ?_, (exists_pole_iff_of_octant hq).mpr ⟨1, by simp [upright], by norm_num⟩⟩
  rw [← Bool.not_eq_true, hflag, hleast]
  norm_num

end Quadrature

end DiscreteOrdinates
