import DiscreteOrdinates.Proofs.Angular.Structure
import DiscreteOrdinates.Proofs.Sweep.Starts

/-!
# Numbers and starts

The starts of a sweep cut it into levels by the distance from the cosine that
opened a level. The numbers of ordinates come from the last such cosine that is
not beyond the tolerance. An ordinate that comes close to a later start therefore
gets the number of a level that opens behind it, and all others get that of the
last start in front of them. Main statement: `assignLevels_eq_starts`.
-/

namespace DiscreteOrdinates

/-! ## Places -/

/-- The number of starts up to a place, which is counted as well. -/
def startsUpTo (marked : List (Ordinate ℝ × Bool)) (m : ℕ) : ℕ :=
  (marked.take (m + 1)).countP (·.2)

/-- Whether the ordinate in a place comes close to a start behind it. -/
def MeetsStart (marked : List (Ordinate ℝ × Bool)) (m : ℕ) : Prop :=
  ∃ p, marked[m]? = some p ∧
    ∃ start ∈ marked.drop (m + 1), start.2 = true ∧ start.1.z ≤ p.1.z + levelTolerance

namespace SweepLevel

variable {levels : List (SweepLevel ℝ)}

theorem countP_marked (l : SweepLevel ℝ) : l.marked.countP (·.2) = 1 := by
  simp [marked, List.countP_eq_zero]

/-- A place in a level has the start in front of it, and no other start stands
between it and the next level. -/
theorem of_marked_eq_append {l : SweepLevel ℝ} {before after : List (Ordinate ℝ × Bool)}
    {p : Ordinate ℝ × Bool} (h : l.marked = before ++ p :: after) :
    p.1 ∈ l.ordinates ∧ (before ++ [p]).countP (·.2) = 1 ∧ ∀ o, (o, true) ∉ after := by
  have hmem : p.1 ∈ l.ordinates := by
    rw [← map_fst_marked, h]
    simp
  have hunmarked : ∀ q ∈ l.members.map (·, false), q.2 = false := by simp
  cases before with
  | nil =>
    obtain ⟨rfl, rfl⟩ := List.cons.inj h
    refine ⟨hmem, by simp, fun o ho => ?_⟩
    simpa using hunmarked _ ho
  | cons b before =>
    obtain ⟨rfl, hrest⟩ := List.cons.inj h
    rw [hrest] at hunmarked
    refine ⟨hmem, ?_, fun o ho => ?_⟩
    · have hnone : (before ++ [p]).countP (·.2) = 0 := by
        rw [List.countP_eq_zero]
        intro q hq
        rw [hunmarked q (by simp at hq ⊢; tauto)]
        exact Bool.false_ne_true
      rw [List.cons_append, List.countP_cons_of_pos rfl, hnone]
    · simpa using hunmarked (o, true) (by simp [ho])

/-- The level of a place, as many levels as starts have been passed. -/
theorem exists_level_of_flatMap_eq {before after : List (Ordinate ℝ × Bool)} {p : Ordinate ℝ × Bool}
    (h : levels.flatMap marked = before ++ p :: after) :
    ∃ (i : ℕ) (hi : i < levels.length), p.1 ∈ levels[i].ordinates ∧
      (before ++ [p]).countP (·.2) = i + 1 ∧
      ∀ o, (o, true) ∈ after ↔ ∃ l ∈ levels.drop (i + 1), o = Ordinate.levelStart l.opening := by
  induction levels generalizing before with
  | nil => simp at h
  | cons l levels ih =>
    -- The place lies behind the first level or inside it.
    have hbehind : ∀ between, before = l.marked ++ between →
        levels.flatMap marked = between ++ p :: after → ∃ (i : ℕ) (hi : i < (l :: levels).length),
          p.1 ∈ (l :: levels)[i].ordinates ∧ (before ++ [p]).countP (·.2) = i + 1 ∧
          ∀ o, (o, true) ∈ after ↔
            ∃ l' ∈ (l :: levels).drop (i + 1), o = Ordinate.levelStart l'.opening := by
      intro between hbefore hlevels
      obtain ⟨i, hi, hmem, hcount, hafter⟩ := ih hlevels
      refine ⟨i + 1, Nat.succ_lt_succ hi, hmem, ?_, hafter⟩
      rw [hbefore, List.append_assoc, List.countP_append, countP_marked, hcount]
      omega
    rw [List.flatMap_cons, List.append_eq_append_iff] at h
    rcases h with ⟨between, hbefore, hlevels⟩ | ⟨rest, hl, hafter⟩
    · exact hbehind between hbefore hlevels
    · cases rest with
      | nil =>
        rw [List.append_nil] at hl
        exact hbehind [] (by rw [hl, List.append_nil]) hafter.symm
      | cons q rest =>
        obtain ⟨rfl, rfl⟩ := List.cons.inj hafter
        obtain ⟨hmem, hcount, hnone⟩ := of_marked_eq_append hl
        refine ⟨0, Nat.succ_pos _, hmem, hcount, fun o => ?_⟩
        simp [hnone, mem_marked_true]

theorem IsLevelled.opening_le (h : IsLevelled levels) {i j : ℕ} (hj : j < levels.length) (hij : i ≤ j) :
    levels[i].opening ≤ levels[j].opening := by
  rcases hij.eq_or_lt with rfl | hlt
  · exact le_rfl
  · have hapart := List.pairwise_iff_getElem.mp h.apart i j (by omega) hj hlt
    linarith [levelTolerance_pos]

/-- A place comes close to a later start exactly if its ordinate comes close to the
next level. -/
theorem exists_level_of_place (h : IsLevelled levels) {m : ℕ} {p : Ordinate ℝ × Bool}
    (hp : (levels.flatMap marked)[m]? = some p) :
    ∃ (i : ℕ) (hi : i < levels.length), p.1 ∈ levels[i].ordinates ∧
      startsUpTo (levels.flatMap marked) m = i + 1 ∧
      (MeetsStart (levels.flatMap marked) m ↔
        ∃ hn : i + 1 < levels.length, levels[i + 1].opening ≤ p.1.z + levelTolerance) := by
  obtain ⟨hm, hget⟩ := List.getElem?_eq_some_iff.mp hp
  have hsplit : levels.flatMap marked = (levels.flatMap marked).take m ++
      p :: (levels.flatMap marked).drop (m + 1) := by
    rw [← hget, ← List.drop_eq_getElem_cons hm, List.take_append_drop]
  obtain ⟨i, hi, hmem, hcount, hafter⟩ := exists_level_of_flatMap_eq hsplit
  refine ⟨i, hi, hmem, ?_, ?_⟩
  · rw [startsUpTo, ← List.take_concat_get' _ _ hm, hget, hcount]
  · constructor
    · rintro ⟨p', hp', ⟨o, mark⟩, ho, hmark, hclose⟩
      obtain rfl : p = p' := Option.some.inj (hp.symm.trans hp')
      obtain rfl : mark = true := hmark
      obtain ⟨l, hl, rfl⟩ := (hafter o).mp ho
      obtain ⟨j, hj, rfl⟩ := List.mem_iff_getElem.mp hl
      rw [List.length_drop] at hj
      rw [List.getElem_drop] at hclose
      -- The next level opens no later than the one that was met.
      exact ⟨by omega, (h.opening_le (by omega) (Nat.le_add_right _ j)).trans hclose⟩
    · rintro ⟨hn, hclose⟩
      refine ⟨p, hp, (Ordinate.levelStart levels[i + 1].opening, true), ?_, rfl, hclose⟩
      refine (hafter _).mpr ⟨_, ?_, rfl⟩
      rw [List.drop_eq_getElem_cons hn]
      exact List.mem_cons_self

end SweepLevel

namespace AngularRedistribution

/-! ## Numbers -/

variable {levels : List (SweepLevel ℝ)}

/-- The number of a place is that of the last start in front of it, or of the next
one if it comes close to that. -/
theorem levelOf_of_place (h : SweepLevel.IsLevelled levels) {m : ℕ} {p : Ordinate ℝ × Bool}
    (hp : (levels.flatMap SweepLevel.marked)[m]? = some p) :
    (MeetsStart (levels.flatMap SweepLevel.marked) m →
      levelOf (levels.map (·.opening)) p.1.z = startsUpTo (levels.flatMap SweepLevel.marked) m) ∧
    (¬ MeetsStart (levels.flatMap SweepLevel.marked) m →
      levelOf (levels.map (·.opening)) p.1.z + 1 =
        startsUpTo (levels.flatMap SweepLevel.marked) m) := by
  obtain ⟨i, hi, hmem, hcount, hmeets⟩ := SweepLevel.exists_level_of_place h hp
  rw [hcount, hmeets]
  constructor
  · rintro ⟨hn, hclose⟩
    exact levelOf_of_close h hn hmem hclose
  · intro hnone
    have hlow := (h.within _ (List.getElem_mem hi) _ hmem).1
    have htolerance := levelTolerance_pos
    rw [levelOf_eq h hi (by linarith) fun hn => not_le.mp fun hclose => hnone ⟨hn, hclose⟩]

theorem KeepApart.not_meetsStart (hapart : KeepApart levels) (h : SweepLevel.IsLevelled levels)
    (m : ℕ) : ¬ MeetsStart (levels.flatMap SweepLevel.marked) m := by
  intro hmeets
  obtain ⟨p, hp, -⟩ := id hmeets
  obtain ⟨i, hi, hmem, -, hiff⟩ := SweepLevel.exists_level_of_place h hp
  obtain ⟨hn, hclose⟩ := hiff.mp hmeets
  exact absurd hclose (not_le.mpr (hapart i hn p.1 hmem))

/-- On a sphere there is no second level to come close to. -/
theorem keepApart_of_level {os : List (Ordinate ℝ)} (hlevel : ∀ o ∈ os, o.z = 0)
    (h : SweepLevel.IsLevelled (SweepLevel.cut os)) : KeepApart (SweepLevel.cut os) := by
  have hopening : ∀ l ∈ SweepLevel.cut os, l.opening = 0 := by
    intro l hl
    obtain ⟨o, ho, heq⟩ := SweepLevel.exists_mem_of_mem_cut hl
    rw [heq, hlevel o ho]
  intro i hn o ho
  have hnext := lt_opening_succ h hn
  rw [hopening _ (List.getElem_mem _), hopening _ (List.getElem_mem _)] at hnext
  linarith [levelTolerance_pos]

/-- In a curvilinear sweep every ordinate gets the number of the last start that
was inserted in front of it, or of the next one if it comes close to a later
start. This cannot happen on a sphere, nor where a redistribution exists. -/
theorem assignLevels_eq_starts {q : Quadrature ℝ} {geometry : Geometry} {meshDimension : ℕ}
    {s : SweepSet ℝ} (hgeometry : geometry.isCurvilinear)
    (h : SweepSet.ofQuadrature q geometry meshDimension = .ok s) :
    ∃ os numbers, SweepSet.unstarted q geometry meshDimension = some os ∧
      (Ordinate.markStarts os).map (·.1) = s.ordinates ∧
      assignLevels s.ordinates = .ok numbers ∧ numbers.length = s.ordinates.length ∧
      (∀ m (hm : m < numbers.length),
        (MeetsStart (Ordinate.markStarts os) m →
          numbers[m] = startsUpTo (Ordinate.markStarts os) m) ∧
        (¬ MeetsStart (Ordinate.markStarts os) m →
          numbers[m] + 1 = startsUpTo (Ordinate.markStarts os) m)) ∧
      (geometry = .spherical → ∀ m, ¬ MeetsStart (Ordinate.markStarts os) m) ∧
      ((∃ r, ofQuadrature q geometry meshDimension = .ok r) →
        ∀ m, ¬ MeetsStart (Ordinate.markStarts os) m) := by
  obtain ⟨harrange, hsame, -⟩ := SweepSet.ofQuadrature_eq_ok h
  rw [SweepSet.arrange_eq_map, Option.map_eq_some_iff] at harrange
  obtain ⟨os, hos, hstarts⟩ := harrange
  rw [SweepSet.addStarts, if_pos hgeometry] at hstarts
  have hunstarted := SweepSet.isUnstarted_of_unstarted hgeometry hos
  have hlevels := SweepLevel.isLevelled_cut (hunstarted.pairwise.imp Ordinate.SweepLE.z_le)
  have hmarks := SweepLevel.markStarts_eq_flatMap os
  have hordinates := (Ordinate.map_fst_markStarts os).trans hstarts
  have hlevelled : s.ordinates = (SweepLevel.cut os).flatMap SweepLevel.ordinates := by
    rw [← hstarts, SweepLevel.withStarts_eq_flatMap]
  refine ⟨os, s.ordinates.map fun o => levelOf ((SweepLevel.cut os).map (·.opening)) o.z, hos,
    hordinates, ?_, List.length_map .., ?_, ?_, ?_⟩
  · rw [assignLevels, hlevelled, Sample.distinctWithin_flatMap hlevels]
  · intro m hm
    have hm' : m < (Ordinate.markStarts os).length := by simpa [← hordinates] using hm
    have hplace := levelOf_of_place hlevels
      ((congrArg (·[m]?) hmarks.symm).trans (List.getElem?_eq_getElem hm'))
    rw [← hmarks] at hplace
    simpa [← hordinates] using hplace
  · intro hspherical m
    rw [hmarks]
    exact (keepApart_of_level (hunstarted.level hspherical) hlevels).not_meetsStart hlevels m
  · rintro ⟨r, hr⟩ m
    have hsweep : ofSweep s = .ok r := by
      rw [← hr, ofQuadrature, h]
    obtain ⟨total, -, -, -, hclose⟩ := ofSweep_eq_ok (hsame ▸ hgeometry) hlevels hlevelled hsweep
    rw [hlevelled] at hclose
    rw [hmarks]
    exact (exists_closeLevel_eq hlevels hclose).1.not_meetsStart hlevels m

/-- In a sphere two opposite directions get the number of the only start. -/
theorem assignLevels_eq_starts_couple :
    ∃ s, SweepSet.ofQuadrature (SweepSet.couple 1 1) .spherical 1 = .ok s ∧
      Geometry.spherical.isCurvilinear = true ∧
      ∃ os numbers, (Ordinate.markStarts os).map (·.1) = s.ordinates ∧
        assignLevels s.ordinates = .ok numbers ∧ numbers.length = s.ordinates.length ∧
        ∀ m (hm : m < numbers.length), numbers[m] + 1 = startsUpTo (Ordinate.markStarts os) m := by
  obtain ⟨s, hs⟩ : ∃ s, SweepSet.ofQuadrature (SweepSet.couple 1 1) .spherical 1 = .ok s :=
    ⟨_, rfl⟩
  obtain ⟨os, numbers, -, hmarks, hassign, hlength, hnumbers, hspherical, -⟩ :=
    assignLevels_eq_starts (by rfl) hs
  exact ⟨s, hs, rfl, os, numbers, hmarks, hassign, hlength, fun m hm =>
    (hnumbers m hm).2 (hspherical rfl m)⟩

/-- Three directions, of which the second is close to both others. -/
noncomputable def crowded : Quadrature ℝ :=
  ⟨.general "crowded" 2 2, 2, 3.0,
    { mu := [-0.6, 0.6, 0.6], eta := [0, 7.5e-13, 1.5e-12], xi := [0.8, 0.8, 0.8], wt := [1, 1, 1] }⟩

theorem rows_crowded :
    crowded.table.rows =
      [⟨-0.6, 0, 0.8, 1⟩, ⟨0.6, 7.5e-13, 0.8, 1⟩, ⟨0.6, 1.5e-12, 0.8, 1⟩] := by
  simp [crowded, DirectionTable.rows, DirectionTable.row, List.range_succ]

theorem ordinates_crowded : crowded.ordinates =
    [⟨-0.6, 0.8, 0, 1⟩, ⟨0.6, 0.8, 7.5e-13, 1⟩, ⟨0.6, 0.8, 1.5e-12, 1⟩] := by
  rw [Quadrature.ordinates, rows_crowded]
  rfl

theorem general_crowded : Quadrature.general "crowded" 2 2 2 (some (3.0 : ℝ))
    { mu := [-0.6, 0.6, 0.6], eta := [0, 7.5e-13, 1.5e-12], xi := [0.8, 0.8, 0.8], wt := [1, 1, 1] } =
      .ok crowded := by
  have hdirections : crowded.table.checkDirections = .ok () := by
    apply DirectionTable.checkDirections_eq_ok
    · simp [crowded]
    · intro _
      rw [rows_crowded]
      simp only [List.forall_mem_cons, Ordinate.unitTolerance, abs_le]
      norm_num [Ordinate.squaredLength]
    · simp [rows_crowded]
  refine Quadrature.general_eq_ok (by simp) rfl (by simp) rfl hdirections ?_
  norm_num [crowded]

theorem near_crowded : |(7.5e-13 : ℝ)| ≤ levelTolerance := by
  unfold levelTolerance
  norm_num

theorem far_crowded : ¬ |(1.5e-12 : ℝ)| ≤ levelTolerance := by
  unfold levelTolerance
  norm_num

theorem markStarts_crowded : Ordinate.markStarts crowded.ordinates =
    [(Ordinate.levelStart 0, true), (⟨-0.6, 0.8, 0, 1⟩, false), (⟨0.6, 0.8, 7.5e-13, 1⟩, false),
      (Ordinate.levelStart 1.5e-12, true), (⟨0.6, 0.8, 1.5e-12, 1⟩, false)] := by
  rw [ordinates_crowded]
  simp [Ordinate.markStarts, Ordinate.markStartsFrom, Ordinate.opensLevel, near_crowded.not_gt,
    not_le.mp far_crowded]

theorem assignLevels_crowded :
    assignLevels ((Ordinate.markStarts crowded.ordinates).map (·.1)) = .ok [0, 0, 1, 1, 1] := by
  have hascending : Sample.sorted [0, 0, 7.5e-13, 1.5e-12, 1.5e-12] =
      [(0 : ℝ), 0, 7.5e-13, 1.5e-12, 1.5e-12] := by
    apply Sample.sorted_of_pairwise
    norm_num
  have hdistinct : Sample.distinctWithin levelTolerance [0, 0, 7.5e-13, 1.5e-12, 1.5e-12] =
      .ok [(0 : ℝ), 1.5e-12] := by
    simp [Sample.distinctWithin, hascending, Sample.representatives, Sample.thin, Scalar.zero_real,
      levelTolerance_pos.le, levelTolerance_pos.not_gt, near_crowded, far_crowded]
  have hbelow : ¬ (1.5e-12 : ℝ) ≤ levelTolerance := by
    unfold levelTolerance
    norm_num
  have habove : (1.5e-12 : ℝ) ≤ 7.5e-13 + levelTolerance := by
    unfold levelTolerance
    norm_num
  rw [markStarts_crowded, assignLevels]
  simp only [List.map_cons, List.map_nil, Ordinate.levelStart, hdistinct]
  simp [levelOf, lastIndex?, hbelow, habove, levelTolerance_pos.le]

/-- Where the second direction of three is close to both others, it stands behind
the first start but gets the number of the second one. -/
theorem not_assignLevels_eq_starts_crowded :
    Quadrature.general "crowded" 2 2 2 (some (3.0 : ℝ))
      { mu := [-0.6, 0.6, 0.6], eta := [0, 7.5e-13, 1.5e-12], xi := [0.8, 0.8, 0.8],
        wt := [1, 1, 1] } = .ok crowded ∧
    Geometry.axisymmetric.isCurvilinear = true ∧
    ∃ s os, SweepSet.ofQuadrature crowded .axisymmetric 2 = .ok s ∧
      SweepSet.unstarted crowded .axisymmetric 2 = some os ∧
      (Ordinate.markStarts os).map (·.1) = s.ordinates ∧
      (Ordinate.markStarts os).map (·.2) = [true, false, false, true, false] ∧
      assignLevels s.ordinates = .ok [0, 0, 1, 1, 1] := by
  have hsorted : Ordinate.sorted crowded.ordinates = crowded.ordinates := by
    apply List.mergeSort_of_pairwise
    simp only [Ordinate.isLE_sweepOrder, ordinates_crowded, Ordinate.SweepLE]
    norm_num
  have hunstarted : SweepSet.unstarted crowded .axisymmetric 2 = some crowded.ordinates := by
    rw [← hsorted]
    rfl
  obtain ⟨s, hs⟩ : ∃ s, SweepSet.ofQuadrature crowded .axisymmetric 2 = .ok s := ⟨_, rfl⟩
  have hmarks : (Ordinate.markStarts crowded.ordinates).map (·.1) = s.ordinates := by
    obtain ⟨harrange, -, -⟩ := SweepSet.ofQuadrature_eq_ok hs
    rw [SweepSet.arrange_eq_map, hunstarted] at harrange
    rw [Ordinate.map_fst_markStarts]
    exact Option.some.inj harrange
  refine ⟨general_crowded, rfl, s, _, hs, hunstarted, hmarks, ?_, hmarks ▸ assignLevels_crowded⟩
  rw [markStarts_crowded]
  rfl

end AngularRedistribution

end DiscreteOrdinates
