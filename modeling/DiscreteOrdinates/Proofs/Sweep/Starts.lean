import DiscreteOrdinates.Proofs.Quadrature.UserTable
import DiscreteOrdinates.Proofs.Sweep.Arrangement
import DiscreteOrdinates.Proofs.Sweep.Levels

/-!
# Starts of a sweep

Which ordinates of a sweep are starts. The program tells them by their weight,
which is zero, and so is the weight of a direction that a user gave none. Main
statement: `isStart_eq_mark_iff`.
-/

namespace DiscreteOrdinates

namespace Ordinate

/-! ## Marked ordinates -/

/-- A start that was inserted weighs nothing. -/
theorem weight_of_mem_markStartsFrom {current : Option ℝ} {os : List (Ordinate ℝ)} {o : Ordinate ℝ}
    (ho : (o, true) ∈ markStartsFrom current os) : o.weight = 0 := by
  induction os generalizing current with
  | nil => simp [markStartsFrom] at ho
  | cons a os ih =>
    rw [markStartsFrom] at ho
    split at ho
    · rcases List.mem_cons.mp ho with heq | ho
      · rw [(Prod.mk.inj heq).1]
        exact Scalar.zero_real
      · exact ih (by simpa using ho)
    · exact ih (by simpa using ho)

/-- What is not marked are the ordinates that the starts were added to. -/
theorem unmarked_markStartsFrom {R : Type} [Scalar R] (current : Option R) (os : List (Ordinate R)) :
    (markStartsFrom current os).filter (fun p => !p.2) = os.map (·, false) := by
  induction os generalizing current with
  | nil => rfl
  | cons o os ih =>
    rw [markStartsFrom]
    split
    · simp [ih]
    · simp [ih]

end Ordinate

namespace SweepSet

open Ordinate

/-- Arranged ordinates with the starts that their geometry adds, which are marked. -/
def withMarks {R : Type} [Scalar R] (geometry : Geometry) (os : List (Ordinate R)) :
    List (Ordinate R × Bool) :=
  if geometry.isCurvilinear then markStarts os else os.map (·, false)

theorem map_fst_withMarks (geometry : Geometry) (os : List (Ordinate ℝ)) :
    (withMarks geometry os).map (·.1) = addStarts geometry os := by
  unfold withMarks addStarts
  split
  · exact map_fst_markStarts os
  · simp [Function.comp_def]

theorem weight_of_mem_withMarks {geometry : Geometry} {os : List (Ordinate ℝ)} {o : Ordinate ℝ}
    (ho : (o, true) ∈ withMarks geometry os) : o.weight = 0 := by
  unfold withMarks at ho
  split at ho
  · exact weight_of_mem_markStartsFrom ho
  · simp at ho

theorem unmarked_withMarks (geometry : Geometry) (os : List (Ordinate ℝ)) :
    (withMarks geometry os).filter (fun p => !p.2) = os.map (·, false) := by
  unfold withMarks
  split
  · exact unmarked_markStartsFrom none os
  · simp [List.filter_map, Function.comp_def]

theorem mem_withMarks_false {geometry : Geometry} {os : List (Ordinate ℝ)} {o : Ordinate ℝ} :
    (o, false) ∈ withMarks geometry os ↔ o ∈ os := by
  have hmem : (o, false) ∈ (withMarks geometry os).filter (fun p => !p.2) ↔
      (o, false) ∈ withMarks geometry os := by simp
  rw [← hmem, unmarked_withMarks]
  simp

/-! ## Starts and marks -/

/-- Weights tell starts from other ordinates if none of these weighs nothing. -/
theorem isStart_eq_mark_iff_weight_ne {geometry : Geometry} {os : List (Ordinate ℝ)} :
    (∀ p ∈ withMarks geometry os, p.1.isStart = p.2) ↔ ∀ o ∈ os, o.weight ≠ 0 := by
  constructor
  · intro h o ho hzero
    have hmark := h (o, false) (mem_withMarks_false.mpr ho)
    rw [isStart_iff.mpr hzero] at hmark
    cases hmark
  · rintro h ⟨o, mark⟩ hp
    cases mark with
    | true => exact isStart_iff.mpr (weight_of_mem_withMarks hp)
    | false =>
      rw [← Bool.not_eq_true, isStart_iff]
      exact h o (mem_withMarks_false.mp hp)

/-- Starts do not count as weighted. -/
theorem countP_not_isStart_addStarts (geometry : Geometry) (os : List (Ordinate ℝ)) :
    (addStarts geometry os).countP (!·.isStart) = os.countP (!·.isStart) := by
  have hstarts : ∀ p ∈ withMarks geometry os, (!p.1.isStart) = ((!p.1.isStart) && !p.2) := by
    rintro ⟨o, mark⟩ hp
    cases mark with
    | true => simp [isStart_iff.mpr (weight_of_mem_withMarks hp)]
    | false => simp
  calc
    (addStarts geometry os).countP (!·.isStart)
        = (withMarks geometry os).countP fun p => (!p.1.isStart) && !p.2 := by
      rw [← map_fst_withMarks, List.countP_map]
      exact List.countP_congr fun p hp => Bool.eq_iff_iff.mp (hstarts p hp)
    _ = ((withMarks geometry os).filter fun p => !p.2).countP fun p => !p.1.isStart := by
      rw [List.countP_filter]
    _ = os.countP (!·.isStart) := by
      rw [unmarked_withMarks, List.countP_map]
      rfl

/-- A sweep consists of the arranged directions of its set and, in a curvilinear
geometry, of the starts that were inserted. Its ordinates without weight are
exactly these starts if no arranged direction lacks weight, and only then all of
the arranged directions count as weighted. Positive weights suffice. -/
theorem isStart_eq_mark_iff {q : Quadrature ℝ} {geometry : Geometry} {meshDimension : ℕ}
    {s : SweepSet ℝ} (h : ofQuadrature q geometry meshDimension = .ok s) :
    ∃ os, unstarted q geometry meshDimension = some os ∧
      (withMarks geometry os).map (·.1) = s.ordinates ∧
      ((∀ p ∈ withMarks geometry os, p.1.isStart = p.2) ↔ ∀ o ∈ os, o.weight ≠ 0) ∧
      (s.weighted = os.length ↔ ∀ o ∈ os, o.weight ≠ 0) ∧
      ((∀ w ∈ q.table.wt, 0 < w) → ∀ o ∈ os, o.weight ≠ 0) := by
  obtain ⟨harrange, -, -⟩ := ofQuadrature_eq_ok h
  rw [arrange_eq_map, Option.map_eq_some_iff] at harrange
  obtain ⟨os, hos, hstarts⟩ := harrange
  refine ⟨os, hos, (map_fst_withMarks geometry os).trans hstarts, isStart_eq_mark_iff_weight_ne, ?_, ?_⟩
  · rw [weighted, ← hstarts, countP_not_isStart_addStarts, List.countP_eq_length]
    simp only [Bool.not_eq_true', ← Bool.not_eq_true, isStart_iff, ne_eq]
  · intro hpositive
    have hordinates : ∀ o ∈ q.ordinates, 0 < o.weight := by
      intro o ho
      apply hpositive
      rw [← q.map_weight_ordinates]
      exact List.mem_map_of_mem ho
    exact fun o ho => (weight_of_mem_unstarted (fun _ _ => add_pos) hos hordinates o ho).ne'

/-- Two opposite directions of given weights. -/
noncomputable def couple (v w : ℝ) : Quadrature ℝ :=
  ⟨.general "couple" 1 1, 2, 2.0, { mu := [-0.5, 0.5], wt := [v, w] }⟩

/-- With positive weights the only start in a sphere is the one in front. -/
theorem isStart_eq_mark_iff_couple :
    ∃ s, ofQuadrature (couple 1 1) .spherical 1 = .ok s ∧ s.weighted = 2 ∧
      ∃ marked : List (Ordinate ℝ × Bool), marked.map (·.1) = s.ordinates ∧
        ∀ p ∈ marked, p.1.isStart = p.2 := by
  obtain ⟨s, hs⟩ : ∃ s, ofQuadrature (couple 1 1) .spherical 1 = .ok s := ⟨_, rfl⟩
  obtain ⟨os, hos, hmarks, hstarts, hweighted, hpositive⟩ := isStart_eq_mark_iff hs
  have hweights := hpositive (by simp [couple])
  have hsorted : os = sorted (couple 1 1).ordinates := (Option.some.inj hos).symm
  have hlength : os.length = 2 := by
    rw [hsorted, (sorted_perm _).length_eq, Quadrature.ordinates_of_line rfl rfl]
    rfl
  exact ⟨s, hs, (hweighted.mpr hweights).trans hlength, _, hmarks, hstarts.mpr hweights⟩

/-- A user may give a direction no weight. On a cartesian mesh no start is
inserted, but this direction passes for one and is not counted. -/
theorem not_isStart_eq_mark_couple :
    Quadrature.general "couple" 1 2 1 (some (2.0 : ℝ)) { mu := [-0.5, 0.5], wt := [0, 2] } =
      .ok (couple 0 2) ∧
    0 < (couple 0 2).norm ∧
    ∃ s, ofQuadrature (couple 0 2) .cartesian 1 = .ok s ∧
      s.ordinates = (couple 0 2).ordinates ∧ s.ordinates.length = 2 ∧
      (∃ o ∈ s.ordinates, o.isStart = true) ∧ s.weighted = 1 := by
  have hrows : ({ mu := [-0.5, 0.5], wt := [0, 2] } : DirectionTable ℝ).rows =
      [⟨-0.5, 0, 0, 0⟩, ⟨0.5, 0, 0, 2⟩] := by
    simp [DirectionTable.rows, DirectionTable.row, List.range_succ]
  have hdirections :
      ({ mu := [-0.5, 0.5], wt := [0, 2] } : DirectionTable ℝ).checkDirections = .ok () := by
    apply DirectionTable.checkDirections_eq_ok
    · rw [hrows]
      norm_num [abs_le]
    · simp
    · simp [hrows]
  have hgeneral : Quadrature.general "couple" 1 2 1 (some (2.0 : ℝ))
      { mu := [-0.5, 0.5], wt := [0, 2] } = .ok (couple 0 2) := by
    refine Quadrature.general_eq_ok (by simp) rfl (by simp) rfl hdirections ?_
    norm_num
  have hordinates : (couple 0 2).ordinates = [⟨-0.5, 0, 0, 0⟩, ⟨0.5, 0, 0, 2⟩] :=
    Quadrature.ordinates_of_line rfl rfl
  refine ⟨hgeneral, by norm_num [couple], _, rfl, rfl, ?_, ?_, ?_⟩
  · rw [hordinates]
    rfl
  · rw [hordinates]
    exact ⟨_, List.mem_cons_self, isStart_iff.mpr rfl⟩
  · rw [weighted, hordinates]
    norm_num [isStart, Scalar.zero_real]

end SweepSet

end DiscreteOrdinates
