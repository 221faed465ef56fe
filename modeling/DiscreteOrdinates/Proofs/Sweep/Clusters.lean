import DiscreteOrdinates.Proofs.FloatScalar
import DiscreteOrdinates.Proofs.Sorting
import DiscreteOrdinates.Proofs.Sweep.Starts

/-!
# Clusters of a sweep

A sweep opens its levels while it walks through the sorted ordinates, and the cosines
that count as different are found by sorting and merging the cosines alone. Both come to
the same levels, for floats bit by bit as well as for reals. Main statement:
`markStarts_sorted`.
-/

namespace DiscreteOrdinates

/-! ## Scalars that form levels -/

/-- What levels ask of the numbers that they are formed of: a total order that tells
numbers apart, and finite numbers that either lie within the tolerance of each other or
differ by more, and by no more from themselves. -/
class FormsLevels (R : Type) [Scalar R] : Prop where
  transCmp : Std.TransCmp (Scalar.order : R → R → Ordering)
  lawfulEqCmp : Std.LawfulEqCmp (Scalar.order : R → R → Ordering)
  tolerance : Scalar.isFinite (levelTolerance : R) = true ∧ ¬ (levelTolerance : R) < 0.0
  near_self (x : R) (hx : Scalar.isFinite x = true) : Scalar.abs (x - x) ≤ levelTolerance
  far_iff (x y : R) (hx : Scalar.isFinite x = true) (hy : Scalar.isFinite y = true) :
    levelTolerance < Scalar.abs (x - y) ↔ ¬ Scalar.abs (x - y) ≤ levelTolerance

attribute [instance] FormsLevels.transCmp FormsLevels.lawfulEqCmp

instance : FormsLevels ℝ where
  transCmp := inferInstance
  lawfulEqCmp := inferInstance
  tolerance := ⟨rfl, by rw [Scalar.zero_real]; exact levelTolerance_pos.not_gt⟩
  near_self x _ := by simpa using levelTolerance_pos.le
  far_iff _ _ _ _ := not_le.symm

instance : FormsLevels Float where
  transCmp := inferInstance
  lawfulEqCmp := inferInstance
  tolerance := by decide +kernel
  near_self x hx := by
    have hself : x - x = 0.0 := Scalar.sub_self_float hx
    rw [hself]
    decide +kernel
  far_iff x y hx hy := by
    have htolerance : (levelTolerance : Float).isNaN = false := by decide +kernel
    exact Scalar.float_lt_iff_not_le htolerance
      (Scalar.isNaN_abs_of_isNaN (Scalar.isNaN_sub_of_isFinite hx hy))

variable {R : Type} [Scalar R]

namespace SweepLevel

/-! ## Levels of finite cosines -/

/-- A level as a sweep forms it: its opening is the cosine of its first ordinate, to the
bit, and no ordinate strays from the opening. -/
structure IsCluster (l : SweepLevel R) : Prop where
  opens : l.members.head?.map (·.z) = some l.opening
  near : ∀ o ∈ l.members, Scalar.abs (o.z - l.opening) ≤ levelTolerance

/-- A level ends only where the next ordinate lies beyond the tolerance of its opening. -/
theorem isChain_cut (os : List (Ordinate R)) :
    (cut os).IsChain fun a b => levelTolerance < Scalar.abs (b.opening - a.opening) := by
  induction os using cut.induct with
  | case1 => simp [cut]
  | case2 o os ih =>
    rw [cut]
    cases hrest : os.dropWhile (stays o.z) with
    | nil => simp [cut]
    | cons a as =>
      -- What is dropped no more is the first to leave the level, and opens the next one.
      have hleaves : stays o.z a = false := by
        have hhead := List.head?_dropWhile_not (stays o.z) os
        simpa [hrest] using hhead
      rw [hrest, cut] at ih
      rw [cut]
      refine List.isChain_cons_cons.mpr ⟨?_, ih⟩
      simpa [stays, Ordinate.opensLevel] using hleaves

variable [FormsLevels R]

theorem stays_iff_near {z : R} {o : Ordinate R} (hz : Scalar.isFinite z = true)
    (ho : Scalar.isFinite o.z = true) :
    stays z o = true ↔ Scalar.abs (o.z - z) ≤ levelTolerance := by
  have hstays : stays z o = true ↔ ¬ levelTolerance < Scalar.abs (o.z - z) := by
    simp [stays, Ordinate.opensLevel]
  rw [hstays, FormsLevels.far_iff o.z z ho hz, not_not]

theorem isCluster_of_mem_cut {os : List (Ordinate R)}
    (hfinite : ∀ o ∈ os, Scalar.isFinite o.z = true) {l : SweepLevel R} (hl : l ∈ cut os) :
    l.IsCluster := by
  induction os using cut.induct with
  | case1 => simp [cut] at hl
  | case2 o os ih =>
    obtain ⟨ho, hos⟩ := List.forall_mem_cons.mp hfinite
    rw [cut] at hl
    rcases List.mem_cons.mp hl with rfl | hl
    · refine ⟨rfl, List.forall_mem_cons.mpr ⟨FormsLevels.near_self o.z ho, fun a ha => ?_⟩⟩
      have hmem : a ∈ os := (List.takeWhile_prefix _).subset ha
      exact (stays_iff_near ho (hos a hmem)).mp (List.mem_takeWhile_imp ha)
    · exact ih (fun a ha => hos a ((List.dropWhile_suffix _).subset ha)) hl

end SweepLevel

/-! ## Distinct cosines -/

namespace Sample

open SweepLevel

variable [FormsLevels R]

/-- What is thinned out are the ordinates that stay on the level of the number kept. -/
theorem thin_map_z {kept : R} (hkept : Scalar.isFinite kept = true) {os : List (Ordinate R)}
    (hfinite : ∀ o ∈ os, Scalar.isFinite o.z = true) :
    thin levelTolerance kept (os.map (·.z)) =
      representatives levelTolerance ((os.dropWhile (stays kept)).map (·.z)) := by
  induction os with
  | nil => rfl
  | cons o os ih =>
    obtain ⟨ho, hos⟩ := List.forall_mem_cons.mp hfinite
    rw [List.map_cons, thin]
    split
    next hnear =>
      rw [List.dropWhile_cons_of_pos ((stays_iff_near hkept ho).mpr hnear), ih hos]
    next hfar =>
      rw [List.dropWhile_cons_of_neg (mt (stays_iff_near hkept ho).mp hfar)]
      rfl

/-- Merging the cosines of ordinates comes to the cosines that open their levels. -/
theorem representatives_map_z {os : List (Ordinate R)}
    (hfinite : ∀ o ∈ os, Scalar.isFinite o.z = true) :
    representatives levelTolerance (os.map (·.z)) = (cut os).map (·.opening) := by
  induction os using cut.induct with
  | case1 => simp [cut, representatives]
  | case2 o os ih =>
    obtain ⟨ho, hos⟩ := List.forall_mem_cons.mp hfinite
    have hrest : ∀ a ∈ os.dropWhile (stays o.z), Scalar.isFinite a.z = true :=
      fun a ha => hos a ((List.dropWhile_suffix _).subset ha)
    rw [cut, List.map_cons, List.map_cons, representatives, thin_map_z ho hos, ih hrest]

theorem distinctWithin_map_z {os : List (Ordinate R)}
    (hfinite : ∀ o ∈ os, Scalar.isFinite o.z = true) :
    distinctWithin levelTolerance (os.map (·.z)) =
      .ok ((cut (Ordinate.sorted os)).map (·.opening)) := by
  have hall : (os.map (·.z)).all Scalar.isFinite = true := by simpa using hfinite
  have hsorted : ∀ o ∈ Ordinate.sorted os, Scalar.isFinite o.z = true :=
    fun o ho => hfinite o ((Ordinate.isStableSort_sorted os).perm.mem_iff.mp ho)
  -- Sorting by more than the cosine still sorts the cosines.
  rw [distinctWithin_of_isReasonable FormsLevels.tolerance, if_pos hall, ← Ordinate.map_z_sorted,
    representatives_map_z hsorted]

end Sample

/-! ## Starts of sorted ordinates -/

namespace Ordinate

open SweepLevel

variable [FormsLevels R]

/-- The starts of ordinates with finite cosines. Without them a sweep is the stable sort
of its ordinates by level and cosine. A start is the most negative direction of its level
without weight, and has exactly the cosine of the ordinate behind it. The ordinates up to
the next start lie within the tolerance of it, and the next start beyond. The cosines of
the starts are those that remain when the cosines are merged on their own. -/
theorem markStarts_sorted {os : List (Ordinate R)}
    (hfinite : ∀ o ∈ os, Scalar.isFinite o.z = true) :
    (markStarts (sorted os)).map (·.1) = withStarts (sorted os) ∧
    IsStableSort sweepOrder os (((markStarts (sorted os)).filter (!·.2)).map (·.1)) ∧
    (∀ s, (s, true) ∈ markStarts (sorted os) →
      s.x = -Scalar.sqrt (Scalar.positivePart (1.0 - s.z * s.z)) ∧ s.y = 0.0 ∧ s.weight = 0.0) ∧
    (∃ levels : List (SweepLevel R), markStarts (sorted os) = levels.flatMap marked ∧
      (∀ l ∈ levels, l.IsCluster) ∧
      levels.IsChain fun a b => levelTolerance < Scalar.abs (b.opening - a.opening)) ∧
    Sample.distinctWithin levelTolerance (os.map (·.z)) =
      .ok (((markStarts (sorted os)).filter (·.2)).map (·.1.z)) := by
  have hperm := (isStableSort_sorted os).perm
  have hcut := markStarts_eq_flatMap (sorted os)
  refine ⟨map_fst_markStarts _, ?_, fun s hs => ?_,
    ⟨cut (sorted os), hcut, fun l hl => ?_, isChain_cut _⟩, ?_⟩
  · have hunmarked : ((markStarts (sorted os)).filter (!·.2)).map (·.1) = sorted os := by
      rw [markStarts, unmarked_markStartsFrom, List.map_map]
      exact List.map_id _
    rw [hunmarked]
    exact isStableSort_sorted os
  · rw [hcut] at hs
    obtain ⟨l, -, hmem⟩ := List.mem_flatMap.mp hs
    rw [mem_marked_true.mp hmem]
    exact ⟨rfl, rfl, rfl⟩
  · exact isCluster_of_mem_cut (fun o ho => hfinite o (hperm.mem_iff.mp ho)) hl
  · rw [Sample.distinctWithin_map_z hfinite, hcut, filter_flatMap_marked, List.map_map]
    rfl

/-- Three directions in sweep order, two of them on the level of zero, which has either sign. -/
def signedZeros : List (Ordinate Float) :=
  [⟨-1.0, 0.0, -0.0, 1.0⟩, ⟨1.0, 0.0, 0.0, 1.0⟩, ⟨0.6, 0.0, 0.8, 1.0⟩]

theorem sorted_signedZeros : sorted signedZeros = signedZeros :=
  List.mergeSort_of_pairwise (by decide +kernel)

/-- Zeros of either sign share a level, which the negative one opens. -/
theorem markStarts_sorted_signedZeros :
    (∀ o ∈ signedZeros, Scalar.isFinite o.z = true) ∧
    IsStableSort sweepOrder signedZeros (((markStarts signedZeros).filter (!·.2)).map (·.1)) ∧
    Sample.distinctWithin levelTolerance (signedZeros.map (·.z)) = .ok [-0.0, 0.8] := by
  have hfinite : ∀ o ∈ signedZeros, Scalar.isFinite o.z = true := by decide +kernel
  obtain ⟨-, hstable, -, -, hdistinct⟩ := markStarts_sorted hfinite
  rw [sorted_signedZeros] at hstable hdistinct
  have hfirst : opensLevel none (-0.0 : Float) = true := rfl
  have hsame : opensLevel (some (-0.0 : Float)) 0.0 = false := by decide +kernel
  have hopens : opensLevel (some (-0.0 : Float)) 0.8 = true := by decide +kernel
  have hmarks : markStarts signedZeros =
      [(levelStart (-0.0), true), (⟨-1.0, 0.0, -0.0, 1.0⟩, false), (⟨1.0, 0.0, 0.0, 1.0⟩, false),
        (levelStart 0.8, true), (⟨0.6, 0.0, 0.8, 1.0⟩, false)] := by
    simp [signedZeros, markStarts, markStartsFrom, hfirst, hsame, hopens]
  refine ⟨hfinite, hstable, hdistinct.trans ?_⟩
  rw [hmarks]
  rfl

end Ordinate

end DiscreteOrdinates
