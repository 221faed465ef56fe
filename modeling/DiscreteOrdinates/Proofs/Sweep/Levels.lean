import DiscreteOrdinates.Proofs.Sample.Clustering
import DiscreteOrdinates.Sweep.Level

/-!
# Levels of a sweep

A list of ordinates cut into levels, each with the cosine that opens it. The
starts of a sweep stand in front of exactly these levels, and the cosines that
open them are the representatives of all cosines. A start is told from other
ordinates by a mark and not by its weight, since any ordinate may weigh nothing.
-/

namespace DiscreteOrdinates

theorem levelTolerance_pos : (0 : ℝ) < levelTolerance := by
  unfold levelTolerance
  norm_num

namespace Ordinate

variable {R : Type} [Scalar R]

/-- Ordinates with a start in front of every level, the starts marked as such. -/
def markStartsFrom (current : Option R) : List (Ordinate R) → List (Ordinate R × Bool)
  | [] => []
  | o :: os =>
    if opensLevel current o.z then
      (levelStart o.z, true) :: (o, false) :: markStartsFrom (some o.z) os
    else (o, false) :: markStartsFrom current os

/-- Ordinates with a start in front of every level, the starts marked as such. -/
def markStarts (os : List (Ordinate R)) : List (Ordinate R × Bool) :=
  markStartsFrom none os

theorem map_fst_markStartsFrom (current : Option R) (os : List (Ordinate R)) :
    (markStartsFrom current os).map (·.1) = withStartsFrom current os := by
  induction os generalizing current with
  | nil => rfl
  | cons o os ih =>
    rw [markStartsFrom, withStartsFrom]
    split
    · rw [List.map_cons, List.map_cons, ih]
    · rw [List.map_cons, ih]

/-- Without the marks this is what the program sweeps. -/
theorem map_fst_markStarts (os : List (Ordinate R)) :
    (markStarts os).map (·.1) = withStarts os :=
  map_fst_markStartsFrom none os

end Ordinate

/-- Ordinates that were swept together, and the cosine that opened their level. -/
structure SweepLevel (R : Type) where
  opening : R
  members : List (Ordinate R)

namespace SweepLevel

variable {R : Type} [Scalar R]

/-- The level with its start. -/
def ordinates (l : SweepLevel R) : List (Ordinate R) :=
  Ordinate.levelStart l.opening :: l.members

/-- The level with its start, which is marked. -/
def marked (l : SweepLevel R) : List (Ordinate R × Bool) :=
  (Ordinate.levelStart l.opening, true) :: l.members.map (·, false)

theorem map_fst_marked (l : SweepLevel R) : l.marked.map (·.1) = l.ordinates := by
  simp [marked, ordinates, Function.comp_def]

theorem mem_marked_true {l : SweepLevel R} {o : Ordinate R} :
    (o, true) ∈ l.marked ↔ o = Ordinate.levelStart l.opening := by
  simp [marked]

theorem filter_flatMap_marked (levels : List (SweepLevel R)) :
    (levels.flatMap marked).filter (·.2) =
      levels.map fun l => (Ordinate.levelStart l.opening, true) := by
  have hmembers : ∀ os : List (Ordinate R), (os.map (·, false)).filter (·.2) = [] := by simp
  induction levels with
  | nil => rfl
  | cons l levels ih =>
    rw [List.flatMap_cons, List.filter_append, ih, marked, List.filter_cons_of_pos rfl, hmembers]
    rfl

/-- Whether an ordinate stays on the level opened at `z`. -/
def stays (z : R) (o : Ordinate R) : Bool :=
  !Ordinate.opensLevel (some z) o.z

/-- Cuts ordinates in sweep order into levels. -/
def cut : List (Ordinate R) → List (SweepLevel R)
  | [] => []
  | o :: os => ⟨o.z, o :: os.takeWhile (stays o.z)⟩ :: cut (os.dropWhile (stays o.z))
termination_by os => os.length
decreasing_by
  have := List.length_dropWhile_le (stays o.z) os
  simp only [List.length_cons]
  omega

/-! ## Starts -/

theorem markStartsFrom_some (z : R) (os : List (Ordinate R)) :
    Ordinate.markStartsFrom (some z) os =
      (os.takeWhile (stays z)).map (·, false) ++ Ordinate.markStarts (os.dropWhile (stays z)) := by
  induction os with
  | nil => rfl
  | cons o os ih =>
    cases h : Ordinate.opensLevel (some z) o.z with
    | true =>
      have hstays : stays z o = false := by simp [stays, h]
      rw [List.takeWhile_cons_of_neg (by simp [hstays]), List.dropWhile_cons_of_neg (by simp [hstays])]
      rw [Ordinate.markStartsFrom, if_pos h, List.map_nil, List.nil_append]
      rfl
    | false =>
      have hstays : stays z o = true := by simp [stays, h]
      rw [List.takeWhile_cons_of_pos hstays, List.dropWhile_cons_of_pos hstays, List.map_cons,
        List.cons_append, ← ih]
      simp [Ordinate.markStartsFrom, h]

/-- The starts of a sweep stand in front of its levels. -/
theorem markStarts_eq_flatMap (os : List (Ordinate R)) :
    Ordinate.markStarts os = (cut os).flatMap marked := by
  induction os using cut.induct with
  | case1 => simp [cut, Ordinate.markStarts, Ordinate.markStartsFrom]
  | case2 o os ih =>
    have hopens : Ordinate.markStarts (o :: os) =
        (Ordinate.levelStart o.z, true) :: (o, false) :: Ordinate.markStartsFrom (some o.z) os := rfl
    rw [cut, List.flatMap_cons, ← ih, hopens, markStartsFrom_some]
    rfl

theorem withStarts_eq_flatMap (os : List (Ordinate R)) :
    Ordinate.withStarts os = (cut os).flatMap ordinates := by
  rw [← Ordinate.map_fst_markStarts, markStarts_eq_flatMap, List.map_flatMap]
  simp only [map_fst_marked]

theorem flatMap_members_cut (os : List (Ordinate R)) : (cut os).flatMap members = os := by
  induction os using cut.induct with
  | case1 => simp [cut]
  | case2 o os ih =>
    rw [cut, List.flatMap_cons, ih, List.cons_append, List.takeWhile_append_dropWhile]

/-! ## Levels of sorted ordinates -/

/-- What the levels of sorted ordinates are like: the cosines of a level ascend
from its opening and stay within the tolerance, and a later level opens beyond
that. -/
structure IsLevelled (levels : List (SweepLevel ℝ)) : Prop where
  ascending : ∀ l ∈ levels, l.ordinates.Pairwise (·.z ≤ ·.z)
  within : ∀ l ∈ levels, ∀ o ∈ l.ordinates, l.opening ≤ o.z ∧ o.z ≤ l.opening + levelTolerance
  apart : levels.Pairwise fun a b => a.opening + levelTolerance < b.opening

theorem stays_iff {z : ℝ} {o : Ordinate ℝ} (h : z ≤ o.z) :
    stays z o = true ↔ o.z ≤ z + levelTolerance := by
  have habs : |o.z - z| = o.z - z := abs_of_nonneg (sub_nonneg.mpr h)
  have hstays : stays z o = true ↔ o.z - z ≤ levelTolerance := by
    simp [stays, Ordinate.opensLevel, habs]
  rw [hstays, sub_le_iff_le_add']

/-- Behind the first ordinate that leaves a level all do. -/
theorem lt_of_mem_dropWhile {z : ℝ} {os : List (Ordinate ℝ)} (hsorted : os.Pairwise (·.z ≤ ·.z))
    (hz : ∀ o ∈ os, z ≤ o.z) {o : Ordinate ℝ} (ho : o ∈ os.dropWhile (stays z)) :
    z + levelTolerance < o.z := by
  induction os with
  | nil => simp at ho
  | cons a os ih =>
    obtain ⟨ha, hos⟩ := List.pairwise_cons.mp hsorted
    by_cases hstays : stays z a = true
    · rw [List.dropWhile_cons_of_pos hstays] at ho
      exact ih hos (fun o ho => hz o (List.mem_cons_of_mem _ ho)) ho
    · have hlt : z + levelTolerance < a.z := by
        rw [stays_iff (hz a List.mem_cons_self)] at hstays
        exact not_le.mp hstays
      rw [List.dropWhile_cons_of_neg hstays] at ho
      rcases List.mem_cons.mp ho with rfl | ho
      · exact hlt
      · exact hlt.trans_le (ha o ho)

theorem exists_mem_of_mem_cut {os : List (Ordinate ℝ)} {l : SweepLevel ℝ} (hl : l ∈ cut os) :
    ∃ o ∈ os, l.opening = o.z := by
  induction os using cut.induct with
  | case1 => simp [cut] at hl
  | case2 o os ih =>
    rw [cut] at hl
    rcases List.mem_cons.mp hl with rfl | hl
    · exact ⟨o, List.mem_cons_self, rfl⟩
    · obtain ⟨a, ha, heq⟩ := ih hl
      exact ⟨a, List.mem_cons_of_mem _ ((List.dropWhile_suffix _).subset ha), heq⟩

theorem isLevelled_cut {os : List (Ordinate ℝ)} (hsorted : os.Pairwise (·.z ≤ ·.z)) :
    IsLevelled (cut os) := by
  induction os using cut.induct with
  | case1 => constructor <;> simp [cut]
  | case2 o os ih =>
    obtain ⟨ho, hos⟩ := List.pairwise_cons.mp hsorted
    have hlater := ih (hos.sublist (List.dropWhile_sublist _))
    have htake : ∀ a ∈ os.takeWhile (stays o.z), o.z ≤ a.z ∧ a.z ≤ o.z + levelTolerance := by
      intro a ha
      have hle : o.z ≤ a.z := ho a ((List.takeWhile_prefix _).subset ha)
      exact ⟨hle, (stays_iff hle).mp (List.mem_takeWhile_imp ha)⟩
    rw [cut]
    -- The first level holds what stays near `o`, and the others come from what is dropped.
    constructor
    case ascending =>
      rw [List.forall_mem_cons]
      refine ⟨?_, hlater.ascending⟩
      refine List.pairwise_cons.mpr ⟨?_, List.pairwise_cons.mpr ⟨fun a ha => (htake a ha).1, ?_⟩⟩
      · intro a ha
        rcases List.mem_cons.mp ha with rfl | ha
        · exact le_refl _
        · exact (htake a ha).1
      · exact hos.sublist (List.takeWhile_sublist _)
    case within =>
      rw [List.forall_mem_cons]
      refine ⟨?_, hlater.within⟩
      have hself : o.z ≤ o.z ∧ o.z ≤ o.z + levelTolerance :=
        ⟨le_refl _, le_add_of_nonneg_right levelTolerance_pos.le⟩
      intro a ha
      rcases List.mem_cons.mp ha with rfl | ha
      · exact hself
      · rcases List.mem_cons.mp ha with rfl | ha
        · exact hself
        · exact htake a ha
    case apart =>
      refine List.pairwise_cons.mpr ⟨fun l hl => ?_, hlater.apart⟩
      obtain ⟨a, ha, heq⟩ := exists_mem_of_mem_cut hl
      rw [heq]
      exact lt_of_mem_dropWhile hos ho ha

end SweepLevel

/-! ## Representatives -/

namespace Sample

/-- Real numbers can always be merged. -/
theorem distinctWithin_levelTolerance (xs : List ℝ) :
    distinctWithin levelTolerance xs = .ok (representatives levelTolerance (sorted xs)) := by
  rw [distinctWithin_of_isReasonable (isReasonable_of_nonneg levelTolerance_pos.le),
    if_pos (by simp)]

theorem sorted_of_pairwise {xs : List ℝ} (h : xs.Pairwise (· ≤ ·)) : sorted xs = xs := by
  apply List.mergeSort_of_pairwise
  exact h.imp fun hxy => Scalar.isLE_order_real.mpr hxy

theorem thin_append {tolerance kept : ℝ} {xs : List ℝ} (h : ∀ x ∈ xs, |x - kept| ≤ tolerance)
    (ys : List ℝ) : thin tolerance kept (xs ++ ys) = thin tolerance kept ys := by
  induction xs with
  | nil => rfl
  | cons x xs ih =>
    obtain ⟨hx, hxs⟩ := List.forall_mem_cons.mp h
    rw [List.cons_append, thin, if_pos (by simpa using hx), ih hxs]

theorem representatives_flatMap {levels : List (SweepLevel ℝ)} (h : SweepLevel.IsLevelled levels) :
    representatives levelTolerance (levels.flatMap fun l => l.ordinates.map (·.z)) =
      levels.map (·.opening) := by
  induction levels with
  | nil => rfl
  | cons l levels ih =>
    have htail : SweepLevel.IsLevelled levels :=
      ⟨fun a ha => h.ascending a (List.mem_cons_of_mem _ ha),
        fun a ha => h.within a (List.mem_cons_of_mem _ ha), h.apart.tail⟩
    have hmembers : ∀ z ∈ l.members.map (·.z), |z - l.opening| ≤ levelTolerance := by
      intro z hz
      obtain ⟨o, ho, rfl⟩ := List.mem_map.mp hz
      obtain ⟨hlow, hhigh⟩ := h.within l List.mem_cons_self o (List.mem_cons_of_mem _ ho)
      rw [abs_of_nonneg (sub_nonneg.mpr hlow)]
      linarith
    have hopen : ∀ zs, (l.ordinates.map (·.z)) ++ zs = l.opening :: (l.members.map (·.z) ++ zs) :=
      fun zs => rfl
    -- The members of the first level are all represented by its opening.
    rw [List.flatMap_cons, hopen, representatives, thin_append hmembers, List.map_cons, ← ih htail]
    cases levels with
    | nil => rfl
    | cons a levels =>
      -- The next level opens beyond the tolerance, so its opening is kept.
      have hapart : l.opening + levelTolerance < a.opening :=
        List.rel_of_pairwise_cons h.apart List.mem_cons_self
      have habs : ¬ |a.opening - l.opening| ≤ levelTolerance := by
        rw [abs_of_pos (by linarith [levelTolerance_pos])]
        linarith
      have hnext : (a :: levels).flatMap (fun l => l.ordinates.map (·.z)) =
          a.opening :: (a.members.map (·.z) ++ levels.flatMap fun l => l.ordinates.map (·.z)) := rfl
      rw [hnext, thin, if_neg (by simpa using habs), representatives]

/-- The representatives of the cosines of a sweep are the cosines that open its
levels. -/
theorem distinctWithin_flatMap {levels : List (SweepLevel ℝ)} (h : SweepLevel.IsLevelled levels) :
    distinctWithin levelTolerance ((levels.flatMap SweepLevel.ordinates).map (·.z)) =
      .ok (levels.map (·.opening)) := by
  have hsorted : ((levels.flatMap SweepLevel.ordinates).map (·.z)).Pairwise (· ≤ ·) := by
    rw [List.pairwise_map, List.pairwise_flatMap]
    refine ⟨h.ascending, h.apart.imp_of_mem fun ha hb hab x hx y hy => ?_⟩
    have hx' := (h.within _ ha x hx).2
    have hy' := (h.within _ hb y hy).1
    linarith
  rw [distinctWithin_levelTolerance, sorted_of_pairwise hsorted, List.map_flatMap,
    representatives_flatMap h]

end Sample

end DiscreteOrdinates
