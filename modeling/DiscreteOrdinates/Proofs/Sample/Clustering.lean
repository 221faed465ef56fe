import DiscreteOrdinates.Proofs.RealScalar
import DiscreteOrdinates.Proofs.Sorting

/-!
# Clusters of a sample

Numbers are merged in one pass through the sorted sample, each compared with the last one
kept. The numbers kept are determined without the pass: they stand farther apart than the
tolerance, and every number lies within the tolerance above the largest one kept that does
not exceed it. Main statement: `distinctWithin_canonical`.
-/

namespace DiscreteOrdinates

namespace Sample

/-! ## Refusals -/

section

variable {R : Type} [Scalar R] {tolerance : R} {xs : List R}

/-- A tolerance that numbers may be merged with. -/
def IsReasonable (tolerance : R) : Prop :=
  Scalar.isFinite tolerance = true ∧ ¬ tolerance < 0.0

instance (tolerance : R) : Decidable (IsReasonable tolerance) :=
  inferInstanceAs (Decidable (_ ∧ _))

theorem not_isReasonable_iff :
    ¬ IsReasonable tolerance ↔ ¬ Scalar.isFinite tolerance = true ∨ tolerance < 0.0 := by
  rw [IsReasonable, not_and_or, not_not]

theorem distinctWithin_of_not_isReasonable (h : ¬ IsReasonable tolerance) :
    distinctWithin tolerance xs = .error (.unreasonableTolerance tolerance) := by
  rw [distinctWithin, if_pos (not_isReasonable_iff.mp h)]

theorem distinctWithin_of_isReasonable (h : IsReasonable tolerance) :
    distinctWithin tolerance xs =
      if xs.all Scalar.isFinite then .ok (representatives tolerance (sorted xs))
      else .error .undefinedValue := by
  rw [distinctWithin, if_neg (mt not_isReasonable_iff.mpr (not_not.mpr h))]

theorem distinctWithin_eq_unreasonable_iff :
    distinctWithin tolerance xs = .error (.unreasonableTolerance tolerance) ↔
      ¬ IsReasonable tolerance := by
  refine ⟨fun h hreasonable => ?_, distinctWithin_of_not_isReasonable⟩
  rw [distinctWithin_of_isReasonable hreasonable] at h
  split at h <;> cases h

theorem distinctWithin_eq_undefined_iff :
    distinctWithin tolerance xs = .error .undefinedValue ↔
      IsReasonable tolerance ∧ ∃ x ∈ xs, Scalar.isFinite x = false := by
  by_cases h : IsReasonable tolerance
  · rw [distinctWithin_of_isReasonable h]
    split
    next hall => simpa [h] using hall
    next hall => simpa [h] using hall
  · simp [distinctWithin_of_not_isReasonable h, h]

theorem exists_distinctWithin_iff :
    (∃ ys, distinctWithin tolerance xs = .ok ys) ↔
      IsReasonable tolerance ∧ ∀ x ∈ xs, Scalar.isFinite x = true := by
  by_cases h : IsReasonable tolerance
  · rw [distinctWithin_of_isReasonable h]
    split
    next hall => simpa [h] using hall
    next hall => simpa [h] using hall
  · simp [distinctWithin_of_not_isReasonable h, h]

/-! ## What is kept -/

theorem thin_sublist (tolerance kept : R) (xs : List R) : (thin tolerance kept xs).Sublist xs := by
  induction xs generalizing kept with
  | nil => exact List.Sublist.slnil
  | cons x xs ih =>
    rw [thin]
    split
    · exact (ih kept).cons x
    · exact (ih x).cons_cons x

theorem representatives_sublist (tolerance : R) (xs : List R) :
    (representatives tolerance xs).Sublist xs := by
  cases xs with
  | nil => exact List.Sublist.slnil
  | cons x xs => exact (thin_sublist tolerance x xs).cons_cons x

end

variable {tolerance : ℝ} {xs ys : List ℝ}

theorem isReasonable_of_nonneg (h : 0 ≤ tolerance) : IsReasonable tolerance :=
  ⟨rfl, by simpa [Scalar.zero_real] using h⟩

/-- Numbers kept of a sample, such that each stands for the numbers from itself up to the
tolerance. Numbers that are farther above it have a larger one to stand for them. -/
structure IsClustering (tolerance : ℝ) (xs ys : List ℝ) : Prop where
  mem : ∀ y ∈ ys, y ∈ xs
  ascending : ys.Pairwise (· < ·)
  apart : ys.Pairwise fun y z => tolerance < z - y
  near : ∀ x ∈ xs, ∃ y, IsGreatest {y | y ∈ ys ∧ y ≤ x} y ∧ x - y ≤ tolerance

namespace IsClustering

theorem congr {xs' : List ℝ} (h : IsClustering tolerance xs ys) (hmem : ∀ x, x ∈ xs' ↔ x ∈ xs) :
    IsClustering tolerance xs' ys where
  mem y hy := (hmem y).mpr (h.mem y hy)
  ascending := h.ascending
  apart := h.apart
  near x hx := h.near x ((hmem x).mp hx)

theorem self (htolerance : 0 ≤ tolerance) (h : IsClustering tolerance xs ys) :
    IsClustering tolerance ys ys where
  mem _ hy := hy
  ascending := h.ascending
  apart := h.apart
  near x hx := ⟨x, ⟨⟨hx, le_rfl⟩, fun _ hy => hy.2⟩, by simpa using htolerance⟩

theorem nil_iff : IsClustering tolerance xs [] ↔ xs = [] := by
  constructor
  · intro h
    refine List.eq_nil_iff_forall_not_mem.mpr fun x hx => ?_
    obtain ⟨y, ⟨⟨hy, -⟩, -⟩, -⟩ := h.near x hx
    exact List.not_mem_nil hy
  · rintro rfl
    constructor <;> simp

/-- The first number kept is the least one. The others are those kept of what lies beyond
the tolerance above it. -/
theorem cons_iff (htolerance : 0 ≤ tolerance) {y : ℝ} :
    IsClustering tolerance xs (y :: ys) ↔
      IsLeast {x | x ∈ xs} y ∧ IsClustering tolerance (xs.filter (y + tolerance < ·)) ys := by
  constructor
  · intro h
    obtain ⟨hfirst, hascending⟩ := List.pairwise_cons.mp h.ascending
    obtain ⟨hfar, hapart⟩ := List.pairwise_cons.mp h.apart
    have hle : ∀ z ∈ y :: ys, y ≤ z :=
      List.forall_mem_cons.mpr ⟨le_rfl, fun z hz => (hfirst z hz).le⟩
    refine ⟨⟨h.mem y List.mem_cons_self, fun x hx => ?_⟩, fun z hz => ?_, hascending, hapart,
      fun x hx => ?_⟩
    · obtain ⟨z, ⟨⟨hz, hzx⟩, -⟩, -⟩ := h.near x hx
      exact (hle z hz).trans hzx
    · refine List.mem_filter.mpr ⟨h.mem z (List.mem_cons_of_mem y hz), decide_eq_true ?_⟩
      linarith [hfar z hz]
    · obtain ⟨hx, hbeyond⟩ := List.mem_filter.mp hx
      have hbeyond : y + tolerance < x := of_decide_eq_true hbeyond
      obtain ⟨z, ⟨⟨hz, hzx⟩, hgreatest⟩, hnear⟩ := h.near x hx
      rcases List.mem_cons.mp hz with rfl | hz
      · linarith
      · exact ⟨z, ⟨⟨hz, hzx⟩, fun w hw => hgreatest ⟨List.mem_cons_of_mem y hw.1, hw.2⟩⟩, hnear⟩
  · rintro ⟨⟨hmem, hleast⟩, h⟩
    have hfar : ∀ z ∈ ys, y + tolerance < z := fun z hz =>
      of_decide_eq_true (List.mem_filter.mp (h.mem z hz)).2
    refine ⟨List.forall_mem_cons.mpr ⟨hmem, fun z hz => List.mem_of_mem_filter (h.mem z hz)⟩,
      List.pairwise_cons.mpr ⟨fun z hz => ?_, h.ascending⟩,
      List.pairwise_cons.mpr ⟨fun z hz => ?_, h.apart⟩, fun x hx => ?_⟩
    · linarith [hfar z hz]
    · linarith [hfar z hz]
    · by_cases hbeyond : y + tolerance < x
      · obtain ⟨z, ⟨⟨hz, hzx⟩, hgreatest⟩, hnear⟩ :=
          h.near x (List.mem_filter.mpr ⟨hx, decide_eq_true hbeyond⟩)
        refine ⟨z, ⟨⟨List.mem_cons_of_mem y hz, hzx⟩, fun w hw => ?_⟩, hnear⟩
        rcases List.mem_cons.mp hw.1 with rfl | hmem
        · linarith [hfar z hz]
        · exact hgreatest ⟨hmem, hw.2⟩
      · refine ⟨y, ⟨⟨List.mem_cons_self, hleast hx⟩, fun w hw => ?_⟩, by linarith⟩
        rcases List.mem_cons.mp hw.1 with rfl | hmem
        · exact le_rfl
        · linarith [hfar w hmem, hw.2]

end IsClustering

/-! ## The pass -/

/-- Of ascending numbers those are dropped that lie within the tolerance above the number
kept last, wherever they stand. -/
theorem thin_eq {kept : ℝ} (hkept : ∀ x ∈ xs, kept ≤ x)
    (hsorted : xs.Pairwise (· ≤ ·)) :
    thin tolerance kept xs = representatives tolerance (xs.filter (kept + tolerance < ·)) := by
  induction xs with
  | nil => rfl
  | cons x xs ih =>
    obtain ⟨hx, hkept⟩ := List.forall_mem_cons.mp hkept
    obtain ⟨hle, hsorted⟩ := List.pairwise_cons.mp hsorted
    have hiff : Scalar.abs (x - kept) ≤ tolerance ↔ x ≤ kept + tolerance := by
      rw [Scalar.abs_real, abs_of_nonneg (sub_nonneg.mpr hx), sub_le_iff_le_add']
    rw [thin]
    split
    next hnear =>
      rw [hiff] at hnear
      rw [List.filter_cons_of_neg (by simpa using hnear), ih hkept hsorted]
    next hfar =>
      rw [hiff] at hfar
      have hall : ∀ z ∈ x :: xs, decide (kept + tolerance < z) = true := by
        refine fun z hz => decide_eq_true ((not_le.mp hfar).trans_le ?_)
        exact List.forall_mem_cons.mpr ⟨le_rfl, hle⟩ z hz
      rw [List.filter_eq_self.mpr hall]
      rfl

/-- The pass through ascending numbers finds a clustering, and there is no other. -/
theorem isClustering_iff_of_pairwise (htolerance : 0 ≤ tolerance) (hsorted : xs.Pairwise (· ≤ ·)) :
    IsClustering tolerance xs ys ↔ ys = representatives tolerance xs := by
  induction hlength : xs.length using Nat.strong_induction_on generalizing xs ys with
  | _ n ih =>
    cases ys with
    | nil =>
      rw [IsClustering.nil_iff]
      cases xs <;> simp [representatives]
    | cons y ys =>
      rw [IsClustering.cons_iff htolerance]
      cases xs with
      | nil => simp [representatives, IsLeast]
      | cons x xs =>
        obtain ⟨hle, hrest⟩ := List.pairwise_cons.mp hsorted
        have hleast : IsLeast {z | z ∈ x :: xs} x :=
          ⟨List.mem_cons_self, List.forall_mem_cons.mpr ⟨le_rfl, hle⟩⟩
        have hshorter : (xs.filter (x + tolerance < ·)).length < n :=
          hlength ▸ Nat.lt_succ_of_le (List.length_filter_le _ _)
        have hself : ¬ x + tolerance < x := by linarith
        rw [representatives, thin_eq hle hrest, List.cons.injEq,
          ← ih _ hshorter (hrest.filter _) rfl]
        constructor
        · rintro ⟨hy, h⟩
          obtain rfl := hy.unique hleast
          rw [List.filter_cons_of_neg (by simpa using hself)] at h
          exact ⟨rfl, h⟩
        · rintro ⟨rfl, h⟩
          rw [List.filter_cons_of_neg (by simpa using hself)]
          exact ⟨hleast, h⟩

/-! ## Merged numbers -/

theorem distinctWithin_eq_ok_iff (htolerance : 0 ≤ tolerance) :
    distinctWithin tolerance xs = .ok ys ↔ IsClustering tolerance xs ys := by
  have hsorted := isStableSort_sorted xs
  have hmem (x : ℝ) : x ∈ sorted xs ↔ x ∈ xs := hsorted.perm.mem_iff
  rw [distinctWithin_of_isReasonable (isReasonable_of_nonneg htolerance), if_pos (by simp),
    Except.ok.injEq, eq_comm,
    ← isClustering_iff_of_pairwise htolerance
      (hsorted.ascending.imp fun h => Scalar.isLE_order_real.mp h)]
  exact ⟨fun h => h.congr fun x => (hmem x).symm, fun h => h.congr hmem⟩

/-- Merging fails if the tolerance is negative or not finite, and otherwise if a number is
not finite. Of real numbers it keeps a strictly ascending part that is determined by two
properties: any two numbers kept differ by more than the tolerance, and every number lies
within the tolerance above the largest one kept that does not exceed it. So it depends on
which numbers occur, but not on their order or how often they do, and what is kept stays
when it is merged again. -/
theorem distinctWithin_canonical :
    (∀ {R : Type} [Scalar R] (tolerance : R) (xs : List R),
      (distinctWithin tolerance xs = .error (.unreasonableTolerance tolerance) ↔
        ¬ IsReasonable tolerance) ∧
      (distinctWithin tolerance xs = .error .undefinedValue ↔
        IsReasonable tolerance ∧ ∃ x ∈ xs, Scalar.isFinite x = false) ∧
      ((∃ ys, distinctWithin tolerance xs = .ok ys) ↔
        IsReasonable tolerance ∧ ∀ x ∈ xs, Scalar.isFinite x = true)) ∧
    ∀ (tolerance : ℝ) (xs : List ℝ), 0 ≤ tolerance → ∃ ys,
      distinctWithin tolerance xs = .ok ys ∧
      ys.Sublist (sorted xs) ∧ IsClustering tolerance xs ys ∧
      (∀ zs, IsClustering tolerance xs zs → zs = ys) ∧
      (∀ xs', (∀ x, x ∈ xs' ↔ x ∈ xs) → distinctWithin tolerance xs' = .ok ys) ∧
      distinctWithin tolerance ys = .ok ys := by
  refine ⟨fun tolerance xs => ⟨distinctWithin_eq_unreasonable_iff, distinctWithin_eq_undefined_iff,
    exists_distinctWithin_iff⟩, fun tolerance xs htolerance => ?_⟩
  have hreasonable := isReasonable_of_nonneg htolerance
  obtain ⟨ys, hys⟩ : ∃ ys, distinctWithin tolerance xs = .ok ys :=
    exists_distinctWithin_iff.mpr ⟨hreasonable, fun _ _ => rfl⟩
  have hclustering := (distinctWithin_eq_ok_iff htolerance).mp hys
  refine ⟨ys, hys, ?_, hclustering, fun zs hzs => ?_, fun xs' hxs' => ?_, ?_⟩
  · rw [distinctWithin_of_isReasonable hreasonable, if_pos (by simp), Except.ok.injEq] at hys
    exact hys ▸ representatives_sublist tolerance (sorted xs)
  · rw [← distinctWithin_eq_ok_iff htolerance, hys, Except.ok.injEq] at hzs
    exact hzs.symm
  · exact (distinctWithin_eq_ok_iff htolerance).mpr (hclustering.congr hxs')
  · exact (distinctWithin_eq_ok_iff htolerance).mpr (hclustering.self htolerance)

/-- Numbers in steps of the tolerance are not all merged. Of two faults the tolerance is
reported. -/
theorem distinctWithin_canonical_steps :
    (0 : ℝ) ≤ 1 ∧ distinctWithin (1 : ℝ) [3, 1, 0, 2, 1] = .ok [0, 2] ∧
    distinctWithin (1 : ℝ) [0, 2] = .ok [0, 2] ∧
    distinctWithin (-1.0 : Float) [0.0 / 0.0] = .error (.unreasonableTolerance (-1.0)) ∧
    distinctWithin (1.0 : Float) [0.0 / 0.0] = .error .undefinedValue := by
  obtain ⟨hrefused, hmerged⟩ := distinctWithin_canonical
  have hone : (0 : ℝ) ≤ 1 := zero_le_one
  have hlow {x : ℝ} (hx : 0 ≤ x) (hx' : x ≤ 1) :
      ∃ y, IsGreatest {y | y ∈ [0, 2] ∧ y ≤ x} y ∧ x - y ≤ 1 := by
    refine ⟨0, ⟨⟨by simp, hx⟩, fun y hy => ?_⟩, by linarith⟩
    have hy' : y = 0 ∨ y = 2 := by simpa using hy.1
    rcases hy' with rfl | rfl
    · exact le_rfl
    · linarith [hy.2]
  have hhigh {x : ℝ} (hx : 2 ≤ x) (hx' : x ≤ 3) :
      ∃ y, IsGreatest {y | y ∈ [0, 2] ∧ y ≤ x} y ∧ x - y ≤ 1 := by
    refine ⟨2, ⟨⟨by simp, hx⟩, fun y hy => ?_⟩, by linarith⟩
    have hy' : y = 0 ∨ y = 2 := by simpa using hy.1
    rcases hy' with rfl | rfl <;> norm_num
  have hsteps : IsClustering (1 : ℝ) [3, 1, 0, 2, 1] [0, 2] := by
    constructor
    · simp
    · simp
    · norm_num
    · simp only [List.forall_mem_cons]
      exact ⟨hhigh (by norm_num) le_rfl, hlow (by norm_num) le_rfl, hlow le_rfl (by norm_num),
        hhigh le_rfl (by norm_num), hlow (by norm_num) le_rfl, by simp⟩
  obtain ⟨ys, hys, -, -, hunique, -, hagain⟩ := hmerged 1 [3, 1, 0, 2, 1] hone
  obtain rfl := hunique _ hsteps
  exact ⟨hone, hys, hagain, (hrefused _ _).1.mpr (by decide +kernel),
    (hrefused _ _).2.1.mpr (by decide +kernel)⟩

end Sample

end DiscreteOrdinates
