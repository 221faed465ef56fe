import DiscreteOrdinates.Proofs.Quadrature.Rows
import DiscreteOrdinates.Proofs.Sorting
import DiscreteOrdinates.Sweep.Basic

/-!
# Arrangements

What the steps of an arrangement leave of the ordinates: sorting keeps them and
puts them in sweep order, doubling and collapsing keep weights nonnegative, and
every sweep through a curvilinear geometry is a sorted list with starts.
-/

namespace DiscreteOrdinates

theorem Quadrature.weight_arrange (dimension : ℕ) (row : Ordinate ℝ) :
    (Quadrature.arrange dimension row).weight = row.weight := by
  unfold Quadrature.arrange
  split <;> rfl

theorem Quadrature.map_weight_ordinates (q : Quadrature ℝ) :
    q.ordinates.map (·.weight) = q.table.wt := by
  rw [← q.table.map_weight_rows, Quadrature.ordinates, List.map_map]
  exact List.map_congr_left fun row _ => Quadrature.weight_arrange q.dimension row

theorem Quadrature.weight_nonneg {q : Quadrature ℝ} (h : ∀ w ∈ q.table.wt, 0 ≤ w)
    {o : Ordinate ℝ} (ho : o ∈ q.ordinates) : 0 ≤ o.weight := by
  apply h
  rw [← q.map_weight_ordinates]
  exact List.mem_map_of_mem ho

/-- The ordinates of a set of two cosines. -/
theorem Quadrature.ordinates_of_line {q : Quadrature ℝ} {x y v w : ℝ} (hdimension : q.dimension = 1)
    (htable : q.table = { mu := [x, y], wt := [v, w] }) :
    q.ordinates = [⟨x, 0, 0, v⟩, ⟨y, 0, 0, w⟩] := by
  simp [ordinates, hdimension, htable, DirectionTable.rows, DirectionTable.row, arrange,
    Scalar.zero_real, List.range_succ]

namespace Ordinate

theorem isStart_iff {o : Ordinate ℝ} : o.isStart = true ↔ o.weight = 0 := by
  rw [isStart, beq_iff_eq, Scalar.zero_real]

/-! ## Sorting -/

/-- Whether `a` may stand in front of `b` in a sweep: levels ascend, and cosines
within a level. -/
def SweepLE (a b : Ordinate ℝ) : Prop :=
  a.z < b.z ∨ (a.z = b.z ∧ a.x ≤ b.x)

theorem SweepLE.z_le {a b : Ordinate ℝ} (h : SweepLE a b) : a.z ≤ b.z := by
  rcases h with h | ⟨h, -⟩
  · exact h.le
  · exact h.le

theorem isLE_sweepOrder {a b : Ordinate ℝ} : (sweepOrder a b).isLE = true ↔ SweepLE a b := by
  unfold SweepLE
  rw [sweepOrder, Scalar.order_real a.z b.z]
  rcases lt_trichotomy a.z b.z with h | h | h
  · rw [compare_lt_iff_lt.mpr h]
    simp [h]
  · rw [compare_eq_iff_eq.mpr h, Ordering.eq_then, Scalar.isLE_order_real]
    simp [h]
  · rw [compare_gt_iff_gt.mpr h]
    simp [h.le, h.ne']

theorem pairwise_sorted (os : List (Ordinate ℝ)) : (sorted os).Pairwise SweepLE :=
  (isStableSort_sorted os).ascending.imp isLE_sweepOrder.mp

theorem sorted_perm (os : List (Ordinate ℝ)) : (sorted os).Perm os :=
  List.mergeSort_perm _ _

/-! ## Collapsing -/

section

variable {p : ℝ → Prop} (hadd : ∀ v w, p v → p w → p (v + w))

include hadd

/-- What is collapsed lies on the `x` axis, and its weight has what sums of weights
inherit. -/
theorem of_mem_gather {x w : ℝ} {os : List (Ordinate ℝ)} {o : Ordinate ℝ} (ho : o ∈ gather x w os) :
    o.z = 0 ∧ (p w → (∀ a ∈ os, p a.weight) → p o.weight) := by
  induction os generalizing x w with
  | nil =>
    rw [gather, List.mem_singleton] at ho
    subst ho
    exact ⟨Scalar.zero_real, fun hw _ => hw⟩
  | cons a os ih =>
    rw [gather] at ho
    split at ho
    · obtain ⟨hz, hweight⟩ := ih ho
      refine ⟨hz, fun hw hos => ?_⟩
      obtain ⟨ha, hos⟩ := List.forall_mem_cons.mp hos
      exact hweight (hadd _ _ hw ha) hos
    · rcases List.mem_cons.mp ho with rfl | ho
      · exact ⟨Scalar.zero_real, fun hw _ => hw⟩
      · obtain ⟨hz, hweight⟩ := ih ho
        refine ⟨hz, fun _ hos => ?_⟩
        obtain ⟨ha, hos⟩ := List.forall_mem_cons.mp hos
        exact hweight ha hos

theorem of_mem_collapse {os : List (Ordinate ℝ)} {o : Ordinate ℝ} (ho : o ∈ collapse os) :
    o.z = 0 ∧ ((∀ a ∈ os, p a.weight) → p o.weight) := by
  unfold collapse at ho
  split at ho
  · simp at ho
  next a as h =>
    obtain ⟨hz, hweight⟩ := of_mem_gather hadd ho
    refine ⟨hz, fun hos => ?_⟩
    have hperm : (a :: as).Perm os := h ▸ List.mergeSort_perm _ _
    obtain ⟨ha, has⟩ := List.forall_mem_cons.mp fun o ho => hos o (hperm.subset ho)
    exact hweight ha has

end

theorem z_of_mem_collapse {os : List (Ordinate ℝ)} {o : Ordinate ℝ} (ho : o ∈ collapse os) :
    o.z = 0 :=
  (of_mem_collapse (p := fun _ => True) (fun _ _ _ _ => trivial) ho).1

/-- Ascending cosines are collapsed from the first one on, and stay ascending. -/
theorem ascending_gather {x w : ℝ} {os : List (Ordinate ℝ)} (hsorted : os.Pairwise (·.x ≤ ·.x))
    (hx : ∀ o ∈ os, x ≤ o.x) :
    (∀ o ∈ gather x w os, x ≤ o.x) ∧ (gather x w os).Pairwise (·.x ≤ ·.x) := by
  induction os generalizing x w with
  | nil => simp [gather]
  | cons a os ih =>
    obtain ⟨hxa, hxs⟩ := List.forall_mem_cons.mp hx
    obtain ⟨has, hsorted⟩ := List.pairwise_cons.mp hsorted
    rw [gather]
    split
    · exact ih hsorted hxs
    · obtain ⟨hfirst, hrest⟩ := @ih a.x a.weight hsorted has
      have hlater : ∀ o ∈ gather a.x a.weight os, x ≤ o.x := fun o ho => hxa.trans (hfirst o ho)
      exact ⟨List.forall_mem_cons.mpr ⟨le_refl x, hlater⟩, List.pairwise_cons.mpr ⟨hlater, hrest⟩⟩

/-- Collapsing starts by putting the cosines in ascending order. -/
theorem pairwise_byCosine (os : List (Ordinate ℝ)) :
    (os.mergeSort fun a b => (Scalar.order a.x b.x).isLE).Pairwise (·.x ≤ ·.x) :=
  (isStableSort_mergeSort os).ascending.imp Scalar.isLE_order_real.mp

theorem pairwise_collapse (os : List (Ordinate ℝ)) : (collapse os).Pairwise SweepLE := by
  have hsorted := pairwise_byCosine os
  have hascending : (collapse os).Pairwise (·.x ≤ ·.x) := by
    unfold collapse
    split
    · exact .nil
    next a as h =>
      rw [h] at hsorted
      obtain ⟨ha, has⟩ := List.pairwise_cons.mp hsorted
      exact (ascending_gather has ha).2
  refine hascending.imp_of_mem fun ha hb hab => .inr ⟨?_, hab⟩
  rw [z_of_mem_collapse ha, z_of_mem_collapse hb]

end Ordinate

namespace SweepSet

open Ordinate

theorem ofQuadrature_eq_ok {q : Quadrature ℝ} {geometry : Geometry} {meshDimension : ℕ}
    {s : SweepSet ℝ} (h : ofQuadrature q geometry meshDimension = .ok s) :
    arrange q geometry meshDimension = some s.ordinates ∧ s.geometry = geometry ∧
      s.norm = q.norm := by
  unfold ofQuadrature at h
  split at h
  next os harrange =>
    cases h
    exact ⟨harrange, rfl, rfl⟩
  next => cases h

/-! ## Sweeps without starts -/

section

variable {R : Type} [Scalar R]

/-- Ordinates in the plane, arranged for a mesh but without starts. -/
def planarUnstarted (os : List (Ordinate R)) (geometry : Geometry) (meshDimension : ℕ) :
    Option (List (Ordinate R)) :=
  match geometry, meshDimension with
  | .cartesian, 2 => some os
  | .axisymmetric, 2 => some (sorted os)
  | .cartesian, 1 => some (collapse os)
  | .spherical, 1 => some (collapse os)
  | .axisymmetric, 1 => some (sorted (upper os))
  | _, _ => none

/-- Ordinates on a line, arranged for a mesh but without starts. -/
def linearUnstarted (os : List (Ordinate R)) (geometry : Geometry) : Option (List (Ordinate R)) :=
  match geometry with
  | .cartesian => some os
  | .spherical => some (sorted os)
  | .axisymmetric => none

/-- The ordinates of a set, arranged for a mesh but without starts. -/
def unstarted (q : Quadrature R) (geometry : Geometry) (meshDimension : ℕ) :
    Option (List (Ordinate R)) :=
  if meshDimension = 0 ∨ q.dimension < meshDimension then none
  else
    match q.dimension, meshDimension with
    | 1, _ => linearUnstarted q.ordinates geometry
    | 3, 3 => if geometry = .cartesian then some q.ordinates else none
    | 3, _ => planarUnstarted ((upper q.ordinates).map flatten) geometry meshDimension
    | _, _ => planarUnstarted q.ordinates geometry meshDimension

/-- The starts that a geometry adds. -/
def addStarts (geometry : Geometry) (os : List (Ordinate R)) : List (Ordinate R) :=
  if geometry.isCurvilinear then withStarts os else os

theorem planar_eq_map (os : List (Ordinate R)) (geometry : Geometry) (meshDimension : ℕ) :
    planar os geometry meshDimension =
      (planarUnstarted os geometry meshDimension).map (addStarts geometry) := by
  cases geometry <;> rcases meshDimension with _ | _ | _ | n <;> rfl

theorem linear_eq_map (os : List (Ordinate R)) (geometry : Geometry) :
    linear os geometry = (linearUnstarted os geometry).map (addStarts geometry) := by
  cases geometry <;> rfl

/-- Starts are the last thing that an arrangement adds. -/
theorem arrange_eq_map (q : Quadrature R) (geometry : Geometry) (meshDimension : ℕ) :
    arrange q geometry meshDimension =
      (unstarted q geometry meshDimension).map (addStarts geometry) := by
  unfold arrange unstarted
  split
  · rfl
  · generalize q.dimension = n
    split
    · exact linear_eq_map q.ordinates geometry
    · cases geometry <;> rfl
    next hmesh =>
      rcases meshDimension with _ | _ | _ | _ | k
      case succ.succ.succ.zero => exact (hmesh rfl).elim
      all_goals exact planar_eq_map _ _ _
    next hline hspace _ =>
      rcases n with _ | _ | _ | _ | n
      case succ.zero => exact (hline rfl).elim
      case succ.succ.succ.zero => exact (hspace rfl).elim
      all_goals exact planar_eq_map _ _ _

end

/-! ## Weights -/

section

variable {p : ℝ → Prop} (hadd : ∀ v w, p v → p w → p (v + w))

include hadd

theorem weight_of_mem_upper {os : List (Ordinate ℝ)} (hos : ∀ o ∈ os, p o.weight) :
    ∀ o ∈ upper os, p o.weight := by
  intro o ho
  obtain ⟨a, ha, rfl⟩ := List.mem_map.mp ho
  have hweight := hos a (List.mem_of_mem_filter ha)
  rw [Scalar.two_real, two_mul]
  exact hadd _ _ hweight hweight

theorem weight_of_mem_planarUnstarted {os swept : List (Ordinate ℝ)} {geometry : Geometry}
    {meshDimension : ℕ} (h : planarUnstarted os geometry meshDimension = some swept)
    (hos : ∀ o ∈ os, p o.weight) : ∀ o ∈ swept, p o.weight := by
  unfold planarUnstarted at h
  split at h
  · cases h
    exact hos
  · cases h
    exact fun o ho => hos o ((sorted_perm os).subset ho)
  · cases h
    exact fun o ho => (of_mem_collapse hadd ho).2 hos
  · cases h
    exact fun o ho => (of_mem_collapse hadd ho).2 hos
  · cases h
    exact fun o ho => weight_of_mem_upper hadd hos o ((sorted_perm _).subset ho)
  · cases h

/-- The weights of an arrangement are those of the set and sums of them. -/
theorem weight_of_mem_unstarted {q : Quadrature ℝ} {geometry : Geometry} {meshDimension : ℕ}
    {swept : List (Ordinate ℝ)} (h : unstarted q geometry meshDimension = some swept)
    (hq : ∀ o ∈ q.ordinates, p o.weight) : ∀ o ∈ swept, p o.weight := by
  unfold unstarted at h
  split at h
  · cases h
  · split at h
    · cases geometry with
      | cartesian =>
        cases h
        exact hq
      | axisymmetric => cases h
      | spherical =>
        cases h
        exact fun o ho => hq o ((sorted_perm _).subset ho)
    · split at h
      · cases h
        exact hq
      · cases h
    · refine weight_of_mem_planarUnstarted hadd h fun o ho => ?_
      obtain ⟨a, ha, rfl⟩ := List.mem_map.mp ho
      exact weight_of_mem_upper hadd hq a ha
    · exact weight_of_mem_planarUnstarted hadd h hq

end

/-! ## Curvilinear sweeps -/

/-- What becomes of ordinates in a curvilinear geometry before they get their
starts. On a sphere there is one level. -/
structure IsUnstarted (geometry : Geometry) (os unstarted : List (Ordinate ℝ)) : Prop where
  pairwise : unstarted.Pairwise SweepLE
  level : geometry = .spherical → ∀ o ∈ unstarted, o.z = 0
  weights : (∀ o ∈ os, 0 ≤ o.weight) → ∀ o ∈ unstarted, 0 ≤ o.weight

theorem inOrder_of_planarUnstarted {os swept : List (Ordinate ℝ)} {geometry : Geometry}
    {meshDimension : ℕ} (hgeometry : geometry.isCurvilinear)
    (h : planarUnstarted os geometry meshDimension = some swept) :
    swept.Pairwise SweepLE ∧ (geometry = .spherical → ∀ o ∈ swept, o.z = 0) := by
  unfold planarUnstarted at h
  split at h
  · simp [Geometry.isCurvilinear] at hgeometry
  · cases h
    exact ⟨pairwise_sorted _, by simp⟩
  · simp [Geometry.isCurvilinear] at hgeometry
  · cases h
    exact ⟨pairwise_collapse _, fun _ _ ho => z_of_mem_collapse ho⟩
  · cases h
    exact ⟨pairwise_sorted _, by simp⟩
  · cases h

theorem isUnstarted_of_unstarted {q : Quadrature ℝ} {geometry : Geometry} {meshDimension : ℕ}
    {swept : List (Ordinate ℝ)} (hgeometry : geometry.isCurvilinear)
    (h : unstarted q geometry meshDimension = some swept) :
    IsUnstarted geometry q.ordinates swept := by
  obtain ⟨hpairwise, hlevel⟩ :
      swept.Pairwise SweepLE ∧ (geometry = .spherical → ∀ o ∈ swept, o.z = 0) := by
    unfold unstarted at h
    split at h
    · cases h
    · split at h
      next hdimension _ =>
        have hline : ∀ o ∈ q.ordinates, o.z = 0 := by
          intro o ho
          rw [Quadrature.ordinates, hdimension] at ho
          obtain ⟨row, -, rfl⟩ := List.mem_map.mp ho
          exact Scalar.zero_real
        cases geometry with
        | cartesian => simp [Geometry.isCurvilinear] at hgeometry
        | axisymmetric => cases h
        | spherical =>
          cases h
          exact ⟨pairwise_sorted _, fun _ o ho => hline o ((sorted_perm _).subset ho)⟩
      · split at h
        next hcartesian => simp [Geometry.isCurvilinear, hcartesian] at hgeometry
        next => cases h
      · exact inOrder_of_planarUnstarted hgeometry h
      · exact inOrder_of_planarUnstarted hgeometry h
  exact ⟨hpairwise, hlevel, weight_of_mem_unstarted (fun _ _ => add_nonneg) h⟩

/-- In a curvilinear geometry every sweep is in order and has its starts. -/
theorem exists_isUnstarted {q : Quadrature ℝ} {geometry : Geometry} {meshDimension : ℕ}
    {swept : List (Ordinate ℝ)} (hgeometry : geometry.isCurvilinear)
    (h : arrange q geometry meshDimension = some swept) :
    ∃ unstarted, swept = withStarts unstarted ∧ IsUnstarted geometry q.ordinates unstarted := by
  rw [arrange_eq_map, Option.map_eq_some_iff] at h
  obtain ⟨os, hos, rfl⟩ := h
  exact ⟨os, if_pos hgeometry, isUnstarted_of_unstarted hgeometry hos⟩

end SweepSet

end DiscreteOrdinates
