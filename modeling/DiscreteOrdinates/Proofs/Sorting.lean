import Mathlib
import DiscreteOrdinates.Sweep.Level

/-!
# Sorting

What a stable sort leaves of a list, and the sorted lists of the library as such. A sort
by more than one number also sorts the first of them, so the cosines of sorted ordinates
are the sorted cosines.
-/

namespace DiscreteOrdinates

/-! ## Stable sorts -/

section

variable {α : Type} {cmp : α → α → Ordering}

/-- The elements of `xs` in ascending order, where those that compare equal stand in the
order in which `xs` has them. -/
structure IsStableSort (cmp : α → α → Ordering) (xs ys : List α) : Prop where
  perm : ys.Perm xs
  ascending : ys.Pairwise fun a b => (cmp a b).isLE = true
  stable : ∀ a, ys.filter (cmp a · == .eq) = xs.filter (cmp a · == .eq)

theorem isStableSort_mergeSort [Std.TransCmp cmp] (xs : List α) :
    IsStableSort cmp xs (xs.mergeSort fun a b => (cmp a b).isLE) := by
  have htrans : ∀ a b c, (cmp a b).isLE = true → (cmp b c).isLE = true → (cmp a c).isLE = true :=
    fun _ _ _ => Std.TransCmp.isLE_trans
  have htotal : ∀ a b, ((cmp a b).isLE || (cmp b a).isLE) = true := by
    intro a b
    have hswap : cmp b a = (cmp a b).swap := Std.OrientedCmp.eq_swap
    rw [hswap]
    cases cmp a b <;> rfl
  have hperm := List.mergeSort_perm xs fun a b => (cmp a b).isLE
  refine ⟨hperm, List.pairwise_mergeSort htrans htotal xs, fun a => ?_⟩
  -- What compares equal to `a` is in order already, and so is kept as a sublist.
  have hequal : (xs.filter (cmp a · == .eq)).Pairwise fun b c => (cmp b c).isLE = true := by
    refine List.pairwise_of_forall_mem_list fun b hb c hc => ?_
    have hab := beq_iff_eq.mp (List.mem_filter.mp hb).2
    have hac := beq_iff_eq.mp (List.mem_filter.mp hc).2
    rw [Std.TransCmp.eq_trans (Std.OrientedCmp.eq_symm hab) hac]
    rfl
  have hsublist := (List.sublist_mergeSort htrans htotal hequal List.filter_sublist).filter
    (cmp a · == .eq)
  simp only [List.filter_filter, Bool.and_self] at hsublist
  exact (hsublist.eq_of_length (hperm.filter _).length_eq.symm).symm

/-- The first element of a list in ascending order compares less than or equal to all. -/
theorem isLE_head_of_mem [Std.ReflCmp cmp] {x y : α} {xs : List α}
    (h : (x :: xs).Pairwise fun a b => (cmp a b).isLE = true) (hy : y ∈ x :: xs) :
    (cmp x y).isLE = true := by
  rcases List.mem_cons.mp hy with rfl | hy
  · exact Std.ReflCmp.isLE_rfl
  · exact List.rel_of_pairwise_cons h hy

theorem eq_of_perm_of_stable [Std.TransCmp cmp] {xs ys : List α} (hperm : xs.Perm ys)
    (hxs : xs.Pairwise fun a b => (cmp a b).isLE = true)
    (hys : ys.Pairwise fun a b => (cmp a b).isLE = true)
    (hstable : ∀ a, xs.filter (cmp a · == .eq) = ys.filter (cmp a · == .eq)) : xs = ys := by
  induction xs generalizing ys with
  | nil => exact hperm.nil_eq
  | cons x xs ih =>
    cases ys with
    | nil => exact absurd hperm.symm (List.not_perm_nil_cons x xs)
    | cons y ys =>
      -- The first elements compare equal, so both come first among what compares equal to them.
      have heq : cmp x y = .eq := Std.OrientedCmp.isLE_antisymm
        (isLE_head_of_mem hxs (hperm.mem_iff.mpr List.mem_cons_self))
        (isLE_head_of_mem hys (hperm.mem_iff.mp List.mem_cons_self))
      have hself : cmp x x = .eq := Std.ReflCmp.compare_self
      have hfirst := hstable x
      simp only [List.filter_cons, hself, heq, BEq.rfl, if_pos] at hfirst
      obtain rfl : x = y := (List.cons.inj hfirst).1
      refine congrArg (x :: ·) (ih hperm.cons_inv hxs.of_cons hys.of_cons fun a => ?_)
      have hrest := hstable a
      rw [List.filter_cons, List.filter_cons] at hrest
      split at hrest
      · exact (List.cons.inj hrest).2
      · exact hrest

/-- Elements that compare equal are told apart by their order, so there is one stable sort. -/
theorem IsStableSort.unique [Std.TransCmp cmp] {xs ys zs : List α} (hys : IsStableSort cmp xs ys)
    (hzs : IsStableSort cmp xs zs) : ys = zs :=
  eq_of_perm_of_stable (hys.perm.trans hzs.perm.symm) hys.ascending hzs.ascending
    fun a => (hys.stable a).trans (hzs.stable a).symm

/-- If the order tells elements apart, they can be sorted in one way only. -/
theorem eq_of_perm_of_ascending [Std.OrientedCmp cmp] [Std.LawfulEqCmp cmp] {xs ys : List α}
    (hperm : xs.Perm ys) (hxs : xs.Pairwise fun a b => (cmp a b).isLE = true)
    (hys : ys.Pairwise fun a b => (cmp a b).isLE = true) : xs = ys := by
  refine hperm.eq_of_pairwise (fun a b _ _ hab hba => ?_) hxs hys
  exact Std.LawfulEqCmp.eq_of_compare (Std.OrientedCmp.isLE_antisymm hab hba)

theorem transCmp_comap {β : Type} [Std.TransCmp cmp] (f : β → α) :
    Std.TransCmp fun a b => cmp (f a) (f b) where
  eq_swap := Std.OrientedCmp.eq_swap
  isLE_trans := Std.TransCmp.isLE_trans

end

/-! ## Sorted ordinates -/

section

variable {R : Type} [Scalar R] [Std.TransCmp (Scalar.order : R → R → Ordering)]

instance : Std.TransCmp fun a b : Ordinate R => Scalar.order a.z b.z :=
  transCmp_comap Ordinate.z

instance : Std.TransCmp fun a b : Ordinate R => Scalar.order a.x b.x :=
  transCmp_comap Ordinate.x

instance : Std.TransCmp (Ordinate.sweepOrder : Ordinate R → Ordinate R → Ordering) :=
  inferInstanceAs <| Std.TransCmp <| compareLex
    (fun a b : Ordinate R => Scalar.order a.z b.z) fun a b => Scalar.order a.x b.x

theorem Ordinate.isStableSort_sorted (os : List (Ordinate R)) :
    IsStableSort sweepOrder os (sorted os) :=
  isStableSort_mergeSort os

theorem Sample.isStableSort_sorted (xs : List R) : IsStableSort Scalar.order xs (sorted xs) :=
  isStableSort_mergeSort xs

variable [Std.LawfulEqCmp (Scalar.order : R → R → Ordering)]

theorem Sample.sorted_congr {xs ys : List R} (h : xs.Perm ys) : sorted xs = sorted ys := by
  have hxs := isStableSort_sorted xs
  have hys := isStableSort_sorted ys
  exact eq_of_perm_of_ascending (hxs.perm.trans (h.trans hys.perm.symm)) hxs.ascending hys.ascending

/-- The levels of sorted ordinates ascend. -/
theorem Ordinate.map_z_sorted (os : List (Ordinate R)) :
    (sorted os).map (·.z) = Sample.sorted (os.map (·.z)) := by
  have hsorted := isStableSort_sorted os
  have hsample := Sample.isStableSort_sorted (os.map (·.z))
  have hascending : ((sorted os).map (·.z)).Pairwise fun x y => (Scalar.order x y).isLE = true := by
    refine List.pairwise_map.mpr (hsorted.ascending.imp fun hab => ?_)
    exact (Ordering.isLE_then_iff_and.mp hab).1
  exact eq_of_perm_of_ascending ((hsorted.perm.map _).trans hsample.perm.symm) hascending
    hsample.ascending

end

end DiscreteOrdinates
