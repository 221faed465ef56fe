import Mathlib
import DiscreteOrdinates.Moments.Index

/-!
# Candidates for moments

The order in which moments are visited: by degree, and by order within a degree.
The shells that a dimension resolves are strictly increasing in it and leave
none of its moments out.
-/

namespace DiscreteOrdinates

namespace MomentIndex

/-- A smaller degree comes first, and of two orders of one degree the smaller. -/
def Precedes (a b : MomentIndex) : Prop :=
  a.l < b.l ∨ a.l = b.l ∧ a.k < b.k

instance (a b : MomentIndex) : Decidable (a.Precedes b) :=
  inferInstanceAs (Decidable (_ ∨ _))

theorem Precedes.irrefl (a : MomentIndex) : ¬ a.Precedes a := by
  rintro (h | ⟨-, h⟩)
  · exact lt_irrefl _ h
  · exact lt_irrefl _ h

theorem mem_shell {l : ℕ} {i : MomentIndex} : i ∈ shell l ↔ i.l = l ∧ i.isValid := by
  obtain ⟨il, ik⟩ := i
  simp only [shell, isValid, List.mem_map, List.mem_range, mk.injEq, decide_eq_true_eq]
  constructor
  · rintro ⟨p, hp, rfl, rfl⟩
    exact ⟨rfl, by omega⟩
  · rintro ⟨rfl, h⟩
    exact ⟨(ik + il).toNat, by omega, rfl, by omega⟩

theorem mem_resolvedShell {dimension l : ℕ} {i : MomentIndex} :
    i ∈ resolvedShell dimension l ↔ i.l = l ∧ i.isValid ∧ i.isResolvedIn dimension := by
  obtain ⟨il, ik⟩ := i
  unfold resolvedShell isResolvedIn
  split
  · simp only [List.mem_singleton, mk.injEq, isValid, beq_iff_eq, decide_eq_true_eq]
    omega
  · simp only [List.mem_map, List.mem_range, mk.injEq, isValid, decide_eq_true_eq]
    constructor
    · rintro ⟨k, hk, rfl, rfl⟩
      omega
    · rintro ⟨rfl, h, h₀⟩
      exact ⟨ik.toNat, by omega, rfl, by omega⟩
  · simp [mem_shell]

theorem pairwise_shell (l : ℕ) : (shell l).Pairwise Precedes := by
  apply List.Pairwise.map _ _ List.pairwise_lt_range
  intro a b h
  exact Or.inr ⟨rfl, by simpa using h⟩

theorem pairwise_resolvedShell (dimension l : ℕ) :
    (resolvedShell dimension l).Pairwise Precedes := by
  unfold resolvedShell
  split
  · exact List.pairwise_singleton _ _
  · apply List.Pairwise.map _ _ List.pairwise_lt_range
    intro a b h
    exact Or.inr ⟨rfl, by simpa using h⟩
  · exact pairwise_shell l

/-! ## All shells below a degree -/

theorem mem_resolvedBelow {dimension n : ℕ} {i : MomentIndex} :
    i ∈ resolvedBelow dimension n ↔ i.l < n ∧ i.isValid ∧ i.isResolvedIn dimension := by
  simp only [resolvedBelow, List.mem_flatMap, List.mem_range, mem_resolvedShell]
  constructor
  · rintro ⟨l, hl, rfl, h⟩
    exact ⟨hl, h⟩
  · rintro ⟨hl, h⟩
    exact ⟨i.l, hl, rfl, h⟩

theorem pairwise_resolvedBelow (dimension n : ℕ) :
    (resolvedBelow dimension n).Pairwise Precedes := by
  rw [resolvedBelow, List.pairwise_flatMap]
  refine ⟨fun l _ => pairwise_resolvedShell dimension l, ?_⟩
  apply List.pairwise_lt_range.imp
  intro l l' h a ha b hb
  rw [mem_resolvedShell] at ha hb
  exact Or.inl (by omega)

end MomentIndex

end DiscreteOrdinates
