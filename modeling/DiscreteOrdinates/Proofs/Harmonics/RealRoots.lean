import DiscreteOrdinates.Proofs.Harmonics.Orthogonality

/-!
# Roots of the Legendre polynomials

A Legendre polynomial has as many distinct real roots as its degree: by Rolle's theorem a
derivative loses at most one of the roots of a power of `x² - 1`. They come in pairs of a
positive root and its negative, with zero among them in an odd degree.
-/

namespace DiscreteOrdinates

namespace Legendre

open Polynomial

theorem card_roots_le_iterate_derivative (p : ℝ[X]) (n : ℕ) :
    p.roots.card ≤ (derivative^[n] p).roots.card + n := by
  induction n with
  | zero => exact le_rfl
  | succ n ih =>
    have hrolle := card_roots_le_derivative (derivative^[n] p)
    rw [Function.iterate_succ_apply']
    omega

theorem card_roots_pow (n : ℕ) : ((X ^ 2 - 1 : ℝ[X]) ^ n).roots.card = 2 * n := by
  have hsplit : (X ^ 2 - 1 : ℝ[X]) = (X - C 1) * (X - C (-1)) := by
    simp only [C_neg, C_1]
    ring
  rw [roots_pow, Multiset.card_nsmul, hsplit, roots_mul (mul_ne_zero (X_sub_C_ne_zero _)
    (X_sub_C_ne_zero _)), roots_X_sub_C, roots_X_sub_C, Multiset.card_add, Multiset.card_singleton,
    Multiset.card_singleton, mul_comm]

theorem card_roots_rodrigues (n : ℕ) : (rodrigues n).roots.card = n := by
  apply le_antisymm
  · exact (card_roots' _).trans (natDegree_rodrigues_le n)
  · -- Of the `2 n` roots of the power, `n` derivatives lose at most `n`.
    have hscale : scale n ≠ 0 := by
      rw [scale]
      positivity
    have hrolle := card_roots_le_iterate_derivative ((X ^ 2 - 1 : ℝ[X]) ^ n) n
    rw [card_roots_pow, ← roots_C_mul _ hscale, ← rodrigues] at hrolle
    omega

theorem nodup_roots_rodrigues (n : ℕ) : (rodrigues n).roots.Nodup := by
  rw [Multiset.nodup_iff_count_le_one]
  intro z
  by_contra! hcount
  rw [count_roots, one_lt_rootMultiplicity_iff_isRoot (rodrigues_ne_zero n)] at hcount
  cases n with
  | zero => simp [rodrigues_zero] at hcount
  | succ n => exact derivative_ne_zero_of_isRoot hcount.1 hcount.2

theorem card_toFinset_roots_rodrigues (n : ℕ) : (rodrigues n).roots.toFinset.card = n := by
  rw [Multiset.toFinset_card_of_nodup (nodup_roots_rodrigues n), card_roots_rodrigues]

theorem mem_toFinset_roots {n : ℕ} {z : ℝ} :
    z ∈ (rodrigues n).roots.toFinset ↔ (rodrigues n).IsRoot z := by
  rw [Multiset.mem_toFinset, mem_roots (rodrigues_ne_zero n)]

/-- The positive roots of the Legendre polynomial of degree `n`. -/
noncomputable def positiveRoots (n : ℕ) : Finset ℝ :=
  (rodrigues n).roots.toFinset.filter (0 < ·)

theorem mem_positiveRoots {n : ℕ} {z : ℝ} :
    z ∈ positiveRoots n ↔ (rodrigues n).IsRoot z ∧ 0 < z := by
  rw [positiveRoots, Finset.mem_filter, mem_toFinset_roots]

/-- The roots other than zero come in pairs. -/
theorem erase_zero_roots (n : ℕ) :
    (rodrigues n).roots.toFinset.erase 0 =
      positiveRoots n ∪ (positiveRoots n).map (Equiv.neg ℝ).toEmbedding := by
  ext z
  rw [Finset.mem_erase, mem_toFinset_roots, Finset.mem_union, Finset.mem_map_equiv,
    Equiv.neg_symm, Equiv.neg_apply, mem_positiveRoots, mem_positiveRoots, neg_pos]
  constructor
  · rintro ⟨hne, hroot⟩
    rcases lt_or_gt_of_ne hne with hneg | hpos
    · exact .inr ⟨isRoot_neg hroot, hneg⟩
    · exact .inl ⟨hroot, hpos⟩
  · rintro (⟨hroot, hpos⟩ | ⟨hroot, hneg⟩)
    · exact ⟨hpos.ne', hroot⟩
    · exact ⟨hneg.ne, neg_neg z ▸ isRoot_neg hroot⟩

theorem card_positiveRoots (n : ℕ) : (positiveRoots n).card = n / 2 := by
  have hdisjoint : Disjoint (positiveRoots n)
      ((positiveRoots n).map (Equiv.neg ℝ).toEmbedding) := by
    refine Finset.disjoint_left.mpr fun z hz hneg => ?_
    rw [Finset.mem_map_equiv, Equiv.neg_symm, Equiv.neg_apply] at hneg
    exact lt_asymm (mem_positiveRoots.mp hz).2 (neg_pos.mp (mem_positiveRoots.mp hneg).2)
  have hpairs : ((rodrigues n).roots.toFinset.erase 0).card = 2 * (positiveRoots n).card := by
    rw [erase_zero_roots, Finset.card_union_of_disjoint hdisjoint, Finset.card_map, two_mul]
  have hcard := card_toFinset_roots_rodrigues n
  by_cases hzero : (0 : ℝ) ∈ (rodrigues n).roots.toFinset
  · have herase := Finset.card_erase_add_one hzero
    omega
  · have heven : n % 2 ≠ 1 := fun h => hzero (mem_toFinset_roots.mpr (isRoot_zero_of_odd h))
    rw [Finset.erase_eq_of_notMem hzero] at hpairs
    omega

end Legendre

end DiscreteOrdinates
