import DiscreteOrdinates.Proofs.RealScalar
import DiscreteOrdinates.Moments.Selection

/-!
# Projections

The lists of values that the search for independent moments works on, read as
vectors of a Euclidean space. Main statement: removing the projections on an
orthonormal list one after the other, each from what the last one left, leaves
the component orthogonal to its span (`orthogonal_residual`), so that the length
of what is left is the distance from the span (`infDist_eq_norm`).
-/

namespace DiscreteOrdinates

namespace MomentIndex

open Submodule (span)

variable {n : ℕ}

/-- A list of numbers as a vector with `n` components. -/
noncomputable def toVector (n : ℕ) (v : List ℝ) : EuclideanSpace ℝ (Fin n) :=
  WithLp.toLp _ fun m => v.getD m 0

@[simp] theorem toVector_apply (v : List ℝ) (m : Fin n) : toVector n v m = v.getD m 0 := rfl

/-! ## Operations on lists -/

theorem dot_eq_inner {u v : List ℝ} (hu : u.length = n) (hv : v.length = n) :
    dot u v = inner ℝ (toVector n u) (toVector n v) := by
  have hlist : u.zipWith (· * ·) v = List.ofFn fun m : Fin n => u.getD m 0 * v.getD m 0 := by
    apply List.ext_getElem
    · simp [hu, hv]
    · intro m h₁ h₂
      simp [hu, hv]
  have hsum : dot u v = (u.zipWith (· * ·) v).sum := by
    rw [dot, Scalar.zero_real, List.sum_eq_foldl]
  rw [hsum, hlist, List.sum_ofFn, PiLp.inner_apply]
  exact Finset.sum_congr rfl fun m _ => mul_comm _ _

theorem norm_eq_norm {v : List ℝ} (hv : v.length = n) : norm v = ‖toVector n v‖ := by
  rw [norm, dot_eq_inner hv hv, Scalar.sqrt_real, real_inner_self_eq_norm_sq,
    Real.sqrt_sq (norm_nonneg _)]

theorem toVector_map_div (v : List ℝ) (c : ℝ) :
    toVector n (v.map (· / c)) = c⁻¹ • toVector n v := by
  ext m
  simp only [toVector_apply, PiLp.smul_apply, smul_eq_mul, List.getD_eq_getElem?_getD,
    List.getElem?_map]
  cases v[(m : ℕ)]? with
  | none => simp
  | some x => simp [div_eq_inv_mul]

theorem length_removeProjection {v b : List ℝ} (hv : v.length = n) (hb : b.length = n) :
    (removeProjection v b).length = n := by
  simp [removeProjection, hv, hb]

theorem toVector_removeProjection {v b : List ℝ} (hv : v.length = n) (hb : b.length = n) :
    toVector n (removeProjection v b) =
      toVector n v - inner ℝ (toVector n b) (toVector n v) • toVector n b := by
  ext m
  have hmv : (m : ℕ) < v.length := by omega
  have hmb : (m : ℕ) < b.length := by omega
  simp only [removeProjection, dot_eq_inner hb hv, toVector_apply, PiLp.sub_apply,
    PiLp.smul_apply, smul_eq_mul, List.getD_eq_getElem?_getD, List.getElem?_zipWith,
    List.getElem?_eq_getElem hmv, List.getElem?_eq_getElem hmb, Option.getD_some]
  ring

/-! ## Orthonormal lists -/

/-- The vectors of a list of lists. -/
def vectors (n : ℕ) (bs : List (List ℝ)) : Set (EuclideanSpace ℝ (Fin n)) :=
  toVector n '' {b | b ∈ bs}

theorem mem_vectors {bs : List (List ℝ)} {b : List ℝ} (h : b ∈ bs) :
    toVector n b ∈ vectors n bs :=
  ⟨b, h, rfl⟩

theorem vectors_cons (b : List ℝ) (bs : List (List ℝ)) :
    vectors n (b :: bs) = insert (toVector n b) (vectors n bs) := by
  ext v
  simp [vectors, eq_comm]

theorem vectors_append_singleton (bs : List (List ℝ)) (b : List ℝ) :
    vectors n (bs ++ [b]) = insert (toVector n b) (vectors n bs) := by
  ext v
  simp [vectors, or_comm, or_and_right, exists_or, eq_comm]

/-- Lists of length `n` whose vectors are unit vectors and orthogonal to one
another. -/
structure IsOrthonormal (n : ℕ) (bs : List (List ℝ)) : Prop where
  length : ∀ b ∈ bs, b.length = n
  unit : ∀ b ∈ bs, ‖toVector n b‖ = 1
  orthogonal : bs.Pairwise fun b c => inner ℝ (toVector n b) (toVector n c) = 0

theorem IsOrthonormal.nil : IsOrthonormal n [] :=
  ⟨by simp, by simp, List.Pairwise.nil⟩

theorem IsOrthonormal.tail {b : List ℝ} {bs : List (List ℝ)} (h : IsOrthonormal n (b :: bs)) :
    IsOrthonormal n bs :=
  ⟨fun c hc => h.length c (List.mem_cons_of_mem _ hc),
    fun c hc => h.unit c (List.mem_cons_of_mem _ hc), h.orthogonal.tail⟩

/-- A vector orthogonal to a set is orthogonal to its span. -/
theorem inner_eq_zero_of_mem_span {S : Set (EuclideanSpace ℝ (Fin n))}
    {r w : EuclideanSpace ℝ (Fin n)} (h : ∀ b ∈ S, inner ℝ b r = 0) (hw : w ∈ span ℝ S) :
    inner ℝ w r = 0 := by
  induction hw using Submodule.span_induction with
  | mem b hb => exact h b hb
  | zero => exact inner_zero_left r
  | add u w _ _ hu hw => rw [inner_add_left, hu, hw, add_zero]
  | smul c w _ hw => rw [real_inner_smul_left, hw, mul_zero]

/-- What the removal of all projections leaves: a vector of the same length,
that differs from `v` by an element of the span and is orthogonal to it. -/
theorem orthogonal_residual {bs : List (List ℝ)} (h : IsOrthonormal n bs) {v : List ℝ}
    (hv : v.length = n) :
    (bs.foldl removeProjection v).length = n ∧
    toVector n v - toVector n (bs.foldl removeProjection v) ∈ span ℝ (vectors n bs) ∧
    ∀ w ∈ span ℝ (vectors n bs), inner ℝ w (toVector n (bs.foldl removeProjection v)) = 0 := by
  induction bs generalizing v with
  | nil =>
    refine ⟨hv, by simp, fun w hw => ?_⟩
    have hw₀ : w = 0 := by simpa [vectors] using hw
    rw [hw₀, inner_zero_left]
  | cons b bs ih =>
    -- The projection on `b` is removed first, and the others are removed from what it leaves.
    have hb : b.length = n := h.length b List.mem_cons_self
    have hfirst : toVector n (removeProjection v b) =
        toVector n v - inner ℝ (toVector n b) (toVector n v) • toVector n b :=
      toVector_removeProjection hv hb
    obtain ⟨hlen, hspan, horth⟩ := ih h.tail (length_removeProjection hv hb)
    rw [List.foldl_cons]
    generalize hr : bs.foldl removeProjection (removeProjection v b) = r at hlen hspan horth ⊢
    refine ⟨hlen, ?_, fun w hw => ?_⟩
    · rw [vectors_cons]
      have hb' : inner ℝ (toVector n b) (toVector n v) • toVector n b ∈
          span ℝ (insert (toVector n b) (vectors n bs)) :=
        Submodule.smul_mem _ _ (Submodule.subset_span (Set.mem_insert _ _))
      have hrest := Submodule.span_mono (Set.subset_insert (toVector n b) _) hspan
      have hsum := Submodule.add_mem _ hrest hb'
      rwa [hfirst, sub_right_comm, sub_add_cancel] at hsum
    · rw [vectors_cons] at hw
      refine inner_eq_zero_of_mem_span (fun c hc => ?_) hw
      rcases hc with rfl | hc
      · -- The later projections do not bring the component along `b` back.
        have hbb : inner ℝ (toVector n b) (toVector n b) = 1 := by
          rw [real_inner_self_eq_norm_sq, h.unit b List.mem_cons_self, one_pow]
        have hlater : inner ℝ (toVector n (removeProjection v b) - toVector n r) (toVector n b) = 0 := by
          refine inner_eq_zero_of_mem_span (fun d hd => ?_) hspan
          obtain ⟨d, hd, rfl⟩ := hd
          rw [real_inner_comm]
          exact List.rel_of_pairwise_cons h.orthogonal hd
        rw [real_inner_comm, inner_sub_right, hfirst, inner_sub_right, real_inner_smul_right, hbb,
          mul_one, sub_self, zero_sub, neg_eq_zero] at hlater
        exact hlater
      · exact horth c (Submodule.subset_span hc)

/-! ## Distance -/

/-- The length of the orthogonal component is the distance from the subspace. -/
theorem infDist_eq_norm {K : Submodule ℝ (EuclideanSpace ℝ (Fin n))}
    {v r : EuclideanSpace ℝ (Fin n)} (hmem : v - r ∈ K) (horth : ∀ w ∈ K, inner ℝ w r = 0) :
    Metric.infDist v K = ‖r‖ := by
  apply le_antisymm
  · calc Metric.infDist v K ≤ dist v (v - r) := Metric.infDist_le_dist_of_mem hmem
      _ = ‖r‖ := by rw [dist_eq_norm, sub_sub_cancel]
  · rw [Metric.le_infDist ⟨0, K.zero_mem⟩]
    intro w hw
    -- `v - w` is `r` and a vector of the subspace, which are orthogonal.
    have hpythagoras : ‖v - w‖ * ‖v - w‖ = ‖v - r - w‖ * ‖v - r - w‖ + ‖r‖ * ‖r‖ := by
      rw [← norm_add_sq_eq_norm_sq_add_norm_sq_real (horth _ (K.sub_mem hmem hw))]
      congr 2 <;> abel
    rw [dist_eq_norm]
    apply (mul_self_le_mul_self_iff (norm_nonneg r) (norm_nonneg _)).mpr
    rw [hpythagoras]
    exact le_add_of_nonneg_left (mul_self_nonneg _)

end MomentIndex

end DiscreteOrdinates
