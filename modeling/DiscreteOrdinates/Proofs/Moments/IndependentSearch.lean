import DiscreteOrdinates.Proofs.Harmonics.Tesseral
import DiscreteOrdinates.Proofs.Moments.Greedy
import DiscreteOrdinates.Proofs.Moments.Projection

/-!
# Search for independent moments

The search keeps an orthonormal basis of the span of the harmonics that it has
kept (`Search.Tracks`). So its test on the length of a residual is one on the
distance of a harmonic from that span, and it is the greedy selection by this
test (`independent_eq_ok`).
-/

namespace DiscreteOrdinates

namespace MomentIndex

open Submodule (span)

/-! ## Harmonics over the directions of a set -/

/-- The values of the harmonic of a moment at the ordinates of a set. -/
noncomputable def harmonics (os : List (Ordinate ℝ)) (i : MomentIndex) :
    EuclideanSpace ℝ (Fin os.length) :=
  WithLp.toLp _ fun m =>
    match Harmonic.tesseral i.l i.k (os.get m) with
    | .ok y => y
    | .error _ => 0

/-- The span of the harmonics of several moments. -/
noncomputable def harmonicSpan (os : List (Ordinate ℝ)) (is : List MomentIndex) :
    Submodule ℝ (EuclideanSpace ℝ (Fin os.length)) :=
  span ℝ (harmonics os '' {i | i ∈ is})

/-- Whether the harmonic of a moment lies outside the span of others, by more
than the tolerance relative to its own length. -/
def IsApart (os : List (Ordinate ℝ)) (is : List MomentIndex) (i : MomentIndex) : Prop :=
  1e-8 * ‖harmonics os i‖ < Metric.infDist (harmonics os i) (harmonicSpan os is)

theorem harmonicSpan_congr {os : List (Ordinate ℝ)} {is js : List MomentIndex}
    (h : ∀ i, i ∈ is ↔ i ∈ js) : harmonicSpan os is = harmonicSpan os js := by
  simp only [harmonicSpan, h]

theorem harmonicSpan_cons (os : List (Ordinate ℝ)) (i : MomentIndex) (is : List MomentIndex) :
    harmonicSpan os (i :: is) = span ℝ {harmonics os i} ⊔ harmonicSpan os is := by
  have hset : harmonics os '' {j | j ∈ i :: is} =
      insert (harmonics os i) (harmonics os '' {j | j ∈ is}) := by
    ext v
    simp [eq_comm]
  rw [harmonicSpan, harmonicSpan, hset, Submodule.span_insert]

theorem IsApart.congr {os : List (Ordinate ℝ)} {is js : List MomentIndex}
    (h : ∀ i, i ∈ is ↔ i ∈ js) {i : MomentIndex} : IsApart os is i ↔ IsApart os js i := by
  rw [IsApart, IsApart, harmonicSpan_congr h]

/-- A valid moment has a value at every ordinate. -/
theorem mapM_tesseral (os : List (Ordinate ℝ)) {i : MomentIndex} (hi : i.isValid) :
    ∃ values, os.mapM (Harmonic.tesseral i.l i.k) = .ok values ∧ values.length = os.length ∧
      toVector os.length values = harmonics os i := by
  have hvalid : i.k.natAbs ≤ i.l := by simpa [isValid] using hi
  obtain ⟨f, hvalue⟩ : ∃ f : Ordinate ℝ → ℝ, ∀ o, Harmonic.tesseral i.l i.k o = .ok (f o) :=
    ⟨_, Harmonic.tesseral_eq_ok hvalid⟩
  refine ⟨os.map f, ?_, List.length_map f, ?_⟩
  · rw [funext hvalue]
    exact List.mapM_pure
  · ext m
    simp [harmonics, hvalue]

/-! ## Invariant -/

/-- The basis of a search is orthonormal and spans what the kept moments span. -/
structure Search.Tracks (os : List (Ordinate ℝ)) (s : Search ℝ) : Prop where
  orthonormal : IsOrthonormal os.length s.basis.toList
  span_eq : span ℝ (vectors os.length s.basis.toList) = harmonicSpan os s.kept

theorem Search.Tracks.empty (os : List (Ordinate ℝ)) : Search.Tracks os {} where
  orthonormal := IsOrthonormal.nil
  span_eq := by simp [vectors, harmonicSpan]

/-- The residual of a vector beside the basis, as `orthogonal_residual` gives it
for the span of the kept moments. -/
theorem Search.Tracks.residual {os : List (Ordinate ℝ)} {s : Search ℝ} (hs : s.Tracks os)
    {values : List ℝ} (hlen : values.length = os.length) :
    (s.residual values).length = os.length ∧
    toVector os.length values - toVector os.length (s.residual values) ∈ harmonicSpan os s.kept ∧
    ∀ w ∈ harmonicSpan os s.kept, inner ℝ w (toVector os.length (s.residual values)) = 0 := by
  have h := orthogonal_residual hs.orthonormal hlen
  rwa [hs.span_eq, Array.foldl_toList] at h

/-- A new basis vector is a unit vector, orthogonal to the basis. -/
theorem Search.Tracks.push {os : List (Ordinate ℝ)} {s : Search ℝ} (hs : s.Tracks os)
    {i : MomentIndex} {values : List ℝ} (hlen : values.length = os.length)
    (hvalues : toVector os.length values = harmonics os i)
    (hleft : norm (s.residual values) ≠ 0) :
    Search.Tracks os
      ⟨s.basis.push ((s.residual values).map (· / norm (s.residual values))), i :: s.kept⟩ := by
  obtain ⟨hrlen, hrmem, hrorth⟩ := hs.residual hlen
  rw [norm_eq_norm hrlen] at hleft ⊢
  generalize s.residual values = r at *
  have hunit : toVector os.length (r.map (· / ‖toVector os.length r‖)) =
      ‖toVector os.length r‖⁻¹ • toVector os.length r := toVector_map_div _ _
  constructor
  · rw [Array.toList_push]
    refine ⟨fun b hb => ?_, fun b hb => ?_, ?_⟩
    · rcases List.mem_append.mp hb with hb | hb
      · exact hs.orthonormal.length b hb
      · rw [List.mem_singleton.mp hb, List.length_map, hrlen]
    · rcases List.mem_append.mp hb with hb | hb
      · exact hs.orthonormal.unit b hb
      · rw [List.mem_singleton.mp hb, hunit, norm_smul, norm_inv, norm_norm,
          inv_mul_cancel₀ hleft]
    · rw [List.pairwise_append]
      refine ⟨hs.orthonormal.orthogonal, List.pairwise_singleton _ _, fun b hb c hc => ?_⟩
      have hbmem : toVector os.length b ∈ harmonicSpan os s.kept := by
        rw [← hs.span_eq]
        exact Submodule.subset_span (mem_vectors hb)
      rw [List.mem_singleton.mp hc, hunit, real_inner_smul_right, hrorth _ hbmem, mul_zero]
  · -- The residual, its multiples and the harmonic itself extend the span alike.
    have hr : span ℝ {‖toVector os.length r‖⁻¹ • toVector os.length r} =
        span ℝ {toVector os.length r} :=
      Submodule.span_singleton_smul_eq (IsUnit.mk0 _ (inv_ne_zero hleft)) _
    rw [Array.toList_push, vectors_append_singleton, Submodule.span_insert, hunit, hr, hs.span_eq,
      harmonicSpan_cons, ← hvalues]
    generalize harmonicSpan os s.kept = K at hrmem ⊢
    generalize toVector os.length values = v at hrmem ⊢
    generalize toVector os.length r = w at hrmem ⊢
    have hv : v ∈ span ℝ {w} ⊔ K := by
      have h := Submodule.add_mem_sup (Submodule.mem_span_singleton_self w) hrmem
      rwa [add_sub_cancel] at h
    have hw : w ∈ span ℝ {v} ⊔ K := by
      have h := Submodule.add_mem_sup (Submodule.mem_span_singleton_self v) (K.neg_mem hrmem)
      rwa [neg_sub, add_sub_cancel] at h
    apply le_antisymm
    · exact sup_le ((Submodule.span_singleton_le_iff_mem _ _).mpr hw) le_sup_right
    · exact sup_le ((Submodule.span_singleton_le_iff_mem _ _).mpr hv) le_sup_right

theorem Search.visit_eq (s : Search ℝ) (i : MomentIndex) (values : List ℝ) :
    s.visit i values =
      if norm values = 0 then s
      else if 1e-8 * norm values < norm (s.residual values) then
        ⟨s.basis.push ((s.residual values).map (· / norm (s.residual values))), i :: s.kept⟩
      else s := by
  simp only [Search.visit, beq_iff_eq, Scalar.zero_real, independenceTolerance]
  rfl

open Classical in
/-- One visit keeps a moment exactly if its harmonic is apart from those kept. -/
theorem Search.Tracks.visit {os : List (Ordinate ℝ)} {s : Search ℝ} (hs : s.Tracks os)
    {i : MomentIndex} {values : List ℝ} (hlen : values.length = os.length)
    (hvalues : toVector os.length values = harmonics os i) :
    (s.visit i values).Tracks os ∧
    (s.visit i values).kept = if IsApart os s.kept i then i :: s.kept else s.kept := by
  obtain ⟨hrlen, hrmem, hrorth⟩ := hs.residual hlen
  have hsize : norm values = ‖harmonics os i‖ := by rw [norm_eq_norm hlen, hvalues]
  have hdist : Metric.infDist (harmonics os i) (harmonicSpan os s.kept) = norm (s.residual values) := by
    rw [norm_eq_norm hrlen, ← hvalues]
    exact infDist_eq_norm hrmem hrorth
  have htest : 1e-8 * norm values < norm (s.residual values) ↔ IsApart os s.kept i := by
    rw [IsApart, hdist, hsize]
  rw [Search.visit_eq]
  by_cases hzero : norm values = 0
  · -- The zero vector lies in every span.
    have hnorm : ‖harmonics os i‖ = 0 := by rwa [hsize] at hzero
    have hnot : ¬ IsApart os s.kept i := by
      rw [IsApart, hnorm, mul_zero, norm_eq_zero.mp hnorm,
        Metric.infDist_zero_of_mem (Submodule.zero_mem _)]
      exact lt_irrefl 0
    rw [if_pos hzero, if_neg hnot]
    exact ⟨hs, rfl⟩
  · rw [if_neg hzero]
    by_cases hapart : IsApart os s.kept i
    · have hpos : norm (s.residual values) ≠ 0 := by
        have h := htest.mpr hapart
        have h₀ : 0 ≤ 1e-8 * norm values := by
          rw [hsize]
          positivity
        exact (h₀.trans_lt h).ne'
      rw [if_pos (htest.mpr hapart), if_pos hapart]
      exact ⟨hs.push hlen hvalues hpos, rfl⟩
    · rw [if_neg (mt htest.mp hapart), if_neg hapart]
      exact ⟨hs, rfl⟩

/-! ## Runs -/

/-- A run over valid candidates succeeds, keeps the invariant, and selects
greedily. -/
theorem Search.Tracks.run {os : List (Ordinate ℝ)} {count : ℕ} {candidates : List MomentIndex}
    (hvalid : ∀ i ∈ candidates, i.isValid) {s : Search ℝ} (hs : s.Tracks os) :
    ∃ t, s.run os count candidates = .ok t ∧ t.Tracks os ∧
      t.kept.reverse = greedy (IsApart os) count s.kept.reverse candidates := by
  induction candidates generalizing s with
  | nil => exact ⟨s, rfl, hs, rfl⟩
  | cons i candidates ih =>
    by_cases hfull : s.kept.length = count
    · refine ⟨s, by rw [Search.run, if_pos hfull], hs, ?_⟩
      rw [greedy_of_full (by rwa [List.length_reverse])]
    · obtain ⟨values, hmapM, hlen, hvalues⟩ := mapM_tesseral os (hvalid i List.mem_cons_self)
      obtain ⟨htracks, hkept⟩ := hs.visit hlen hvalues
      obtain ⟨t, hrun, ht, hgreedy⟩ :=
        ih (fun j hj => hvalid j (List.mem_cons_of_mem _ hj)) htracks
      refine ⟨t, by rw [Search.run, if_neg hfull, hmapM]; exact hrun, ht, ?_⟩
      -- The search holds its last moment first, the selection holds it last.
      have happart : IsApart os s.kept.reverse i ↔ IsApart os s.kept i :=
        IsApart.congr fun j => List.mem_reverse
      have hfull' : ¬ s.kept.reverse.length = count := by rwa [List.length_reverse]
      rw [hgreedy, greedy, if_neg hfull', hkept]
      by_cases h : IsApart os s.kept i
      · rw [if_pos h, if_pos (happart.mpr h), List.reverse_cons]
      · rw [if_neg h, if_neg (mt happart.mp h)]

/-- The degrees of a climb are those of one long run. -/
theorem Search.Tracks.climb {os : List (Ordinate ℝ)} {dimension count : ℕ} (degrees l : ℕ)
    {s : Search ℝ} (hs : s.Tracks os) :
    ∃ t, s.climb os dimension count degrees l = .ok t ∧ t.Tracks os ∧
      t.kept.reverse = greedy (IsApart os) count s.kept.reverse
        ((List.range' l degrees).flatMap (resolvedShell dimension)) := by
  induction degrees generalizing l s with
  | zero => exact ⟨s, rfl, hs, rfl⟩
  | succ degrees ih =>
    rw [List.range'_succ, List.flatMap_cons, greedy_append]
    by_cases hfull : s.kept.length = count
    · refine ⟨s, by rw [Search.climb, if_pos hfull], hs, ?_⟩
      have hfull' : s.kept.reverse.length = count := by rwa [List.length_reverse]
      rw [greedy_of_full hfull', greedy_of_full hfull']
    · have hvalid : ∀ i ∈ resolvedShell dimension l, i.isValid := fun i hi =>
        (mem_resolvedShell.mp hi).2.1
      obtain ⟨t, hrun, ht, hgreedy⟩ := @Search.Tracks.run os count _ hvalid s hs
      obtain ⟨u, hclimb, hu, hrest⟩ := ih (l + 1) ht
      refine ⟨u, by rw [Search.climb, if_neg hfull, hrun]; exact hclimb, hu, ?_⟩
      rw [hrest, hgreedy]

/-- The search never fails. It selects greedily from the resolved moments of
degree up to `2 (N + 1)`. -/
theorem independent_eq_ok (q : Quadrature ℝ) :
    independent q = .ok (greedy (IsApart q.ordinates) q.angles []
      (resolvedBelow q.dimension (2 * (q.order + 1) + 1))) := by
  obtain ⟨t, hclimb, -, hgreedy⟩ := @Search.Tracks.climb q.ordinates q.dimension q.angles
    (2 * (q.order + 1) + 1) 0 _ (Search.Tracks.empty q.ordinates)
  rw [independent, hclimb, resolvedBelow, List.range_eq_range']
  exact congrArg Except.ok hgreedy

end MomentIndex

end DiscreteOrdinates
