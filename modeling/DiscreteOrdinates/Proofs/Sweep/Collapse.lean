import DiscreteOrdinates.Proofs.Sweep.Levels
import DiscreteOrdinates.Proofs.Sweep.Weight

/-!
# Collapsed ordinates

What is left of ordinates on a mesh of one dimension. The collapsed cosines are those
that remain when the cosines are merged on their own, and each of them has taken up the
weight of the ordinates from its own cosine to the next. Main statement:
`isCollapse_collapse`.
-/

namespace DiscreteOrdinates

namespace Ordinate

/-! ## Ordinates that count as equal -/

/-- Whether the cosine of `o` counts as equal to `x`. -/
def CountsAs (x : ℝ) (o : Ordinate ℝ) : Prop :=
  Scalar.abs (o.x - x) ≤ levelTolerance

noncomputable instance (x : ℝ) (o : Ordinate ℝ) : Decidable (CountsAs x o) :=
  inferInstanceAs (Decidable (_ ≤ _))

theorem countsAs_self (o : Ordinate ℝ) : CountsAs o.x o := by
  rw [CountsAs, sub_self, Scalar.abs_real, abs_zero, levelTolerance]
  norm_num

theorem countsAs_iff {x : ℝ} {o : Ordinate ℝ} (hxo : x ≤ o.x) :
    CountsAs x o ↔ o.x ≤ x + levelTolerance := by
  rw [CountsAs, Scalar.abs_real, abs_of_nonneg (sub_nonneg.mpr hxo)]
  exact sub_le_iff_le_add'

theorem mem_filter_not_countsAs {x : ℝ} {o : Ordinate ℝ} {os : List (Ordinate ℝ)} :
    o ∈ os.filter (¬ CountsAs x ·) ↔ o ∈ os ∧ ¬ CountsAs x o := by
  simp

/-- Behind a cosine that is too large to count as `x`, all are. -/
theorem not_countsAs_of_le {x : ℝ} {a o : Ordinate ℝ} (hxa : x ≤ a.x) (hao : a.x ≤ o.x)
    (ha : ¬ CountsAs x a) : ¬ CountsAs x o := by
  rw [countsAs_iff hxa] at ha
  rw [countsAs_iff (hxa.trans hao)]
  linarith

/-- Collapses ordinates that are in order. -/
noncomputable def gatherAll : List (Ordinate ℝ) → List (Ordinate ℝ)
  | [] => []
  | o :: os => gather o.x o.weight os

theorem collapse_eq (os : List (Ordinate ℝ)) :
    collapse os = gatherAll (os.mergeSort fun a b => (Scalar.order a.x b.x).isLE) := by
  rw [collapse]
  cases os.mergeSort fun a b => (Scalar.order a.x b.x).isLE <;> rfl

/-- What counts as the first cosine is found by comparing with it alone, wherever it
stands. -/
theorem gather_eq {x w : ℝ} {os : List (Ordinate ℝ)} (hsorted : os.Pairwise (·.x ≤ ·.x))
    (hx : ∀ o ∈ os, x ≤ o.x) :
    gather x w os = ⟨x, 0.0, 0.0, w + total (os.filter (CountsAs x ·))⟩ ::
      gatherAll (os.filter (¬ CountsAs x ·)) := by
  induction os generalizing w with
  | nil => simp [gather, gatherAll, total]
  | cons a os ih =>
    obtain ⟨hxa, hx⟩ := List.forall_mem_cons.mp hx
    obtain ⟨ha, hsorted⟩ := List.pairwise_cons.mp hsorted
    rw [gather]
    split
    next hcounts =>
      have hcounts : CountsAs x a := hcounts
      rw [ih hsorted hx, List.filter_cons_of_pos (by simpa using hcounts),
        List.filter_cons_of_neg (by simpa using hcounts), total_cons, add_assoc]
    next hdiffers =>
      have hdiffers : ¬ CountsAs x a := hdiffers
      have hall : ∀ o ∈ a :: os, ¬ CountsAs x o :=
        List.forall_mem_cons.mpr ⟨hdiffers, fun o ho => not_countsAs_of_le hxa (ha o ho) hdiffers⟩
      have hnone : (a :: os).filter (CountsAs x ·) = [] :=
        List.filter_eq_nil_iff.mpr fun o ho => by simpa using hall o ho
      have hrest : (a :: os).filter (¬ CountsAs x ·) = a :: os :=
        List.filter_eq_self.mpr fun o ho => by simpa using hall o ho
      rw [hnone, hrest, gatherAll, total_nil, add_zero]

/-- The first of some ascending ordinates takes up all that count as it. -/
theorem gatherAll_cons {a : Ordinate ℝ} {os : List (Ordinate ℝ)}
    (hsorted : (a :: os).Pairwise (·.x ≤ ·.x)) :
    gatherAll (a :: os) = ⟨a.x, 0.0, 0.0, total ((a :: os).filter (CountsAs a.x ·))⟩ ::
      gatherAll ((a :: os).filter (¬ CountsAs a.x ·)) := by
  obtain ⟨ha, hsorted⟩ := List.pairwise_cons.mp hsorted
  rw [gatherAll, gather_eq hsorted ha, List.filter_cons_of_pos (by simpa using countsAs_self a),
    List.filter_cons_of_neg (by simpa using countsAs_self a), total_cons]

/-! ## Cosines -/

theorem map_x_gather {R : Type} [Scalar R] (x w : R) (os : List (Ordinate R)) :
    (gather x w os).map (·.x) = x :: Sample.thin levelTolerance x (os.map (·.x)) := by
  induction os generalizing x w with
  | nil => rfl
  | cons o os ih =>
    rw [gather, List.map_cons, Sample.thin]
    split
    · exact ih x _
    · rw [List.map_cons, ih]

/-- Ordinates are collapsed as their cosines are merged, whatever the numbers. -/
theorem map_x_collapse {R : Type} [Scalar R] (os : List (Ordinate R)) :
    (collapse os).map (·.x) =
      Sample.representatives levelTolerance (Sample.sorted (os.map (·.x))) := by
  have hsorted : Sample.sorted (os.map (·.x)) =
      (os.mergeSort fun a b => (Scalar.order a.x b.x).isLE).map (·.x) := by
    rw [Sample.sorted, List.map_mergeSort]
    exact fun _ _ _ _ => rfl
  rw [hsorted, collapse]
  cases os.mergeSort fun a b => (Scalar.order a.x b.x).isLE with
  | nil => rfl
  | cons o os => exact map_x_gather o.x o.weight os

theorem distinctWithin_map_x (os : List (Ordinate ℝ)) :
    Sample.distinctWithin levelTolerance (os.map (·.x)) = .ok ((collapse os).map (·.x)) := by
  rw [Sample.distinctWithin_levelTolerance, map_x_collapse]

/-! ## Weights -/

/-- Whether the cosine of `o` lies at or above number `k` of some cosines, and below the
next one. -/
def FallsOn (xs : List ℝ) (k : ℕ) (o : Ordinate ℝ) : Prop :=
  (∃ x ∈ xs[k]?, x ≤ o.x) ∧ ∀ next ∈ xs[k + 1]?, o.x < next

noncomputable instance (xs : List ℝ) (k : ℕ) (o : Ordinate ℝ) : Decidable (FallsOn xs k o) :=
  inferInstanceAs (Decidable (_ ∧ _))

theorem fallsOn_succ {x : ℝ} {xs : List ℝ} {k : ℕ} {o : Ordinate ℝ} :
    FallsOn (x :: xs) (k + 1) o ↔ FallsOn xs k o := by
  simp [FallsOn]

/-- What collapsing ordinates comes to: their cosines stand apart, and the weight of each
is that of the ordinates from its cosine to the next, which all count as equal to it. No
ordinate is left out, and none is counted twice. -/
structure IsCollapse (os cs : List (Ordinate ℝ)) : Prop where
  cosine : ∀ c ∈ cs, ∃ o ∈ os, c.x = o.x
  apart : cs.Pairwise fun a b => a.x + levelTolerance < b.x
  onAxis : ∀ c ∈ cs, c.y = 0 ∧ c.z = 0
  weight : ∀ k (hk : k < cs.length),
    cs[k].weight = total (os.filter (FallsOn (cs.map (·.x)) k ·))
  near : ∀ k (hk : k < cs.length), ∀ o ∈ os, FallsOn (cs.map (·.x)) k o →
    |o.x - cs[k].x| ≤ levelTolerance
  existsUnique : ∀ o ∈ os, ∃! k, FallsOn (cs.map (·.x)) k o

namespace IsCollapse

variable {os cs : List (Ordinate ℝ)}

theorem perm {os' : List (Ordinate ℝ)} (h : IsCollapse os cs) (hperm : os.Perm os') :
    IsCollapse os' cs where
  cosine c hc := by
    obtain ⟨o, ho, heq⟩ := h.cosine c hc
    exact ⟨o, hperm.subset ho, heq⟩
  apart := h.apart
  onAxis := h.onAxis
  weight k hk := (h.weight k hk).trans (total_perm (hperm.filter _))
  near k hk o ho := h.near k hk o (hperm.symm.subset ho)
  existsUnique o ho := h.existsUnique o (hperm.symm.subset ho)

theorem nil : IsCollapse [] [] := by
  constructor <;> simp

/-- The cosines determine all of a collapse. -/
theorem eq_of_map_x {cs' : List (Ordinate ℝ)} (h : IsCollapse os cs) (h' : IsCollapse os cs')
    (hx : cs.map (·.x) = cs'.map (·.x)) : cs = cs' := by
  have hlength : cs.length = cs'.length := by simpa using congrArg List.length hx
  refine List.ext_getElem hlength fun k hk hk' => eq_of_direction_eq ?_ ?_
  · have hcosine : cs[k].x = cs'[k].x := by
      simpa [hk, hk'] using congrArg (·[k]?) hx
    obtain ⟨hy, hz⟩ := h.onAxis cs[k] (List.getElem_mem hk)
    obtain ⟨hy', hz'⟩ := h'.onAxis cs'[k] (List.getElem_mem hk')
    rw [direction, direction, hcosine, hy, hy', hz, hz']
  · rw [h.weight k hk, h'.weight k hk', hx]

/-- No ordinate stands below the first cosine. -/
theorem exists_head_le (h : IsCollapse os cs) {o : Ordinate ℝ} (ho : o ∈ os) :
    ∃ x ∈ (cs.map (·.x))[0]?, x ≤ o.x := by
  obtain ⟨k, ⟨⟨x, hx, hle⟩, -⟩, -⟩ := h.existsUnique o ho
  obtain ⟨hk, rfl⟩ := List.getElem?_eq_some_iff.mp hx
  refine ⟨_, List.getElem?_eq_getElem (Nat.zero_lt_of_lt hk), le_trans ?_ hle⟩
  rcases Nat.eq_zero_or_pos k with rfl | hpos
  · exact le_rfl
  · have hapart : (cs.map (·.x)).Pairwise fun a b => a + levelTolerance < b :=
      List.pairwise_map.mpr h.apart
    have hlt := List.pairwise_iff_getElem.mp hapart 0 k (Nat.zero_lt_of_lt hk) hk hpos
    linarith [levelTolerance_pos]

variable {x : ℝ} (hx : ∀ o ∈ os, x ≤ o.x) (hlater : IsCollapse (os.filter (¬ CountsAs x ·)) cs)

include hx hlater

theorem lt_of_mem {c : Ordinate ℝ} (hc : c ∈ cs) : x + levelTolerance < c.x := by
  obtain ⟨o, ho, heq⟩ := hlater.cosine c hc
  obtain ⟨ho, hdiffers⟩ := mem_filter_not_countsAs.mp ho
  rw [countsAs_iff (hx o ho)] at hdiffers
  linarith

theorem lt_of_getElem? {k : ℕ} {y : ℝ} (hy : (cs.map (·.x))[k]? = some y) :
    x + levelTolerance < y := by
  obtain ⟨c, hc, rfl⟩ := List.mem_map.mp (List.mem_of_getElem? hy)
  exact lt_of_mem hx hlater hc

theorem not_countsAs_of_fallsOn {k : ℕ} {o : Ordinate ℝ} (h : FallsOn (cs.map (·.x)) k o) :
    ¬ CountsAs x o := by
  obtain ⟨⟨y, hy, hle⟩, -⟩ := h
  have hlt := lt_of_getElem? hx hlater hy
  have hxo : x ≤ o.x := by linarith [levelTolerance_pos]
  rw [countsAs_iff hxo]
  linarith

/-- The first cosine takes what counts as equal to it, since all else reaches the next. -/
theorem fallsOn_zero_iff {o : Ordinate ℝ} (ho : o ∈ os) :
    FallsOn (x :: cs.map (·.x)) 0 o ↔ CountsAs x o := by
  constructor
  · rintro ⟨-, hnext⟩
    by_contra hdiffers
    obtain ⟨y, hy, hle⟩ := hlater.exists_head_le (mem_filter_not_countsAs.mpr ⟨ho, hdiffers⟩)
    exact hle.not_gt (hnext y hy)
  · intro hcounts
    rw [countsAs_iff (hx o ho)] at hcounts
    refine ⟨⟨x, rfl, hx o ho⟩, fun y hy => ?_⟩
    have hlt := lt_of_getElem? (k := 0) hx hlater hy
    linarith

theorem cons (hfirst : ∃ o ∈ os, x = o.x) :
    IsCollapse os (⟨x, 0.0, 0.0, total (os.filter (CountsAs x ·))⟩ :: cs) where
  cosine := by
    refine List.forall_mem_cons.mpr ⟨hfirst, fun c hc => ?_⟩
    obtain ⟨o, ho, heq⟩ := hlater.cosine c hc
    exact ⟨o, List.mem_of_mem_filter ho, heq⟩
  apart := List.pairwise_cons.mpr ⟨fun c hc => lt_of_mem hx hlater hc, hlater.apart⟩
  onAxis := List.forall_mem_cons.mpr ⟨⟨Scalar.zero_real, Scalar.zero_real⟩, hlater.onAxis⟩
  weight k hk := by
    -- Behind the first cosine an ordinate falls where it fell among the others.
    cases k with
    | zero =>
      refine congrArg total (List.filter_congr fun o ho => ?_)
      exact decide_eq_decide.mpr (fallsOn_zero_iff hx hlater ho).symm
    | succ k =>
      rw [List.getElem_cons_succ, hlater.weight k (by simpa using hk), List.filter_filter]
      refine congrArg total (List.filter_congr fun o ho => ?_)
      have hdiffers : FallsOn (cs.map (·.x)) k o → ¬ CountsAs x o :=
        not_countsAs_of_fallsOn hx hlater
      simpa [fallsOn_succ] using hdiffers
  near k hk o ho hfalls := by
    cases k with
    | zero => exact (fallsOn_zero_iff hx hlater ho).mp hfalls
    | succ k =>
      have hfalls := fallsOn_succ.mp hfalls
      have hmem := mem_filter_not_countsAs.mpr ⟨ho, not_countsAs_of_fallsOn hx hlater hfalls⟩
      exact hlater.near k (by simpa using hk) o hmem hfalls
  existsUnique o ho := by
    by_cases hcounts : CountsAs x o
    · refine ⟨0, (fallsOn_zero_iff hx hlater ho).mpr hcounts, fun k hk => ?_⟩
      cases k with
      | zero => rfl
      | succ k => exact (not_countsAs_of_fallsOn hx hlater (fallsOn_succ.mp hk) hcounts).elim
    · obtain ⟨k, hk, hunique⟩ :=
        hlater.existsUnique o (mem_filter_not_countsAs.mpr ⟨ho, hcounts⟩)
      refine ⟨k + 1, fallsOn_succ.mpr hk, fun j hj => ?_⟩
      cases j with
      | zero => exact (hcounts ((fallsOn_zero_iff hx hlater ho).mp hj)).elim
      | succ j => rw [hunique j (fallsOn_succ.mp hj)]

end IsCollapse

theorem isCollapse_gatherAll {os : List (Ordinate ℝ)} (hsorted : os.Pairwise (·.x ≤ ·.x)) :
    IsCollapse os (gatherAll os) := by
  -- What the first ordinate takes up is gone from the list that is left.
  induction hlength : os.length using Nat.strong_induction_on generalizing os with
  | _ n ih =>
    cases os with
    | nil => exact .nil
    | cons a os =>
      have hshorter : ((a :: os).filter (¬ CountsAs a.x ·)).length < n := by
        rw [← hlength, List.filter_cons_of_neg (by simpa using countsAs_self a)]
        exact Nat.lt_succ_of_le (List.length_filter_le _ _)
      have hle : ∀ o ∈ a :: os, a.x ≤ o.x :=
        List.forall_mem_cons.mpr ⟨le_rfl, (List.pairwise_cons.mp hsorted).1⟩
      rw [gatherAll_cons hsorted]
      exact .cons hle (ih _ hshorter (hsorted.filter _) rfl) ⟨a, List.mem_cons_self, rfl⟩

theorem isCollapse (os : List (Ordinate ℝ)) : IsCollapse os (collapse os) := by
  rw [collapse_eq]
  exact (isCollapse_gatherAll (pairwise_byCosine os)).perm (List.mergeSort_perm _ _)

/-- Collapsing leaves the cosines that remain when all cosines are merged, in ascending
order and farther apart than the tolerance. Each takes up the weight of the ordinates
from its cosine to the next, so that every ordinate is counted once and no weight is lost. -/
theorem isCollapse_collapse (os : List (Ordinate ℝ)) :
    Sample.distinctWithin levelTolerance (os.map (·.x)) = .ok ((collapse os).map (·.x)) ∧
    IsCollapse os (collapse os) ∧ total (collapse os) = total os :=
  ⟨distinctWithin_map_x os, isCollapse os, total_collapse os⟩

end Ordinate

end DiscreteOrdinates
