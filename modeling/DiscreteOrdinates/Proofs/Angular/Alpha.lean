import DiscreteOrdinates.Proofs.Angular.Cells
import DiscreteOrdinates.Proofs.Angular.UniformFlux
import DiscreteOrdinates.Angular.Compatibility

/-!
# Moments of a level

What `α` means. It sums up the first moment of its level, so a level closes where its
cosines balance, and along ascending cosines `α` first falls and then returns. Main
statement: `alpha_eq_moment`.
-/

namespace DiscreteOrdinates

namespace AngularRedistribution

/-! ## Moments -/

/-- The first moment of some nodes: their cosines `x`, weighted. -/
noncomputable def moment (nodes : List (AngularNode ℝ)) : ℝ :=
  (nodes.map fun node => node.weight * node.ordinate.x).sum

/-- The weight of the nodes with the cosine `c`. -/
noncomputable def weightAt (nodes : List (AngularNode ℝ)) (c : ℝ) : ℝ :=
  ((nodes.filter fun node => node.ordinate.x = c).map (·.weight)).sum

/-- Opposite cosines carry the same weight. -/
def IsBalanced (nodes : List (AngularNode ℝ)) : Prop :=
  ∀ c, weightAt nodes (-c) = weightAt nodes c

theorem moment_cons (node : AngularNode ℝ) (nodes : List (AngularNode ℝ)) :
    moment (node :: nodes) = node.weight * node.ordinate.x + moment nodes := by
  rw [moment, List.map_cons, List.sum_cons]
  rfl

theorem moment_take_add_drop (nodes : List (AngularNode ℝ)) (k : ℕ) :
    moment (nodes.take k) + moment (nodes.drop k) = moment nodes := by
  rw [moment, moment, ← List.sum_append, ← List.map_append, List.take_append_drop]
  rfl

theorem weightAt_nil (c : ℝ) : weightAt [] c = 0 := rfl

theorem weightAt_cons (node : AngularNode ℝ) (nodes : List (AngularNode ℝ)) (c : ℝ) :
    weightAt (node :: nodes) c =
      (if node.ordinate.x = c then node.weight else 0) + weightAt nodes c := by
  by_cases h : node.ordinate.x = c
  · simp [weightAt, h]
  · simp [weightAt, h]

/-- The moment collects the weight at each cosine. -/
theorem moment_eq_sum {nodes : List (AngularNode ℝ)} {D : Finset ℝ}
    (hD : ∀ node ∈ nodes, node.ordinate.x ∈ D) :
    moment nodes = ∑ c ∈ D, weightAt nodes c * c := by
  induction nodes with
  | nil => simp [moment, weightAt]
  | cons node nodes ih =>
    obtain ⟨hnode, hnodes⟩ := List.forall_mem_cons.mp hD
    have hsum : ∑ c ∈ D, (if node.ordinate.x = c then node.weight else 0) * c =
        node.weight * node.ordinate.x := by
      simp only [ite_mul, zero_mul]
      rw [Finset.sum_ite_eq, if_pos hnode]
    simp only [weightAt_cons, add_mul]
    rw [Finset.sum_add_distrib, hsum, moment_cons, ih hnodes]

/-- Where opposite cosines balance there is no moment. -/
theorem moment_eq_zero {nodes : List (AngularNode ℝ)} (h : IsBalanced nodes) :
    moment nodes = 0 := by
  classical
  let cosines := (nodes.map (·.ordinate.x)).toFinset
  have hinside : ∀ node ∈ nodes, node.ordinate.x ∈ cosines ∪ cosines.image (-·) := fun node hnode =>
    Finset.mem_union_left _ (List.mem_toFinset.mpr (List.mem_map_of_mem hnode))
  have hclosed : ∀ c ∈ cosines ∪ cosines.image (-·), -c ∈ cosines ∪ cosines.image (-·) := by
    intro c hc
    rcases Finset.mem_union.mp hc with hc | hc
    · exact Finset.mem_union_right _ (Finset.mem_image_of_mem _ hc)
    · obtain ⟨b, hb, rfl⟩ := Finset.mem_image.mp hc
      exact Finset.mem_union_left _ ((neg_neg b).symm ▸ hb)
  -- Changing the sign of all cosines changes the sign of the sum, but permutes its terms.
  have hneg : ∑ c ∈ cosines ∪ cosines.image (-·), weightAt nodes c * c =
      ∑ c ∈ cosines ∪ cosines.image (-·), -(weightAt nodes c * c) := by
    refine Finset.sum_nbij' (-·) (-·) hclosed hclosed ?_ ?_ ?_
    · exact fun c _ => neg_neg c
    · exact fun c _ => neg_neg c
    · intro c _
      rw [h c]
      ring
  rw [moment_eq_sum hinside]
  rw [Finset.sum_neg_distrib] at hneg
  linarith

/-! ## Signs -/

section

variable {nodes : List (AngularNode ℝ)} (hweights : ∀ node ∈ nodes, 0 ≤ node.weight)

include hweights

theorem moment_nonneg (h : ∀ node ∈ nodes, 0 ≤ node.ordinate.x) : 0 ≤ moment nodes := by
  refine List.sum_nonneg fun t ht => ?_
  obtain ⟨node, hnode, rfl⟩ := List.mem_map.mp ht
  exact mul_nonneg (hweights node hnode) (h node hnode)

theorem moment_nonpos (h : ∀ node ∈ nodes, node.ordinate.x ≤ 0) : moment nodes ≤ 0 := by
  have hterms : ∀ t ∈ nodes.map fun node => node.weight * node.ordinate.x, t ≤ 0 := by
    intro t ht
    obtain ⟨node, hnode, rfl⟩ := List.mem_map.mp ht
    exact mul_nonpos_of_nonneg_of_nonpos (hweights node hnode) (h node hnode)
  have hsum := List.sum_le_card_nsmul _ 0 hterms
  rwa [nsmul_zero] at hsum

/-- Along ascending cosines that balance, the moment is never positive. -/
theorem moment_take_nonpos (hascends : nodes.Pairwise (·.ordinate.x ≤ ·.ordinate.x))
    (hzero : moment nodes = 0) (k : ℕ) : moment (nodes.take k) ≤ 0 := by
  by_cases hsigns : ∀ node ∈ nodes.take k, node.ordinate.x ≤ 0
  · exact moment_nonpos (fun node hnode => hweights node (List.mem_of_mem_take hnode)) hsigns
  · -- Behind a positive cosine all are, so that what follows has to be made up for.
    push Not at hsigns
    obtain ⟨a, ha, hpos⟩ := hsigns
    rw [← List.take_append_drop k nodes] at hascends
    have hrest : 0 ≤ moment (nodes.drop k) :=
      moment_nonneg (fun node hnode => hweights node (List.mem_of_mem_drop hnode)) fun b hb =>
        hpos.le.trans ((List.pairwise_append.mp hascends).2.2 a ha b hb)
    have hsum := moment_take_add_drop nodes k
    linarith

end

/-! ## Alpha along a level -/

theorem LevelShape.Chained.alpha_eq {s : LevelShape ℝ} {w : ℝ} {before : AngularNode ℝ}
    {nodes : List (AngularNode ℝ)} (h : s.Chained w before nodes) {k : ℕ} (hk : k < nodes.length) :
    nodes[k].alpha = before.alpha + recursionFactor s.geometry * moment (nodes.take (k + 1)) := by
  -- Along the chain `before` is the node that the rest continues from.
  induction h generalizing k with
  | nil => simp at hk
  | @cons w before node nodes hnode _ ih =>
    rw [List.take_succ_cons, moment_cons]
    cases k with
    | zero =>
      rw [List.getElem_cons_zero, hnode.alpha, List.take_zero, moment, List.map_nil, List.sum_nil]
      ring
    | succ k =>
      rw [List.getElem_cons_succ, ih (Nat.lt_of_succ_lt_succ hk), hnode.alpha]
      ring

theorem LevelShape.Chained.dependent {s : LevelShape ℝ} {w : ℝ} {before : AngularNode ℝ}
    {nodes : List (AngularNode ℝ)} (h : s.Chained w before nodes) {node : AngularNode ℝ}
    (hnode : node ∈ nodes) : node.dependent = true := by
  induction h with
  | nil => cases hnode
  | cons hfirst _ ih =>
    rcases List.mem_cons.mp hnode with rfl | hnode
    · exact hfirst.dependent
    · exact ih hnode

/-- The nodes of a level. -/
def onLevel {R : Type} (r : AngularRedistribution R) (i : ℕ) : List (AngularNode R) :=
  r.nodes.filter (·.level == i)

/-- An element of a list ends a prefix of those with its property. -/
theorem exists_take_filter {α : Type} {p : α → Bool} {xs : List α} {m : ℕ} (hm : m < xs.length)
    (hp : p xs[m] = true) :
    ∃ k, ∃ hk : k < (xs.filter p).length, (xs.filter p)[k] = xs[m] ∧
      (xs.take (m + 1)).filter p = (xs.filter p).take (k + 1) := by
  have hsplit : xs.filter p = (xs.take m).filter p ++ xs[m] :: (xs.drop (m + 1)).filter p := by
    rw [← List.filter_cons_of_pos hp, ← List.drop_eq_getElem_cons hm, ← List.filter_append,
      List.take_append_drop]
  have htake : (xs.take (m + 1)).filter p = (xs.take m).filter p ++ [xs[m]] := by
    rw [← List.take_concat_get' _ _ hm, List.filter_append, List.filter_cons_of_pos hp,
      List.filter_nil]
  refine ⟨((xs.take m).filter p).length, by simp [hsplit], by simp [hsplit], ?_⟩
  rw [htake, hsplit, List.take_append]
  simp

namespace HasBlocks

variable {geometry : Geometry} {r : AngularRedistribution ℝ} {blocks : List (List (AngularNode ℝ))}

/-- On each level `α` sums up the moment from its start on. -/
theorem alpha_eq (h : r.HasBlocks geometry blocks) {block : List (AngularNode ℝ)}
    (hblock : block ∈ blocks) {k : ℕ} (hk : k < block.length) :
    block[k].alpha = recursionFactor geometry * moment (block.take (k + 1)) := by
  obtain ⟨start, followers, rfl, hweight, -, halpha, hfollowers⟩ := h.exists_chained hblock
  -- Without weight the start adds nothing.
  rw [List.take_succ_cons, moment_cons, hweight, zero_mul, zero_add]
  cases k with
  | zero => simp [halpha, moment]
  | succ k =>
    rw [List.getElem_cons_succ, hfollowers.alpha_eq (Nat.lt_of_succ_lt_succ hk), halpha, zero_add]
    rfl

theorem onLevel_eq (h : r.HasBlocks geometry blocks) {i : ℕ} (hi : i < blocks.length) :
    r.onLevel i = blocks[i] :=
  h.filter_level hi

theorem onLevel_mem (h : r.HasBlocks geometry blocks) {i : ℕ} (hi : i < r.levels) :
    r.onLevel i ∈ blocks := by
  have hi : i < blocks.length := h.levels_eq ▸ hi
  exact h.onLevel_eq hi ▸ List.getElem_mem hi

/-- The nodes up to a node are, on its level, a prefix of the level. -/
theorem alpha_getElem (h : r.HasBlocks geometry blocks) {m : ℕ} (hm : m < r.nodes.length) :
    r.nodes[m].alpha = recursionFactor geometry *
      moment ((r.nodes.take (m + 1)).filter (·.level == r.nodes[m].level)) := by
  have hmem := h.onLevel_mem (levels_le_iff.mp le_rfl _ (List.getElem_mem hm))
  obtain ⟨k, hk, hget, htake⟩ := exists_take_filter (p := (·.level == r.nodes[m].level)) hm
    (beq_self_eq_true _)
  have hprefix := h.alpha_eq hmem hk
  rw [htake]
  exact (congrArg (·.alpha) hget).symm.trans hprefix

/-- A level is closed by its whole moment. -/
theorem closingAlphas_eq (h : r.HasBlocks geometry blocks) :
    r.closingAlphas =
      (List.range r.levels).map fun i => (i, recursionFactor geometry * moment (r.onLevel i)) := by
  -- The runs of nodes with equal numbers are the levels, in the order of these numbers.
  have hgroups : groupLevels r.nodes = (List.range r.levels).map r.onLevel := by
    rw [h.nodes, groupLevels_flatten h.nil_notMem h.level]
    refine List.ext_getElem (by simp [h.levels_eq]) fun i hi _ => ?_
    rw [List.getElem_map, List.getElem_range, h.onLevel_eq hi]
  rw [closingAlphas, hgroups, List.filterMap_map, List.filterMap_eq_map_iff_forall_eq_some]
  intro i hi
  have hmem := h.onLevel_mem (List.mem_range.mp hi)
  have hne : r.onLevel i ≠ [] := fun hnil => h.nil_notMem (hnil ▸ hmem)
  have hpos := List.length_pos_iff.mpr hne
  have hlevel : ((r.onLevel i).getLast hne).level = i := by
    simpa using (List.mem_filter.mp (List.getLast_mem hne)).2
  have halpha : ((r.onLevel i).getLast hne).alpha =
      recursionFactor geometry * moment (r.onLevel i) := by
    rw [List.getLast_eq_getElem, h.alpha_eq hmem (by omega), Nat.sub_add_cancel hpos,
      List.take_length]
  simp [List.getLast?_eq_getLast_of_ne_nil hne, hlevel, halpha]

theorem alpha_nonpos (h : r.HasBlocks geometry blocks) {block : List (AngularNode ℝ)}
    (hblock : block ∈ blocks) (hweights : ∀ node ∈ block, 0 ≤ node.weight)
    (hascends : (block.filter (·.dependent)).Pairwise (·.ordinate.x ≤ ·.ordinate.x))
    (hzero : moment block = 0) {node : AngularNode ℝ} (hnode : node ∈ block) : node.alpha ≤ 0 := by
  obtain ⟨k, hk, rfl⟩ := List.mem_iff_getElem.mp hnode
  rw [h.alpha_eq hblock hk]
  refine mul_nonpos_of_nonneg_of_nonpos recursionFactor_pos.le ?_
  obtain ⟨start, followers, rfl, hweight, hindependent, -, hfollowers⟩ := h.exists_chained hblock
  -- Of the start neither the cosine nor the weight counts, so only what follows has to ascend.
  have hdependents : (start :: followers).filter (·.dependent) = followers := by
    rw [List.filter_cons_of_neg (by simp [hindependent])]
    exact List.filter_eq_self.mpr fun node hnode => hfollowers.dependent hnode
  rw [hdependents] at hascends
  rw [moment_cons, hweight, zero_mul, zero_add] at hzero
  rw [List.take_succ_cons, moment_cons, hweight, zero_mul, zero_add]
  exact moment_take_nonpos (List.forall_mem_cons.mp hweights).2 hascends hzero k

/-- The normalised weights are those of the sweep, and add up to one. -/
theorem sum_weight (h : r.HasBlocks geometry blocks) : (r.nodes.map (·.weight)).sum = 1 := by
  have hweights : r.nodes.map (·.weight) = r.sweep.ordinates.map fun o =>
      o.weight / (r.sweep.ordinates.map (·.weight)).sum := by
    simpa [List.map_map, Function.comp_def] using congrArg (List.map Prod.snd) h.weights
  simp only [hweights, div_eq_mul_inv]
  rw [List.sum_map_mul_right, mul_inv_cancel₀ h.positive.ne']

end HasBlocks

/-! ## Main statement -/

/-- The weights of the nodes are those of the sweep, normalised to one, and `α` of a node is
the moment of its level up to the node, taken twice on a sphere. So the last `α` of a level
comes from its whole moment. It is zero where opposite cosines balance, and where it is zero
no `α` of a level with ascending cosines is positive. -/
theorem alpha_eq_moment {q : Quadrature ℝ} {geometry : Geometry} {meshDimension : ℕ}
    {r : AngularRedistribution ℝ} (hgeometry : geometry.isCurvilinear)
    (h : ofQuadrature q geometry meshDimension = .ok r) :
    r.nodes.map (fun node => (node.ordinate, node.weight)) =
      r.sweep.ordinates.map (fun o => (o, o.weight / (r.sweep.ordinates.map (·.weight)).sum)) ∧
    (r.nodes.map (·.weight)).sum = 1 ∧
    (∀ m (hm : m < r.nodes.length), r.nodes[m].alpha = (if geometry = .spherical then 2 else 1) *
      moment ((r.nodes.take (m + 1)).filter (·.level == r.nodes[m].level))) ∧
    r.closingAlphas = (List.range r.levels).map (fun i =>
      (i, (if geometry = .spherical then 2 else 1) * moment (r.onLevel i))) ∧
    ∀ i < r.levels,
      (IsBalanced (r.onLevel i) → (i, 0) ∈ r.closingAlphas) ∧
      ((∀ node ∈ r.onLevel i, 0 ≤ node.weight) →
        ((r.onLevel i).filter (·.dependent)).Pairwise (·.ordinate.x ≤ ·.ordinate.x) →
        (i, 0) ∈ r.closingAlphas → ∀ node ∈ r.onLevel i, node.alpha ≤ 0) := by
  obtain ⟨blocks, hblocks⟩ := exists_hasBlocks hgeometry h
  have hclosing := hblocks.closingAlphas_eq
  have hcloses : ∀ i < r.levels, (i, 0) ∈ r.closingAlphas ↔ moment (r.onLevel i) = 0 := by
    intro i hi
    rw [hclosing]
    simp [hi, recursionFactor_pos.ne']
  rw [← recursionFactor_eq]
  refine ⟨hblocks.weights, hblocks.sum_weight, fun m hm => hblocks.alpha_getElem hm, hclosing,
    fun i hi => ⟨fun hbalanced => (hcloses i hi).mpr (moment_eq_zero hbalanced), ?_⟩⟩
  intro hweights hascends hzero node hnode
  have hmoment := (hcloses i hi).mp hzero
  exact hblocks.alpha_nonpos (hblocks.onLevel_mem hi) hweights hascends hmoment hnode

/-- Two opposite directions on a sphere balance, so `α` returns to zero from below. -/
theorem alpha_eq_moment_beams : ∃ r, ofQuadrature (beams (-0.5) 0.5) .spherical 1 = .ok r ∧
    Geometry.spherical.isCurvilinear = true ∧ IsBalanced (r.onLevel 0) ∧
    (0, 0) ∈ r.closingAlphas ∧ (∀ node ∈ r.onLevel 0, node.alpha ≤ 0) ∧
    ∃ hm : 1 < r.nodes.length, r.nodes[1].alpha = -0.5 := by
  obtain ⟨r, hr, hnodes⟩ := exists_ofQuadrature_beams (a := -0.5) (b := 0.5) (by norm_num)
  have hlevel : r.onLevel 0 = twoNodes .spherical ⟨-0.5, 0, 0, 1⟩ ⟨0.5, 0, 0, 1⟩ := by
    rw [onLevel, hnodes]
    rfl
  have hlevels : 0 < r.levels := by
    simp [levels, hnodes, twoNodes]
  have hbalanced : IsBalanced (r.onLevel 0) := by
    have hat : ∀ c, weightAt (r.onLevel 0) c =
        (if -0.5 = c then 0.5 else 0) + if 0.5 = c then 0.5 else 0 := by
      intro c
      simp [hlevel, twoNodes, weightAt_cons, weightAt_nil]
    intro c
    have hopposite : 0.5 = -c ↔ -0.5 = c := by
      rw [eq_neg_iff_add_eq_zero, neg_eq_iff_add_eq_zero]
    rw [hat, hat, if_congr neg_inj rfl rfl, if_congr hopposite rfl rfl, add_comm]
  have hweights : ∀ node ∈ r.onLevel 0, 0 ≤ node.weight := by
    simp [hlevel, twoNodes]
    norm_num
  have hascends : ((r.onLevel 0).filter (·.dependent)).Pairwise (·.ordinate.x ≤ ·.ordinate.x) := by
    simp [hlevel, twoNodes]
    norm_num
  have hm : 1 < r.nodes.length := by simp [hnodes, twoNodes]
  obtain ⟨-, -, halpha, -, hsigns⟩ := alpha_eq_moment (by rfl) hr
  obtain ⟨hcloses, hnonpos⟩ := hsigns 0 hlevels
  refine ⟨r, hr, rfl, hbalanced, hcloses hbalanced, hnonpos hweights hascends (hcloses hbalanced),
    hm, ?_⟩
  rw [halpha 1 hm]
  simp [hnodes, twoNodes, moment]
  norm_num

end AngularRedistribution

end DiscreteOrdinates
