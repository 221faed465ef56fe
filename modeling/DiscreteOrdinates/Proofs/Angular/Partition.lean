import DiscreteOrdinates.Proofs.Angular.Cells

/-!
# Partition of a level

The edges that the recursion of a level passes lead from one end of the level to the
other, and each lies above the one before it. So they cut the level into cells, and
`τ` divides the cell of a node at its cosine. A level can be closed exactly if its
edges ascend, that is, if all nodes behind its start carry weight and it has a width.
Main statement: `edges_partition`.
-/

namespace DiscreteOrdinates

namespace AngularRedistribution

namespace LevelShape

/-! ## Edges -/

/-- The lower edges that the recursion passes, from the one in front of the nodes to the
one behind them. -/
def edges {R : Type} [Scalar R] (s : LevelShape R) (e : Edge R) : List (AngularNode R) → List R
  | [] => [e.lower]
  | node :: nodes => e.lower :: s.edges (s.next e node) nodes

variable {s : LevelShape ℝ} {w : ℝ} {e : Edge ℝ} {nodes : List (AngularNode ℝ)}

theorem length_edges : (s.edges e nodes).length = nodes.length + 1 := by
  induction nodes generalizing e with
  | nil => rfl
  | cons node nodes ih => rw [edges, List.length_cons, ih, List.length_cons]

theorem head?_edges : (s.edges e nodes).head? = some e.lower := by
  cases nodes <;> rfl

/-- The edges are those that the weights cut, added up from where the recursion stands. -/
theorem StandsBehind.getElem_edges (he : s.StandsBehind w e) {k : ℕ}
    (hk : k < (s.edges e nodes).length) :
    (s.edges e nodes)[k] = s.edge (w + ((nodes.take k).map (·.weight)).sum) := by
  induction nodes generalizing w e k with
  | nil =>
    obtain rfl : k = 0 := Nat.lt_one_iff.mp hk
    simpa [edges] using he.lower
  | cons node nodes ih =>
    cases k with
    | zero => simpa [edges] using he.lower
    | succ k =>
      have hnext := ih (he.next node) (Nat.lt_of_succ_lt_succ hk)
      simpa [edges, add_assoc] using hnext

theorem isChain_edges_cons {node : AngularNode ℝ} :
    (s.edges e (node :: nodes)).IsChain (· < ·) ↔
      e.lower < (s.next e node).lower ∧ (s.edges (s.next e node) nodes).IsChain (· < ·) := by
  cases nodes <;> exact List.isChain_cons_cons

/-- A level can be closed exactly if its edges ascend. -/
theorem exists_close_iff {index : ℕ} :
    (∃ closed, s.close index e nodes = .ok closed) ↔ (s.edges e nodes).IsChain (· < ·) := by
  induction nodes generalizing index e with
  | nil => exact iff_of_true ⟨[], rfl⟩ (.singleton _)
  | cons node nodes ih =>
    rw [isChain_edges_cons, ← @ih _ (index + 1), close]
    simp only [Scalar.zero_real, sub_nonpos]
    by_cases hwidth : (s.next e node).lower ≤ e.lower
    · simp [hwidth, hwidth.not_gt]
    · rw [if_neg hwidth, and_iff_right (not_le.mp hwidth)]
      cases s.close (index + 1) (s.next e node) nodes <;> simp

/-! ## Ends -/

theorem edge_zero : s.edge 0 = if s.geometry = .spherical then -1 else -s.radius := by
  unfold edge
  cases s.geometry <;> simp

/-- The whole weight of a level leads to its other end. -/
theorem edge_weight (hs : 0 < s.weight) :
    s.edge s.weight = if s.geometry = .spherical then 1 else s.radius := by
  have hwhole : ∀ c : ℝ, c * s.weight / s.weight = c := fun c => mul_div_cancel_right₀ c hs.ne'
  unfold edge
  cases s.geometry with
  | spherical =>
    simp only [hwhole, if_true, Scalar.two_real]
    norm_num
  | cartesian => simp [hwhole]
  | axisymmetric => simp [hwhole]

/-- More weight leads to a higher edge, unless the level has no width. -/
theorem edge_lt_edge_iff (hs : 0 < s.weight) (hradius : 0 ≤ s.radius) {v : ℝ} (hv : 0 ≤ v)
    (hw : w ≤ s.weight) (hvw : v ≤ w) :
    s.edge v < s.edge w ↔ v < w ∧ (s.geometry = .spherical ∨ 0 < s.radius) := by
  have hcircle : s.radius * Real.cos (Real.pi - Real.pi * v / s.weight) <
      s.radius * Real.cos (Real.pi - Real.pi * w / s.weight) ↔ v < w ∧ 0 < s.radius := by
    rcases hradius.eq_or_lt with hzero | hpos
    · simp [← hzero]
    · have hangle : ∀ u : ℝ, 0 ≤ u → u ≤ s.weight →
          Real.pi * u / s.weight ∈ Set.Icc 0 Real.pi := by
        intro u hu hus
        refine ⟨by positivity, ?_⟩
        rw [div_le_iff₀ hs]
        exact mul_le_mul_of_nonneg_left hus Real.pi_nonneg
      rw [mul_lt_mul_iff_of_pos_left hpos, Real.cos_pi_sub, Real.cos_pi_sub, neg_lt_neg_iff,
        Real.strictAntiOn_cos.lt_iff_gt (hangle w (hv.trans hvw) hw) (hangle v hv (hvw.trans hw)),
        div_lt_div_iff_of_pos_right hs, mul_lt_mul_iff_of_pos_left Real.pi_pos]
      exact (and_iff_left hpos).symm
  unfold edge
  cases s.geometry with
  | spherical =>
    simp [div_lt_div_iff_of_pos_right hs, Scalar.two_real]
  | cartesian => simpa using hcircle
  | axisymmetric => simpa using hcircle

/-- The edges ascend exactly if all nodes carry weight, in a level that has a width if
there are any. -/
theorem StandsBehind.isChain_edges_iff (he : s.StandsBehind w e) (hradius : 0 ≤ s.radius)
    (hs : 0 < s.weight) (hw : 0 ≤ w) (hnodes : ∀ node ∈ nodes, 0 ≤ node.weight)
    (htotal : w + (nodes.map (·.weight)).sum ≤ s.weight) :
    (s.edges e nodes).IsChain (· < ·) ↔
      (∀ node ∈ nodes, 0 < node.weight) ∧
        (nodes ≠ [] → s.geometry = .spherical ∨ 0 < s.radius) := by
  induction nodes generalizing w e with
  | nil => exact iff_of_true (.singleton _) ⟨by simp, by simp⟩
  | cons node nodes ih =>
    obtain ⟨hnode, hrest⟩ := List.forall_mem_cons.mp hnodes
    rw [List.map_cons, List.sum_cons, ← add_assoc] at htotal
    have hsum : 0 ≤ (nodes.map (·.weight)).sum :=
      List.sum_nonneg (List.forall_mem_map.mpr hrest)
    have hnext := he.next node
    rw [isChain_edges_cons, ih hnext (add_nonneg hw hnode) hrest htotal, he.lower, hnext.lower,
      edge_lt_edge_iff hs hradius hw (by linarith) (by linarith), lt_add_iff_pos_right,
      List.forall_mem_cons]
    simp only [ne_eq, reduceCtorEq, not_false_eq_true, forall_const]
    tauto

end LevelShape

/-! ## Levels that can be closed -/

/-- The edges that closing a level passes, given the nodes behind its start. -/
noncomputable def levelEdges (geometry : Geometry) (start : AngularNode ℝ)
    (nodes : List (AngularNode ℝ)) : List ℝ :=
  let s := levelShape geometry start nodes
  s.edges s.start nodes

section

variable {geometry : Geometry} {index : ℕ} {start : AngularNode ℝ} {nodes : List (AngularNode ℝ)}

theorem closeLevel_eq_ok {closed : List (AngularNode ℝ)} :
    closeLevel geometry index (start :: nodes) = .ok closed ↔
      0 < (levelShape geometry start nodes).weight ∧ ∃ rest,
        (levelShape geometry start nodes).close (index + 1)
          (levelShape geometry start nodes).start nodes = .ok rest ∧ closed = start :: rest := by
  have hshape : (⟨geometry, Scalar.sum ((start :: nodes).map (·.weight)), Scalar.sqrt
      (Scalar.positivePart (1.0 - start.ordinate.z * start.ordinate.z))⟩ : LevelShape ℝ) =
        levelShape geometry start nodes := by
    simp [levelShape, Scalar.one_real]
  have hweight : Scalar.sum ((start :: nodes).map (·.weight)) =
      (levelShape geometry start nodes).weight := Scalar.sum_real _
  rw [closeLevel]
  simp only [hshape]
  rw [hweight, Scalar.zero_real, ← not_le]
  by_cases hempty : (levelShape geometry start nodes).weight ≤ 0
  · simp [hempty]
  · rw [if_neg hempty, and_iff_right hempty]
    cases (levelShape geometry start nodes).close (index + 1)
      (levelShape geometry start nodes).start nodes with
    | error cause => simp
    | ok rest => simp [eq_comm]

theorem radius_pos_iff : 0 < (levelShape geometry start nodes).radius ↔ |start.ordinate.z| < 1 := by
  rw [levelShape, Real.sqrt_pos, lt_max_iff, or_iff_left (lt_irrefl 0), sub_pos, ← pow_two,
    sq_lt_one_iff_abs_lt_one]

/-- A level with weight can be closed exactly if all nodes behind its start carry weight
and, should there be any on a circle, the circle is not a pole. -/
theorem exists_closeLevel_iff (hgeometry : geometry.isCurvilinear)
    (hnonneg : ∀ node ∈ start :: nodes, 0 ≤ node.weight)
    (hpos : 0 < ((start :: nodes).map (·.weight)).sum) :
    (∃ closed, closeLevel geometry index (start :: nodes) = .ok closed) ↔
      (∀ node ∈ nodes, 0 < node.weight) ∧
      (nodes ≠ [] → geometry = .axisymmetric → |start.ordinate.z| < 1) := by
  have hclose : (∃ closed, closeLevel geometry index (start :: nodes) = .ok closed) ↔
      ∃ rest, (levelShape geometry start nodes).close (index + 1)
        (levelShape geometry start nodes).start nodes = .ok rest := by
    simp only [closeLevel_eq_ok]
    exact ⟨fun ⟨_, _, rest, h, _⟩ => ⟨rest, h⟩, fun ⟨rest, h⟩ => ⟨_, hpos, rest, h, rfl⟩⟩
  obtain ⟨hstart, hnodes⟩ := List.forall_mem_cons.mp hnonneg
  have htotal : 0 + (nodes.map (·.weight)).sum ≤ (levelShape geometry start nodes).weight := by
    rw [levelShape, List.map_cons, List.sum_cons]
    linarith
  rw [hclose, LevelShape.exists_close_iff,
    (LevelShape.standsBehind_start _).isChain_edges_iff (Real.sqrt_nonneg _) hpos le_rfl hnodes
      htotal,
    radius_pos_iff]
  have hcurved : geometry = .spherical ∨ |start.ordinate.z| < 1 ↔
      (geometry = .axisymmetric → |start.ordinate.z| < 1) := by
    cases geometry <;> simp [Geometry.isCurvilinear] at hgeometry ⊢
  exact and_congr_right fun _ => imp_congr_right fun _ => hcurved

end

/-! ## Cells -/

/-- Edges that cut the interval from `-r` to `r` into one cell for each node, where `τ`
divides the cell at the cosine of the node. -/
structure Partitions (edges : List ℝ) (r : ℝ) (nodes : List (AngularNode ℝ)) : Prop where
  length : edges.length = nodes.length + 1
  head : edges.head? = some (-r)
  last : edges.getLast? = some r
  ascending : edges.Pairwise (· < ·)
  divided : ∀ k (hk : k < nodes.length) (hlower : k < edges.length) (hupper : k + 1 < edges.length),
    nodes[k].ordinate.x = (1 - nodes[k].tau) * edges[k] + nodes[k].tau * edges[k + 1]

theorem radius_eq {geometry : Geometry} {start : AngularNode ℝ} {nodes : List (AngularNode ℝ)} :
    (levelShape geometry start nodes).radius = √(1 - start.ordinate.z ^ 2) := by
  rw [levelShape, ← pow_two]
  rcases le_total 0 (1 - start.ordinate.z ^ 2) with h | h
  · rw [max_eq_left h]
  · rw [max_eq_right h, Real.sqrt_zero, Real.sqrt_eq_zero_of_nonpos h]

/-- What closing a level does with it, if its start carries no weight. -/
theorem partitions_of_closeLevel {geometry : Geometry} {index : ℕ} {start : AngularNode ℝ}
    {nodes closed : List (AngularNode ℝ)}
    (hopen : ∀ node ∈ start :: nodes, node.dependent = false ∧ node.alpha = 0)
    (hstart : start.weight = 0) (h : closeLevel geometry index (start :: nodes) = .ok closed) :
    ∃ followers, closed = start :: followers ∧ Partitions (levelEdges geometry start nodes)
      (if geometry = .spherical then 1 else √(1 - start.ordinate.z ^ 2)) followers := by
  have hclosed := isClosed_closeLevel (List.cons_ne_nil _ _) hopen h
  obtain ⟨hpos, followers, hclose, rfl⟩ := closeLevel_eq_ok.mp h
  have hweights := map_eq_of_closesTo ClosesTo.weight (LevelShape.forall₂_close (LevelShape.meets_start _) hclose)
  have hlength : followers.length = nodes.length := by
    simpa using congrArg List.length hweights
  have hlengths : (levelEdges geometry start nodes).length = followers.length + 1 := by
    rw [levelEdges, LevelShape.length_edges, hlength]
  -- Closing keeps weights, so the edges are also those of the closed nodes.
  have hshape : levelShape geometry start followers = levelShape geometry start nodes := by
    rw [levelShape, levelShape, List.map_cons, List.map_cons, hweights]
  have hedge : ∀ k (hk : k < (levelEdges geometry start nodes).length),
      (levelEdges geometry start nodes)[k] =
        (levelShape geometry start followers).edgeAt followers k := by
    intro k hk
    have hget := (LevelShape.standsBehind_start
      (levelShape geometry start nodes)).getElem_edges hk
    rw [hshape, LevelShape.edgeAt, List.map_take, hweights, ← List.map_take]
    exact hget.trans (by rw [zero_add])
  refine ⟨followers, rfl, hlengths, ?_, ?_, ?_, ?_⟩
  · rw [levelEdges, LevelShape.head?_edges, (LevelShape.standsBehind_start _).lower,
      LevelShape.edge_zero, radius_eq, levelShape]
    split <;> rfl
  · -- The last edge stands behind the whole weight, as the start has none of it.
    have hwhole : ((followers.take followers.length).map (·.weight)).sum =
        (levelShape geometry start nodes).weight := by
      simp [levelShape, hstart, hweights]
    rw [List.getLast?_eq_getElem?, hlengths, Nat.add_sub_cancel,
      List.getElem?_eq_getElem (by omega), hedge, LevelShape.edgeAt, hwhole, hshape,
      LevelShape.edge_weight hpos, radius_eq, levelShape]
  · exact (LevelShape.exists_close_iff.mp ⟨followers, hclose⟩).pairwise
  · intro k hk hlower hupper
    cases hclosed with
    | intro _ _ hfollowers =>
      obtain ⟨hwidth, htau⟩ := hfollowers.edgeAt hk
      rw [hedge k hlower, hedge (k + 1) hupper, htau]
      have hne := sub_ne_zero.mpr hwidth.ne'
      field_simp
      ring

/-- The nodes with the number of a level are a level, and were closed from a start without
weight. -/
theorem exists_closeLevel_of_lt_levels {q : Quadrature ℝ} {geometry : Geometry} {meshDimension : ℕ}
    {r : AngularRedistribution ℝ} (hgeometry : geometry.isCurvilinear)
    (hweights : ∀ w ∈ q.table.wt, 0 ≤ w) (h : ofQuadrature q geometry meshDimension = .ok r)
    {i : ℕ} (hi : i < r.levels) :
    IsLevel i (r.nodes.filter (·.level == i)) ∧ ∃ index start nodes, start.weight = 0 ∧
      (∀ node ∈ start :: nodes, node.dependent = false ∧ node.alpha = 0) ∧
      closeLevel geometry index (start :: nodes) = .ok (r.nodes.filter (·.level == i)) := by
  obtain ⟨-, -, levels, -, hlevels⟩ := exists_hasLevels hgeometry hweights h
  obtain ⟨blocks, hblocks⟩ := exists_hasBlocks hgeometry h
  constructor
  · rw [← hlevels.length_eq_levels] at hi
    rw [hlevels.1, filter_level_flatten (fun j hj _ => (hlevels.2 j hj).level_eq) hi]
    exact hlevels.2 i hi
  · rw [hblocks.levels_eq] at hi
    rw [hblocks.filter_level hi]
    exact hblocks.closed _ (List.getElem_mem hi)

/-- The edges of every level of a redistribution lead from one end of the level to the
other and ascend, and the `τ` of each node behind the start divides its cell at its
cosine. A level with weight can be closed exactly if all nodes behind its start carry
weight and, should there be any on a circle, the circle is not a pole. -/
theorem edges_partition :
    (∀ {q : Quadrature ℝ} {geometry : Geometry} {meshDimension : ℕ} {r : AngularRedistribution ℝ},
      geometry.isCurvilinear → (∀ w ∈ q.table.wt, 0 ≤ w) →
      ofQuadrature q geometry meshDimension = .ok r → ∀ i < r.levels,
      ∃ index start nodes followers,
        r.nodes.filter (·.level == i) = start :: followers ∧
        closeLevel geometry index (start :: nodes) = .ok (start :: followers) ∧
        start.dependent = false ∧ (∀ node ∈ followers, node.dependent = true) ∧
        Partitions (levelEdges geometry start nodes)
          (if geometry = .spherical then 1 else √(1 - start.ordinate.z ^ 2)) followers) ∧
    ∀ {geometry : Geometry} {index : ℕ} {start : AngularNode ℝ} {nodes : List (AngularNode ℝ)},
      geometry.isCurvilinear → (∀ node ∈ start :: nodes, 0 ≤ node.weight) →
      0 < ((start :: nodes).map (·.weight)).sum →
      ((∃ closed, closeLevel geometry index (start :: nodes) = .ok closed) ↔
        (∀ node ∈ nodes, 0 < node.weight) ∧
        (nodes ≠ [] → geometry = .axisymmetric → |start.ordinate.z| < 1)) := by
  refine ⟨fun hgeometry hweights h i hi => ?_, exists_closeLevel_iff⟩
  obtain ⟨hlevel, index, start, nodes, hstart, hopen, hclose⟩ :=
    exists_closeLevel_of_lt_levels hgeometry hweights h hi
  obtain ⟨followers, hfilter, hpartitions⟩ := partitions_of_closeLevel hopen hstart hclose
  rw [hfilter] at hlevel hclose
  cases hlevel with
  | intro hindependent hfollowers =>
    exact ⟨index, start, nodes, followers, hfilter, hclose, hindependent.independent,
      fun node hnode => (hfollowers node hnode).dependent, hpartitions⟩

/-- Two directions share the interval, although they lie in its upper half, and at the pole
of a circle no direction can follow the start. -/
theorem edges_partition_beams :
    (∃ r, ofQuadrature (beams 0.6 0.8) .spherical 1 = .ok r ∧
      Geometry.spherical.isCurvilinear = true ∧ (∀ w ∈ (beams 0.6 0.8).table.wt, 0 ≤ w) ∧
      0 < r.levels ∧ ∃ start nodes followers, r.nodes.filter (·.level == 0) = start :: followers ∧
        followers.length = 2 ∧ Partitions (levelEdges .spherical start nodes) 1 followers) ∧
    (let start : AngularNode ℝ :=
      { ordinate := ⟨0, 0, 1, 0⟩, weight := 0, level := 0, alpha := 0, tau := 1 }
    let node : AngularNode ℝ :=
      { ordinate := ⟨0, 0, 1, 1⟩, weight := 1, level := 0, alpha := 0, tau := 1 }
    Geometry.axisymmetric.isCurvilinear = true ∧ (∀ a ∈ [start, node], 0 ≤ a.weight) ∧
      0 < ([start, node].map (·.weight)).sum ∧
      ¬ ∃ closed, closeLevel .axisymmetric 0 [start, node] = .ok closed) := by
  constructor
  · obtain ⟨r, hr, hnodes⟩ := exists_ofQuadrature_beams (a := 0.6) (b := 0.8) (by norm_num)
    have hweights : ∀ w ∈ (beams 0.6 0.8).table.wt, 0 ≤ w := by simp [beams]
    have hlevels : 0 < r.levels := by simp [levels, hnodes, twoNodes]
    obtain ⟨index, start, nodes, followers, hfilter, -, -, -, hpartitions⟩ :=
      edges_partition.1 (by rfl) hweights hr 0 hlevels
    have hlength : followers.length = 2 := by
      simpa [hnodes, twoNodes] using (congrArg List.length hfilter).symm
    exact ⟨r, hr, rfl, hweights, hlevels, start, nodes, followers, hfilter, hlength, hpartitions⟩
  · intro start node
    have hnonneg : ∀ a ∈ [start, node], 0 ≤ a.weight := by simp [start, node]
    have hpos : 0 < ([start, node].map (·.weight)).sum := by simp [start, node]
    refine ⟨rfl, hnonneg, hpos, fun hclosed => ?_⟩
    have hinside := ((edges_partition.2 (by rfl) hnonneg hpos).mp hclosed).2 (by simp) rfl
    simp [start] at hinside

end AngularRedistribution

end DiscreteOrdinates
