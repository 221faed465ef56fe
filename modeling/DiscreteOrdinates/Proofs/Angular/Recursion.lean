import DiscreteOrdinates.Proofs.Angular.Structure

/-!
# Recursion along a level

What a closed level holds behind its start. The edges of its cells are those that
the weights cut, added up from the start, and `α` and `τ` of a node come from the
node before it and from the cell that its own weight takes. Node by node this
links a whole redistribution, since a level begins where nothing depends on
anything.
-/

namespace DiscreteOrdinates

namespace AngularRedistribution

/-! ## Edges -/

namespace LevelShape

/-- The edge behind the weight `w` of a level. -/
noncomputable def edge (s : LevelShape ℝ) (w : ℝ) : ℝ :=
  match s.geometry with
  | .spherical => -1 + 2.0 * w / s.weight
  | _ => s.radius * Real.cos (Real.pi - Real.pi * w / s.weight)

/-- That the recursion has come to the edge behind the weight `w`. -/
structure StandsBehind (s : LevelShape ℝ) (w : ℝ) (e : Edge ℝ) : Prop where
  lower : e.lower = s.edge w
  azimuth : e.azimuth = Real.pi - Real.pi * w / s.weight

theorem standsBehind_start (s : LevelShape ℝ) : s.StandsBehind 0 s.start where
  lower := by
    unfold start edge
    cases s.geometry <;> simp [Scalar.one_real]
  azimuth := by simp [start]

theorem StandsBehind.next {s : LevelShape ℝ} {w : ℝ} {e : Edge ℝ} (h : s.StandsBehind w e)
    (node : AngularNode ℝ) : s.StandsBehind (w + node.weight) (s.next e node) := by
  have hazimuth : s.nextAzimuth e node.weight =
      Real.pi - Real.pi * (w + node.weight) / s.weight := by
    rw [nextAzimuth, h.azimuth, Scalar.pi_real]
    ring
  refine ⟨?_, hazimuth⟩
  have hlower := h.lower
  have hupper : (s.next e node).lower = s.upper e node.weight := rfl
  rw [hupper]
  unfold upper
  unfold edge at hlower ⊢
  cases hgeometry : s.geometry with
  | spherical =>
    rw [hgeometry] at hlower
    simp only [hlower, Scalar.two_real]
    ring
  | cartesian => simp only [hazimuth, Scalar.cos_real]
  | axisymmetric => simp only [hazimuth, Scalar.cos_real]

/-! ## Nodes behind a start -/

/-- A node that depends on the node `before` it, and on the weight `w` that its
level has up to there. -/
structure Follows (s : LevelShape ℝ) (w : ℝ) (before node : AngularNode ℝ) : Prop where
  dependent : node.dependent = true
  alpha : node.alpha = before.alpha + recursionFactor s.geometry * node.weight * node.ordinate.x
  width : s.edge w < s.edge (w + node.weight)
  tau : node.tau = (node.ordinate.x - s.edge w) / (s.edge (w + node.weight) - s.edge w)

/-- Nodes of which each depends on the one before it, and the first on `before`. -/
inductive Chained (s : LevelShape ℝ) : ℝ → AngularNode ℝ → List (AngularNode ℝ) → Prop where
  | nil {w : ℝ} {before : AngularNode ℝ} : Chained s w before []
  | cons {w : ℝ} {before node : AngularNode ℝ} {nodes : List (AngularNode ℝ)}
      (hnode : s.Follows w before node) (hnodes : Chained s (w + node.weight) node nodes) :
      Chained s w before (node :: nodes)

theorem chained_close {s : LevelShape ℝ} {index : ℕ} {w : ℝ} {e : Edge ℝ} {before : AngularNode ℝ}
    {nodes closed : List (AngularNode ℝ)} (he : s.StandsBehind w e) (hbefore : before.alpha = e.alpha)
    (h : s.close index e nodes = .ok closed) : s.Chained w before closed := by
  -- Along the nodes, the edge stands behind their weight and carries the last `α`.
  induction nodes generalizing index w e before closed with
  | nil =>
    cases h
    exact .nil
  | cons node nodes ih =>
    have hnext := he.next node
    unfold close at h
    simp only at h
    split at h
    · cases h
    next hwidth =>
      rw [Scalar.zero_real, not_le, sub_pos, he.lower, hnext.lower] at hwidth
      split at h
      next rest hrest =>
        cases h
        refine .cons ⟨rfl, ?_, hwidth, ?_⟩ (ih hnext rfl hrest)
        · rw [hbefore]
          rfl
        · rw [← he.lower, ← hnext.lower]
      next => cases h

/-- What each node has to do with the nodes and the weight before it. -/
theorem Chained.exists_follows {s : LevelShape ℝ} {w : ℝ} {before : AngularNode ℝ}
    {nodes : List (AngularNode ℝ)} (h : s.Chained w before nodes) {k : ℕ} (hk : k < nodes.length) :
    ∃ b, s.Follows (w + ((nodes.take k).map (·.weight)).sum) b nodes[k] := by
  induction h generalizing k with
  | nil => simp at hk
  | @cons w before node nodes hnode _ ih =>
    cases k with
    | zero => exact ⟨before, by simpa using hnode⟩
    | succ k =>
      obtain ⟨b, hb⟩ := ih (Nat.lt_of_succ_lt_succ hk)
      refine ⟨b, ?_⟩
      rw [List.take_succ_cons, List.map_cons, List.sum_cons, ← add_assoc]
      exact hb

end LevelShape

/-! ## Closed levels -/

/-- The shape of a level with its first node and those behind it. -/
noncomputable def levelShape (geometry : Geometry) (start : AngularNode ℝ)
    (followers : List (AngularNode ℝ)) : LevelShape ℝ :=
  { geometry
    weight := ((start :: followers).map (·.weight)).sum
    radius := √(max (1 - start.ordinate.z * start.ordinate.z) 0) }

/-- The nodes of a level that is closed: the first one depends on nothing, each
other one on the node before it. -/
inductive IsClosed (geometry : Geometry) : List (AngularNode ℝ) → Prop where
  | intro {start : AngularNode ℝ} {followers : List (AngularNode ℝ)}
      (hindependent : start.dependent = false) (halpha : start.alpha = 0)
      (hfollowers : (levelShape geometry start followers).Chained 0 start followers) :
      IsClosed geometry (start :: followers)

theorem isClosed_closeLevel {geometry : Geometry} {index : ℕ} {nodes closed : List (AngularNode ℝ)}
    (hnodes : nodes ≠ []) (hopen : ∀ node ∈ nodes, node.dependent = false ∧ node.alpha = 0)
    (h : closeLevel geometry index nodes = .ok closed) : IsClosed geometry closed := by
  cases nodes with
  | nil => exact absurd rfl hnodes
  | cons first dependents =>
    obtain ⟨hindependent, halpha⟩ := hopen first List.mem_cons_self
    unfold closeLevel at h
    simp only at h
    split at h
    · cases h
    · split at h
      next rest hrest =>
        cases h
        have hweights := map_eq_of_closesTo ClosesTo.weight
          (LevelShape.forall₂_close (LevelShape.meets_start _) hrest)
        have hchained := LevelShape.chained_close (LevelShape.standsBehind_start _)
          (halpha.trans Scalar.zero_real.symm) hrest
        refine .intro hindependent halpha ?_
        rw [levelShape, List.map_cons, hweights, ← List.map_cons]
        simpa [Scalar.one_real] using hchained
      next => cases h

/-- The nodes of a redistribution in a curvilinear geometry, level by level. There is a
level for each distinct `z`, and it was closed by itself, from nodes that did not depend on
anything yet and of which the first had no weight. -/
structure HasBlocks (geometry : Geometry) (r : AngularRedistribution ℝ)
    (blocks : List (List (AngularNode ℝ))) : Prop where
  nodes : r.nodes = blocks.flatten
  level : ∀ i (hi : i < blocks.length), ∀ node ∈ blocks[i], node.level = i
  closed : ∀ block ∈ blocks, ∃ index start nodes, start.weight = 0 ∧
    (∀ node ∈ start :: nodes, node.dependent = false ∧ node.alpha = 0) ∧
    closeLevel geometry index (start :: nodes) = .ok block
  positive : 0 < (r.sweep.ordinates.map (·.weight)).sum
  weights : r.nodes.map (fun node => (node.ordinate, node.weight)) =
    r.sweep.ordinates.map fun o => (o, o.weight / (r.sweep.ordinates.map (·.weight)).sum)
  clusters : ∃ zs, Sample.distinctWithin levelTolerance (r.sweep.ordinates.map (·.z)) = .ok zs ∧
    zs.length = blocks.length

/-- Closing a level keeps the number of its nodes. -/
theorem KeepApart.level_eq {levels : List (SweepLevel ℝ)} (hapart : KeepApart levels)
    (h : SweepLevel.IsLevelled levels) {total : ℝ} {i : ℕ} (hi : i < levels.length)
    {block : List (AngularNode ℝ)} (hclosed : LevelClosesTo (openedLevel total levels levels[i]) block)
    {node : AngularNode ℝ} (hnode : node ∈ block) : node.level = i := by
  have hmem : node.level ∈ block.map (·.level) := List.mem_map_of_mem hnode
  rw [hclosed.map_eq ClosesTo.level, openedLevel, List.map_map] at hmem
  obtain ⟨o, ho, heq⟩ := List.mem_map.mp hmem
  exact heq.symm.trans (hapart.levelOf_eq h hi ho)

theorem exists_hasBlocks {q : Quadrature ℝ} {geometry : Geometry} {meshDimension : ℕ}
    {r : AngularRedistribution ℝ} (hgeometry : geometry.isCurvilinear)
    (h : ofQuadrature q geometry meshDimension = .ok r) : ∃ blocks, r.HasBlocks geometry blocks := by
  obtain ⟨-, unstarted, -, hlevels, hos, total, hpositive, htotal, hclose⟩ :=
    exists_closeLevels hgeometry h
  generalize SweepLevel.cut unstarted = levels at hlevels hos hclose
  rw [hos] at hclose
  obtain ⟨hapart, blocks, hnodes, hblocks⟩ := exists_closeLevel_eq hlevels hclose
  have hclosed : List.Forall₂ (fun l => LevelClosesTo (openedLevel total levels l)) levels blocks :=
    hblocks.imp fun l _ ⟨_, hl⟩ => closesTo_closeLevel (openedLevel_ne_nil total l) hl
  obtain ⟨hlength, hget⟩ := List.forall₂_iff_get.mp hclosed
  refine ⟨blocks, ?_⟩
  constructor
  case nodes => exact hnodes
  case positive => rwa [← htotal]
  case level =>
    intro i hi node hnode
    have hi' : i < levels.length := hlength ▸ hi
    exact hapart.level_eq hlevels hi' (hget i hi' hi) hnode
  case closed =>
    -- What is opened depends on nothing, and its start has the weight of a start.
    intro block hblock
    obtain ⟨l, -, index, hl⟩ := exists_mem_of_forall₂ hblocks.flip hblock
    have hopen : ∀ node ∈ openedLevel total levels l, node.dependent = false ∧ node.alpha = 0 := by
      intro node hnode
      obtain ⟨o, -, rfl⟩ := List.mem_map.mp hnode
      exact ⟨rfl, Scalar.zero_real⟩
    exact ⟨index, _, _, by simp [opened, Ordinate.levelStart, Scalar.zero_real], hopen, hl⟩
  case weights =>
    have hkept : ∀ {node closed : AngularNode ℝ}, ClosesTo node closed →
        (closed.ordinate, closed.weight) = (node.ordinate, node.weight) :=
      fun hcloses => by rw [hcloses.ordinate, hcloses.weight]
    have hmap := map_flatten_eq hkept (List.forall₂_map_left_iff.mpr hclosed)
    rw [← map_opened_flatMap, ← hnodes, ← hos, List.map_map] at hmap
    rw [hmap, htotal]
    rfl
  case clusters =>
    refine ⟨levels.map (·.opening), ?_, by rw [List.length_map, hlength]⟩
    rw [hos, Sample.distinctWithin_flatMap hlevels]

namespace HasBlocks

variable {geometry : Geometry} {r : AngularRedistribution ℝ} {blocks : List (List (AngularNode ℝ))}

theorem nil_notMem (h : r.HasBlocks geometry blocks) : [] ∉ blocks := by
  intro hnil
  obtain ⟨index, start, nodes, -, -, hclose⟩ := h.closed [] hnil
  exact nomatch closesTo_closeLevel (List.cons_ne_nil _ _) hclose

theorem levels_eq (h : r.HasBlocks geometry blocks) : r.levels = blocks.length :=
  levels_eq_length h.nodes h.nil_notMem h.level

/-- A level is its start with the nodes that the recursion adds. -/
theorem exists_chained (h : r.HasBlocks geometry blocks) {block : List (AngularNode ℝ)}
    (hblock : block ∈ blocks) :
    ∃ start followers, block = start :: followers ∧ start.weight = 0 ∧ start.dependent = false ∧
      start.alpha = 0 ∧ (levelShape geometry start followers).Chained 0 start followers := by
  obtain ⟨index, start, nodes, hweight, hopen, hclose⟩ := h.closed block hblock
  have hclosed := isClosed_closeLevel (List.cons_ne_nil _ _) hopen hclose
  cases closesTo_closeLevel (List.cons_ne_nil _ _) hclose with
  | intro _ =>
    cases hclosed with
    | intro hindependent halpha hfollowers =>
      exact ⟨start, _, rfl, hweight, hindependent, halpha, hfollowers⟩

end HasBlocks

/-- The levels of a redistribution in a curvilinear geometry are closed. -/
theorem exists_isClosed {q : Quadrature ℝ} {geometry : Geometry} {meshDimension : ℕ}
    {r : AngularRedistribution ℝ} (hgeometry : geometry.isCurvilinear)
    (h : ofQuadrature q geometry meshDimension = .ok r) :
    ∃ blocks : List (List (AngularNode ℝ)), r.nodes = blocks.flatten ∧ ∀ i (hi : i < blocks.length),
      IsClosed geometry blocks[i] ∧ ∀ node ∈ blocks[i], node.level = i := by
  obtain ⟨blocks, hblocks⟩ := exists_hasBlocks hgeometry h
  refine ⟨blocks, hblocks.nodes, fun i hi => ⟨?_, hblocks.level i hi⟩⟩
  obtain ⟨index, start, nodes, -, hopen, hclose⟩ := hblocks.closed _ (List.getElem_mem hi)
  exact isClosed_closeLevel (List.cons_ne_nil _ _) hopen hclose

/-! ## Links -/

/-- What ties a dependent node to the one in front of it. -/
def Links (geometry : Geometry) (before node : AngularNode ℝ) : Prop :=
  node.dependent = true → node.weight ≠ 0 ∧
    node.alpha = before.alpha + recursionFactor geometry * node.weight * node.ordinate.x

theorem LevelShape.Follows.links {s : LevelShape ℝ} {w : ℝ} {before node : AngularNode ℝ}
    (h : s.Follows w before node) : Links s.geometry before node := by
  refine fun _ => ⟨fun hzero => ?_, h.alpha⟩
  -- A cell without weight has no width.
  have hwidth := h.width
  rw [hzero, add_zero] at hwidth
  exact lt_irrefl _ hwidth

theorem LevelShape.Chained.isChain {s : LevelShape ℝ} {w : ℝ} {before : AngularNode ℝ}
    {nodes : List (AngularNode ℝ)} (h : s.Chained w before nodes) :
    (before :: nodes).IsChain (Links s.geometry) := by
  induction h with
  | nil => exact .singleton _
  | cons hnode _ ih => exact List.isChain_cons_cons.mpr ⟨hnode.links, ih⟩

theorem IsClosed.isChain {geometry : Geometry} {nodes : List (AngularNode ℝ)}
    (h : IsClosed geometry nodes) : nodes.IsChain (Links geometry) := by
  cases h with
  | intro _ _ hfollowers => exact hfollowers.isChain

theorem IsClosed.head_independent {geometry : Geometry} {nodes : List (AngularNode ℝ)}
    (h : IsClosed geometry nodes) {node : AngularNode ℝ} (hnode : node ∈ nodes.head?) :
    node.dependent = false := by
  cases h with
  | intro hindependent _ _ =>
    cases hnode
    exact hindependent

section

variable {q : Quadrature ℝ} {geometry : Geometry} {meshDimension : ℕ} {r : AngularRedistribution ℝ}

/-- Every two nodes in a row are linked, also where levels meet. -/
theorem isChain_nodes (hgeometry : geometry.isCurvilinear)
    (h : ofQuadrature q geometry meshDimension = .ok r) : r.nodes.IsChain (Links geometry) := by
  obtain ⟨blocks, hnodes, hblocks⟩ := exists_isClosed hgeometry h
  have hclosed : ∀ block ∈ blocks, IsClosed geometry block := by
    intro block hblock
    obtain ⟨i, hi, rfl⟩ := List.mem_iff_getElem.mp hblock
    exact (hblocks i hi).1
  have hnil : [] ∉ blocks := fun hmem => nomatch hclosed [] hmem
  rw [hnodes, List.isChain_flatten hnil]
  refine ⟨fun block hblock => (hclosed block hblock).isChain, ?_⟩
  -- The node behind a boundary is the first of its level.
  refine List.Pairwise.isChain (List.pairwise_of_forall_mem_list fun _ _ block hblock => ?_)
  intro _ _ node hnode hdependent
  rw [(hclosed block hblock).head_independent hnode] at hdependent
  cases hdependent

theorem head_independent (hgeometry : geometry.isCurvilinear)
    (h : ofQuadrature q geometry meshDimension = .ok r) (hzero : 0 < r.nodes.length) :
    r.nodes[0].dependent = false := by
  obtain ⟨blocks, hnodes, hblocks⟩ := exists_isClosed hgeometry h
  cases blocks with
  | nil => simp [hnodes] at hzero
  | cons block blocks =>
    have hclosed : IsClosed geometry block := (hblocks 0 (Nat.succ_pos _)).1
    apply hclosed.head_independent
    cases hclosed with
    | intro _ _ _ => simp [hnodes]

/-- A dependent node comes behind another, to which it is linked. -/
theorem links_of_dependent (hgeometry : geometry.isCurvilinear)
    (h : ofQuadrature q geometry meshDimension = .ok r) {m : ℕ} (hm : m < r.nodes.length)
    (hbefore : m - 1 < r.nodes.length) (hdependent : r.nodes[m].dependent = true) :
    0 < m ∧ Links geometry r.nodes[m - 1] r.nodes[m] := by
  cases m with
  | zero =>
    rw [head_independent hgeometry h hm] at hdependent
    cases hdependent
  | succ m =>
    exact ⟨Nat.succ_pos m, List.isChain_iff_getElem.mp (isChain_nodes hgeometry h) m hm⟩

end

end AngularRedistribution

end DiscreteOrdinates
