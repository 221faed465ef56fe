import DiscreteOrdinates.Proofs.Angular.Recursion
import DiscreteOrdinates.Proofs.Quadrature.UserTable

/-!
# Cells

The weights of a level cut it into cells, one for each node behind its start, and
`τ` tells where the cosine of the node is, measured from the lower edge of its
cell. A cell always has a width, but the cosine need not lie in it. Main
statement: `exists_cell_of_dependent`.
-/

namespace DiscreteOrdinates

namespace AngularRedistribution

/-! ## Nodes of a level -/

theorem filter_level_add_flatten {blocks : List (List (AngularNode ℝ))} {first : ℕ}
    (h : ∀ i (hi : i < blocks.length), ∀ node ∈ blocks[i], node.level = first + i) {i : ℕ}
    (hi : i < blocks.length) : blocks.flatten.filter (·.level == first + i) = blocks[i] := by
  induction blocks generalizing first i with
  | nil => simp at hi
  | cons block blocks ih =>
    have hblock : ∀ node ∈ block, node.level = first := h 0 (Nat.succ_pos _)
    have hblocks : ∀ j (hj : j < blocks.length), ∀ node ∈ blocks[j], node.level = first + 1 + j := by
      intro j hj node hnode
      rw [h (j + 1) (Nat.succ_lt_succ hj) node hnode]
      omega
    rw [List.flatten_cons, List.filter_append]
    cases i with
    | zero =>
      have hfirst : block.filter (·.level == first) = block :=
        List.filter_eq_self.mpr fun node hnode => by simp [hblock node hnode]
      have hlater : blocks.flatten.filter (·.level == first) = [] := by
        refine List.filter_eq_nil_iff.mpr fun node hnode => ?_
        obtain ⟨b, hb, hmem⟩ := List.mem_flatten.mp hnode
        obtain ⟨j, hj, rfl⟩ := List.mem_iff_getElem.mp hb
        have hlevel := hblocks j hj node hmem
        simp only [beq_iff_eq]
        omega
      rw [Nat.add_zero, hfirst, hlater, List.append_nil]
      rfl
    | succ i =>
      have hfirst : block.filter (·.level == first + (i + 1)) = [] :=
        List.filter_eq_nil_iff.mpr fun node hnode => by simp [hblock node hnode]
      have hlater := ih hblocks (Nat.lt_of_succ_lt_succ hi)
      rw [Nat.add_right_comm, Nat.add_assoc] at hlater
      rw [hfirst, hlater, List.nil_append]
      rfl

/-- The nodes with the number of a level are those of its block. -/
theorem filter_level_flatten {blocks : List (List (AngularNode ℝ))}
    (h : ∀ i (hi : i < blocks.length), ∀ node ∈ blocks[i], node.level = i) {i : ℕ}
    (hi : i < blocks.length) : blocks.flatten.filter (·.level == i) = blocks[i] := by
  have hshifted : ∀ i (hi : i < blocks.length), ∀ node ∈ blocks[i], node.level = 0 + i :=
    fun i hi node hnode => (h i hi node hnode).trans (Nat.zero_add i).symm
  have hfilter := filter_level_add_flatten hshifted hi
  rwa [Nat.zero_add] at hfilter

theorem HasBlocks.filter_level {geometry : Geometry} {r : AngularRedistribution ℝ}
    {blocks : List (List (AngularNode ℝ))} (h : r.HasBlocks geometry blocks) {i : ℕ}
    (hi : i < blocks.length) : r.nodes.filter (·.level == i) = blocks[i] := by
  rw [h.nodes, filter_level_flatten h.level hi]

/-! ## Cells of a level -/

/-- Edge `k` of a level, behind the weight of the first `k` nodes after its start. -/
noncomputable def LevelShape.edgeAt (s : LevelShape ℝ) (followers : List (AngularNode ℝ)) (k : ℕ) :
    ℝ :=
  s.edge ((followers.take k).map (·.weight)).sum

theorem LevelShape.Chained.edgeAt {s : LevelShape ℝ} {start : AngularNode ℝ}
    {followers : List (AngularNode ℝ)} (h : s.Chained 0 start followers) {k : ℕ}
    (hk : k < followers.length) :
    s.edgeAt followers k < s.edgeAt followers (k + 1) ∧
    followers[k].tau = (followers[k].ordinate.x - s.edgeAt followers k) /
      (s.edgeAt followers (k + 1) - s.edgeAt followers k) := by
  obtain ⟨b, hfollows⟩ := h.exists_follows hk
  have hweight : ((followers.take (k + 1)).map (·.weight)).sum =
      ((followers.take k).map (·.weight)).sum + followers[k].weight := by
    rw [List.map_take, List.map_take, List.sum_take_succ _ k (by simpa using hk), List.getElem_map]
  rw [zero_add] at hfollows
  unfold LevelShape.edgeAt
  rw [hweight]
  exact ⟨hfollows.width, hfollows.tau⟩

/-- A place is measured by a number up to one if it lies between the edges. -/
theorem place_mem_iff {lower upper x : ℝ} (h : lower < upper) :
    0 < (x - lower) / (upper - lower) ∧ (x - lower) / (upper - lower) ≤ 1 ↔
      lower < x ∧ x ≤ upper := by
  have hwidth : 0 < upper - lower := sub_pos.mpr h
  rw [div_pos_iff_of_pos_right hwidth, div_le_one hwidth, sub_pos, sub_le_sub_iff_right]

/-- Every dependent node has a cell, which is one of those that the weights of its
level cut and has a width. Its `τ` is the place of its cosine, measured from the
lower edge of the cell in units of the width, and lies in `(0, 1]` exactly if the
cosine lies between the edges. -/
theorem exists_cell_of_dependent {q : Quadrature ℝ} {geometry : Geometry} {meshDimension : ℕ}
    {r : AngularRedistribution ℝ} (hgeometry : geometry.isCurvilinear)
    (h : ofQuadrature q geometry meshDimension = .ok r) {node : AngularNode ℝ}
    (hnode : node ∈ r.nodes) (hdependent : node.dependent = true) :
    ∃ start followers k, ∃ hk : k < followers.length,
      r.nodes.filter (·.level == node.level) = start :: followers ∧ followers[k] = node ∧
      let shape := levelShape geometry start followers
      let lower := shape.edgeAt followers k
      let upper := shape.edgeAt followers (k + 1)
      lower < upper ∧ node.tau = (node.ordinate.x - lower) / (upper - lower) ∧
      (0 < node.tau ∧ node.tau ≤ 1 ↔ lower < node.ordinate.x ∧ node.ordinate.x ≤ upper) := by
  obtain ⟨blocks, hnodes, hblocks⟩ := exists_isClosed hgeometry h
  rw [hnodes] at hnode
  obtain ⟨block, hblock, hmem⟩ := List.mem_flatten.mp hnode
  obtain ⟨i, hi, rfl⟩ := List.mem_iff_getElem.mp hblock
  obtain ⟨hclosed, hlevel⟩ := hblocks i hi
  have hfilter : r.nodes.filter (·.level == node.level) = blocks[i] := by
    rw [hnodes, hlevel node hmem]
    exact filter_level_flatten (fun j hj => (hblocks j hj).2) hi
  generalize blocks[i] = block at hclosed hmem hfilter
  cases hclosed with
  | @intro start followers hindependent _ hfollowers =>
    -- The start depends on nothing, so the node is one behind it.
    have hbehind : node ∈ followers := by
      rcases List.mem_cons.mp hmem with rfl | hbehind
      · rw [hindependent] at hdependent
        cases hdependent
      · exact hbehind
    obtain ⟨k, hk, rfl⟩ := List.mem_iff_getElem.mp hbehind
    obtain ⟨hwidth, htau⟩ := hfollowers.edgeAt hk
    refine ⟨start, followers, k, hk, hfilter, rfl, hwidth, htau, ?_⟩
    rw [htau]
    exact place_mem_iff hwidth

/-! ## A cosine outside its cell -/

theorem general_beams {a b : ℝ} (ha : a ≠ 0 ∧ |a| ≤ 1) (hb : b ≠ 0 ∧ |b| ≤ 1) :
    Quadrature.general "beams" 1 2 1 (some 2.0) { mu := [a, b], wt := [1, 1] } =
      .ok (beams a b) := by
  refine Quadrature.general_line (List.cons_ne_nil _ _) rfl ?_ (by simp) (by norm_num)
  simp [ha, hb]

/-- Both of two directions may lie in the upper half of the interval. The first
one then lies above its cell, and the coefficients are formed all the same. -/
theorem exists_tau_beams :
    Quadrature.general "beams" 1 2 1 (some (2.0 : ℝ)) { mu := [0.6, 0.8], wt := [1, 1] } =
      .ok (beams 0.6 0.8) ∧
    ∃ r, ofQuadrature (beams 0.6 0.8) .spherical 1 = .ok r ∧
      ∃ node ∈ r.nodes, node.dependent = true ∧ 1 < node.tau := by
  refine ⟨general_beams (by norm_num) (by norm_num), ?_⟩
  obtain ⟨r, hr, hnodes⟩ := exists_ofQuadrature_beams (a := 0.6) (b := 0.8) (by norm_num)
  refine ⟨r, hr, ?_⟩
  rw [hnodes]
  refine ⟨_, List.mem_cons_of_mem _ List.mem_cons_self, rfl, ?_⟩
  norm_num

/-- The cell of the second direction reaches from the middle of the interval to
its end, and the direction lies in it. -/
theorem exists_cell_of_dependent_beams : ∃ r, ofQuadrature (beams 0.6 0.8) .spherical 1 = .ok r ∧
    Geometry.spherical.isCurvilinear = true ∧
    ∃ node ∈ r.nodes, node.dependent = true ∧ node.ordinate.x = 0.8 ∧
      ∃ lower upper, lower < upper ∧ node.tau = (node.ordinate.x - lower) / (upper - lower) ∧
        (0 < node.tau ∧ node.tau ≤ 1) ∧ lower < node.ordinate.x ∧ node.ordinate.x ≤ upper := by
  obtain ⟨r, hr, hnodes⟩ := exists_ofQuadrature_beams (a := 0.6) (b := 0.8) (by norm_num)
  obtain ⟨node, hnode, hdependent, hx, htau⟩ :
      ∃ node ∈ r.nodes, node.dependent = true ∧ node.ordinate.x = 0.8 ∧ node.tau = 0.8 := by
    simp [hnodes, twoNodes]
  obtain ⟨start, followers, k, hk, -, -, hwidth, hplace, hiff⟩ :=
    exists_cell_of_dependent (by rfl) hr hnode hdependent
  have hunit : 0 < node.tau ∧ node.tau ≤ 1 := by
    rw [htau]
    norm_num
  exact ⟨r, hr, rfl, node, hnode, hdependent, hx, _, _, hwidth, hplace, hunit, hiff.mp hunit⟩

end AngularRedistribution

end DiscreteOrdinates
