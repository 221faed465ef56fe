import DiscreteOrdinates.Proofs.Angular.Structure
import DiscreteOrdinates.Proofs.Quadrature.UserTable

/-!
# Sweep order of the nodes

Dependent nodes stand in sweep order, which compares levels by their exact cosines.
Within a level the cosines `x` ascend as long as no two nodes differ in `z`, but
nodes of one level may differ in `z` by less than the tolerance and then stand in
the order of that. Main statement: `ascendsOnLevels_iff_of_curvilinear`.
-/

namespace DiscreteOrdinates

namespace AngularRedistribution

/-! ## Dependent nodes -/

/-- The nodes of the redistribution that depend on the one before them. -/
def dependents (r : AngularRedistribution ℝ) : List (AngularNode ℝ) :=
  r.nodes.filter (·.dependent)

/-- The dependent nodes of a level are its members. -/
theorem LevelClosesTo.map_ordinate_filter {total : ℝ} {levels : List (SweepLevel ℝ)}
    {l : SweepLevel ℝ} {block : List (AngularNode ℝ)}
    (h : LevelClosesTo (openedLevel total levels l) block) :
    (block.filter (·.dependent)).map (·.ordinate) = l.members := by
  have hordinates := h.map_ordinate
  generalize hopened : openedLevel total levels l = nodes at h
  cases h with
  | @intro first dependents closed hclosed =>
    obtain ⟨rfl, rfl⟩ := List.cons.inj hopened
    have hall : closed.filter (·.dependent) = closed := by
      refine List.filter_eq_self.mpr fun node hnode => ?_
      obtain ⟨_, _, hcloses⟩ := exists_mem_of_forall₂ hclosed.flip hnode
      exact hcloses.dependent
    have hmap : (openedLevel total levels l).map (·.ordinate) = l.ordinates := by
      rw [openedLevel, List.map_map]
      exact List.map_id _
    rw [List.filter_cons_of_neg (by simp [opened]), hall]
    rw [hmap, List.map_cons] at hordinates
    exact (List.cons.inj hordinates).2

theorem map_ordinate_filter_flatten {levels : List (SweepLevel ℝ)}
    {blocks : List (List (AngularNode ℝ))}
    (h : List.Forall₂ (fun l block => (block.filter (·.dependent)).map (·.ordinate) = l.members)
      levels blocks) :
    (blocks.flatten.filter (·.dependent)).map (·.ordinate) = levels.flatMap SweepLevel.members := by
  induction h with
  | nil => rfl
  | cons hlevel _ ih =>
    rw [List.flatten_cons, List.filter_append, List.map_append, List.flatMap_cons, hlevel, ih]

/-- The dependent nodes are the ordinates of the set, in the order that they have
before they get their starts. -/
theorem isUnstarted_dependents {q : Quadrature ℝ} {geometry : Geometry} {meshDimension : ℕ}
    {r : AngularRedistribution ℝ} (hgeometry : geometry.isCurvilinear)
    (h : ofQuadrature q geometry meshDimension = .ok r) :
    SweepSet.IsUnstarted geometry q.ordinates (r.dependents.map (·.ordinate)) := by
  obtain ⟨-, unstarted, hunstarted, hlevels, hos, total, -, -, hclose⟩ :=
    exists_closeLevels hgeometry h
  rw [hos] at hclose
  obtain ⟨-, blocks, hnodes, hblocks⟩ := exists_closeLevel_eq hlevels hclose
  have hmembers := map_ordinate_filter_flatten <| hblocks.imp fun l _ ⟨_, hl⟩ =>
    (closesTo_closeLevel (openedLevel_ne_nil total l) hl).map_ordinate_filter
  rw [dependents, hnodes, hmembers, SweepLevel.flatMap_members_cut]
  exact hunstarted

/-! ## Cosines within a level -/

/-- Whether the cosines of dependent nodes ascend on every level. -/
def AscendsOnLevels (r : AngularRedistribution ℝ) : Prop :=
  r.dependents.Pairwise fun a b => a.level = b.level → a.ordinate.x ≤ b.ordinate.x

/-- Dependent nodes stand in sweep order. So the cosines `x` of a level ascend
exactly if no two of its nodes, of which the one has the smaller `z`, have them the
other way round. On a sphere, where all nodes share their `z`, they ascend. -/
theorem ascendsOnLevels_iff_of_curvilinear {q : Quadrature ℝ} {geometry : Geometry}
    {meshDimension : ℕ} {r : AngularRedistribution ℝ} (hgeometry : geometry.isCurvilinear)
    (h : ofQuadrature q geometry meshDimension = .ok r) :
    (r.dependents.Pairwise fun a b => a.ordinate.z < b.ordinate.z ∨
      (a.ordinate.z = b.ordinate.z ∧ a.ordinate.x ≤ b.ordinate.x)) ∧
    (r.AscendsOnLevels ↔ ∀ a ∈ r.dependents, ∀ b ∈ r.dependents, a.level = b.level →
      a.ordinate.z < b.ordinate.z → a.ordinate.x ≤ b.ordinate.x) ∧
    (geometry = .spherical → r.AscendsOnLevels) := by
  have hunstarted := isUnstarted_dependents hgeometry h
  have horder := List.pairwise_map.mp hunstarted.pairwise
  have hiff : r.AscendsOnLevels ↔ ∀ a ∈ r.dependents, ∀ b ∈ r.dependents, a.level = b.level →
      a.ordinate.z < b.ordinate.z → a.ordinate.x ≤ b.ordinate.x := by
    constructor
    · intro hascends a ha b hb hlevel hz
      obtain ⟨i, hi, rfl⟩ := List.mem_iff_getElem.mp ha
      obtain ⟨j, hj, rfl⟩ := List.mem_iff_getElem.mp hb
      -- The node with the smaller `z` comes first.
      have hij : i < j := by
        rcases lt_trichotomy i j with hlt | rfl | hgt
        · exact hlt
        · exact absurd hz (lt_irrefl _)
        · have hle := (List.pairwise_iff_getElem.mp horder j i hj hi hgt).z_le
          exact absurd hz (not_lt.mpr hle)
      exact List.pairwise_iff_getElem.mp hascends i j hi hj hij hlevel
    · intro hpairs
      refine horder.imp_of_mem fun ha hb hab hlevel => ?_
      rcases hab with hz | ⟨-, hx⟩
      · exact hpairs _ ha _ hb hlevel hz
      · exact hx
  refine ⟨horder, hiff, fun hspherical => hiff.mpr fun a ha b hb _ hz => ?_⟩
  have hza := hunstarted.level hspherical _ (List.mem_map_of_mem ha)
  have hzb := hunstarted.level hspherical _ (List.mem_map_of_mem hb)
  rw [hza, hzb] at hz
  exact absurd hz (lt_irrefl 0)

/-! ## Cosines that descend -/

/-- Two directions of one level, of which the one with the smaller cosine `x` has
a slightly larger `z`. -/
noncomputable def skewed : Quadrature ℝ :=
  ⟨.general "skewed" 2 1, 2, 2.0,
    { mu := [0.48, -0.48], eta := [0.6, 0.6000000000001], xi := [0.64, 0.64], wt := [1, 1] }⟩

theorem rows_skewed :
    skewed.table.rows = [⟨0.48, 0.6, 0.64, 1⟩, ⟨-0.48, 0.6000000000001, 0.64, 1⟩] := by
  simp [skewed, DirectionTable.rows, DirectionTable.row, List.range_succ]

theorem ordinates_skewed :
    skewed.ordinates = [⟨0.48, 0.64, 0.6, 1⟩, ⟨-0.48, 0.64, 0.6000000000001, 1⟩] := by
  rw [Quadrature.ordinates, rows_skewed]
  rfl

theorem general_skewed : Quadrature.general "skewed" 2 2 1 (some (2.0 : ℝ))
    { mu := [0.48, -0.48], eta := [0.6, 0.6000000000001], xi := [0.64, 0.64], wt := [1, 1] } =
      .ok skewed := by
  have hdirections : skewed.table.checkDirections = .ok () := by
    apply DirectionTable.checkDirections_eq_ok
    · simp [skewed]
    · intro _
      rw [rows_skewed, List.forall_mem_cons, List.forall_mem_singleton, Ordinate.unitTolerance,
        abs_le, abs_le]
      norm_num [Ordinate.squaredLength]
    · simp [rows_skewed]
  refine Quadrature.general_eq_ok (by simp) rfl (by simp) rfl hdirections ?_
  norm_num [skewed]

theorem skewed_close : |(0.6000000000001 - 0.6 : ℝ)| ≤ levelTolerance := by
  unfold levelTolerance
  rw [abs_le]
  constructor <;> norm_num

theorem exists_ofQuadrature_skewed : ∃ r, ofQuadrature skewed .axisymmetric 2 = .ok r ∧
    r.nodes = twoNodes .axisymmetric ⟨0.48, 0.64, 0.6, 1⟩ ⟨-0.48, 0.64, 0.6000000000001, 1⟩ := by
  exact exists_ofQuadrature_of_two rfl rfl ordinates_skewed (.inl (by norm_num)) skewed_close
    (reach_pos (by norm_num [abs_lt])) rfl rfl

theorem exists_descends_skewed :
    ∃ r, ofQuadrature skewed .axisymmetric 2 = .ok r ∧ ¬ r.AscendsOnLevels := by
  obtain ⟨r, hr, hnodes⟩ := exists_ofQuadrature_skewed
  refine ⟨r, hr, fun hascends => ?_⟩
  rw [AscendsOnLevels, dependents, hnodes] at hascends
  have hle : (0.48 : ℝ) ≤ -0.48 := by simpa [twoNodes] using hascends
  norm_num at hle

/-- The skewed directions are a set that a user may supply, and on their level the
cosines descend. -/
theorem not_ascendsOnLevels_skewed :
    Quadrature.general "skewed" 2 2 1 (some (2.0 : ℝ))
      { mu := [0.48, -0.48], eta := [0.6, 0.6000000000001], xi := [0.64, 0.64], wt := [1, 1] } =
        .ok skewed ∧
    Geometry.axisymmetric.isCurvilinear = true ∧
    ∃ r, ofQuadrature skewed .axisymmetric 2 = .ok r ∧ ¬ r.AscendsOnLevels :=
  ⟨general_skewed, rfl, exists_descends_skewed⟩

/-- The cosines of the pair ascend, as all do on a sphere. Those of the skewed
directions do not, since two nodes of one level differ in `z`. -/
theorem ascendsOnLevels_iff_of_curvilinear_skewed :
    (∃ r, ofQuadrature pair .spherical 1 = .ok r ∧ Geometry.spherical.isCurvilinear = true ∧
      r.AscendsOnLevels) ∧
    ∃ r, ofQuadrature skewed .axisymmetric 2 = .ok r ∧
      Geometry.axisymmetric.isCurvilinear = true ∧
      ∃ a ∈ r.dependents, ∃ b ∈ r.dependents, a.level = b.level ∧
        a.ordinate.z < b.ordinate.z ∧ b.ordinate.x < a.ordinate.x := by
  constructor
  · obtain ⟨r, hr⟩ := exists_ofSweep_pair
    have h : ofQuadrature pair .spherical 1 = .ok r := by
      rw [ofQuadrature, ofQuadrature_pair]
      exact hr
    obtain ⟨-, -, hspherical⟩ := ascendsOnLevels_iff_of_curvilinear (by rfl) h
    exact ⟨r, h, rfl, hspherical rfl⟩
  · obtain ⟨r, hr, hdescends⟩ := exists_descends_skewed
    obtain ⟨-, hiff, -⟩ := ascendsOnLevels_iff_of_curvilinear (by rfl) hr
    have hpair := mt hiff.mpr hdescends
    push Not at hpair
    exact ⟨r, hr, rfl, hpair⟩

end AngularRedistribution

end DiscreteOrdinates
