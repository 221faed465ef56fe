import DiscreteOrdinates.Proofs.Angular.TwoDirections

/-!
# Structure of a redistribution

A redistribution in a curvilinear geometry is a sequence of levels. Each opens
with its start, and every other node depends on the one before it and carries
weight. Main statement: `levels_of_curvilinear`.
-/

namespace DiscreteOrdinates

namespace AngularRedistribution

/-! ## Construction -/

/-- What a successful construction went through, if its sweep consists of
levels. -/
theorem ofSweep_eq_ok {sweep : SweepSet ℝ} (hgeometry : sweep.geometry.isCurvilinear)
    {levels : List (SweepLevel ℝ)} (hlevels : SweepLevel.IsLevelled levels)
    (hos : sweep.ordinates = levels.flatMap SweepLevel.ordinates)
    {r : AngularRedistribution ℝ} (h : ofSweep sweep = .ok r) :
    ∃ total > 0, r.sweep = sweep ∧ total = (sweep.ordinates.map (·.weight)).sum ∧
      closeLevels sweep.geometry 0 (groupLevels (sweep.ordinates.map (opened total levels))) =
        .ok r.nodes := by
  have hassign : assignLevels sweep.ordinates =
      .ok (sweep.ordinates.map fun o => levelOf (levels.map (·.opening)) o.z) := by
    rw [assignLevels, hos, Sample.distinctWithin_flatMap hlevels]
  have hnodes : ∀ total : ℝ, sweep.ordinates.zipWith
      (fun o level =>
        ({ ordinate := o, weight := o.weight / total, level, alpha := 0.0, tau := 1.0 } :
          AngularNode ℝ))
      (sweep.ordinates.map fun o => levelOf (levels.map (·.opening)) o.z) =
        sweep.ordinates.map (opened total levels) := by
    intro total
    rw [List.zipWith_map_right, List.zipWith_self]
    rfl
  unfold ofSweep at h
  simp only [hassign, hgeometry, if_true] at h
  rw [require_bind_eq_ok] at h
  obtain ⟨⟨hpositive, -⟩, h⟩ := h
  simp only [Scalar.sum_real] at hpositive h
  rw [Scalar.zero_real, not_le] at hpositive
  refine ⟨_, hpositive, ?_⟩
  simp only [bind, Except.bind, hnodes] at h
  split at h
  · cases h
  next closed hclosed =>
    cases h
    exact ⟨rfl, rfl, hclosed⟩

/-- A redistribution in a curvilinear geometry is that of a sweep with starts, of
which the levels could be closed. -/
theorem exists_closeLevels {q : Quadrature ℝ} {geometry : Geometry} {meshDimension : ℕ}
    {r : AngularRedistribution ℝ} (hgeometry : geometry.isCurvilinear)
    (h : ofQuadrature q geometry meshDimension = .ok r) :
    SweepSet.ofQuadrature q geometry meshDimension = .ok r.sweep ∧
    ∃ unstarted, SweepSet.IsUnstarted geometry q.ordinates unstarted ∧
      SweepLevel.IsLevelled (SweepLevel.cut unstarted) ∧
      r.sweep.ordinates = (SweepLevel.cut unstarted).flatMap SweepLevel.ordinates ∧
      ∃ total > 0, total = (r.sweep.ordinates.map (·.weight)).sum ∧
        closeLevels geometry 0
          (groupLevels (r.sweep.ordinates.map (opened total (SweepLevel.cut unstarted)))) =
            .ok r.nodes := by
  unfold ofQuadrature at h
  split at h
  next sweep hsweep =>
    obtain ⟨harrange, rfl, -⟩ := SweepSet.ofQuadrature_eq_ok hsweep
    obtain ⟨unstarted, hos, hunstarted⟩ := SweepSet.exists_isUnstarted hgeometry harrange
    rw [SweepLevel.withStarts_eq_flatMap] at hos
    have hlevels := SweepLevel.isLevelled_cut (hunstarted.pairwise.imp Ordinate.SweepLE.z_le)
    obtain ⟨total, hpositive, rfl, htotal, hclose⟩ := ofSweep_eq_ok hgeometry hlevels hos h
    exact ⟨hsweep, unstarted, hunstarted, hlevels, hos, total, hpositive, htotal, hclose⟩
  next => cases h

/-! ## Levels -/

/-- The node that opens a level. -/
structure IsStart (level : ℕ) (node : AngularNode ℝ) : Prop where
  level : node.level = level
  direction : node.ordinate = Ordinate.levelStart node.ordinate.z
  weightless : node.ordinate.weight = 0 ∧ node.weight = 0
  independent : node.dependent = false
  alpha : node.alpha = 0
  tau : node.tau = 1

/-- A node behind the start of a level. -/
structure IsFollower (level : ℕ) (node : AngularNode ℝ) : Prop where
  level : node.level = level
  dependent : node.dependent = true
  weighted : 0 < node.ordinate.weight ∧ 0 < node.weight

/-- Nodes that form a whole level. -/
inductive IsLevel (level : ℕ) : List (AngularNode ℝ) → Prop where
  | intro {start : AngularNode ℝ} {followers : List (AngularNode ℝ)} (hstart : IsStart level start)
      (hfollowers : ∀ node ∈ followers, IsFollower level node) : IsLevel level (start :: followers)

theorem isStart_opened {levels : List (SweepLevel ℝ)} (h : SweepLevel.IsLevelled levels)
    (total : ℝ) {i : ℕ} (hi : i < levels.length) :
    IsStart i (opened total levels (Ordinate.levelStart levels[i].opening)) where
  level := levelOf_opening h hi
  direction := rfl
  weightless := by simp [opened, Ordinate.levelStart, Scalar.zero_real]
  independent := rfl
  alpha := Scalar.zero_real
  tau := Scalar.one_real

theorem isFollower_of_closesTo {levels : List (SweepLevel ℝ)} {total : ℝ} (htotal : 0 < total)
    {o : Ordinate ℝ} (ho : 0 ≤ o.weight) {level : ℕ}
    (hlevel : levelOf (levels.map (·.opening)) o.z = level) {node : AngularNode ℝ}
    (h : ClosesTo (opened total levels o) node) : IsFollower level node where
  level := h.level.trans hlevel
  dependent := h.dependent
  weighted := by
    have hne : o.weight ≠ 0 := fun hzero => h.weighted (by simp [opened, hzero])
    have hpos : 0 < o.weight := lt_of_le_of_ne ho (Ne.symm hne)
    rw [h.ordinate, h.weight]
    exact ⟨hpos, div_pos hpos htotal⟩

/-- Nodes that keep apart become levels when they are closed. -/
theorem isLevel_of_closesTo {levels : List (SweepLevel ℝ)} (h : SweepLevel.IsLevelled levels)
    (hapart : KeepApart levels) {total : ℝ} (htotal : 0 < total) {i : ℕ} (hi : i < levels.length)
    (hweights : ∀ o ∈ levels[i].members, 0 ≤ o.weight) {nodes : List (AngularNode ℝ)}
    (hclosed : LevelClosesTo (openedLevel total levels levels[i]) nodes) : IsLevel i nodes := by
  generalize hopened : openedLevel total levels levels[i] = before at hclosed
  cases hclosed with
  | intro hfollowers =>
    obtain ⟨rfl, rfl⟩ := List.cons.inj hopened
    refine .intro (isStart_opened h total hi) fun node hnode => ?_
    have hmembers := List.forall₂_map_left_iff.mp hfollowers
    obtain ⟨o, ho, hcloses⟩ := exists_mem_of_forall₂ hmembers.flip hnode
    exact isFollower_of_closesTo htotal (hweights o ho)
      (hapart.levelOf_eq h hi (List.mem_cons_of_mem _ ho)) hcloses

/-- Runs of nodes that can be closed are the levels that were given a start. -/
theorem exists_isLevel {levels : List (SweepLevel ℝ)} (h : SweepLevel.IsLevelled levels)
    (hweights : ∀ l ∈ levels, ∀ o ∈ l.members, 0 ≤ o.weight) {total : ℝ} (htotal : 0 < total)
    {geometry : Geometry} {closed : List (AngularNode ℝ)}
    (hclose : closeLevels geometry 0
      (groupLevels ((levels.flatMap SweepLevel.ordinates).map (opened total levels))) = .ok closed) :
    closed.map (·.ordinate) = levels.flatMap SweepLevel.ordinates ∧
    ∃ blocks : List (List (AngularNode ℝ)), blocks.length = levels.length ∧
      closed = blocks.flatten ∧ ∀ i (hi : i < blocks.length), IsLevel i blocks[i] := by
  obtain ⟨hapart, blocks, rfl, hblocks⟩ := exists_closeLevel_eq h hclose
  have hclosed : List.Forall₂ (fun l => LevelClosesTo (openedLevel total levels l)) levels blocks :=
    hblocks.imp fun l _ ⟨_, hl⟩ => closesTo_closeLevel (openedLevel_ne_nil total l) hl
  have hordinates := map_flatten_eq ClosesTo.ordinate (List.forall₂_map_left_iff.mpr hclosed)
  rw [← map_opened_flatMap, List.map_map] at hordinates
  obtain ⟨hlength, hget⟩ := List.forall₂_iff_get.mp hclosed
  refine ⟨hordinates.trans (List.map_id _), blocks, hlength.symm, rfl, fun i hi => ?_⟩
  have hi' : i < levels.length := hlength ▸ hi
  exact isLevel_of_closesTo h hapart htotal hi' (hweights _ (List.getElem_mem hi')) (hget i hi' hi)

/-- The levels of a redistribution, numbered in their order. -/
def HasLevels (r : AngularRedistribution ℝ) (blocks : List (List (AngularNode ℝ))) : Prop :=
  r.nodes = blocks.flatten ∧ ∀ i (hi : i < blocks.length), IsLevel i blocks[i]

/-- A redistribution in a curvilinear geometry has levels, and its nodes are
those of the sweep in their order. -/
theorem exists_hasLevels {q : Quadrature ℝ} {geometry : Geometry} {meshDimension : ℕ}
    {r : AngularRedistribution ℝ} (hgeometry : geometry.isCurvilinear)
    (hweights : ∀ w ∈ q.table.wt, 0 ≤ w) (h : ofQuadrature q geometry meshDimension = .ok r) :
    SweepSet.ofQuadrature q geometry meshDimension = .ok r.sweep ∧
    r.nodes.map (·.ordinate) = r.sweep.ordinates ∧ ∃ blocks ≠ [], r.HasLevels blocks := by
  obtain ⟨hsweep, unstarted, hunstarted, hlevels, hos, total, hpositive, htotal, hclose⟩ :=
    exists_closeLevels hgeometry h
  have hmembers : ∀ l ∈ SweepLevel.cut unstarted, ∀ o ∈ l.members, 0 ≤ o.weight := by
    intro l hl o ho
    apply hunstarted.weights fun _ => Quadrature.weight_nonneg hweights
    rw [← SweepLevel.flatMap_members_cut unstarted]
    exact List.mem_flatMap_of_mem hl ho
  rw [hos] at hclose
  obtain ⟨hordinates, blocks, hlength, hnodes, hblocks⟩ :=
    exists_isLevel hlevels hmembers hpositive hclose
  refine ⟨hsweep, hordinates.trans hos.symm, blocks, ?_, hnodes, hblocks⟩
  rintro rfl
  -- Without levels there would be no weight.
  have hnil : SweepLevel.cut unstarted = [] := List.length_eq_zero_iff.mp hlength.symm
  rw [hos, hnil] at htotal
  rw [htotal] at hpositive
  exact lt_irrefl 0 hpositive

/-! ## Counting levels -/

theorem foldl_level_le_iff (nodes : List (AngularNode ℝ)) (count n : ℕ) :
    nodes.foldl (fun count node => max count (node.level + 1)) count ≤ n ↔
      count ≤ n ∧ ∀ node ∈ nodes, node.level < n := by
  induction nodes generalizing count with
  | nil => simp
  | cons node nodes ih =>
    rw [List.foldl_cons, ih, max_le_iff, List.forall_mem_cons, and_assoc]
    rfl

theorem levels_le_iff {r : AngularRedistribution ℝ} {n : ℕ} :
    r.levels ≤ n ↔ ∀ node ∈ r.nodes, node.level < n := by
  rw [levels, foldl_level_le_iff]
  exact and_iff_right (Nat.zero_le n)

/-- There are as many levels as there are blocks of nodes, if these are numbered so. -/
theorem levels_eq_length {r : AngularRedistribution ℝ} {blocks : List (List (AngularNode ℝ))}
    (hnodes : r.nodes = blocks.flatten) (hnil : [] ∉ blocks)
    (hlevel : ∀ i (hi : i < blocks.length), ∀ node ∈ blocks[i], node.level = i) :
    r.levels = blocks.length := by
  apply le_antisymm
  · refine levels_le_iff.mpr fun node hnode => ?_
    rw [hnodes] at hnode
    obtain ⟨block, hblock, hmem⟩ := List.mem_flatten.mp hnode
    obtain ⟨i, hi, rfl⟩ := List.mem_iff_getElem.mp hblock
    rw [hlevel i hi node hmem]
    exact hi
  · -- The last level has a node, whose number is the greatest.
    by_contra hlt
    have hi : r.levels < blocks.length := not_le.mp hlt
    obtain ⟨node, hmem⟩ := List.exists_mem_of_ne_nil blocks[r.levels]
      fun heq => hnil (heq ▸ List.getElem_mem hi)
    have hnode : node ∈ r.nodes := hnodes ▸ List.mem_flatten_of_mem (List.getElem_mem hi) hmem
    have hless := levels_le_iff.mp (le_refl r.levels) node hnode
    rw [hlevel r.levels hi node hmem] at hless
    exact lt_irrefl _ hless

theorem IsLevel.countP_isStart {level : ℕ} {nodes : List (AngularNode ℝ)} (h : IsLevel level nodes) :
    nodes.countP (·.ordinate.isStart) = 1 := by
  cases h with
  | @intro start followers hstart hfollowers =>
    have hnone : followers.countP (·.ordinate.isStart) = 0 :=
      List.countP_eq_zero.mpr fun node hnode =>
        mt Ordinate.isStart_iff.mp (hfollowers node hnode).weighted.1.ne'
    have hone : start.ordinate.isStart = true := Ordinate.isStart_iff.mpr hstart.weightless.1
    rw [List.countP_cons, hnone, hone]
    rfl

theorem IsLevel.level_eq {level : ℕ} {nodes : List (AngularNode ℝ)} (h : IsLevel level nodes)
    {node : AngularNode ℝ} (hnode : node ∈ nodes) : node.level = level := by
  cases h with
  | intro hstart hfollowers =>
    rcases List.mem_cons.mp hnode with rfl | hnode
    · exact hstart.level
    · exact (hfollowers node hnode).level

theorem IsLevel.dependent_iff {level : ℕ} {nodes : List (AngularNode ℝ)} (h : IsLevel level nodes)
    {node : AngularNode ℝ} (hnode : node ∈ nodes) :
    node.dependent = true ↔ 0 < node.ordinate.weight := by
  cases h with
  | intro hstart hfollowers =>
    rcases List.mem_cons.mp hnode with rfl | hnode
    · simp [hstart.independent, hstart.weightless.1]
    · simp [(hfollowers node hnode).dependent, (hfollowers node hnode).weighted.1]

namespace HasLevels

variable {r : AngularRedistribution ℝ} {blocks : List (List (AngularNode ℝ))}

theorem exists_isLevel (h : r.HasLevels blocks) {node : AngularNode ℝ} (hnode : node ∈ r.nodes) :
    ∃ i, ∃ hi : i < blocks.length, IsLevel i blocks[i] ∧ node ∈ blocks[i] := by
  rw [h.1] at hnode
  obtain ⟨block, hblock, hmem⟩ := List.mem_flatten.mp hnode
  obtain ⟨i, hi, rfl⟩ := List.mem_iff_getElem.mp hblock
  exact ⟨i, hi, h.2 i hi, hmem⟩

theorem length_eq_levels (h : r.HasLevels blocks) : blocks.length = r.levels := by
  refine (levels_eq_length h.1 (fun hnil => ?_) fun i hi _ => (h.2 i hi).level_eq).symm
  obtain ⟨i, hi, heq⟩ := List.mem_iff_getElem.mp hnil
  exact nomatch heq ▸ h.2 i hi

theorem levels_eq_countP (h : r.HasLevels blocks) :
    r.levels = r.nodes.countP (·.ordinate.isStart) := by
  -- The starts are counted level by level, and each level has one.
  have hone : blocks.map (List.countP fun node => node.ordinate.isStart) = blocks.map fun _ => 1 := by
    refine List.map_congr_left fun block hblock => ?_
    obtain ⟨i, hi, rfl⟩ := List.mem_iff_getElem.mp hblock
    exact (h.2 i hi).countP_isStart
  rw [← h.length_eq_levels, h.1, List.countP_flatten, hone]
  simp

theorem dependent_iff (h : r.HasLevels blocks) {node : AngularNode ℝ} (hnode : node ∈ r.nodes) :
    node.dependent = true ↔ 0 < node.ordinate.weight := by
  obtain ⟨i, hi, hlevel, hmem⟩ := h.exists_isLevel hnode
  exact hlevel.dependent_iff hmem

/-- The first node is a start. -/
theorem exists_nodes_eq_cons (h : r.HasLevels blocks) (hne : blocks ≠ []) :
    ∃ start nodes, r.nodes = start :: nodes ∧ start.dependent = false := by
  have hi : 0 < blocks.length := List.length_pos_iff.mpr hne
  have hlevel := h.2 0 hi
  cases blocks with
  | nil => exact absurd rfl hne
  | cons block blocks =>
    cases hlevel with
    | intro hstart hfollowers => exact ⟨_, _, h.1, hstart.independent⟩

end HasLevels

/-! ## Coefficients -/

section Coefficients

variable {r : AngularRedistribution ℝ} {m : ℕ}

theorem node_eq_ok (hm : m < r.nodes.length) : r.node m = .ok r.nodes[m] := by
  simp [node, hm]

theorem node_eq_error (hm : r.nodes.length ≤ m) :
    r.node m = .error (.indexOutOfRange m r.nodes.length) := by
  simp [node, List.getElem?_eq_none hm]

theorem isDependent_eq_ok (hm : m < r.nodes.length) :
    r.isDependent m = .ok r.nodes[m].dependent := by
  simp [isDependent, node_eq_ok hm, bind, Except.bind, pure, Except.pure]

theorem dependentNode_eq_ok (hm : m < r.nodes.length) (h : r.nodes[m].dependent = true) :
    r.dependentNode m = .ok r.nodes[m] := by
  simp [dependentNode, node_eq_ok hm, h, require, bind, Except.bind, pure, Except.pure]

theorem dependentNode_eq_notDependent (hm : m < r.nodes.length) (h : r.nodes[m].dependent = false) :
    r.dependentNode m = .error (.notDependent m) := by
  simp [dependentNode, node_eq_ok hm, h, require, bind, Except.bind]

theorem dependentNode_eq_outOfRange (hm : r.nodes.length ≤ m) :
    r.dependentNode m = .error (.indexOutOfRange m r.nodes.length) := by
  simp [dependentNode, node_eq_error hm, bind, Except.bind]

theorem fluxCoefficient_eq_ok (hm : m < r.nodes.length) (h : r.nodes[m].dependent = true) :
    r.fluxCoefficient m = .ok (r.nodes[m].alpha / (r.nodes[m].weight * r.nodes[m].tau)) := by
  rw [fluxCoefficient, dependentNode_eq_ok hm h]
  rfl

theorem sourceCoefficient_eq_ok (hm : m < r.nodes.length) (h : r.nodes[m].dependent = true) :
    r.sourceCoefficient m =
      .ok ((r.nodes[m].alpha * (1 - r.nodes[m].tau) / r.nodes[m].tau + r.nodes[m - 1].alpha) /
        r.nodes[m].weight) := by
  have hm' : m - 1 < r.nodes.length := by omega
  rw [sourceCoefficient, dependentNode_eq_ok hm h, ← Scalar.one_real]
  simp only [bind, Except.bind, node_eq_ok hm', pure, Except.pure]

theorem edgeCoefficient_eq_ok (hm : m < r.nodes.length) (h : r.nodes[m].dependent = true) :
    r.edgeCoefficient m = .ok (1 / r.nodes[m].tau) := by
  rw [edgeCoefficient, dependentNode_eq_ok hm h, ← Scalar.one_real]
  rfl

/-- Every coefficient of a dependent node has a value. -/
theorem exists_coefficient (hm : m < r.nodes.length) (h : r.nodes[m].dependent = true)
    {coefficient : AngularRedistribution ℝ → ℕ → Except (AngularError ℝ) ℝ}
    (hcoefficient : coefficient ∈ [fluxCoefficient, sourceCoefficient, edgeCoefficient]) :
    ∃ c, coefficient r m = .ok c := by
  simp only [List.mem_cons, List.not_mem_nil, or_false] at hcoefficient
  rcases hcoefficient with rfl | rfl | rfl
  · exact ⟨_, fluxCoefficient_eq_ok hm h⟩
  · exact ⟨_, sourceCoefficient_eq_ok hm h⟩
  · exact ⟨_, edgeCoefficient_eq_ok hm h⟩

/-- What refuses a node refuses its coefficients. -/
theorem coefficient_eq_error {e : AngularError ℝ} (h : r.dependentNode m = .error e)
    {coefficient : AngularRedistribution ℝ → ℕ → Except (AngularError ℝ) ℝ}
    (hcoefficient : coefficient ∈ [fluxCoefficient, sourceCoefficient, edgeCoefficient]) :
    coefficient r m = .error e := by
  simp only [List.mem_cons, List.not_mem_nil, or_false] at hcoefficient
  rcases hcoefficient with rfl | rfl | rfl
  · rw [fluxCoefficient, h]; rfl
  · rw [sourceCoefficient, h]; rfl
  · rw [edgeCoefficient, h]; rfl

end Coefficients

/-! ## Main statement -/

/-- The nodes of a curvilinear redistribution are the ordinates of the sweep,
and they fall into levels that are numbered without gaps. There are as many
levels as starts, a node depends on the one before it exactly if it carries
weight, and the first one never does. A coefficient has a value for every
dependent node, and an error that tells the cause for every other index. -/
theorem levels_of_curvilinear {q : Quadrature ℝ} {geometry : Geometry} {meshDimension : ℕ}
    {r : AngularRedistribution ℝ} (hgeometry : geometry.isCurvilinear)
    (hweights : ∀ w ∈ q.table.wt, 0 ≤ w) (h : ofQuadrature q geometry meshDimension = .ok r) :
    SweepSet.ofQuadrature q geometry meshDimension = .ok r.sweep ∧
    r.nodes.map (·.ordinate) = r.sweep.ordinates ∧
    (∃ blocks, r.HasLevels blocks ∧ blocks.length = r.levels) ∧
    r.levels = r.sweep.ordinates.countP Ordinate.isStart ∧
    r.isDependent 0 = .ok false ∧
    (∀ m (hm : m < r.nodes.length), r.isDependent m = .ok r.nodes[m].dependent ∧
      (r.nodes[m].dependent = true ↔ 0 < r.nodes[m].ordinate.weight)) ∧
    ∀ coefficient ∈ [fluxCoefficient, sourceCoefficient, edgeCoefficient], ∀ m,
      (∀ hm : m < r.nodes.length, r.nodes[m].dependent = true →
        0 < m ∧ ∃ c, coefficient r m = .ok c) ∧
      (∀ hm : m < r.nodes.length, r.nodes[m].dependent = false →
        coefficient r m = .error (.notDependent m)) ∧
      (r.nodes.length ≤ m →
        coefficient r m = .error (.indexOutOfRange m r.nodes.length)) := by
  obtain ⟨hsweep, hordinates, blocks, hne, hlevels⟩ := exists_hasLevels hgeometry hweights h
  obtain ⟨start, nodes, hnodes, hstart⟩ := hlevels.exists_nodes_eq_cons hne
  have hzero : 0 < r.nodes.length := by simp [hnodes]
  have hfirst : r.nodes[0].dependent = false := by simp [hnodes, hstart]
  refine ⟨hsweep, hordinates, ⟨blocks, hlevels, hlevels.length_eq_levels⟩, ?_, ?_, ?_, ?_⟩
  · rw [hlevels.levels_eq_countP, ← hordinates, List.countP_map]
    rfl
  · rw [isDependent_eq_ok hzero, hfirst]
  · intro m hm
    exact ⟨isDependent_eq_ok hm, hlevels.dependent_iff (List.getElem_mem hm)⟩
  · intro coefficient hcoefficient m
    refine ⟨fun hm hdependent => ⟨?_, exists_coefficient hm hdependent hcoefficient⟩,
      fun hm hindependent =>
        coefficient_eq_error (dependentNode_eq_notDependent hm hindependent) hcoefficient,
      fun hm => coefficient_eq_error (dependentNode_eq_outOfRange hm) hcoefficient⟩
    rcases Nat.eq_zero_or_pos m with rfl | hpos
    · rw [hfirst] at hdependent
      cases hdependent
    · exact hpos

/-- Two opposite directions on a line. -/
noncomputable def pair : Quadrature ℝ :=
  ⟨.general "pair" 1 1, 2, 2.0, { mu := [-0.5, 0.5], wt := [1, 1] }⟩

/-- The pair as it is swept through a sphere. -/
noncomputable def pairSweep : SweepSet ℝ :=
  ⟨[⟨-1, 0, 0, 0⟩, ⟨-0.5, 0, 0, 1⟩, ⟨0.5, 0, 0, 1⟩], .spherical, 1, 1, 2.0⟩

theorem ofQuadrature_pair : SweepSet.ofQuadrature pair .spherical 1 = .ok pairSweep := by
  have hordinates : pair.ordinates = [⟨-0.5, 0, 0, 1⟩, ⟨0.5, 0, 0, 1⟩] :=
    Quadrature.ordinates_of_line rfl rfl
  rw [SweepSet.ofQuadrature_of_two rfl hordinates (.inr ⟨rfl, by norm_num⟩)
    (by simp [levelTolerance_pos.le])]
  simp [pairSweep, Ordinate.levelStart, Scalar.zero_real, Scalar.one_real]
  exact ⟨rfl, rfl⟩

theorem exists_ofSweep_pair : ∃ r, ofSweep pairSweep = .ok r := by
  have hos : pairSweep.ordinates =
      [Ordinate.levelStart 0, ⟨-0.5, 0, 0, 1⟩, ⟨0.5, 0, 0, 1⟩] := by
    simp [pairSweep, Ordinate.levelStart, Scalar.zero_real, Scalar.one_real]
  refine ⟨_, ofSweep_of_two (a := ⟨-0.5, 0, 0, 1⟩) rfl hos le_rfl ?_ one_pos rfl rfl⟩
  simp [levelTolerance_pos.le]

/-- A pair of directions in a sphere: one level, of which the start depends on
nothing. -/
theorem levels_of_curvilinear_pair : ∃ r, ofQuadrature pair .spherical 1 = .ok r ∧
    Geometry.spherical.isCurvilinear = true ∧ (∀ w ∈ pair.table.wt, 0 ≤ w) ∧
    r.sweep = pairSweep ∧ (∃ blocks, r.HasLevels blocks ∧ blocks.length = 1) ∧
    r.isDependent 0 = .ok false ∧ r.isDependent 1 = .ok true ∧
    r.sourceCoefficient 0 = .error (.notDependent 0) ∧ (∃ c, r.sourceCoefficient 1 = .ok c) ∧
    r.sourceCoefficient 3 = .error (.indexOutOfRange 3 3) := by
  obtain ⟨r, hr⟩ := exists_ofSweep_pair
  have h : ofQuadrature pair .spherical 1 = .ok r := by
    rw [ofQuadrature, ofQuadrature_pair]
    exact hr
  have hweights : ∀ w ∈ pair.table.wt, 0 ≤ w := by simp [pair]
  obtain ⟨hsweep, hordinates, ⟨blocks, hblocks, hlength⟩, hcount, hzero, hdependent, hcoefficient⟩ :=
    levels_of_curvilinear (by rfl) hweights h
  have hpair : r.sweep = pairSweep := Except.ok.inj (hsweep.symm.trans ofQuadrature_pair)
  rw [hpair] at hordinates hcount
  have hthree : r.nodes.length = 3 := by simpa [pairSweep] using congrArg List.length hordinates
  have hone : r.levels = 1 := by
    rw [hcount]
    simp [pairSweep, Ordinate.isStart_iff]
  have hm : 1 < r.nodes.length := by omega
  have hfollower : r.nodes[1].ordinate = ⟨-0.5, 0, 0, 1⟩ := by
    have hget : (r.nodes.map (·.ordinate))[1]? = some ⟨-0.5, 0, 0, 1⟩ := by
      rw [hordinates]
      rfl
    simpa [hm] using hget
  have hfollows : r.nodes[1].dependent = true := by
    rw [(hdependent 1 hm).2, hfollower]
    exact one_pos
  have hstart : r.nodes[0].dependent = false := by
    have heq := (hdependent 0 (by omega)).1
    rw [hzero] at heq
    exact (Except.ok.inj heq).symm
  obtain ⟨hvalue, -, -⟩ := hcoefficient sourceCoefficient (by simp) 1
  obtain ⟨-, hrefused, -⟩ := hcoefficient sourceCoefficient (by simp) 0
  obtain ⟨-, -, hbeyond⟩ := hcoefficient sourceCoefficient (by simp) 3
  rw [hthree] at hbeyond
  exact ⟨r, h, rfl, hweights, hpair, ⟨blocks, hblocks, hlength.trans hone⟩, hzero,
    (hdependent 1 hm).1.trans (congrArg _ hfollows), hrefused (by omega) hstart,
    (hvalue hm hfollows).2, hbeyond (le_refl 3)⟩

end AngularRedistribution

end DiscreteOrdinates
