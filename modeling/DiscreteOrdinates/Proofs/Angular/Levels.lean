import DiscreteOrdinates.Proofs.Angular.Closing
import DiscreteOrdinates.Proofs.Sweep.Arrangement
import DiscreteOrdinates.Proofs.Sweep.Levels

/-!
# Levels of the redistribution

The numbers that ordinates get from their cosines, compared with the levels that
were given a start. The two may differ, since an ordinate far behind the start
of its own level can be close to the next one. Where they do, the start of the
next level lies inside a run of equal numbers, and such a run cannot be closed.
-/

namespace DiscreteOrdinates

namespace AngularRedistribution

/-! ## Numbers -/

theorem lastIndex?_eq_none {α : Type} {p : α → Bool} {xs : List α} (h : ∀ x ∈ xs, p x = false) :
    lastIndex? p xs = none := by
  induction xs with
  | nil => rfl
  | cons x xs ih =>
    obtain ⟨hx, hxs⟩ := List.forall_mem_cons.mp h
    simp [lastIndex?, ih hxs, hx]

theorem lastIndex?_eq_some {α : Type} {p : α → Bool} {xs : List α} {i : ℕ} (hi : i < xs.length)
    (hp : p xs[i] = true) (hlater : ∀ j (hj : j < xs.length), i < j → p xs[j] = false) :
    lastIndex? p xs = some i := by
  induction xs generalizing i with
  | nil => simp at hi
  | cons x xs ih =>
    cases i with
    | zero =>
      have hnone : lastIndex? p xs = none := by
        apply lastIndex?_eq_none
        intro y hy
        obtain ⟨j, hj, rfl⟩ := List.mem_iff_getElem.mp hy
        exact hlater (j + 1) (Nat.succ_lt_succ hj) (Nat.succ_pos j)
      rw [List.getElem_cons_zero] at hp
      simp [lastIndex?, hnone, hp]
    | succ i =>
      have hsome : lastIndex? p xs = some i :=
        ih (Nat.lt_of_succ_lt_succ hi) hp fun j hj hij =>
          hlater (j + 1) (Nat.succ_lt_succ hj) (Nat.succ_lt_succ hij)
      simp [lastIndex?, hsome]

variable {levels : List (SweepLevel ℝ)}

/-- The number of a cosine between the openings of two levels, taking the
tolerance into account. -/
theorem levelOf_eq (h : SweepLevel.IsLevelled levels) {i : ℕ} (hi : i < levels.length) {z : ℝ}
    (hlow : levels[i].opening ≤ z + levelTolerance)
    (hhigh : ∀ hn : i + 1 < levels.length, z + levelTolerance < levels[i + 1].opening) :
    levelOf (levels.map (·.opening)) z = i := by
  have hlater : ∀ j (hj : j < levels.length), i < j → z + levelTolerance < levels[j].opening := by
    intro j hj hij
    have hnext := hhigh (by omega)
    rcases Nat.eq_or_lt_of_le (Nat.succ_le_of_lt hij) with rfl | hlt
    · exact hnext
    · have hapart := List.pairwise_iff_getElem.mp h.apart (i + 1) j (by omega) hj hlt
      linarith [levelTolerance_pos]
  have hlast : lastIndex? (fun level : ℝ => level ≤ z + levelTolerance) (levels.map (·.opening)) =
      some i := by
    apply lastIndex?_eq_some (by simpa using hi)
    · simpa using hlow
    · intro j hj hij
      simpa using hlater j (by simpa using hj) hij
  rw [levelOf, hlast, Option.getD_some]

theorem lt_opening_succ (h : SweepLevel.IsLevelled levels) {i : ℕ} (hn : i + 1 < levels.length) :
    levels[i].opening + levelTolerance < levels[i + 1].opening :=
  List.pairwise_iff_getElem.mp h.apart i (i + 1) (by omega) hn (Nat.lt_succ_self i)

theorem levelOf_opening (h : SweepLevel.IsLevelled levels) {i : ℕ} (hi : i < levels.length) :
    levelOf (levels.map (·.opening)) levels[i].opening = i :=
  levelOf_eq h hi (le_add_of_nonneg_right levelTolerance_pos.le) (lt_opening_succ h)

/-- An ordinate that comes close to the next level gets the number of that. -/
theorem levelOf_of_close (h : SweepLevel.IsLevelled levels) {i : ℕ} (hn : i + 1 < levels.length)
    {o : Ordinate ℝ} (ho : o ∈ levels[i].ordinates)
    (hclose : levels[i + 1].opening ≤ o.z + levelTolerance) :
    levelOf (levels.map (·.opening)) o.z = i + 1 := by
  apply levelOf_eq h hn hclose
  intro hn'
  have hwithin := (h.within _ (List.getElem_mem (by omega)) o ho).2
  have hnext := lt_opening_succ h hn
  have hnextButOne := lt_opening_succ h hn'
  linarith

/-! ## Runs -/

/-- If only heads of runs lack a property, it holds behind every element of the
same run. -/
theorem isChain_of_forall_mem_tail {α : Type} {p : α → Prop} {r : α → α → Bool} {xs : List α}
    (h : ∀ g ∈ xs.splitBy r, ∀ x ∈ g.tail, p x) : xs.IsChain fun a b => r a b = true → p b := by
  rw [← List.flatten_splitBy r xs, List.isChain_flatten (List.nil_notMem_splitBy r xs)]
  constructor
  · intro g hg
    rw [List.isChain_iff_getElem]
    intro i hi _
    have hi' : i < g.tail.length := by
      rw [List.length_tail]
      omega
    have htail : g.tail[i] = g[i + 1] := List.getElem_tail hi'
    exact h g hg _ (htail ▸ List.getElem_mem hi')
  · refine (List.isChain_getLast_head_splitBy r xs).imp fun a b hab x hx y hy hr => ?_
    obtain ⟨ha, hb, hfalse⟩ := hab
    rw [List.getLast_of_mem_getLast? hx, List.head_of_mem_head? hy, hr] at hfalse
    cases hfalse

/-- Nodes that are numbered by levels fall into these levels. -/
theorem groupLevels_flatten {blocks : List (List (AngularNode ℝ))} (hnil : [] ∉ blocks)
    (hlevel : ∀ i (hi : i < blocks.length), ∀ node ∈ blocks[i], node.level = i) :
    groupLevels blocks.flatten = blocks := by
  have hne : ∀ i (hi : i < blocks.length), blocks[i] ≠ [] :=
    fun i hi heq => hnil (heq ▸ List.getElem_mem hi)
  refine List.splitBy_flatten hnil (fun block hblock => ?_) ?_
  · obtain ⟨i, hi, rfl⟩ := List.mem_iff_getElem.mp hblock
    refine List.Pairwise.isChain (List.pairwise_of_forall_mem_list fun a ha b hb => ?_)
    rw [hlevel i hi a ha, hlevel i hi b hb]
    exact beq_self_eq_true i
  · -- Two levels in a row have different numbers.
    refine List.isChain_iff_getElem.mpr fun i hi => ⟨hne i (by omega), hne (i + 1) hi, ?_⟩
    rw [hlevel i (by omega) _ (List.getLast_mem _), hlevel (i + 1) hi _ (List.head_mem _)]
    simp

/-- The node of an ordinate before levels are closed. -/
noncomputable def opened (total : ℝ) (levels : List (SweepLevel ℝ)) (o : Ordinate ℝ) :
    AngularNode ℝ :=
  { ordinate := o
    weight := o.weight / total
    level := levelOf (levels.map (·.opening)) o.z
    alpha := 0.0
    tau := 1.0 }

/-- The nodes of a level before it is closed. -/
noncomputable def openedLevel (total : ℝ) (levels : List (SweepLevel ℝ)) (l : SweepLevel ℝ) :
    List (AngularNode ℝ) :=
  l.ordinates.map (opened total levels)

theorem openedLevel_ne_nil (total : ℝ) (l : SweepLevel ℝ) : openedLevel total levels l ≠ [] :=
  List.cons_ne_nil _ _

theorem map_opened_flatMap (total : ℝ) :
    (levels.flatMap SweepLevel.ordinates).map (opened total levels) =
      (levels.map (openedLevel total levels)).flatten := by
  rw [List.map_flatMap, List.flatMap_def]
  rfl

/-- No ordinate comes close to the next level. -/
def KeepApart (levels : List (SweepLevel ℝ)) : Prop :=
  ∀ i (hn : i + 1 < levels.length), ∀ o ∈ levels[i].ordinates,
    o.z + levelTolerance < levels[i + 1].opening

/-- Levels keep apart if runs carry weight behind their heads. -/
theorem keepApart_of_weighted (h : SweepLevel.IsLevelled levels) {total : ℝ}
    (hweighted : ∀ g ∈ groupLevels ((levels.flatMap SweepLevel.ordinates).map (opened total levels)),
      ∀ node ∈ g.tail, node.weight ≠ 0) : KeepApart levels := by
  intro i hn o ho
  have hnil : [] ∉ levels.map (openedLevel total levels) := by
    simp [openedLevel_ne_nil]
  have hchain := isChain_of_forall_mem_tail hweighted
  rw [map_opened_flatMap, List.isChain_flatten hnil] at hchain
  have hboundary := List.isChain_iff_getElem.mp hchain.2 i (by simpa using hn)
  rw [List.getElem_map, List.getElem_map] at hboundary
  -- The last ordinate of the level goes farthest, and the start of the next level follows it.
  have hne : levels[i].ordinates ≠ [] := List.cons_ne_nil _ _
  have hlast := hboundary (opened total levels (levels[i].ordinates.getLast hne))
    (by rw [openedLevel, List.getLast?_map, List.getLast?_eq_getLast_of_ne_nil hne]; rfl)
    (opened total levels (Ordinate.levelStart levels[i + 1].opening)) rfl
  by_contra hclose
  -- Coming close, it would get the number of that start and so the same run.
  have hle : o.z ≤ (levels[i].ordinates.getLast hne).z :=
    (h.ascending _ (List.getElem_mem (by omega))).rel_getLast_of_rel_getLast_getLast ho (le_refl _)
  have hlevel := levelOf_of_close h hn (List.getLast_mem hne) (by linarith)
  have hstart := levelOf_opening h hn
  apply hlast
  · simp [opened, hlevel, Ordinate.levelStart, hstart]
  · simp [opened, Ordinate.levelStart, Scalar.zero_real]

theorem KeepApart.levelOf_eq (hapart : KeepApart levels) (h : SweepLevel.IsLevelled levels) {i : ℕ}
    (hi : i < levels.length) {o : Ordinate ℝ} (ho : o ∈ levels[i].ordinates) :
    levelOf (levels.map (·.opening)) o.z = i := by
  have hlow := (h.within _ (List.getElem_mem hi) o ho).1
  have htolerance := levelTolerance_pos
  exact AngularRedistribution.levelOf_eq h hi (by linarith) fun hn => hapart i hn o ho

/-- If levels keep apart, the runs of equal numbers are the levels. -/
theorem KeepApart.groupLevels_eq (hapart : KeepApart levels) (h : SweepLevel.IsLevelled levels)
    (total : ℝ) :
    groupLevels ((levels.flatMap SweepLevel.ordinates).map (opened total levels)) =
      levels.map (openedLevel total levels) := by
  have hlevel : ∀ i (hi : i < levels.length), ∀ node ∈ openedLevel total levels levels[i],
      node.level = i := by
    intro i hi node hnode
    obtain ⟨o, ho, rfl⟩ := List.mem_map.mp hnode
    exact hapart.levelOf_eq h hi ho
  rw [map_opened_flatMap]
  refine groupLevels_flatten (by simp [openedLevel_ne_nil]) fun i hi => ?_
  rw [List.getElem_map]
  exact hlevel i (by simpa using hi)

/-- Nodes can only be closed if their levels keep apart, and then they are closed
level by level. -/
theorem exists_closeLevel_eq (h : SweepLevel.IsLevelled levels) {total : ℝ} {geometry : Geometry}
    {closed : List (AngularNode ℝ)}
    (hclose : closeLevels geometry 0
      (groupLevels ((levels.flatMap SweepLevel.ordinates).map (opened total levels))) = .ok closed) :
    KeepApart levels ∧ ∃ blocks, closed = blocks.flatten ∧
      List.Forall₂ (fun l block =>
        ∃ index, closeLevel geometry index (openedLevel total levels l) = .ok block) levels blocks := by
  obtain ⟨blocks, rfl, hclosed⟩ := exists_closeLevels_eq hclose
  -- Every run could be closed, so all of them carry weight behind their heads.
  have hapart : KeepApart levels := by
    refine @keepApart_of_weighted levels h total fun g hg node hnode => ?_
    have hne : g ≠ [] := fun hnil => List.nil_notMem_splitBy _ _ (hnil ▸ hg)
    obtain ⟨_, _, _, hcloses⟩ := exists_mem_of_forall₂ hclosed hg
    exact (closesTo_closeLevel hne hcloses).weighted hnode
  rw [hapart.groupLevels_eq h total, List.forall₂_map_left_iff] at hclosed
  exact ⟨hapart, blocks, rfl, hclosed⟩

end AngularRedistribution

end DiscreteOrdinates
