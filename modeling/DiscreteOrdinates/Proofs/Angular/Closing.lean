import DiscreteOrdinates.Proofs.RealScalar
import DiscreteOrdinates.Angular.Redistribution

/-!
# Closing levels

What it means that a level could be closed. Its first node stays as it is, the
others become dependent and keep their ordinates, and none of them is without
weight: a cell without weight has no width.
-/

namespace DiscreteOrdinates

namespace AngularRedistribution

/-! ## Cells -/

namespace LevelShape

/-- Where the azimuth of an edge and its cosine agree. On a sphere the azimuth is
not used. -/
def Meets (s : LevelShape ℝ) (e : Edge ℝ) : Prop :=
  s.geometry = .spherical ∨ e.lower = s.radius * Real.cos e.azimuth

theorem meets_start (s : LevelShape ℝ) : s.Meets s.start := by
  unfold Meets start
  cases s.geometry with
  | spherical => exact .inl rfl
  | cartesian => simp
  | axisymmetric => simp

theorem meets_next (s : LevelShape ℝ) (e : Edge ℝ) (node : AngularNode ℝ) :
    s.Meets (s.next e node) := by
  unfold Meets next upper
  cases s.geometry with
  | spherical => exact .inl rfl
  | cartesian => exact .inr rfl
  | axisymmetric => exact .inr rfl

/-- A cell without weight has no width. -/
theorem upper_zero {s : LevelShape ℝ} {e : Edge ℝ} (he : s.Meets e) : s.upper e 0 = e.lower := by
  unfold Meets at he
  unfold upper nextAzimuth
  cases hgeometry : s.geometry with
  | spherical => simp
  | cartesian =>
    rw [hgeometry] at he
    simpa using (he.resolve_left (by simp)).symm
  | axisymmetric =>
    rw [hgeometry] at he
    simpa using (he.resolve_left (by simp)).symm

end LevelShape

/-! ## Nodes -/

/-- Every element of a list has a partner in a related one. -/
theorem exists_mem_of_forall₂ {α β : Type} {R : α → β → Prop} {xs : List α} {ys : List β}
    (h : List.Forall₂ R xs ys) {x : α} (hx : x ∈ xs) : ∃ y ∈ ys, R x y := by
  induction h with
  | nil => cases hx
  | cons hxy _ ih =>
    rcases List.mem_cons.mp hx with rfl | hx
    · exact ⟨_, List.mem_cons_self, hxy⟩
    · obtain ⟨y, hy, hrel⟩ := ih hx
      exact ⟨y, List.mem_cons_of_mem _ hy, hrel⟩

/-- A node and the one that it becomes when its level is closed behind it. -/
structure ClosesTo (node closed : AngularNode ℝ) : Prop where
  ordinate : closed.ordinate = node.ordinate
  weight : closed.weight = node.weight
  level : closed.level = node.level
  dependent : closed.dependent = true
  weighted : node.weight ≠ 0

theorem LevelShape.forall₂_close {s : LevelShape ℝ} {index : ℕ} {e : Edge ℝ}
    {nodes closed : List (AngularNode ℝ)} (he : s.Meets e)
    (h : s.close index e nodes = .ok closed) : List.Forall₂ ClosesTo nodes closed := by
  -- Along the nodes, the edge keeps its azimuth and its cosine in agreement.
  induction nodes generalizing index e closed with
  | nil =>
    cases h
    exact .nil
  | cons node nodes ih =>
    unfold LevelShape.close at h
    simp only at h
    split at h
    · cases h
    next hwidth =>
      -- A node without weight would have left the edge where it was.
      have hweighted : node.weight ≠ 0 := by
        intro hzero
        apply hwidth
        simp only [LevelShape.next, hzero, LevelShape.upper_zero he, sub_self, Scalar.zero_real]
        exact le_refl _
      split at h
      next rest hrest =>
        cases h
        exact .cons ⟨rfl, rfl, rfl, rfl, hweighted⟩ (ih (s.meets_next e node) hrest)
      next => cases h

/-- A level and what it becomes when it is closed. -/
inductive LevelClosesTo : List (AngularNode ℝ) → List (AngularNode ℝ) → Prop where
  | intro {first : AngularNode ℝ} {dependents closed : List (AngularNode ℝ)}
      (h : List.Forall₂ ClosesTo dependents closed) :
      LevelClosesTo (first :: dependents) (first :: closed)

theorem LevelClosesTo.weighted {nodes closed : List (AngularNode ℝ)} (h : LevelClosesTo nodes closed)
    {node : AngularNode ℝ} (hnode : node ∈ nodes.tail) : node.weight ≠ 0 := by
  cases h with
  | intro h =>
    obtain ⟨_, _, hcloses⟩ := exists_mem_of_forall₂ h hnode
    exact hcloses.weighted

section

variable {β : Type} {f : AngularNode ℝ → β}
  (hf : ∀ {node closed : AngularNode ℝ}, ClosesTo node closed → f closed = f node)

include hf

/-- Closing leaves what it does not compute. -/
theorem map_eq_of_closesTo {nodes closed : List (AngularNode ℝ)}
    (h : List.Forall₂ ClosesTo nodes closed) : closed.map f = nodes.map f := by
  induction h with
  | nil => rfl
  | cons hnode _ ih => rw [List.map_cons, List.map_cons, hf hnode, ih]

theorem LevelClosesTo.map_eq {nodes closed : List (AngularNode ℝ)} (h : LevelClosesTo nodes closed) :
    closed.map f = nodes.map f := by
  cases h with
  | intro h => rw [List.map_cons, List.map_cons, map_eq_of_closesTo hf h]

theorem map_flatten_eq {nodes closed : List (List (AngularNode ℝ))}
    (h : List.Forall₂ LevelClosesTo nodes closed) :
    closed.flatten.map f = nodes.flatten.map f := by
  induction h with
  | nil => rfl
  | cons hlevel _ ih =>
    rw [List.flatten_cons, List.flatten_cons, List.map_append, List.map_append, ih, hlevel.map_eq hf]

end

theorem LevelClosesTo.map_ordinate {nodes closed : List (AngularNode ℝ)}
    (h : LevelClosesTo nodes closed) : closed.map (·.ordinate) = nodes.map (·.ordinate) :=
  h.map_eq ClosesTo.ordinate

theorem closesTo_closeLevel {geometry : Geometry} {index : ℕ} {nodes closed : List (AngularNode ℝ)}
    (hnodes : nodes ≠ []) (h : closeLevel geometry index nodes = .ok closed) :
    LevelClosesTo nodes closed := by
  cases nodes with
  | nil => exact absurd rfl hnodes
  | cons first dependents =>
    unfold closeLevel at h
    simp only at h
    split at h
    · cases h
    · split at h
      next rest hrest =>
        cases h
        exact .intro (LevelShape.forall₂_close (LevelShape.meets_start _) hrest)
      next => cases h

/-- Levels are closed one by one. -/
theorem exists_closeLevels_eq {geometry : Geometry} {index : ℕ}
    {levels : List (List (AngularNode ℝ))} {closed : List (AngularNode ℝ)}
    (h : closeLevels geometry index levels = .ok closed) :
    ∃ blocks, closed = blocks.flatten ∧
      List.Forall₂ (fun level block => ∃ index, closeLevel geometry index level = .ok block)
        levels blocks := by
  induction levels generalizing index closed with
  | nil =>
    cases h
    exact ⟨[], rfl, .nil⟩
  | cons level levels ih =>
    unfold closeLevels at h
    cases hfirst : closeLevel geometry index level with
    | error e => simp [hfirst, bind, Except.bind] at h
    | ok first =>
      cases hothers : closeLevels geometry (index + level.length) levels with
      | error e => simp [hfirst, hothers, bind, Except.bind] at h
      | ok others =>
        obtain ⟨blocks, rfl, hblocks⟩ := ih hothers
        have heq : first ++ blocks.flatten = closed := by
          simpa [hfirst, hothers, bind, Except.bind, pure, Except.pure] using h
        exact ⟨first :: blocks, heq.symm, .cons ⟨index, hfirst⟩ hblocks⟩

end AngularRedistribution

end DiscreteOrdinates
