import DiscreteOrdinates.Proofs.Quadrature.Scaling
import DiscreteOrdinates.Angular.Redistribution

/-!
# Scaled sweeps

A factor on the weights of a set passes through every step of a sweep and is lost
when the weights are normalised. So the levels and the coefficients of the angular
redistribution do not depend on the norm (`ofQuadrature_scaled`).
-/

namespace DiscreteOrdinates

/-! ## Sweeps -/

namespace Ordinate

theorem sorted_map_scaled (c : ℝ) (os : List (Ordinate ℝ)) :
    sorted (os.map (scaled c)) = (sorted os).map (scaled c) := by
  symm
  apply List.map_mergeSort
  exact fun _ _ _ _ => rfl

theorem scaled_levelStart (c z : ℝ) : (levelStart z).scaled c = levelStart z := by
  simp [levelStart, scaled, withWeight, Scalar.zero_real]

theorem withStartsFrom_map_scaled (c : ℝ) (current : Option ℝ) (os : List (Ordinate ℝ)) :
    withStartsFrom current (os.map (scaled c)) = (withStartsFrom current os).map (scaled c) := by
  induction os generalizing current with
  | nil => rfl
  | cons o os ih =>
    rw [List.map_cons, withStartsFrom, withStartsFrom, z_scaled]
    split
    · rw [ih, List.map_cons, List.map_cons, scaled_levelStart]
    · rw [ih, List.map_cons]

theorem withStarts_map_scaled (c : ℝ) (os : List (Ordinate ℝ)) :
    withStarts (os.map (scaled c)) = (withStarts os).map (scaled c) :=
  withStartsFrom_map_scaled c none os

theorem gather_map_scaled (c x w : ℝ) (os : List (Ordinate ℝ)) :
    gather x (c * w) (os.map (scaled c)) = (gather x w os).map (scaled c) := by
  induction os generalizing x w with
  | nil => rfl
  | cons o os ih =>
    rw [List.map_cons, gather, gather, x_scaled, weight_scaled, ← mul_add]
    split
    · rw [ih]
    · rw [ih, List.map_cons]
      rfl

theorem collapse_map_scaled (c : ℝ) (os : List (Ordinate ℝ)) :
    collapse (os.map (scaled c)) = (collapse os).map (scaled c) := by
  have hsort : (os.map (scaled c)).mergeSort (fun a b => (Scalar.order a.x b.x).isLE) =
      (os.mergeSort fun a b => (Scalar.order a.x b.x).isLE).map (scaled c) := by
    symm
    apply List.map_mergeSort
    exact fun _ _ _ _ => rfl
  rw [collapse, collapse, hsort]
  cases os.mergeSort fun a b => (Scalar.order a.x b.x).isLE with
  | nil => rfl
  | cons o os => exact gather_map_scaled c o.x o.weight os

end Ordinate

namespace SweepSet

theorem upper_map_scaled (c : ℝ) (os : List (Ordinate ℝ)) :
    upper (os.map (Ordinate.scaled c)) = (upper os).map (Ordinate.scaled c) := by
  rw [upper, upper, List.filter_map, List.map_map, List.map_map]
  refine List.map_congr_left fun o _ => ?_
  simp only [Function.comp_apply, Ordinate.scaled, Ordinate.withWeight]
  rw [mul_left_comm]

theorem map_flatten_map_scaled (c : ℝ) (os : List (Ordinate ℝ)) :
    (os.map (Ordinate.scaled c)).map flatten = (os.map flatten).map (Ordinate.scaled c) := by
  rw [List.map_map, List.map_map]
  rfl

theorem planar_map_scaled (c : ℝ) (os : List (Ordinate ℝ)) (geometry : Geometry)
    (meshDimension : ℕ) :
    planar (os.map (Ordinate.scaled c)) geometry meshDimension =
      (planar os geometry meshDimension).map (List.map (Ordinate.scaled c)) := by
  unfold planar
  split
  · rfl
  · rw [Ordinate.sorted_map_scaled, Ordinate.withStarts_map_scaled]
    rfl
  · rw [Ordinate.collapse_map_scaled]
    rfl
  · rw [Ordinate.collapse_map_scaled, Ordinate.withStarts_map_scaled]
    rfl
  · rw [upper_map_scaled, Ordinate.sorted_map_scaled, Ordinate.withStarts_map_scaled]
    rfl
  · rfl

theorem linear_map_scaled (c : ℝ) (os : List (Ordinate ℝ)) (geometry : Geometry) :
    linear (os.map (Ordinate.scaled c)) geometry =
      (linear os geometry).map (List.map (Ordinate.scaled c)) := by
  unfold linear
  split
  · rfl
  · rw [Ordinate.sorted_map_scaled, Ordinate.withStarts_map_scaled]
    rfl
  · rfl

theorem arrange_scaled (c : ℝ) (q : Quadrature ℝ) (geometry : Geometry) (meshDimension : ℕ) :
    arrange (q.scaled c) geometry meshDimension =
      (arrange q geometry meshDimension).map (List.map (Ordinate.scaled c)) := by
  have hdimension : (q.scaled c).dimension = q.dimension := rfl
  unfold arrange
  rw [hdimension, q.ordinates_scaled]
  split
  · rfl
  · split
    · exact linear_map_scaled c _ geometry
    · split
      · rfl
      · rfl
    · rw [upper_map_scaled, map_flatten_map_scaled]
      exact planar_map_scaled c _ geometry _
    · exact planar_map_scaled c _ geometry _

/-- The sweep set with its norm and its weights multiplied by a factor. -/
def scaled (c : ℝ) (s : SweepSet ℝ) : SweepSet ℝ :=
  { s with ordinates := s.ordinates.map (Ordinate.scaled c), norm := c * s.norm }

theorem ofQuadrature_scaled (c : ℝ) (q : Quadrature ℝ) (geometry : Geometry) (meshDimension : ℕ) :
    ofQuadrature (q.scaled c) geometry meshDimension =
      (ofQuadrature q geometry meshDimension).map (scaled c) := by
  rw [ofQuadrature, ofQuadrature, arrange_scaled]
  cases arrange q geometry meshDimension with
  | none => rfl
  | some os => rfl

end SweepSet

/-! ## Redistribution -/

/-- The node of an ordinate whose weight is multiplied by a factor. Its own weight
is normalised and stays as it is, and so do its level and its coefficients. -/
def AngularNode.scaled (c : ℝ) (node : AngularNode ℝ) : AngularNode ℝ :=
  { node with ordinate := node.ordinate.scaled c }

theorem splitBy_map {α β : Type} (f : α → β) (r : β → β → Bool) (xs : List α) :
    (xs.map f).splitBy r = (xs.splitBy fun a b => r (f a) (f b)).map (List.map f) := by
  rw [List.splitBy_eq_iff]
  refine ⟨?_, ?_, ?_, ?_⟩
  · rw [← List.map_flatten, List.flatten_splitBy]
  · rw [List.mem_map]
    rintro ⟨run, hrun, hnil⟩
    exact List.ne_nil_of_mem_splitBy hrun (List.map_eq_nil_iff.mp hnil)
  · intro run hrun
    obtain ⟨run, hmem, rfl⟩ := List.mem_map.mp hrun
    rw [List.isChain_map]
    exact List.isChain_of_mem_splitBy hmem
  · rw [List.isChain_map]
    refine (List.isChain_getLast_head_splitBy _ xs).imp ?_
    rintro a b ⟨ha, hb, h⟩
    refine ⟨mt List.map_eq_nil_iff.mp ha, mt List.map_eq_nil_iff.mp hb, ?_⟩
    rwa [List.getLast_map, List.head_map]

namespace AngularRedistribution

theorem close_map_scaled (c : ℝ) (shape : LevelShape ℝ) (index : ℕ) (e : Edge ℝ)
    (nodes : List (AngularNode ℝ)) :
    shape.close index e (nodes.map (AngularNode.scaled c)) =
      (shape.close index e nodes).map (List.map (AngularNode.scaled c)) := by
  induction nodes generalizing index e with
  | nil => rfl
  | cons node nodes ih =>
    have hnext : shape.next e (node.scaled c) = shape.next e node := rfl
    rw [List.map_cons, LevelShape.close, LevelShape.close, hnext]
    dsimp only
    split
    · rfl
    · rw [ih]
      cases shape.close (index + 1) (shape.next e node) nodes with
      | error cause => rfl
      | ok rest => rfl

theorem closeLevel_map_scaled (c : ℝ) (geometry : Geometry) (index : ℕ)
    (nodes : List (AngularNode ℝ)) :
    closeLevel geometry index (nodes.map (AngularNode.scaled c)) =
      (closeLevel geometry index nodes).map (List.map (AngularNode.scaled c)) := by
  cases nodes with
  | nil => rfl
  | cons first dependents =>
    have hweights : ((first :: dependents).map (AngularNode.scaled c)).map (·.weight) =
        (first :: dependents).map (·.weight) := by
      rw [List.map_map]
      rfl
    have hz : (first.scaled c).ordinate.z = first.ordinate.z := rfl
    have hlevel : (first.scaled c).level = first.level := rfl
    rw [List.map_cons] at hweights ⊢
    simp only [closeLevel, hweights, hz, hlevel, close_map_scaled]
    split
    · rfl
    · generalize LevelShape.close _ _ _ dependents = closing
      cases closing with
      | error cause => rfl
      | ok closed => rfl

theorem closeLevels_map_scaled (c : ℝ) (geometry : Geometry) (index : ℕ)
    (levels : List (List (AngularNode ℝ))) :
    closeLevels geometry index (levels.map (List.map (AngularNode.scaled c))) =
      (closeLevels geometry index levels).map (List.map (AngularNode.scaled c)) := by
  induction levels generalizing index with
  | nil => rfl
  | cons level levels ih =>
    rw [List.map_cons, closeLevels, closeLevels, closeLevel_map_scaled, List.length_map, ih]
    cases closeLevel geometry index level with
    | error cause => rfl
    | ok closed =>
      cases closeLevels geometry (index + level.length) levels with
      | error cause => rfl
      | ok rest =>
        exact congrArg Except.ok List.map_append.symm

theorem groupLevels_map_scaled (c : ℝ) (nodes : List (AngularNode ℝ)) :
    groupLevels (nodes.map (AngularNode.scaled c)) =
      (groupLevels nodes).map (List.map (AngularNode.scaled c)) :=
  splitBy_map _ _ nodes

/-- The coefficients over a sweep set whose weights are multiplied by a factor. -/
def scaled (c : ℝ) (r : AngularRedistribution ℝ) : AngularRedistribution ℝ :=
  ⟨r.sweep.scaled c, r.nodes.map (AngularNode.scaled c)⟩

/-- A factor on all weights does not change what they are after normalisation. -/
theorem nodes_scaled {c : ℝ} (hc : 0 < c) (os : List (Ordinate ℝ)) (levels : List ℕ) (total : ℝ) :
    (os.map (Ordinate.scaled c)).zipWith (fun o level =>
        ({ ordinate := o, weight := o.weight / (c * total), level, alpha := 0.0, tau := 1.0 } :
          AngularNode ℝ)) levels =
      (os.zipWith (fun o level =>
        ({ ordinate := o, weight := o.weight / total, level, alpha := 0.0, tau := 1.0 } :
          AngularNode ℝ)) levels).map (AngularNode.scaled c) := by
  rw [List.zipWith_map_left, List.map_zipWith]
  congr 1
  funext o level
  simp only [AngularNode.scaled, Ordinate.weight_scaled, mul_div_mul_left _ _ hc.ne']

theorem sum_weights_scaled (c : ℝ) (sweep : SweepSet ℝ) :
    Scalar.sum ((sweep.scaled c).ordinates.map (·.weight)) =
      c * Scalar.sum (sweep.ordinates.map (·.weight)) := by
  rw [Scalar.sum_real, Scalar.sum_real, ← List.sum_map_mul_left]
  simp only [SweepSet.scaled, List.map_map]
  rfl

theorem assignLevels_scaled (c : ℝ) (sweep : SweepSet ℝ) :
    assignLevels (sweep.scaled c).ordinates = assignLevels sweep.ordinates := by
  simp only [assignLevels, SweepSet.scaled, List.map_map]
  rfl

theorem ofSweep_scaled {c : ℝ} (hc : 0 < c) (sweep : SweepSet ℝ) :
    ofSweep (sweep.scaled c) = (ofSweep sweep).map (scaled c) := by
  have hweight : ∀ total : ℝ, (¬ c * total ≤ 0.0 ∧ Scalar.isFinite (c * total)) ↔
      (¬ total ≤ 0.0 ∧ Scalar.isFinite total) := by
    intro total
    simp only [Scalar.zero_real, not_le, mul_pos_iff_of_pos_left hc, Scalar.isFinite_real]
  unfold ofSweep
  dsimp only
  rw [sum_weights_scaled, assignLevels_scaled]
  simp only [require, hweight]
  split
  · cases assignLevels sweep.ordinates with
    | error e => rfl
    | ok levels =>
      have hgeometry : (sweep.scaled c).geometry = sweep.geometry := rfl
      have hordinates : (sweep.scaled c).ordinates = sweep.ordinates.map (Ordinate.scaled c) := rfl
      simp only [bind, Except.bind, hordinates, nodes_scaled hc, hgeometry, groupLevels_map_scaled,
        closeLevels_map_scaled]
      split
      · generalize closeLevels (R := ℝ) _ _ _ = closing
        cases closing with
        | error cause => rfl
        | ok nodes => rfl
      · rfl
  · rfl

theorem ofQuadrature_scaled {c : ℝ} (hc : 0 < c) (q : Quadrature ℝ) (geometry : Geometry)
    (meshDimension : ℕ) :
    ofQuadrature (q.scaled c) geometry meshDimension =
      (ofQuadrature q geometry meshDimension).map (scaled c) := by
  rw [ofQuadrature, ofQuadrature, SweepSet.ofQuadrature_scaled]
  cases SweepSet.ofQuadrature q geometry meshDimension with
  | error e => rfl
  | ok sweep => exact ofSweep_scaled hc sweep

end AngularRedistribution

end DiscreteOrdinates
