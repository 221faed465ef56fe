import DiscreteOrdinates.Proofs.Quadrature.UserTable
import DiscreteOrdinates.Configuration.Basic

/-!
# Number of directions

How many directions the sets of each family have, in whatever arithmetic they are
computed. No configuration leads to a set without directions
(`angles_pos_of_build`).
-/

namespace DiscreteOrdinates

variable {R : Type} [Scalar R]

/-! ## Interval rules -/

theorem length_of_mapM_eq_some {α β : Type} {f : α → Option β} {xs : List α} {ys : List β}
    (h : xs.mapM f = some ys) : ys.length = xs.length := by
  induction xs generalizing ys with
  | nil =>
    obtain rfl : [] = ys := Option.some.inj h
    rfl
  | cons x xs ih =>
    rw [List.mapM_cons] at h
    obtain ⟨y, -, h⟩ := Option.bind_eq_some_iff.mp h
    obtain ⟨rest, hrest, h⟩ := Option.bind_eq_some_iff.mp h
    obtain rfl : y :: rest = ys := Option.some.inj h
    rw [List.length_cons, List.length_cons, ih hrest]

namespace IntervalRule

theorem length_ofRoots {order : ℕ} {roots : List R} (h : roots.length = (order + 1) / 2) :
    (ofRoots order roots).nodes.length = order ∧ (ofRoots order roots).weights.length = order := by
  have houter : (roots.take (order / 2)).length = order / 2 := by
    rw [List.length_take]
    omega
  have hcentre : (if order % 2 = 1 then [(0.0 : R)] else []).length = order % 2 := by
    split
    · simp [*]
    · rw [List.length_nil]
      omega
  unfold ofRoots
  simp only [List.length_append, List.length_map, List.length_reverse, houter, hcentre, h]
  omega

/-- The weights of a rule read the same from either end, whatever the roots are. -/
theorem reverse_weights_ofRoots {order : ℕ} {roots : List R}
    (h : roots.length = (order + 1) / 2) :
    (ofRoots order roots).weights.reverse = (ofRoots order roots).weights := by
  -- Beside those in the outer half there is at most one weight.
  have hlast : (roots.drop (order / 2)).reverse = roots.drop (order / 2) := by
    have hshort : (roots.drop (order / 2)).length ≤ 1 := by
      rw [List.length_drop]
      omega
    match roots.drop (order / 2), hshort with
    | [], _ => rfl
    | [z], _ => rfl
  have hall : roots.map (weight order) =
      (roots.take (order / 2)).map (weight order) ++
        (roots.drop (order / 2)).map (weight order) := by
    rw [← List.map_append, List.take_append_drop]
  rw [ofRoots]
  dsimp only
  rw [hall, List.reverse_append, List.reverse_append, List.reverse_reverse, ← List.map_reverse,
    hlast, List.append_assoc]

/-- A Gauss-Legendre rule is that of the roots that the iteration settles on. -/
theorem eq_ofRoots_of_gaussLegendre {order : ℕ} {rule : IntervalRule R}
    (h : gaussLegendre order = .ok rule) :
    0 < order ∧ ∃ zs, roots order = some zs ∧ zs.length = (order + 1) / 2 ∧
      rule = ofRoots order zs := by
  obtain ⟨hpos, h⟩ := require_bind_eq_ok.mp h
  split at h
  next zs hroots =>
    have hlength : zs.length = (order + 1) / 2 := by
      rw [length_of_mapM_eq_some hroots, List.length_range]
    exact ⟨hpos, zs, hroots, hlength, (Except.ok.inj h).symm⟩
  next => cases h

/-- A Gauss-Legendre rule has as many nodes and weights as its order says. -/
theorem length_of_gaussLegendre {order : ℕ} {rule : IntervalRule R}
    (h : gaussLegendre order = .ok rule) :
    0 < order ∧ rule.nodes.length = order ∧ rule.weights.length = order := by
  obtain ⟨hpos, zs, -, hlength, rfl⟩ := eq_ofRoots_of_gaussLegendre h
  exact ⟨hpos, length_ofRoots hlength⟩

end IntervalRule

/-! ## Families -/

namespace Quadrature

/-- A set that passes its check is returned as it is. -/
theorem eq_of_checked {p q : Quadrature R} (h : checked p = .ok q) : p = q := by
  obtain ⟨-, h⟩ := check_bind_eq_ok.mp h
  exact Except.ok.inj h

theorem angles_of_gaussLegendre {order : ℕ} {norm : Option R} {q : Quadrature R}
    (h : gaussLegendre order norm = .ok q) : 0 < order ∧ q.angles = order := by
  obtain ⟨rule, hrule, h⟩ := bind_eq_ok.mp h
  obtain ⟨hpos, -, hweights⟩ := IntervalRule.length_of_gaussLegendre hrule
  rw [← eq_of_checked h]
  exact ⟨hpos, (List.length_map _).trans hweights⟩

theorem angles_of_doubleGauss {order : ℕ} {norm : Option R} {q : Quadrature R}
    (h : doubleGauss order norm = .ok q) : 2 ≤ order ∧ q.angles = order := by
  obtain ⟨table, htable, h⟩ := bind_eq_ok.mp h
  obtain ⟨⟨horder, heven⟩, htable⟩ := require_bind_eq_ok.mp htable
  obtain ⟨rule, hrule, htable⟩ := bind_eq_ok.mp htable
  obtain ⟨-, -, hweights⟩ := IntervalRule.length_of_gaussLegendre hrule
  rw [← eq_of_checked h, ← Except.ok.inj htable]
  refine ⟨horder, ?_⟩
  simp only [angles, IntervalRule.toDoubleTable, List.length_append, List.length_reverse,
    List.length_map, hweights]
  omega

theorem angles_of_squareChebyshevLegendre {order : ℕ} {norm : Option R} {q : Quadrature R}
    (h : squareChebyshevLegendre order norm = .ok q) :
    2 ≤ order ∧ q.angles = order * order := by
  obtain ⟨table, htable, h⟩ := bind_eq_ok.mp h
  obtain ⟨horder, htable⟩ := require_bind_eq_ok.mp htable
  obtain ⟨rule, hrule, htable⟩ := bind_eq_ok.mp htable
  obtain ⟨-, hnodes, hweights⟩ := IntervalRule.length_of_gaussLegendre hrule
  rw [← eq_of_checked h, ← Except.ok.inj htable]
  refine ⟨horder, ?_⟩
  simp [angles, ChebyshevLegendre.ofRule, DirectionTable.ofRows, ChebyshevLegendre.level,
    List.length_flatMap, hnodes, hweights]

end Quadrature

theorem Signs.length_withXi (xiSigns : List R) :
    (withXi xiSigns).length = xiSigns.length * 4 := by
  simp [withXi, both, List.length_flatMap]

theorem Ordinate.length_images (signs : List (Signs R)) (os : List (Ordinate R)) :
    (images signs os).length = signs.length * os.length := by
  simp [images, List.length_flatMap]

namespace LevelSymmetric

theorem length_places (half : ℕ) : 2 * (places half).length = half * (half + 1) := by
  have hsum : (places half).length = ((List.range half).map (half - ·)).sum := by
    simp [places, List.length_flatMap]
  rw [hsum]
  clear hsum
  induction half with
  | zero => rfl
  | succ half ih =>
    rw [List.range_succ_eq_map]
    simp only [List.map_cons, List.map_map, Function.comp_def, Nat.succ_eq_add_one,
      Nat.add_sub_add_right, Nat.sub_zero, List.sum_cons, mul_add, ih]
    ring

/-- An octant holds an eighth of the directions of the sphere. -/
theorem length_of_octant [MatrixSolver R] {order : ℕ} {os : List (Ordinate R)}
    (h : octant order = .ok os) : 2 ≤ order ∧ 8 * os.length = order * (order + 2) := by
  obtain ⟨mu, hmu, h⟩ := bind_eq_ok.mp h
  obtain ⟨⟨horder, heven⟩, -⟩ := require_bind_eq_ok.mp hmu
  obtain ⟨-, h⟩ := require_bind_eq_ok.mp h
  extract_lets weights at h
  split at h
  · cases h
  · have hhalf : 2 * (order / 2) = order := by omega
    have hplaces := length_places (order / 2)
    rw [← Except.ok.inj h]
    simp only [List.length_zipWith, weights, placeWeights, List.length_map, min_self]
    refine ⟨horder, ?_⟩
    calc
      8 * (places (order / 2)).length = 4 * (2 * (places (order / 2)).length) := by ring
      _ = 2 * (order / 2) * (2 * (order / 2) + 2) := by rw [hplaces]; ring
      _ = order * (order + 2) := by rw [hhalf]

theorem length_reflect (xiSigns : List R) (scale : R) (os : List (Ordinate R)) :
    (reflect xiSigns scale os).wt.length = xiSigns.length * 4 * os.length := by
  rw [reflect, DirectionTable.ofRows, List.length_map, List.length_map, Ordinate.length_images,
    Signs.length_withXi]

end LevelSymmetric

namespace Quadrature

/-- In the plane a level symmetric set has half as many directions as in space. -/
theorem angles_of_levelSymmetric [MatrixSolver R] {order dimension : ℕ} {norm : Option R}
    {q : Quadrature R} (h : levelSymmetric order dimension norm = .ok q) :
    2 ≤ order ∧ (dimension = 2 ∨ dimension = 3) ∧
      2 * q.angles = (dimension - 1) * (order * (order + 2)) := by
  unfold levelSymmetric at h
  split at h
  · obtain ⟨os, hos, h⟩ := bind_eq_ok.mp h
    obtain ⟨horder, hlength⟩ := LevelSymmetric.length_of_octant hos
    rw [← eq_of_checked h, angles, LevelSymmetric.planeTable, LevelSymmetric.length_reflect,
      ← hlength]
    refine ⟨horder, .inl rfl, ?_⟩
    rw [List.length_singleton]
    ring
  · obtain ⟨os, hos, h⟩ := bind_eq_ok.mp h
    obtain ⟨horder, hlength⟩ := LevelSymmetric.length_of_octant hos
    rw [← eq_of_checked h, angles, LevelSymmetric.spaceTable, LevelSymmetric.length_reflect,
      ← hlength]
    refine ⟨horder, .inr rfl, ?_⟩
    simp only [Signs.both, List.length_cons, List.length_nil]
  · cases h

end Quadrature

/-! ## User sets -/

theorem Ordinate.accumulate_ne_nil (o : Ordinate R) (os : List (Ordinate R)) :
    accumulate o os ≠ [] := by
  cases os with
  | nil => simp [accumulate]
  | cons p os =>
    rw [accumulate]
    split <;> simp

theorem Ordinate.length_accumulate_le (o : Ordinate R) (os : List (Ordinate R)) :
    (accumulate o os).length ≤ os.length + 1 := by
  induction os with
  | nil => rfl
  | cons p os ih =>
    rw [accumulate]
    split
    · rw [List.length_cons, List.length_cons]
      omega
    · rw [List.length_cons, List.length_cons]
      omega

/-- Merging does not add directions. -/
theorem Ordinate.length_merge_le (os : List (Ordinate R)) : (merge os).length ≤ os.length := by
  have hfold : ∀ (os merged : List (Ordinate R)),
      (os.foldl (fun merged o => accumulate o merged) merged).length ≤
        merged.length + os.length := by
    intro os
    induction os with
    | nil => exact fun _ => le_rfl
    | cons o os ih =>
      intro merged
      have hstep := length_accumulate_le o merged
      have hrest := ih (accumulate o merged)
      rw [List.foldl_cons, List.length_cons]
      omega
  simpa [merge] using hfold os []

theorem Ordinate.merge_ne_nil {os : List (Ordinate R)} (h : os ≠ []) : merge os ≠ [] := by
  obtain ⟨o, os, rfl⟩ := List.exists_cons_of_ne_nil h
  have hkeeps : ∀ (os merged : List (Ordinate R)), merged ≠ [] →
      os.foldl (fun merged o => accumulate o merged) merged ≠ [] := by
    intro os
    induction os with
    | nil => exact fun _ hmerged => hmerged
    | cons o os ih => exact fun merged _ => ih _ (accumulate_ne_nil o merged)
  exact hkeeps os _ (accumulate_ne_nil o [])

namespace Quadrature

theorem angles_of_general {name : String} {dimension order levels : ℕ} {norm : Option R}
    {table : DirectionTable R} {q : Quadrature R}
    (h : general name dimension order levels norm table = .ok q) :
    table.mu ≠ [] ∧ q.angles = table.mu.length := by
  obtain ⟨carried, hchecked, rfl⟩ := general_eq_ok_iff.mp h
  obtain ⟨hmu, hwt, -, hcarried, -, -⟩ := DirectionTable.checked_eq_ok.mp hchecked
  exact ⟨hmu, (DirectionTable.hasColumns_of_carried hwt hcarried).wt⟩

/-- An octant has all of its columns and a lowest cosine, and what it is reflected to lists
the images of its directions. -/
theorem exists_rows_of_octant {table : DirectionTable R} {levels : ℕ} {layout : Layout}
    {norm : Option R} {q : Quadrature R} (h : octant table levels layout norm = .ok q) :
    table.HasColumns 3 table.mu.length ∧ table.xi ≠ [] ∧
      ∃ os, os.length = (UserOctant.sphere table.rows).length ∧ q.table = .ofRows os := by
  obtain ⟨t, openInterval, ht, -, rfl⟩ := octant_eq_ok.mp h
  obtain ⟨hcheck, ht⟩ := check_bind_eq_ok.mp ht
  obtain ⟨reached, hreached, ht⟩ := bind_eq_ok.mp ht
  obtain ⟨os, hos, ht⟩ := bind_eq_ok.mp ht
  obtain ⟨-, hos⟩ := require_bind_eq_ok.mp hos
  obtain ⟨-, heta, hxi, hwt, -, -⟩ := UserOctant.check_eq_ok.mp hcheck
  have hxi_ne : table.xi ≠ [] := by
    intro hnil
    rw [UserOctant.reachesPole, hnil] at hreached
    cases hreached
  obtain ⟨rfl, -⟩ := Prod.mk.inj (Except.ok.inj ht)
  refine ⟨⟨rfl, hwt, heta, hxi⟩, hxi_ne, os, ?_, rfl⟩
  rw [← Except.ok.inj hos, List.length_map]

/-- An octant has a direction, and this one has images, which are at most eight. -/
theorem angles_of_octant {table : DirectionTable R} {levels : ℕ} {layout : Layout}
    {norm : Option R} {q : Quadrature R} (h : octant table levels layout norm = .ok q) :
    0 < q.angles ∧ q.angles ≤ 8 * table.mu.length := by
  obtain ⟨⟨-, hwt, -, hxi⟩, hxi_ne, os, hos, htable⟩ := exists_rows_of_octant h
  have hangles : q.angles = (UserOctant.sphere table.rows).length := by
    rw [angles, htable, DirectionTable.ofRows, List.length_map, hos]
  have hrows : table.rows.length = table.mu.length := by
    rw [DirectionTable.rows, List.length_map, List.length_range, hwt]
  have himages :
      (Ordinate.images (Signs.withXi Signs.both) table.rows).length = 8 * table.mu.length := by
    rw [Ordinate.length_images, Signs.length_withXi, hrows]
    rfl
  have hpos : 0 < table.mu.length := by
    rw [← hxi]
    exact List.length_pos_iff.mpr hxi_ne
  rw [hangles]
  constructor
  · refine List.length_pos_iff.mpr (Ordinate.merge_ne_nil ?_)
    rw [← List.length_pos_iff, himages]
    omega
  · rw [← himages]
    exact Ordinate.length_merge_le _

/-! ## Configurations -/

/-- No configuration leads to a set without directions. -/
theorem angles_pos_of_build [MatrixSolver R] {c : Configuration R} {q : Quadrature R}
    (h : c.build = .ok q) : 0 < q.angles := by
  unfold Configuration.build at h
  split at h
  · obtain ⟨-, h⟩ := check_bind_eq_ok.mp h
    obtain ⟨hpos, hangles⟩ := angles_of_gaussLegendre h
    exact hangles ▸ hpos
  · obtain ⟨-, h⟩ := check_bind_eq_ok.mp h
    obtain ⟨horder, hangles⟩ := angles_of_doubleGauss h
    rw [hangles]
    exact lt_of_lt_of_le two_pos horder
  · obtain ⟨-, h⟩ := check_bind_eq_ok.mp h
    obtain ⟨horder, hangles⟩ := angles_of_squareChebyshevLegendre h
    rw [hangles]
    positivity
  · obtain ⟨horder, hdimension, hangles⟩ := angles_of_levelSymmetric h
    have hfactor : 0 < c.requestedDimension - 1 := by omega
    have hpos : 0 < (c.requestedDimension - 1) * (c.order * (c.order + 2)) := by positivity
    omega
  · dsimp only at h
    split at h
    · cases h
    · obtain ⟨-, h⟩ := check_bind_eq_ok.mp h
      exact (angles_of_octant h).1
    · obtain ⟨hmu, hangles⟩ := angles_of_general h
      rw [hangles]
      exact List.length_pos_iff.mpr hmu

end Quadrature

end DiscreteOrdinates
