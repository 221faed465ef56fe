import DiscreteOrdinates.Proofs.Quadrature.Closure
import DiscreteOrdinates.Angular.Redistribution
import DiscreteOrdinates.Quadrature.Families

/-!
# Upper halves

A level symmetric set in space covers all eight octants, the one in the plane
only the four with `xi > 0`, at twice the weight. A mesh of one or two
dimensions sees the upper half of a set in space with doubled weights, so it
cannot tell the two apart. Main statement: `ofQuadrature_spaceSet`.
-/

namespace DiscreteOrdinates

/-! ## Reflected octants -/

namespace LevelSymmetric

section

variable {R : Type} [Scalar R]

/-- The set over all eight octants, before its closure is checked. -/
def spaceSet (octant : List (Ordinate R)) (order : ℕ) (norm : R) : Quadrature R :=
  ⟨.levelSymmetricSpace, order, norm, spaceTable octant norm⟩

/-- The set over the four octants with `xi > 0`, before its closure is checked. -/
def planeSet (octant : List (Ordinate R)) (order : ℕ) (norm : R) : Quadrature R :=
  ⟨.levelSymmetricPlane, order, norm, planeTable octant norm⟩

theorem levelSymmetric_space [MatrixSolver R] (order : ℕ) (norm : Option R) :
    Quadrature.levelSymmetric order 3 norm =
      (octant order).bind fun o => (spaceSet o order (norm.getD (defaultNorm 3))).checked :=
  rfl

theorem levelSymmetric_plane [MatrixSolver R] (order : ℕ) (norm : Option R) :
    Quadrature.levelSymmetric order 2 norm =
      (octant order).bind fun o => (planeSet o order (norm.getD (defaultNorm 2))).checked :=
  rfl

end

/-- The four octants on one side of the plane `xi = 0`. -/
noncomputable def side (xi scale : ℝ) (octant : List (Ordinate ℝ)) : List (Ordinate ℝ) :=
  (Ordinate.images (Signs.withXi [xi]) octant).map fun o => o.withWeight (o.weight * scale)

theorem rows_planeTable (octant : List (Ordinate ℝ)) (norm : ℝ) :
    (planeTable octant norm).rows = side 1.0 (norm / 4.0) octant :=
  DirectionTable.rows_ofRows _

theorem rows_spaceTable (octant : List (Ordinate ℝ)) (norm : ℝ) :
    (spaceTable octant norm).rows =
      side (-1.0) (norm / 8.0) octant ++ side 1.0 (norm / 8.0) octant := by
  have hsigns : Signs.withXi (Signs.both : List ℝ) = Signs.withXi [-1.0] ++ Signs.withXi [1.0] := by
    simp [Signs.withXi, Signs.both]
  rw [spaceTable, reflect, DirectionTable.rows_ofRows, hsigns, Ordinate.images,
    List.flatMap_append, List.map_append]
  rfl

theorem exists_z_of_mem_side {xi scale : ℝ} {octant : List (Ordinate ℝ)} {o : Ordinate ℝ}
    (ho : o ∈ side xi scale octant) : ∃ a ∈ octant, o.z = xi * a.z := by
  obtain ⟨b, hb, rfl⟩ := List.mem_map.mp ho
  obtain ⟨s, hs, hb⟩ := List.mem_flatMap.mp hb
  obtain ⟨a, ha, rfl⟩ := List.mem_map.mp hb
  have hxi : s.xi = xi := by
    simp only [Signs.withXi, List.flatMap_cons, List.flatMap_nil, List.append_nil,
      List.mem_flatMap, List.mem_map] at hs
    obtain ⟨eta, -, mu, -, rfl⟩ := hs
    rfl
  exact ⟨a, ha, congrArg (· * a.z) hxi⟩

end LevelSymmetric

/-! ## Halves of a set -/

namespace SweepSet

open LevelSymmetric

theorem upper_append (os os' : List (Ordinate ℝ)) : upper (os ++ os') = upper os ++ upper os' := by
  rw [upper, List.filter_append, List.map_append]
  rfl

theorem upper_eq_nil {os : List (Ordinate ℝ)} (h : ∀ o ∈ os, o.z ≤ 0) : upper os = [] := by
  rw [upper, List.filter_eq_nil_iff.mpr, List.map_nil]
  intro o ho
  simpa [Scalar.zero_real] using h o ho

theorem upper_eq_map {os : List (Ordinate ℝ)} (h : ∀ o ∈ os, 0 < o.z) :
    upper os = os.map fun o => o.withWeight (2.0 * o.weight) := by
  rw [upper, List.filter_eq_self.mpr]
  · rfl
  intro o ho
  simpa [Scalar.zero_real] using h o ho

/-- The half of the set in space that a smaller mesh sees is the set in the plane. -/
theorem map_flatten_upper_spaceSet {octant : List (Ordinate ℝ)} (hz : ∀ o ∈ octant, 0 < o.z)
    (order : ℕ) (norm : ℝ) :
    (upper (spaceSet octant order norm).ordinates).map flatten =
      (planeSet octant order norm).ordinates := by
  have hlower : ∀ o ∈ side (-1.0) (norm / 8.0) octant, o.z ≤ 0 := by
    intro o ho
    obtain ⟨a, ha, hoz⟩ := exists_z_of_mem_side ho
    rw [hoz, Scalar.one_real, neg_one_mul]
    exact neg_nonpos.mpr (hz a ha).le
  have hupper : ∀ o ∈ side 1.0 (norm / 8.0) octant, 0 < o.z := by
    intro o ho
    obtain ⟨a, ha, hoz⟩ := exists_z_of_mem_side ho
    rw [hoz, Scalar.one_real, one_mul]
    exact hz a ha
  have hspace : (spaceSet octant order norm).ordinates = (spaceTable octant norm).rows :=
    List.map_id _
  have hplane : (planeSet octant order norm).ordinates =
      (planeTable octant norm).rows.map flatten :=
    rfl
  -- What is left are the same images in the same order, with the weights to compare.
  rw [hspace, hplane, rows_spaceTable, rows_planeTable, upper_append, upper_eq_nil hlower,
    upper_eq_map hupper, List.nil_append, side, side, List.map_map, List.map_map, List.map_map]
  refine List.map_congr_left fun o _ => ?_
  have hscale : 2.0 * (o.weight * (norm / 8.0)) = o.weight * (norm / 4.0) := by
    norm_num
    ring
  simp only [Function.comp_apply, Ordinate.withWeight, flatten, hscale]

theorem arrange_spaceSet {octant : List (Ordinate ℝ)} (hz : ∀ o ∈ octant, 0 < o.z) (order : ℕ)
    (norm : ℝ) (geometry : Geometry) {meshDimension : ℕ}
    (hmesh : meshDimension = 1 ∨ meshDimension = 2) :
    arrange (spaceSet octant order norm) geometry meshDimension =
      arrange (planeSet octant order norm) geometry meshDimension := by
  have hhalf := map_flatten_upper_spaceSet hz order norm
  rcases hmesh with rfl | rfl
  · exact congrArg (planar · geometry 1) hhalf
  · exact congrArg (planar · geometry 2) hhalf

/-- Only a sphere has no mesh of two dimensions. -/
theorem spherical_of_arrange_planeSet {octant : List (Ordinate ℝ)} {order : ℕ} {norm : ℝ}
    {geometry : Geometry} {meshDimension : ℕ} (hmesh : meshDimension = 1 ∨ meshDimension = 2)
    (hnone : arrange (planeSet octant order norm) geometry meshDimension = none) :
    geometry = .spherical ∧ meshDimension = 2 := by
  rcases hmesh with rfl | rfl
  · cases geometry <;> cases hnone
  · cases geometry with
    | spherical => exact ⟨rfl, rfl⟩
    | cartesian => cases hnone
    | axisymmetric => cases hnone

end SweepSet

/-! ## Sweeps through smaller meshes -/

namespace AngularRedistribution

/-- The coefficients depend on the ordinates and the geometry of a sweep only. -/
theorem map_nodes_ofSweep {s s' : SweepSet ℝ} (hordinates : s.ordinates = s'.ordinates)
    (hgeometry : s.geometry = s'.geometry) :
    (ofSweep s).map (·.nodes) = (ofSweep s').map (·.nodes) := by
  unfold ofSweep
  rw [hordinates, hgeometry]
  refine map_bind_congr fun _ => map_bind_congr fun levels => ?_
  split
  · exact map_bind_congr fun nodes => rfl
  · rfl

end AngularRedistribution

namespace LevelSymmetric

/-- On meshes of one and two dimensions the level symmetric set in space is swept
as the one in the plane of the same norm. Either the geometry has no such mesh,
as a sphere of two dimensions, or the ordinates agree in order and weight, and
so do the levels and coefficients that follow from them. -/
theorem ofQuadrature_spaceSet {octant : List (Ordinate ℝ)} (hz : ∀ o ∈ octant, 0 < o.z)
    (order : ℕ) (norm : ℝ) (geometry : Geometry) {meshDimension : ℕ}
    (hmesh : meshDimension = 1 ∨ meshDimension = 2) :
    ((geometry = .spherical ∧ meshDimension = 2) ∧
      (∃ e, SweepSet.ofQuadrature (spaceSet octant order norm) geometry meshDimension =
        .error e) ∧
      (∃ e, SweepSet.ofQuadrature (planeSet octant order norm) geometry meshDimension =
        .error e) ∧
      (∃ e, AngularRedistribution.ofQuadrature (spaceSet octant order norm) geometry
        meshDimension = .error e) ∧
      ∃ e, AngularRedistribution.ofQuadrature (planeSet octant order norm) geometry
        meshDimension = .error e) ∨
    ∃ s, SweepSet.ofQuadrature (planeSet octant order norm) geometry meshDimension = .ok s ∧
      SweepSet.ofQuadrature (spaceSet octant order norm) geometry meshDimension =
        .ok { s with dimension := 3 } ∧
      (AngularRedistribution.ofQuadrature (spaceSet octant order norm) geometry
        meshDimension).map (·.nodes) =
      (AngularRedistribution.ofQuadrature (planeSet octant order norm) geometry
        meshDimension).map (·.nodes) := by
  have harrange := SweepSet.arrange_spaceSet hz order norm geometry hmesh
  unfold AngularRedistribution.ofQuadrature SweepSet.ofQuadrature
  rw [harrange]
  cases hplane : SweepSet.arrange (planeSet octant order norm) geometry meshDimension with
  | none =>
    have hsphere := SweepSet.spherical_of_arrange_planeSet hmesh hplane
    exact .inl ⟨hsphere, ⟨_, rfl⟩, ⟨_, rfl⟩, ⟨_, rfl⟩, ⟨_, rfl⟩⟩
  | some os => exact .inr ⟨_, rfl, rfl, AngularRedistribution.map_nodes_ofSweep rfl rfl⟩

/-- Two directions on two levels of an octant. -/
noncomputable def steps : List (Ordinate ℝ) :=
  [⟨0.48, 0.6, 0.64, 1⟩, ⟨0.6, 0.48, 0.64, 0.5⟩]

/-- The two sets that follow from an octant of two levels, along the axis. -/
theorem ofQuadrature_spaceSet_steps :
    (∀ o ∈ steps, 0 < o.z) ∧ (1 = 1 ∨ 1 = 2) ∧
    ∃ s, SweepSet.ofQuadrature (planeSet steps 4 3) .axisymmetric 1 = .ok s ∧
      SweepSet.ofQuadrature (spaceSet steps 4 3) .axisymmetric 1 = .ok { s with dimension := 3 } ∧
      (AngularRedistribution.ofQuadrature (spaceSet steps 4 3) .axisymmetric 1).map (·.nodes) =
      (AngularRedistribution.ofQuadrature (planeSet steps 4 3) .axisymmetric 1).map (·.nodes) := by
  have hz : ∀ o ∈ steps, 0 < o.z := by
    intro o ho
    simp only [steps, List.mem_cons, List.not_mem_nil, or_false] at ho
    rcases ho with rfl | rfl <;> norm_num
  refine ⟨hz, .inl rfl, ?_⟩
  rcases ofQuadrature_spaceSet hz 4 3 .axisymmetric (.inl rfl) with ⟨⟨hsphere, -⟩, -⟩ | hswept
  · cases hsphere
  · exact hswept

end LevelSymmetric

end DiscreteOrdinates
