import DiscreteOrdinates.Proofs.Angular.SweepOrder
import DiscreteOrdinates.Proofs.Quadrature.Reordering
import DiscreteOrdinates.Proofs.Sweep.Collapse

/-!
# Reordered sweeps

A sweep that sorts or collapses the directions of a set does not depend on the order in
which the set lists them, and neither do its levels and coefficients
(`sweep_permute`). Collapsing needs no condition for this, since it adds up the weights
of directions that it cannot tell apart. Sorting needs directions that it can tell apart.
-/

namespace DiscreteOrdinates

/-! ## Sorted ordinates -/

namespace Ordinate

/-- What a sweep sorts an ordinate by: the cosine of its level, then its own. -/
def sweepKey {R : Type} (o : Ordinate R) : R × R :=
  (o.z, o.x)

theorem SweepLE.antisymm {a b : Ordinate ℝ} (hab : SweepLE a b) (hba : SweepLE b a) :
    a.sweepKey = b.sweepKey := by
  unfold SweepLE at hab hba
  rw [sweepKey, sweepKey, Prod.mk.injEq]
  grind

/-- Ordinates that differ in what they are sorted by have only one order. -/
theorem sorted_congr {os os' : List (Ordinate ℝ)} (hperm : os.Perm os')
    (hkeys : (os.map sweepKey).Nodup) : sorted os = sorted os' := by
  refine List.Perm.eq_of_pairwise ?_ (pairwise_sorted os) (pairwise_sorted os')
    ((sorted_perm os).trans (hperm.trans (sorted_perm os').symm))
  intro a b ha hb hab hba
  have ha : a ∈ os := (sorted_perm os).subset ha
  have hb : b ∈ os := hperm.symm.subset ((sorted_perm os').subset hb)
  exact List.inj_on_of_nodup_map hkeys ha hb (hab.antisymm hba)

/-! ## Collapsed ordinates -/

/-- What ordinates collapse to is known from their cosines and weights, in any order. -/
theorem collapse_congr {os os' : List (Ordinate ℝ)} (hperm : os.Perm os') :
    collapse os = collapse os' := by
  refine ((isCollapse os).perm hperm).eq_of_map_x (isCollapse os') ?_
  rw [map_x_collapse, map_x_collapse, Sample.sorted_congr (hperm.map _)]

end Ordinate

/-! ## Sweeps -/

namespace SweepSet

variable {q q' : Quadrature ℝ} {geometry : Geometry} {meshDimension : ℕ}

theorem upper_perm {os os' : List (Ordinate ℝ)} (h : os.Perm os') :
    (upper os).Perm (upper os') :=
  (h.filter _).map _

theorem nodup_sweepKey_upper {os : List (Ordinate ℝ)} (h : (os.map Ordinate.sweepKey).Nodup) :
    ((upper os).map Ordinate.sweepKey).Nodup := by
  rw [upper, List.map_map]
  exact h.sublist (List.filter_sublist.map _)

/-- The ordinates of a set as a sweep sorts them: those of a set on a line share the level
zero, and `eta` defines the levels of all others. A set in space is swept through the
plane, in which only the half `xi > 0` remains. -/
noncomputable def inFrame (q : Quadrature ℝ) : List (Ordinate ℝ) :=
  if q.dimension = 3 then (upper q.ordinates).map flatten else q.ordinates

/-- Whether a sweep sorts or collapses its ordinates, instead of keeping them in the order
of the set. -/
def Rearranges (geometry : Geometry) (dimension meshDimension : ℕ) : Prop :=
  geometry.isCurvilinear ∨ (2 ≤ dimension ∧ meshDimension = 1)

theorem planarUnstarted_congr {os os' : List (Ordinate ℝ)} (hperm : os.Perm os')
    (hrearranges : geometry.isCurvilinear ∨ meshDimension = 1)
    (hkeys : geometry = .axisymmetric → (os.map Ordinate.sweepKey).Nodup) :
    planarUnstarted os geometry meshDimension = planarUnstarted os' geometry meshDimension := by
  unfold planarUnstarted
  split
  · simp [Geometry.isCurvilinear] at hrearranges
  · rw [Ordinate.sorted_congr hperm (hkeys rfl)]
  · rw [Ordinate.collapse_congr hperm]
  · rw [Ordinate.collapse_congr hperm]
  · rw [Ordinate.sorted_congr (upper_perm hperm) (nodup_sweepKey_upper (hkeys rfl))]
  · rfl

theorem linearUnstarted_congr {os os' : List (Ordinate ℝ)} (hperm : os.Perm os')
    (hgeometry : geometry.isCurvilinear) (hkeys : (os.map Ordinate.sweepKey).Nodup) :
    linearUnstarted os geometry = linearUnstarted os' geometry := by
  cases geometry with
  | cartesian => simp [Geometry.isCurvilinear] at hgeometry
  | axisymmetric => rfl
  | spherical => rw [linearUnstarted, linearUnstarted, Ordinate.sorted_congr hperm hkeys]

/-- Where ordinates are sorted or collapsed, the order of a set is lost. -/
theorem arrange_congr (hdimension : q.dimension = q'.dimension)
    (hperm : q.ordinates.Perm q'.ordinates)
    (hrearranges : Rearranges geometry q.dimension meshDimension)
    (hkeys : geometry = .axisymmetric ∨ q.dimension = 1 →
      ((inFrame q).map Ordinate.sweepKey).Nodup) :
    arrange q geometry meshDimension = arrange q' geometry meshDimension := by
  rw [arrange_eq_map, arrange_eq_map]
  congr 1
  unfold unstarted
  rw [← hdimension]
  split
  · rfl
  next hmesh =>
    unfold inFrame at hkeys
    unfold Rearranges at hrearranges
    split
    next hline =>
      rw [hline] at hkeys hrearranges
      exact linearUnstarted_congr hperm (hrearranges.resolve_right (by omega))
        (hkeys (.inr rfl))
    next hspace =>
      have hcurvilinear := hrearranges.resolve_right (by omega)
      have hgeometry : geometry ≠ .cartesian := by
        rintro rfl
        simp [Geometry.isCurvilinear] at hcurvilinear
      rw [if_neg hgeometry, if_neg hgeometry]
    next hspace _ =>
      rw [if_pos hspace] at hkeys
      exact planarUnstarted_congr ((upper_perm hperm).map _) (hrearranges.imp_right And.right)
        fun h => hkeys (.inl h)
    next hspace _ =>
      rw [if_neg hspace] at hkeys
      exact planarUnstarted_congr hperm (hrearranges.imp_right And.right) fun h => hkeys (.inl h)

theorem ofQuadrature_congr (hdimension : q.dimension = q'.dimension) (hnorm : q.norm = q'.norm)
    (hperm : q.ordinates.Perm q'.ordinates)
    (hrearranges : Rearranges geometry q.dimension meshDimension)
    (hkeys : geometry = .axisymmetric ∨ q.dimension = 1 →
      ((inFrame q).map Ordinate.sweepKey).Nodup) :
    ofQuadrature q geometry meshDimension = ofQuadrature q' geometry meshDimension := by
  rw [ofQuadrature, ofQuadrature, arrange_congr hdimension hperm hrearranges hkeys, hdimension,
    hnorm]

end SweepSet

namespace AngularRedistribution

open SweepSet

/-- A user may list the directions of a set in any order. Wherever a mesh sorts or
collapses them, both orders have the same sweep and the same coefficients, or the same
error. What is sorted has to differ in the cosine of its level or in its own. -/
theorem sweep_permute {name : String} {dimension order levels : ℕ} {norm : Option ℝ}
    {table : DirectionTable ℝ} {q : Quadrature ℝ} {geometry : Geometry} {meshDimension : ℕ}
    (hq : Quadrature.general name dimension order levels norm table = .ok q)
    (hrearranges : Rearranges geometry dimension meshDimension)
    (hkeys : geometry = .axisymmetric ∨ dimension = 1 →
      ((inFrame q).map Ordinate.sweepKey).Nodup)
    (σ : Equiv.Perm (Fin table.mu.length)) :
    Quadrature.general name dimension order levels norm (table.permute σ) =
      .ok (q.permute σ) ∧
    SweepSet.ofQuadrature (q.permute σ) geometry meshDimension =
      SweepSet.ofQuadrature q geometry meshDimension ∧
    ofQuadrature (q.permute σ) geometry meshDimension =
      ofQuadrature q geometry meshDimension := by
  obtain ⟨hpermuted, haligned⟩ := Quadrature.general_permute rfl hq σ
  have hdimension : q.dimension = dimension := by
    obtain ⟨carried, -, rfl⟩ := Quadrature.general_eq_ok_iff.mp hq
    rfl
  have hperm : q.ordinates.Perm (q.permute σ).ordinates := by
    rw [Quadrature.ordinates_permute haligned σ]
    exact (permuted_perm σ q.ordinates).symm
  rw [← hdimension] at hrearranges hkeys
  have hsweep : SweepSet.ofQuadrature q geometry meshDimension =
      SweepSet.ofQuadrature (q.permute σ) geometry meshDimension :=
    SweepSet.ofQuadrature_congr rfl rfl hperm hrearranges hkeys
  refine ⟨hpermuted, hsweep.symm, ?_⟩
  rw [ofQuadrature, ofQuadrature, hsweep]

/-- Two directions change places. On a cylinder their levels tell them apart, and on a
sphere the two are collapsed. -/
theorem sweep_permute_skewed :
    Rearranges .axisymmetric 2 2 ∧ Rearranges .spherical 2 1 ∧
    ((inFrame skewed).map Ordinate.sweepKey).Nodup ∧
    SweepSet.ofQuadrature (skewed.permute (Equiv.swap (0 : Fin 2) 1)) .axisymmetric 2 =
      SweepSet.ofQuadrature skewed .axisymmetric 2 ∧
    ofQuadrature (skewed.permute (Equiv.swap (0 : Fin 2) 1)) .spherical 1 =
      ofQuadrature skewed .spherical 1 := by
  have hkeys : ((inFrame skewed).map Ordinate.sweepKey).Nodup := by
    have hplane : inFrame skewed = skewed.ordinates := if_neg (by decide)
    rw [hplane, ordinates_skewed]
    norm_num [Ordinate.sweepKey]
  have hcylinder : Rearranges .axisymmetric 2 2 := .inl rfl
  have hsphere : Rearranges .spherical 2 1 := .inl rfl
  obtain ⟨-, hsweep, -⟩ := sweep_permute general_skewed hcylinder (fun _ => hkeys)
    (Equiv.swap (0 : Fin 2) 1)
  obtain ⟨-, -, hcoefficients⟩ := sweep_permute general_skewed hsphere (fun _ => hkeys)
    (Equiv.swap (0 : Fin 2) 1)
  exact ⟨hcylinder, hsphere, hkeys, hsweep, hcoefficients⟩

end AngularRedistribution

end DiscreteOrdinates
