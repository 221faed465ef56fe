import DiscreteOrdinates.Proofs.Quadrature.Angles
import DiscreteOrdinates.Proofs.Quadrature.FullSphere

/-!
# Interior octants

Octants whose directions lie off the coordinate planes. No two of their images
coincide, so nothing is merged when such an octant of a user is reflected. Main
statement: the set of the user is the level symmetric set over the same octant,
entry by entry (`table_eq_spaceTable`).
-/

namespace DiscreteOrdinates

theorem Signs.nodup_withXi_both : (withXi (both : List ℝ)).Nodup := by
  norm_num [withXi, both]

namespace Ordinate

/-- The directions of an octant off the coordinate planes: they differ, have unit
length and positive cosines. The weights are not negative and sum to one. -/
structure IsInterior (os : List (Ordinate ℝ)) : Prop where
  distinct : (os.map direction).Nodup
  unit : ∀ o ∈ os, squaredLength o.x o.y o.z = 1
  positive : ∀ o ∈ os, 0 < o.x ∧ 0 < o.y ∧ 0 < o.z
  weight_nonneg : ∀ o ∈ os, 0 ≤ o.weight
  total : total os = 1

/-! ## Images -/

/-- An image tells both the direction inside the octant and the signs. -/
theorem eq_of_direction_reflect_eq {s s' : Signs ℝ} (hs : s.AreSigns) (hs' : s'.AreSigns)
    {o o' : Ordinate ℝ} (ho : 0 < o.x ∧ 0 < o.y ∧ 0 < o.z) (ho' : 0 < o'.x ∧ 0 < o'.y ∧ 0 < o'.z)
    (h : (reflect s o).direction = (reflect s' o').direction) :
    s = s' ∧ o.direction = o'.direction := by
  have hmagnitudes : magnitudes o.direction = magnitudes o'.direction := by
    rw [← magnitudes_reflect hs, h, magnitudes_reflect hs']
  obtain ⟨hx, hy, hz⟩ := ho
  have hdirection : o.direction = o'.direction := by
    simpa [magnitudes, direction, abs_of_pos, hx, hy, hz, ho'] using hmagnitudes
  refine ⟨?_, hdirection⟩
  simp only [direction, Prod.mk.injEq] at hdirection
  simp only [reflect, direction, Prod.mk.injEq, ← hdirection.1, ← hdirection.2.1,
    ← hdirection.2.2] at h
  obtain ⟨mu, eta, xi⟩ := s
  rw [Signs.mk.injEq]
  exact ⟨mul_right_cancel₀ hx.ne' h.1, mul_right_cancel₀ hy.ne' h.2.1,
    mul_right_cancel₀ hz.ne' h.2.2⟩

namespace IsInterior

variable {os : List (Ordinate ℝ)} (h : IsInterior os)

include h

theorem ne_nil : os ≠ [] := by
  rintro rfl
  have htotal := h.total
  rw [total_nil] at htotal
  exact zero_ne_one htotal

/-- The images in one octant differ as the directions do, and those in two octants
differ by a sign. -/
theorem nodup_images : ((images (Signs.withXi Signs.both) os).map direction).Nodup := by
  have hos := List.pairwise_map.mp h.distinct
  rw [images, List.map_flatMap, List.nodup_flatMap]
  constructor
  · intro s hs
    have hs := Signs.mem_withXi_both.mp hs
    rw [List.map_map]
    refine List.pairwise_map.mpr (hos.imp_of_mem fun ho ho' hne heq => hne ?_)
    exact (eq_of_direction_reflect_eq hs hs (h.positive _ ho) (h.positive _ ho') heq).2
  · refine Signs.nodup_withXi_both.imp_of_mem fun hs hs' hne d hd hd' => hne ?_
    obtain ⟨p, hp, rfl⟩ := List.mem_map.mp hd
    obtain ⟨p', hp', heq⟩ := List.mem_map.mp hd'
    obtain ⟨o, ho, rfl⟩ := List.mem_map.mp hp
    obtain ⟨o', ho', rfl⟩ := List.mem_map.mp hp'
    exact (eq_of_direction_reflect_eq (Signs.mem_withXi_both.mp hs) (Signs.mem_withXi_both.mp hs')
      (h.positive o ho) (h.positive o' ho') heq.symm).1

theorem sphere_eq_images : UserOctant.sphere os = images (Signs.withXi Signs.both) os :=
  merge_eq_self h.nodup_images

end IsInterior

end Ordinate

namespace UserOctant

open Ordinate

section

variable {os : List (Ordinate ℝ)} (h : IsInterior os)

include h

/-! ## Tables -/

theorem check_ofRows {levels : ℕ} (hlevels : levels * (levels + 2) = 8 * os.length) :
    check .triangle levels (.ofRows os) = .ok () := by
  have hlength : (DirectionTable.ofRows os).mu.length = os.length := List.length_map ..
  rw [check_eq_ok, hlength]
  refine ⟨if_pos hlevels, List.length_map .., List.length_map .., List.length_map .., ?_, ?_⟩
  · rw [DirectionTable.checkWeights_eq_ok]
    exact List.forall_mem_map.mpr h.weight_nonneg
  · have heta : (DirectionTable.ofRows os).eta ≠ [] := fun hnil =>
      h.ne_nil (List.map_eq_nil_iff.mp hnil)
    apply DirectionTable.checkDirections_eq_ok
    · exact fun hnil => absurd hnil heta
    · intro _ o ho
      rw [DirectionTable.rows_ofRows] at ho
      rw [h.unit o ho, sub_self, abs_zero]
      norm_num [unitTolerance]
    · rw [DirectionTable.rows_ofRows]
      exact h.weight_nonneg

/-- The lowest cosine of an interior octant is positive. -/
theorem reachesPole_ofRows : reachesPole (.ofRows os) = .ok false := by
  obtain ⟨o, ho, hle⟩ : ∃ o ∈ os, ∀ p ∈ os, o.z ≤ p.z := by
    obtain ⟨o, ho, hle⟩ := Set.exists_min_image _ (·.z) (List.finite_toSet os)
      (List.exists_mem_of_ne_nil os h.ne_nil)
    exact ⟨o, ho, hle⟩
  have hpole : ¬ |o.z + 1| ≤ 1e-12 := by
    obtain ⟨-, -, hz⟩ := h.positive o ho
    rw [abs_of_pos (by linarith), not_le]
    linarith
  refine reachesPole_eq_ok.mpr ⟨o.z, List.mem_map_of_mem ho, ?_, (decide_eq_false hpole).symm⟩
  exact List.forall_mem_map.mpr hle

end

/-- An interior octant of a user gives the table of the level symmetric set over the
same octant: the same cosines and weights in the same order. None of the images is
merged with another one, and the pole is not reached. -/
theorem table_eq_spaceTable {os : List (Ordinate ℝ)} (h : IsInterior os) (norm : ℝ) {levels : ℕ}
    (hlevels : levels * (levels + 2) = 8 * os.length) :
    table .triangle levels norm (.ofRows os) = .ok (LevelSymmetric.spaceTable os norm, false) ∧
      sphere os = images (Signs.withXi Signs.both) os ∧
      (LevelSymmetric.spaceTable os norm).rows.length = 8 * os.length := by
  have hsum : (DirectionTable.ofRows os).wt.sum = 1 := h.total
  have hscale : norm / (8 * (1 : ℝ)) = norm / 8.0 := by norm_num
  refine ⟨?_, h.sphere_eq_images, ?_⟩
  · rw [table_eq_ok, hsum]
    refine ⟨check_ofRows h hlevels, reachesPole_ofRows h, one_pos, ?_⟩
    rw [DirectionTable.rows_ofRows, h.sphere_eq_images, hscale]
    rfl
  · rw [LevelSymmetric.spaceTable, LevelSymmetric.reflect, DirectionTable.rows_ofRows,
      List.length_map, length_images, Signs.length_withXi]
    rfl

/-- An octant of order four whose weights differ. -/
noncomputable def thirds : List (Ordinate ℝ) :=
  [⟨1.0 / 3.0, 2.0 / 3.0, 2.0 / 3.0, 0.75⟩, ⟨2.0 / 3.0, 1.0 / 3.0, 2.0 / 3.0, 0.25⟩,
    ⟨2.0 / 3.0, 2.0 / 3.0, 1.0 / 3.0, 0⟩]

theorem table_eq_spaceTable_thirds :
    IsInterior thirds ∧ 4 * (4 + 2) = 8 * thirds.length ∧
      table .triangle 4 (-3) (.ofRows thirds) = .ok (LevelSymmetric.spaceTable thirds (-3), false) ∧
      (LevelSymmetric.spaceTable thirds (-3)).rows.length = 24 := by
  have hinterior : IsInterior thirds := by
    constructor
    case distinct => norm_num [thirds, direction]
    case unit => norm_num [thirds, squaredLength]
    case positive => norm_num [thirds]
    case weight_nonneg => norm_num [thirds]
    case total => norm_num [thirds, total]
  have hlevels : 4 * (4 + 2) = 8 * thirds.length := rfl
  obtain ⟨htable, -, hlength⟩ := table_eq_spaceTable hinterior (-3) hlevels
  exact ⟨hinterior, hlevels, htable, hlength⟩

end UserOctant

end DiscreteOrdinates
