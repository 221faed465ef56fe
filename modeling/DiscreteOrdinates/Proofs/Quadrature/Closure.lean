import DiscreteOrdinates.Proofs.Quadrature.UserTable

/-!
# Exact closure

Sets whose integrals are exactly those that their closure asks for, and the
integrals of a table as sums over its rows. Main statement: such a set passes
its own check if its norm is not negative (`ClosesExactly.checkClosure_eq_ok`).
-/

namespace DiscreteOrdinates

/-! ## Integrals -/

namespace DirectionTable

/-- The table that lists directions has these directions as its rows. -/
@[simp] theorem rows_ofRows (os : List (Ordinate ℝ)) : (ofRows os).rows = os := by
  apply List.ext_getElem
  · simp [rows, ofRows]
  · intro m hm hm'
    simp [rows, ofRows, row, hm']

theorem integrate_real (t : DirectionTable ℝ) (f : Ordinate ℝ → ℝ) :
    t.integrate f = (t.rows.map f).sum := by
  rw [integrate, Scalar.zero_real, List.sum_eq_foldl, List.foldl_map]

theorem firstMoment_real (t : DirectionTable ℝ) (i : Axis) :
    t.firstMoment i = (t.rows.map fun o => o.weight * o.along i).sum :=
  t.integrate_real _

theorem secondMoment_real (t : DirectionTable ℝ) (i j : Axis) :
    t.secondMoment i j = (t.rows.map fun o => o.weight * o.along i * o.along j).sum :=
  t.integrate_real _

theorem secondMoment_comm (t : DirectionTable ℝ) (i j : Axis) :
    t.secondMoment i j = t.secondMoment j i := by
  rw [secondMoment_real, secondMoment_real]
  congr 1
  exact List.map_congr_left fun o _ => mul_right_comm _ _ _

end DirectionTable

/-! ## Sets that close -/

namespace Quadrature

/-- The integrals of a set are exactly those that it ought to have: the weights
sum to the norm, the first moment vanishes along the axes of the set, and, where
the set integrates quadratics, the second moment is a third of the norm along
each axis and zero across. In one dimension there is one axis to look at. -/
structure ClosesExactly (q : Quadrature ℝ) : Prop where
  weight : q.totalWeight = q.norm
  first : ∀ i ∈ Axis.all.take q.dimension, q.table.firstMoment i = 0
  second : q.integratesQuadratics = true →
    ∀ i ∈ Axis.all.take (if q.dimension = 1 then 1 else 3),
      ∀ j ∈ Axis.all.take (if q.dimension = 1 then 1 else 3),
        q.table.secondMoment i j = if i = j then q.norm / 3 else 0

theorem momentTolerance_pos : (0 : ℝ) < momentTolerance := by
  unfold momentTolerance
  norm_num

theorem checkWeight_eq_ok {q : Quadrature ℝ} (h : q.totalWeight = q.norm) :
    q.checkWeight = .ok () := by
  rw [checkWeight, h, softEq_self _ weightTolerance_nonneg]
  rfl

theorem checkFirstMoment_eq_ok {q : Quadrature ℝ} (hnorm : 0 ≤ q.norm)
    (h : ∀ i ∈ Axis.all.take q.dimension, q.table.firstMoment i = 0) :
    q.checkFirstMoment = .ok () := by
  have hnone : ((Axis.all.take q.dimension).map q.table.firstMoment).find?
      (fun c => momentTolerance * q.norm < Scalar.abs c) = none := by
    rw [List.find?_eq_none]
    intro c hc
    obtain ⟨i, hi, rfl⟩ := List.mem_map.mp hc
    simpa [h i hi] using mul_nonneg momentTolerance_pos.le hnorm
  rw [checkFirstMoment, hnone]

theorem checkSecondMoment_eq_ok {q : Quadrature ℝ} (hnorm : 0 ≤ q.norm)
    (h : ∀ i ∈ Axis.all.take (if q.dimension = 1 then 1 else 3),
      ∀ j ∈ Axis.all.take (if q.dimension = 1 then 1 else 3),
        q.table.secondMoment i j = if i = j then q.norm / 3 else 0) :
    q.checkSecondMoment = .ok () := by
  refine forM_eq_ok.mpr fun i hi => forM_eq_ok.mpr fun j hj => ?_
  have hexpected : expectedSecondMoment q.norm i j = q.table.secondMoment i j := by
    rw [h i hi j hj, expectedSecondMoment]
    norm_num
  have hwithin : ¬ momentTolerance * q.norm <
      Scalar.abs (q.table.secondMoment i j - expectedSecondMoment q.norm i j) := by
    rw [hexpected, sub_self, Scalar.abs_real, abs_zero, not_lt]
    exact mul_nonneg momentTolerance_pos.le hnorm
  exact if_pos hwithin

theorem ClosesExactly.checkClosure_eq_ok {q : Quadrature ℝ} (h : q.ClosesExactly)
    (hnorm : 0 ≤ q.norm) : q.checkClosure = .ok () := by
  rw [checkClosure, checkWeight_eq_ok h.weight, checkFirstMoment_eq_ok hnorm h.first]
  split
  · rfl
  · by_cases hquadratics : q.integratesQuadratics = true
    · rw [if_pos hquadratics, checkSecondMoment_eq_ok hnorm (h.second hquadratics)]
      rfl
    · rw [if_neg hquadratics]
      rfl

theorem ClosesExactly.checked_eq_ok {q : Quadrature ℝ} (h : q.ClosesExactly) (hnorm : 0 ≤ q.norm) :
    checked q = .ok q := by
  rw [checked, h.checkClosure_eq_ok hnorm]
  rfl

end Quadrature

end DiscreteOrdinates
