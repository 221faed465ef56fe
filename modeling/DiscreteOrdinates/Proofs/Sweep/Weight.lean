import DiscreteOrdinates.Proofs.Sweep.Arrangement
import DiscreteOrdinates.Proofs.Sweep.Mirror

/-!
# Weight of a sweep

How much of the weight of a quadrature set its sweep carries. Sorting, starts
and collapsing keep all of it. A sweep through one half of the directions
doubles what it keeps, which makes up for the mirror images but not for the
directions in between. Main statement: `total_eq_iff_of_mirrored`.
-/

namespace DiscreteOrdinates

namespace Ordinate

/-! ## Steps of an arrangement -/

theorem total_perm {os os' : List (Ordinate ℝ)} (h : os.Perm os') : total os = total os' :=
  (h.map _).sum_eq

theorem total_sorted (os : List (Ordinate ℝ)) : total (sorted os) = total os :=
  total_perm (sorted_perm os)

theorem total_withStartsFrom (current : Option ℝ) (os : List (Ordinate ℝ)) :
    total (withStartsFrom current os) = total os := by
  induction os generalizing current with
  | nil => rfl
  | cons o os ih =>
    rw [withStartsFrom]
    split
    · -- A start weighs nothing.
      rw [total_cons, total_cons, total_cons, ih, levelStart, Scalar.zero_real, zero_add]
    · rw [total_cons, total_cons, ih]

theorem total_withStarts (os : List (Ordinate ℝ)) : total (withStarts os) = total os :=
  total_withStartsFrom none os

theorem total_gather (x w : ℝ) (os : List (Ordinate ℝ)) : total (gather x w os) = w + total os := by
  induction os generalizing x w with
  | nil => simp [gather, total]
  | cons o os ih =>
    rw [gather]
    split
    · rw [ih, total_cons, add_assoc]
    · rw [total_cons, ih, total_cons]

theorem total_collapse (os : List (Ordinate ℝ)) : total (collapse os) = total os := by
  have hperm := List.mergeSort_perm os fun a b => (Scalar.order a.x b.x).isLE
  rw [collapse]
  split
  next h =>
    rw [h] at hperm
    rw [hperm.nil_eq]
  next o os' h =>
    rw [h] at hperm
    rw [total_gather, ← total_cons]
    exact total_perm hperm

theorem total_map_flatten (os : List (Ordinate ℝ)) :
    total (os.map SweepSet.flatten) = total os := by
  simp [total, SweepSet.flatten, Function.comp_def]

theorem weightWhere_flatten (p : Direction → Prop) (os : List (Ordinate ℝ)) :
    weightWhere p (os.map SweepSet.flatten) = weightWhere (fun d => p (d.1, d.2.2, d.2.1)) os := by
  rw [weightWhere, List.map_map]
  rfl

theorem weightWhere_upper (p : Direction → Prop) (os : List (Ordinate ℝ)) :
    weightWhere p (SweepSet.upper os) =
      2 * weightWhere (fun d => 0 < d.2.2 ∧ p d) os := by
  induction os with
  | nil => simp [weightWhere, SweepSet.upper]
  | cons o os ih =>
    by_cases hz : 0 < o.z
    · have hupper : SweepSet.upper (o :: os) =
          ⟨o.x, o.y, o.z, 2.0 * o.weight⟩ :: SweepSet.upper os := by
        simp [SweepSet.upper, Scalar.zero_real, hz]
      rw [hupper]
      by_cases hp : p o.direction
      · have hdoubled : p (⟨o.x, o.y, o.z, 2.0 * o.weight⟩ : Ordinate ℝ).direction := hp
        rw [weightWhere_cons_of_pos hdoubled, weightWhere_cons_of_pos ⟨hz, hp⟩, ih,
          Scalar.two_real, mul_add]
      · have hdoubled : ¬ p (⟨o.x, o.y, o.z, 2.0 * o.weight⟩ : Ordinate ℝ).direction := hp
        rw [weightWhere_cons_of_neg hdoubled, weightWhere_cons_of_neg (fun h => hp h.2), ih]
    · have hupper : SweepSet.upper (o :: os) = SweepSet.upper os := by
        simp [SweepSet.upper, Scalar.zero_real, hz]
      rw [hupper, ih, weightWhere_cons_of_neg fun h => hz h.1]

end Ordinate

namespace SweepSet

open Ordinate

/-- The axes across which a sweep keeps only the positive half of a set. -/
def halvedAxes (dimension : ℕ) (geometry : Geometry) (meshDimension : ℕ) : List Axis :=
  let onLine := geometry = .axisymmetric ∧ meshDimension = 1
  match dimension with
  | 1 => []
  | 2 => if onLine then [.eta] else []
  | 3 => if meshDimension = 3 then [] else if onLine then [.xi, .eta] else [.xi]
  | _ => if onLine then [.xi] else []

/-- The weight of the directions that lie in a plane at which a set is halved. -/
noncomputable def inPlaneWeight (q : Quadrature ℝ) (geometry : Geometry) (meshDimension : ℕ) : ℝ :=
  weightWhere (fun d => ∃ a ∈ halvedAxes q.dimension geometry meshDimension, a.cosine d = 0)
    q.table.rows

theorem total_linear {os swept : List (Ordinate ℝ)} {geometry : Geometry}
    (h : linear os geometry = some swept) : total swept = total os := by
  cases geometry with
  | cartesian =>
    cases h
    rfl
  | axisymmetric => cases h
  | spherical =>
    cases h
    rw [total_withStarts, total_sorted]

theorem total_planar {os swept : List (Ordinate ℝ)} {geometry : Geometry} {meshDimension : ℕ}
    (h : planar os geometry meshDimension = some swept) :
    total swept =
      if geometry = .axisymmetric ∧ meshDimension = 1 then 2 * weightWhere (fun d => 0 < d.2.2) os
      else total os := by
  have hupper : total (upper os) = 2 * weightWhere (fun d => 0 < d.2.2) os := by
    rw [← weightWhere_true, weightWhere_upper]
    simp
  unfold planar at h
  split at h
  · cases h
    simp
  · cases h
    rw [total_withStarts, total_sorted]
    simp
  · cases h
    rw [total_collapse]
    simp
  · cases h
    rw [total_withStarts, total_collapse]
    simp
  · cases h
    rw [total_withStarts, total_sorted, hupper]
    simp
  · cases h

/-- The half of a set on the positive side of an axis, doubled. -/
theorem two_mul_weightWhere_pos {a : Axis} {os : List (Ordinate ℝ)} (h : IsMirrored a os) :
    2 * weightWhere (fun d => 0 < a.cosine d) os =
      weightWhere (fun d => ∀ b ∈ [a], b.cosine d ≠ 0) os := by
  have htwice := h.two_mul_weightWhere (p := fun _ => True) fun _ => Iff.rfl
  simpa using htwice

/-- A sweep of a set in the plane. -/
theorem total_plane {rows swept : List (Ordinate ℝ)} (heta : IsMirrored .eta rows)
    {geometry : Geometry} {meshDimension : ℕ}
    (h : planar (rows.map flatten) geometry meshDimension = some swept) :
    total swept =
      weightWhere (fun d => ∀ a ∈ halvedAxes 2 geometry meshDimension, a.cosine d ≠ 0) rows := by
  have haxes : halvedAxes 2 geometry meshDimension =
      if geometry = .axisymmetric ∧ meshDimension = 1 then [.eta] else [] := rfl
  rw [total_planar h, haxes]
  split
  · exact (congrArg _ (weightWhere_flatten _ rows)).trans (two_mul_weightWhere_pos heta)
  · rw [total_map_flatten, ← weightWhere_true]
    simp

/-- A sweep of the upper half of a set in space. -/
theorem total_space {rows swept : List (Ordinate ℝ)} (heta : IsMirrored .eta rows)
    (hxi : IsMirrored .xi rows) {geometry : Geometry} {meshDimension : ℕ} (hmesh : meshDimension ≠ 3)
    (h : planar ((upper rows).map flatten) geometry meshDimension = some swept) :
    total swept =
      weightWhere (fun d => ∀ a ∈ halvedAxes 3 geometry meshDimension, a.cosine d ≠ 0) rows := by
  have haxes : halvedAxes 3 geometry meshDimension =
      if geometry = .axisymmetric ∧ meshDimension = 1 then [.xi, .eta] else [.xi] := if_neg hmesh
  rw [total_planar h, haxes]
  split
  · -- Both halves are taken, first across `xi` and then, behind the exchange, across `eta`.
    have hflat : weightWhere (fun d => 0 < d.2.2) ((upper rows).map flatten) =
        weightWhere (fun d => 0 < Axis.eta.cosine d) (upper rows) := weightWhere_flatten _ _
    have hupper : weightWhere (fun d => 0 < Axis.eta.cosine d) (upper rows) =
        2 * weightWhere (fun d => 0 < Axis.xi.cosine d ∧ 0 < Axis.eta.cosine d) rows :=
      weightWhere_upper _ _
    have hswap : weightWhere (fun d => Axis.xi.cosine d ≠ 0 ∧ 0 < Axis.eta.cosine d) rows =
        weightWhere (fun d => 0 < Axis.eta.cosine d ∧ Axis.xi.cosine d ≠ 0) rows :=
      weightWhere_congr (fun d => and_comm) rows
    rw [hflat, hupper, hxi.two_mul_weightWhere (fun d => Iff.rfl), hswap,
      heta.two_mul_weightWhere (fun d => Iff.rfl)]
    exact weightWhere_congr (fun d => by simp [and_comm]) rows
  · rw [total_map_flatten, ← weightWhere_true, weightWhere_upper]
    have hall : weightWhere (fun d => 0 < d.2.2 ∧ True) rows =
        weightWhere (fun d => 0 < Axis.xi.cosine d) rows :=
      weightWhere_congr (fun d => and_iff_left trivial) rows
    rw [hall, two_mul_weightWhere_pos hxi]

/-- A sweep of a mirrored set carries the weight off the planes at which the set
is halved. -/
theorem total_arrange {q : Quadrature ℝ} {geometry : Geometry} {meshDimension : ℕ}
    {swept : List (Ordinate ℝ)}
    (hmirrored : ∀ a ∈ Axis.all.take q.dimension, IsMirrored a q.table.rows)
    (h : arrange q geometry meshDimension = some swept) :
    total swept = weightWhere
      (fun d => ∀ a ∈ halvedAxes q.dimension geometry meshDimension, a.cosine d ≠ 0)
      q.table.rows := by
  have hspace : ∀ n, q.table.rows.map (Quadrature.arrange (n + 3)) = q.table.rows := fun n =>
    List.map_id _
  unfold arrange at h
  split at h
  · cases h
  next hmesh =>
    unfold Quadrature.ordinates at h
    generalize q.dimension = dimension at *
    match dimension with
    | 0 => omega
    | 1 =>
      have htotal : total (q.table.rows.map (Quadrature.arrange 1)) = total q.table.rows := by
        simp [total, Quadrature.arrange, Function.comp_def]
      rw [total_linear h, htotal, ← weightWhere_true]
      simp [halvedAxes]
    | 2 => exact total_plane (hmirrored _ (by simp [Axis.all])) h
    | 3 =>
      rw [hspace 0] at h
      by_cases hthree : meshDimension = 3
      · -- A mesh in space takes the set as it is.
        subst hthree
        have hcopy : (if geometry = .cartesian then some q.table.rows else none) = some swept := h
        split at hcopy
        · cases hcopy
          rw [← weightWhere_true]
          simp [halvedAxes]
        · cases hcopy
      · have hplanar : planar ((upper q.table.rows).map flatten) geometry meshDimension =
            some swept := by simpa [hthree] using h
        exact total_space (hmirrored _ (by simp [Axis.all])) (hmirrored _ (by simp [Axis.all]))
          hthree hplanar
    | n + 4 =>
      rw [hspace (n + 1)] at h
      have haxes : halvedAxes (n + 4) geometry meshDimension =
          if geometry = .axisymmetric ∧ meshDimension = 1 then [.xi] else [] := rfl
      have hxi : IsMirrored .xi q.table.rows := hmirrored _ (by simp [Axis.all])
      rw [total_planar h, haxes]
      split
      · exact two_mul_weightWhere_pos hxi
      · rw [← weightWhere_true]
        simp

theorem total_add_inPlaneWeight {q : Quadrature ℝ} {geometry : Geometry} {meshDimension : ℕ}
    {swept : List (Ordinate ℝ)}
    (hmirrored : ∀ a ∈ Axis.all.take q.dimension, IsMirrored a q.table.rows)
    (h : arrange q geometry meshDimension = some swept) :
    total swept + inPlaneWeight q geometry meshDimension = total q.table.rows := by
  rw [total_arrange hmirrored h, ← weightWhere_add_not
    (fun d => ∀ a ∈ halvedAxes q.dimension geometry meshDimension, a.cosine d ≠ 0), inPlaneWeight]
  congr 1
  exact weightWhere_congr (fun d => by simp) _

/-- The sweep of a mirrored set carries its weight, except for what lies in the
planes at which it is halved. So its weight is that of the set, which is also
its norm, exactly if nothing lies there that carries weight. -/
theorem total_eq_iff_of_mirrored {q : Quadrature ℝ} {geometry : Geometry} {meshDimension : ℕ}
    {s : SweepSet ℝ} (hmirrored : ∀ a ∈ Axis.all.take q.dimension, IsMirrored a q.table.rows)
    (h : ofQuadrature q geometry meshDimension = .ok s) :
    total s.ordinates + inPlaneWeight q geometry meshDimension = q.table.wt.sum ∧
    (total s.ordinates = q.table.wt.sum ↔ inPlaneWeight q geometry meshDimension = 0) ∧
    ((∀ w ∈ q.table.wt, 0 ≤ w) →
      (total s.ordinates = q.table.wt.sum ↔
        ∀ row ∈ q.table.rows, 0 < row.weight →
          ∀ a ∈ halvedAxes q.dimension geometry meshDimension, row.along a ≠ 0)) ∧
    s.norm = q.norm := by
  obtain ⟨harrange, -, hnorm⟩ := ofQuadrature_eq_ok h
  have htotal : total q.table.rows = q.table.wt.sum := by rw [total, q.table.map_weight_rows]
  have hsum := total_add_inPlaneWeight hmirrored harrange
  rw [htotal] at hsum
  have hiff : total s.ordinates = q.table.wt.sum ↔ inPlaneWeight q geometry meshDimension = 0 := by
    rw [← hsum]
    exact left_eq_add
  refine ⟨hsum, hiff, fun hweights => ?_, hnorm⟩
  have hrows : ∀ row ∈ q.table.rows, 0 ≤ row.weight := by
    intro row hrow
    apply hweights
    rw [← q.table.map_weight_rows]
    exact List.mem_map_of_mem hrow
  rw [hiff, inPlaneWeight, weightWhere_eq_zero_iff hrows]
  simp [cosine_direction]

/-- Two directions that are images of each other across the plane `eta = 0`, and
two that lie in it. -/
noncomputable def crossing : Quadrature ℝ :=
  ⟨.general "crossing" 2 3, 2, 4.0,
    { mu := [0, 0, -0.6, 0.6]
      eta := [-0.8, 0.8, 0, 0]
      xi := [0.6, 0.6, 0.8, 0.8]
      wt := [1, 1, 1, 1] }⟩

theorem rows_crossing : crossing.table.rows =
    [⟨0, -0.8, 0.6, 1⟩, ⟨0, 0.8, 0.6, 1⟩, ⟨-0.6, 0, 0.8, 1⟩, ⟨0.6, 0, 0.8, 1⟩] := by
  simp [crossing, DirectionTable.rows, DirectionTable.row, List.range_succ]

theorem isMirrored_crossing :
    ∀ a ∈ Axis.all.take crossing.dimension, IsMirrored a crossing.table.rows := by
  have hspanned : Axis.all.take crossing.dimension = [.mu, .eta] := rfl
  rw [hspanned, List.forall_mem_cons, List.forall_mem_singleton, rows_crossing]
  constructor
  · apply isMirrored_of_perm
    simp only [List.map_cons, List.map_nil, mirrored, direction, Axis.mirror, neg_neg, neg_zero]
    exact ((List.Perm.swap _ _ _).cons _).cons _
  · apply isMirrored_of_perm
    simp only [List.map_cons, List.map_nil, mirrored, direction, Axis.mirror, neg_neg, neg_zero]
    exact List.Perm.swap _ _ _

theorem ofQuadrature_crossing : ∃ s, ofQuadrature crossing .axisymmetric 1 = .ok s := ⟨_, rfl⟩

/-- On a line half the weight of the crossing is lost in axisymmetric geometry. -/
theorem total_crossing :
    (∀ a ∈ Axis.all.take crossing.dimension, IsMirrored a crossing.table.rows) ∧
    ∃ s, ofQuadrature crossing .axisymmetric 1 = .ok s ∧
      total s.ordinates = 2 ∧ crossing.table.wt.sum = 4 ∧ s.norm = 4.0 := by
  have hpositive : weightWhere (fun d => 0 < d.2.2) (crossing.table.rows.map flatten) = 1 := by
    rw [weightWhere_flatten, rows_crossing]
    simp [weightWhere, direction]
    norm_num
  obtain ⟨s, hs⟩ := ofQuadrature_crossing
  obtain ⟨harrange, -, hnorm⟩ := ofQuadrature_eq_ok hs
  have hplanar : planar (crossing.table.rows.map flatten) .axisymmetric 1 = some s.ordinates :=
    harrange
  refine ⟨isMirrored_crossing, s, hs, ?_, ?_, hnorm⟩
  · rw [total_planar hplanar, hpositive]
    norm_num
  · simp [crossing]
    norm_num

/-- In cartesian geometry the weight of the crossing is kept, in axisymmetric
geometry that of the two directions in the plane is lost. -/
theorem total_eq_iff_of_mirrored_crossing :
    (∀ a ∈ Axis.all.take crossing.dimension, IsMirrored a crossing.table.rows) ∧
    (∃ s, ofQuadrature crossing .cartesian 1 = .ok s ∧
      total s.ordinates = crossing.table.wt.sum) ∧
    ∃ s, ofQuadrature crossing .axisymmetric 1 = .ok s ∧
      total s.ordinates ≠ crossing.table.wt.sum := by
  have hkept : inPlaneWeight crossing .cartesian 1 = 0 := by
    have haxes : halvedAxes crossing.dimension .cartesian 1 = [] := by
      simp [halvedAxes, crossing, Quadrature.dimension, SetKind.dimension]
    rw [inPlaneWeight, haxes]
    simp [weightWhere]
  have hlost : inPlaneWeight crossing .axisymmetric 1 = 2 := by
    have haxes : halvedAxes crossing.dimension .axisymmetric 1 = [.eta] := by
      simp [halvedAxes, crossing, Quadrature.dimension, SetKind.dimension]
    rw [inPlaneWeight, haxes, rows_crossing]
    simp [weightWhere, direction, Axis.cosine]
    norm_num
  obtain ⟨s, hs⟩ : ∃ s, ofQuadrature crossing .cartesian 1 = .ok s := ⟨_, rfl⟩
  obtain ⟨t, ht⟩ := ofQuadrature_crossing
  refine ⟨isMirrored_crossing, ⟨s, hs, ?_⟩, t, ht, ?_⟩
  · exact (total_eq_iff_of_mirrored isMirrored_crossing hs).2.1.mpr hkept
  · intro heq
    have hzero := (total_eq_iff_of_mirrored isMirrored_crossing ht).2.1.mp heq
    rw [hlost] at hzero
    exact two_ne_zero hzero

end SweepSet

end DiscreteOrdinates
