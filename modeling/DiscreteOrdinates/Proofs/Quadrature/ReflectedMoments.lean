import DiscreteOrdinates.Proofs.Quadrature.Angles
import DiscreteOrdinates.Proofs.Quadrature.Merging
import DiscreteOrdinates.Proofs.Sweep.Arrangement
import DiscreteOrdinates.Proofs.Sweep.UpperHalf

/-!
# Moments of reflected octants

An angular moment of the images of an octant is a moment of the octant times a sum
over the signs of the images. The signs cancel unless both cosines are the same,
and an octant that does not tell its axes apart has the same moment along each of
them. Main statement: the sets in the plane and in space that such an octant is
reflected to close (`closes_of_isBalanced`).
-/

namespace DiscreteOrdinates

/-! ## Exchanged axes -/

namespace Axis

/-- The direction whose cosine along each axis is that of another direction along
another axis. -/
def exchange (σ : Equiv.Perm Axis) (d : Direction) : Direction :=
  ((σ mu).cosine d, (σ eta).cosine d, (σ xi).cosine d)

theorem cosine_exchange (σ : Equiv.Perm Axis) (d : Direction) (i : Axis) :
    i.cosine (exchange σ d) = (σ i).cosine d := by
  cases i <;> rfl

theorem direction_ext {d d' : Direction} (h : ∀ i : Axis, i.cosine d = i.cosine d') : d = d' :=
  Prod.ext (h mu) (Prod.ext (h eta) (h xi))

theorem exchange_eq_iff {σ : Equiv.Perm Axis} {d d' : Direction} :
    exchange σ d = d' ↔ d = exchange σ.symm d' := by
  constructor
  · rintro rfl
    refine direction_ext fun i => ?_
    rw [cosine_exchange, cosine_exchange, Equiv.apply_symm_apply]
  · rintro rfl
    refine direction_ext fun i => ?_
    rw [cosine_exchange, cosine_exchange, Equiv.symm_apply_apply]

end Axis

namespace Ordinate

/-- The ordinate with its axes exchanged. -/
def exchanged (σ : Equiv.Perm Axis) (o : Ordinate ℝ) : Ordinate ℝ :=
  let d := Axis.exchange σ o.direction
  ⟨d.1, d.2.1, d.2.2, o.weight⟩

@[simp] theorem direction_exchanged (σ : Equiv.Perm Axis) (o : Ordinate ℝ) :
    (exchanged σ o).direction = Axis.exchange σ o.direction := rfl

@[simp] theorem weight_exchanged (σ : Equiv.Perm Axis) (o : Ordinate ℝ) :
    (exchanged σ o).weight = o.weight := rfl

theorem weightWhere_exchanged (σ : Equiv.Perm Axis) (os : List (Ordinate ℝ)) (d : Direction) :
    weightWhere (· = d) (os.map (exchanged σ)) =
      weightWhere (· = Axis.exchange σ.symm d) os := by
  have hmap : weightWhere (· = d) (os.map (exchanged σ)) =
      weightWhere (fun d' => Axis.exchange σ d' = d) os := by
    rw [weightWhere, List.map_map]
    rfl
  rw [hmap]
  exact weightWhere_congr (fun _ => Axis.exchange_eq_iff) os

/-- Exchanging axes moves no weight from one direction to another. -/
def IsExchangeable (os : List (Ordinate ℝ)) : Prop :=
  ∀ (σ : Equiv.Perm Axis) (d : Direction),
    weightWhere (· = Axis.exchange σ d) os = weightWhere (· = d) os

/-- Ordinates that change places with each other are exchangeable. -/
theorem isExchangeable_of_perm {os : List (Ordinate ℝ)}
    (h : ∀ σ, (os.map (exchanged σ)).Perm os) : IsExchangeable os := by
  intro σ d
  have hperm : weightWhere (· = d) (os.map (exchanged σ.symm)) = weightWhere (· = d) os :=
    ((h σ.symm).map _).sum_eq
  rw [← hperm, weightWhere_exchanged, Equiv.symm_symm]

theorem IsExchangeable.sum_eq {os : List (Ordinate ℝ)} (h : IsExchangeable os)
    (σ : Equiv.Perm Axis) (f : Direction → ℝ) :
    (os.map fun o => o.weight * f (Axis.exchange σ o.direction)).sum =
      (os.map fun o => o.weight * f o.direction).sum := by
  have hweights : ∀ d, weightWhere (· = d) (os.map (exchanged σ)) = weightWhere (· = d) os :=
    fun d => by rw [weightWhere_exchanged, h]
  rw [← sum_weight_mul_congr hweights f, List.map_map]
  rfl

/-- The weights of unit vectors that sum to one and do not tell the axes apart. -/
structure IsBalanced (os : List (Ordinate ℝ)) : Prop where
  unit : ∀ o ∈ os, squaredLength o.x o.y o.z = 1
  total : total os = 1
  exchangeable : IsExchangeable os

/-- The moment of an octant along two axes. -/
def moment (os : List (Ordinate ℝ)) (i j : Axis) : ℝ :=
  (os.map fun o => o.weight * (o.along i * o.along j)).sum

theorem IsExchangeable.moment_eq {os : List (Ordinate ℝ)} (h : IsExchangeable os) (i j : Axis) :
    moment os i i = moment os j j := by
  have hsum := h.sum_eq (Equiv.swap i j) fun d => i.cosine d * i.cosine d
  simp only [Axis.cosine_exchange, Equiv.swap_apply_left, cosine_direction] at hsum
  exact hsum.symm

theorem IsBalanced.moment_self {os : List (Ordinate ℝ)} (h : IsBalanced os) (i : Axis) :
    moment os i i = 1 / 3 := by
  have hsum : moment os .mu .mu + moment os .eta .eta + moment os .xi .xi = 1 := by
    rw [moment, moment, moment, ← List.sum_map_add, ← List.sum_map_add, ← h.total, Ordinate.total]
    refine congrArg List.sum (List.map_congr_left fun o ho => ?_)
    have hunit := h.unit o ho
    rw [squaredLength] at hunit
    simp only [along, ← mul_add, hunit, mul_one]
  rw [h.exchangeable.moment_eq .mu i, h.exchangeable.moment_eq .eta i,
    h.exchangeable.moment_eq .xi i] at hsum
  linarith

end Ordinate

/-! ## Signs -/

namespace Signs

/-- The sign along an axis. -/
def along (s : Signs ℝ) : Axis → ℝ
  | .mu => s.mu
  | .eta => s.eta
  | .xi => s.xi

theorem cosine_direction_reflect (s : Signs ℝ) (o : Ordinate ℝ) (i : Axis) :
    i.cosine (o.reflect s).direction = s.along i * i.cosine o.direction := by
  cases i <;> rfl

theorem withXi_cons (xi : ℝ) (xis : List ℝ) :
    withXi (xi :: xis) = ⟨-1, -1, xi⟩ :: ⟨1, -1, xi⟩ :: ⟨-1, 1, xi⟩ :: ⟨1, 1, xi⟩ :: withXi xis := by
  simp [withXi, both, Scalar.one_real]

/-- Along `mu` and `eta` half of the signs are negative, along `xi` as many as are
given. -/
theorem sum_along (xis : List ℝ) (i : Axis) :
    ((withXi xis).map (·.along i)).sum = if i = .xi then 4 * xis.sum else 0 := by
  induction xis with
  | nil => simp [withXi]
  | cons xi xis ih =>
    simp only [withXi_cons, List.map_cons, List.sum_cons, ih]
    cases i <;> simp [along]
    ring

/-- Signs along two axes cancel. -/
theorem sum_along_mul_along {xis : List ℝ} (hxis : ∀ xi ∈ xis, xi * xi = 1) (i j : Axis) :
    ((withXi xis).map fun s => s.along i * s.along j).sum =
      if i = j then 4 * (xis.length : ℝ) else 0 := by
  induction xis with
  | nil => simp [withXi]
  | cons xi xis ih =>
    obtain ⟨hxi, hxis⟩ := List.forall_mem_cons.mp hxis
    simp only [withXi_cons, List.map_cons, List.sum_cons, ih hxis, List.length_cons]
    cases i <;> cases j <;> simp [along, hxi] <;> ring

end Signs

/-! ## Reflected octants -/

namespace LevelSymmetric

open Ordinate

section

variable (xis : List ℝ) (scale : ℝ) (os : List (Ordinate ℝ))

/-- The integral of a function of direction that changes of signs only multiply. -/
theorem sum_rows_reflect {f : Direction → ℝ} {a : Signs ℝ → ℝ}
    (h : ∀ s (o : Ordinate ℝ), f (o.reflect s).direction = a s * f o.direction) :
    ((reflect xis scale os).rows.map fun o => o.weight * f o.direction).sum =
      scale * ((Signs.withXi xis).map a).sum *
        (os.map fun o => o.weight * f o.direction).sum := by
  have hterm : ∀ s (o : Ordinate ℝ),
      (o.reflect s).weight * scale * f (o.reflect s).direction =
        scale * a s * (o.weight * f o.direction) := by
    intro s o
    have hweight : (o.reflect s).weight = o.weight := rfl
    rw [h, hweight]
    ring
  rw [reflect, DirectionTable.rows_ofRows, List.map_map, images, List.map_flatMap,
    List.flatMap_def, List.sum_flatten, List.map_map]
  simp only [Function.comp_def, List.map_map, weight_withWeight, direction_withWeight, hterm,
    List.sum_map_mul_left, List.sum_map_mul_right]

theorem sum_wt_reflect : (reflect xis scale os).wt.sum = scale * (4 * xis.length) * total os := by
  have hsum := sum_rows_reflect xis scale os (f := fun _ => 1) (a := fun _ => 1)
    fun _ _ => (one_mul 1).symm
  have hcount : ((Signs.withXi xis).map fun _ => (1 : ℝ)).sum = 4 * xis.length := by
    rw [List.map_const', List.sum_replicate, Signs.length_withXi, nsmul_eq_mul, mul_one]
    push_cast
    ring
  simpa only [mul_one, DirectionTable.map_weight_rows, hcount, total] using hsum

theorem firstMoment_reflect (i : Axis) :
    (reflect xis scale os).firstMoment i =
      scale * ((Signs.withXi xis).map (·.along i)).sum *
        (os.map fun o => o.weight * o.along i).sum := by
  rw [DirectionTable.firstMoment_real]
  simp only [← cosine_direction]
  exact sum_rows_reflect xis scale os fun s o => s.cosine_direction_reflect o i

theorem secondMoment_reflect (i j : Axis) :
    (reflect xis scale os).secondMoment i j =
      scale * ((Signs.withXi xis).map fun s => s.along i * s.along j).sum * moment os i j := by
  rw [DirectionTable.secondMoment_real, moment]
  simp only [← cosine_direction, mul_assoc]
  rw [← mul_assoc]
  refine sum_rows_reflect xis scale os (f := fun d => i.cosine d * j.cosine d) fun s o => ?_
  rw [s.cosine_direction_reflect, s.cosine_direction_reflect, mul_mul_mul_comm]

end

/-! ## Closure -/

section

variable {os : List (Ordinate ℝ)} {xis : List ℝ} {scale norm : ℝ}

/-- Along `mu` and `eta` the images always balance, along `xi` if the given signs do. -/
theorem firstMoment_eq_zero {i : Axis} (hi : i = .xi → xis.sum = 0) :
    (reflect xis scale os).firstMoment i = 0 := by
  rw [firstMoment_reflect, Signs.sum_along]
  split
  next hxi => rw [hi hxi, mul_zero, mul_zero, zero_mul]
  next => rw [mul_zero, zero_mul]

theorem sum_wt_of_isBalanced (h : IsBalanced os) (hscale : scale * (4 * xis.length) = norm) :
    (reflect xis scale os).wt.sum = norm := by
  rw [sum_wt_reflect, hscale, h.total, mul_one]

theorem secondMoment_of_isBalanced (h : IsBalanced os) (hxis : ∀ xi ∈ xis, xi * xi = 1)
    (hscale : scale * (4 * xis.length) = norm) (i j : Axis) :
    (reflect xis scale os).secondMoment i j = if i = j then norm / 3 else 0 := by
  rw [secondMoment_reflect, Signs.sum_along_mul_along hxis]
  split
  next hij => rw [← hij, hscale, h.moment_self, mul_one_div]
  next => rw [mul_zero, zero_mul]

end

section

variable {os : List (Ordinate ℝ)} (h : IsBalanced os) (norm : ℝ)

include h

/-- The integrals of the set in the plane. The images cover a half space in `xi`. -/
theorem moments_planeTable :
    (planeTable os norm).wt.sum = norm ∧
      (∀ i, i ≠ .xi → (planeTable os norm).firstMoment i = 0) ∧
      ∀ i j, (planeTable os norm).secondMoment i j = if i = j then norm / 3 else 0 := by
  have hscale : norm / 4.0 * (4 * ([1.0] : List ℝ).length) = norm := by norm_num
  have hsquare : ∀ xi ∈ ([1.0] : List ℝ), xi * xi = 1 := by norm_num
  exact ⟨sum_wt_of_isBalanced h hscale, fun i hi => firstMoment_eq_zero fun hxi => absurd hxi hi,
    secondMoment_of_isBalanced h hsquare hscale⟩

/-- The integrals of the set in space. -/
theorem moments_spaceTable :
    (spaceTable os norm).wt.sum = norm ∧
      (∀ i, (spaceTable os norm).firstMoment i = 0) ∧
      ∀ i j, (spaceTable os norm).secondMoment i j = if i = j then norm / 3 else 0 := by
  have hscale : norm / 8.0 * (4 * (Signs.both : List ℝ).length) = norm := by norm_num [Signs.both]
  have hsquare : ∀ xi ∈ (Signs.both : List ℝ), xi * xi = 1 := by norm_num [Signs.both]
  have hsum : (Signs.both : List ℝ).sum = 0 := by norm_num [Signs.both]
  exact ⟨sum_wt_of_isBalanced h hscale, fun i => firstMoment_eq_zero fun _ => hsum,
    secondMoment_of_isBalanced h hsquare hscale⟩

end

/-- An octant of unit vectors whose weights sum to one and do not tell the axes apart
is reflected to sets that close: in the plane and in space the weights sum to the
norm, the first moment vanishes along the axes of the set, and the second moment is a
third of the norm along each axis and zero across. So both sets pass their closure
check if the norm is not negative. -/
theorem closes_of_isBalanced {os : List (Ordinate ℝ)} (h : IsBalanced os) (order : ℕ) {norm : ℝ}
    (hnorm : 0 ≤ norm) :
    ((planeTable os norm).wt.sum = norm ∧
      (∀ i, i ≠ .xi → (planeTable os norm).firstMoment i = 0) ∧
      (∀ i j, (planeTable os norm).secondMoment i j = if i = j then norm / 3 else 0) ∧
      (planeSet os order norm).checkClosure = .ok ()) ∧
    ((spaceTable os norm).wt.sum = norm ∧
      (∀ i, (spaceTable os norm).firstMoment i = 0) ∧
      (∀ i j, (spaceTable os norm).secondMoment i j = if i = j then norm / 3 else 0) ∧
      (spaceSet os order norm).checkClosure = .ok ()) := by
  obtain ⟨hplane, hplaneFirst, hplaneSecond⟩ := moments_planeTable h norm
  obtain ⟨hspace, hspaceFirst, hspaceSecond⟩ := moments_spaceTable h norm
  have hplaneCloses : (planeSet os order norm).ClosesExactly := by
    refine ⟨(Scalar.sum_real _).trans hplane, fun i hi => hplaneFirst i ?_,
      fun _ i _ j _ => hplaneSecond i j⟩
    rintro rfl
    simp [Axis.all, Quadrature.dimension, SetKind.dimension, planeSet] at hi
  have hspaceCloses : (spaceSet os order norm).ClosesExactly :=
    ⟨(Scalar.sum_real _).trans hspace, fun i _ => hspaceFirst i, fun _ i _ j _ => hspaceSecond i j⟩
  exact ⟨⟨hplane, hplaneFirst, hplaneSecond, hplaneCloses.checkClosure_eq_ok hnorm⟩,
    ⟨hspace, hspaceFirst, hspaceSecond, hspaceCloses.checkClosure_eq_ok hnorm⟩⟩

/-- The direction of the octant of order four that is lowest along an axis. -/
noncomputable def lowest (a : Axis) : Ordinate ℝ :=
  let cosine (i : Axis) : ℝ := if i = a then 1.0 / 3.0 else 2.0 / 3.0
  ⟨cosine .mu, cosine .eta, cosine .xi, 1.0 / 3.0⟩

theorem exchanged_lowest (σ : Equiv.Perm Axis) (a : Axis) :
    exchanged σ (lowest a) = lowest (σ.symm a) := by
  have hcosine : ∀ i : Axis, i.cosine (lowest a).direction =
      if i = a then 1.0 / 3.0 else 2.0 / 3.0 := by
    intro i
    cases i <;> rfl
  refine eq_of_direction_eq ?_ rfl
  rw [direction_exchanged]
  refine Axis.direction_ext fun i => ?_
  rw [Axis.cosine_exchange, hcosine]
  simp only [← Equiv.eq_symm_apply]
  cases i <;> rfl

theorem isBalanced_lowest : IsBalanced (Axis.all.map lowest) := by
  constructor
  case unit =>
    refine List.forall_mem_map.mpr fun a _ => ?_
    cases a <;> simp [lowest, squaredLength] <;> norm_num
  case total => norm_num [Axis.all, lowest, total]
  case exchangeable =>
    refine isExchangeable_of_perm fun σ => ?_
    have hmap : (Axis.all.map lowest).map (exchanged σ) = (Axis.all.map σ.symm).map lowest := by
      simp only [List.map_map, Function.comp_def, exchanged_lowest]
    have hall : ∀ a, a ∈ Axis.all := fun a => by cases a <;> decide
    rw [hmap]
    -- Every axis is the image of one axis, so the three of them change places.
    refine List.Perm.map lowest ((List.perm_ext_iff_of_nodup ?_ (by decide)).mpr fun a => ?_)
    · exact List.Nodup.map σ.symm.injective (by decide)
    · exact iff_of_true (List.mem_map.mpr ⟨σ a, hall _, σ.symm_apply_apply a⟩) (hall a)

/-- The octant of order four closes with any norm, such as that of the sphere. -/
theorem closes_of_isBalanced_lowest :
    IsBalanced (Axis.all.map lowest) ∧ 0 ≤ 4 * Real.pi ∧
      (planeTable (Axis.all.map lowest) (4 * Real.pi)).wt.sum = 4 * Real.pi ∧
      (spaceTable (Axis.all.map lowest) (4 * Real.pi)).secondMoment .xi .xi = 4 * Real.pi / 3 ∧
      (planeSet (Axis.all.map lowest) 4 (4 * Real.pi)).checkClosure = .ok () ∧
      (spaceSet (Axis.all.map lowest) 4 (4 * Real.pi)).checkClosure = .ok () := by
  have hnorm : 0 ≤ 4 * Real.pi := by positivity
  obtain ⟨⟨hsum, -, -, hplane⟩, ⟨-, -, hsecond, hspace⟩⟩ :=
    closes_of_isBalanced isBalanced_lowest 4 hnorm
  exact ⟨isBalanced_lowest, hnorm, hsum, hsecond .xi .xi, hplane, hspace⟩

end LevelSymmetric

end DiscreteOrdinates
