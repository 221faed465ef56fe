import DiscreteOrdinates.Proofs.RealScalar
import DiscreteOrdinates.Ordinate
import DiscreteOrdinates.Quadrature.Closure

/-!
# Mirrored ordinates

Directions and their mirror images across the coordinate planes, the weight of
the ordinates whose directions have a property, and what a mirror does to it.
Main statement: the weight on the positive side of a mirror is half of the
weight off it (`IsMirrored.two_mul_weightWhere`).
-/

namespace DiscreteOrdinates

/-- The three cosines of a direction. -/
abbrev Direction := ℝ × ℝ × ℝ

namespace Axis

/-- The cosine of a direction along an axis. -/
def cosine : Axis → Direction → ℝ
  | mu, d => d.1
  | eta, d => d.2.1
  | xi, d => d.2.2

/-- The direction on the other side of the plane across an axis. -/
def mirror : Axis → Direction → Direction
  | mu, d => (-d.1, d.2.1, d.2.2)
  | eta, d => (d.1, -d.2.1, d.2.2)
  | xi, d => (d.1, d.2.1, -d.2.2)

@[simp] theorem mirror_mirror (a : Axis) (d : Direction) : a.mirror (a.mirror d) = d := by
  cases a <;> simp [mirror]

@[simp] theorem cosine_mirror (a : Axis) (d : Direction) : a.cosine (a.mirror d) = -a.cosine d := by
  cases a <;> rfl

end Axis

namespace Ordinate

/-- The direction without its weight. -/
def direction (o : Ordinate ℝ) : Direction :=
  (o.x, o.y, o.z)

theorem cosine_direction (a : Axis) (o : Ordinate ℝ) : a.cosine o.direction = o.along a := by
  cases a <;> rfl

theorem eq_of_direction_eq {a b : Ordinate ℝ} (hdirection : a.direction = b.direction)
    (hweight : a.weight = b.weight) : a = b := by
  obtain ⟨x, y, z, w⟩ := a
  obtain ⟨x', y', z', w'⟩ := b
  simp_all [direction]

/-- The weight of all ordinates. -/
def total (os : List (Ordinate ℝ)) : ℝ :=
  (os.map (·.weight)).sum

open Classical in
/-- The weight of the ordinates whose directions have a property. -/
noncomputable def weightWhere (p : Direction → Prop) (os : List (Ordinate ℝ)) : ℝ :=
  (os.map fun o => if p o.direction then o.weight else 0).sum

/-- Mirror images across an axis carry the same weight. -/
def IsMirrored (a : Axis) (os : List (Ordinate ℝ)) : Prop :=
  ∀ d, weightWhere (· = a.mirror d) os = weightWhere (· = d) os

/-! ## Weight of a property -/

theorem total_nil : total [] = 0 := by
  rw [total, List.map_nil, List.sum_nil]

theorem total_cons (o : Ordinate ℝ) (os : List (Ordinate ℝ)) :
    total (o :: os) = o.weight + total os := by
  rw [total, List.map_cons, List.sum_cons]
  rfl

theorem weightWhere_true (os : List (Ordinate ℝ)) : weightWhere (fun _ => True) os = total os := by
  simp [weightWhere, total]

theorem weightWhere_cons_of_pos {p : Direction → Prop} {o : Ordinate ℝ} (h : p o.direction)
    (os : List (Ordinate ℝ)) : weightWhere p (o :: os) = o.weight + weightWhere p os := by
  simp [weightWhere, h]

theorem weightWhere_cons_of_neg {p : Direction → Prop} {o : Ordinate ℝ} (h : ¬ p o.direction)
    (os : List (Ordinate ℝ)) : weightWhere p (o :: os) = weightWhere p os := by
  simp [weightWhere, h]

theorem weightWhere_cons (p : Direction → Prop) (o : Ordinate ℝ) (os : List (Ordinate ℝ)) :
    weightWhere p (o :: os) = weightWhere p [o] + weightWhere p os := by
  simp [weightWhere]

theorem weightWhere_append (p : Direction → Prop) (os os' : List (Ordinate ℝ)) :
    weightWhere p (os ++ os') = weightWhere p os + weightWhere p os' := by
  simp [weightWhere]

theorem weightWhere_eq_zero {p : Direction → Prop} {os : List (Ordinate ℝ)}
    (h : ∀ o ∈ os, ¬ p o.direction) : weightWhere p os = 0 := by
  refine List.sum_eq_zero fun w hw => ?_
  obtain ⟨o, ho, rfl⟩ := List.mem_map.mp hw
  exact if_neg (h o ho)

theorem weightWhere_congr {p p' : Direction → Prop} (h : ∀ d, p d ↔ p' d) (os : List (Ordinate ℝ)) :
    weightWhere p os = weightWhere p' os := by
  rw [show p = p' from funext fun d => propext (h d)]

/-- The weight of either of two properties that exclude each other. -/
theorem weightWhere_or {p p' : Direction → Prop} (h : ∀ d, p d → ¬ p' d) (os : List (Ordinate ℝ)) :
    weightWhere (fun d => p d ∨ p' d) os = weightWhere p os + weightWhere p' os := by
  induction os with
  | nil => simp [weightWhere]
  | cons o os ih =>
    by_cases hp : p o.direction
    · rw [weightWhere_cons_of_pos (Or.inl hp), weightWhere_cons_of_pos hp,
        weightWhere_cons_of_neg (h _ hp), ih, add_assoc]
    · by_cases hp' : p' o.direction
      · rw [weightWhere_cons_of_pos (Or.inr hp'), weightWhere_cons_of_neg hp,
          weightWhere_cons_of_pos hp', ih, add_left_comm]
      · rw [weightWhere_cons_of_neg (not_or.mpr ⟨hp, hp'⟩), weightWhere_cons_of_neg hp,
          weightWhere_cons_of_neg hp', ih]

theorem weightWhere_add_not (p : Direction → Prop) (os : List (Ordinate ℝ)) :
    weightWhere p os + weightWhere (fun d => ¬ p d) os = total os := by
  rw [← weightWhere_or (fun d hp hnot => hnot hp), ← weightWhere_true]
  exact weightWhere_congr (fun d => by simp [em]) os

theorem weightWhere_nonneg {os : List (Ordinate ℝ)} (hos : ∀ o ∈ os, 0 ≤ o.weight)
    (p : Direction → Prop) : 0 ≤ weightWhere p os := by
  refine List.sum_nonneg fun w hw => ?_
  obtain ⟨o, ho, rfl⟩ := List.mem_map.mp hw
  split
  · exact hos o ho
  · exact le_refl 0

theorem weightWhere_eq_zero_iff {os : List (Ordinate ℝ)} (hos : ∀ o ∈ os, 0 ≤ o.weight)
    (p : Direction → Prop) :
    weightWhere p os = 0 ↔ ∀ o ∈ os, 0 < o.weight → ¬ p o.direction := by
  induction os with
  | nil => simp [weightWhere]
  | cons o os ih =>
    obtain ⟨ho, hos⟩ := List.forall_mem_cons.mp hos
    rw [List.forall_mem_cons, ← ih hos]
    by_cases hp : p o.direction
    · have hweight : o.weight = 0 ↔ (0 < o.weight → ¬ p o.direction) := by
        rw [ho.lt_iff_ne']
        simp [hp]
      rw [weightWhere_cons_of_pos hp, add_eq_zero_iff_of_nonneg ho (weightWhere_nonneg hos p), hweight]
    · rw [weightWhere_cons_of_neg hp]
      simp [hp]

open Classical in
/-- The weight of a property is that of the directions which have it. -/
theorem weightWhere_eq_sum (p : Direction → Prop) {os : List (Ordinate ℝ)} {D : Finset Direction}
    (hD : ∀ o ∈ os, o.direction ∈ D) :
    weightWhere p os = ∑ d ∈ D with p d, weightWhere (· = d) os := by
  induction os with
  | nil => simp [weightWhere]
  | cons o os ih =>
    obtain ⟨ho, hos⟩ := List.forall_mem_cons.mp hD
    have hsum : ∑ d ∈ D with p d, (if o.direction = d then o.weight else 0) =
        if p o.direction then o.weight else 0 := by
      rw [Finset.sum_ite_eq]
      simp [ho]
    have hih := ih hos
    simp only [weightWhere, List.map_cons, List.sum_cons] at hih ⊢
    rw [Finset.sum_add_distrib, hih]
    congr 1
    convert hsum.symm

/-- A sum over the ordinates of a list, weight by weight. -/
theorem sum_weight_mul_eq_sum {os : List (Ordinate ℝ)} {D : Finset Direction}
    (hD : ∀ o ∈ os, o.direction ∈ D) (f : Direction → ℝ) :
    (os.map fun o => o.weight * f o.direction).sum = ∑ d ∈ D, weightWhere (· = d) os * f d := by
  induction os with
  | nil => simp [weightWhere]
  | cons o os ih =>
    obtain ⟨ho, hos⟩ := List.forall_mem_cons.mp hD
    have hhead : ∑ d ∈ D, weightWhere (· = d) [o] * f d = o.weight * f o.direction := by
      rw [Finset.sum_eq_single_of_mem o.direction ho]
      · simp [weightWhere]
      · intro d _ hne
        simp [weightWhere, hne.symm]
    rw [List.map_cons, List.sum_cons, ih hos, ← hhead, ← Finset.sum_add_distrib]
    refine Finset.sum_congr rfl fun d _ => ?_
    rw [weightWhere_cons _ o os, add_mul]

/-- Lists in which every direction has the same weight have the same sums. -/
theorem sum_weight_mul_congr {os os' : List (Ordinate ℝ)}
    (h : ∀ d, weightWhere (· = d) os = weightWhere (· = d) os') (f : Direction → ℝ) :
    (os.map fun o => o.weight * f o.direction).sum =
      (os'.map fun o => o.weight * f o.direction).sum := by
  classical
  let D : Finset Direction := ((os ++ os').map direction).toFinset
  have hmem : ∀ o ∈ os ++ os', o.direction ∈ D := fun o ho =>
    List.mem_toFinset.mpr (List.mem_map_of_mem ho)
  rw [sum_weight_mul_eq_sum fun o ho => hmem o (List.mem_append_left os' ho),
    sum_weight_mul_eq_sum fun o ho => hmem o (List.mem_append_right os ho)]
  simp only [h]

/-- The ordinate on the other side of the plane across an axis. -/
def mirrored (a : Axis) (o : Ordinate ℝ) : Ordinate ℝ :=
  ⟨(a.mirror o.direction).1, (a.mirror o.direction).2.1, (a.mirror o.direction).2.2, o.weight⟩

@[simp] theorem direction_mirrored (a : Axis) (o : Ordinate ℝ) :
    (mirrored a o).direction = a.mirror o.direction := rfl

@[simp] theorem weight_mirrored (a : Axis) (o : Ordinate ℝ) : (mirrored a o).weight = o.weight := rfl

theorem mirrored_mirrored (a : Axis) (o : Ordinate ℝ) : mirrored a (mirrored a o) = o := by
  cases a <;> simp [mirrored, direction, Axis.mirror]

theorem weightWhere_mirrored (a : Axis) (p : Direction → Prop) (os : List (Ordinate ℝ)) :
    weightWhere p (os.map (mirrored a)) = weightWhere (fun d => p (a.mirror d)) os := by
  rw [weightWhere, List.map_map]
  rfl

/-- Ordinates that change places with each other are mirrored. -/
theorem isMirrored_of_perm {a : Axis} {os : List (Ordinate ℝ)} (h : (os.map (mirrored a)).Perm os) :
    IsMirrored a os := by
  intro d
  have hperm : weightWhere (· = a.mirror d) (os.map (mirrored a)) = weightWhere (· = a.mirror d) os :=
    (h.map _).sum_eq
  rw [← hperm, weightWhere_mirrored]
  refine weightWhere_congr (fun d' => ?_) os
  constructor
  · intro heq
    rw [← a.mirror_mirror d', heq, a.mirror_mirror]
  · rintro rfl
    rfl

/-- The directions of a list and their mirror images. -/
theorem exists_mirror_closed (a : Axis) (os : List (Ordinate ℝ)) :
    ∃ D : Finset Direction, (∀ o ∈ os, o.direction ∈ D) ∧ ∀ d ∈ D, a.mirror d ∈ D := by
  classical
  refine ⟨(os.map direction).toFinset ∪ (os.map direction).toFinset.image a.mirror, ?_, ?_⟩
  · intro o ho
    exact Finset.mem_union_left _ (List.mem_toFinset.mpr (List.mem_map_of_mem ho))
  · intro d hd
    rcases Finset.mem_union.mp hd with hd | hd
    · exact Finset.mem_union_right _ (Finset.mem_image_of_mem _ hd)
    · obtain ⟨d', hd', rfl⟩ := Finset.mem_image.mp hd
      rw [Axis.mirror_mirror]
      exact Finset.mem_union_left _ hd'

/-- A property and its mirror image have the same weight. -/
theorem IsMirrored.weightWhere_eq {a : Axis} {os : List (Ordinate ℝ)} (h : IsMirrored a os)
    (p : Direction → Prop) : weightWhere (fun d => p (a.mirror d)) os = weightWhere p os := by
  classical
  obtain ⟨D, hinside, hclosed⟩ := exists_mirror_closed a os
  rw [weightWhere_eq_sum _ hinside, weightWhere_eq_sum p hinside]
  -- The mirror exchanges the directions that are summed, and keeps the weight of each.
  refine Finset.sum_nbij' a.mirror a.mirror ?_ ?_ ?_ ?_ ?_
  · intro d hd
    obtain ⟨hd, hp⟩ := Finset.mem_filter.mp hd
    exact Finset.mem_filter.mpr ⟨hclosed d hd, hp⟩
  · intro d hd
    obtain ⟨hd, hp⟩ := Finset.mem_filter.mp hd
    exact Finset.mem_filter.mpr ⟨hclosed d hd, by rwa [Axis.mirror_mirror]⟩
  · intro d _
    exact a.mirror_mirror d
  · intro d _
    exact a.mirror_mirror d
  · intro d _
    exact (h d).symm

/-- A function that a mirror negates has no integral over a mirrored list. -/
theorem IsMirrored.sum_weight_mul_eq_zero {a : Axis} {os : List (Ordinate ℝ)}
    (h : IsMirrored a os) {f : Direction → ℝ}
    (hf : ∀ o ∈ os, f (a.mirror o.direction) = -f o.direction) :
    (os.map fun o => o.weight * f o.direction).sum = 0 := by
  have hweights : ∀ d, weightWhere (· = d) (os.map (mirrored a)) = weightWhere (· = d) os :=
    fun d => (weightWhere_mirrored a (· = d) os).trans (h.weightWhere_eq (· = d))
  have hneg : ((os.map (mirrored a)).map fun o => o.weight * f o.direction).sum =
      -(os.map fun o => o.weight * f o.direction).sum := by
    rw [List.map_map, ← neg_one_mul, ← List.sum_map_mul_left]
    congr 1
    exact List.map_congr_left fun o ho => by simp [hf o ho]
  have hsame := sum_weight_mul_congr hweights f
  linarith

/-- Ordinates that change places with each other balance along the axis. -/
theorem sum_weight_mul_along_eq_zero {a : Axis} {os : List (Ordinate ℝ)}
    (h : (os.map (mirrored a)).Perm os) : (os.map fun o => o.weight * o.along a).sum = 0 := by
  have hsum := (isMirrored_of_perm h).sum_weight_mul_eq_zero fun o _ => a.cosine_mirror o.direction
  simpa only [cosine_direction] using hsum

/-- Twice the weight on the positive side of a mirror is the weight off it. -/
theorem IsMirrored.two_mul_weightWhere {a : Axis} {os : List (Ordinate ℝ)} (h : IsMirrored a os)
    {p : Direction → Prop} (hp : ∀ d, p (a.mirror d) ↔ p d) :
    2 * weightWhere (fun d => 0 < a.cosine d ∧ p d) os =
      weightWhere (fun d => a.cosine d ≠ 0 ∧ p d) os := by
  have hmirror := h.weightWhere_eq fun d => 0 < a.cosine d ∧ p d
  have hor : weightWhere (fun d => (0 < a.cosine d ∧ p d) ∨
      (0 < a.cosine (a.mirror d) ∧ p (a.mirror d))) os =
        weightWhere (fun d => 0 < a.cosine d ∧ p d) os +
          weightWhere (fun d => 0 < a.cosine (a.mirror d) ∧ p (a.mirror d)) os := by
    refine weightWhere_or (fun d hpos hneg => ?_) os
    rw [Axis.cosine_mirror] at hneg
    linarith [hpos.1, hneg.1]
  rw [two_mul]
  nth_rewrite 2 [← hmirror]
  rw [← hor]
  refine weightWhere_congr (fun d => ?_) os
  rw [hp d, Axis.cosine_mirror, ← or_and_right, neg_pos, or_comm, ne_iff_lt_or_gt]

end Ordinate

end DiscreteOrdinates
