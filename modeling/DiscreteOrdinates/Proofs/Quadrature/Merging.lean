import DiscreteOrdinates.Proofs.Sweep.Mirror
import DiscreteOrdinates.Quadrature.UserOctant

/-!
# Merged ordinates

What remains of a list once ordinates of the same direction are taken together:
each direction once, with the weight of all ordinates that have it. Main
statement: this describes the merged list (`mem_merge_iff`).
-/

namespace DiscreteOrdinates

namespace Ordinate

theorem sameDirection_iff {a b : Ordinate ℝ} :
    a.sameDirection b = true ↔ a.direction = b.direction := by
  simp [sameDirection, direction, and_assoc]

@[simp] theorem direction_withWeight (w : ℝ) (o : Ordinate ℝ) :
    (o.withWeight w).direction = o.direction := rfl

@[simp] theorem weight_withWeight (w : ℝ) (o : Ordinate ℝ) : (o.withWeight w).weight = w := rfl

/-! ## One more ordinate -/

theorem mem_map_direction_accumulate {o : Ordinate ℝ} {os : List (Ordinate ℝ)} {d : Direction} :
    d ∈ (accumulate o os).map direction ↔ d = o.direction ∨ d ∈ os.map direction := by
  induction os with
  | nil => simp [accumulate]
  | cons p ps ih =>
    rw [accumulate]
    split
    next hsame =>
      rw [sameDirection_iff] at hsame
      simp [hsame]
    next =>
      rw [List.map_cons, List.mem_cons, ih, List.map_cons, List.mem_cons, or_left_comm]

theorem nodup_accumulate {o : Ordinate ℝ} {os : List (Ordinate ℝ)}
    (h : (os.map direction).Nodup) : ((accumulate o os).map direction).Nodup := by
  induction os with
  | nil => simp [accumulate]
  | cons p ps ih =>
    obtain ⟨hp, hps⟩ := List.nodup_cons.mp h
    rw [accumulate]
    split
    · exact h
    next hsame =>
      rw [sameDirection_iff] at hsame
      refine List.nodup_cons.mpr ⟨fun hmem => ?_, ih hps⟩
      rcases mem_map_direction_accumulate.mp hmem with heq | hmem
      · exact hsame heq
      · exact hp hmem

/-- Two ordinates of one direction weigh as much as one with both weights. -/
theorem weightWhere_withWeight_add (p : Direction → Prop) {a o : Ordinate ℝ}
    (h : a.direction = o.direction) :
    weightWhere p [a.withWeight (a.weight + o.weight)] = weightWhere p [o] + weightWhere p [a] := by
  by_cases hp : p o.direction
  · simp [weightWhere, h, hp, add_comm]
  · simp [weightWhere, h, hp]

/-- The new ordinate counts with its weight, wherever it ends up. -/
theorem weightWhere_accumulate (p : Direction → Prop) (o : Ordinate ℝ) (os : List (Ordinate ℝ)) :
    weightWhere p (accumulate o os) = weightWhere p (o :: os) := by
  induction os with
  | nil => rfl
  | cons a as ih =>
    rw [accumulate, weightWhere_cons p o, weightWhere_cons p a as]
    split
    next hsame =>
      rw [weightWhere_cons, weightWhere_withWeight_add p (sameDirection_iff.mp hsame), add_assoc]
    next => rw [weightWhere_cons, ih, weightWhere_cons p o, add_left_comm]

/-! ## Merging -/

/-- What has been merged and what is still to come make up the directions, and the
directions of what has been merged differ. -/
theorem foldl_accumulate (os merged : List (Ordinate ℝ)) (h : (merged.map direction).Nodup) :
    ((os.foldl (fun merged o => accumulate o merged) merged).map direction).Nodup ∧
      (∀ d, d ∈ (os.foldl (fun merged o => accumulate o merged) merged).map direction ↔
        d ∈ merged.map direction ∨ d ∈ os.map direction) ∧
      ∀ p, weightWhere p (os.foldl (fun merged o => accumulate o merged) merged) =
        weightWhere p os + weightWhere p merged := by
  induction os generalizing merged with
  | nil => exact ⟨h, by simp, by simp [weightWhere]⟩
  | cons o os ih =>
    obtain ⟨hnodup, hmem, hweight⟩ := ih (accumulate o merged) (nodup_accumulate h)
    refine ⟨hnodup, fun d => ?_, fun p => ?_⟩
    · rw [List.foldl_cons, hmem, mem_map_direction_accumulate, List.map_cons, List.mem_cons,
        or_assoc, or_left_comm]
    · rw [List.foldl_cons, hweight, weightWhere_accumulate, weightWhere_cons p o merged,
        weightWhere_cons p o os, add_left_comm, add_assoc]

theorem nodup_merge (os : List (Ordinate ℝ)) : ((merge os).map direction).Nodup :=
  (foldl_accumulate os [] List.nodup_nil).1

theorem mem_map_direction_merge {os : List (Ordinate ℝ)} {d : Direction} :
    d ∈ (merge os).map direction ↔ d ∈ os.map direction :=
  ((foldl_accumulate os [] List.nodup_nil).2.1 d).trans (by simp)

theorem weightWhere_merge (p : Direction → Prop) (os : List (Ordinate ℝ)) :
    weightWhere p (merge os) = weightWhere p os :=
  ((foldl_accumulate os [] List.nodup_nil).2.2 p).trans (by simp [weightWhere])

theorem total_merge (os : List (Ordinate ℝ)) : total (merge os) = total os := by
  rw [← weightWhere_true, weightWhere_merge, weightWhere_true]

theorem accumulate_of_notMem {o : Ordinate ℝ} {os : List (Ordinate ℝ)}
    (h : o.direction ∉ os.map direction) : accumulate o os = os ++ [o] := by
  induction os with
  | nil => rfl
  | cons p ps ih =>
    rw [List.map_cons, List.mem_cons, not_or] at h
    obtain ⟨hp, hps⟩ := h
    have hother : ¬ p.sameDirection o = true := fun hsame => hp (sameDirection_iff.mp hsame).symm
    rw [accumulate, if_neg hother, ih hps, List.cons_append]

theorem foldl_accumulate_eq_append (os merged : List (Ordinate ℝ))
    (h : ((merged ++ os).map direction).Nodup) :
    os.foldl (fun merged o => accumulate o merged) merged = merged ++ os := by
  induction os generalizing merged with
  | nil => rw [List.append_nil, List.foldl_nil]
  | cons o os ih =>
    have hnew : o.direction ∉ merged.map direction := by
      rw [List.map_append, List.map_cons] at h
      exact fun hmem => List.disjoint_of_nodup_append h hmem List.mem_cons_self
    rw [List.append_cons] at h
    rw [List.foldl_cons, accumulate_of_notMem hnew, ih _ h, ← List.append_cons]

/-- Ordinates whose directions differ are all kept, in their order. -/
theorem merge_eq_self {os : List (Ordinate ℝ)} (h : (os.map direction).Nodup) : merge os = os :=
  foldl_accumulate_eq_append os [] h

/-- Where directions differ in some key, the weight of a key is that of its
ordinate. -/
theorem weightWhere_eq_weight {β : Type} (key : Direction → β) {os : List (Ordinate ℝ)}
    (h : (os.map fun o => key o.direction).Nodup) {o : Ordinate ℝ} (ho : o ∈ os) :
    weightWhere (fun d => key d = key o.direction) os = o.weight := by
  induction os with
  | nil => simp at ho
  | cons a as ih =>
    obtain ⟨ha, has⟩ := List.nodup_cons.mp h
    rcases List.mem_cons.mp ho with rfl | ho
    · have hrest : weightWhere (fun d => key d = key o.direction) as = 0 :=
        weightWhere_eq_zero fun b hb heq => ha (List.mem_map.mpr ⟨b, hb, heq⟩)
      rw [weightWhere_cons, hrest, add_zero]
      simp [weightWhere]
    · have hne : ¬ key a.direction = key o.direction := fun heq =>
        ha (List.mem_map.mpr ⟨o, ho, heq.symm⟩)
      rw [weightWhere_cons_of_neg hne, ih has ho]

theorem weightWhere_of_mem_merge {os : List (Ordinate ℝ)} {o : Ordinate ℝ} (ho : o ∈ merge os) :
    weightWhere (· = o.direction) os = o.weight := by
  rw [← weightWhere_merge]
  exact weightWhere_eq_weight id (nodup_merge os) ho

/-- The ordinates of a merged list are those whose direction occurs and which
carry the weight of all ordinates of this direction. -/
theorem mem_merge_iff {os : List (Ordinate ℝ)} {o : Ordinate ℝ} :
    o ∈ merge os ↔
      o.direction ∈ os.map direction ∧ o.weight = weightWhere (· = o.direction) os := by
  constructor
  · intro ho
    exact ⟨mem_map_direction_merge.mp (List.mem_map_of_mem ho), (weightWhere_of_mem_merge ho).symm⟩
  · rintro ⟨hdirection, hweight⟩
    obtain ⟨p, hp, hsame⟩ := List.mem_map.mp (mem_map_direction_merge.mpr hdirection)
    have heq : p.weight = o.weight := by
      rw [hweight, ← hsame, weightWhere_of_mem_merge hp]
    rwa [← eq_of_direction_eq hsame heq]

end Ordinate

end DiscreteOrdinates
