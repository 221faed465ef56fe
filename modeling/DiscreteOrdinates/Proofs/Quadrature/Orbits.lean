import DiscreteOrdinates.Proofs.Sweep.Mirror
import DiscreteOrdinates.Quadrature.Reflection

/-!
# Orbits

The images of directions in the eight octants. What an orbit holds depends on the
magnitudes of the cosines alone: its directions are those with the same
magnitudes, and it meets each of them once for every choice of signs of the
cosines that are zero (`weightWhere_orbit`, `card_orbit`).
-/

namespace DiscreteOrdinates

/-- Each of the three numbers is a sign. -/
structure Signs.AreSigns (s : Signs ℝ) : Prop where
  mu : s.mu = -1 ∨ s.mu = 1
  eta : s.eta = -1 ∨ s.eta = 1
  xi : s.xi = -1 ∨ s.xi = 1

theorem Signs.mem_withXi_both {s : Signs ℝ} : s ∈ withXi both ↔ s.AreSigns := by
  constructor
  · intro h
    simp only [withXi, both, List.mem_flatMap, List.mem_map, List.mem_cons, List.not_mem_nil,
      or_false, Scalar.one_real] at h
    obtain ⟨xi, hxi, eta, heta, mu, hmu, rfl⟩ := h
    exact ⟨hmu, heta, hxi⟩
  · rintro ⟨hmu, heta, hxi⟩
    simp only [withXi, both, List.mem_flatMap, List.mem_map, List.mem_cons, List.not_mem_nil,
      or_false, Scalar.one_real]
    exact ⟨s.xi, hxi, s.eta, heta, s.mu, hmu, rfl⟩

namespace Ordinate

/-! ## Magnitudes -/

/-- The magnitudes of the cosines of a direction. -/
def magnitudes (d : Direction) : Direction :=
  (|d.1|, |d.2.1|, |d.2.2|)

/-- How many cosines of an ordinate are zero. -/
noncomputable def zeroCosines (o : Ordinate ℝ) : ℕ :=
  o.cosines.countP (· = 0)

/-- How many cosines of an ordinate are not zero. -/
noncomputable def nonzeroCosines (o : Ordinate ℝ) : ℕ :=
  o.cosines.countP (· ≠ 0)

theorem magnitudes_mirror (a : Axis) (d : Direction) :
    magnitudes (a.mirror d) = magnitudes d := by
  cases a <;> simp [magnitudes, Axis.mirror]

theorem magnitudes_reflect {s : Signs ℝ} (hs : s.AreSigns) (o : Ordinate ℝ) :
    magnitudes (reflect s o).direction = magnitudes o.direction := by
  obtain ⟨hmu, heta, hxi⟩ := hs
  have habs : ∀ {c x : ℝ}, c = -1 ∨ c = 1 → |c * x| = |x| := by
    rintro c x (rfl | rfl) <;> simp
  simp [magnitudes, direction, reflect, habs hmu, habs heta, habs hxi]

/-- A direction with the same magnitudes differs in signs only. -/
theorem exists_reflect_eq {o : Ordinate ℝ} {d : Direction}
    (h : magnitudes d = magnitudes o.direction) :
    ∃ s : Signs ℝ, s.AreSigns ∧ (reflect s o).direction = d := by
  have hsign : ∀ {x y : ℝ}, |x| = |y| → ∃ c : ℝ, (c = -1 ∨ c = 1) ∧ c * y = x := by
    intro x y hxy
    rcases abs_eq_abs.mp hxy with rfl | rfl
    · exact ⟨1, .inr rfl, one_mul x⟩
    · exact ⟨-1, .inl rfl, neg_one_mul y⟩
  obtain ⟨hx, hyz⟩ := Prod.mk.inj h
  obtain ⟨hy, hz⟩ := Prod.mk.inj hyz
  obtain ⟨mu, hmu, hx⟩ := hsign hx
  obtain ⟨eta, heta, hy⟩ := hsign hy
  obtain ⟨xi, hxi, hz⟩ := hsign hz
  exact ⟨⟨mu, eta, xi⟩, ⟨hmu, heta, hxi⟩, Prod.ext hx (Prod.ext hy hz)⟩

theorem zeroCosines_congr {a b : Ordinate ℝ}
    (h : magnitudes a.direction = magnitudes b.direction) : zeroCosines a = zeroCosines b := by
  have hzero : ∀ {x y : ℝ}, |x| = |y| → (x = 0 ↔ y = 0) := by
    intro x y hxy
    rw [← abs_eq_zero, hxy, abs_eq_zero]
  have hx : a.x = 0 ↔ b.x = 0 := hzero (congrArg (·.1) h)
  have hy : a.y = 0 ↔ b.y = 0 := hzero (congrArg (·.2.1) h)
  have hz : a.z = 0 ↔ b.z = 0 := hzero (congrArg (·.2.2) h)
  simp [zeroCosines, cosines, List.countP_cons, hx, hy, hz]

/-! ## Orbits -/

/-- The images of a direction in the eight octants. -/
noncomputable def orbit (o : Ordinate ℝ) : List (Ordinate ℝ) :=
  (Signs.withXi Signs.both).map fun s => reflect s o

theorem mem_map_direction_orbit {o : Ordinate ℝ} {d : Direction} :
    d ∈ (orbit o).map direction ↔ magnitudes o.direction = magnitudes d := by
  rw [orbit, List.map_map, List.mem_map]
  constructor
  · rintro ⟨s, hs, rfl⟩
    exact (magnitudes_reflect (Signs.mem_withXi_both.mp hs) o).symm
  · intro h
    obtain ⟨s, hs, hd⟩ := exists_reflect_eq h.symm
    exact ⟨s, Signs.mem_withXi_both.mpr hs, hd⟩

/-- Octant by octant or direction by direction, the images are the same. -/
theorem images_perm_flatMap_orbit (os : List (Ordinate ℝ)) :
    (images (Signs.withXi Signs.both) os).Perm (os.flatMap orbit) := by
  induction os with
  | nil => simp [images]
  | cons o os ih =>
    have hsplit := List.flatMap_append_perm (Signs.withXi Signs.both)
      (fun s => [reflect s o]) (fun s => os.map (reflect s))
    have horbit : (Signs.withXi Signs.both).flatMap (fun s => [reflect s o]) = orbit o :=
      List.map_eq_flatMap.symm
    rw [List.flatMap_cons]
    refine (hsplit.symm.trans ?_)
    rw [horbit]
    exact ih.append_left (orbit o)

/-- How many of the two signs take one cosine to another. -/
noncomputable def hits (x c : ℝ) : ℝ :=
  (if -x = c then 1 else 0) + if x = c then 1 else 0

theorem hits_eq (x c : ℝ) : hits x c = if |x| = |c| then (if x = 0 then 2 else 1) else 0 := by
  by_cases hpos : x = c
  · subst hpos
    by_cases hx : x = 0
    · simp [hits, hx]
      norm_num
    · simp [hits, hx, neg_eq_self]
  · by_cases hneg : -x = c
    · subst hneg
      have hx : x ≠ 0 := fun h => hpos (by simp [h])
      simp [hits, hx, hpos]
    · have habs : |x| ≠ |c| := fun h => by
        rcases abs_eq_abs.mp h with h | h
        · exact hpos h
        · exact hneg (by rw [h, neg_neg])
      simp [hits, hpos, hneg, habs]

theorem weightWhere_orbit_eq_hits (o : Ordinate ℝ) (d : Direction) :
    weightWhere (· = d) (orbit o) =
      o.weight * (hits o.x d.1 * hits o.y d.2.1 * hits o.z d.2.2) := by
  have hand : ∀ (p q r : Prop) [Decidable p] [Decidable q] [Decidable r] [Decidable (p ∧ q ∧ r)]
      (w : ℝ), (if p ∧ q ∧ r then w else 0) =
        w * ((if p then 1 else 0) * (if q then 1 else 0) * (if r then 1 else 0)) := by
    intro p q r _ _ _ _ w
    by_cases hp : p <;> by_cases hq : q <;> by_cases hr : r <;> simp [hp, hq, hr]
  obtain ⟨a, b, c⟩ := d
  simp only [weightWhere, orbit, Signs.withXi, Signs.both, List.flatMap_cons, List.flatMap_nil,
    List.map_cons, List.map_nil, List.append_nil, List.cons_append, List.nil_append,
    List.sum_cons, List.sum_nil, reflect, direction, Prod.mk.injEq, hand, Scalar.one_real,
    neg_one_mul, one_mul, hits]
  ring

theorem two_pow_zeroCosines (o : Ordinate ℝ) :
    (2 : ℝ) ^ zeroCosines o =
      (if o.x = 0 then 2 else 1) * (if o.y = 0 then 2 else 1) * (if o.z = 0 then 2 else 1) := by
  by_cases hx : o.x = 0 <;> by_cases hy : o.y = 0 <;> by_cases hz : o.z = 0 <;>
    simp [zeroCosines, cosines, hx, hy, hz] <;> norm_num

/-- A direction is met by an orbit once for every choice of signs of the zero
cosines, or not at all. -/
theorem weightWhere_orbit (o : Ordinate ℝ) (d : Direction) :
    weightWhere (· = d) (orbit o) =
      weightWhere (fun d' => magnitudes d' = magnitudes d) [o] * 2 ^ zeroCosines o := by
  by_cases h : magnitudes o.direction = magnitudes d
  · have hx : |o.x| = |d.1| := congrArg (·.1) h
    have hy : |o.y| = |d.2.1| := congrArg (·.2.1) h
    have hz : |o.z| = |d.2.2| := congrArg (·.2.2) h
    rw [weightWhere_orbit_eq_hits, hits_eq, hits_eq, hits_eq, if_pos hx, if_pos hy, if_pos hz,
      two_pow_zeroCosines, weightWhere_cons_of_pos h]
    simp [weightWhere]
  · have hnone : weightWhere (· = d) (orbit o) = 0 := by
      refine weightWhere_eq_zero fun p hp heq => h ?_
      exact mem_map_direction_orbit.mp (heq ▸ List.mem_map_of_mem hp)
    rw [hnone, weightWhere_cons_of_neg h]
    simp [weightWhere]

theorem total_orbit (o : Ordinate ℝ) : total (orbit o) = 8 * o.weight := by
  simp only [total, orbit, Signs.withXi, Signs.both, List.flatMap_cons, List.flatMap_nil,
    List.map_cons, List.map_nil, List.append_nil, List.cons_append, List.nil_append,
    List.sum_cons, List.sum_nil, reflect]
  ring

/-- The directions of an orbit are as many as there are choices of signs for the
cosines that are not zero. -/
theorem card_orbit (o : Ordinate ℝ) :
    ((orbit o).map direction).toFinset.card = 2 ^ nonzeroCosines o := by
  have hpair : ∀ x : ℝ, ({-x, x} : Finset ℝ).card = if x = 0 then 1 else 2 := by
    intro x
    by_cases hx : x = 0
    · simp [hx]
    · rw [if_neg hx, Finset.card_pair (by simpa [neg_eq_self] using hx)]
  have hproduct : ((orbit o).map direction).toFinset =
      ({-o.x, o.x} : Finset ℝ) ×ˢ ({-o.y, o.y} : Finset ℝ) ×ˢ ({-o.z, o.z} : Finset ℝ) := by
    ext d
    rw [List.mem_toFinset, mem_map_direction_orbit, magnitudes, magnitudes, Prod.mk.injEq,
      Prod.mk.injEq, abs_eq_abs, abs_eq_abs, abs_eq_abs]
    simp only [Finset.mem_product, Finset.mem_insert, Finset.mem_singleton, direction]
    grind
  rw [hproduct, Finset.card_product, Finset.card_product, hpair, hpair, hpair]
  by_cases hx : o.x = 0 <;> by_cases hy : o.y = 0 <;> by_cases hz : o.z = 0 <;>
    simp [nonzeroCosines, cosines, hx, hy, hz]

/-! ## Orbits of several directions -/

theorem mem_map_direction_flatMap_orbit {os : List (Ordinate ℝ)} {d : Direction} :
    d ∈ (os.flatMap orbit).map direction ↔
      ∃ r ∈ os, magnitudes r.direction = magnitudes d := by
  rw [List.map_flatMap, List.mem_flatMap]
  exact exists_congr fun r => and_congr_right fun _ => mem_map_direction_orbit

theorem weightWhere_flatMap_orbit (os : List (Ordinate ℝ)) (o : Ordinate ℝ) :
    weightWhere (· = o.direction) (os.flatMap orbit) =
      weightWhere (fun d => magnitudes d = magnitudes o.direction) os * 2 ^ zeroCosines o := by
  induction os with
  | nil => simp [weightWhere]
  | cons r os ih =>
    rw [List.flatMap_cons, weightWhere_append, ih, weightWhere_cons _ r os, weightWhere_orbit,
      add_mul]
    by_cases h : magnitudes r.direction = magnitudes o.direction
    · rw [zeroCosines_congr h]
    · rw [weightWhere_cons_of_neg h]
      simp [weightWhere]

theorem total_flatMap_orbit (os : List (Ordinate ℝ)) : total (os.flatMap orbit) = 8 * total os := by
  induction os with
  | nil => simp [total]
  | cons r os ih =>
    rw [List.flatMap_cons, ← weightWhere_true, weightWhere_append, weightWhere_true,
      weightWhere_true, total_orbit, ih, total_cons, mul_add]

/-- Directions of different magnitudes have no images in common. -/
theorem card_flatMap_orbit {os : List (Ordinate ℝ)}
    (h : (os.map fun r => magnitudes r.direction).Nodup) :
    ((os.flatMap orbit).map direction).toFinset.card =
      (os.map fun r => 2 ^ nonzeroCosines r).sum := by
  induction os with
  | nil => simp
  | cons r os ih =>
    obtain ⟨hr, hos⟩ := List.nodup_cons.mp h
    have hdisjoint : Disjoint ((orbit r).map direction).toFinset
        ((os.flatMap orbit).map direction).toFinset := by
      rw [Finset.disjoint_left]
      intro d hd hd'
      rw [List.mem_toFinset, mem_map_direction_orbit] at hd
      rw [List.mem_toFinset, mem_map_direction_flatMap_orbit] at hd'
      obtain ⟨r', hr', heq⟩ := hd'
      exact hr (List.mem_map.mpr ⟨r', hr', heq.trans hd.symm⟩)
    rw [List.flatMap_cons, List.map_append, List.toFinset_append,
      Finset.card_union_of_disjoint hdisjoint, card_orbit, ih hos, List.map_cons, List.sum_cons]

end Ordinate

end DiscreteOrdinates
