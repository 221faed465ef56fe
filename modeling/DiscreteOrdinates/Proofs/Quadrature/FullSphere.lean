import DiscreteOrdinates.Proofs.Quadrature.Closure
import DiscreteOrdinates.Proofs.Quadrature.Merging
import DiscreteOrdinates.Proofs.Quadrature.Orbits
import DiscreteOrdinates.Proofs.Sweep.Arrangement

/-!
# Full spheres

The set that is reflected from an octant. A direction is an image of those rows
whose cosines have its magnitudes, and of each of them once for every choice of
signs of its zero cosines. So the set is known from the magnitudes alone, and no
reflection changes it. Main statement: `symmetric_of_table`.
-/

namespace DiscreteOrdinates

namespace UserOctant

open Ordinate

/-! ## Spheres -/

/-- A direction of a sphere carries the weight of the rows with its magnitudes,
once for every choice of signs of its zero cosines. -/
theorem mem_sphere_iff {os : List (Ordinate ℝ)} {o : Ordinate ℝ} :
    o ∈ sphere os ↔ (∃ r ∈ os, magnitudes r.direction = magnitudes o.direction) ∧
      o.weight = weightWhere (fun d => magnitudes d = magnitudes o.direction) os *
        2 ^ zeroCosines o := by
  have himages := images_perm_flatMap_orbit os
  have hweight : weightWhere (· = o.direction) (images (Signs.withXi Signs.both) os) =
      weightWhere (· = o.direction) (os.flatMap orbit) := (himages.map _).sum_eq
  rw [sphere, mem_merge_iff, (himages.map direction).mem_iff, mem_map_direction_flatMap_orbit,
    hweight, weightWhere_flatMap_orbit]

theorem nodup_sphere (os : List (Ordinate ℝ)) : ((sphere os).map direction).Nodup :=
  nodup_merge _

theorem total_sphere (os : List (Ordinate ℝ)) : total (sphere os) = 8 * total os := by
  rw [sphere, total_merge, ← total_flatMap_orbit]
  exact ((images_perm_flatMap_orbit os).map _).sum_eq

theorem total_sphere_rows (octant : DirectionTable ℝ) :
    total (sphere octant.rows) = 8 * octant.wt.sum := by
  rw [total_sphere, total, octant.map_weight_rows]

theorem length_sphere {os : List (Ordinate ℝ)}
    (h : (os.map fun r => magnitudes r.direction).Nodup) :
    (sphere os).length = (os.map fun r => 2 ^ nonzeroCosines r).sum := by
  have hdirections : ((sphere os).map direction).toFinset =
      ((os.flatMap orbit).map direction).toFinset := by
    ext d
    rw [List.mem_toFinset, List.mem_toFinset, sphere, mem_map_direction_merge,
      ((images_perm_flatMap_orbit os).map direction).mem_iff]
  rw [← card_flatMap_orbit h, ← hdirections, List.toFinset_card_of_nodup (nodup_sphere os),
    List.length_map]

/-! ## Tables -/

theorem normalise_eq_ok {norm : ℝ} {os scaled : List (Ordinate ℝ)} :
    normalise norm os = .ok scaled ↔
      0 < total os ∧ scaled = os.map fun o => o.withWeight (o.weight * (norm / total os)) := by
  have hsum : Scalar.sum (os.map (·.weight)) = total os := Scalar.sum_real _
  rw [normalise, require_bind_eq_ok, hsum, Scalar.zero_real, not_le]
  exact and_congr_right fun _ => ⟨fun h => (Except.ok.inj h).symm, fun h => congrArg _ h.symm⟩

theorem table_eq_ok {layout : Layout} {levels : ℕ} {norm : ℝ} {octant t : DirectionTable ℝ}
    {openInterval : Bool} :
    table layout levels norm octant = .ok (t, openInterval) ↔
      check layout levels octant = .ok () ∧ reachesPole octant = .ok openInterval ∧
        0 < octant.wt.sum ∧
        t = .ofRows ((sphere octant.rows).map fun o =>
          o.withWeight (o.weight * (norm / (8 * octant.wt.sum)))) := by
  have htotal := total_sphere_rows octant
  rw [table, bind_eq_ok]
  constructor
  · rintro ⟨⟨⟩, hcheck, h⟩
    obtain ⟨reached, hreached, h⟩ := bind_eq_ok.mp h
    obtain ⟨scaled, hscaled, h⟩ := bind_eq_ok.mp h
    obtain ⟨hpos, rfl⟩ := normalise_eq_ok.mp hscaled
    obtain ⟨rfl, rfl⟩ := Prod.mk.inj (Except.ok.inj h)
    rw [htotal] at hpos
    refine ⟨hcheck, hreached, by linarith, ?_⟩
    rw [htotal]
  · rintro ⟨hcheck, hreached, hpos, rfl⟩
    refine ⟨(), hcheck, bind_eq_ok.mpr ⟨openInterval, hreached, bind_eq_ok.mpr ⟨_, ?_, rfl⟩⟩⟩
    rw [normalise_eq_ok, htotal]
    exact ⟨by linarith, rfl⟩

section

variable {layout : Layout} {levels : ℕ} {norm : ℝ} {octant t : DirectionTable ℝ}
  {openInterval : Bool} (h : table layout levels norm octant = .ok (t, openInterval))

include h

/-- The rows of a table that an octant reflects to: the directions with the
magnitudes of some row of the octant, each with the scaled weight of all images
that fall on it. -/
theorem mem_rows_of_table {o : Ordinate ℝ} :
    o ∈ t.rows ↔ (∃ r ∈ octant.rows, magnitudes r.direction = magnitudes o.direction) ∧
      o.weight = weightWhere (fun d => magnitudes d = magnitudes o.direction) octant.rows *
        2 ^ zeroCosines o * (norm / (8 * octant.wt.sum)) := by
  obtain ⟨-, -, -, rfl⟩ := table_eq_ok.mp h
  rw [DirectionTable.rows_ofRows, List.mem_map]
  constructor
  · rintro ⟨p, hp, rfl⟩
    obtain ⟨himage, hweight⟩ := mem_sphere_iff.mp hp
    exact ⟨himage, congrArg (· * (norm / (8 * octant.wt.sum))) hweight⟩
  · rintro ⟨himage, hweight⟩
    refine ⟨o.withWeight (weightWhere (fun d => magnitudes d = magnitudes o.direction) octant.rows *
      2 ^ zeroCosines o), mem_sphere_iff.mpr ⟨himage, rfl⟩, ?_⟩
    exact eq_of_direction_eq rfl hweight.symm

theorem mem_map_direction_of_table {d : Direction} :
    d ∈ t.rows.map direction ↔ ∃ r ∈ octant.rows, magnitudes r.direction = magnitudes d := by
  rw [List.mem_map]
  constructor
  · rintro ⟨o, ho, rfl⟩
    exact ((mem_rows_of_table h).mp ho).1
  · intro himage
    let o : Ordinate ℝ := ⟨d.1, d.2.1, d.2.2, 0⟩
    refine ⟨o.withWeight (weightWhere (fun d' => magnitudes d' = magnitudes d) octant.rows *
      2 ^ zeroCosines o * (norm / (8 * octant.wt.sum))), ?_, rfl⟩
    exact (mem_rows_of_table h).mpr ⟨himage, rfl⟩

theorem nodup_of_table : (t.rows.map direction).Nodup := by
  obtain ⟨-, -, -, rfl⟩ := table_eq_ok.mp h
  rw [DirectionTable.rows_ofRows, List.map_map]
  exact nodup_sphere octant.rows

theorem sum_wt_of_table : t.wt.sum = norm := by
  obtain ⟨-, -, hpos, rfl⟩ := table_eq_ok.mp h
  have htotal := total_sphere_rows octant
  have hscaled : total ((sphere octant.rows).map fun o =>
      o.withWeight (o.weight * (norm / (8 * octant.wt.sum)))) =
        total (sphere octant.rows) * (norm / (8 * octant.wt.sum)) := by
    rw [total, total, ← List.sum_map_mul_right, List.map_map]
    simp [Function.comp_def]
  rw [← DirectionTable.map_weight_rows, DirectionTable.rows_ofRows]
  refine hscaled.trans ?_
  rw [htotal]
  exact mul_div_cancel₀ _ (by linarith)

/-- Mirror images across an axis change places with each other. -/
theorem mirrored_perm_of_table (a : Axis) : (t.rows.map (mirrored a)).Perm t.rows := by
  have hmem : ∀ o, mirrored a o ∈ t.rows ↔ o ∈ t.rows := by
    intro o
    have hmagnitudes : magnitudes (mirrored a o).direction = magnitudes o.direction :=
      magnitudes_mirror a o.direction
    rw [mem_rows_of_table h, mem_rows_of_table h, hmagnitudes, zeroCosines_congr hmagnitudes,
      weight_mirrored]
  have hrows : t.rows.Nodup := (nodup_of_table h).of_map direction
  have hinjective : Function.Injective (mirrored a) := fun o p heq => by
    rw [← mirrored_mirrored a o, heq, mirrored_mirrored]
  -- Neither list repeats a row, so it is enough that they have the same members.
  rw [List.perm_ext_iff_of_nodup (hrows.map hinjective) hrows]
  intro o
  rw [List.mem_map]
  constructor
  · rintro ⟨p, hp, rfl⟩
    exact (hmem p).mpr hp
  · intro ho
    exact ⟨mirrored a o, (hmem o).mpr ho, mirrored_mirrored a o⟩

theorem firstMoment_of_table (i : Axis) : t.firstMoment i = 0 := by
  rw [t.firstMoment_real]
  exact sum_weight_mul_along_eq_zero (mirrored_perm_of_table h i)

theorem closesExactly_of_table :
    (⟨.octant levels layout openInterval, levels, norm, t⟩ : Quadrature ℝ).ClosesExactly where
  weight := (Scalar.sum_real t.wt).trans (sum_wt_of_table h)
  first i _ := firstMoment_of_table h i
  second hquadratics := by cases hquadratics

theorem reflect_mem_rows_of_table {s : Signs ℝ} (hs : s.AreSigns) {o : Ordinate ℝ}
    (ho : o ∈ t.rows) : reflect s o ∈ t.rows := by
  have hmagnitudes := magnitudes_reflect hs o
  rw [mem_rows_of_table h, hmagnitudes, zeroCosines_congr hmagnitudes]
  exact (mem_rows_of_table h).mp ho

theorem length_rows_of_table (hrows : (octant.rows.map fun r => magnitudes r.direction).Nodup) :
    t.rows.length = (octant.rows.map fun r => 2 ^ nonzeroCosines r).sum := by
  obtain ⟨-, -, -, rfl⟩ := table_eq_ok.mp h
  rw [DirectionTable.rows_ofRows, List.length_map, length_sphere hrows]

/-- Where rows differ in their magnitudes, an image carries the weight of its row
for every choice of signs of the zero cosines. -/
theorem reflect_mem_of_table (hrows : (octant.rows.map fun r => magnitudes r.direction).Nodup)
    {r : Ordinate ℝ} (hr : r ∈ octant.rows) {s : Signs ℝ} (hs : s.AreSigns) :
    (reflect s r).withWeight (r.weight * 2 ^ zeroCosines r * (norm / (8 * octant.wt.sum))) ∈
      t.rows := by
  have hmagnitudes := magnitudes_reflect hs r
  have hzero : zeroCosines ((reflect s r).withWeight (r.weight * 2 ^ zeroCosines r *
      (norm / (8 * octant.wt.sum)))) = zeroCosines r := zeroCosines_congr hmagnitudes
  rw [mem_rows_of_table h, direction_withWeight, weight_withWeight, hmagnitudes, hzero,
    weightWhere_eq_weight magnitudes hrows hr]
  exact ⟨⟨r, hr, rfl⟩, rfl⟩

end

/-- The set that is reflected from an octant is symmetric: its directions differ,
every change of signs takes them to directions of the same weight, the weights
sum to the norm, and the first moment vanishes, so that the set passes its
closure check if the norm is not negative. If the rows of the octant differ in
the magnitudes of their cosines, the number of directions is the number of their
images off the coordinate planes, and an image in such planes carries the
weight of all octants that share it. -/
theorem symmetric_of_table {layout : Layout} {levels : ℕ} {norm : ℝ} {octant t : DirectionTable ℝ}
    {openInterval : Bool} (h : table layout levels norm octant = .ok (t, openInterval)) :
    (t.rows.map direction).Nodup ∧
    (∀ s : Signs ℝ, s.AreSigns → ∀ o ∈ t.rows, reflect s o ∈ t.rows) ∧
    t.wt.sum = norm ∧
    (∀ i, t.firstMoment i = 0) ∧
    (0 ≤ norm →
      (⟨.octant levels layout openInterval, levels, norm, t⟩ : Quadrature ℝ).checkClosure =
        .ok ()) ∧
    ((octant.rows.map fun r => magnitudes r.direction).Nodup →
      t.rows.length = (octant.rows.map fun r => 2 ^ nonzeroCosines r).sum ∧
      ∀ r ∈ octant.rows, ∀ s : Signs ℝ, s.AreSigns →
        (reflect s r).withWeight (r.weight * 2 ^ zeroCosines r * (norm / (8 * octant.wt.sum))) ∈
          t.rows) := by
  refine ⟨nodup_of_table h, ?_, sum_wt_of_table h, firstMoment_of_table h, ?_, ?_⟩
  · intro s hs o ho
    exact reflect_mem_rows_of_table h hs ho
  · exact (closesExactly_of_table h).checkClosure_eq_ok
  · intro hrows
    refine ⟨length_rows_of_table h hrows, ?_⟩
    intro r hr s hs
    exact reflect_mem_of_table h hrows hr hs

/-- An octant of three directions: on an axis, in a coordinate plane and off all
of these planes. -/
noncomputable def graded : DirectionTable ℝ :=
  { mu := [1, 0.6, 0.48], eta := [0, 0, 0.6], xi := [0, 0.8, 0.64], wt := [0.5, 1, 1.5] }

theorem rows_graded : graded.rows = [⟨1, 0, 0, 0.5⟩, ⟨0.6, 0, 0.8, 1⟩, ⟨0.48, 0.6, 0.64, 1.5⟩] := by
  simp [graded, DirectionTable.rows, DirectionTable.row, List.range_succ]

theorem sum_wt_graded : graded.wt.sum = 3 := by
  norm_num [graded]

theorem check_graded : check .triangle 4 graded = .ok () := by
  rw [check_eq_ok]
  refine ⟨rfl, rfl, rfl, rfl, DirectionTable.checkWeights_eq_ok.mpr ?_, ?_⟩
  · norm_num [graded]
  · apply DirectionTable.checkDirections_eq_ok
    · intro heta
      cases heta
    · rw [rows_graded]
      norm_num [squaredLength, unitTolerance]
    · rw [rows_graded]
      norm_num

/-- The three directions have two, four and eight images. Of the second one each
stands for two octants. -/
theorem symmetric_of_table_graded :
    ∃ t openInterval, table .triangle 4 24 graded = .ok (t, openInterval) ∧
      t.rows.length = 14 ∧ t.wt.sum = 24 ∧ (⟨-0.6, 0, -0.8, 2⟩ : Ordinate ℝ) ∈ t.rows := by
  have hreached : reachesPole graded = .ok (decide (|(0 : ℝ) + 1| ≤ 1e-12)) := by
    rw [reachesPole_eq_ok]
    refine ⟨0, ?_, ?_, rfl⟩
    · norm_num [graded]
    · norm_num [graded]
  have hpos : 0 < graded.wt.sum := by
    rw [sum_wt_graded]
    norm_num
  obtain ⟨t, openInterval, htable⟩ :
      ∃ t openInterval, table .triangle 4 24 graded = .ok (t, openInterval) :=
    ⟨_, _, table_eq_ok.mpr ⟨check_graded, hreached, hpos, rfl⟩⟩
  have hrows : (graded.rows.map fun r => magnitudes r.direction).Nodup := by
    rw [rows_graded]
    norm_num [magnitudes, direction]
  have hsigns : (⟨-1, 1, -1⟩ : Signs ℝ).AreSigns := ⟨.inl rfl, .inr rfl, .inl rfl⟩
  obtain ⟨-, -, hsum, -, -, hdistinct⟩ := symmetric_of_table htable
  obtain ⟨hlength, himages⟩ := hdistinct hrows
  refine ⟨t, openInterval, htable, ?_, hsum, ?_⟩
  · rw [hlength, rows_graded]
    norm_num [nonzeroCosines, cosines]
  · have himage := himages ⟨0.6, 0, 0.8, 1⟩ (by simp [rows_graded]) _ hsigns
    rw [sum_wt_graded] at himage
    norm_num [reflect, withWeight, zeroCosines, cosines] at himage ⊢
    exact himage

end UserOctant

end DiscreteOrdinates
