import DiscreteOrdinates.Proofs.FloatScalar
import DiscreteOrdinates.Proofs.Quadrature.UserTable

/-!
# Acceptance of user tables

Which tables of a user are accepted as complete sets, and what is stored of them. In the
plane the `xi` column may be left out: it then takes the cosines that complete the others to
unit vectors, as if they had been supplied. Main statement: `checked_eq_ok_iff_isUserSet`.
-/

namespace DiscreteOrdinates

theorem pure_eq_ok {ε α : Type} {a b : α} : (pure a : Except ε α) = .ok b ↔ b = a :=
  ⟨fun h => (Except.ok.inj h).symm, fun h => congrArg Except.ok h.symm⟩

theorem softEq_iff {value reference precision : ℝ} :
    softEq value reference precision = true ↔
      |value - reference| ≤ precision * |reference| ∨
        (|reference| < 1e-14 ∧ |value| < precision) := by
  unfold softEq zeroThreshold
  split
  next h => exact iff_of_true rfl (.inl h)
  next h =>
    rw [Bool.and_eq_true, decide_eq_true_iff, decide_eq_true_iff]
    exact (or_iff_right h).symm

namespace DirectionTable

/-! ## Conditions -/

/-- The cosine out of the plane that makes a unit vector of the two in it, or zero where
these are too long already. -/
noncomputable def outOfPlane (mu eta : ℝ) : ℝ :=
  √(max 0 (1 - mu ^ 2 - eta ^ 2))

/-- What is kept of a table: on a line there is no `eta` and no `xi`, and in the plane an
empty `xi` is completed. -/
noncomputable def stored (dimension : ℕ) (t : DirectionTable ℝ) : DirectionTable ℝ :=
  if dimension = 1 then { mu := t.mu, wt := t.wt }
  else if dimension = 2 ∧ t.xi = [] then { t with xi := t.mu.zipWith outOfPlane t.eta }
  else t

/-- The columns that a set of some dimension needs are there, with as many entries as `mu`. -/
structure FitsDimension (dimension : ℕ) (t : DirectionTable ℝ) : Prop where
  dimension_mem : dimension = 1 ∨ dimension = 2 ∨ dimension = 3
  length_eta : dimension ≠ 1 → t.eta.length = t.mu.length
  length_xi : dimension ≠ 1 → t.xi.length = t.mu.length ∨ (dimension = 2 ∧ t.xi = [])

/-- The squared length of every row is one, up to the tolerance for directions. -/
def HasUnitRows (t : DirectionTable ℝ) : Prop :=
  ∀ o ∈ t.rows, |o.x ^ 2 + o.y ^ 2 + o.z ^ 2 - 1| ≤ 1e-8

/-- A table that describes a set of some dimension and norm. -/
structure IsUserSet (dimension : ℕ) (norm : ℝ) (t : DirectionTable ℝ) : Prop where
  mu_ne_nil : t.mu ≠ []
  length_wt : t.wt.length = t.mu.length
  isWeight : ∀ w ∈ t.wt, Ordinate.IsWeight w
  columns : t.FitsDimension dimension
  cosines : dimension = 1 → ∀ x ∈ t.mu, x ≠ 0 ∧ -1 ≤ x ∧ x ≤ 1
  directions : dimension ≠ 1 → (t.stored dimension).HasUnitRows
  total : |t.wt.sum - norm| ≤ 1e-10 * |norm| ∨ (|norm| < 1e-14 ∧ |t.wt.sum| < 1e-10)

/-! ## Columns -/

theorem completion_real : (completion : ℝ → ℝ → ℝ) = outOfPlane := by
  funext mu eta
  rw [completion, outOfPlane, Scalar.positivePart_real, Scalar.one_real, max_comm, pow_two,
    pow_two]
  rfl

@[simp] theorem mu_stored (dimension : ℕ) (t : DirectionTable ℝ) :
    (t.stored dimension).mu = t.mu := by
  unfold stored
  split_ifs <;> rfl

@[simp] theorem wt_stored (dimension : ℕ) (t : DirectionTable ℝ) :
    (t.stored dimension).wt = t.wt := by
  unfold stored
  split_ifs <;> rfl

theorem eta_stored (dimension : ℕ) (t : DirectionTable ℝ) :
    (t.stored dimension).eta = if dimension = 1 then [] else t.eta := by
  unfold stored
  split_ifs <;> rfl

theorem stored_of_xi_eq_nil {t : DirectionTable ℝ} (h : t.xi = []) :
    t.stored 2 = { t with xi := t.mu.zipWith outOfPlane t.eta } := by
  rw [stored, if_neg (by decide), if_pos ⟨rfl, h⟩]

theorem stored_of_xi_ne_nil {t : DirectionTable ℝ} (h : t.xi ≠ []) : t.stored 2 = t := by
  rw [stored, if_neg (by decide), if_neg (not_and_of_not_right _ h)]

theorem carried_plane_iff {t s : DirectionTable ℝ} :
    t.carried 2 = .ok s ↔ t.eta.length = t.mu.length ∧
      if t.xi = [] then s = { t with xi := t.mu.zipWith outOfPlane t.eta }
      else t.xi.length = t.mu.length ∧ s = t := by
  refine require_bind_eq_ok.trans (and_congr_right fun _ => ?_)
  rw [completion_real]
  by_cases hxi : t.xi = []
  · rw [if_pos hxi, if_pos (List.isEmpty_iff.mpr hxi)]
    exact pure_eq_ok
  · rw [if_neg hxi, if_neg (mt List.isEmpty_iff.mp hxi)]
    exact require_bind_eq_ok.trans (and_congr_right fun _ => pure_eq_ok)

theorem carried_space_iff {t s : DirectionTable ℝ} :
    t.carried 3 = .ok s ↔
      t.eta.length = t.mu.length ∧ t.xi.length = t.mu.length ∧ s = t := by
  refine require_bind_eq_ok.trans (and_congr_right fun _ => ?_)
  exact require_bind_eq_ok.trans (and_congr_right fun _ => pure_eq_ok)

/-- The columns that are carried are those that are stored. -/
theorem carried_eq_ok_iff {dimension : ℕ} {t s : DirectionTable ℝ} :
    t.carried dimension = .ok s ↔ t.FitsDimension dimension ∧ s = t.stored dimension := by
  constructor
  · intro h
    obtain rfl | rfl | rfl : dimension = 1 ∨ dimension = 2 ∨ dimension = 3 := by
      unfold carried at h
      split at h
      · exact .inl rfl
      · exact .inr (.inl rfl)
      · exact .inr (.inr rfl)
      · cases h
    · exact ⟨⟨.inl rfl, nofun, nofun⟩, pure_eq_ok.mp h⟩
    · obtain ⟨heta, h⟩ := carried_plane_iff.mp h
      split at h
      next hnil =>
        exact ⟨⟨.inr (.inl rfl), fun _ => heta, fun _ => .inr ⟨rfl, hnil⟩⟩,
          h.trans (stored_of_xi_eq_nil hnil).symm⟩
      next hne =>
        exact ⟨⟨.inr (.inl rfl), fun _ => heta, fun _ => .inl h.1⟩,
          h.2.trans (stored_of_xi_ne_nil hne).symm⟩
    · obtain ⟨heta, hxi, rfl⟩ := carried_space_iff.mp h
      exact ⟨⟨.inr (.inr rfl), fun _ => heta, fun _ => .inl hxi⟩, rfl⟩
  · rintro ⟨⟨rfl | rfl | rfl, heta, hxi⟩, rfl⟩
    · rfl
    · have hne : 2 ≠ 1 := by decide
      refine carried_plane_iff.mpr ⟨heta hne, ?_⟩
      split
      next hnil => exact stored_of_xi_eq_nil hnil
      next hnonempty =>
        exact ⟨(hxi hne).resolve_right (not_and_of_not_right _ hnonempty),
          stored_of_xi_ne_nil hnonempty⟩
    · have hne : 3 ≠ 1 := by decide
      exact carried_space_iff.mpr
        ⟨heta hne, (hxi hne).resolve_right (not_and_of_not_left _ (by decide)), rfl⟩

/-! ## Completed directions -/

/-- The rows of a completed table lie as far out of the plane as their other cosines ask. -/
theorem z_of_mem_rows {t : DirectionTable ℝ} (hmu : t.mu.length = t.wt.length)
    (heta : t.eta.length = t.wt.length) (hxi : t.xi = t.mu.zipWith outOfPlane t.eta)
    {o : Ordinate ℝ} (ho : o ∈ t.rows) : o.z = outOfPlane o.x o.y := by
  have hz : t.rows.map (·.z) = t.rows.map fun o => outOfPlane o.x o.y :=
    calc
      t.rows.map (·.z) = t.xi := map_z_rows (by rw [hxi, List.length_zipWith, hmu, heta, min_self])
      _ = t.mu.zipWith outOfPlane t.eta := hxi
      _ = (t.rows.map (·.x)).zipWith outOfPlane (t.rows.map (·.y)) := by
        rw [map_x_rows hmu, map_y_rows heta]
      _ = t.rows.map fun o => outOfPlane o.x o.y := by rw [List.zipWith_map, List.zipWith_self]
  exact List.map_inj_left.mp hz o ho

/-- A completed direction is only refused for being too long in the plane. -/
theorem abs_completed_sub_one_le_iff (mu eta : ℝ) :
    |mu ^ 2 + eta ^ 2 + outOfPlane mu eta ^ 2 - 1| ≤ 1e-8 ↔ mu ^ 2 + eta ^ 2 ≤ 1 + 1e-8 := by
  have hsquare : outOfPlane mu eta ^ 2 = max 0 (1 - mu ^ 2 - eta ^ 2) :=
    Real.sq_sqrt (le_max_left _ _)
  have htolerance : (0 : ℝ) ≤ 1e-8 := by norm_num
  rw [hsquare]
  rcases le_total (mu ^ 2 + eta ^ 2) 1 with hshort | hlong
  · have hunit : mu ^ 2 + eta ^ 2 + max 0 (1 - mu ^ 2 - eta ^ 2) - 1 = 0 := by
      rw [max_eq_right (by linarith)]
      ring
    rw [hunit, abs_zero]
    exact iff_of_true htolerance (by linarith)
  · have hexcess : mu ^ 2 + eta ^ 2 + max 0 (1 - mu ^ 2 - eta ^ 2) - 1 = mu ^ 2 + eta ^ 2 - 1 := by
      rw [max_eq_left (by linarith)]
      ring
    rw [hexcess, abs_of_nonneg (by linarith)]
    exact sub_le_iff_le_add'

theorem hasUnitRows_iff_inPlane {t : DirectionTable ℝ} (hmu : t.mu.length = t.wt.length)
    (heta : t.eta.length = t.wt.length) (hxi : t.xi = t.mu.zipWith outOfPlane t.eta) :
    t.HasUnitRows ↔ ∀ p ∈ t.mu.zip t.eta, p.1 ^ 2 + p.2 ^ 2 ≤ 1 + 1e-8 := by
  have hpairs : t.mu.zip t.eta = t.rows.map fun o => (o.x, o.y) := by
    rw [← List.zip_map', map_x_rows hmu, map_y_rows heta]
  rw [hpairs, List.forall_mem_map]
  refine forall₂_congr fun o ho => ?_
  rw [z_of_mem_rows hmu heta hxi ho]
  exact abs_completed_sub_one_le_iff o.x o.y

/-- Without a `xi` column the test of the directions looks at the plane only. -/
theorem hasUnitRows_stored_iff {t : DirectionTable ℝ} (hxi : t.xi = [])
    (hmu : t.mu.length = t.wt.length) (heta : t.eta.length = t.wt.length) :
    (t.stored 2).HasUnitRows ↔ ∀ p ∈ t.mu.zip t.eta, p.1 ^ 2 + p.2 ^ 2 ≤ 1 + 1e-8 := by
  rw [stored_of_xi_eq_nil hxi]
  exact hasUnitRows_iff_inPlane hmu heta rfl

/-! ## Acceptance -/

theorem eta_stored_eq_nil_iff {dimension : ℕ} {t : DirectionTable ℝ} (hmu : t.mu ≠ [])
    (hcolumns : t.FitsDimension dimension) : (t.stored dimension).eta = [] ↔ dimension = 1 := by
  rw [eta_stored]
  split
  next h => exact iff_of_true rfl h
  next h =>
    have hlength : t.eta.length ≠ 0 :=
      hcolumns.length_eta h ▸ mt List.length_eq_zero_iff.mp hmu
    exact iff_of_false (mt List.length_eq_zero_iff.mpr hlength) h

/-- On a line the directions are tested by their only cosine, otherwise by their length. -/
theorem checkDirections_stored_iff {dimension : ℕ} {t : DirectionTable ℝ} (hmu : t.mu ≠ [])
    (hwt : t.wt.length = t.mu.length) (hweights : ∀ w ∈ t.wt, 0 ≤ w)
    (hcolumns : t.FitsDimension dimension) :
    (t.stored dimension).checkDirections = .ok () ↔
      (dimension = 1 → ∀ x ∈ t.mu, x ≠ 0 ∧ -1 ≤ x ∧ x ≤ 1) ∧
        (dimension ≠ 1 → (t.stored dimension).HasUnitRows) := by
  have hweight : ∀ o ∈ (t.stored dimension).rows, 0 ≤ o.weight := by
    rwa [← List.forall_mem_map, map_weight_rows, wt_stored]
  have htest : (t.stored dimension).checkDirections = .ok () ↔
      ∀ o ∈ (t.stored dimension).rows, if dimension = 1 then o.x ≠ 0 ∧ |o.x| ≤ 1
        else |Ordinate.squaredLength o.x o.y o.z - 1| ≤ Ordinate.unitTolerance := by
    refine checkDirections_eq_ok_iff.trans (forall₂_congr fun o ho => ?_)
    simp only [and_iff_right (hweight o ho), eta_stored_eq_nil_iff hmu hcolumns]
  rw [htest]
  by_cases hdimension : dimension = 1
  · have hx : (t.stored dimension).rows.map (·.x) = t.mu := by
      rw [map_x_rows (by rw [mu_stored, wt_stored, hwt]), mu_stored]
    simp only [hdimension, if_true, ne_eq, not_true, false_imp_iff, and_true, true_imp_iff]
    rw [← hdimension, ← hx, List.forall_mem_map]
    simp only [abs_le]
  · simp only [hdimension, if_false, ne_eq, not_false_eq_true, false_imp_iff, true_and,
      true_imp_iff, HasUnitRows, Ordinate.squaredLength, Ordinate.unitTolerance, pow_two]

/-- Weights that may be infinite or undefined are tested for that as well. -/
theorem checkWeights_eq_ok_float {wt : List Float} :
    checkWeights wt = .ok () ↔ ∀ w ∈ wt, Ordinate.IsWeight w := by
  refine checkWeights_eq_ok_iff.trans (forall₂_congr fun w _ => and_congr_right fun hw => ?_)
  exact Scalar.float_not_lt_iff_le (Scalar.isNaN_of_isFinite hw) rfl

/-- The cosines that complete a table may as well be supplied. -/
theorem carried_completed (t : DirectionTable ℝ) :
    ({ t with xi := [] } : DirectionTable ℝ).carried 2 =
      ({ t with xi := t.mu.zipWith outOfPlane t.eta } : DirectionTable ℝ).carried 2 := by
  simp only [carried, completion_real, List.isEmpty_nil, if_true]
  by_cases heta : t.eta.length = t.mu.length
  · have hlength : (t.mu.zipWith outOfPlane t.eta).length = t.mu.length := by
      rw [List.length_zipWith, heta, min_self]
    have hcheck : checkLength .xi (t.mu.zipWith outOfPlane t.eta) t.mu.length =
        (.ok () : Except (QuadratureError ℝ) Unit) := if_pos hlength
    rw [hcheck]
    split <;> rfl
  · rw [checkLength, require, if_neg heta]
    rfl

theorem checked_completed (norm : ℝ) (t : DirectionTable ℝ) :
    ({ t with xi := [] } : DirectionTable ℝ).checked 2 norm =
      ({ t with xi := t.mu.zipWith outOfPlane t.eta } : DirectionTable ℝ).checked 2 norm := by
  simp only [checked, prepared, carried_completed]

/-- A table is accepted exactly if it describes a set, and then what is stored differs from
it in the columns that a line does not have and in a `xi` that was left out. Leaving it out
asks for nothing but pairs of cosines that are not too long, and comes to the same as
supplying the cosines that complete them. -/
theorem checked_eq_ok_iff_isUserSet (dimension : ℕ) (norm : ℝ) (t : DirectionTable ℝ) :
    (∀ s, t.checked dimension norm = .ok s ↔
      t.IsUserSet dimension norm ∧ s = t.stored dimension) ∧
    (∀ wt : List Float, checkWeights wt = .ok () ↔ ∀ w ∈ wt, Ordinate.IsWeight w) ∧
    (t.xi = [] → t.mu.length = t.wt.length → t.eta.length = t.wt.length →
      ((t.stored 2).HasUnitRows ↔ ∀ p ∈ t.mu.zip t.eta, p.1 ^ 2 + p.2 ^ 2 ≤ 1 + 1e-8)) ∧
    ({ t with xi := [] } : DirectionTable ℝ).checked 2 norm =
      ({ t with xi := t.mu.zipWith (fun mu eta => √(max 0 (1 - mu ^ 2 - eta ^ 2))) t.eta } :
        DirectionTable ℝ).checked 2 norm := by
  refine ⟨fun s => ?_, fun _ => checkWeights_eq_ok_float, hasUnitRows_stored_iff,
    checked_completed norm t⟩
  rw [checked_eq_ok, carried_eq_ok_iff, checkWeights_eq_ok]
  constructor
  · rintro ⟨hmu, hwt, hweights, ⟨hcolumns, rfl⟩, hdirections, hsum⟩
    obtain ⟨hcosines, hunit⟩ :=
      (checkDirections_stored_iff hmu hwt hweights hcolumns).mp hdirections
    rw [wt_stored, Scalar.sum_real, softEq_iff] at hsum
    have hweights : ∀ w ∈ t.wt, Ordinate.IsWeight w := fun w hw =>
      Ordinate.isWeight_real.mpr (hweights w hw)
    exact ⟨⟨hmu, hwt, hweights, hcolumns, hcosines, hunit, hsum⟩, rfl⟩
  · rintro ⟨⟨hmu, hwt, hweights, hcolumns, hcosines, hunit, htotal⟩, rfl⟩
    have hweights : ∀ w ∈ t.wt, 0 ≤ w := fun w hw => Ordinate.isWeight_real.mp (hweights w hw)
    refine ⟨hmu, hwt, hweights, ⟨hcolumns, rfl⟩, ?_, ?_⟩
    · exact (checkDirections_stored_iff hmu hwt hweights hcolumns).mpr ⟨hcosines, hunit⟩
    · rwa [wt_stored, Scalar.sum_real, softEq_iff]

/-- Two directions in the plane, whose cosines out of it are left out. -/
theorem checked_eq_ok_iff_isUserSet_pair :
    let t : DirectionTable ℝ := { mu := [0.6, -0.6], eta := [0, 0], wt := [1, 1] }
    t.IsUserSet 2 2.0 ∧ t.checked 2 2.0 = .ok { t with xi := [0.8, 0.8] } := by
  intro t
  obtain ⟨haccept, -, hplane, -⟩ := checked_eq_ok_iff_isUserSet 2 2.0 t
  have hunit : (t.stored 2).HasUnitRows := by
    refine (hplane rfl rfl rfl).mpr ?_
    norm_num [t]
  have hset : t.IsUserSet 2 2.0 :=
    { mu_ne_nil := by simp [t]
      length_wt := rfl
      isWeight := by simp [t, Ordinate.isWeight_real]
      columns := ⟨.inr (.inl rfl), fun _ => rfl, fun _ => .inr ⟨rfl, rfl⟩⟩
      cosines := nofun
      directions := fun _ => hunit
      total := by norm_num [t] }
  refine ⟨hset, (haccept _).mpr ⟨hset, ?_⟩⟩
  rw [stored_of_xi_eq_nil rfl]
  norm_num [t, outOfPlane]

end DirectionTable

end DiscreteOrdinates
