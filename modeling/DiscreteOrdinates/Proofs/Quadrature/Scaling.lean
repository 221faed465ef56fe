import DiscreteOrdinates.Proofs.Quadrature.Angles

/-!
# Scaled sets

In exact arithmetic the norm of a set only scales its weights: the tables of all
families are linear in it, and the directions do not depend on it. Main statement:
two sets of one configuration whose norms differ by a factor are scaled by it
(`eq_scaled_of_build`).
-/

namespace DiscreteOrdinates

/-! ## Scaling -/

namespace Ordinate

/-- The ordinate with its weight multiplied by a factor. -/
def scaled (c : ℝ) (o : Ordinate ℝ) : Ordinate ℝ :=
  o.withWeight (c * o.weight)

@[simp] theorem x_scaled (c : ℝ) (o : Ordinate ℝ) : (o.scaled c).x = o.x := rfl
@[simp] theorem y_scaled (c : ℝ) (o : Ordinate ℝ) : (o.scaled c).y = o.y := rfl
@[simp] theorem z_scaled (c : ℝ) (o : Ordinate ℝ) : (o.scaled c).z = o.z := rfl
@[simp] theorem weight_scaled (c : ℝ) (o : Ordinate ℝ) : (o.scaled c).weight = c * o.weight := rfl

theorem scaled_inv_scaled {c : ℝ} (hc : c ≠ 0) (o : Ordinate ℝ) : (o.scaled c⁻¹).scaled c = o := by
  simp [scaled, withWeight, mul_inv_cancel_left₀ hc]

/-- Weights that are multiplied by a scaled number are scaled. -/
theorem map_withWeight_mul (c scale : ℝ) (os : List (Ordinate ℝ)) :
    (os.map fun o => o.withWeight (o.weight * (c * scale))) =
      (os.map fun o => o.withWeight (o.weight * scale)).map (scaled c) := by
  rw [List.map_map]
  refine List.map_congr_left fun o _ => ?_
  rw [Function.comp_apply, scaled, withWeight, mul_left_comm]
  rfl

end Ordinate

namespace DirectionTable

/-- The table with its weights multiplied by a factor. -/
def scaled (c : ℝ) (t : DirectionTable ℝ) : DirectionTable ℝ :=
  { t with wt := t.wt.map (c * ·) }

theorem ofRows_scaled (c : ℝ) (os : List (Ordinate ℝ)) :
    ofRows (os.map (Ordinate.scaled c)) = (ofRows os).scaled c := by
  simp only [ofRows, scaled, List.map_map]
  rfl

theorem rows_scaled (c : ℝ) (t : DirectionTable ℝ) :
    (t.scaled c).rows = t.rows.map (Ordinate.scaled c) := by
  have hweight : ∀ m, Scalar.nth (t.wt.map (c * ·)) m = c * Scalar.nth t.wt m := by
    intro m
    rw [Scalar.nth_real, Scalar.nth_real]
    nth_rewrite 1 [← mul_zero c]
    exact List.getD_map ..
  simp only [rows, scaled, List.length_map, List.map_map]
  refine List.map_congr_left fun m _ => ?_
  simp only [row, hweight]
  rfl

end DirectionTable

namespace Quadrature

/-- The set with its norm and its weights multiplied by a factor. -/
def scaled (c : ℝ) (q : Quadrature ℝ) : Quadrature ℝ :=
  { q with norm := c * q.norm, table := q.table.scaled c }

theorem scaled_inv_scaled {c : ℝ} (hc : c ≠ 0) (q : Quadrature ℝ) : (q.scaled c).scaled c⁻¹ = q := by
  simp [scaled, DirectionTable.scaled, Function.comp_def, inv_mul_cancel_left₀ hc]

theorem angles_scaled (c : ℝ) (q : Quadrature ℝ) : (q.scaled c).angles = q.angles :=
  List.length_map _

theorem ordinates_scaled (c : ℝ) (q : Quadrature ℝ) :
    (q.scaled c).ordinates = q.ordinates.map (Ordinate.scaled c) := by
  have harrange : ∀ o : Ordinate ℝ,
      arrange q.dimension (o.scaled c) = (arrange q.dimension o).scaled c := by
    intro o
    unfold arrange
    split <;> rfl
  show (q.table.scaled c).rows.map (arrange q.dimension) = _
  rw [DirectionTable.rows_scaled, ordinates, List.map_map, List.map_map]
  exact List.map_congr_left fun o _ => harrange o

end Quadrature

/-! ## Tables of the families -/

namespace IntervalRule

theorem toTable_mul (rule : IntervalRule ℝ) (c norm : ℝ) :
    rule.toTable (c * norm) = (rule.toTable norm).scaled c := by
  simp only [toTable, DirectionTable.scaled, List.map_map]
  congr
  funext w
  rw [Function.comp_apply, mul_div_assoc, mul_left_comm]

theorem toDoubleTable_mul (rule : IntervalRule ℝ) (c norm : ℝ) :
    rule.toDoubleTable (c * norm) = (rule.toDoubleTable norm).scaled c := by
  have hweight : (fun w => 0.5 * w * (c * norm / 2.0)) =
      (c * ·) ∘ fun w : ℝ => 0.5 * w * (norm / 2.0) := by
    funext w
    rw [Function.comp_apply, mul_div_assoc, mul_left_comm]
  simp only [toDoubleTable, DirectionTable.scaled, hweight, List.map_append, List.map_reverse,
    List.map_map]

theorem doubleGaussTable_mul (order : ℕ) (c norm : ℝ) :
    doubleGaussTable order (c * norm) =
      (doubleGaussTable order norm).map (DirectionTable.scaled c) := by
  unfold doubleGaussTable doubleGaussTableWith require
  split
  · cases gaussLegendre (R := ℝ) (order / 2) with
    | error e => rfl
    | ok rule => exact congrArg Except.ok (rule.toDoubleTable_mul c norm)
  · rfl

end IntervalRule

namespace ChebyshevLegendre

theorem ofRule_mul (order : ℕ) (rule : IntervalRule ℝ) (c norm : ℝ) :
    ofRule order rule (c * norm) = (ofRule order rule norm).scaled c := by
  have hlevel : ∀ eta w : ℝ,
      level order eta (w * (c * norm / (2.0 * Scalar.pi) * Scalar.pi / (order : ℕ))) =
        (level order eta (w * (norm / (2.0 * Scalar.pi) * Scalar.pi / (order : ℕ)))).map
          (Ordinate.scaled c) := by
    intro eta w
    simp only [level, List.map_map]
    refine List.map_congr_left fun j _ => ?_
    simp only [Function.comp_apply, Ordinate.scaled, Ordinate.withWeight]
    rw [mul_div_assoc c, mul_assoc c, mul_div_assoc c, mul_left_comm]
  simp only [ofRule, hlevel]
  rw [← DirectionTable.ofRows_scaled, List.map_flatMap]

theorem table_mul (order : ℕ) (c norm : ℝ) :
    table order (c * norm) = (table order norm).map (DirectionTable.scaled c) := by
  unfold table tableWith require
  split
  · cases IntervalRule.gaussLegendre (R := ℝ) order with
    | error e => rfl
    | ok rule => exact congrArg Except.ok (ofRule_mul order rule c norm)
  · rfl

end ChebyshevLegendre

namespace LevelSymmetric

theorem reflect_mul (xiSigns : List ℝ) (c scale : ℝ) (os : List (Ordinate ℝ)) :
    reflect xiSigns (c * scale) os = (reflect xiSigns scale os).scaled c := by
  rw [reflect, reflect, ← DirectionTable.ofRows_scaled, Ordinate.map_withWeight_mul]

theorem planeTable_mul (os : List (Ordinate ℝ)) (c norm : ℝ) :
    planeTable os (c * norm) = (planeTable os norm).scaled c := by
  rw [planeTable, mul_div_assoc, reflect_mul]
  rfl

theorem spaceTable_mul (os : List (Ordinate ℝ)) (c norm : ℝ) :
    spaceTable os (c * norm) = (spaceTable os norm).scaled c := by
  rw [spaceTable, mul_div_assoc, reflect_mul]
  rfl

end LevelSymmetric

namespace UserOctant

theorem normalise_mul (c norm : ℝ) (os : List (Ordinate ℝ)) :
    normalise (c * norm) os = (normalise norm os).map (List.map (Ordinate.scaled c)) := by
  unfold normalise require
  dsimp only
  split
  · rw [mul_div_assoc]
    exact congrArg Except.ok (Ordinate.map_withWeight_mul _ _ _)
  · rfl

theorem table_mul (layout : Layout) (levels : ℕ) (c norm : ℝ) (octant : DirectionTable ℝ) :
    table layout levels (c * norm) octant =
      (table layout levels norm octant).map fun (t, openInterval) => (t.scaled c, openInterval) := by
  unfold table
  rw [normalise_mul]
  cases check layout levels octant with
  | error e => rfl
  | ok _ =>
    cases reachesPole octant with
    | error e => rfl
    | ok reached =>
      cases normalise norm (sphere octant.rows) with
      | error e => rfl
      | ok os =>
        exact congrArg (fun t => Except.ok (t, reached)) (DirectionTable.ofRows_scaled c os)

end UserOctant

/-! ## Sets -/

namespace Quadrature

/-- Two sets that pass their checks are scaled if their tables are. -/
theorem eq_scaled_of_checked {kind : SetKind} {order : ℕ} {c norm : ℝ} {t t' : DirectionTable ℝ}
    {q q' : Quadrature ℝ} (ht : t' = t.scaled c) (h : checked ⟨kind, order, norm, t⟩ = .ok q)
    (h' : checked ⟨kind, order, c * norm, t'⟩ = .ok q') : q' = q.scaled c := by
  rw [← eq_of_checked h, ← eq_of_checked h', ht]
  rfl

section

variable {c s : ℝ} {q q' : Quadrature ℝ}

theorem eq_scaled_of_gaussLegendre {order : ℕ} (h : gaussLegendre order (some s) = .ok q)
    (h' : gaussLegendre order (some (c * s)) = .ok q') : q' = q.scaled c := by
  obtain ⟨rule, hrule, h⟩ := bind_eq_ok.mp h
  obtain ⟨rule', hrule', h'⟩ := bind_eq_ok.mp h'
  obtain rfl : rule = rule' := Except.ok.inj (hrule.symm.trans hrule')
  exact eq_scaled_of_checked (rule.toTable_mul c s) h h'

theorem eq_scaled_of_doubleGauss {order : ℕ} (h : doubleGauss order (some s) = .ok q)
    (h' : doubleGauss order (some (c * s)) = .ok q') : q' = q.scaled c := by
  obtain ⟨t, ht, h⟩ := bind_eq_ok.mp h
  obtain ⟨t', ht', h'⟩ := bind_eq_ok.mp h'
  have htable := IntervalRule.doubleGaussTable_mul order c s
  rw [show IntervalRule.doubleGaussTable order s = .ok t from ht] at htable
  exact eq_scaled_of_checked (Except.ok.inj (ht'.symm.trans htable)) h h'

theorem eq_scaled_of_squareChebyshevLegendre {order : ℕ}
    (h : squareChebyshevLegendre order (some s) = .ok q)
    (h' : squareChebyshevLegendre order (some (c * s)) = .ok q') : q' = q.scaled c := by
  obtain ⟨t, ht, h⟩ := bind_eq_ok.mp h
  obtain ⟨t', ht', h'⟩ := bind_eq_ok.mp h'
  have htable := ChebyshevLegendre.table_mul order c s
  rw [show ChebyshevLegendre.table order s = .ok t from ht] at htable
  exact eq_scaled_of_checked (Except.ok.inj (ht'.symm.trans htable)) h h'

theorem eq_scaled_of_levelSymmetric [MatrixSolver ℝ] {order dimension : ℕ}
    (h : levelSymmetric order dimension (some s) = .ok q)
    (h' : levelSymmetric order dimension (some (c * s)) = .ok q') : q' = q.scaled c := by
  unfold levelSymmetric at h h'
  split at h
  · obtain ⟨os, hos, h⟩ := bind_eq_ok.mp h
    obtain ⟨os', hos', h'⟩ := bind_eq_ok.mp h'
    obtain rfl : os = os' := Except.ok.inj (hos.symm.trans hos')
    exact eq_scaled_of_checked (LevelSymmetric.planeTable_mul os c s) h h'
  · obtain ⟨os, hos, h⟩ := bind_eq_ok.mp h
    obtain ⟨os', hos', h'⟩ := bind_eq_ok.mp h'
    obtain rfl : os = os' := Except.ok.inj (hos.symm.trans hos')
    exact eq_scaled_of_checked (LevelSymmetric.spaceTable_mul os c s) h h'
  · cases h

theorem eq_scaled_of_octant {table : DirectionTable ℝ} {levels : ℕ} {layout : Layout}
    (h : octant table levels layout (some s) = .ok q)
    (h' : octant table levels layout (some (c * s)) = .ok q') : q' = q.scaled c := by
  obtain ⟨⟨t, openInterval⟩, ht, h⟩ := bind_eq_ok.mp h
  obtain ⟨⟨t', openInterval'⟩, ht', h'⟩ := bind_eq_ok.mp h'
  have htable := UserOctant.table_mul layout levels c s table
  rw [show UserOctant.table layout levels s table = .ok (t, openInterval) from ht] at htable
  obtain ⟨rfl, rfl⟩ := Prod.mk.inj (Except.ok.inj (ht'.symm.trans htable))
  exact eq_scaled_of_checked rfl h h'

/-- Of a set that the user does not supply completely the norm only scales the
weights. -/
theorem eq_scaled_of_build [MatrixSolver ℝ] {d : Configuration ℝ}
    (hlayout : d.family = .general → d.layout ≠ none)
    (h : { d with norm := some s }.build = .ok q)
    (h' : { d with norm := some (c * s) }.build = .ok q') : q' = q.scaled c := by
  unfold Configuration.build at h h'
  cases hfamily : d.family with
  | gaussLegendre =>
    simp only [hfamily] at h h'
    exact eq_scaled_of_gaussLegendre (check_bind_eq_ok.mp h).2 (check_bind_eq_ok.mp h').2
  | doubleGauss =>
    simp only [hfamily] at h h'
    exact eq_scaled_of_doubleGauss (check_bind_eq_ok.mp h).2 (check_bind_eq_ok.mp h').2
  | squareChebyshevLegendre =>
    simp only [hfamily] at h h'
    exact eq_scaled_of_squareChebyshevLegendre (check_bind_eq_ok.mp h).2 (check_bind_eq_ok.mp h').2
  | levelSymmetric =>
    simp only [hfamily] at h h'
    exact eq_scaled_of_levelSymmetric h h'
  | general =>
    cases hordinates : d.ordinates with
    | none =>
      simp only [hfamily, hordinates] at h
      cases h
    | some table =>
      cases hsome : d.layout with
      | none => exact absurd hsome (hlayout hfamily)
      | some layout =>
        simp only [hfamily, hordinates, hsome] at h h'
        exact eq_scaled_of_octant (check_bind_eq_ok.mp h).2 (check_bind_eq_ok.mp h').2

end

end Quadrature

end DiscreteOrdinates
