import DiscreteOrdinates.Proofs.Quadrature.IntervalSets
import DiscreteOrdinates.Proofs.Sweep.Arrangement
import DiscreteOrdinates.Proofs.Sweep.Mirror
import DiscreteOrdinates.Quadrature.ChebyshevLegendre

/-!
# Product sets

Sums over the azimuths of a level, and the square set that has these azimuths on
every level of a Gauss-Legendre rule. Main statement: `closesExactly_ofRule`.
-/

namespace DiscreteOrdinates

namespace ChebyshevLegendre

open Finset

/-! ## Azimuths -/

theorem azimuth_real (order j : ℕ) :
    (azimuth order j : ℝ) = ((j : ℝ) + 1 / 2) * Real.pi / order := by
  rw [azimuth, Scalar.natCast_real, Scalar.natCast_real, Scalar.pi_real]
  norm_num

/-- Up to degree `2 N`, the cosines of multiples of the `N` azimuths cancel. -/
theorem sum_cos_mul_azimuth {order k : ℕ} (hk : 0 < k) (hdegree : k < 2 * order) :
    ∑ j ∈ range order, Real.cos (k * azimuth order j) = 0 := by
  have hk' : (0 : ℝ) < k := by exact_mod_cast hk
  have horder : (0 : ℝ) < order := by exact_mod_cast (by omega : 0 < order)
  have hdegree' : (k : ℝ) < 2 * order := by exact_mod_cast hdegree
  have hsin : Real.sin (k * Real.pi / order / 2) ≠ 0 := by
    refine (Real.sin_pos_of_pos_of_lt_pi (by positivity) ?_).ne'
    rw [div_div, div_lt_iff₀ (by positivity)]
    linarith [mul_lt_mul_of_pos_right hdegree' Real.pi_pos]
  -- The closed form has the factor `sin (k π / 2) cos (k π / 2)`, half of `sin (k π)`.
  have hsum := Real.sin_mul_sum_cos order (k * Real.pi / order) (k * Real.pi / order / 2)
  have hhalf : (order : ℝ) * (k * Real.pi / order) / 2 = k * Real.pi / 2 := by
    field_simp
  have hmiddle : ((order : ℝ) - 1) * (k * Real.pi / order) / 2 + k * Real.pi / order / 2 =
      k * Real.pi / 2 := by
    field_simp
    ring
  have hvanish : Real.sin (k * Real.pi / 2) * Real.cos (k * Real.pi / 2) = 0 := by
    have hdouble := Real.sin_two_mul (k * Real.pi / 2)
    rw [mul_div_cancel₀ _ two_ne_zero, Real.sin_nat_mul_pi] at hdouble
    linarith
  rw [hhalf, hmiddle, hvanish] at hsum
  rw [← (mul_eq_zero_iff_left hsin).mp hsum]
  refine sum_congr rfl fun j _ => congrArg Real.cos ?_
  rw [azimuth_real]
  ring

theorem sum_cos_azimuth {order : ℕ} (horder : 0 < order) :
    ∑ j ∈ range order, Real.cos (azimuth order j) = 0 := by
  have h := sum_cos_mul_azimuth one_pos (by omega : 1 < 2 * order)
  simpa only [Nat.cast_one, one_mul] using h

theorem sum_cos_sq_azimuth {order : ℕ} (horder : 2 ≤ order) :
    ∑ j ∈ range order, Real.cos (azimuth order j) ^ 2 = order / 2 := by
  have htwice : ∑ j ∈ range order, Real.cos (2 * azimuth order j) = 0 := by
    exact_mod_cast sum_cos_mul_azimuth two_pos (by omega : 2 < 2 * order)
  simp only [Real.cos_sq, sum_add_distrib, ← sum_div, htwice, sum_const, card_range,
    nsmul_eq_mul]
  ring

theorem sum_sin_sq_azimuth {order : ℕ} (horder : 2 ≤ order) :
    ∑ j ∈ range order, Real.sin (azimuth order j) ^ 2 = order / 2 := by
  simp only [Real.sin_sq, sum_sub_distrib, sum_cos_sq_azimuth horder, sum_const, card_range,
    nsmul_eq_mul]
  ring

theorem azimuth_reflect {order j : ℕ} (hj : j < order) :
    (azimuth order (order - 1 - j) : ℝ) = Real.pi - azimuth order j := by
  have horder : (order : ℝ) ≠ 0 := by exact_mod_cast (by omega : order ≠ 0)
  have hplace : ((order - 1 - j : ℕ) : ℝ) = order - 1 - j := by
    rw [Nat.sub_sub, Nat.cast_sub (by omega)]
    push_cast
    ring
  rw [azimuth_real, azimuth_real, hplace]
  field_simp
  ring

theorem sum_cos_mul_sin_azimuth (order : ℕ) :
    ∑ j ∈ range order, Real.cos (azimuth order j) * Real.sin (azimuth order j) = 0 := by
  -- From the last azimuth to the first, every term changes its sign.
  refine self_eq_neg.mp ?_
  conv_lhs => rw [← sum_range_reflect]
  rw [← sum_neg_distrib]
  refine sum_congr rfl fun j hj => ?_
  rw [azimuth_reflect (mem_range.mp hj), Real.cos_pi_sub, Real.sin_pi_sub, neg_mul]

/-! ## Levels -/

/-- The sine of the polar angle of a level. -/
noncomputable def levelRadius (eta : ℝ) : ℝ :=
  √(max (1 - eta * eta) 0)

/-- Direction `j` of the level `eta`. -/
noncomputable def direction (order : ℕ) (eta : ℝ) (j : ℕ) : Direction :=
  (levelRadius eta * Real.cos (azimuth order j), eta,
    levelRadius eta * Real.sin (azimuth order j))

theorem levelRadius_sq {eta : ℝ} (h : |eta| ≤ 1) : levelRadius eta ^ 2 = 1 - eta * eta := by
  have hnonneg : 0 ≤ 1 - eta * eta := by
    rw [sub_nonneg, ← abs_mul_abs_self]
    exact mul_le_one₀ h (abs_nonneg eta) h
  rw [levelRadius, max_eq_left hnonneg, Real.sq_sqrt hnonneg]

theorem levelRadius_neg (eta : ℝ) : levelRadius (-eta) = levelRadius eta := by
  rw [levelRadius, neg_mul_neg]
  rfl

/-- What a product set integrates: the sums over the levels, integrated by the
rule. -/
theorem sum_rows_ofRule (order : ℕ) (rule : IntervalRule ℝ) (norm : ℝ) (f : Direction → ℝ) :
    ((ofRule order rule norm).rows.map fun o => o.weight * f o.direction).sum =
      norm / (2 * order) *
        rule.integral fun eta => ∑ j ∈ range order, f (direction order eta j) := by
  have hscale : norm / (2.0 * Scalar.pi) * Scalar.pi / (@Nat.cast ℝ Scalar.toNatCast order) =
      norm / (2 * order) := by
    have hpi := Real.pi_ne_zero
    rw [Scalar.two_real, Scalar.pi_real, Scalar.natCast_real]
    field_simp
  have hlevel (eta w : ℝ) :
      ((level order eta w).map fun o => o.weight * f o.direction).sum =
        w * ∑ j ∈ range order, f (direction order eta j) := by
    simp only [level, Scalar.positivePart_real, Scalar.one_real, List.map_map, mul_sum]
    rfl
  rw [ofRule, DirectionTable.rows_ofRows, hscale, List.map_flatMap, List.flatMap_def,
    List.sum_flatten, List.map_map, IntervalRule.integral, ← List.sum_map_mul_left]
  refine congrArg List.sum (List.map_congr_left fun p _ => ?_)
  rw [Function.comp_apply, hlevel]
  ring

/-! ## Moments -/

theorem firstMoment_ofRule (order : ℕ) (rule : IntervalRule ℝ) (norm : ℝ) (i : Axis) :
    (ofRule order rule norm).firstMoment i =
      norm / (2 * order) *
        rule.integral fun eta => ∑ j ∈ range order, i.cosine (direction order eta j) := by
  rw [← sum_rows_ofRule, DirectionTable.firstMoment_real]
  simp only [Ordinate.cosine_direction]

theorem secondMoment_ofRule (order : ℕ) (rule : IntervalRule ℝ) (norm : ℝ) (i k : Axis) :
    (ofRule order rule norm).secondMoment i k =
      norm / (2 * order) * rule.integral fun eta =>
        ∑ j ∈ range order, i.cosine (direction order eta j) * k.cosine (direction order eta j) := by
  rw [← sum_rows_ofRule order rule norm fun d => i.cosine d * k.cosine d,
    DirectionTable.secondMoment_real]
  simp only [Ordinate.cosine_direction, mul_assoc]

variable {order : ℕ} {rule : IntervalRule ℝ} (h : rule.IsGauss order)

include h

theorem sum_wt_ofRule (norm : ℝ) : (ofRule order rule norm).wt.sum = norm := by
  have horder : (order : ℝ) ≠ 0 := by exact_mod_cast h.order_pos.ne'
  have hsum := sum_rows_ofRule order rule norm fun _ => 1
  simp only [mul_one, DirectionTable.map_weight_rows, sum_const, card_range, nsmul_eq_mul,
    h.integral_const] at hsum
  rw [hsum]
  field_simp

theorem firstMoment_inPlane (norm : ℝ) {i : Axis} (hi : i ≠ .xi) :
    (ofRule order rule norm).firstMoment i = 0 := by
  rw [firstMoment_ofRule]
  refine mul_eq_zero_of_right _ ?_
  cases i with
  | mu =>
    simp only [Axis.cosine, direction, ← mul_sum, sum_cos_azimuth h.order_pos, mul_zero,
      h.integral_const]
  | eta =>
    simp only [Axis.cosine, direction, sum_const, card_range, nsmul_eq_mul]
    rw [IntervalRule.integral_const_mul, h.integral_id, mul_zero]
  | xi => exact absurd rfl hi

/-- Across the level both cosines carry half of what the level cosine leaves. -/
theorem integral_levelRadius_sq (hnodes : ∀ x ∈ rule.nodes, |x| ≤ 1) (horder : 2 ≤ order) :
    rule.integral (fun eta => levelRadius eta ^ 2 * (order / 2)) = 2 * order / 3 := by
  calc rule.integral (fun eta => levelRadius eta ^ 2 * (order / 2))
      = rule.integral fun eta => order / 2 + 0 * eta + -(order / 2) * (eta * eta) := by
        refine IntervalRule.integral_congr fun eta heta => ?_
        rw [levelRadius_sq (hnodes eta heta)]
        ring
    _ = 2 * order / 3 := by
        rw [h.integral_quadratic, h.integral_square horder]
        ring

theorem secondMoment_self (hnodes : ∀ x ∈ rule.nodes, |x| ≤ 1) (horder : 2 ≤ order) (norm : ℝ)
    (i : Axis) :
    (ofRule order rule norm).secondMoment i i = norm / 3 := by
  have horder' : (order : ℝ) ≠ 0 := by exact_mod_cast h.order_pos.ne'
  have hthird : norm / (2 * order) * (2 * order / 3) = norm / 3 := by
    field_simp
  rw [secondMoment_ofRule, ← hthird]
  refine congrArg _ ?_
  cases i with
  | mu =>
    simp only [Axis.cosine, direction, ← sq, mul_pow, ← mul_sum, sum_cos_sq_azimuth horder]
    exact integral_levelRadius_sq h hnodes horder
  | eta =>
    simp only [Axis.cosine, direction, sum_const, card_range, nsmul_eq_mul,
      IntervalRule.integral_const_mul, h.integral_square horder]
    ring
  | xi =>
    simp only [Axis.cosine, direction, ← sq, mul_pow, ← mul_sum, sum_sin_sq_azimuth horder]
    exact integral_levelRadius_sq h hnodes horder

theorem secondMoment_mu_eta (norm : ℝ) : (ofRule order rule norm).secondMoment .mu .eta = 0 := by
  rw [secondMoment_ofRule]
  simp only [Axis.cosine, direction, ← sum_mul, ← mul_sum, sum_cos_azimuth h.order_pos, mul_zero,
    zero_mul, h.integral_const]

theorem secondMoment_mu_xi (norm : ℝ) : (ofRule order rule norm).secondMoment .mu .xi = 0 := by
  rw [secondMoment_ofRule]
  simp only [Axis.cosine, direction, mul_mul_mul_comm _ (Real.cos _), ← mul_sum,
    sum_cos_mul_sin_azimuth, mul_zero, h.integral_const]

theorem secondMoment_eta_xi (norm : ℝ) : (ofRule order rule norm).secondMoment .eta .xi = 0 := by
  rw [secondMoment_ofRule]
  -- The sines of a level do not cancel, but the levels `eta` and `-eta` do.
  refine mul_eq_zero_of_right _ (h.integral_odd fun eta => ?_)
  simp only [Axis.cosine, direction, levelRadius_neg, neg_mul, sum_neg_distrib]

theorem secondMoment_cross (norm : ℝ) {i k : Axis} (hik : i ≠ k) :
    (ofRule order rule norm).secondMoment i k = 0 := by
  match i, k, hik with
  | .mu, .eta, _ => exact secondMoment_mu_eta h norm
  | .eta, .mu, _ => rw [DirectionTable.secondMoment_comm, secondMoment_mu_eta h]
  | .mu, .xi, _ => exact secondMoment_mu_xi h norm
  | .xi, .mu, _ => rw [DirectionTable.secondMoment_comm, secondMoment_mu_xi h]
  | .eta, .xi, _ => exact secondMoment_eta_xi h norm
  | .xi, .eta, _ => rw [DirectionTable.secondMoment_comm, secondMoment_eta_xi h]

/-- The square set of a Gauss-Legendre rule. -/
theorem closesExactly_ofRule (hnodes : ∀ x ∈ rule.nodes, |x| ≤ 1) (horder : 2 ≤ order)
    (norm : ℝ) :
    (⟨.squareChebyshevLegendre, order, norm, ofRule order rule norm⟩ :
      Quadrature ℝ).ClosesExactly := by
  constructor
  case weight =>
    rw [Quadrature.totalWeight, Scalar.sum_real]
    exact sum_wt_ofRule h norm
  case first =>
    intro i hi
    refine firstMoment_inPlane h norm ?_
    rintro rfl
    simp [Axis.all, Quadrature.dimension, SetKind.dimension] at hi
  case second =>
    intro _ i _ k _
    split
    next hik => rw [hik, secondMoment_self h hnodes horder]
    next hik => exact secondMoment_cross h norm hik

end ChebyshevLegendre

end DiscreteOrdinates
