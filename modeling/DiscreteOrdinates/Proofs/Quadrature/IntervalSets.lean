import DiscreteOrdinates.Proofs.Quadrature.Closure
import DiscreteOrdinates.Quadrature.IntervalRule

/-!
# Sets on the interval

What a rule on the interval integrates, what is asked of a Gauss-Legendre rule,
and the two sets in one dimension that are made from such a rule. Main
statements: `closesExactly_toTable` and `closesExactly_toDoubleTable`.
-/

namespace DiscreteOrdinates

namespace IntervalRule

/-! ## Integrals -/

/-- The integral of a function by a rule. -/
def integral (rule : IntervalRule ℝ) (f : ℝ → ℝ) : ℝ :=
  ((rule.nodes.zip rule.weights).map fun p => p.2 * f p.1).sum

theorem integral_add (rule : IntervalRule ℝ) (f g : ℝ → ℝ) :
    rule.integral (fun x => f x + g x) = rule.integral f + rule.integral g := by
  simp only [integral, mul_add, List.sum_map_add]

theorem integral_const_mul (rule : IntervalRule ℝ) (c : ℝ) (f : ℝ → ℝ) :
    rule.integral (fun x => c * f x) = c * rule.integral f := by
  simp only [integral, mul_left_comm _ c, List.sum_map_mul_left]

theorem integral_congr {rule : IntervalRule ℝ} {f g : ℝ → ℝ} (h : ∀ x ∈ rule.nodes, f x = g x) :
    rule.integral f = rule.integral g := by
  refine congrArg List.sum (List.map_congr_left fun p hp => ?_)
  rw [h p.1 (List.of_mem_zip hp).1]

theorem integral_map_weights (nodes weights : List ℝ) (c : ℝ) (f : ℝ → ℝ) :
    integral ⟨nodes, weights.map (· * c)⟩ f = c * integral ⟨nodes, weights⟩ f := by
  simp only [integral, List.zip_map_right, List.map_map, ← List.sum_map_mul_left]
  exact congrArg List.sum (List.map_congr_left fun p _ => by simp [mul_right_comm, mul_comm c])

theorem integral_map_nodes (nodes weights : List ℝ) (g : ℝ → ℝ) (f : ℝ → ℝ) :
    integral ⟨nodes.map g, weights⟩ f = integral ⟨nodes, weights⟩ fun x => f (g x) := by
  simp only [integral, List.zip_map_left, List.map_map]
  rfl

theorem integral_append {nodes weights : List ℝ} (h : nodes.length = weights.length)
    (nodes' weights' : List ℝ) (f : ℝ → ℝ) :
    integral ⟨nodes ++ nodes', weights ++ weights'⟩ f =
      integral ⟨nodes, weights⟩ f + integral ⟨nodes', weights'⟩ f := by
  simp only [integral, List.zip_append h, List.map_append, List.sum_append]

theorem integral_reverse {nodes weights : List ℝ} (h : nodes.length = weights.length) (f : ℝ → ℝ) :
    integral ⟨nodes.reverse, weights.reverse⟩ f = integral ⟨nodes, weights⟩ f := by
  have hzip : nodes.reverse.zip weights.reverse = (nodes.zip weights).reverse :=
    (List.reverse_zipWith h).symm
  simp only [integral, hzip, List.map_reverse, List.sum_reverse]

theorem integral_one {rule : IntervalRule ℝ} (h : rule.nodes.length = rule.weights.length) :
    rule.integral (fun _ => 1) = rule.weights.sum := by
  simp only [integral, mul_one]
  exact congrArg List.sum (List.map_snd_zip h.ge)

/-! ## Gauss-Legendre rules -/

/-- What is asked of a Gauss-Legendre rule with `order` nodes: it is symmetric
about the centre of the interval, integrates one, and with two or more nodes the
square. -/
structure IsGauss (order : ℕ) (rule : IntervalRule ℝ) : Prop where
  length_nodes : rule.nodes.length = order
  length_weights : rule.weights.length = order
  reverse_nodes : rule.nodes.reverse = rule.nodes.map (- ·)
  reverse_weights : rule.weights.reverse = rule.weights
  sum_weights : rule.weights.sum = 2
  integral_square : 2 ≤ order → rule.integral (fun x => x * x) = 2 / 3

namespace IsGauss

variable {order : ℕ} {rule : IntervalRule ℝ} (h : rule.IsGauss order)

include h

theorem length_eq : rule.nodes.length = rule.weights.length :=
  h.length_nodes.trans h.length_weights.symm

theorem order_pos : 0 < order := by
  rw [← h.length_weights, List.length_pos_iff]
  intro hnil
  have hsum := h.sum_weights
  rw [hnil, List.sum_nil] at hsum
  norm_num at hsum

theorem integral_const (a : ℝ) : rule.integral (fun _ => a) = 2 * a := by
  calc rule.integral (fun _ => a)
      = rule.integral (fun _ => a * 1) := by rw [mul_one]
    _ = 2 * a := by
        rw [integral_const_mul, integral_one h.length_eq, h.sum_weights, mul_comm]

theorem integral_comp_neg (f : ℝ → ℝ) : rule.integral (fun x => f (-x)) = rule.integral f := by
  calc rule.integral (fun x => f (-x))
      = integral ⟨rule.nodes.map (- ·), rule.weights⟩ f := (integral_map_nodes _ _ _ _).symm
    _ = integral ⟨rule.nodes.reverse, rule.weights.reverse⟩ f := by
        rw [h.reverse_nodes, h.reverse_weights]
    _ = rule.integral f := integral_reverse h.length_eq f

theorem integral_odd {f : ℝ → ℝ} (hodd : ∀ x, f (-x) = -f x) : rule.integral f = 0 := by
  have hneg : rule.integral f = -rule.integral f := by
    calc rule.integral f
        = rule.integral (fun x => f (-x)) := (h.integral_comp_neg f).symm
      _ = rule.integral (fun x => -1 * f x) :=
          integral_congr fun x _ => by rw [hodd, neg_one_mul]
      _ = -rule.integral f := by rw [integral_const_mul, neg_one_mul]
  exact self_eq_neg.mp hneg

theorem integral_id : rule.integral (fun x => x) = 0 :=
  h.integral_odd fun _ => rfl

theorem integral_quadratic (a b c : ℝ) :
    rule.integral (fun x => a + b * x + c * (x * x)) =
      2 * a + c * rule.integral fun x => x * x := by
  rw [integral_add, integral_add, integral_const_mul, integral_const_mul, h.integral_id,
    h.integral_const, mul_zero, add_zero]

end IsGauss

end IntervalRule

/-! ## One dimension -/

namespace DirectionTable

variable {rule : IntervalRule ℝ} (h : rule.nodes.length = rule.weights.length)

include h

/-- The rows of a table that only carries the cosines of a rule. -/
theorem rows_line :
    ({ mu := rule.nodes, wt := rule.weights } : DirectionTable ℝ).rows =
      (rule.nodes.zip rule.weights).map fun p => ⟨p.1, 0, 0, p.2⟩ := by
  apply List.ext_getElem
  · simp [rows, h]
  · intro m hm hm'
    have hweights : m < rule.weights.length := by simpa [rows] using hm
    have hnodes : m < rule.nodes.length := h ▸ hweights
    simp [rows, row, hweights, hnodes]

theorem firstMoment_line :
    ({ mu := rule.nodes, wt := rule.weights } : DirectionTable ℝ).firstMoment .mu =
      rule.integral fun x => x := by
  rw [firstMoment_real, rows_line h, List.map_map]
  rfl

theorem secondMoment_line :
    ({ mu := rule.nodes, wt := rule.weights } : DirectionTable ℝ).secondMoment .mu .mu =
      rule.integral fun x => x * x := by
  rw [secondMoment_real, rows_line h, List.map_map]
  exact congrArg List.sum (List.map_congr_left fun p _ => mul_assoc _ _ _)

end DirectionTable

namespace Quadrature

/-- A set in one dimension closes as the rule that it is made of. -/
theorem closesExactly_line {q : Quadrature ℝ} (rule : IntervalRule ℝ)
    (hdimension : q.dimension = 1)
    (htable : q.table = { mu := rule.nodes, wt := rule.weights })
    (hlength : rule.nodes.length = rule.weights.length)
    (hone : rule.integral (fun _ => 1) = q.norm) (hid : rule.integral (fun x => x) = 0)
    (hsquare : q.integratesQuadratics = true → rule.integral (fun x => x * x) = q.norm / 3) :
    q.ClosesExactly := by
  constructor
  case weight =>
    rw [totalWeight, Scalar.sum_real, htable, ← hone, IntervalRule.integral_one hlength]
  case first =>
    intro i hi
    rw [hdimension] at hi
    obtain rfl : i = .mu := List.mem_singleton.mp hi
    rw [htable, DirectionTable.firstMoment_line hlength, hid]
  case second =>
    intro hquadratics i hi j hj
    rw [if_pos hdimension] at hi hj
    obtain rfl : i = .mu := List.mem_singleton.mp hi
    obtain rfl : j = .mu := List.mem_singleton.mp hj
    rw [if_pos rfl, htable, DirectionTable.secondMoment_line hlength, hsquare hquadratics]

end Quadrature

namespace IntervalRule

variable {order : ℕ} {rule : IntervalRule ℝ}

/-- The rule with all its weights multiplied, as a set has it. -/
def scaled (rule : IntervalRule ℝ) (scale : ℝ) : IntervalRule ℝ :=
  ⟨rule.nodes, rule.weights.map (· * scale)⟩

theorem integral_scaled (rule : IntervalRule ℝ) (scale : ℝ) (f : ℝ → ℝ) :
    (rule.scaled scale).integral f = scale * rule.integral f :=
  integral_map_weights _ _ _ _

/-- A copy of the rule on either half of the interval, as the double set has them. -/
noncomputable def doubled (rule : IntervalRule ℝ) (scale : ℝ) : IntervalRule ℝ :=
  let nodes := rule.nodes.map fun x => 0.5 * (1.0 + x)
  let weights := rule.weights.map fun w => 0.5 * w * scale
  ⟨(nodes.map (- ·)).reverse ++ nodes, weights.reverse ++ weights⟩

variable {order : ℕ} {rule : IntervalRule ℝ}

theorem length_scaled (h : rule.IsGauss order) (scale : ℝ) :
    (rule.scaled scale).nodes.length = (rule.scaled scale).weights.length := by
  rw [scaled, List.length_map, h.length_eq]

theorem length_doubled (h : rule.IsGauss order) (scale : ℝ) :
    (rule.doubled scale).nodes.length = (rule.doubled scale).weights.length := by
  simp [doubled, h.length_eq]

theorem integral_doubled (h : rule.IsGauss order) (scale : ℝ) (f : ℝ → ℝ) :
    (rule.doubled scale).integral f =
      scale / 2 * rule.integral fun x => f (-((1 + x) / 2)) + f ((1 + x) / 2) := by
  have hlength : ((rule.nodes.map fun x => 0.5 * (1.0 + x)).map (- ·)).length =
      (rule.weights.map fun w => 0.5 * w * scale).length := by
    rw [List.length_map, List.length_map, List.length_map, h.length_eq]
  have hscale : (fun w : ℝ => 0.5 * w * scale) = (· * (scale / 2)) := by
    funext w
    norm_num
    ring
  have hhalf (x : ℝ) : 0.5 * (1.0 + x) = (1 + x) / 2 := by
    norm_num
    ring
  -- The mirrored half is stored in reverse, which an integral does not see.
  rw [doubled, integral_append (by simpa using hlength), integral_reverse hlength,
    integral_map_nodes, integral_map_nodes, integral_map_nodes, hscale, integral_map_weights,
    integral_map_weights, ← mul_add, ← integral_add]
  simp only [hhalf]

theorem integral_square_doubled (h : rule.IsGauss order) (scale : ℝ) :
    (rule.doubled scale).integral (fun x => x * x) =
      scale / 2 * (1 + 1 / 2 * rule.integral fun x => x * x) := by
  have hsquare (x : ℝ) : -((1 + x) / 2) * -((1 + x) / 2) + (1 + x) / 2 * ((1 + x) / 2) =
      1 / 2 + 1 * x + 1 / 2 * (x * x) := by
    ring
  simp only [integral_doubled h, hsquare, h.integral_quadratic]
  norm_num

/-- The set of a Gauss-Legendre rule. -/
theorem closesExactly_toTable (h : rule.IsGauss order) (norm : ℝ) :
    (⟨.gaussLegendre, order, norm, rule.toTable norm⟩ : Quadrature ℝ).ClosesExactly := by
  refine Quadrature.closesExactly_line (rule.scaled (norm / 2.0)) rfl rfl
    (length_scaled h _) ?_ ?_ ?_
  · rw [integral_scaled, h.integral_const, Scalar.two_real]
    ring
  · rw [integral_scaled, h.integral_id, mul_zero]
  · intro hquadratics
    have horder : 2 ≤ order := of_decide_eq_true hquadratics
    rw [integral_scaled, h.integral_square horder, Scalar.two_real]
    ring

/-- The double set of a Gauss-Legendre rule. -/
theorem closesExactly_toDoubleTable (h : rule.IsGauss order) (norm : ℝ) :
    (⟨.doubleGauss, 2 * order, norm, rule.toDoubleTable norm⟩ : Quadrature ℝ).ClosesExactly := by
  refine Quadrature.closesExactly_line (rule.doubled (norm / 2.0)) rfl rfl
    (length_doubled h _) ?_ ?_ ?_
  · rw [integral_doubled h, h.integral_const, Scalar.two_real]
    ring
  · simp only [integral_doubled h, neg_add_cancel, h.integral_const, mul_zero]
  · intro hquadratics
    have horder : 4 ≤ 2 * order := of_decide_eq_true hquadratics
    rw [integral_square_doubled h, h.integral_square (by omega), Scalar.two_real]
    ring

/-! ## Exempt orders -/

/-- The node of a rule of order one is the centre, so the square integrates to
zero. -/
theorem IsGauss.integral_square_of_one (h : rule.IsGauss 1) :
    rule.integral (fun x => x * x) = 0 := by
  obtain ⟨x, hx⟩ := List.length_eq_one_iff.mp h.length_nodes
  have hcentre : x = 0 := by
    have hreverse := h.reverse_nodes
    rw [hx] at hreverse
    exact self_eq_neg.mp (List.singleton_inj.mp hreverse)
  have hzero : ∀ y ∈ rule.nodes, y * y = 0 := by
    intro y hy
    rw [hx, hcentre, List.mem_singleton] at hy
    rw [hy, mul_zero]
  rw [integral_congr hzero, h.integral_const, mul_zero]

/-- The orders that closure exempts from second moments miss a third of the norm:
the single direction has none, and two directions a quarter. -/
theorem secondMoment_of_exempt (h : rule.IsGauss 1) (norm : ℝ) :
    (rule.toTable norm).secondMoment .mu .mu = 0 ∧
      (rule.toDoubleTable norm).secondMoment .mu .mu = norm / 4 := by
  constructor
  · calc (rule.toTable norm).secondMoment .mu .mu
        = (rule.scaled (norm / 2.0)).integral fun x => x * x :=
          DirectionTable.secondMoment_line (length_scaled h _)
      _ = 0 := by rw [integral_scaled, h.integral_square_of_one, mul_zero]
  · calc (rule.toDoubleTable norm).secondMoment .mu .mu
        = (rule.doubled (norm / 2.0)).integral fun x => x * x :=
          DirectionTable.secondMoment_line (length_doubled h _)
      _ = norm / 4 := by
          rw [integral_square_doubled h, h.integral_square_of_one, Scalar.two_real]
          ring

end IntervalRule

end DiscreteOrdinates
