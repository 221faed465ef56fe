import DiscreteOrdinates.Proofs.Quadrature.NewtonSteps
import DiscreteOrdinates.Proofs.Quadrature.RootRules

/-!
# Exactness of the Gauss sets

Rules and double sets are made from roots that may be found in any way. If the roots of the
Legendre polynomials are found exactly, the Gauss-Legendre rule of order `n` integrates all
polynomials up to degree `2 n - 1`, and a double set with `n` directions on either half of
the interval does so on each half alone. Main statement: `integral_of_deliversRoots`.
-/

namespace DiscreteOrdinates

open Polynomial
open scoped Pointwise

/-- What the rows of a table with their `mu` in a range make of a function of `mu`. -/
noncomputable def DirectionTable.integralOver (t : DirectionTable ℝ) (s : Set ℝ) (f : ℝ → ℝ) : ℝ :=
  (t.rows.map fun o => o.weight * s.indicator f o.x).sum

namespace IntervalRule

/-! ## Rules of delivered roots -/

theorem mapM_getElem?_range {α : Type} (xs : List α) :
    (List.range xs.length).mapM (fun i => xs[i]?) = some xs := by
  induction xs with
  | nil => rfl
  | cons x xs ih =>
    rw [List.length_cons, List.range_succ_eq_map, List.mapM_cons, List.mapM_map]
    simp [Function.comp_def, ih]

/-- What is found are the distinct roots of the Legendre polynomial of an order. -/
def DeliversRoots (find : ℕ → ℕ → Option ℝ) (order : ℕ) : Prop :=
  ∃ roots, rootsWith find order = some roots ∧ AreRoots order roots

/-- The roots of all orders exist, so they could be found. -/
theorem exists_deliversRoots : ∃ find, ∀ order, DeliversRoots find order := by
  choose roots hroots using exists_areRoots
  refine ⟨fun order i => (roots order)[i]?, fun order => ⟨roots order, ?_, hroots order⟩⟩
  rw [rootsWith, ← (hroots order).length_eq]
  exact mapM_getElem?_range (roots order)

theorem gaussLegendreWith_eq_ok {find : ℕ → ℕ → Option ℝ} {n : ℕ} {roots : List ℝ}
    (h : rootsWith find (n + 1) = some roots) :
    gaussLegendreWith find (n + 1) = .ok (ofRoots (n + 1) roots) := by
  rw [gaussLegendreWith, require, if_pos n.succ_pos, h]
  rfl

/-! ## Halves of the interval -/

/-- A double table integrates a range by its two copies of the rule. -/
theorem IsGauss.integralOver_toDoubleTable {order : ℕ} {rule : IntervalRule ℝ}
    (h : rule.IsGauss order) (norm : ℝ) (s : Set ℝ) (f : ℝ → ℝ) :
    (rule.toDoubleTable norm).integralOver s f =
      norm / 4 * rule.integral fun x =>
        s.indicator f (-((1 + x) / 2)) + s.indicator f ((1 + x) / 2) := by
  have hrows := DirectionTable.rows_line (length_doubled h (norm / 2.0))
  calc (rule.toDoubleTable norm).integralOver s f
      = (rule.doubled (norm / 2.0)).integral (s.indicator f) := by
        rw [DirectionTable.integralOver, integral]
        refine congrArg List.sum ((congrArg (List.map _) hrows).trans ?_)
        rw [List.map_map]
        rfl
    _ = _ := by
        rw [integral_doubled h, Scalar.two_real]
        ring

/-- The two halves of a double table are reflections of each other. -/
theorem IsGauss.integralOver_neg {order : ℕ} {rule : IntervalRule ℝ} (h : rule.IsGauss order)
    (norm : ℝ) (s : Set ℝ) (f : ℝ → ℝ) :
    (rule.toDoubleTable norm).integralOver (-s) f =
      (rule.toDoubleTable norm).integralOver s fun x => f (-x) := by
  have hreflect (x : ℝ) : (-s).indicator f x = s.indicator (fun x => f (-x)) (-x) := by
    by_cases hx : -x ∈ s
    · rw [Set.indicator_of_mem (Set.mem_neg.mpr hx), Set.indicator_of_mem hx, neg_neg]
    · rw [Set.indicator_of_notMem (mt Set.mem_neg.mp hx), Set.indicator_of_notMem hx]
  rw [h.integralOver_toDoubleTable, h.integralOver_toDoubleTable]
  simp only [hreflect, neg_neg, add_comm]

section

variable {n : ℕ} {roots : List ℝ} (h : AreRoots (n + 1) roots)

include h

theorem AreRoots.abs_lt_one {x : ℝ} (hx : x ∈ (ofRoots (n + 1) roots).nodes) : -1 < x ∧ x < 1 := by
  rw [← abs_lt, ← sq_lt_one_iff_abs_lt_one]
  exact Legendre.sq_lt_one_of_isRoot (h.isRoot_of_mem_nodes hx)

/-- A rule that is moved to another interval is exact there. -/
theorem AreRoots.integral_comp_affine {p : ℝ[X]} (hp : p.natDegree < 2 * (n + 1)) {c : ℝ}
    (hc : c ≠ 0) (d : ℝ) :
    (ofRoots (n + 1) roots).integral (fun x => p.eval (c * x + d)) =
      c⁻¹ * ∫ x in (d - c)..(d + c), p.eval x := by
  have hcomp : (p.comp (C c * X + C d)).natDegree ≤ p.natDegree * 1 :=
    natDegree_comp_le.trans (Nat.mul_le_mul_left _ natDegree_linear_le)
  have hdegree : (p.comp (C c * X + C d)).degree < (2 * (n + 1) : ℕ) :=
    degree_le_natDegree.trans_lt (Nat.cast_lt.mpr (by omega))
  have hexact := h.integral_ofRoots hdegree
  simp only [eval_comp, eval_add, eval_mul, eval_C, eval_X] at hexact
  rw [hexact, intervalIntegral.integral_comp_mul_add (fun x => p.eval x) hc d, smul_eq_mul]
  congr 2 <;> ring

/-- The upper half of a double table has the integral over the upper half of the
interval. -/
theorem AreRoots.integralOver_upper {p : ℝ[X]} (hp : p.natDegree < 2 * (n + 1)) (norm : ℝ) :
    ((ofRoots (n + 1) roots).toDoubleTable norm).integralOver (Set.Icc 0 1) (fun x => p.eval x) =
      norm / 2 * ∫ x in 0..1, p.eval x := by
  have hnodes : ∀ x ∈ (ofRoots (n + 1) roots).nodes,
      (Set.Icc 0 1).indicator (fun x => p.eval x) (-((1 + x) / 2)) +
        (Set.Icc 0 1).indicator (fun x => p.eval x) ((1 + x) / 2) = p.eval (1 / 2 * x + 1 / 2) := by
    intro x hx
    -- No node is an end of the interval, so each copy of it falls on one half only.
    obtain ⟨hlow, hhigh⟩ := h.abs_lt_one hx
    have hout : -((1 + x) / 2) ∉ Set.Icc (0 : ℝ) 1 := fun hmem => by linarith [hmem.1]
    have hin : (1 + x) / 2 ∈ Set.Icc (0 : ℝ) 1 := ⟨by linarith, by linarith⟩
    rw [Set.indicator_of_notMem hout, Set.indicator_of_mem hin, zero_add]
    congr 1
    ring
  rw [h.isGauss_ofRoots.integralOver_toDoubleTable, integral_congr hnodes,
    h.integral_comp_affine hp (by norm_num)]
  norm_num
  ring

/-- The lower half does what the upper half does for the reflected function. -/
theorem AreRoots.integralOver_lower {p : ℝ[X]} (hp : p.natDegree < 2 * (n + 1)) (norm : ℝ) :
    ((ofRoots (n + 1) roots).toDoubleTable norm).integralOver (Set.Icc (-1) 0)
        (fun x => p.eval x) =
      norm / 2 * ∫ x in (-1)..0, p.eval x := by
  have hreflected : (p.comp (-X)).natDegree < 2 * (n + 1) := by
    rwa [natDegree_comp, natDegree_neg, natDegree_X, mul_one]
  have hupper := h.integralOver_upper hreflected norm
  have hinterval : Set.Icc (-1 : ℝ) 0 = -Set.Icc 0 1 := by rw [Set.neg_Icc, neg_zero]
  simp only [eval_comp, eval_neg, eval_X] at hupper
  rw [hinterval, h.isGauss_ofRoots.integralOver_neg, hupper,
    intervalIntegral.integral_comp_neg fun x => p.eval x, neg_zero]

end

/-! ## Every order -/

/-- Rules and double sets are made from the roots that the iteration finds, for all scalars.
With the exact roots in their place, the Gauss-Legendre rule of an order has the integral of
every polynomial of less than twice the order. Of the double set either half has the
integral over its half of the interval. -/
theorem integral_of_deliversRoots :
    (∀ {R : Type} [Scalar R],
      gaussLegendre (R := R) = gaussLegendreWith newtonRoot ∧
        doubleGaussTable (R := R) = doubleGaussTableWith (gaussLegendreWith newtonRoot)) ∧
    ∀ {find : ℕ → ℕ → Option ℝ} {order : ℕ}, 0 < order → DeliversRoots find order →
      (∃ rule, gaussLegendreWith find order = .ok rule ∧ rule.nodes.length = order ∧
        rule.weights.length = order ∧
        ∀ p : ℝ[X], p.natDegree ≤ 2 * order - 1 →
          rule.integral (fun x => p.eval x) = ∫ x in (-1)..1, p.eval x) ∧
      ∀ norm, ∃ table,
        doubleGaussTableWith (gaussLegendreWith find) (2 * order) norm = .ok table ∧
        table.wt.length = 2 * order ∧
        ∀ p : ℝ[X], p.natDegree ≤ 2 * order - 1 →
          table.integralOver (Set.Icc 0 1) (fun x => p.eval x) =
              norm / 2 * ∫ x in 0..1, p.eval x ∧
            table.integralOver (Set.Icc (-1) 0) (fun x => p.eval x) =
              norm / 2 * ∫ x in (-1)..0, p.eval x := by
  refine ⟨⟨rfl, rfl⟩, fun {find order} horder h => ?_⟩
  obtain ⟨n, rfl⟩ := Nat.exists_eq_succ_of_ne_zero horder.ne'
  obtain ⟨roots, hfind, hroots⟩ := h
  have hrule := gaussLegendreWith_eq_ok hfind
  have hgauss := hroots.isGauss_ofRoots
  constructor
  · refine ⟨_, hrule, hgauss.length_nodes, hgauss.length_weights, fun p hp => ?_⟩
    refine hroots.integral_ofRoots (degree_le_natDegree.trans_lt (Nat.cast_lt.mpr ?_))
    omega
  · intro norm
    refine ⟨(ofRoots (n + 1) roots).toDoubleTable norm, ?_, ?_, fun p hp => ?_⟩
    · have hhalf : 2 * (n + 1) / 2 = n + 1 := by omega
      rw [doubleGaussTableWith, require, if_pos (by omega), hhalf, hrule]
      rfl
    · simp [toDoubleTable, hgauss.length_weights, two_mul]
    · have hdegree : p.natDegree < 2 * (n + 1) := by omega
      exact ⟨hroots.integralOver_upper hdegree norm, hroots.integralOver_lower hdegree norm⟩

/-! ## Orders one and three -/

/-- The estimate of the central root is exact, so the iteration finds it. -/
theorem deliversRoots_one : DeliversRoots newtonRoot 1 := by
  have hestimate : rootEstimate (R := ℝ) 1 0 = 0 := by
    have hangle : Real.pi * (((0 : ℕ) : ℝ) + 0.75) / (((1 : ℕ) : ℝ) + 0.5) = Real.pi / 2 := by
      push_cast
      ring
    rw [rootEstimate, Scalar.cos_real, Scalar.pi_real, Scalar.natCast_real, Scalar.natCast_real,
      hangle, Real.cos_pi_div_two]
  have hisRoot : (Legendre.rodrigues 1).IsRoot 0 := Legendre.isRoot_zero_of_odd rfl
  have hroot : newtonRoot 1 0 = some (0 : ℝ) := by
    rw [newtonRoot, hestimate]
    exact newton_of_polynomial_eq_zero ((Legendre.polynomial_eq_eval 1 0).trans hisRoot) 99
  refine ⟨[0], ?_, rfl, ?_, ?_⟩
  · simp [rootsWith, hroot]
  · rw [List.forall_mem_singleton]
    exact hisRoot
  · simp

theorem eval_rodrigues_three (z : ℝ) : (Legendre.rodrigues 3).eval z = (5 * z ^ 3 - 3 * z) / 2 := by
  have h : (Legendre.neighbours 3 z).1 = (Legendre.rodrigues 3).eval z :=
    congrArg Prod.fst (Legendre.neighbours_succ 2 z)
  rw [← h]
  simp [Legendre.neighbours, Nat.fold, Scalar.one_real, Scalar.zero_real]
  ring

/-- The roots of order three. -/
noncomputable def thirdOrderRoot (i : ℕ) : ℝ :=
  if i = 0 then √0.6 else 0

theorem deliversRoots_three : DeliversRoots (fun _ i => some (thirdOrderRoot i)) 3 := by
  have hsq : √(0.6 : ℝ) ^ 2 = 3 / 5 := by
    rw [Real.sq_sqrt (by norm_num)]
    norm_num
  have hpos : 0 < √(0.6 : ℝ) := Real.sqrt_pos.mpr (by norm_num)
  refine ⟨[√0.6, 0], rfl, rfl, ?_, ?_⟩
  · rw [List.forall_mem_cons, List.forall_mem_singleton, IsRoot.def, IsRoot.def,
      eval_rodrigues_three, eval_rodrigues_three, pow_succ, hsq]
    constructor <;> ring
  · rw [List.nodup_append]
    generalize √(0.6 : ℝ) = r at hpos
    simp [hpos.ne', (neg_lt_self hpos).ne']

/-- A degree that the rule of order three still integrates, and the double set of order
six on each half. Of order one the iteration finds the root itself. -/
theorem integral_of_deliversRoots_three :
    (0 < 3 ∧ DeliversRoots (fun _ i => some (thirdOrderRoot i)) 3) ∧
    (∃ rule, gaussLegendreWith (fun _ i => some (thirdOrderRoot i)) 3 = .ok rule ∧
      rule.integral (fun x => x ^ 4) = 2 / 5) ∧
    (∃ table,
      doubleGaussTableWith (gaussLegendreWith fun _ i => some (thirdOrderRoot i)) 6 12 = .ok table ∧
      table.integralOver (Set.Icc 0 1) (fun x => x ^ 5) = 1 ∧
      table.integralOver (Set.Icc (-1) 0) (fun x => x ^ 5) = -1) ∧
    (0 < 1 ∧ DeliversRoots newtonRoot 1) ∧
    (∃ rule : IntervalRule ℝ, gaussLegendre 1 = .ok rule ∧ rule.integral (fun x => x) = 0) ∧
    ∃ table : DirectionTable ℝ, doubleGaussTable 2 4 = .ok table ∧
      table.integralOver (Set.Icc 0 1) (fun x => x) = 1 := by
  obtain ⟨hown, hexact⟩ := integral_of_deliversRoots
  refine ⟨⟨by decide, deliversRoots_three⟩, ?_, ?_, ⟨by decide, deliversRoots_one⟩, ?_, ?_⟩
  · obtain ⟨⟨rule, hrule, -, -, hintegral⟩, -⟩ := hexact (by decide) deliversRoots_three
    have hfourth := hintegral (X ^ 4) (by rw [natDegree_X_pow]; decide)
    simp only [eval_pow, eval_X, integral_pow] at hfourth
    refine ⟨rule, hrule, ?_⟩
    rw [hfourth]
    norm_num
  · obtain ⟨-, htable⟩ := hexact (by decide) deliversRoots_three
    obtain ⟨table, htable, -, hhalves⟩ := htable 12
    obtain ⟨hupper, hlower⟩ := hhalves (X ^ 5) (by rw [natDegree_X_pow])
    simp only [eval_pow, eval_X, integral_pow] at hupper hlower
    refine ⟨table, htable, ?_, ?_⟩
    · rw [hupper]
      norm_num
    · rw [hlower]
      norm_num
  · obtain ⟨⟨rule, hrule, -, -, hintegral⟩, -⟩ := hexact (by decide) deliversRoots_one
    have hfirst := hintegral X natDegree_X.le
    simp only [eval_X, integral_id] at hfirst
    refine ⟨rule, (congrFun hown.1 1).trans hrule, ?_⟩
    rw [hfirst]
    norm_num
  · obtain ⟨-, htable⟩ := hexact (by decide) deliversRoots_one
    obtain ⟨table, htable, -, hhalves⟩ := htable 4
    obtain ⟨hupper, -⟩ := hhalves X natDegree_X.le
    simp only [eval_X, integral_id] at hupper
    refine ⟨table, (congrFun₂ hown.2 2 4).trans htable, ?_⟩
    rw [hupper]
    norm_num

end IntervalRule

end DiscreteOrdinates
