import DiscreteOrdinates.Proofs.Quadrature.Exactness
import DiscreteOrdinates.Proofs.Quadrature.ProductSets
import DiscreteOrdinates.Quadrature.Families

/-!
# Gauss sets

The families that are made from a Gauss-Legendre rule. The iteration finds a rule
within a tolerance, so what holds of an exact rule is stated of the constructors
over any source of rules. Main statement: `checkClosure_of_isGauss`, of all sets
from such a rule.
-/

namespace DiscreteOrdinates

namespace Quadrature

/-! ## Closure -/

theorem norm_nonneg {norm : Option ℝ} (h : ∀ c ∈ norm, 0 ≤ c) (dimension : ℕ) :
    0 ≤ norm.getD (defaultNorm dimension) := by
  cases norm with
  | some c => exact h c rfl
  | none =>
    have hpi := Real.pi_pos.le
    unfold defaultNorm
    split <;> simp only [Option.getD_none, Scalar.pi_real] <;> positivity

/-- A constructor that ends with the check of a closing set returns this set. -/
theorem ClosesExactly.exists_of_eq_checked {q : Quadrature ℝ} (h : q.ClosesExactly)
    (hnorm : 0 ≤ q.norm) {result : Except (QuadratureError ℝ) (Quadrature ℝ)}
    (hresult : result = checked q) :
    ∃ p, result = .ok p ∧ p.norm = q.norm ∧ p.ClosesExactly ∧ p.checkClosure = .ok () :=
  ⟨q, hresult.trans (h.checked_eq_ok hnorm), rfl, h, h.checkClosure_eq_ok hnorm⟩

/-- The rule that is made from the exact roots is a Gauss-Legendre rule on the interval. -/
theorem exists_isGauss_of_deliversRoots {find : ℕ → ℕ → Option ℝ} {order : ℕ} (horder : 0 < order)
    (h : IntervalRule.DeliversRoots find order) :
    ∃ rule, IntervalRule.gaussLegendreWith find order = .ok rule ∧ rule.IsGauss order ∧
      ∀ x ∈ rule.nodes, |x| ≤ 1 := by
  obtain ⟨n, rfl⟩ := Nat.exists_eq_succ_of_ne_zero horder.ne'
  obtain ⟨roots, hfind, hroots⟩ := h
  refine ⟨_, IntervalRule.gaussLegendreWith_eq_ok hfind, hroots.isGauss_ofRoots, fun x hx => ?_⟩
  exact (abs_lt.mpr (hroots.abs_lt_one hx)).le

/-- The constructors take their rules from the iteration, for all scalars. With an exact
Gauss-Legendre rule in its place and a norm that is not negative, all the sets from this
rule close exactly and are returned. The square set takes the nodes as cosines, so there
they have to lie on the interval. All this is met by the rules of the exact roots. -/
theorem checkClosure_of_isGauss :
    (∀ {R : Type} [Scalar R],
      gaussLegendre (R := R) = gaussLegendreWith IntervalRule.gaussLegendre ∧
        doubleGauss (R := R) = doubleGaussWith IntervalRule.gaussLegendre ∧
        squareChebyshevLegendre (R := R) =
          squareChebyshevLegendreWith IntervalRule.gaussLegendre) ∧
    (∀ {solve : ℕ → Except (QuadratureError ℝ) (IntervalRule ℝ)} {order : ℕ}
      {rule : IntervalRule ℝ} {norm : Option ℝ},
      solve order = .ok rule → rule.IsGauss order → (∀ c ∈ norm, 0 ≤ c) →
      (∃ q, gaussLegendreWith solve order norm = .ok q ∧ q.norm = norm.getD (defaultNorm 1) ∧
        q.ClosesExactly ∧ q.checkClosure = .ok ()) ∧
      (∃ q, doubleGaussWith solve (2 * order) norm = .ok q ∧
        q.norm = norm.getD (defaultNorm 1) ∧ q.ClosesExactly ∧ q.checkClosure = .ok ()) ∧
      (2 ≤ order → (∀ x ∈ rule.nodes, |x| ≤ 1) →
        ∃ q, squareChebyshevLegendreWith solve order norm = .ok q ∧
          q.norm = norm.getD (defaultNorm 2) ∧ q.ClosesExactly ∧ q.checkClosure = .ok ())) ∧
    ∀ {find : ℕ → ℕ → Option ℝ} {order : ℕ}, 0 < order → IntervalRule.DeliversRoots find order →
      ∃ rule, IntervalRule.gaussLegendreWith find order = .ok rule ∧ rule.IsGauss order ∧
        ∀ x ∈ rule.nodes, |x| ≤ 1 := by
  refine ⟨⟨rfl, rfl, rfl⟩, fun {solve order rule norm} hsolve hrule hnorm => ?_,
    exists_isGauss_of_deliversRoots⟩
  refine ⟨?_, ?_, fun horder hnodes => ?_⟩
  · have hcloses := IntervalRule.closesExactly_toTable hrule (norm.getD (defaultNorm 1))
    refine hcloses.exists_of_eq_checked (norm_nonneg hnorm 1) ?_
    rw [gaussLegendreWith, hsolve]
    rfl
  · have hcloses := IntervalRule.closesExactly_toDoubleTable hrule (norm.getD (defaultNorm 1))
    have heven : 2 ≤ 2 * order ∧ 2 * order % 2 = 0 := by
      have := hrule.order_pos
      omega
    have hhalf : 2 * order / 2 = order := by omega
    refine hcloses.exists_of_eq_checked (norm_nonneg hnorm 1) ?_
    rw [doubleGaussWith, IntervalRule.doubleGaussTableWith, require, if_pos heven, hhalf, hsolve]
    rfl
  · have hcloses := ChebyshevLegendre.closesExactly_ofRule hrule hnodes horder
      (norm.getD (defaultNorm 2))
    refine hcloses.exists_of_eq_checked (norm_nonneg hnorm 2) ?_
    rw [squareChebyshevLegendreWith, ChebyshevLegendre.tableWith, require, if_pos horder, hsolve]
    rfl

/-- The Gauss-Legendre rule of order two. -/
noncomputable def pairRule : IntervalRule ℝ :=
  ⟨[-(1 / √3.0), 1 / √3.0], [1, 1]⟩

theorem isGauss_pairRule : pairRule.IsGauss 2 := by
  have hsquare : 1 / √3.0 * (1 / √3.0) = (1 / 3 : ℝ) := by
    rw [div_mul_div_comm, Real.mul_self_sqrt (by norm_num)]
    norm_num
  constructor
  case length_nodes => rfl
  case length_weights => rfl
  case reverse_nodes => simp [pairRule]
  case reverse_weights => rfl
  case sum_weights =>
    rw [pairRule]
    norm_num
  case integral_square =>
    intro _
    simp only [IntervalRule.integral, pairRule, List.zip_cons_cons, List.zip_nil_right,
      List.map_cons, List.map_nil, List.sum_cons, List.sum_nil, neg_mul_neg, hsquare]
    norm_num

/-- A solver that knows the rule of order two. -/
noncomputable def solvePair (order : ℕ) : Except (QuadratureError ℝ) (IntervalRule ℝ) :=
  if order = 2 then .ok pairRule else .error (.newtonIteration order)

/-- The sets of two and four directions on the interval and the square set of four
directions, with a norm of one. The iteration itself finds the sets of one and two
directions on the interval. -/
theorem checkClosure_of_isGauss_pairRule :
    solvePair 2 = .ok pairRule ∧ pairRule.IsGauss 2 ∧ (∀ c ∈ some (1 : ℝ), 0 ≤ c) ∧
    (∃ q, gaussLegendreWith solvePair 2 (some 1) = .ok q ∧ q.norm = 1 ∧
      q.ClosesExactly ∧ q.checkClosure = .ok ()) ∧
    (∃ q, doubleGaussWith solvePair 4 (some 1) = .ok q ∧ q.norm = 1 ∧
      q.ClosesExactly ∧ q.checkClosure = .ok ()) ∧
    (∃ q, squareChebyshevLegendreWith solvePair 2 (some 1) = .ok q ∧ q.norm = 1 ∧
      q.ClosesExactly ∧ q.checkClosure = .ok ()) ∧
    0 < 1 ∧ IntervalRule.DeliversRoots IntervalRule.newtonRoot 1 ∧
    (∃ q, gaussLegendre 1 (some (1 : ℝ)) = .ok q ∧ q.norm = 1 ∧
      q.ClosesExactly ∧ q.checkClosure = .ok ()) ∧
    ∃ q, doubleGauss 2 (some (1 : ℝ)) = .ok q ∧ q.norm = 1 ∧
      q.ClosesExactly ∧ q.checkClosure = .ok () := by
  have hnorm : ∀ c ∈ some (1 : ℝ), 0 ≤ c := by
    rintro c ⟨rfl⟩
    exact zero_le_one
  have hnodes : ∀ x ∈ pairRule.nodes, |x| ≤ 1 := by
    have hroot : 1 / √3.0 ≤ (1 : ℝ) := by
      rw [div_le_one (by positivity), Real.one_le_sqrt]
      norm_num
    have hnonneg : 0 ≤ 1 / √(3.0 : ℝ) := by positivity
    intro x hx
    simp only [pairRule, List.mem_cons, List.not_mem_nil, or_false] at hx
    rcases hx with rfl | rfl
    · rwa [abs_neg, abs_of_nonneg hnonneg]
    · rwa [abs_of_nonneg hnonneg]
  have hsolve : solvePair 2 = .ok pairRule := if_pos rfl
  obtain ⟨hown, hcloses, hexact⟩ := checkClosure_of_isGauss
  obtain ⟨hgauss, hdouble, hproduct⟩ := hcloses hsolve isGauss_pairRule hnorm
  have hdelivers := IntervalRule.deliversRoots_one
  obtain ⟨rule, hrule, hisGauss, -⟩ := hexact zero_lt_one hdelivers
  have hfound : IntervalRule.gaussLegendre 1 = .ok rule := hrule
  obtain ⟨hone, htwo, -⟩ := hcloses hfound hisGauss hnorm
  refine ⟨hsolve, isGauss_pairRule, hnorm, hgauss, hdouble, hproduct le_rfl hnodes, zero_lt_one,
    hdelivers, ?_, ?_⟩
  · rw [hown.1]
    exact hone
  · rw [hown.2.1]
    exact htwo

end Quadrature

end DiscreteOrdinates
