import DiscreteOrdinates.Proofs.Moments.Construction
import DiscreteOrdinates.Proofs.Quadrature.Angles
import DiscreteOrdinates.Proofs.Quadrature.UserTable

/-!
# Standard moments

The moments that an interpolation selects by itself pass for moments of a user, so
the operators are the same on either way. Main statement:
`selected_moments_validate`.
-/

namespace DiscreteOrdinates

/-- Exact arithmetic tells the constant from zero. -/
theorem Quadrature.resolvesConstant_real {q : Quadrature ℝ} (hangles : 0 < q.angles) :
    q.ResolvesConstant := by
  have hdot : MomentIndex.dot (List.replicate q.angles (1.0 : ℝ)) (List.replicate q.angles 1.0) =
      q.angles := by
    rw [MomentIndex.dot, List.zipWith_replicate', Scalar.zero_real, Scalar.one_real,
      ← List.sum_eq_foldl, List.sum_replicate, nsmul_eq_mul, mul_one, mul_one]
  have hpos : 0 < MomentIndex.norm (List.replicate q.angles (1.0 : ℝ)) := by
    rw [MomentIndex.norm, hdot]
    exact Real.sqrt_pos.mpr (Nat.cast_pos.mpr hangles)
  constructor
  case harmonic =>
    intro o _
    rw [Harmonic.tesseral_zero_order, Legendre.associated_zero_zero, Scalar.one_real]
  case size =>
    rw [Scalar.zero_real]
    exact beq_false_of_ne hpos.ne'
  case left =>
    have htolerance : (MomentIndex.independenceTolerance : ℝ) < 1 := by
      unfold MomentIndex.independenceTolerance
      norm_num
    exact mul_lt_of_lt_one_left hpos htolerance

namespace MomentOperators

open MomentIndex

/-- Whatever an interpolation selects for a set that some configuration describes is
a list that the validation accepts: not empty, without repetition, of moments that
the set resolves, and of the required length. It starts with the constant, for the
independent moments provided that the arithmetic of the search resolves the constant,
as exact arithmetic does. Hence the operators of an interpolation are those of the
moments it selects. -/
theorem selected_moments_validate :
    (∀ {R : Type} [Scalar R] [MatrixSolver R] {c : Configuration R} {q : Quadrature R}
      {model : Interpolation} {expansionOrder : Option ℕ} {is : List MomentIndex},
      c.build = .ok q → select q model expansionOrder = .ok is →
      is ≠ [] ∧ is.Nodup ∧ (∀ i ∈ is, i.k.natAbs ≤ i.l ∧ i.isResolvedIn q.dimension) ∧
      ((model = .galerkin → q.ResolvesConstant) → is.head? = some ⟨0, 0⟩) ∧
      (model = .sn ∨ model = .galerkin → is.length = q.angles) ∧
      (model = .svd → is.length ≤ q.angles) ∧
      validate is q.dimension model q.angles = (.ok () : Except (MomentError R) Unit) ∧
      ofQuadrature q model expansionOrder = ofMoments q model is) ∧
    (∀ [MatrixSolver ℝ] {c : Configuration ℝ} {q : Quadrature ℝ},
      c.build = .ok q → q.ResolvesConstant) := by
  constructor
  · intro R _ _ c q model expansionOrder is hbuild hselect
    have hangles := Quadrature.angles_pos_of_build hbuild
    have hvalidate := validate_of_select hangles hselect
    obtain ⟨hne, hvalid, hresolved, hnodup, hle, hsquare⟩ := validate_eq_ok.mp hvalidate
    refine ⟨hne, hnodup, fun i hi => ⟨of_decide_eq_true (hvalid i hi), hresolved i hi⟩,
      fun hconstant => head?_of_select hangles hconstant hselect, ?_, fun _ => hle, hvalidate, ?_⟩
    · rintro (rfl | rfl)
      · exact hsquare rfl
      · exact hsquare rfl
    · rw [ofQuadrature_eq_build hselect, ofMoments_eq_build hvalidate]
  · intro _ c q hbuild
    exact Quadrature.resolvesConstant_real (Quadrature.angles_pos_of_build hbuild)

/-- The directions of the Gauss-Legendre set of order two, as a user supplies them. -/
noncomputable def userPair : Configuration ℝ where
  family := .general
  order := 2
  dimension := some 1
  norm := some 2.0
  name := some "pair"
  ordinates := some gaussPair.table

theorem build_userPair [MatrixSolver ℝ] :
    userPair.build = .ok ⟨.general "pair" 1 2, 2, 2.0, gaussPair.table⟩ := by
  have hroot : (1 : ℝ) ≤ √3 := Real.one_le_sqrt.mpr (by norm_num)
  have hinv : (0 : ℝ) < (√3)⁻¹ := by positivity
  have hle : (√3 : ℝ)⁻¹ ≤ 1 := inv_le_one_of_one_le₀ hroot
  refine Quadrature.general_line (List.cons_ne_nil _ _) rfl ?_ (by simp) (by norm_num)
  refine List.forall_mem_cons.mpr ⟨?_, List.forall_mem_singleton.mpr ?_⟩
  · exact ⟨(neg_neg_of_pos hinv).ne, by rwa [abs_neg, abs_of_pos hinv]⟩
  · exact ⟨hinv.ne', by rwa [abs_of_pos hinv]⟩

/-- The Galerkin interpolation of the pair selects the constant and the cosine. -/
theorem selected_moments_validate_pair :
    let solver : MatrixSolver ℝ := ⟨DenseMatrix.exactInverse?, fun _ => ⟨[], fun _ => .zeros 0 0⟩⟩
    ∃ q, @Configuration.build ℝ _ solver userPair = .ok q ∧
      select q .galerkin none = .ok [⟨0, 0⟩, ⟨1, 0⟩] ∧
      validate [⟨0, 0⟩, ⟨1, 0⟩] 1 .galerkin 2 = (.ok () : Except (MomentError ℝ) Unit) ∧
      @ofQuadrature ℝ _ solver q .galerkin none =
        @ofMoments ℝ _ solver q .galerkin [⟨0, 0⟩, ⟨1, 0⟩] ∧
      ([⟨0, 0⟩, ⟨1, 0⟩] : List MomentIndex).head? = some ⟨0, 0⟩ := by
  intro solver
  have hselect : select (⟨.general "pair" 1 2, 2, 2.0, gaussPair.table⟩ : Quadrature ℝ) .galerkin
      none = .ok [⟨0, 0⟩, ⟨1, 0⟩] := select_gaussPair
  have hbuild := @build_userPair solver
  obtain ⟨-, -, -, hhead, -, -, hvalidate, hoperators⟩ :=
    selected_moments_validate.1 hbuild hselect
  exact ⟨_, hbuild, hselect, hvalidate, hoperators,
    hhead fun _ => selected_moments_validate.2 hbuild⟩

end MomentOperators

end DiscreteOrdinates
