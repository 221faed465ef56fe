import DiscreteOrdinates.Proofs.Matrix.Inversion
import DiscreteOrdinates.Proofs.Moments.Construction

/-!
# Round trips

An interpolation with as many moments as angles loses nothing: angular flux and
moments can be turned into each other and back. Main statement:
`roundTrips_of_isSquare`.
-/

namespace DiscreteOrdinates

/-! ## Inverse operators -/

namespace MomentOperators

/-- Operators that undo each other, for a set of `n` angles. -/
structure RoundTrips (s : MomentOperators ℝ) (n : ℕ) : Prop where
  toMoments_toFlux : s.toMoments.mul s.toFlux = .ok (.identity n)
  toFlux_toMoments : s.toFlux.mul s.toMoments = .ok (.identity n)
  flux_project : ∀ psi : List ℝ, psi.length = n → (s.project psi >>= s.flux) = .ok psi
  project_flux : ∀ phi : List ℝ, phi.length = n → (s.flux phi >>= s.project) = .ok phi

section

variable {inverse? : ColumnMatrix ℝ → Option (ColumnMatrix ℝ)}
  (hinverse : ColumnMatrix.InvertsExactly inverse?)
  (decompose : DenseMatrix ℝ → SingularDecomposition ℝ)

include hinverse

theorem inverse_ofMatrix (model : Interpolation) {n : ℕ} (a : Matrix (Fin n) (Fin n) ℝ) :
    @inverse ℝ _ (.ofColumns inverse? decompose) model (.ofMatrix a) =
      if a.det = 0 then .error (.singularOperator model) else .ok (.ofMatrix a⁻¹) := by
  have hsolver := hinverse.inverse?_ofMatrix decompose a
  by_cases hdet : a.det = 0
  · rw [if_pos hdet] at hsolver ⊢
    simp [inverse, hsolver]
  · rw [if_neg hdet] at hsolver ⊢
    simp [inverse, hsolver]

/-- A square interpolation has operators unless its matrix `M` is singular. -/
theorem build_of_isSquare {q : Quadrature ℝ} {model : Interpolation} {is : List MomentIndex} {n : ℕ}
    {a : Matrix (Fin n) (Fin n) ℝ} (hmodel : model.isSquare)
    (hM : fluxMatrix q.norm q.ordinates is = .ok (.ofMatrix a)) :
    @build ℝ _ (.ofColumns inverse? decompose) q model is =
      if a.det = 0 then .error (.singularOperator model)
      else .ok ⟨model, q.dimension, q.norm, q.ordinates, is, .ofMatrix a, .ofMatrix a⁻¹⟩ := by
  have hD := inverse_ofMatrix hinverse decompose model a
  by_cases hdet : a.det = 0
  · rw [if_pos hdet] at hD ⊢
    simp [build, hM, hmodel, hD, bind, Except.bind]
  · rw [if_neg hdet] at hD ⊢
    simp [build, hM, hmodel, hD, bind, Except.bind, pure, Except.pure]

end

theorem roundTrips_of_inverse {s : MomentOperators ℝ} {n : ℕ} {a : Matrix (Fin n) (Fin n) ℝ}
    (hdet : a.det ≠ 0) (hM : s.toFlux = .ofMatrix a) (hD : s.toMoments = .ofMatrix a⁻¹)
    (hangles : s.ordinates.length = n) (hmoments : s.moments.length = n) : s.RoundTrips n := by
  have hunit : IsUnit a.det := IsUnit.mk0 _ hdet
  have hleft : a⁻¹ * a = 1 := Matrix.nonsing_inv_mul a hunit
  have hright : a * a⁻¹ = 1 := Matrix.mul_nonsing_inv a hunit
  constructor
  case toMoments_toFlux =>
    rw [hM, hD]
    exact (DenseMatrix.mul_eq_identity_iff _ _).mpr hleft
  case toFlux_toMoments =>
    rw [hM, hD]
    exact (DenseMatrix.mul_eq_identity_iff _ _).mpr hright
  case flux_project =>
    intro psi hpsi
    obtain ⟨v, rfl⟩ := exists_eq_ofFn_of_length hpsi
    rw [project_bind_flux hM hD hangles hmoments, hright, Matrix.one_mulVec]
  case project_flux =>
    exact (flux_bind_project_eq_self_iff hM hD hangles hmoments).mpr hleft

/-- The operators of a square interpolation undo each other, however its moments
are chosen, provided that matrices are inverted exactly. -/
theorem roundTrips_of_isSquare {inverse? : ColumnMatrix ℝ → Option (ColumnMatrix ℝ)}
    (hinverse : ColumnMatrix.InvertsExactly inverse?)
    {decompose : DenseMatrix ℝ → SingularDecomposition ℝ} {q : Quadrature ℝ}
    {model : Interpolation} {s : MomentOperators ℝ} (hmodel : model.isSquare)
    (h : (∃ expansionOrder,
        @ofQuadrature ℝ _ (.ofColumns inverse? decompose) q model expansionOrder = .ok s) ∨
      ∃ is, @ofMoments ℝ _ (.ofColumns inverse? decompose) q model is = .ok s) :
    s.RoundTrips q.angles := by
  obtain ⟨-, hcount, -, hordinates, hflux, hD⟩ :=
    @isBuilt_of_ok (.ofColumns inverse? decompose) q model s h
  have hmoments : s.moments.length = q.ordinates.length :=
    (hcount hmodel).trans q.length_ordinates.symm
  obtain ⟨a, hM⟩ : ∃ a : Matrix (Fin q.ordinates.length) (Fin q.ordinates.length) ℝ,
      s.toFlux = .ofMatrix a := by
    obtain ⟨a, hM, -⟩ := DenseMatrix.exists_eq_ofMatrix_of_ofFnM hflux
    rw [hM]
    exact DenseMatrix.exists_eq_ofMatrix rfl hmoments
  rw [if_pos hmodel, hM, inverse_ofMatrix hinverse decompose] at hD
  split at hD
  · cases hD
  next hdet =>
    rw [← q.length_ordinates]
    exact roundTrips_of_inverse hdet hM (Except.ok.inj hD).symm
      (congrArg List.length hordinates) hmoments

/-- The matrix `M` of the Gauss-Legendre set of order two. -/
noncomputable def gaussPairFlux : Matrix (Fin 2) (Fin 2) ℝ :=
  !![0.5, -(1.5 * (√3.0)⁻¹); 0.5, 1.5 * (√3.0)⁻¹]

theorem fluxMatrix_gaussPair :
    fluxMatrix gaussPair.norm gaussPair.ordinates [⟨0, 0⟩, ⟨1, 0⟩] = .ok (.ofMatrix gaussPairFlux) := by
  rw [ordinates_gaussPair, fluxMatrix_eq_ok _ _ (by simp [MomentIndex.isValid])]
  refine congrArg (fun f => Except.ok (DenseMatrix.ofFn 2 2 f)) ?_
  funext m n
  fin_cases m <;> fin_cases n <;>
    norm_num [gaussPair, gaussPairFlux, MomentIndex.harmonics, Harmonic.tesseral_zero_order,
      Scalar.two_real, Legendre.associated_zero_zero, Legendre.associated_one_zero]

theorem det_gaussPairFlux : gaussPairFlux.det ≠ 0 := by
  have hpos : 0 < (√3)⁻¹ := by positivity
  rw [gaussPairFlux, Matrix.det_fin_two_of]
  linarith

theorem ofQuadrature_gaussPair {inverse? : ColumnMatrix ℝ → Option (ColumnMatrix ℝ)}
    (hinverse : ColumnMatrix.InvertsExactly inverse?)
    (decompose : DenseMatrix ℝ → SingularDecomposition ℝ) :
    @ofQuadrature ℝ _ (.ofColumns inverse? decompose) gaussPair .galerkin none =
      .ok ⟨.galerkin, 1, gaussPair.norm, gaussPair.ordinates, [⟨0, 0⟩, ⟨1, 0⟩],
        .ofMatrix gaussPairFlux, .ofMatrix gaussPairFlux⁻¹⟩ := by
  have hmodel : Interpolation.galerkin.isSquare := rfl
  have hbuild := build_of_isSquare hinverse decompose hmodel fluxMatrix_gaussPair
  rw [if_neg det_gaussPairFlux] at hbuild
  exact (@ofQuadrature_eq_build ℝ _ (.ofColumns inverse? decompose) _ _ _ _ select_gaussPair).trans hbuild

/-- The Gauss-Legendre set of order two goes from flux to moments and back. -/
theorem roundTrips_of_isSquare_pair :
    let inverse? := ColumnMatrix.exactInverse?
    let decompose := fun _ => ⟨[], fun _ => .zeros 0 0⟩
    ColumnMatrix.InvertsExactly inverse? ∧ Interpolation.galerkin.isSquare ∧
    ∃ s, @ofQuadrature ℝ _ (.ofColumns inverse? decompose) gaussPair .galerkin none = .ok s ∧
      s.RoundTrips 2 := by
  intro inverse? decompose
  have hinverse : ColumnMatrix.InvertsExactly inverse? := ColumnMatrix.invertsExactly_exactInverse?
  have hmodel : Interpolation.galerkin.isSquare := rfl
  have hs := ofQuadrature_gaussPair hinverse decompose
  exact ⟨hinverse, hmodel, _, hs, roundTrips_of_isSquare hinverse hmodel (.inl ⟨none, hs⟩)⟩

end MomentOperators

end DiscreteOrdinates
