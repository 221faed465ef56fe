import DiscreteOrdinates.Proofs.Moments.FirstRow
import DiscreteOrdinates.Proofs.Moments.Reordering

/-!
# Isotropic flux

The moment of degree zero is the flux summed over all directions. Alone it makes a
flux that is the same in every direction, whatever the directions and their weights,
and if `D` is a left inverse of `M`, such a flux has no other moment. Main statement:
`project_replicate_of_leftInverse`.
-/

namespace DiscreteOrdinates

/-- One value among zeros is a unit vector times the value. -/
theorem set_replicate_eq_ofFn {n : ℕ} (j : Fin n) (x : ℝ) :
    (List.replicate n 0).set j x = List.ofFn (Pi.single j x : Fin n → ℝ) := by
  refine List.ext_getElem (by simp) fun i hi hi' => ?_
  simp [List.getElem_set, Pi.single_apply, Fin.ext_iff, eq_comm]

namespace MomentOperators

section

variable [MatrixSolver ℝ] {q : Quadrature ℝ} {model : Interpolation} {s : MomentOperators ℝ}

/-- The moment of degree zero spreads evenly over all directions. -/
theorem flux_set_replicate (hbuilt : IsBuilt q model s) {j : ℕ} (hj : s.moments[j]? = some ⟨0, 0⟩)
    (x : ℝ) :
    s.flux ((List.replicate s.moments.length 0).set j x) =
      .ok (List.replicate q.angles (x / s.norm)) := by
  obtain ⟨hlt, hget⟩ := List.getElem?_eq_some_iff.mp hj
  obtain ⟨a, hM, hentry⟩ := DenseMatrix.exists_eq_ofMatrix_of_ofFnM hbuilt.toFlux
  have hconst : ∀ i, a i ⟨j, hlt⟩ = 1 / s.norm := by
    intro i
    have hvalue := hentry i ⟨j, hlt⟩
    rw [List.get_eq_getElem, hget, fluxEntry_zero, ← hbuilt.norm] at hvalue
    exact (Except.ok.inj hvalue).symm
  have hcolumn : a.mulVec (Pi.single ⟨j, hlt⟩ x) = fun _ => x / s.norm := by
    funext i
    simp [Matrix.mulVec, hconst, div_eq_inv_mul]
  rw [set_replicate_eq_ofFn ⟨j, hlt⟩, flux, hM, multiply_ofMatrix, hcolumn, List.ofFn_const,
    q.length_ordinates]

/-- Operators of any interpolation that retain the moment of degree zero and whose `D`
is a left inverse of `M` take a flux that is the same in all directions to this moment
alone, which is the flux times the norm of the set. The moment alone, divided by the
norm, is the flux in every direction. Neither depends on directions or weights. -/
theorem project_replicate_of_leftInverse
    (h : (∃ expansionOrder, ofQuadrature q model expansionOrder = .ok s) ∨
      ∃ is, ofMoments q model is = .ok s)
    (hnorm : s.norm ≠ 0)
    (hinverse : s.toMoments.mul s.toFlux = .ok (.identity s.moments.length)) {j : ℕ}
    (hj : s.moments[j]? = some ⟨0, 0⟩) (c : ℝ) :
    s.project (List.replicate q.angles c) =
        .ok ((List.replicate s.moments.length 0).set j (c * s.norm)) ∧
      s.flux ((List.replicate s.moments.length 0).set j c) =
        .ok (List.replicate q.angles (c / s.norm)) := by
  obtain ⟨-, -, hbuilt⟩ := isBuilt_of_ok h
  refine ⟨?_, flux_set_replicate hbuilt hj c⟩
  obtain ⟨a, hM, -⟩ := DenseMatrix.exists_eq_ofMatrix_of_ofFnM hbuilt.toFlux
  obtain ⟨d, hD, hleft⟩ := DenseMatrix.exists_eq_ofMatrix_of_mul (hM ▸ hinverse)
  -- The constant flux is what `M` makes of the moment, and `D` takes it back.
  have hflux := flux_set_replicate hbuilt hj (c * s.norm)
  rw [mul_div_cancel_right₀ c hnorm] at hflux
  have hrestored := (flux_bind_project_eq_self_iff hM hD (congrArg List.length hbuilt.ordinates)
    rfl).mpr hleft ((List.replicate s.moments.length 0).set j (c * s.norm)) (by simp)
  rwa [hflux] at hrestored

end

/-- The Gauss-Legendre set of order two with the moment of degree zero in second place. -/
theorem project_replicate_of_leftInverse_swapped :
    let solver : MatrixSolver ℝ := .ofColumns ColumnMatrix.exactInverse? exactDecompose
    ∃ s, @ofMoments ℝ _ solver gaussPair .sn [⟨1, 0⟩, ⟨0, 0⟩] = .ok s ∧ s.norm ≠ 0 ∧
      s.toMoments.mul s.toFlux = .ok (.identity s.moments.length) ∧
      s.moments[1]? = some ⟨0, 0⟩ ∧ s.project [7, 7] = .ok [0, 7 * s.norm] ∧
      s.flux [0, 7] = .ok [7 / s.norm, 7 / s.norm] := by
  intro solver
  have hM := fluxMatrix_permuted rfl rfl fluxMatrix_gaussPair 1 (Equiv.swap 0 1)
  have hdet : (gaussPairFlux.submatrix (1 : Equiv.Perm (Fin 2)) (Equiv.swap 0 1)).det ≠ 0 := by
    have hswapped := Matrix.det_permute' (Equiv.swap (0 : Fin 2) 1) gaussPairFlux
    rw [Equiv.Perm.coe_one, hswapped]
    simpa using det_gaussPairFlux
  have hmodel : Interpolation.sn.isSquare := rfl
  have hbuild := (build_of_isSquare ColumnMatrix.invertsExactly_exactInverse? exactDecompose hmodel
    hM).trans (if_neg hdet)
  have hs := (@ofMoments_eq_build ℝ _ solver gaussPair .sn [⟨1, 0⟩, ⟨0, 0⟩] rfl).trans hbuild
  have hnorm : gaussPair.norm ≠ 0 := by simp [gaussPair, Scalar.two_real]
  have hinverse := (DenseMatrix.mul_eq_identity_iff _ _).mpr
    (Matrix.nonsing_inv_mul _ (IsUnit.mk0 _ hdet))
  obtain ⟨hproject, hflux⟩ := @project_replicate_of_leftInverse solver gaussPair .sn _
    (.inr ⟨_, hs⟩) hnorm hinverse 1 rfl 7
  exact ⟨_, hs, hnorm, hinverse, rfl, hproject, hflux⟩

end MomentOperators

end DiscreteOrdinates
