import DiscreteOrdinates.Proofs.Moments.RoundTrip
import DiscreteOrdinates.Proofs.Moments.WeightedInverse

/-!
# The first row of `D`

If `D` is a left inverse of `M`, then both ways to make it solve the normal
equations in the metric of the weights. The first column of `M` is constant, so
the first row of `D` repeats the weights exactly if these integrate the harmonics.
Main statement: `firstRow_eq_weights_iff`.
-/

namespace DiscreteOrdinates

open Matrix

/-! ## Normal equations -/

section

variable {n m : ℕ} {a : Matrix (Fin n) (Fin m) ℝ} {d : Matrix (Fin m) (Fin n) ℝ} {w : Fin n → ℝ}

/-- A left inverse that solves the normal equations has the weights in the row
that belongs to a constant column exactly if they integrate the columns. -/
theorem row_eq_weights_iff (hinverse : d * a = 1)
    (hnormal : aᵀ * diagonal w * a * d = aᵀ * diagonal w) {j : Fin m} {c : ℝ} (hc : c ≠ 0)
    (hconst : ∀ i, a i j = c) : d j = w ↔ w ᵥ* a = Pi.single j 1 := by
  have hrow : (aᵀ * diagonal w) j = c • w := by
    funext i
    rw [mul_diagonal, transpose_apply, hconst]
    rfl
  constructor
  · intro h
    calc
      w ᵥ* a = (d * a) j := by rw [← h, mul_apply_eq_vecMul]
      _ = Pi.single j 1 := by
        rw [hinverse]
        funext k
        exact one_eq_pi_single
  · intro h
    have hscaled : c • d j = c • w := by
      calc
        c • d j = (c • w) ᵥ* a ᵥ* d := by
          rw [smul_vecMul, h, smul_vecMul, single_one_vecMul]
          rfl
        _ = (aᵀ * diagonal w * a * d) j := by
          rw [mul_apply_eq_vecMul, mul_apply_eq_vecMul, hrow]
        _ = c • w := by rw [hnormal, hrow]
    exact smul_right_injective _ hc hscaled

/-- A left inverse of a square matrix is an inverse. -/
theorem normal_of_square (hsize : m = n) (hinverse : d * a = 1) :
    aᵀ * diagonal w * a * d = aᵀ * diagonal w := by
  have hright : a * d = 1 := (mul_eq_one_comm_of_equiv (finCongr hsize)).mp hinverse
  rw [Matrix.mul_assoc, hright, Matrix.mul_one]

end

namespace MomentOperators

theorem weightRoots_mul_self {weights : List ℝ} (h : ∀ w ∈ weights, 0 ≤ w) (n : ℕ) :
    weightRoots weights n * weightRoots weights n = diagonal fun i : Fin n => weights.getD i 0 := by
  have hnonneg : ∀ i : Fin n, 0 ≤ weights.getD i 0 := by
    intro i
    rw [List.getD_eq_getElem?_getD]
    cases hi : weights[i.val]? with
    | none => exact le_rfl
    | some w => exact h w (List.mem_of_getElem? hi)
  rw [weightRoots, diagonal_mul_diagonal]
  simp only [Real.mul_self_sqrt (hnonneg _)]

/-- A pseudo-inverse in the metric of the weights that is a left inverse solves
the normal equations. -/
theorem normal_of_weighted {n m : ℕ} {a : Matrix (Fin n) (Fin m) ℝ} {weights : List ℝ}
    (hweights : ∀ w ∈ weights, 0 ≤ w) (f : SingularFactors (weightRoots weights n * a)) {cutoff : ℝ}
    (hcutoff : 0 ≤ cutoff) (hinverse : f.pseudoInverse cutoff * weightRoots weights n * a = 1) :
    aᵀ * diagonal (fun i : Fin n => weights.getD i 0) * a *
        (f.pseudoInverse cutoff * weightRoots weights n) =
      aᵀ * diagonal fun i : Fin n => weights.getD i 0 := by
  have hroots := weightRoots_mul_self hweights n
  have hsymm : (weightRoots weights n)ᵀ = weightRoots weights n := diagonal_transpose _
  rw [Matrix.mul_assoc, f.pseudoInverse_mul_eq_one_iff hcutoff] at hinverse
  have hnormal := f.transpose_mul_self_mul_pseudoInverse hcutoff hinverse
  rw [transpose_mul, hsymm] at hnormal
  calc
    aᵀ * diagonal (fun i : Fin n => weights.getD i 0) * a *
        (f.pseudoInverse cutoff * weightRoots weights n)
        = aᵀ * weightRoots weights n * (weightRoots weights n * a) * f.pseudoInverse cutoff *
            weightRoots weights n := by
      rw [← hroots]
      simp only [Matrix.mul_assoc]
    _ = aᵀ * diagonal fun i : Fin n => weights.getD i 0 := by
      rw [hnormal, Matrix.mul_assoc, hroots]

/-- The weights of a set, one for each of its ordinates. -/
theorem wt_eq_ofFn (q : Quadrature ℝ) :
    q.table.wt = List.ofFn fun i : Fin q.ordinates.length => q.table.wt.getD i 0 := by
  apply List.ext_getElem
  · rw [List.length_ofFn, q.length_ordinates]
    rfl
  · intro i hi hi'
    simp [hi]

/-- What weights make of a column of a stored matrix. -/
theorem vecMul_eq_sum_entry {n m : ℕ} (a : Matrix (Fin n) (Fin m) ℝ) (weights : List ℝ) (j : Fin m) :
    ((fun i : Fin n => weights.getD i 0) ᵥ* a) j =
      ∑ i : Fin n, weights.getD i 0 * (DenseMatrix.ofMatrix a).entry i j := by
  have hentries : ∀ i : Fin n, (DenseMatrix.ofMatrix a).entry i j = a i j :=
    fun i => DenseMatrix.entry_ofMatrix a i j
  simp only [hentries]
  rfl

/-- The harmonic of degree zero is constant. -/
theorem fluxEntry_zero (norm : ℝ) (o : Ordinate ℝ) : fluxEntry norm ⟨0, 0⟩ o = .ok (1 / norm) := by
  simp [fluxEntry, Harmonic.tesseral_zero_order, Legendre.associated_zero_zero]

end MomentOperators

/-- A product can only be the identity if the shapes fit. -/
theorem DenseMatrix.exists_eq_ofMatrix_of_mul {n m : ℕ} {D : DenseMatrix ℝ}
    {a : Matrix (Fin n) (Fin m) ℝ} (h : D.mul (.ofMatrix a) = .ok (.identity m)) :
    ∃ d : Matrix (Fin m) (Fin n) ℝ, D = .ofMatrix d ∧ d * a = 1 := by
  have hcols : D.cols = n := by
    by_contra hne
    rw [mul, dif_neg fun heq => hne heq.symm] at h
    cases h
  have hrows : D.rows = m := by
    have hshape : (ofMatrix a).rows = D.cols := hcols.symm
    rw [mul, dif_pos hshape] at h
    exact congrArg DenseMatrix.rows (Except.ok.inj h)
  obtain ⟨d, rfl⟩ := exists_eq_ofMatrix hrows hcols
  exact ⟨d, rfl, (mul_eq_identity_iff d a).mp h⟩

namespace MomentOperators

/-- Every interpolation solves the normal equations if its `D` is a left inverse
of `M`. -/
theorem toMoments_normal [MatrixSolver ℝ]
    (hsolver : DecomposesExactly (MatrixSolver.decompose (R := ℝ))) {q : Quadrature ℝ}
    {model : Interpolation} {s : MomentOperators ℝ}
    (h : (∃ expansionOrder, ofQuadrature q model expansionOrder = .ok s) ∨
      ∃ is, ofMoments q model is = .ok s)
    {a : Matrix (Fin q.ordinates.length) (Fin s.moments.length) ℝ} (hM : s.toFlux = .ofMatrix a)
    {d : Matrix (Fin s.moments.length) (Fin q.ordinates.length) ℝ} (hD : s.toMoments = .ofMatrix d)
    (hinverse : d * a = 1) :
    aᵀ * diagonal (fun i : Fin q.ordinates.length => q.table.wt.getD i 0) * a * d =
      aᵀ * diagonal fun i : Fin q.ordinates.length => q.table.wt.getD i 0 := by
  obtain ⟨hle, hsquare, hbuilt⟩ := isBuilt_of_ok h
  rw [← q.length_ordinates] at hle hsquare
  by_cases hmodel : model.isSquare
  · exact normal_of_square (hsquare hmodel) hinverse
  · have htoMoments := hbuilt.toMoments
    rw [if_neg hmodel, hM, hD] at htoMoments
    obtain ⟨-, -, f, -, hd⟩ := exists_factors_of_weightedInverse_eq_ok hsolver hle htoMoments
    obtain rfl := DenseMatrix.ofMatrix_injective hd
    exact normal_of_weighted (nonneg_of_weightedInverse_eq_ok htoMoments) f (cutoff_nonneg _) hinverse

/-- Operators of any interpolation whose `D` is a left inverse of `M` and whose
first moment is `(0, 0)` have the weights of the set as the first row of `D`
exactly if the weights integrate every retained harmonic, that is, if the sum of
the weights times the column of `M` is one for the first moment and zero for all
others. -/
theorem firstRow_eq_weights_iff [MatrixSolver ℝ]
    (hsolver : DecomposesExactly (MatrixSolver.decompose (R := ℝ))) {q : Quadrature ℝ}
    {model : Interpolation} {s : MomentOperators ℝ}
    (h : (∃ expansionOrder, ofQuadrature q model expansionOrder = .ok s) ∨
      ∃ is, ofMoments q model is = .ok s)
    (hnorm : q.norm ≠ 0) (hfirst : s.moments.head? = some ⟨0, 0⟩)
    (hinverse : s.toMoments.mul s.toFlux = .ok (.identity s.moments.length)) :
    s.toMoments.row? 0 = some q.table.wt ↔
      ∀ n : Fin s.toFlux.cols,
        ∑ m : Fin s.toFlux.rows, q.table.wt.getD m 0 * s.toFlux.entry m n =
          if n.val = 0 then 1 else 0 := by
  obtain ⟨-, -, hbuilt⟩ := isBuilt_of_ok h
  obtain ⟨a, hM, hentry⟩ := DenseMatrix.exists_eq_ofMatrix_of_ofFnM hbuilt.toFlux
  obtain ⟨d, hD, hleft⟩ := DenseMatrix.exists_eq_ofMatrix_of_mul (hM ▸ hinverse)
  have hnormal := toMoments_normal hsolver h hM hD hleft
  obtain ⟨hpos, hget⟩ : ∃ hpos : 0 < s.moments.length, s.moments.get ⟨0, hpos⟩ = ⟨0, 0⟩ := by
    obtain ⟨is, his⟩ := List.head?_eq_some_iff.mp hfirst
    have hpos : 0 < s.moments.length := by simp [his]
    exact ⟨hpos, by simp [his]⟩
  have hconst : ∀ i, a i ⟨0, hpos⟩ = 1 / q.norm := by
    intro i
    have hvalue := hentry i ⟨0, hpos⟩
    rw [hget, fluxEntry_zero] at hvalue
    exact (Except.ok.inj hvalue).symm
  have hrow : s.toMoments.row? 0 = some (List.ofFn (d ⟨0, hpos⟩)) := by
    rw [hD]
    exact DenseMatrix.row?_ofMatrix d ⟨0, hpos⟩
  rw [hrow, hM, Option.some.injEq]
  nth_rewrite 1 [wt_eq_ofFn q]
  rw [List.ofFn_injective.eq_iff,
    row_eq_weights_iff hleft hnormal (one_div_ne_zero hnorm) hconst, funext_iff]
  refine forall_congr' fun n => ?_
  have hunit : (Pi.single ⟨0, hpos⟩ 1 : Fin s.moments.length → ℝ) n = if n.val = 0 then 1 else 0 := by
    simp [Pi.single_apply, Fin.ext_iff]
  rw [vecMul_eq_sum_entry, hunit]
  exact Iff.rfl

/-- The Gauss-Legendre set of order two integrates both of its harmonics, so its
weights are the first row of `D`. -/
theorem firstRow_eq_weights_iff_pair :
    let solver : MatrixSolver ℝ := .ofColumns ColumnMatrix.exactInverse? exactDecompose
    DecomposesExactly solver.decompose ∧ gaussPair.norm ≠ 0 ∧
    ∃ s, @ofQuadrature ℝ _ solver gaussPair .galerkin none = .ok s ∧
      s.moments.head? = some ⟨0, 0⟩ ∧
      s.toMoments.mul s.toFlux = .ok (.identity s.moments.length) ∧
      s.toMoments.row? 0 = some [1, 1] := by
  intro solver
  have hsolver : DecomposesExactly solver.decompose := decomposesExactly_exactDecompose
  have hnorm : gaussPair.norm ≠ 0 := by simp [gaussPair, Scalar.two_real]
  have hs := ofQuadrature_gaussPair ColumnMatrix.invertsExactly_exactInverse? exactDecompose
  have hinverse : (DenseMatrix.ofMatrix gaussPairFlux⁻¹).mul (.ofMatrix gaussPairFlux) =
      .ok (.identity 2) :=
    (DenseMatrix.mul_eq_identity_iff _ _).mpr
      (nonsing_inv_mul _ (IsUnit.mk0 _ det_gaussPairFlux))
  have hintegrates : ∀ n : Fin 2, ∑ m : Fin 2,
      [(1 : ℝ), 1].getD m 0 * (DenseMatrix.ofMatrix gaussPairFlux).entry m n =
        if n.val = 0 then 1 else 0 := by
    have hentries : ∀ m n : Fin 2, (DenseMatrix.ofMatrix gaussPairFlux).entry m n = gaussPairFlux m n :=
      fun m n => DenseMatrix.entry_ofMatrix gaussPairFlux m n
    intro n
    simp only [hentries, Fin.sum_univ_two]
    fin_cases n <;> norm_num [gaussPairFlux]
  exact ⟨hsolver, hnorm, _, hs, rfl, hinverse,
    (@firstRow_eq_weights_iff solver hsolver _ _ _ (.inl ⟨none, hs⟩) hnorm rfl hinverse).mpr
      hintegrates⟩

end MomentOperators

end DiscreteOrdinates
