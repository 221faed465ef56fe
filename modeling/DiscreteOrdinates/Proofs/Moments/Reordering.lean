import DiscreteOrdinates.Proofs.Matrix.PseudoInverse
import DiscreteOrdinates.Proofs.Moments.Renumbering
import DiscreteOrdinates.Proofs.Moments.RoundTrip
import DiscreteOrdinates.Proofs.Moments.WeightedInverse
import DiscreteOrdinates.Proofs.Quadrature.Reordering

/-!
# Operators of reordered sets

In exact arithmetic the operators follow the order of the directions and of the
moments: the rows of `M` and the columns of `D` are those of the directions, the
columns of `M` and the rows of `D` those of the moments, and nothing else depends
on the order. Main statement: `operators_permute`.
-/

namespace DiscreteOrdinates

open Matrix

variable {n m : ℕ}

namespace MomentOperators

/-! ## The matrix `M` -/

theorem fluxMatrix_permuted {norm : ℝ} {os : List (Ordinate ℝ)} {is : List MomentIndex}
    (hos : os.length = n) (his : is.length = m) {a : Matrix (Fin n) (Fin m) ℝ}
    (h : fluxMatrix norm os is = .ok (.ofMatrix a)) (σ : Equiv.Perm (Fin n))
    (π : Equiv.Perm (Fin m)) :
    fluxMatrix norm (permuted σ os) (permuted π is) = .ok (.ofMatrix (a.submatrix σ π)) := by
  obtain ⟨o, rfl⟩ := exists_eq_ofFn_of_length hos
  obtain ⟨i, rfl⟩ := exists_eq_ofFn_of_length his
  rw [permuted_ofFn, permuted_ofFn]
  rw [fluxMatrix_ofFn_eq_ok] at h ⊢
  exact fun r c => h (σ r) (π c)

/-! ## The matrix `D` -/

theorem weightRoots_permuted {weights : List ℝ} (h : weights.length = n) (σ : Equiv.Perm (Fin n)) :
    weightRoots (permuted σ weights) n = (weightRoots weights n).submatrix σ σ := by
  have hnth : ∀ i : Fin n, (permuted σ weights).getD i 0 = weights.getD (σ i) 0 := by
    intro i
    rw [← Scalar.nth_real, ← Scalar.nth_real]
    exact nth_permuted σ (.inr h) i
  rw [weightRoots, weightRoots, submatrix_diagonal_equiv]
  exact congrArg diagonal (funext fun i => congrArg Real.sqrt (hnth i))

theorem inverse_permuted {inverse? : ColumnMatrix ℝ → Option (ColumnMatrix ℝ)}
    (hinverse : ColumnMatrix.InvertsExactly inverse?)
    {decompose : DenseMatrix ℝ → SingularDecomposition ℝ} {model : Interpolation}
    {a : Matrix (Fin n) (Fin n) ℝ} {D : DenseMatrix ℝ}
    (h : @inverse ℝ _ (.ofColumns inverse? decompose) model (.ofMatrix a) = .ok D)
    (σ π : Equiv.Perm (Fin n)) :
    ∃ d : Matrix (Fin n) (Fin n) ℝ, D = .ofMatrix d ∧
      @inverse ℝ _ (.ofColumns inverse? decompose) model (.ofMatrix (a.submatrix σ π)) =
        .ok (.ofMatrix (d.submatrix π σ)) := by
  rw [inverse_ofMatrix hinverse] at h ⊢
  split at h
  · cases h
  next hdet =>
    have hunit : IsUnit (a.submatrix σ π) :=
      (isUnit_submatrix_equiv σ π).mpr ((isUnit_iff_isUnit_det a).mpr (IsUnit.mk0 _ hdet))
    have hdet' : (a.submatrix σ π).det ≠ 0 := ((isUnit_iff_isUnit_det _).mp hunit).ne_zero
    rw [if_neg hdet', inv_submatrix_equiv]
    exact ⟨a⁻¹, (Except.ok.inj h).symm, rfl⟩

theorem weightedInverse_permuted [MatrixSolver ℝ]
    (hsolver : DecomposesExactly (MatrixSolver.decompose (R := ℝ))) (hcols : m ≤ n)
    {a : Matrix (Fin n) (Fin m) ℝ} {weights : List ℝ} (hlength : weights.length = n)
    {D : DenseMatrix ℝ} (h : weightedInverse (.ofMatrix a) weights = .ok D)
    (σ : Equiv.Perm (Fin n)) (π : Equiv.Perm (Fin m)) :
    ∃ d : Matrix (Fin m) (Fin n) ℝ, D = .ofMatrix d ∧
      weightedInverse (.ofMatrix (a.submatrix σ π)) (permuted σ weights) =
        .ok (.ofMatrix (d.submatrix π σ)) := by
  have hnonneg := nonneg_of_weightedInverse_eq_ok h
  have hnonneg' : ∀ w ∈ permuted σ weights, 0 ≤ w := fun w hw =>
    hnonneg w ((permuted_perm σ weights).mem_iff.mp hw)
  obtain ⟨hm, hle, f, hratio, hD⟩ := exists_factors_of_weightedInverse_eq_ok hsolver hcols h
  have hmatrix : weightRoots (permuted σ weights) n * a.submatrix σ π =
      (weightRoots weights n * a).submatrix σ π := by
    rw [weightRoots_permuted hlength, submatrix_mul_equiv]
  have heq := weightedInverse_of_factors hsolver hcols hnonneg' hmatrix (f.reorder σ π)
  rw [f.values_reorder, if_neg hm, if_neg (not_lt.mpr (hle.trans_eq hratio)), f.pseudoInverse_reorder,
    weightRoots_permuted hlength, submatrix_mul_equiv] at heq
  exact ⟨_, hD, heq⟩

/-- Both ways to make `D` follow the order of the directions and of the moments. -/
theorem leftInverse_permuted {inverse? : ColumnMatrix ℝ → Option (ColumnMatrix ℝ)}
    (hinverse : ColumnMatrix.InvertsExactly inverse?)
    {decompose : DenseMatrix ℝ → SingularDecomposition ℝ} (hdecompose : DecomposesExactly decompose)
    {model : Interpolation} (hcols : m ≤ n) (hsquare : model.isSquare → m = n)
    {a : Matrix (Fin n) (Fin m) ℝ} {weights : List ℝ} (hlength : weights.length = n)
    {D : DenseMatrix ℝ}
    (h : (if model.isSquare then
        @inverse ℝ _ (.ofColumns inverse? decompose) model (.ofMatrix a)
      else @weightedInverse ℝ _ (.ofColumns inverse? decompose) (.ofMatrix a) weights) = .ok D)
    (σ : Equiv.Perm (Fin n)) (π : Equiv.Perm (Fin m)) :
    ∃ d : Matrix (Fin m) (Fin n) ℝ, D = .ofMatrix d ∧
      (if model.isSquare then
        @inverse ℝ _ (.ofColumns inverse? decompose) model (.ofMatrix (a.submatrix σ π))
      else @weightedInverse ℝ _ (.ofColumns inverse? decompose) (.ofMatrix (a.submatrix σ π))
        (permuted σ weights)) = .ok (.ofMatrix (d.submatrix π σ)) := by
  split at h
  next hmodel =>
    obtain rfl := hsquare hmodel
    rw [if_pos hmodel]
    exact inverse_permuted hinverse h σ π
  next hmodel =>
    rw [if_neg hmodel]
    exact @weightedInverse_permuted _ _ (.ofColumns inverse? decompose) hdecompose hcols _ _ hlength
      _ h σ π

/-! ## Selection -/

theorem validate_permuted {dimension angles : ℕ} {model : Interpolation} {is : List MomentIndex}
    (h : MomentIndex.validate is dimension model angles = (.ok () : Except (MomentError ℝ) Unit))
    (π : Equiv.Perm (Fin m)) :
    MomentIndex.validate (permuted π is) dimension model angles =
      (.ok () : Except (MomentError ℝ) Unit) := by
  have hperm := permuted_perm π is
  rw [MomentIndex.validate_eq_ok] at h ⊢
  obtain ⟨hne, hvalid, hresolved, hnodup, hlength⟩ := h
  refine ⟨mt permuted_eq_nil.mp hne, fun i hi => hvalid i (hperm.mem_iff.mp hi),
    fun i hi => hresolved i (hperm.mem_iff.mp hi), hperm.nodup_iff.mpr hnodup, ?_⟩
  rwa [length_permuted]

end MomentOperators

/-- An interpolation selects the same moments in whatever order the directions are. -/
theorem Quadrature.select_permute {q : Quadrature ℝ} (hq : q.table.IsAligned n)
    (σ : Equiv.Perm (Fin n)) (model : Interpolation) (expansionOrder : Option ℕ) :
    MomentIndex.select (q.permute σ) model expansionOrder =
      MomentIndex.select q model expansionOrder := by
  have hos : q.ordinates.length = n := q.length_ordinates.trans hq.wt
  have hos' : (q.permute σ).ordinates.length = n := by
    rw [q.ordinates_permute hq, length_permuted, hos]
  refine @MomentIndex.select_eq_of_renumbered q (q.permute σ) rfl rfl rfl (q.angles_permute σ)
    ((finCongr hos').trans (σ.trans (finCongr hos.symm))) (fun l k i => ?_) model expansionOrder
  exact congrArg (Harmonic.tesseral l k) <| get_permuted (q.ordinates_permute hq σ) hos hos' i

namespace MomentOperators

/-! ## Construction -/

section

variable {inverse? : ColumnMatrix ℝ → Option (ColumnMatrix ℝ)}
  (hinverse : ColumnMatrix.InvertsExactly inverse?)
  {decompose : DenseMatrix ℝ → SingularDecomposition ℝ} (hdecompose : DecomposesExactly decompose)

include hinverse hdecompose

/-- Whatever can be built for a set and some moments can be built for another order
of both. -/
theorem ofMoments_permuted {q : Quadrature ℝ} (hq : q.table.IsAligned n) {model : Interpolation}
    {is : List MomentIndex} (his : is.length = m) {s : MomentOperators ℝ}
    (h : @ofMoments ℝ _ (.ofColumns inverse? decompose) q model is = .ok s)
    (σ : Equiv.Perm (Fin n)) (π : Equiv.Perm (Fin m)) :
    ∃ (s' : MomentOperators ℝ) (a : Matrix (Fin n) (Fin m) ℝ) (d : Matrix (Fin m) (Fin n) ℝ),
      @ofMoments ℝ _ (.ofColumns inverse? decompose) (q.permute σ) model (permuted π is) = .ok s' ∧
      s.toFlux = .ofMatrix a ∧ s.toMoments = .ofMatrix d ∧
      s'.toFlux = .ofMatrix (a.submatrix σ π) ∧ s'.toMoments = .ofMatrix (d.submatrix π σ) := by
  let _ : MatrixSolver ℝ := .ofColumns inverse? decompose
  obtain ⟨hvalidate, hbuild⟩ := check_bind_eq_ok.mp h
  obtain ⟨rfl, hbuilt⟩ := moments_of_build hbuild
  have hangles : q.angles = n := hq.wt
  have hos : q.ordinates.length = n := q.length_ordinates.trans hangles
  have hvalidate' : MomentIndex.validate (permuted π s.moments) (q.permute σ).dimension model
      (q.permute σ).angles = (.ok () : Except (MomentError ℝ) Unit) := by
    rw [Quadrature.angles_permute]
    exact validate_permuted hvalidate π
  obtain ⟨a, hM⟩ : ∃ a : Matrix (Fin n) (Fin m) ℝ, s.toFlux = .ofMatrix a := by
    obtain ⟨a, hM, -⟩ := DenseMatrix.exists_eq_ofMatrix_of_ofFnM hbuilt.toFlux
    rw [hM]
    exact DenseMatrix.exists_eq_ofMatrix hos his
  have hflux : fluxMatrix (q.permute σ).norm (q.permute σ).ordinates (permuted π s.moments) =
      .ok (.ofMatrix (a.submatrix σ π)) := by
    rw [q.ordinates_permute hq σ]
    exact fluxMatrix_permuted hos his (hM ▸ hbuilt.toFlux) σ π
  obtain ⟨-, -, -, -, hle, hsquare⟩ := MomentIndex.validate_eq_ok.mp hvalidate
  rw [his, hangles] at hle hsquare
  obtain ⟨d, hD, hD'⟩ := leftInverse_permuted hinverse hdecompose hle hsquare hq.wt
    (hM ▸ hbuilt.toMoments) σ π
  exact ⟨_, a, d, check_bind_eq_ok.mpr ⟨hvalidate', build_eq_ok hflux hD'⟩, hM, hD, rfl, rfl⟩

end

/-! ## Reordered user tables -/

/-- The order in which a user lists the rows of a complete set and the moments has no
influence on whether operators exist, nor on the moments that an interpolation
selects. It only decides in which order rows and columns stand in the matrices. -/
theorem operators_permute {inverse? : ColumnMatrix ℝ → Option (ColumnMatrix ℝ)}
    (hinverse : ColumnMatrix.InvertsExactly inverse?)
    {decompose : DenseMatrix ℝ → SingularDecomposition ℝ} (hdecompose : DecomposesExactly decompose)
    {name : String} {dimension order levels : ℕ} {norm : Option ℝ} {table : DirectionTable ℝ}
    {q : Quadrature ℝ} (h : Quadrature.general name dimension order levels norm table = .ok q)
    (σ : Equiv.Perm (Fin table.mu.length)) :
    Quadrature.general name dimension order levels norm (table.permute σ) = .ok (q.permute σ) ∧
    (∀ model expansionOrder, MomentIndex.select (q.permute σ) model expansionOrder =
      MomentIndex.select q model expansionOrder) ∧
    ∀ (model : Interpolation) (is : List MomentIndex) (π : Equiv.Perm (Fin is.length)),
      ((∃ s, @ofMoments ℝ _ (.ofColumns inverse? decompose) q model is = .ok s) ↔
        ∃ s', @ofMoments ℝ _ (.ofColumns inverse? decompose) (q.permute σ) model
          (permuted π is) = .ok s') ∧
      ∀ s s', @ofMoments ℝ _ (.ofColumns inverse? decompose) q model is = .ok s →
        @ofMoments ℝ _ (.ofColumns inverse? decompose) (q.permute σ) model
          (permuted π is) = .ok s' →
        ∃ (a : Matrix (Fin table.mu.length) (Fin is.length) ℝ)
          (d : Matrix (Fin is.length) (Fin table.mu.length) ℝ),
          s.toFlux = .ofMatrix a ∧ s.toMoments = .ofMatrix d ∧
          s'.toFlux = .ofMatrix (a.submatrix σ π) ∧ s'.toMoments = .ofMatrix (d.submatrix π σ) := by
  obtain ⟨hpermuted, haligned⟩ := Quadrature.general_permute rfl h σ
  refine ⟨hpermuted, q.select_permute haligned σ, fun model is π => ⟨⟨?_, ?_⟩, ?_⟩⟩
  · rintro ⟨s, hs⟩
    obtain ⟨s', -, -, hs', -⟩ := ofMoments_permuted hinverse hdecompose haligned rfl hs σ π
    exact ⟨s', hs'⟩
  · -- The original order is a reordering of the new one.
    rintro ⟨s', hs'⟩
    obtain ⟨s, -, -, hs, -⟩ := ofMoments_permuted hinverse hdecompose (haligned.permute σ)
      (length_permuted π is) hs' σ⁻¹ π⁻¹
    rw [Quadrature.permute_inv, permuted_inv] at hs
    exact ⟨s, hs⟩
  · intro s s' hs hs'
    obtain ⟨t, a, d, ht, hmatrices⟩ := ofMoments_permuted hinverse hdecompose haligned rfl hs σ π
    obtain rfl : s' = t := Except.ok.inj (hs'.symm.trans ht)
    exact ⟨a, d, hmatrices⟩

/-- The first two of three axes change places, and so do two moments. -/
theorem operators_permute_axes :
    ColumnMatrix.InvertsExactly ColumnMatrix.exactInverse? ∧ DecomposesExactly exactDecompose ∧
    Quadrature.general "axes" 3 2 3 (some (3.0 : ℝ))
      { mu := [0, 1, 0], eta := [1, 0, 0], xi := [0, 0, 1], wt := [1, 1, 2.0 - 1] } =
        .ok ((axes 1).permute (Equiv.swap (0 : Fin 3) 1)) ∧
    ∃ s s', @ofMoments ℝ _ (.ofColumns ColumnMatrix.exactInverse? exactDecompose) (axes 1) .svd
        [⟨1, 0⟩, ⟨1, -1⟩] = .ok s ∧
      @ofMoments ℝ _ (.ofColumns ColumnMatrix.exactInverse? exactDecompose)
        ((axes 1).permute (Equiv.swap (0 : Fin 3) 1)) .svd [⟨1, -1⟩, ⟨1, 0⟩] = .ok s' ∧
      s.toFlux = .ofMatrix axesFlux ∧
      s'.toFlux = .ofMatrix (axesFlux.submatrix (Equiv.swap 0 1) (Equiv.swap 0 1)) := by
  have hinverse := ColumnMatrix.invertsExactly_exactInverse?
  have hdecompose : DecomposesExactly exactDecompose := decomposesExactly_exactDecompose
  let solver : MatrixSolver ℝ := .ofColumns ColumnMatrix.exactInverse? exactDecompose
  have hroot : rankTolerance ≤ √(1 : ℝ) := by
    rw [Real.sqrt_one]
    exact rankTolerance_lt_one.le
  obtain ⟨s, hs, -, hM⟩ := @exists_ofMoments_axes solver hdecompose 1 zero_le_one le_rfl hroot
  obtain ⟨hgeneral, -, hoperators⟩ := operators_permute hinverse hdecompose
    (general_axes zero_le_one le_rfl) (Equiv.swap (0 : Fin 3) 1)
  obtain ⟨hiff, hmatrices⟩ := hoperators .svd [⟨1, 0⟩, ⟨1, -1⟩] (Equiv.swap (0 : Fin 2) 1)
  obtain ⟨s', hs'⟩ := hiff.mp ⟨s, hs⟩
  obtain ⟨a, -, ha, -, ha', -⟩ := hmatrices s s' hs hs'
  have hflux : axesFlux = a := DenseMatrix.ofMatrix_injective (hM.symm.trans ha)
  exact ⟨hinverse, hdecompose, hgeneral, s, s', hs, hs', hM, hflux ▸ ha'⟩

end MomentOperators

end DiscreteOrdinates
