import DiscreteOrdinates.Proofs.Angular.Scaling
import DiscreteOrdinates.Proofs.Moments.Renumbering
import DiscreteOrdinates.Proofs.Moments.RoundTrip
import DiscreteOrdinates.Proofs.Moments.WeightedInverse
import DiscreteOrdinates.Proofs.Quadrature.Pole

/-!
# Scaled operators

A set of another norm has the same moments, `M` divided by the factor between the
norms and `D` multiplied by it: in the metric of the weights the factor divides
every singular value alike, so neither the test on their ratio nor the cutoff sees
it. Main statement: `norm_scales`.
-/

namespace DiscreteOrdinates

open Matrix

variable {n m : ℕ} {c : ℝ}

/-! ## Matrices -/

/-- The matrix with its entries multiplied by a factor. -/
noncomputable def DenseMatrix.scaled (c : ℝ) (A : DenseMatrix ℝ) : DenseMatrix ℝ :=
  ofFn A.rows A.cols fun i j => c * A.entry i j

theorem DenseMatrix.scaled_ofMatrix (c : ℝ) (a : Matrix (Fin n) (Fin m) ℝ) :
    (ofMatrix a).scaled c = ofMatrix (c • a) := by
  have hentries : (fun (i : Fin n) (j : Fin m) => c * (ofMatrix a).entry i j) =
      fun i j => (c • a) i j := by
    funext i j
    rw [entry_ofMatrix]
    rfl
  exact congrArg (ofFn n m) hentries

theorem smul_mul_smul_matrix {k : ℕ} (x y : ℝ) (a : Matrix (Fin n) (Fin k) ℝ)
    (b : Matrix (Fin k) (Fin m) ℝ) : (x • a) * (y • b) = (x * y) • (a * b) := by
  rw [Matrix.smul_mul, Matrix.mul_smul, smul_smul]

theorem DenseMatrix.scaled_inv_scaled (hc : c ≠ 0) (A : DenseMatrix ℝ) :
    (A.scaled c).scaled c⁻¹ = A := by
  rw [A.eq_ofMatrix, scaled_ofMatrix, scaled_ofMatrix, smul_smul, inv_mul_cancel₀ hc, one_smul]

namespace MomentOperators

/-! ## Singular values -/

theorem largest_map_mul (hc : 0 ≤ c) (values : List ℝ) :
    largest (values.map (c * ·)) = c * largest values := by
  have hfold : ∀ start : ℝ, (values.map (c * ·)).foldl max (c * start) =
      c * values.foldl max start := by
    induction values with
    | nil => exact fun _ => rfl
    | cons σ values ih =>
      intro start
      rw [List.map_cons, List.foldl_cons, List.foldl_cons, ← mul_max_of_nonneg _ _ hc, ih]
  rw [largest_eq, largest_eq, ← hfold, mul_zero]

theorem foldl_min_map_mul (hc : 0 ≤ c) (values : List ℝ) (start : ℝ) :
    (values.map (c * ·)).foldl min (c * start) = c * values.foldl min start := by
  induction values generalizing start with
  | nil => rfl
  | cons σ values ih =>
    rw [List.map_cons, List.foldl_cons, List.foldl_cons, ← mul_min_of_nonneg _ _ hc, ih]

/-- A common factor of the singular values leaves their ratio alone. -/
theorem extremeRatio_map_mul (hc : 0 < c) (values : List ℝ) :
    extremeRatio (values.map (c * ·)) = extremeRatio values := by
  rw [extremeRatio_eq, extremeRatio_eq, largest_map_mul hc.le, foldl_min_map_mul hc.le,
    mul_div_mul_left _ _ hc.ne']
  simp only [mul_pos_iff_of_pos_left hc]

/-! ## The matrix `M` -/

theorem fluxEntry_scaled {norm : ℝ} {i : MomentIndex} {o : Ordinate ℝ} {y : ℝ}
    (h : fluxEntry norm i o = .ok y) :
    fluxEntry (c * norm) i (o.scaled c) = .ok (c⁻¹ * y) := by
  have hvalue : Harmonic.tesseral i.l i.k (o.scaled c) = Harmonic.tesseral i.l i.k o := rfl
  unfold fluxEntry at h ⊢
  rw [hvalue]
  split at h
  next z hz =>
    refine congrArg Except.ok ?_
    rw [← Except.ok.inj h, div_eq_mul_inv, div_eq_mul_inv, mul_inv]
    ring
  next => cases h

theorem fluxMatrix_scaled {norm : ℝ} {os : List (Ordinate ℝ)} {is : List MomentIndex}
    (hos : os.length = n) (his : is.length = m) {a : Matrix (Fin n) (Fin m) ℝ}
    (h : fluxMatrix norm os is = .ok (.ofMatrix a)) :
    fluxMatrix (c * norm) (os.map (Ordinate.scaled c)) is = .ok (.ofMatrix (c⁻¹ • a)) := by
  obtain ⟨o, rfl⟩ := exists_eq_ofFn_of_length hos
  obtain ⟨i, rfl⟩ := exists_eq_ofFn_of_length his
  rw [List.map_ofFn]
  rw [fluxMatrix_ofFn_eq_ok] at h ⊢
  exact fun r k => fluxEntry_scaled (h r k)

/-! ## The matrix `D` -/

theorem weightRoots_scaled (hc : 0 ≤ c) (weights : List ℝ) (n : ℕ) :
    weightRoots (weights.map (c * ·)) n = √c • weightRoots weights n := by
  have hroot : ∀ i : Fin n, √((weights.map (c * ·)).getD i 0) = √c * √(weights.getD i 0) := by
    intro i
    rw [← Real.sqrt_mul hc]
    nth_rewrite 1 [← mul_zero c]
    exact congrArg Real.sqrt (List.getD_map ..)
  rw [weightRoots, weightRoots, ← diagonal_smul]
  exact congrArg diagonal (funext hroot)

theorem inverse_scaled {inverse? : ColumnMatrix ℝ → Option (ColumnMatrix ℝ)}
    (hinverse : ColumnMatrix.InvertsExactly inverse?)
    {decompose : DenseMatrix ℝ → SingularDecomposition ℝ} (hc : 0 < c) {model : Interpolation}
    {a : Matrix (Fin n) (Fin n) ℝ} {D : DenseMatrix ℝ}
    (h : @inverse ℝ _ (.ofColumns inverse? decompose) model (.ofMatrix a) = .ok D) :
    @inverse ℝ _ (.ofColumns inverse? decompose) model (.ofMatrix (c⁻¹ • a)) =
      .ok (D.scaled c) := by
  rw [inverse_ofMatrix hinverse] at h ⊢
  split at h
  · cases h
  next hdet =>
    have hunit : IsUnit a.det := IsUnit.mk0 _ hdet
    have hdet' : (c⁻¹ • a).det ≠ 0 := by
      rw [det_smul]
      exact mul_ne_zero (pow_ne_zero _ (inv_ne_zero hc.ne')) hdet
    have hinv : (c⁻¹ • a)⁻¹ = c • a⁻¹ := by
      apply inv_eq_left_inv
      rw [smul_mul_smul_comm, nonsing_inv_mul a hunit, mul_inv_cancel₀ hc.ne', one_smul]
    rw [if_neg hdet', ← Except.ok.inj h, DenseMatrix.scaled_ofMatrix, hinv]

theorem weightedInverse_scaled [MatrixSolver ℝ]
    (hsolver : DecomposesExactly (MatrixSolver.decompose (R := ℝ))) (hc : 0 < c) (hcols : m ≤ n)
    {a : Matrix (Fin n) (Fin m) ℝ} {weights : List ℝ} {D : DenseMatrix ℝ}
    (h : weightedInverse (.ofMatrix a) weights = .ok D) :
    weightedInverse (.ofMatrix (c⁻¹ • a)) (weights.map (c * ·)) = .ok (D.scaled c) := by
  have hnonneg := nonneg_of_weightedInverse_eq_ok h
  have hnonneg' : ∀ w ∈ weights.map (c * ·), 0 ≤ w := by
    intro w hw
    obtain ⟨v, hv, rfl⟩ := List.mem_map.mp hw
    exact mul_nonneg hc.le (hnonneg v hv)
  obtain ⟨hm, hle, f, hratio, hD⟩ := exists_factors_of_weightedInverse_eq_ok hsolver hcols h
  have hfactor : 0 < √c * c⁻¹ := mul_pos (Real.sqrt_pos.mpr hc) (inv_pos.mpr hc)
  have hmatrix : weightRoots (weights.map (c * ·)) n * (c⁻¹ • a) =
      (√c * c⁻¹) • (weightRoots weights n * a) := by
    rw [weightRoots_scaled hc.le, smul_mul_smul_matrix]
  have hvalues : List.ofFn (f.scale hfactor.le).values =
      (List.ofFn f.values).map (√c * c⁻¹ * ·) := by
    rw [List.map_ofFn]
    rfl
  have hroots : (√c * c⁻¹)⁻¹ * √c = c := by
    have hroot : √c ≠ 0 := (Real.sqrt_pos.mpr hc).ne'
    rw [mul_inv, inv_inv, mul_right_comm, inv_mul_cancel₀ hroot, one_mul]
  have heq := weightedInverse_of_factors hsolver hcols hnonneg' hmatrix (f.scale hfactor.le)
  rw [hvalues, extremeRatio_map_mul hfactor, if_neg hm, if_neg (not_lt.mpr (hle.trans_eq hratio)),
    largest_map_mul hfactor.le, mul_left_comm, f.pseudoInverse_scale hfactor,
    weightRoots_scaled hc.le, smul_mul_smul_matrix, hroots] at heq
  rw [heq, hD, DenseMatrix.scaled_ofMatrix]

theorem leftInverse_scaled {inverse? : ColumnMatrix ℝ → Option (ColumnMatrix ℝ)}
    (hinverse : ColumnMatrix.InvertsExactly inverse?)
    {decompose : DenseMatrix ℝ → SingularDecomposition ℝ} (hdecompose : DecomposesExactly decompose)
    (hc : 0 < c) {model : Interpolation} (hcols : m ≤ n) (hsquare : model.isSquare → m = n)
    {a : Matrix (Fin n) (Fin m) ℝ} {weights : List ℝ} {D : DenseMatrix ℝ}
    (h : (if model.isSquare then
        @inverse ℝ _ (.ofColumns inverse? decompose) model (.ofMatrix a)
      else @weightedInverse ℝ _ (.ofColumns inverse? decompose) (.ofMatrix a) weights) = .ok D) :
    (if model.isSquare then
        @inverse ℝ _ (.ofColumns inverse? decompose) model (.ofMatrix (c⁻¹ • a))
      else @weightedInverse ℝ _ (.ofColumns inverse? decompose) (.ofMatrix (c⁻¹ • a))
        (weights.map (c * ·))) = .ok (D.scaled c) := by
  split at h
  next hmodel =>
    obtain rfl := hsquare hmodel
    rw [if_pos hmodel]
    exact inverse_scaled hinverse hc h
  next hmodel =>
    rw [if_neg hmodel]
    exact @weightedInverse_scaled _ _ _ (.ofColumns inverse? decompose) hdecompose hc hcols _ _ _ h

end MomentOperators

/-- An interpolation selects the same moments whatever the norm is. -/
theorem Quadrature.select_scaled (q : Quadrature ℝ) (c : ℝ) (model : Interpolation)
    (expansionOrder : Option ℕ) :
    MomentIndex.select (q.scaled c) model expansionOrder =
      MomentIndex.select q model expansionOrder := by
  have hordinates := q.ordinates_scaled c
  have hlength : (q.scaled c).ordinates.length = q.ordinates.length := by
    rw [hordinates, List.length_map]
  refine @MomentIndex.select_eq_of_renumbered q (q.scaled c) rfl rfl rfl (q.angles_scaled c)
    (finCongr hlength) (fun l k i => ?_) model expansionOrder
  have hordinate : (q.scaled c).ordinates.get i = (q.ordinates.get (i.cast hlength)).scaled c := by
    simp [hordinates]
  rw [hordinate]
  rfl

namespace MomentOperators

/-! ## Construction -/

/-- The operators with their norm and the weights of their ordinates multiplied by a
factor, and what becomes of their matrices. -/
noncomputable def rescaled (c : ℝ) (s : MomentOperators ℝ) : MomentOperators ℝ :=
  { s with
    norm := c * s.norm
    ordinates := s.ordinates.map (Ordinate.scaled c)
    toFlux := s.toFlux.scaled c⁻¹
    toMoments := s.toMoments.scaled c }

theorem rescaled_inv_rescaled (hc : c ≠ 0) (s : MomentOperators ℝ) :
    (s.rescaled c⁻¹).rescaled c = s := by
  have hordinates : (s.ordinates.map (Ordinate.scaled c⁻¹)).map (Ordinate.scaled c) =
      s.ordinates := by
    rw [List.map_map]
    exact (List.map_congr_left fun o _ => o.scaled_inv_scaled hc).trans (List.map_id _)
  have hmoments : (s.toMoments.scaled c⁻¹).scaled c = s.toMoments := by
    have h := s.toMoments.scaled_inv_scaled (inv_ne_zero hc)
    rwa [inv_inv] at h
  simp only [rescaled, inv_inv, mul_inv_cancel_left₀ hc, hordinates,
    s.toFlux.scaled_inv_scaled hc, hmoments]

section

variable {inverse? : ColumnMatrix ℝ → Option (ColumnMatrix ℝ)}
  (hinverse : ColumnMatrix.InvertsExactly inverse?)
  {decompose : DenseMatrix ℝ → SingularDecomposition ℝ} (hdecompose : DecomposesExactly decompose)

include hinverse hdecompose

theorem build_scaled (hc : 0 < c) {q : Quadrature ℝ} {model : Interpolation}
    {is : List MomentIndex} {s : MomentOperators ℝ} (hle : is.length ≤ q.angles)
    (hsquare : model.isSquare → is.length = q.angles)
    (h : @build ℝ _ (.ofColumns inverse? decompose) q model is = .ok s) :
    @build ℝ _ (.ofColumns inverse? decompose) (q.scaled c) model is = .ok (s.rescaled c) := by
  let _ : MatrixSolver ℝ := .ofColumns inverse? decompose
  obtain ⟨rfl, hbuilt⟩ := moments_of_build h
  have hos := q.length_ordinates
  obtain ⟨a, hM⟩ : ∃ a : Matrix (Fin q.angles) (Fin s.moments.length) ℝ, s.toFlux = .ofMatrix a := by
    obtain ⟨a, hM, -⟩ := DenseMatrix.exists_eq_ofMatrix_of_ofFnM hbuilt.toFlux
    rw [hM]
    exact DenseMatrix.exists_eq_ofMatrix hos rfl
  have hflux : fluxMatrix (q.scaled c).norm (q.scaled c).ordinates s.moments =
      .ok (s.toFlux.scaled c⁻¹) := by
    rw [q.ordinates_scaled, hM, DenseMatrix.scaled_ofMatrix]
    exact fluxMatrix_scaled hos rfl (hM ▸ hbuilt.toFlux)
  have hD : (if model.isSquare then inverse model (s.toFlux.scaled c⁻¹)
      else weightedInverse (s.toFlux.scaled c⁻¹) (q.scaled c).table.wt) =
        .ok (s.toMoments.scaled c) := by
    have hD := hbuilt.toMoments
    rw [hM] at hD ⊢
    rw [DenseMatrix.scaled_ofMatrix]
    exact leftInverse_scaled hinverse hdecompose hc hle hsquare hD
  have hself := build_eq_ok hbuilt.toFlux hbuilt.toMoments
  rw [build_eq_ok hflux hD, Except.ok.inj (h.symm.trans hself), q.ordinates_scaled]
  rfl

/-- The operators that are built for a scaled set are scaled. -/
theorem ofMoments_scaled (hc : 0 < c) {q : Quadrature ℝ} {model : Interpolation}
    {is : List MomentIndex} {s : MomentOperators ℝ}
    (h : @ofMoments ℝ _ (.ofColumns inverse? decompose) q model is = .ok s) :
    @ofMoments ℝ _ (.ofColumns inverse? decompose) (q.scaled c) model is = .ok (s.rescaled c) := by
  obtain ⟨hvalidate, hbuild⟩ := check_bind_eq_ok.mp h
  obtain ⟨-, -, -, -, hle, hsquare⟩ := MomentIndex.validate_eq_ok.mp hvalidate
  rw [← q.angles_scaled c] at hvalidate
  exact check_bind_eq_ok.mpr ⟨hvalidate, build_scaled hinverse hdecompose hc hle hsquare hbuild⟩

theorem ofQuadrature_scaled (hc : 0 < c) {q : Quadrature ℝ} {model : Interpolation}
    {expansionOrder : Option ℕ} {s : MomentOperators ℝ}
    (h : @ofQuadrature ℝ _ (.ofColumns inverse? decompose) q model expansionOrder = .ok s) :
    @ofQuadrature ℝ _ (.ofColumns inverse? decompose) (q.scaled c) model expansionOrder =
      .ok (s.rescaled c) := by
  obtain ⟨is, hselect, hbuild⟩ := bind_eq_ok.mp h
  obtain ⟨hle, hsquare⟩ := MomentIndex.length_of_select hselect
  rw [← q.select_scaled c] at hselect
  exact bind_eq_ok.mpr ⟨is, hselect, build_scaled hinverse hdecompose hc hle hsquare hbuild⟩

end

/-! ## Norms -/

/-- The norm of a set that the user does not supply completely is only a scale. If
the sets of two norms both exist, their directions are the same and their weights
differ by the factor between the norms. Both have operators for the same
interpolations and moments, with `M` divided and `D` multiplied by the factor, and
both are swept alike: only the weights of the ordinates differ, not the normalised
ones of the nodes, nor their levels and coefficients. -/
theorem norm_scales {inverse? : ColumnMatrix ℝ → Option (ColumnMatrix ℝ)}
    (hinverse : ColumnMatrix.InvertsExactly inverse?)
    {decompose : DenseMatrix ℝ → SingularDecomposition ℝ} (hdecompose : DecomposesExactly decompose)
    {d : Configuration ℝ} (hlayout : d.family = .general → d.layout ≠ none) {norm : ℝ}
    (hc : 0 < c) {q q' : Quadrature ℝ}
    (h : @Configuration.build ℝ _ (.ofColumns inverse? decompose)
      { d with norm := some norm } = .ok q)
    (h' : @Configuration.build ℝ _ (.ofColumns inverse? decompose)
      { d with norm := some (c * norm) } = .ok q') :
    q' = q.scaled c ∧
    (∀ model is s', @ofMoments ℝ _ (.ofColumns inverse? decompose) q' model is = .ok s' ↔
      ∃ s, @ofMoments ℝ _ (.ofColumns inverse? decompose) q model is = .ok s ∧
        s' = s.rescaled c) ∧
    (∀ model expansionOrder s',
      @ofQuadrature ℝ _ (.ofColumns inverse? decompose) q' model expansionOrder = .ok s' ↔
        ∃ s, @ofQuadrature ℝ _ (.ofColumns inverse? decompose) q model expansionOrder = .ok s ∧
          s' = s.rescaled c) ∧
    ∀ geometry meshDimension, AngularRedistribution.ofQuadrature q' geometry meshDimension =
      (AngularRedistribution.ofQuadrature q geometry meshDimension).map (.scaled c) := by
  obtain rfl := @Quadrature.eq_scaled_of_build c norm q q' (.ofColumns inverse? decompose) d hlayout
    h h'
  have hback : (q.scaled c).scaled c⁻¹ = q := q.scaled_inv_scaled hc.ne'
  refine ⟨rfl, fun model is s' => ⟨fun hs' => ?_, ?_⟩, fun model expansionOrder s' =>
    ⟨fun hs' => ?_, ?_⟩, fun geometry meshDimension =>
      AngularRedistribution.ofQuadrature_scaled hc q geometry meshDimension⟩
  · -- The set of the first norm is scaled in turn, by the inverse factor.
    have hs := ofMoments_scaled hinverse hdecompose (inv_pos.mpr hc) hs'
    rw [hback] at hs
    exact ⟨_, hs, (s'.rescaled_inv_rescaled hc.ne').symm⟩
  · rintro ⟨s, hs, rfl⟩
    exact ofMoments_scaled hinverse hdecompose hc hs
  · have hs := ofQuadrature_scaled hinverse hdecompose (inv_pos.mpr hc) hs'
    rw [hback] at hs
    exact ⟨_, hs, (s'.rescaled_inv_rescaled hc.ne').symm⟩
  · rintro ⟨s, hs, rfl⟩
    exact ofQuadrature_scaled hinverse hdecompose hc hs

/-- The octant of a pole, with a norm of its user. -/
noncomputable def uprightOctant : Configuration ℝ where
  family := .general
  order := 2
  dimension := some 3
  layout := some .square
  ordinates := some (Quadrature.upright (-1))

/-- The sets of two poles with the norms 2 and 6. -/
theorem norm_scales_upright :
    let solver : MatrixSolver ℝ := .ofColumns ColumnMatrix.exactInverse? exactDecompose
    ∃ q q', @Configuration.build ℝ _ solver { uprightOctant with norm := some 2 } = .ok q ∧
      @Configuration.build ℝ _ solver { uprightOctant with norm := some (3 * 2) } = .ok q' ∧
      q' = q.scaled 3 ∧
      ∀ geometry meshDimension, AngularRedistribution.ofQuadrature q' geometry meshDimension =
        (AngularRedistribution.ofQuadrature q geometry meshDimension).map (.scaled 3) := by
  intro solver
  have hbuild : ∀ norm : ℝ, 0 ≤ norm →
      ∃ q, @Configuration.build ℝ _ solver { uprightOctant with norm := some norm } = .ok q := by
    intro norm hnorm
    obtain ⟨q, hq⟩ := Quadrature.exists_octant_upright (z := -1) (by norm_num) hnorm
    exact ⟨q, hq⟩
  obtain ⟨q, hq⟩ := hbuild 2 (by norm_num)
  obtain ⟨q', hq'⟩ := hbuild (3 * 2) (by norm_num)
  obtain ⟨hscaled, -, -, hangular⟩ := norm_scales ColumnMatrix.invertsExactly_exactInverse?
    decomposesExactly_exactDecompose (fun _ => Option.some_ne_none _) (by norm_num) hq hq'
  exact ⟨q, q', hq, hq', hscaled, hangular⟩

end MomentOperators

end DiscreteOrdinates
