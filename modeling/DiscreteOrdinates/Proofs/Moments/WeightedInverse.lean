import DiscreteOrdinates.Proofs.Matrix.PseudoInverse
import DiscreteOrdinates.Proofs.Moments.Construction
import DiscreteOrdinates.Proofs.Quadrature.UserTable

/-!
# Weighted pseudo-inverses

The operators of complete shells, provided that singular values are found
exactly. Whether a matrix is accepted depends on the ratio of its extreme
singular values, and so does whether its pseudo-inverse is a left inverse. Main
statement: `weightedInverse_inverts_iff`.
-/

namespace DiscreteOrdinates

open Matrix

namespace MomentOperators

/-! ## Extreme values -/

theorem foldl_max_le_iff {values : List ℝ} {start bound : ℝ} :
    values.foldl max start ≤ bound ↔ start ≤ bound ∧ ∀ σ ∈ values, σ ≤ bound := by
  induction values generalizing start with
  | nil => simp
  | cons σ values ih => simp [ih, and_assoc]

theorem lt_foldl_min_iff {values : List ℝ} {start bound : ℝ} :
    bound < values.foldl min start ↔ bound < start ∧ ∀ σ ∈ values, bound < σ := by
  induction values generalizing start with
  | nil => simp
  | cons σ values ih => simp [ih, and_assoc]

theorem largest_eq (values : List ℝ) : largest values = values.foldl max 0 := by
  unfold largest
  simp only [Scalar.larger_real, Scalar.zero_real]

theorem largest_nonneg (values : List ℝ) : 0 ≤ largest values := by
  rw [largest_eq]
  exact (foldl_max_le_iff.mp le_rfl).1

theorem le_largest {values : List ℝ} {σ : ℝ} (h : σ ∈ values) : σ ≤ largest values := by
  rw [largest_eq]
  exact (foldl_max_le_iff.mp le_rfl).2 σ h

theorem extremeRatio_eq (values : List ℝ) :
    extremeRatio values =
      if 0 < largest values then values.foldl min (largest values) / largest values else 0 := by
  simp only [extremeRatio, Scalar.smaller_real, Scalar.zero_real]

/-- The ratio exceeds a tolerance if every value exceeds the cutoff that belongs to it. -/
theorem lt_extremeRatio_iff {values : List ℝ} {tolerance : ℝ} (hvalues : values ≠ [])
    (hnonneg : 0 ≤ tolerance) (hlt : tolerance < 1) :
    tolerance < extremeRatio values ↔ ∀ σ ∈ values, tolerance * largest values < σ := by
  rw [extremeRatio_eq]
  split
  next htop =>
    have hbelow : tolerance * largest values < largest values := mul_lt_of_lt_one_left htop hlt
    rw [lt_div_iff₀ htop, lt_foldl_min_iff]
    exact and_iff_right hbelow
  next htop =>
    obtain ⟨σ, hσ⟩ := List.exists_mem_of_ne_nil values hvalues
    have hzero : largest values = 0 := le_antisymm (not_lt.mp htop) (largest_nonneg values)
    refine iff_of_false (not_lt.mpr hnonneg) fun h => ?_
    have hpos := h σ hσ
    have hle := le_largest hσ
    rw [hzero] at hpos hle
    linarith

theorem largest_perm {xs ys : List ℝ} (h : xs.Perm ys) : largest xs = largest ys := by
  rw [largest_eq, largest_eq]
  exact h.foldl_eq _

theorem extremeRatio_perm {xs ys : List ℝ} (h : xs.Perm ys) :
    extremeRatio xs = extremeRatio ys := by
  rw [extremeRatio_eq, extremeRatio_eq, largest_perm h, h.foldl_eq]

theorem rankTolerance_pos : 0 < (rankTolerance : ℝ) := by
  unfold rankTolerance
  norm_num

theorem rankTolerance_lt_one : (rankTolerance : ℝ) < 1 := by
  unfold rankTolerance
  norm_num

theorem cutoff_nonneg (values : List ℝ) : 0 ≤ rankTolerance * largest values :=
  mul_nonneg rankTolerance_pos.le (largest_nonneg values)

/-! ## Scaled matrices -/

/-- The square roots of weights, as a diagonal matrix. -/
noncomputable def weightRoots (weights : List ℝ) (n : ℕ) : Matrix (Fin n) (Fin n) ℝ :=
  diagonal fun i => √(weights.getD i 0)

theorem nth_roots (weights : List ℝ) (m : ℕ) :
    Scalar.nth (weights.map Scalar.sqrt) m = √(weights.getD m 0) := by
  have hzero : (0 : ℝ) = Scalar.sqrt 0 := Real.sqrt_zero.symm
  rw [Scalar.nth_real]
  nth_rewrite 1 [hzero]
  exact List.getD_map weights 0 Scalar.sqrt

theorem scaleRows_ofMatrix {n m : ℕ} (a : Matrix (Fin n) (Fin m) ℝ) (weights : List ℝ) :
    scaleRows (.ofMatrix a) (weights.map Scalar.sqrt) = .ofMatrix (weightRoots weights n * a) := by
  have hentries : (fun (i : Fin n) (j : Fin m) =>
      Scalar.nth (weights.map Scalar.sqrt) i * (DenseMatrix.ofMatrix a).entry i j) =
      fun i j => (weightRoots weights n * a) i j := by
    funext i j
    rw [nth_roots, DenseMatrix.entry_ofMatrix, weightRoots, diagonal_mul]
  exact congrArg (DenseMatrix.ofFn n m) hentries

theorem scaleCols_ofMatrix {n m : ℕ} (d : Matrix (Fin m) (Fin n) ℝ) (weights : List ℝ) :
    scaleCols (.ofMatrix d) (weights.map Scalar.sqrt) = .ofMatrix (d * weightRoots weights n) := by
  have hentries : (fun (i : Fin m) (j : Fin n) =>
      (DenseMatrix.ofMatrix d).entry i j * Scalar.nth (weights.map Scalar.sqrt) j) =
      fun i j => (d * weightRoots weights n) i j := by
    funext i j
    rw [nth_roots, DenseMatrix.entry_ofMatrix, weightRoots, mul_diagonal]
  exact congrArg (DenseMatrix.ofFn m n) hentries

/-! ## Pseudo-inverses -/

theorem find?_negative_eq_none {weights : List ℝ} :
    (weights.zipIdx.find? fun (w, _) => w < 0.0) = none ↔ ∀ w ∈ weights, 0 ≤ w := by
  simp only [List.find?_eq_none, Scalar.zero_real, decide_eq_true_eq, not_lt]
  constructor
  · intro h w hw
    rw [← List.zipIdx_map_fst 0 weights] at hw
    obtain ⟨p, hp, rfl⟩ := List.mem_map.mp hw
    exact h p hp
  · intro h p hp
    exact h p.1 (List.fst_mem_of_mem_zipIdx hp)

/-- A matrix of which the ratio is accepted loses its smallest singular value
exactly if the ratio is the tolerance. -/
theorem pseudoInverse_mul_eq_one_iff_ratio_ne {n m : ℕ} {b : Matrix (Fin n) (Fin m) ℝ}
    (f : SingularFactors b) (hm : m ≠ 0) (hratio : rankTolerance ≤ extremeRatio (List.ofFn f.values)) :
    f.pseudoInverse (rankTolerance * largest (List.ofFn f.values)) * b = 1 ↔
      extremeRatio (List.ofFn f.values) ≠ rankTolerance := by
  have hvalues : List.ofFn f.values ≠ [] := fun h => hm (List.ofFn_eq_nil_iff.mp h)
  have hkept : rankTolerance < extremeRatio (List.ofFn f.values) ↔
      ∀ i, rankTolerance * largest (List.ofFn f.values) < f.values i := by
    rw [lt_extremeRatio_iff hvalues rankTolerance_pos.le rankTolerance_lt_one, List.forall_mem_ofFn_iff]
  rw [f.pseudoInverse_mul_eq_one_iff (cutoff_nonneg _), ← hkept]
  exact ⟨fun h => h.ne', fun h => lt_of_le_of_ne hratio h.symm⟩

section

variable [MatrixSolver ℝ]

/-- The decomposition of a matrix in the metric of the weights. -/
noncomputable def weightedDecomposition (M : DenseMatrix ℝ) (weights : List ℝ) :
    SingularDecomposition ℝ :=
  MatrixSolver.decompose (scaleRows M (weights.map Scalar.sqrt))

/-- The ratio of extreme singular values that decides whether a matrix is
accepted. -/
noncomputable def weightedRatio (M : DenseMatrix ℝ) (weights : List ℝ) : ℝ :=
  extremeRatio (weightedDecomposition M weights).values

theorem nonneg_of_weightedInverse_eq_ok {M D : DenseMatrix ℝ} {weights : List ℝ}
    (h : weightedInverse M weights = .ok D) : ∀ w ∈ weights, 0 ≤ w := by
  obtain ⟨-, h⟩ := require_bind_eq_ok.mp h
  rw [← find?_negative_eq_none]
  split at h
  · cases h
  next hnone => exact hnone

/-- Weights that are not negative leave two tests, one of them on the ratio. -/
theorem weightedInverse_eq (M : DenseMatrix ℝ) {weights : List ℝ} (hweights : ∀ w ∈ weights, 0 ≤ w) :
    weightedInverse M weights =
      if M.rows = 0 ∨ M.cols = 0 then .error .noMoments
      else if weightedRatio M weights < rankTolerance then
        .error (.rankDeficient (weightedRatio M weights))
      else .ok (scaleCols ((weightedDecomposition M weights).pseudoInverse
        (rankTolerance * largest (weightedDecomposition M weights).values))
          (weights.map Scalar.sqrt)) := by
  have hnone := find?_negative_eq_none.mpr hweights
  unfold weightedInverse
  rw [hnone]
  by_cases hempty : M.rows = 0 ∨ M.cols = 0
  · rw [if_pos hempty, require, if_neg (by tauto)]
    rfl
  · rw [if_neg hempty, require, if_pos (by tauto)]
    by_cases hratio : weightedRatio M weights < rankTolerance
    · rw [if_pos hratio]
      unfold weightedRatio weightedDecomposition at hratio ⊢
      simp [require, hratio, bind, Except.bind]
    · rw [if_neg hratio]
      unfold weightedRatio weightedDecomposition at hratio
      simp [require, hratio, bind, Except.bind, pure, Except.pure, weightedDecomposition]

section

variable (hsolver : DecomposesExactly (MatrixSolver.decompose (R := ℝ)))

include hsolver

/-- What an exact solver makes of a matrix that has no more columns than rows. -/
theorem weightedInverse_ofMatrix {n m : ℕ} (hcols : m ≤ n) (a : Matrix (Fin n) (Fin m) ℝ)
    {weights : List ℝ} (hweights : ∀ w ∈ weights, 0 ≤ w) :
    ∃ f : SingularFactors (weightRoots weights n * a),
      weightedRatio (.ofMatrix a) weights = extremeRatio (List.ofFn f.values) ∧
      weightedInverse (.ofMatrix a) weights =
        if m = 0 then .error .noMoments
        else if weightedRatio (.ofMatrix a) weights < rankTolerance then
          .error (.rankDeficient (weightedRatio (.ofMatrix a) weights))
        else .ok (.ofMatrix
          (f.pseudoInverse (rankTolerance * largest (List.ofFn f.values)) * weightRoots weights n)) := by
  obtain ⟨f, hvalues, hinverse⟩ := hsolver hcols (weightRoots weights n * a)
  have hempty : (DenseMatrix.ofMatrix a).rows = 0 ∨ (DenseMatrix.ofMatrix a).cols = 0 ↔ m = 0 := by
    show n = 0 ∨ m = 0 ↔ m = 0
    omega
  have hdecomposition : weightedDecomposition (.ofMatrix a) weights =
      MatrixSolver.decompose (.ofMatrix (weightRoots weights n * a)) := by
    rw [weightedDecomposition, scaleRows_ofMatrix]
  refine ⟨f, ?_, ?_⟩
  · rw [weightedRatio, hdecomposition, hvalues]
  · rw [weightedInverse_eq _ hweights, if_congr hempty rfl rfl, hdecomposition, hvalues,
      hinverse _ (cutoff_nonneg _), scaleCols_ofMatrix]

/-- The factors that the solver finds make no difference to any others. -/
theorem weightedInverse_of_factors {n m : ℕ} (hcols : m ≤ n) {a b : Matrix (Fin n) (Fin m) ℝ}
    {weights : List ℝ} (hweights : ∀ w ∈ weights, 0 ≤ w) (hb : weightRoots weights n * a = b)
    (f : SingularFactors b) :
    weightedInverse (.ofMatrix a) weights =
      if m = 0 then .error .noMoments
      else if extremeRatio (List.ofFn f.values) < rankTolerance then
        .error (.rankDeficient (extremeRatio (List.ofFn f.values)))
      else .ok (.ofMatrix
        (f.pseudoInverse (rankTolerance * largest (List.ofFn f.values)) * weightRoots weights n)) := by
  subst hb
  obtain ⟨g, hratio, heq⟩ := weightedInverse_ofMatrix hsolver hcols a hweights
  have hvalues := g.values_perm f
  rw [heq, hratio, extremeRatio_perm hvalues, largest_perm hvalues,
    g.pseudoInverse_eq f (cutoff_nonneg _)]

/-- What an accepted matrix has become. -/
theorem exists_factors_of_weightedInverse_eq_ok {n m : ℕ} (hcols : m ≤ n)
    {a : Matrix (Fin n) (Fin m) ℝ} {weights : List ℝ} {D : DenseMatrix ℝ}
    (h : weightedInverse (.ofMatrix a) weights = .ok D) :
    m ≠ 0 ∧ rankTolerance ≤ weightedRatio (.ofMatrix a) weights ∧
      ∃ f : SingularFactors (weightRoots weights n * a),
        weightedRatio (.ofMatrix a) weights = extremeRatio (List.ofFn f.values) ∧
        D = .ofMatrix
          (f.pseudoInverse (rankTolerance * largest (List.ofFn f.values)) * weightRoots weights n) := by
  obtain ⟨f, hratio, heq⟩ :=
    weightedInverse_ofMatrix hsolver hcols a (nonneg_of_weightedInverse_eq_ok h)
  rw [heq] at h
  split at h
  · cases h
  next hm =>
    split at h
    · cases h
    next hle => exact ⟨hm, not_lt.mp hle, f, hratio, (Except.ok.inj h).symm⟩

theorem inverts_iff_weightedRatio_ne {n m : ℕ} (hcols : m ≤ n) {a : Matrix (Fin n) (Fin m) ℝ}
    {weights : List ℝ} {D : DenseMatrix ℝ} (h : weightedInverse (.ofMatrix a) weights = .ok D) :
    ∃ d : Matrix (Fin m) (Fin n) ℝ, D = .ofMatrix d ∧
      (d * a = 1 ↔ weightedRatio (.ofMatrix a) weights ≠ rankTolerance) := by
  obtain ⟨hm, hle, f, hratio, hD⟩ := exists_factors_of_weightedInverse_eq_ok hsolver hcols h
  refine ⟨_, hD, ?_⟩
  rw [hratio] at hle ⊢
  rw [Matrix.mul_assoc]
  exact pseudoInverse_mul_eq_one_iff_ratio_ne f hm hle

/-- Operators of complete shells undo `M` unless their ratio is the tolerance. -/
theorem restores_iff_weightedRatio_ne {q : Quadrature ℝ} {s : MomentOperators ℝ}
    (h : (∃ expansionOrder, ofQuadrature q .svd expansionOrder = .ok s) ∨
      ∃ is, ofMoments q .svd is = .ok s) :
    rankTolerance ≤ weightedRatio s.toFlux q.table.wt ∧
      (s.toMoments.mul s.toFlux = .ok (.identity s.moments.length) ↔
        weightedRatio s.toFlux q.table.wt ≠ rankTolerance) ∧
      ((∀ phi : List ℝ, phi.length = s.moments.length → (s.flux phi >>= s.project) = .ok phi) ↔
        weightedRatio s.toFlux q.table.wt ≠ rankTolerance) := by
  obtain ⟨hle, -, hbuilt⟩ := isBuilt_of_ok h
  obtain ⟨a, hM, -⟩ := DenseMatrix.exists_eq_ofMatrix_of_ofFnM hbuilt.toFlux
  have hangles : s.ordinates.length = q.ordinates.length := congrArg List.length hbuilt.ordinates
  have hcols : s.moments.length ≤ q.ordinates.length := hle.trans_eq q.length_ordinates.symm
  have hD : weightedInverse (.ofMatrix a) q.table.wt = .ok s.toMoments := hM ▸ hbuilt.toMoments
  obtain ⟨-, hratio, -⟩ := exists_factors_of_weightedInverse_eq_ok hsolver hcols hD
  obtain ⟨d, hd, hiff⟩ := inverts_iff_weightedRatio_ne hsolver hcols hD
  rw [hM]
  refine ⟨hratio, ?_, ?_⟩
  · rw [hd, DenseMatrix.mul_eq_identity_iff, hiff]
  · rw [flux_bind_project_eq_self_iff hM hd hangles rfl, hiff]

end

end

/-! ## A direction of small weight -/

/-- The three axes, of which the second one has a weight `w`. -/
noncomputable def axes (w : ℝ) : Quadrature ℝ :=
  ⟨.general "axes" 3 3, 2, 3.0,
    { mu := [1, 0, 0], eta := [0, 1, 0], xi := [0, 0, 1], wt := [1, w, 2.0 - w] }⟩

theorem rows_axes (w : ℝ) :
    (axes w).table.rows = [⟨1, 0, 0, 1⟩, ⟨0, 1, 0, w⟩, ⟨0, 0, 1, 2.0 - w⟩] := by
  simp [axes, DirectionTable.rows, DirectionTable.row, List.range_succ]

theorem weight_axes_nonneg {w : ℝ} (hnonneg : 0 ≤ w) (hle : w ≤ 1) :
    ∀ v ∈ [1, w, 2.0 - w], 0 ≤ v := by
  have hrest : 0 ≤ 2.0 - w := by
    rw [Scalar.two_real]
    linarith
  simp [hnonneg, hrest]

theorem general_axes {w : ℝ} (hnonneg : 0 ≤ w) (hle : w ≤ 1) :
    Quadrature.general "axes" 3 2 3 (some (3.0 : ℝ))
      { mu := [1, 0, 0], eta := [0, 1, 0], xi := [0, 0, 1], wt := [1, w, 2.0 - w] } =
        .ok (axes w) := by
  have hweights := weight_axes_nonneg hnonneg hle
  have hdirections : (axes w).table.checkDirections = .ok () := by
    apply DirectionTable.checkDirections_eq_ok
    · simp [axes]
    · intro _
      rw [rows_axes]
      norm_num [Ordinate.squaredLength, Ordinate.unitTolerance]
    · rw [rows_axes]
      simpa using hweights
  refine Quadrature.general_eq_ok (by simp) rfl hweights rfl hdirections ?_
  have hnorm : (3.0 : ℝ) = 3 := by norm_num
  simp only [List.sum_cons, List.sum_nil, Scalar.two_real, hnorm]
  ring

/-- The harmonics `x` and `y` on the axes. -/
def axesFlux : Matrix (Fin 3) (Fin 2) ℝ :=
  !![1, 0; 0, 1; 0, 0]

theorem fluxMatrix_axes (w : ℝ) :
    fluxMatrix (axes w).norm (axes w).ordinates [⟨1, 0⟩, ⟨1, -1⟩] = .ok (.ofMatrix axesFlux) := by
  have hordinates : (axes w).ordinates = [⟨1, 0, 0, 1⟩, ⟨0, 1, 0, w⟩, ⟨0, 0, 1, 2.0 - w⟩] := by
    rw [Quadrature.ordinates, rows_axes]
    rfl
  have hup : Harmonic.azimuth (1 : ℝ) 0 = Real.pi / 2 := by
    rw [Harmonic.azimuth_eq_arg zero_le_one (by simp)]
    exact Complex.arg_I
  have hlevel : Harmonic.azimuth (0 : ℝ) 1 = 0 := by
    rw [Harmonic.azimuth_eq_arg le_rfl (by simp)]
    exact Complex.arg_one
  rw [hordinates, fluxMatrix_eq_ok _ _ (by simp [MomentIndex.isValid])]
  refine congrArg (fun f => Except.ok (DenseMatrix.ofFn 3 2 f)) ?_
  funext m n
  fin_cases m <;> fin_cases n <;>
    norm_num [axes, axesFlux, MomentIndex.harmonics, Harmonic.tesseral_zero_order,
      Legendre.associated_one_zero, Harmonic.tesseral_one_sine, Harmonic.azimuth_zero_zero, hup,
      hlevel]

/-- The factors of the axes in the metric of the weights. -/
noncomputable def axesFactors (w : ℝ) :
    SingularFactors (weightRoots [1, w, 2.0 - w] 3 * axesFlux) where
  left := axesFlux
  values := ![1, √w]
  right := 1
  left_orthonormal := by
    ext i j
    fin_cases i <;> fin_cases j <;> simp [axesFlux, Matrix.mul_apply, Fin.sum_univ_three]
  right_orthonormal := by simp
  values_nonneg i := by
    fin_cases i <;> simp
  factors := by
    ext i j
    rw [transpose_one, Matrix.mul_one, weightRoots, diagonal_mul, mul_diagonal]
    fin_cases i <;> fin_cases j <;> simp [axesFlux]

section

variable [MatrixSolver ℝ] (hsolver : DecomposesExactly (MatrixSolver.decompose (R := ℝ)))

include hsolver

theorem weightedRatio_axes {w : ℝ} (hnonneg : 0 ≤ w) (hle : w ≤ 1) :
    weightedRatio (.ofMatrix axesFlux) [1, w, 2.0 - w] = √w := by
  have hroot : √w ≤ 1 := Real.sqrt_le_one.mpr hle
  obtain ⟨f, hratio, -⟩ :=
    weightedInverse_ofMatrix hsolver (by decide) axesFlux (weight_axes_nonneg hnonneg hle)
  have hvalues : List.ofFn (axesFactors w).values = [1, √w] := rfl
  have hperm : (List.ofFn f.values).Perm [1, √w] := hvalues ▸ f.values_perm (axesFactors w)
  have hlargest : largest [1, √w] = 1 := by
    simp [largest_eq, hroot]
  rw [hratio, extremeRatio_perm hperm, extremeRatio_eq, hlargest]
  simp [hroot]

theorem exists_ofMoments_axes {w : ℝ} (hnonneg : 0 ≤ w) (hle : w ≤ 1) (hroot : rankTolerance ≤ √w) :
    ∃ s, ofMoments (axes w) .svd [⟨1, 0⟩, ⟨1, -1⟩] = .ok s ∧ s.moments.length = 2 ∧
      s.toFlux = .ofMatrix axesFlux := by
  obtain ⟨f, -, hD⟩ :=
    weightedInverse_ofMatrix hsolver (by decide) axesFlux (weight_axes_nonneg hnonneg hle)
  rw [weightedRatio_axes hsolver hnonneg hle, if_neg (by decide), if_neg (not_lt.mpr hroot)] at hD
  have hvalid : MomentIndex.validate [⟨1, 0⟩, ⟨1, -1⟩] (axes w).dimension .svd (axes w).angles =
      .ok (ε := MomentError ℝ) () := rfl
  have hbuild : build (axes w) .svd [⟨1, 0⟩, ⟨1, -1⟩] = .ok ⟨.svd, 3, 3.0, (axes w).ordinates,
      [⟨1, 0⟩, ⟨1, -1⟩], .ofMatrix axesFlux, _⟩ :=
    bind_eq_ok.mpr ⟨_, fluxMatrix_axes w, bind_eq_ok.mpr ⟨_, hD, rfl⟩⟩
  exact ⟨_, bind_eq_ok.mpr ⟨_, hvalid, hbuild⟩, rfl, rfl⟩

end

/-! ## Left inverses -/

/-- If singular values are found exactly, the ratio of the extreme ones decides
what becomes of a matrix. Below the tolerance it is refused. At the tolerance
itself it is accepted although its smallest singular value is left out, so that
`D M` is not the identity. Above the tolerance `D M` is the identity. Operators of
complete shells thus restore all moments unless their ratio is the tolerance. -/
theorem weightedInverse_inverts_iff [MatrixSolver ℝ]
    (hsolver : DecomposesExactly (MatrixSolver.decompose (R := ℝ))) :
    (∀ (M : DenseMatrix ℝ) (weights : List ℝ), M.cols ≤ M.rows → (∀ w ∈ weights, 0 ≤ w) →
      (M.cols = 0 → weightedInverse M weights = .error .noMoments) ∧
      (M.cols ≠ 0 → weightedRatio M weights < rankTolerance →
        weightedInverse M weights = .error (.rankDeficient (weightedRatio M weights))) ∧
      (M.cols ≠ 0 → rankTolerance ≤ weightedRatio M weights →
        ∃ D, weightedInverse M weights = .ok D ∧
          (D.mul M = .ok (.identity M.cols) ↔ weightedRatio M weights ≠ rankTolerance))) ∧
    ∀ (q : Quadrature ℝ) (s : MomentOperators ℝ),
      ((∃ expansionOrder, ofQuadrature q .svd expansionOrder = .ok s) ∨
        ∃ is, ofMoments q .svd is = .ok s) →
      rankTolerance ≤ weightedRatio s.toFlux q.table.wt ∧
      (s.toMoments.mul s.toFlux = .ok (.identity s.moments.length) ↔
        weightedRatio s.toFlux q.table.wt ≠ rankTolerance) ∧
      ((∀ phi : List ℝ, phi.length = s.moments.length → (s.flux phi >>= s.project) = .ok phi) ↔
        weightedRatio s.toFlux q.table.wt ≠ rankTolerance) := by
  refine ⟨fun M weights hcols hweights => ?_, fun q s h => restores_iff_weightedRatio_ne hsolver h⟩
  obtain ⟨n, m, a, rfl⟩ : ∃ (n m : ℕ) (a : Matrix (Fin n) (Fin m) ℝ), M = .ofMatrix a :=
    ⟨_, _, _, M.eq_ofMatrix⟩
  replace hcols : m ≤ n := hcols
  obtain ⟨f, -, heq⟩ := weightedInverse_ofMatrix hsolver hcols a hweights
  refine ⟨fun hzero => ?_, fun hne hlt => ?_, fun hne hle => ?_⟩
  · rw [heq]
    exact if_pos hzero
  · rw [heq, if_pos hlt]
    exact if_neg hne
  · rw [if_neg (not_lt.mpr hle)] at heq
    have hok := heq.trans (if_neg hne)
    obtain ⟨d, hd, hiff⟩ := inverts_iff_weightedRatio_ne hsolver hcols hok
    refine ⟨.ofMatrix d, hd ▸ hok, ?_⟩
    rw [← hiff]
    exact DenseMatrix.mul_eq_identity_iff d a

/-- Axes of equal weights restore every pair of moments. -/
theorem weightedInverse_inverts_iff_axes :
    let solver : MatrixSolver ℝ := ⟨fun _ => none, exactDecompose⟩
    DecomposesExactly solver.decompose ∧
    (∃ D, @weightedInverse ℝ _ solver (.ofMatrix axesFlux) (axes 1).table.wt = .ok D ∧
      D.mul (.ofMatrix axesFlux) = .ok (.identity 2)) ∧
    ∃ s, @ofMoments ℝ _ solver (axes 1) .svd [⟨1, 0⟩, ⟨1, -1⟩] = .ok s ∧
      s.toMoments.mul s.toFlux = .ok (.identity 2) ∧
      ∀ phi : List ℝ, phi.length = 2 → (s.flux phi >>= s.project) = .ok phi := by
  intro solver
  have hsolver : DecomposesExactly solver.decompose := decomposesExactly_exactDecompose
  have hlt : rankTolerance < √(1 : ℝ) := by
    rw [Real.sqrt_one]
    exact rankTolerance_lt_one
  have hratio : @weightedRatio solver (.ofMatrix axesFlux) (axes 1).table.wt = √1 :=
    @weightedRatio_axes solver hsolver 1 zero_le_one le_rfl
  obtain ⟨s, hs, hmoments, hM⟩ :=
    @exists_ofMoments_axes solver hsolver 1 zero_le_one le_rfl hlt.le
  obtain ⟨hcases, hoperators⟩ := @weightedInverse_inverts_iff solver hsolver
  obtain ⟨-, -, haccepted⟩ := hcases (.ofMatrix axesFlux) (axes 1).table.wt (by decide)
    (weight_axes_nonneg zero_le_one le_rfl)
  obtain ⟨-, hproduct, hrestores⟩ := hoperators (axes 1) s (.inr ⟨_, hs⟩)
  rw [hratio] at haccepted
  rw [hM, hratio, hmoments] at hproduct hrestores
  obtain ⟨D, hD, hinverse⟩ := haccepted (by decide) hlt.le
  exact ⟨hsolver, ⟨D, hD, hinverse.mpr hlt.ne'⟩, s, hs, hM ▸ hproduct.mpr hlt.ne',
    hrestores.mpr hlt.ne'⟩

/-- The axes with a weight of `10⁻²⁰` are a set that a user may supply. Their
operators are accepted, and lose the second of two moments. -/
theorem not_inverts_axes :
    Quadrature.general "axes" 3 2 3 (some (3.0 : ℝ))
      { mu := [1, 0, 0], eta := [0, 1, 0], xi := [0, 0, 1], wt := [1, 1e-20, 2.0 - 1e-20] } =
        .ok (axes 1e-20) ∧
    let solver : MatrixSolver ℝ := ⟨fun _ => none, exactDecompose⟩
    DecomposesExactly solver.decompose ∧
    ∃ s, @ofMoments ℝ _ solver (axes 1e-20) .svd [⟨1, 0⟩, ⟨1, -1⟩] = .ok s ∧
      s.toMoments.mul s.toFlux ≠ .ok (.identity 2) ∧
      ¬ ∀ phi : List ℝ, phi.length = 2 → (s.flux phi >>= s.project) = .ok phi := by
  have hnonneg : (0 : ℝ) ≤ 1e-20 := by norm_num
  have hle : (1e-20 : ℝ) ≤ 1 := by norm_num
  refine ⟨general_axes hnonneg hle, ?_⟩
  intro solver
  have hsolver : DecomposesExactly solver.decompose := decomposesExactly_exactDecompose
  have hroot : √(1e-20 : ℝ) = rankTolerance := by
    rw [rankTolerance, Real.sqrt_eq_iff_eq_sq (by norm_num) (by norm_num)]
    norm_num
  have hratio := @weightedRatio_axes solver hsolver _ hnonneg hle
  rw [hroot] at hratio
  obtain ⟨s, hs, hmoments, hM⟩ := @exists_ofMoments_axes solver hsolver _ hnonneg hle hroot.ge
  obtain ⟨-, hproduct, hrestores⟩ :=
    @restores_iff_weightedRatio_ne solver hsolver _ s (.inr ⟨_, hs⟩)
  rw [hM, hmoments] at hproduct hrestores
  exact ⟨hsolver, s, hs, hM ▸ fun h => hproduct.mp h hratio, fun h => hrestores.mp h hratio⟩

end MomentOperators

end DiscreteOrdinates
