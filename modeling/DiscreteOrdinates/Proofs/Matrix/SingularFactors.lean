import DiscreteOrdinates.Proofs.Matrix.Product
import DiscreteOrdinates.Matrix.Solver

/-!
# Singular values and their factors

A matrix with no more columns than rows is a product `U Σ Vᵀ` in which the
columns of `U` and of `V` are orthonormal and `Σ` is diagonal. A pseudo-inverse
leaves out the singular values up to a cutoff. It is a left inverse exactly if
nothing is left out, and then it solves the normal equations. What is asked of a
solver is `DecomposesExactly`.
-/

namespace DiscreteOrdinates

open Matrix

/-- The factors `U`, `Σ` and `V` of a matrix. -/
structure SingularFactors {n m : ℕ} (a : Matrix (Fin n) (Fin m) ℝ) where
  left : Matrix (Fin n) (Fin m) ℝ
  values : Fin m → ℝ
  right : Matrix (Fin m) (Fin m) ℝ
  left_orthonormal : leftᵀ * left = 1
  right_orthonormal : rightᵀ * right = 1
  values_nonneg : ∀ i, 0 ≤ values i
  factors : a = left * diagonal values * rightᵀ

namespace SingularFactors

variable {n m : ℕ} {a : Matrix (Fin n) (Fin m) ℝ}

theorem right_mul_transpose (f : SingularFactors a) : f.right * f.rightᵀ = 1 :=
  mul_eq_one_comm.mp f.right_orthonormal

theorem left_transpose_mul (f : SingularFactors a) :
    f.leftᵀ * a = diagonal f.values * f.rightᵀ := by
  have h := congrArg (fun b => f.leftᵀ * b) f.factors
  simpa only [← Matrix.mul_assoc, f.left_orthonormal, Matrix.one_mul] using h

theorem transpose_eq (f : SingularFactors a) : aᵀ = f.right * diagonal f.values * f.leftᵀ := by
  have h := congrArg transpose f.factors
  simpa only [transpose_mul, transpose_transpose, diagonal_transpose, ← Matrix.mul_assoc] using h

/-- The squares of the singular values are the eigenvalues of `aᵀ a`. -/
theorem transpose_mul_self (f : SingularFactors a) :
    aᵀ * a = f.right * diagonal (fun i => f.values i ^ 2) * f.rightᵀ := by
  calc
    aᵀ * a = f.right * diagonal f.values * (f.leftᵀ * a) := by
      rw [f.transpose_eq, Matrix.mul_assoc]
    _ = f.right * (diagonal f.values * diagonal f.values) * f.rightᵀ := by
      rw [f.left_transpose_mul]
      simp only [Matrix.mul_assoc]
    _ = f.right * diagonal (fun i => f.values i ^ 2) * f.rightᵀ := by
      rw [diagonal_mul_diagonal]
      simp only [sq]

/-! ## Pseudo-inverses -/

/-- The pseudo-inverse in which singular values up to a cutoff count as zero. -/
noncomputable def pseudoInverse (f : SingularFactors a) (cutoff : ℝ) : Matrix (Fin m) (Fin n) ℝ :=
  f.right * diagonal (fun i => if cutoff < f.values i then (f.values i)⁻¹ else 0) * f.leftᵀ

theorem pseudoInverse_mul (f : SingularFactors a) {cutoff : ℝ} (hcutoff : 0 ≤ cutoff) :
    f.pseudoInverse cutoff * a =
      f.right * diagonal (fun i => if cutoff < f.values i then 1 else 0) * f.rightᵀ := by
  have hvalues : ∀ i, (if cutoff < f.values i then (f.values i)⁻¹ else 0) * f.values i =
      if cutoff < f.values i then 1 else 0 := by
    intro i
    split
    next h => exact inv_mul_cancel₀ (hcutoff.trans_lt h).ne'
    next => exact zero_mul _
  rw [pseudoInverse, Matrix.mul_assoc, f.left_transpose_mul, ← Matrix.mul_assoc,
    Matrix.mul_assoc f.right, diagonal_mul_diagonal]
  simp only [hvalues]

/-- A pseudo-inverse is a left inverse exactly if it keeps every singular value. -/
theorem pseudoInverse_mul_eq_one_iff (f : SingularFactors a) {cutoff : ℝ} (hcutoff : 0 ≤ cutoff) :
    f.pseudoInverse cutoff * a = 1 ↔ ∀ i, cutoff < f.values i := by
  rw [f.pseudoInverse_mul hcutoff]
  generalize hkept : (fun i => if cutoff < f.values i then (1 : ℝ) else 0) = kept
  constructor
  · intro h i
    have hdiagonal : diagonal kept = 1 := by
      calc
        diagonal kept = f.rightᵀ * f.right * diagonal kept * (f.rightᵀ * f.right) := by
          rw [f.right_orthonormal, Matrix.one_mul, Matrix.mul_one]
        _ = f.rightᵀ * (f.right * diagonal kept * f.rightᵀ) * f.right := by
          simp only [Matrix.mul_assoc]
        _ = 1 := by rw [h, Matrix.mul_one, f.right_orthonormal]
    have hentry := congrFun (congrFun hdiagonal i) i
    by_contra hdropped
    simp [← hkept, hdropped] at hentry
  · intro h
    have hone : kept = 1 := by
      rw [← hkept]
      funext i
      exact if_pos (h i)
    rw [hone, diagonal_one', Matrix.mul_one, f.right_mul_transpose]

/-- A pseudo-inverse that keeps every singular value solves the normal equations. -/
theorem transpose_mul_self_mul_pseudoInverse (f : SingularFactors a) {cutoff : ℝ}
    (hcutoff : 0 ≤ cutoff) (h : ∀ i, cutoff < f.values i) :
    aᵀ * a * f.pseudoInverse cutoff = aᵀ := by
  have hvalues : ∀ i, f.values i ^ 2 * (if cutoff < f.values i then (f.values i)⁻¹ else 0) =
      f.values i := by
    intro i
    have hpos := hcutoff.trans_lt (h i)
    rw [if_pos (h i)]
    field_simp
  calc
    aᵀ * a * f.pseudoInverse cutoff
        = f.right * (diagonal (fun i => f.values i ^ 2) * (f.rightᵀ * f.right) *
            diagonal (fun i => if cutoff < f.values i then (f.values i)⁻¹ else 0)) * f.leftᵀ := by
      rw [f.transpose_mul_self, pseudoInverse]
      simp only [Matrix.mul_assoc]
    _ = aᵀ := by
      rw [f.right_orthonormal, Matrix.mul_one, diagonal_mul_diagonal, f.transpose_eq]
      simp only [hvalues]

/-! ## Uniqueness -/

theorem charpoly_transpose_mul_self (f : SingularFactors a) :
    (aᵀ * a).charpoly = ∏ i, (Polynomial.X - Polynomial.C (f.values i ^ 2)) := by
  rw [f.transpose_mul_self, charpoly_mul_comm, ← Matrix.mul_assoc, f.right_orthonormal,
    Matrix.one_mul, charpoly_diagonal]

/-- The singular values are the same, up to their order, in all factors of a
matrix. -/
theorem values_perm (f g : SingularFactors a) : (List.ofFn f.values).Perm (List.ofFn g.values) := by
  have hroots : ∀ h : SingularFactors a,
      (aᵀ * a).charpoly.roots = (List.ofFn h.values : Multiset ℝ).map (· ^ 2) := by
    intro h
    rw [h.charpoly_transpose_mul_self, ← Polynomial.roots_multiset_prod_X_sub_C
      ((List.ofFn h.values : Multiset ℝ).map (· ^ 2))]
    simp [List.prod_ofFn, Function.comp_def]
  have hsqrt : ∀ h : SingularFactors a,
      ((aᵀ * a).charpoly.roots).map Real.sqrt = (List.ofFn h.values : Multiset ℝ) := by
    intro h
    have hself : ∀ σ ∈ (List.ofFn h.values : Multiset ℝ), √(σ ^ 2) = σ := by
      intro σ hσ
      obtain ⟨i, rfl⟩ := (List.mem_ofFn' _ _).mp (Multiset.mem_coe.mp hσ)
      exact Real.sqrt_sq (h.values_nonneg i)
    rw [hroots h, Multiset.map_map]
    exact (Multiset.map_congr rfl hself).trans (Multiset.map_id' _)
  exact Multiset.coe_eq_coe.mp ((hsqrt f).symm.trans (hsqrt g))

end SingularFactors

/-! ## Existence -/

section Existence

variable {n m : ℕ}

/-- Column `j` of a matrix with `n` rows, zero beyond its last column. -/
noncomputable def columnVector (b : Matrix (Fin n) (Fin m) ℝ) (j : Fin n) :
    EuclideanSpace ℝ (Fin n) :=
  if h : j.val < m then WithLp.toLp _ (bᵀ ⟨j.val, h⟩) else 0

theorem inner_columnVector (h : m ≤ n) (b : Matrix (Fin n) (Fin m) ℝ) (i j : Fin m) :
    inner ℝ (columnVector b (i.castLE h)) (columnVector b (j.castLE h)) = (bᵀ * b) i j := by
  simp [columnVector, Matrix.mul_apply, PiLp.inner_apply, mul_comm]

/-- Columns that are orthogonal to one another are multiples of orthonormal ones. -/
theorem exists_orthonormal_columns (h : m ≤ n) (b : Matrix (Fin n) (Fin m) ℝ) {d : Fin m → ℝ}
    (hb : bᵀ * b = diagonal d) :
    ∃ u : Matrix (Fin n) (Fin m) ℝ, uᵀ * u = 1 ∧ u * diagonal (fun i => √(d i)) = b := by
  have hdim : Module.finrank ℝ (EuclideanSpace ℝ (Fin n)) = Fintype.card (Fin n) :=
    finrank_euclideanSpace
  have hnorm : ∀ i : Fin m, ‖columnVector b (i.castLE h)‖ = √(d i) := by
    intro i
    rw [norm_eq_sqrt_real_inner, inner_columnVector h, hb, diagonal_apply_eq]
  have horth : Pairwise fun i j => inner ℝ (columnVector b i) (columnVector b j) = 0 := by
    intro i j hij
    by_cases hi : i.val < m
    · by_cases hj : j.val < m
      · have hne : (⟨i.val, hi⟩ : Fin m) ≠ ⟨j.val, hj⟩ := fun heq => hij (Fin.ext (Fin.mk.inj heq))
        have hinner := inner_columnVector h b ⟨i.val, hi⟩ ⟨j.val, hj⟩
        rwa [hb, diagonal_apply_ne _ hne] at hinner
      · rw [columnVector, columnVector, dif_neg hj, inner_zero_right]
    · rw [columnVector, dif_neg hi, inner_zero_left]
  -- The columns that are not zero are normalised, and the basis is filled up with others.
  let basis := InnerProductSpace.gramSchmidtOrthonormalBasis hdim (columnVector b)
  have hcolumn : ∀ i : Fin m, √(d i) • basis (i.castLE h) = columnVector b (i.castLE h) := by
    intro i
    by_cases hzero : columnVector b (i.castLE h) = 0
    · rw [← hnorm i, hzero, norm_zero, zero_smul]
    · have hnormed :=
        InnerProductSpace.gramSchmidtOrthonormalBasis_apply_of_orthogonal hdim horth hzero
      have hne : ‖columnVector b (i.castLE h)‖ ≠ 0 := norm_ne_zero_iff.mpr hzero
      rw [← hnorm i, hnormed, smul_smul]
      simp [hne]
  refine ⟨Matrix.of fun r i => basis (i.castLE h) r, ?_, ?_⟩
  · ext i j
    have hinner := orthonormal_iff_ite.mp basis.orthonormal (i.castLE h) (j.castLE h)
    simp only [PiLp.inner_apply, Fin.ext_iff, Fin.val_castLE] at hinner
    simp [Matrix.mul_apply, Matrix.one_apply, Fin.ext_iff, ← hinner, mul_comm]
  · ext r i
    have hentry := congrArg (fun v : EuclideanSpace ℝ (Fin n) => v r) (hcolumn i)
    simpa [columnVector, mul_comm] using hentry

/-- A rotation of its columns makes them orthogonal to one another. -/
theorem exists_diagonal_transpose_mul_self (a : Matrix (Fin n) (Fin m) ℝ) :
    ∃ (v : Matrix (Fin m) (Fin m) ℝ) (d : Fin m → ℝ),
      vᵀ * v = 1 ∧ (a * v)ᵀ * (a * v) = diagonal d := by
  have hherm : (aᵀ * a).IsHermitian := isHermitian_conjTranspose_mul_self a
  have hunit := Unitary.coe_star_mul_self hherm.eigenvectorUnitary
  have hdiagonal := hherm.conjStarAlgAut_star_eigenvectorUnitary
  rw [Unitary.conjStarAlgAut_star_apply] at hdiagonal
  rw [star_eq_conjTranspose, conjTranspose_eq_transpose_of_trivial] at hunit hdiagonal
  refine ⟨_, RCLike.ofReal ∘ hherm.eigenvalues, hunit, ?_⟩
  rw [transpose_mul, ← Matrix.mul_assoc, Matrix.mul_assoc _ aᵀ a]
  exact hdiagonal

theorem nonempty_singularFactors (h : m ≤ n) (a : Matrix (Fin n) (Fin m) ℝ) :
    Nonempty (SingularFactors a) := by
  obtain ⟨v, d, hv, horth⟩ := exists_diagonal_transpose_mul_self a
  obtain ⟨u, hu, hfactors⟩ := exists_orthonormal_columns h (a * v) horth
  exact ⟨{
    left := u
    values := fun i => √(d i)
    right := v
    left_orthonormal := hu
    right_orthonormal := hv
    values_nonneg := fun i => Real.sqrt_nonneg _
    factors := by rw [hfactors, Matrix.mul_assoc, mul_eq_one_comm.mp hv, Matrix.mul_one] }⟩

end Existence

/-! ## Solvers -/

/-- Whether a decomposition holds the singular values of a matrix, in some order,
and its pseudo-inverses. -/
def SingularDecomposition.IsExact (d : SingularDecomposition ℝ) {n m : ℕ}
    (a : Matrix (Fin n) (Fin m) ℝ) : Prop :=
  ∃ f : SingularFactors a, d.values = List.ofFn f.values ∧
    ∀ cutoff, 0 ≤ cutoff → d.pseudoInverse cutoff = .ofMatrix (f.pseudoInverse cutoff)

/-- Whether a function decomposes each matrix that has no more columns than rows. -/
def DecomposesExactly (decompose : DenseMatrix ℝ → SingularDecomposition ℝ) : Prop :=
  ∀ {n m : ℕ}, m ≤ n → ∀ a : Matrix (Fin n) (Fin m) ℝ, (decompose (.ofMatrix a)).IsExact a

/-- The decomposition of a matrix into factors. -/
noncomputable def exactDecompose (A : DenseMatrix ℝ) : SingularDecomposition ℝ :=
  if h : A.cols ≤ A.rows then
    let f := (nonempty_singularFactors h (Matrix.of A.entry)).some
    ⟨List.ofFn f.values, fun cutoff => .ofMatrix (f.pseudoInverse cutoff)⟩
  else ⟨[], fun _ => .zeros A.cols A.rows⟩

theorem decomposesExactly_exactDecompose : DecomposesExactly exactDecompose := by
  intro n m h a
  have hentries : Matrix.of (DenseMatrix.ofMatrix a).entry = a := by
    ext i j
    exact DenseMatrix.entry_ofMatrix a i j
  have hexact : (exactDecompose (.ofMatrix a)).IsExact (Matrix.of (DenseMatrix.ofMatrix a).entry) := by
    rw [exactDecompose, dif_pos (show (DenseMatrix.ofMatrix a).cols ≤ (DenseMatrix.ofMatrix a).rows from h)]
    exact ⟨_, rfl, fun _ _ => rfl⟩
  rwa [hentries] at hexact

end DiscreteOrdinates
