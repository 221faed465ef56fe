import DiscreteOrdinates.Proofs.Matrix.Filling
import DiscreteOrdinates.Proofs.Moments.WeightedInverse
import DiscreteOrdinates.Matrix.SingularValues

/-!
# Entries of `M`

An entry of `M` is the same whether the matrix is filled with it or it is asked for
alone, and the matrix does not exist if one of its entries does not. Main statement:
`entryAt_reproduces_toFlux`.
-/

namespace DiscreteOrdinates

/-! ## One entry -/

/-- The only reason why a harmonic does not exist is its normalisation. -/
theorem Harmonic.cause_of_tesseral_eq_error {R : Type} [Scalar R] {l : ℕ} {k : ℤ} {o : Ordinate R}
    {cause : QuadratureError R} (h : tesseral l k o = .error cause) :
    cause = .degenerateCoefficient l k := by
  rcases bind_eq_error.mp h with hcoefficient | ⟨c, -, h⟩
  · unfold coefficient at hcoefficient
    split at hcoefficient
    · exact (Except.error.inj hcoefficient).symm
    · dsimp only at hcoefficient
      split at hcoefficient
      · cases hcoefficient
      · exact (Except.error.inj hcoefficient).symm
  · cases h

/-- The ordinate of a direction is found in the list of all of them. -/
theorem Quadrature.ordinate_eq_ok {R : Type} [Scalar R] {q : Quadrature R} {m : ℕ}
    (hm : m < q.ordinates.length) : q.ordinate m = .ok q.ordinates[m] := by
  have hindex : q.checkIndex m = .ok () := if_pos (q.length_ordinates ▸ hm)
  refine check_bind_eq_ok.mpr ⟨hindex, ?_⟩
  simp [ordinates, DirectionTable.rows, pure, Except.pure]

namespace MomentOperators

section

variable {R : Type} [Scalar R] {norm : R} {os : List (Ordinate R)} {is : List MomentIndex}

theorem cause_of_fluxEntry_eq_error {i : MomentIndex} {o : Ordinate R} {e : MomentError R}
    (h : fluxEntry norm i o = .error e) : e = .quadrature (.degenerateCoefficient i.l i.k) := by
  unfold fluxEntry at h
  split at h
  · cases h
  next hharmonic =>
    rw [← Except.error.inj h, Harmonic.cause_of_tesseral_eq_error hharmonic]

/-! ## The first fault -/

/-- Row by row, the entry of direction `m` and moment `n` is the first one of `M` that
does not exist. -/
structure IsFirstFault (norm : R) (os : List (Ordinate R)) (is : List MomentIndex)
    (m : Fin os.length) (n : Fin is.length) : Prop where
  fault : ∃ e, fluxEntry norm (is.get n) (os.get m) = .error e
  before : ∀ r c, r < m ∨ r = m ∧ c < n → ∃ v, fluxEntry norm (is.get c) (os.get r) = .ok v

/-- `M` is refused because of the first of its entries that do not exist. -/
theorem fluxMatrix_eq_error_iff {e : MomentError R} :
    fluxMatrix norm os is = .error e ↔
      ∃ m n, IsFirstFault norm os is m n ∧
        e = .quadrature (.degenerateCoefficient (is.get n).l (is.get n).k) := by
  rw [fluxMatrix, DenseMatrix.ofFnM_eq_error_iff]
  refine exists_congr fun m => exists_congr fun n => ?_
  constructor
  · rintro ⟨hfault, hbefore⟩
    exact ⟨⟨⟨e, hfault⟩, hbefore⟩, cause_of_fluxEntry_eq_error hfault⟩
  · rintro ⟨⟨⟨e', hfault⟩, hbefore⟩, rfl⟩
    rw [cause_of_fluxEntry_eq_error hfault] at hfault
    exact ⟨hfault, hbefore⟩

/-- `M` is refused exactly if one of its entries does not exist. -/
theorem exists_fluxMatrix_eq_error_iff :
    (∃ e, fluxMatrix norm os is = .error e) ↔
      ∃ o ∈ os, ∃ i ∈ is, ∃ e, fluxEntry norm i o = .error e := by
  constructor
  · rintro ⟨e, h⟩
    obtain ⟨m, n, hfirst, -⟩ := fluxMatrix_eq_error_iff.mp h
    exact ⟨_, os.get_mem m, _, is.get_mem n, hfirst.fault⟩
  · rintro ⟨o, ho, i, hi, e, hfault⟩
    cases hM : fluxMatrix norm os is with
    | error e' => exact ⟨e', rfl⟩
    | ok M =>
      obtain ⟨m, rfl⟩ := List.mem_iff_get.mp ho
      obtain ⟨n, rfl⟩ := List.mem_iff_get.mp hi
      obtain ⟨a, -, hentry⟩ := DenseMatrix.exists_eq_ofMatrix_of_ofFnM hM
      rw [hentry m n] at hfault
      cases hfault

end

/-! ## Operators -/

section

variable {R : Type} [Scalar R] [MatrixSolver R] {q : Quadrature R} {model : Interpolation}
  {is : List MomentIndex} {cause : QuadratureError R}

theorem inverse_ne_quadrature {M : DenseMatrix R} : inverse model M ≠ .error (.quadrature cause) := by
  unfold inverse
  split
  · split <;> simp
  · simp

theorem weightedInverse_ne_quadrature {M : DenseMatrix R} {weights : List R} :
    weightedInverse M weights ≠ .error (.quadrature cause) := by
  intro h
  rcases bind_eq_error.mp h with h | ⟨_, -, h⟩
  · cases (require_eq_error.mp h).2
  · dsimp only at h
    split at h
    · cases h
    · rcases bind_eq_error.mp h with h | ⟨_, -, h⟩
      · cases (require_eq_error.mp h).2
      · cases h

/-- A harmonic can only be missing where `M` is filled. -/
theorem build_eq_quadrature_iff :
    build q model is = .error (.quadrature cause) ↔
      fluxMatrix q.norm q.ordinates is = .error (.quadrature cause) := by
  rw [build_eq_bind, bind_eq_error, or_iff_left]
  rintro ⟨M, -, h⟩
  rcases bind_eq_error.mp h with h | ⟨D, -, h⟩
  · split at h
    · exact inverse_ne_quadrature h
    · exact weightedInverse_ne_quadrature h
  · cases h

/-- What is built holds the matrix `M` of its moments. -/
theorem exists_toFlux_of_ok {s : MomentOperators R}
    (h : (∃ expansionOrder, ofQuadrature q model expansionOrder = .ok s) ∨
      ∃ is, ofMoments q model is = .ok s) :
    s.norm = q.norm ∧
      ∃ a : Matrix (Fin q.ordinates.length) (Fin s.moments.length) R, s.toFlux = .ofMatrix a ∧
        ∀ m n, fluxEntry q.norm (s.moments.get n) (q.ordinates.get m) = .ok (a m n) := by
  obtain ⟨is, hbuild⟩ : ∃ is, build q model is = .ok s := by
    rcases h with ⟨expansionOrder, h⟩ | ⟨is, h⟩
    · obtain ⟨is, -, h⟩ := bind_eq_ok.mp h
      exact ⟨is, h⟩
    · exact ⟨is, (check_bind_eq_ok.mp h).2⟩
  rw [build_eq_bind] at hbuild
  obtain ⟨M, hM, hbuild⟩ := bind_eq_ok.mp hbuild
  obtain ⟨D, -, hbuild⟩ := bind_eq_ok.mp hbuild
  obtain rfl := Except.ok.inj hbuild
  exact ⟨rfl, DenseMatrix.exists_eq_ofMatrix_of_ofFnM hM⟩

end

/-- For every direction of a set and every moment that its operators retain, the entry
that is computed alone is the entry of `M`, and for any other number of a moment it is an
error. For moments that the validation accepts, `M` is refused exactly if one of its
entries does not exist, and then because of the first such entry, row by row. This is
also the only harmonic for which the operators are refused. -/
theorem entryAt_reproduces_toFlux {R : Type} [Scalar R] [MatrixSolver R] {q : Quadrature R}
    {model : Interpolation} :
    (∀ {s : MomentOperators R},
      ((∃ expansionOrder, ofQuadrature q model expansionOrder = .ok s) ∨
        ∃ is, ofMoments q model is = .ok s) →
      ∀ m < q.angles, ∃ o, q.ordinate m = .ok o ∧
        (∀ n < s.moments.length, ∃ v, s.toFlux.get? m n = some v ∧ s.toFlux.at? m n = some v ∧
          s.entryAt n o = .ok v) ∧
        ∀ n, s.moments.length ≤ n →
          s.entryAt n o = .error (.indexOutOfRange n s.moments.length)) ∧
    ∀ {is : List MomentIndex},
      MomentIndex.validate is q.dimension model q.angles =
        (.ok () : Except (MomentError R) Unit) →
      ((∃ e, fluxMatrix q.norm q.ordinates is = .error e) ↔
        ∃ o ∈ q.ordinates, ∃ i ∈ is, ∃ e, fluxEntry q.norm i o = .error e) ∧
      (∀ e, fluxMatrix q.norm q.ordinates is = .error e ↔
        ∃ m n, IsFirstFault q.norm q.ordinates is m n ∧
          e = .quadrature (.degenerateCoefficient (is.get n).l (is.get n).k)) ∧
      ∀ cause, ofMoments q model is = .error (.quadrature cause) ↔
        fluxMatrix q.norm q.ordinates is = .error (.quadrature cause) := by
  refine ⟨fun {s} h m hm => ?_, fun {is} h => ⟨exists_fluxMatrix_eq_error_iff,
    fun e => fluxMatrix_eq_error_iff, fun cause => ?_⟩⟩
  · obtain ⟨hnorm, a, hM, hentry⟩ := exists_toFlux_of_ok h
    rw [← q.length_ordinates] at hm
    refine ⟨_, Quadrature.ordinate_eq_ok hm, fun n hn => ⟨a ⟨m, hm⟩ ⟨n, hn⟩, ?_, ?_, ?_⟩,
      fun n hn => ?_⟩
    · rw [hM]
      exact DenseMatrix.get?_ofMatrix a ⟨m, hm⟩ ⟨n, hn⟩
    · rw [hM]
      exact DenseMatrix.at?_ofMatrix a ⟨m, hm⟩ ⟨n, hn⟩
    · refine bind_eq_ok.mpr ⟨s.moments[n], ?_, hnorm ▸ hentry ⟨m, hm⟩ ⟨n, hn⟩⟩
      simp [moment, pick, hn]
    · refine bind_eq_error.mpr (.inl ?_)
      simp [moment, pick, hn]
  · rw [ofMoments_eq_build h, build_eq_quadrature_iff]

/-- Two opposite directions in space. -/
def opposed : Quadrature Float :=
  ⟨.general "opposed" 3 2, 2, 2.0,
    { mu := [1.0, -1.0], eta := [0.0, 0.0], xi := [0.0, 0.0], wt := [1.0, 1.0] }⟩

/-- The constant exists, and the normalisation of the moment behind it rounds to zero. -/
theorem isFirstFault_opposed (hm : 0 < opposed.ordinates.length) :
    IsFirstFault opposed.norm opposed.ordinates [⟨0, 0⟩, ⟨1000000000000000000, 10⟩] ⟨0, hm⟩ 1 := by
  have hfirst : opposed.ordinates.get ⟨0, hm⟩ = ⟨1.0, 0.0, 0.0, 1.0⟩ := rfl
  have hconstant : (fluxEntry opposed.norm ⟨0, 0⟩ ⟨1.0, 0.0, 0.0, 1.0⟩).isOk = true := by
    decide +kernel
  have hvanishing : (fluxEntry opposed.norm ⟨1000000000000000000, 10⟩
      ⟨1.0, 0.0, 0.0, 1.0⟩).isOk = false := by
    decide +kernel
  constructor
  case fault =>
    rw [hfirst]
    cases h : fluxEntry opposed.norm ⟨1000000000000000000, 10⟩ ⟨1.0, 0.0, 0.0, 1.0⟩ with
    | error e => exact ⟨e, h⟩
    | ok v =>
      rw [h] at hvanishing
      cases hvanishing
  case before =>
    intro r c hbefore
    obtain ⟨rfl, rfl⟩ : r = ⟨0, hm⟩ ∧ c = 0 := by
      rcases hbefore with hrow | ⟨rfl, hcol⟩
      · exact absurd hrow (Nat.not_lt_zero _)
      · exact ⟨rfl, Fin.ext (Nat.lt_one_iff.mp hcol)⟩
    rw [hfirst]
    cases h : fluxEntry opposed.norm ⟨0, 0⟩ ⟨1.0, 0.0, 0.0, 1.0⟩ with
    | error e =>
      rw [h] at hconstant
      cases hconstant
    | ok v => exact ⟨v, h⟩

/-- Three axes with two moments, and floats that have no matrix. -/
theorem entryAt_reproduces_toFlux_axes :
    (let solver : MatrixSolver ℝ := ⟨fun _ => none, exactDecompose⟩
      ∃ s o, @ofMoments ℝ _ solver (axes 1) .svd [⟨1, 0⟩, ⟨1, -1⟩] = .ok s ∧
        1 < (axes 1).angles ∧ (axes 1).ordinate 1 = .ok o ∧ s.toFlux.get? 1 1 = some 1 ∧
        s.entryAt 1 o = .ok 1 ∧ s.entryAt 2 o = .error (.indexOutOfRange 2 2)) ∧
    MomentIndex.validate [⟨0, 0⟩, ⟨1000000000000000000, 10⟩] opposed.dimension .svd opposed.angles =
      (.ok () : Except (MomentError Float) Unit) ∧
    ofMoments opposed .svd [⟨0, 0⟩, ⟨1000000000000000000, 10⟩] =
      .error (.quadrature (.degenerateCoefficient 1000000000000000000 10)) := by
  constructor
  · intro solver
    have hsolver : DecomposesExactly solver.decompose := decomposesExactly_exactDecompose
    have hroot : rankTolerance ≤ √(1 : ℝ) := by
      rw [Real.sqrt_one]
      exact rankTolerance_lt_one.le
    obtain ⟨s, hs, hmoments, hM⟩ := @exists_ofMoments_axes solver hsolver 1 zero_le_one le_rfl hroot
    obtain ⟨hreproduces, -⟩ := @entryAt_reproduces_toFlux ℝ _ solver (axes 1) .svd
    obtain ⟨o, ho, hinside, houtside⟩ := hreproduces (.inr ⟨_, hs⟩) 1 (by decide)
    rw [hmoments] at hinside houtside
    obtain ⟨v, hv, -, hentry⟩ := hinside 1 (by decide)
    have hone : s.toFlux.get? 1 1 = some 1 := by
      rw [hM]
      exact DenseMatrix.get?_ofMatrix axesFlux 1 1
    obtain rfl := Option.some.inj (hv.symm.trans hone)
    exact ⟨s, o, hs, by decide, ho, hone, hentry, houtside 2 le_rfl⟩
  · have hvalidate : MomentIndex.validate [⟨0, 0⟩, ⟨1000000000000000000, 10⟩] opposed.dimension .svd
        opposed.angles = (.ok () : Except (MomentError Float) Unit) := rfl
    have hm : 0 < opposed.ordinates.length := by decide
    obtain ⟨-, hfault⟩ := @entryAt_reproduces_toFlux Float _ _ opposed .svd
    obtain ⟨-, hmatrix, hoperators⟩ := hfault hvalidate
    exact ⟨hvalidate, (hoperators _).mpr ((hmatrix _).mpr
      ⟨_, _, isFirstFault_opposed hm, rfl⟩)⟩

end MomentOperators

end DiscreteOrdinates
