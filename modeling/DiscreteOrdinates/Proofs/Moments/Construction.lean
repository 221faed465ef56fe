import DiscreteOrdinates.Proofs.Matrix.Product
import DiscreteOrdinates.Proofs.Moments.Galerkin
import DiscreteOrdinates.Proofs.Moments.Validation

/-!
# Construction of operators

Whichever way the moments of a set are chosen, there are no more of them than
angles, and as many for a square interpolation. What is built from them holds
the matrix `M` of these moments and a matrix `D` that the interpolation makes of
it.
-/

namespace DiscreteOrdinates

namespace MomentOperators

/-! ## The matrix `M` -/

theorem fluxMatrix_ofFn {n m : ℕ} (norm : ℝ) (o : Fin n → Ordinate ℝ) (i : Fin m → MomentIndex) :
    fluxMatrix norm (List.ofFn o) (List.ofFn i) =
      DenseMatrix.ofFnM n m fun r c => fluxEntry norm (i c) (o r) := by
  have hlists : ∀ (os : List (Ordinate ℝ)) (is : List MomentIndex) (hn : os.length = n)
      (hm : is.length = m), fluxMatrix norm os is = DenseMatrix.ofFnM n m fun r c =>
        fluxEntry norm (is.get (c.cast hm.symm)) (os.get (r.cast hn.symm)) := by
    intro os is hn hm
    subst hn hm
    rfl
  rw [hlists _ _ List.length_ofFn List.length_ofFn]
  simp only [List.get_ofFn]
  rfl

/-- `M` is built of what its entries are. -/
theorem fluxMatrix_ofFn_eq_ok {n m : ℕ} {norm : ℝ} {o : Fin n → Ordinate ℝ}
    {i : Fin m → MomentIndex} {a : Matrix (Fin n) (Fin m) ℝ} :
    fluxMatrix norm (List.ofFn o) (List.ofFn i) = .ok (.ofMatrix a) ↔
      ∀ r c, fluxEntry norm (i c) (o r) = .ok (a r c) := by
  rw [fluxMatrix_ofFn]
  refine ⟨fun h => ?_, DenseMatrix.ofFnM_eq_ok⟩
  obtain ⟨b, hb, hentries⟩ := DenseMatrix.exists_eq_ofMatrix_of_ofFnM h
  obtain rfl : a = b := DenseMatrix.ofMatrix_injective hb
  exact hentries

/-! ## What is built -/

section

variable {R : Type} [Scalar R] [MatrixSolver R] {q : Quadrature R} {model : Interpolation}
  {is : List MomentIndex}

theorem ofQuadrature_eq_build {expansionOrder : Option ℕ}
    (h : MomentIndex.select q model expansionOrder = .ok is) :
    ofQuadrature q model expansionOrder = build q model is := by
  rw [ofQuadrature, h]
  rfl

theorem ofMoments_eq_build (h : MomentIndex.validate is q.dimension model q.angles =
      (.ok () : Except (MomentError R) Unit)) :
    ofMoments q model is = build q model is := by
  rw [ofMoments, h]
  rfl

/-- First `M` is filled, then `D` is made of it. -/
theorem build_eq_bind :
    build q model is = fluxMatrix q.norm q.ordinates is >>= fun M =>
      (if model.isSquare then inverse model M else weightedInverse M q.table.wt) >>= fun D =>
        .ok ⟨model, q.dimension, q.norm, q.ordinates, is, M, D⟩ := by
  unfold build
  cases model.isSquare with
  | true => rfl
  | false => rfl

end

section

variable [MatrixSolver ℝ] {q : Quadrature ℝ} {model : Interpolation} {s : MomentOperators ℝ}

/-- Operators are built from a list of moments that fits the angles, whichever
way the moments are chosen. -/
theorem exists_build_eq_ok
    (h : (∃ expansionOrder, ofQuadrature q model expansionOrder = .ok s) ∨
      ∃ is, ofMoments q model is = .ok s) :
    ∃ is, is.length ≤ q.angles ∧ (model.isSquare → is.length = q.angles) ∧
      build q model is = .ok s := by
  rcases h with ⟨expansionOrder, h⟩ | ⟨is, h⟩
  · obtain ⟨is, hselect, h⟩ := bind_eq_ok.mp h
    obtain ⟨hle, hsquare⟩ := MomentIndex.length_of_select hselect
    exact ⟨is, hle, hsquare, h⟩
  · obtain ⟨_, hvalidate, h⟩ := bind_eq_ok.mp h
    obtain ⟨-, -, -, -, hle, hsquare⟩ := MomentIndex.validate_eq_ok.mp hvalidate
    exact ⟨is, hle, hsquare, h⟩

/-- What a set of operators consists of. -/
structure IsBuilt (q : Quadrature ℝ) (model : Interpolation) (s : MomentOperators ℝ) : Prop where
  norm : s.norm = q.norm
  ordinates : s.ordinates = q.ordinates
  toFlux : fluxMatrix q.norm q.ordinates s.moments = .ok s.toFlux
  toMoments : (if model.isSquare then inverse model s.toFlux
    else weightedInverse s.toFlux q.table.wt) = .ok s.toMoments

theorem build_eq_ok {is : List MomentIndex} {M D : DenseMatrix ℝ}
    (hM : fluxMatrix q.norm q.ordinates is = .ok M)
    (hD : (if model.isSquare then inverse model M else weightedInverse M q.table.wt) = .ok D) :
    build q model is = .ok ⟨model, q.dimension, q.norm, q.ordinates, is, M, D⟩ := by
  rw [build_eq_bind]
  exact bind_eq_ok.mpr ⟨M, hM, bind_eq_ok.mpr ⟨D, hD, rfl⟩⟩

theorem moments_of_build {is : List MomentIndex} (h : build q model is = .ok s) :
    s.moments = is ∧ IsBuilt q model s := by
  rw [build_eq_bind] at h
  obtain ⟨M, hM, h⟩ := bind_eq_ok.mp h
  obtain ⟨D, hD, h⟩ := bind_eq_ok.mp h
  obtain rfl := Except.ok.inj h
  exact ⟨rfl, rfl, rfl, hM, hD⟩

/-- Operators have no more moments than angles, and are made of their matrix `M`. -/
theorem isBuilt_of_ok
    (h : (∃ expansionOrder, ofQuadrature q model expansionOrder = .ok s) ∨
      ∃ is, ofMoments q model is = .ok s) :
    s.moments.length ≤ q.angles ∧ (model.isSquare → s.moments.length = q.angles) ∧
      IsBuilt q model s := by
  obtain ⟨is, hle, hsquare, hbuild⟩ := exists_build_eq_ok h
  obtain ⟨rfl, hbuilt⟩ := moments_of_build hbuild
  exact ⟨hle, hsquare, hbuilt⟩

end

/-! ## Application -/

theorem multiply_ofMatrix {n m : ℕ} (a : Matrix (Fin n) (Fin m) ℝ) (operand : Operand)
    (v : Fin m → ℝ) :
    multiply (.ofMatrix a) operand m (List.ofFn v) = .ok (List.ofFn (a.mulVec v)) := by
  refine require_bind_eq_ok.mpr ⟨List.length_ofFn, ?_⟩
  rw [DenseMatrix.mulVec_ofMatrix]

/-- From moments to the angular flux and back. -/
theorem flux_bind_project {s : MomentOperators ℝ} {n m : ℕ} {a : Matrix (Fin n) (Fin m) ℝ}
    {d : Matrix (Fin m) (Fin n) ℝ} (hM : s.toFlux = .ofMatrix a) (hD : s.toMoments = .ofMatrix d)
    (hangles : s.ordinates.length = n) (hmoments : s.moments.length = m) (v : Fin m → ℝ) :
    (s.flux (List.ofFn v) >>= s.project) = .ok (List.ofFn ((d * a).mulVec v)) := by
  have hflux : s.flux (List.ofFn v) = .ok (List.ofFn (a.mulVec v)) := by
    rw [flux, hM, hmoments, multiply_ofMatrix]
  calc
    (s.flux (List.ofFn v) >>= s.project) = s.project (List.ofFn (a.mulVec v)) := by
      rw [hflux]
      rfl
    _ = .ok (List.ofFn ((d * a).mulVec v)) := by
      rw [project, hD, hangles, multiply_ofMatrix, Matrix.mulVec_mulVec]

/-- All moments survive the way there and back exactly if `D M = 1`. -/
theorem flux_bind_project_eq_self_iff {s : MomentOperators ℝ} {n m : ℕ}
    {a : Matrix (Fin n) (Fin m) ℝ} {d : Matrix (Fin m) (Fin n) ℝ} (hM : s.toFlux = .ofMatrix a)
    (hD : s.toMoments = .ofMatrix d) (hangles : s.ordinates.length = n)
    (hmoments : s.moments.length = m) :
    (∀ phi : List ℝ, phi.length = m → (s.flux phi >>= s.project) = .ok phi) ↔ d * a = 1 := by
  constructor
  · intro h
    refine Matrix.ext_iff_mulVec.mpr fun v => ?_
    have hv := h (List.ofFn v) List.length_ofFn
    rw [flux_bind_project hM hD hangles hmoments] at hv
    rw [Matrix.one_mulVec]
    exact List.ofFn_injective (Except.ok.inj hv)
  · intro h phi hphi
    obtain ⟨v, rfl⟩ := exists_eq_ofFn_of_length hphi
    rw [flux_bind_project hM hD hangles hmoments, h, Matrix.one_mulVec]

/-- From the angular flux to moments and back. -/
theorem project_bind_flux {s : MomentOperators ℝ} {n m : ℕ} {a : Matrix (Fin n) (Fin m) ℝ}
    {d : Matrix (Fin m) (Fin n) ℝ} (hM : s.toFlux = .ofMatrix a) (hD : s.toMoments = .ofMatrix d)
    (hangles : s.ordinates.length = n) (hmoments : s.moments.length = m) (v : Fin n → ℝ) :
    (s.project (List.ofFn v) >>= s.flux) = .ok (List.ofFn ((a * d).mulVec v)) := by
  have hproject : s.project (List.ofFn v) = .ok (List.ofFn (d.mulVec v)) := by
    rw [project, hD, hangles, multiply_ofMatrix]
  calc
    (s.project (List.ofFn v) >>= s.flux) = s.flux (List.ofFn (d.mulVec v)) := by
      rw [hproject]
      rfl
    _ = .ok (List.ofFn ((a * d).mulVec v)) := by
      rw [flux, hM, hmoments, multiply_ofMatrix, Matrix.mulVec_mulVec]

end MomentOperators

end DiscreteOrdinates
