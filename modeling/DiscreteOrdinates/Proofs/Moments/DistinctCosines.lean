import DiscreteOrdinates.Proofs.Harmonics.LegendrePolynomials
import DiscreteOrdinates.Proofs.Moments.FixedMap
import DiscreteOrdinates.Proofs.Moments.RoundTrip
import DiscreteOrdinates.Proofs.Quadrature.Columns

/-!
# Distinct cosines

On a line the fixed map takes the Legendre polynomials of the lowest degrees, one for
each direction. What their values at the cosines determine is a Vandermonde matrix, so
the matrix `M` has an inverse exactly if no two directions share their cosine. Main
statement: `exists_ofQuadrature_sn_iff`.
-/

namespace DiscreteOrdinates

open Polynomial

/-! ## Values of polynomials -/

/-- Polynomials of ascending degrees tell as many points apart as powers do. -/
theorem det_eval_ne_zero_iff {n : ℕ} {p : Fin n → ℝ[X]} (hdegree : ∀ c, (p c).natDegree ≤ c)
    (hlead : ∀ c, (p c).coeff c ≠ 0) (x : Fin n → ℝ) :
    (Matrix.of fun r c => (p c).eval (x r)).det ≠ 0 ↔ Function.Injective x := by
  have hcoeff : (Matrix.of fun r c : Fin n => (p c).coeff r).det ≠ 0 := by
    rw [Matrix.det_of_isUpperTriangular (Matrix.matrixOfPolynomials_blockTriangular p hdegree)]
    exact Finset.prod_ne_zero_iff.mpr fun c _ => hlead c
  rw [Matrix.eval_matrixOfPolynomials_eq_vandermonde_mul_matrixOfPolynomials x p hdegree,
    Matrix.det_mul, mul_ne_zero_iff, and_iff_left hcoeff, Matrix.det_vandermonde_ne_zero_iff]

/-! ## Sets on a line -/

theorem SetKind.layout_ne_square {kind : SetKind} (h : kind.dimension = 1) :
    kind.layout ≠ .square := by
  cases kind with
  | gaussLegendre => exact Layout.noConfusion
  | doubleGauss => exact Layout.noConfusion
  | general name dimension levels =>
    have h : dimension = 1 := h
    simp [layout, h]
  | _ => cases h

/-- The fixed map does not end on a line, so there is a moment for each direction. -/
theorem MomentIndex.select_line {q : Quadrature ℝ} (hdimension : q.dimension = 1) :
    select q .sn none = .ok (List.ofFn fun c : Fin q.angles => ⟨c, 0⟩) := by
  have hmap : mapPrefix q.dimension q.order q.angles =
      List.ofFn fun c : Fin q.angles => ⟨c, 0⟩ := by
    rw [mapPrefix, if_pos hdimension]
    exact List.ext_getElem (by simp) (by simp)
  rw [select_sn (SetKind.layout_ne_square hdimension), hmap, List.length_ofFn,
    if_neg (lt_irrefl _)]

theorem Quadrature.map_x_ordinates {q : Quadrature ℝ} (hdimension : q.dimension = 1)
    (hmu : q.table.mu.length = q.angles) : q.ordinates.map (·.x) = q.table.mu := by
  refine List.ext_getElem (by simp [length_ordinates, hmu]) fun m _ hm => ?_
  simp [ordinates, DirectionTable.rows, DirectionTable.row, arrange, hdimension, hm]

/-! ## Operators -/

namespace MomentOperators

/-- The matrix `M` of the lowest degrees on a line. -/
noncomputable def lineFlux (norm : ℝ) {n : ℕ} (x : Fin n → ℝ) : Matrix (Fin n) (Fin n) ℝ :=
  Matrix.of fun r c => (C ((2 * c + 1 : ℕ) / norm) * Legendre.formal c).eval (x r)

theorem fluxMatrix_line (norm : ℝ) {n : ℕ} (o : Fin n → Ordinate ℝ) :
    fluxMatrix norm (List.ofFn o) (List.ofFn fun c : Fin n => ⟨c, 0⟩) =
      .ok (.ofMatrix (lineFlux norm fun r => (o r).x)) := by
  refine fluxMatrix_ofFn_eq_ok.mpr fun r c => ?_
  rw [fluxEntry, Harmonic.tesseral_zero_order, lineFlux, Matrix.of_apply, eval_mul, eval_C,
    Legendre.associated_eq_eval]

theorem det_lineFlux_ne_zero_iff {norm : ℝ} (hnorm : norm ≠ 0) {n : ℕ} (x : Fin n → ℝ) :
    (lineFlux norm x).det ≠ 0 ↔ Function.Injective x := by
  have hfactor : ∀ c : Fin n, ((2 * c + 1 : ℕ) : ℝ) / norm ≠ 0 := fun c =>
    div_ne_zero (by positivity) hnorm
  refine det_eval_ne_zero_iff (fun c => ?_) (fun c => ?_) x
  · exact (natDegree_C_mul_le _ _).trans (Legendre.natDegree_formal_le c)
  · rw [coeff_C_mul]
    exact mul_ne_zero (hfactor c) (Legendre.coeff_formal_pos c).ne'

section

variable {inverse? : ColumnMatrix ℝ → Option (ColumnMatrix ℝ)}
  (hinverse : ColumnMatrix.InvertsExactly inverse?)
  (decompose : DenseMatrix ℝ → SingularDecomposition ℝ)

include hinverse

/-- The operators exist unless `M` is singular. -/
theorem ofQuadrature_line {q : Quadrature ℝ} (hdimension : q.dimension = 1)
    {o : Fin q.angles → Ordinate ℝ} (ho : q.ordinates = List.ofFn o)
    {a : Matrix (Fin q.angles) (Fin q.angles) ℝ} (ha : a = lineFlux q.norm fun r => (o r).x) :
    @ofQuadrature ℝ _ (.ofColumns inverse? decompose) q .sn none =
      if a.det = 0 then .error (.singularOperator .sn)
      else .ok ⟨.sn, q.dimension, q.norm, q.ordinates, List.ofFn fun c : Fin q.angles => ⟨c, 0⟩,
        .ofMatrix a, .ofMatrix a⁻¹⟩ := by
  have hM : fluxMatrix q.norm q.ordinates (List.ofFn fun c : Fin q.angles => ⟨c, 0⟩) =
      .ok (.ofMatrix a) := by
    rw [ho, ha]
    exact fluxMatrix_line q.norm o
  exact (@ofQuadrature_eq_build ℝ _ (.ofColumns inverse? decompose) _ _ _ _
    (MomentIndex.select_line hdimension)).trans
    (build_of_isSquare hinverse decompose rfl hM)

/-- With exact inverses a set on a line whose norm is not zero has operators for the
moments of the fixed map if no two of its directions have the same cosine, and otherwise
its operators are reported as singular. Sets that are built list a cosine for each of
their directions. -/
theorem exists_ofQuadrature_sn_iff :
    (∀ {q : Quadrature ℝ}, q.dimension = 1 → q.norm ≠ 0 → q.table.mu.length = q.angles →
      ((∃ s, @ofQuadrature ℝ _ (.ofColumns inverse? decompose) q .sn none = .ok s) ↔
        q.table.mu.Nodup) ∧
      (¬ q.table.mu.Nodup → @ofQuadrature ℝ _ (.ofColumns inverse? decompose) q .sn none =
        .error (.singularOperator .sn))) ∧
    ∀ [MatrixSolver ℝ] {request : Request ℝ} {q : Quadrature ℝ}, request.build = .ok q →
      q.table.mu.length = q.angles := by
  refine ⟨fun {q} hdimension hnorm hmu => ?_, fun h => (Request.hasColumns_of_build h).mu⟩
  obtain ⟨o, ho⟩ := exists_eq_ofFn_of_length q.length_ordinates
  have hline := ofQuadrature_line hinverse decompose hdimension ho rfl
  have hnodup : q.table.mu.Nodup ↔ (lineFlux q.norm fun r => (o r).x).det ≠ 0 := by
    rw [← Quadrature.map_x_ordinates hdimension hmu, ho, List.map_ofFn, List.nodup_ofFn,
      det_lineFlux_ne_zero_iff hnorm]
    rfl
  by_cases hdet : (lineFlux q.norm fun r => (o r).x).det = 0
  · have hrepeat : ¬ q.table.mu.Nodup := fun h => hnodup.mp h hdet
    rw [if_pos hdet] at hline
    rw [hline]
    simp [hrepeat]
  · rw [if_neg hdet] at hline
    rw [hline]
    simp [hnodup.mpr hdet]

end

/-- Two directions on a line of the same weight. -/
noncomputable def doublet (x y : ℝ) : Quadrature ℝ :=
  ⟨.general "doublet" 1 1, 2, 2.0, { mu := [x, y], wt := [1, 1] }⟩

theorem general_doublet {x y : ℝ} (hx : x ≠ 0 ∧ |x| ≤ 1) (hy : y ≠ 0 ∧ |y| ≤ 1) :
    Quadrature.general "doublet" 1 2 1 (some 2.0) { mu := [x, y], wt := [1, 1] } =
      .ok (doublet x y) := by
  refine Quadrature.general_line (List.cons_ne_nil _ _) rfl ?_ (by simp) (by norm_num)
  simp [hx, hy]

/-- Opposite directions have operators, and one direction listed twice has none. -/
theorem exists_ofQuadrature_sn_iff_doublet :
    let decompose : DenseMatrix ℝ → SingularDecomposition ℝ := fun _ => ⟨[], fun _ => .zeros 0 0⟩
    let _ : MatrixSolver ℝ := .ofColumns ColumnMatrix.exactInverse? decompose
    let request (x y : ℝ) : Request ℝ :=
      .general "doublet" 1 2 1 (some 2.0) { mu := [x, y], wt := [1, 1] }
    ColumnMatrix.InvertsExactly ColumnMatrix.exactInverse? ∧
    (∀ x y, (doublet x y).dimension = 1 ∧ (doublet x y).norm ≠ 0) ∧
    (request (-1) 1).build = .ok (doublet (-1) 1) ∧
    (∃ s, ofQuadrature (doublet (-1) 1) .sn none = .ok s) ∧
    (request 1 1).build = .ok (doublet 1 1) ∧
    ofQuadrature (doublet 1 1) .sn none = .error (.singularOperator .sn) := by
  intro decompose _ request
  have hexact := ColumnMatrix.invertsExactly_exactInverse?
  obtain ⟨hoperators, hcolumns⟩ := exists_ofQuadrature_sn_iff hexact decompose
  have hset : ∀ x y, (doublet x y).dimension = 1 ∧ (doublet x y).norm ≠ 0 := fun _ _ =>
    ⟨rfl, by norm_num [doublet]⟩
  have hopposite : (request (-1) 1).build = .ok (doublet (-1) 1) :=
    general_doublet (by norm_num) (by norm_num)
  have htwice : (request 1 1).build = .ok (doublet 1 1) :=
    general_doublet (by norm_num) (by norm_num)
  refine ⟨hexact, hset, hopposite, ?_, htwice, ?_⟩
  · refine (hoperators (hset _ _).1 (hset _ _).2 (hcolumns hopposite)).1.mpr ?_
    norm_num [doublet]
  · refine (hoperators (hset _ _).1 (hset _ _).2 (hcolumns htwice)).2 ?_
    simp [doublet]

end MomentOperators

end DiscreteOrdinates
