import DiscreteOrdinates.Proofs.Matrix.Inversion
import DiscreteOrdinates.Proofs.Matrix.SingularFactors
import DiscreteOrdinates.Proofs.Quadrature.Angles
import DiscreteOrdinates.Proofs.Quadrature.Pole

/-!
# Columns of a set

The columns of every set that can be built have an entry for each direction, in whatever
arithmetic they are computed, and so its accessors answer for each direction and for no
other index. Main statement: `isComplete_of_build`.
-/

namespace DiscreteOrdinates

variable {R : Type} [Scalar R]

/-! ## Tables -/

namespace DirectionTable

/-- Row `m`, should all of its entries be there. Without `eta` a row has one cosine. -/
def row? (t : DirectionTable R) (m : ℕ) : Option (Ordinate R) := do
  let mu ← t.mu[m]?
  let wt ← t.wt[m]?
  if t.eta.isEmpty then return ⟨mu, 0.0, 0.0, wt⟩
  return ⟨mu, ← t.eta[m]?, ← t.xi[m]?, wt⟩

/-- Whether a loop over the weights finds the cosines of each of them, so that no row is
made up of anything else. -/
def ReadsInside (t : DirectionTable R) : Prop :=
  ∀ m < t.wt.length, t.row? m = some (t.row m)

theorem nth_eq_getElem {xs : List R} {m : ℕ} (h : m < xs.length) : Scalar.nth xs m = xs[m] := by
  rw [Scalar.nth, List.getElem?_eq_getElem h, Option.getD_some]

theorem HasColumns.readsInside {dimension n : ℕ} {t : DirectionTable R}
    (h : t.HasColumns dimension n) : t.ReadsInside := by
  intro m hm
  obtain ⟨hmu, hwt, hothers⟩ := h
  have hmu : m < t.mu.length := by omega
  rw [row?, row, nth_eq_getElem hmu, nth_eq_getElem hm, List.getElem?_eq_getElem hmu,
    List.getElem?_eq_getElem hm]
  split at hothers
  · obtain ⟨heta, hxi⟩ := hothers
    rw [heta, hxi]
    rfl
  · obtain ⟨heta, hxi⟩ := hothers
    have heta : m < t.eta.length := by omega
    have hxi : m < t.xi.length := by omega
    have hnonempty : t.eta.isEmpty = false := by
      rw [List.isEmpty_eq_false_iff, ← List.length_pos_iff]
      omega
    rw [hnonempty, nth_eq_getElem heta, nth_eq_getElem hxi, List.getElem?_eq_getElem heta,
      List.getElem?_eq_getElem hxi]
    rfl

omit [Scalar R] in
theorem hasColumns_ofRows {dimension : ℕ} (hdimension : dimension ≠ 1) (os : List (Ordinate R)) :
    (ofRows os).HasColumns dimension os.length where
  mu := List.length_map _
  wt := List.length_map _
  others := by
    rw [if_neg hdimension]
    exact ⟨List.length_map _, List.length_map _⟩

/-! ## Checked tables -/

theorem readsInside_of_prepared {dimension : ℕ} {t carried : DirectionTable R}
    (h : t.prepared dimension = .ok carried) : carried.ReadsInside := by
  obtain ⟨-, hwt, -, hcarried⟩ := prepared_eq_ok.mp h
  exact (hasColumns_of_carried hwt hcarried).readsInside

end DirectionTable

namespace UserOctant

theorem readsInside_of_checkColumns {layout : Layout} {levels : ℕ} {octant : DirectionTable R}
    (h : checkColumns layout levels octant = .ok ()) : octant.ReadsInside := by
  obtain ⟨-, heta, hxi, hwt, -⟩ := checkColumns_eq_ok.mp h
  have hcolumns : octant.HasColumns 3 octant.mu.length := ⟨rfl, hwt, heta, hxi⟩
  exact hcolumns.readsInside

end UserOctant

/-! ## Requests -/

/-- A call of one of the constructors of sets. -/
inductive Request (R : Type) where
  | gaussLegendre (order : ℕ) (norm : Option R)
  | doubleGauss (order : ℕ) (norm : Option R)
  | levelSymmetric (order dimension : ℕ) (norm : Option R)
  | squareChebyshevLegendre (order : ℕ) (norm : Option R)
  | general (name : String) (dimension order levels : ℕ) (norm : Option R)
      (table : DirectionTable R)
  | octant (table : DirectionTable R) (levels : ℕ) (layout : Layout) (norm : Option R)

namespace Request

/-- The set that a request asks for. -/
def build [MatrixSolver R] : Request R → Except (QuadratureError R) (Quadrature R)
  | gaussLegendre order norm => Quadrature.gaussLegendre order norm
  | doubleGauss order norm => Quadrature.doubleGauss order norm
  | levelSymmetric order dimension norm => Quadrature.levelSymmetric order dimension norm
  | squareChebyshevLegendre order norm => Quadrature.squareChebyshevLegendre order norm
  | general name dimension order levels norm table =>
    Quadrature.general name dimension order levels norm table
  | octant table levels layout norm => Quadrature.octant table levels layout norm

/-- Whether a set of `n` directions answers a request. -/
def Allows (n : ℕ) : Request R → Prop
  | gaussLegendre order _ => n = order
  | doubleGauss order _ => n = order
  | levelSymmetric order dimension _ =>
    n = if dimension = 2 then order * (order + 2) / 2 else order * (order + 2)
  | squareChebyshevLegendre order _ => n = order ^ 2
  | general _ _ _ _ _ table => n = table.mu.length
  | octant table _ _ _ => n ≤ 8 * table.mu.length

end Request

/-- The request that a configuration leads to. -/
def Configuration.request (c : Configuration R) : Except (QuadratureError R) (Request R) :=
  match c.family with
  | .gaussLegendre => do
    c.requireDimension 1
    return .gaussLegendre c.order c.norm
  | .doubleGauss => do
    c.requireDimension 1
    return .doubleGauss c.order c.norm
  | .squareChebyshevLegendre => do
    c.requireDimension 2
    return .squareChebyshevLegendre c.order c.norm
  | .levelSymmetric => return .levelSymmetric c.order c.requestedDimension c.norm
  | .general =>
    let levels := c.levels.getD c.order
    match c.ordinates, c.layout with
    | none, _ => .error (.missingOrdinates c.family)
    | some table, some layout => do
      c.requireDimension 3
      return .octant table levels layout c.norm
    | some table, none =>
      return .general (c.name.getD defaultName) c.requestedDimension c.order levels c.norm table

/-- Configurations ask for nothing that the constructors do not offer. -/
theorem Configuration.build_eq_bind [MatrixSolver R] (c : Configuration R) :
    c.build = c.request >>= Request.build := by
  obtain ⟨family, order, dimension, norm, levels, layout, name, ordinates⟩ := c
  cases family with
  | general =>
    cases ordinates with
    | none => rfl
    | some table =>
      cases layout with
      | none => rfl
      | some layout => simp only [build, request, bind_assoc, pure_bind, Request.build]
  | levelSymmetric => rfl
  | gaussLegendre => simp only [build, request, bind_assoc, pure_bind, Request.build]
  | doubleGauss => simp only [build, request, bind_assoc, pure_bind, Request.build]
  | squareChebyshevLegendre => simp only [build, request, bind_assoc, pure_bind, Request.build]

/-! ## Sets -/

namespace Quadrature

/-- A set has directions, and each of its columns has an entry for each of them. Only a
set on a line has no `eta` and no `xi`. -/
structure IsComplete {R : Type} (q : Quadrature R) : Prop where
  angles_pos : 1 ≤ q.angles
  mu : q.table.mu.length = q.angles
  wt : q.table.wt.length = q.angles
  others : (q.table.eta.length = q.angles ∧ q.table.xi.length = q.angles) ∨
    (q.table.eta = [] ∧ q.table.xi = [])
  line : (q.table.eta = [] ∧ q.table.xi = []) ↔ q.dimension = 1

/-- The accessors of a set answer for the index of a direction with what its row holds,
and for any other index with an error that names it. -/
structure Answers (q : Quadrature R) : Prop where
  inside : ∀ m < q.angles, ∃ o, q.table.row? m = some o ∧
    q.component (·.mu) m = .ok o.x ∧ q.component (·.eta) m = .ok o.y ∧
    q.component (·.xi) m = .ok o.z ∧ q.component (·.wt) m = .ok o.weight ∧
    q.omega m = .ok o.cosines ∧ ∃ a, q.ordinate m = .ok a ∧ q.ordinates[m]? = some a
  outside : ∀ m, q.angles ≤ m →
    (∀ column, q.component column m = .error (.indexOutOfRange m q.angles)) ∧
    q.omega m = .error (.indexOutOfRange m q.angles) ∧
    q.ordinate m = .error (.indexOutOfRange m q.angles)
  ordinates : q.ordinates.length = q.angles

/-- The weights of a set sum to its norm. Along the axes of a set that no user supplied
completely, no first moment exceeds the tolerance, which is a part of the norm. -/
structure ClosesWithin (q : Quadrature R) : Prop where
  weight : softEq q.totalWeight q.norm weightTolerance = true
  first : (∀ name dimension levels, q.kind ≠ .general name dimension levels) →
    ∀ i ∈ Axis.all.take q.dimension, ¬ momentTolerance * q.norm < Scalar.abs (q.table.firstMoment i)

omit [Scalar R] in
theorem isComplete_of_hasColumns {q : Quadrature R} (hpos : 0 < q.angles)
    (h : q.table.HasColumns q.dimension q.angles) : q.IsComplete := by
  obtain ⟨hmu, hwt, hothers⟩ := h
  split at hothers
  next hline => exact ⟨hpos, hmu, hwt, .inr hothers, iff_of_true hothers hline⟩
  next hline =>
    refine ⟨hpos, hmu, hwt, .inl hothers, iff_of_false ?_ hline⟩
    rintro ⟨heta, -⟩
    rw [heta, List.length_nil] at hothers
    omega

theorem answers_of_readsInside {q : Quadrature R} (h : q.table.ReadsInside) : q.Answers := by
  refine ⟨fun m hm => ?_, fun m hm => ?_, ?_⟩
  · have hindex : q.checkIndex m = .ok () := if_pos hm
    refine ⟨q.table.row m, h m hm, ?_, ?_, ?_, ?_, ?_, arrange q.dimension (q.table.row m), ?_, ?_⟩
    case refine_7 =>
      rw [angles] at hm
      rw [ordinates, DirectionTable.rows, List.getElem?_map, List.getElem?_map,
        List.getElem?_range hm]
      rfl
    all_goals exact check_bind_eq_ok.mpr ⟨hindex, rfl⟩
  · have hindex : q.checkIndex m = .error (.indexOutOfRange m q.angles) := if_neg (not_lt.mpr hm)
    simp only [component, omega, ordinate, hindex]
    exact ⟨fun _ => rfl, rfl, rfl⟩
  · rw [ordinates, DirectionTable.rows, List.length_map, List.length_map, List.length_range,
      angles]

theorem closesWithin_of_checkClosure {q : Quadrature R} (h : q.checkClosure = .ok ()) :
    q.ClosesWithin := by
  obtain ⟨hweight, h⟩ := check_bind_eq_ok.mp h
  refine ⟨?_, fun hkind i hi hlarge => ?_⟩
  · unfold checkWeight require at hweight
    split at hweight
    next hsoft => exact hsoft
    next => cases hweight
  · split at h
    next hgeneral => exact hkind _ _ _ hgeneral
    next =>
      obtain ⟨hfirst, -⟩ := check_bind_eq_ok.mp h
      unfold checkFirstMoment at hfirst
      dsimp only at hfirst
      split at hfirst
      next => cases hfirst
      next hnone =>
        have hwithin := List.find?_eq_none.mp hnone _ (List.mem_map_of_mem hi)
        exact hwithin (decide_eq_true hlarge)

/-! ## Columns of the families -/

theorem hasColumns_of_gaussLegendre {order : ℕ} {norm : Option R} {q : Quadrature R}
    (h : gaussLegendre order norm = .ok q) : q.table.HasColumns q.dimension q.angles := by
  obtain ⟨rule, hrule, h⟩ := bind_eq_ok.mp h
  obtain ⟨-, hnodes, hweights⟩ := IntervalRule.length_of_gaussLegendre hrule
  rw [← eq_of_checked h]
  refine ⟨?_, rfl, rfl, rfl⟩
  rw [angles, IntervalRule.toTable, List.length_map, hnodes, hweights]

theorem hasColumns_of_doubleGauss {order : ℕ} {norm : Option R} {q : Quadrature R}
    (h : doubleGauss order norm = .ok q) : q.table.HasColumns q.dimension q.angles := by
  obtain ⟨table, htable, h⟩ := bind_eq_ok.mp h
  obtain ⟨-, htable⟩ := require_bind_eq_ok.mp htable
  obtain ⟨rule, hrule, htable⟩ := bind_eq_ok.mp htable
  obtain ⟨-, hnodes, hweights⟩ := IntervalRule.length_of_gaussLegendre hrule
  rw [← eq_of_checked h, ← Except.ok.inj htable]
  refine ⟨?_, rfl, rfl, rfl⟩
  simp only [angles, IntervalRule.toDoubleTable, List.length_append, List.length_reverse,
    List.length_map, hnodes, hweights]

omit [Scalar R] in
theorem hasColumns_of_rows {q : Quadrature R} {os : List (Ordinate R)}
    (hdimension : 2 ≤ q.dimension) (htable : q.table = .ofRows os) :
    q.table.HasColumns q.dimension q.angles := by
  have hangles : q.angles = os.length := by
    rw [angles, htable, DirectionTable.ofRows, List.length_map]
  rw [hangles, htable]
  exact DirectionTable.hasColumns_ofRows (by omega) os

theorem hasColumns_of_squareChebyshevLegendre {order : ℕ} {norm : Option R} {q : Quadrature R}
    (h : squareChebyshevLegendre order norm = .ok q) :
    q.table.HasColumns q.dimension q.angles := by
  obtain ⟨table, htable, h⟩ := bind_eq_ok.mp h
  obtain ⟨-, htable⟩ := require_bind_eq_ok.mp htable
  obtain ⟨rule, -, htable⟩ := bind_eq_ok.mp htable
  rw [← eq_of_checked h, ← Except.ok.inj htable]
  exact hasColumns_of_rows le_rfl rfl

theorem hasColumns_of_levelSymmetric [MatrixSolver R] {order dimension : ℕ} {norm : Option R}
    {q : Quadrature R} (h : levelSymmetric order dimension norm = .ok q) :
    q.table.HasColumns q.dimension q.angles := by
  unfold levelSymmetric at h
  split at h
  · obtain ⟨os, -, h⟩ := bind_eq_ok.mp h
    rw [← eq_of_checked h]
    exact hasColumns_of_rows le_rfl rfl
  · obtain ⟨os, -, h⟩ := bind_eq_ok.mp h
    rw [← eq_of_checked h]
    exact hasColumns_of_rows (Nat.le_succ 2) rfl
  · cases h

theorem hasColumns_of_general {name : String} {dimension order levels : ℕ} {norm : Option R}
    {table : DirectionTable R} {q : Quadrature R}
    (h : general name dimension order levels norm table = .ok q) :
    q.table.HasColumns q.dimension q.angles := by
  obtain ⟨carried, hchecked, rfl⟩ := general_eq_ok_iff.mp h
  obtain ⟨-, hwt, -, hcarried, -, -⟩ := DirectionTable.checked_eq_ok.mp hchecked
  have hcolumns := DirectionTable.hasColumns_of_carried hwt hcarried
  rwa [← hcolumns.wt] at hcolumns

theorem hasColumns_of_octant {table : DirectionTable R} {levels : ℕ} {layout : Layout}
    {norm : Option R} {q : Quadrature R} (h : octant table levels layout norm = .ok q) :
    q.table.HasColumns q.dimension q.angles := by
  obtain ⟨-, -, os, -, htable⟩ := exists_rows_of_octant h
  obtain ⟨t, openInterval, -, -, rfl⟩ := octant_eq_ok.mp h
  exact hasColumns_of_rows (Nat.le_succ 2) htable

end Quadrature

/-! ## Answers to requests -/

namespace Request

variable [MatrixSolver R] {request : Request R} {q : Quadrature R}

theorem hasColumns_of_build (h : request.build = .ok q) :
    q.table.HasColumns q.dimension q.angles := by
  cases request with
  | gaussLegendre => exact Quadrature.hasColumns_of_gaussLegendre h
  | doubleGauss => exact Quadrature.hasColumns_of_doubleGauss h
  | levelSymmetric => exact Quadrature.hasColumns_of_levelSymmetric h
  | squareChebyshevLegendre => exact Quadrature.hasColumns_of_squareChebyshevLegendre h
  | general => exact Quadrature.hasColumns_of_general h
  | octant => exact Quadrature.hasColumns_of_octant h

theorem allows_of_build (h : request.build = .ok q) : 0 < q.angles ∧ request.Allows q.angles := by
  cases request with
  | gaussLegendre order norm =>
    obtain ⟨horder, hangles⟩ := Quadrature.angles_of_gaussLegendre h
    exact ⟨by omega, hangles⟩
  | doubleGauss order norm =>
    obtain ⟨horder, hangles⟩ := Quadrature.angles_of_doubleGauss h
    exact ⟨by omega, hangles⟩
  | levelSymmetric order dimension norm =>
    obtain ⟨horder, hdimension, hangles⟩ := Quadrature.angles_of_levelSymmetric h
    have hpos : 0 < order * (order + 2) := by positivity
    rw [Allows]
    rcases hdimension with rfl | rfl
    · rw [if_pos rfl]
      omega
    · rw [if_neg (by decide)]
      omega
  | squareChebyshevLegendre order norm =>
    obtain ⟨horder, hangles⟩ := Quadrature.angles_of_squareChebyshevLegendre h
    rw [Allows, hangles, sq]
    exact ⟨by positivity, rfl⟩
  | general name dimension order levels norm table =>
    obtain ⟨hmu, hangles⟩ := Quadrature.angles_of_general h
    rw [Allows, hangles]
    exact ⟨List.length_pos_iff.mpr hmu, rfl⟩
  | octant table levels layout norm => exact Quadrature.angles_of_octant h

omit [MatrixSolver R] in
/-- Whatever a set is made from, it is checked before it is returned. -/
theorem checkClosure_of_bind {α : Type} {x : Except (QuadratureError R) α} {make : α → Quadrature R}
    (h : (x >>= fun a => Quadrature.checked (make a)) = .ok q) : q.checkClosure = .ok () := by
  obtain ⟨a, -, h⟩ := bind_eq_ok.mp h
  obtain ⟨hclosure, h⟩ := check_bind_eq_ok.mp h
  rwa [Except.ok.inj h] at hclosure

theorem checkClosure_of_build (h : request.build = .ok q) : q.checkClosure = .ok () := by
  cases request with
  | gaussLegendre => exact checkClosure_of_bind h
  | doubleGauss => exact checkClosure_of_bind h
  | levelSymmetric order dimension norm =>
    have h : Quadrature.levelSymmetric order dimension norm = .ok q := h
    unfold Quadrature.levelSymmetric at h
    split at h
    · exact checkClosure_of_bind h
    · exact checkClosure_of_bind h
    · cases h
  | squareChebyshevLegendre => exact checkClosure_of_bind h
  | general => exact checkClosure_of_bind h
  | octant =>
    obtain ⟨t, openInterval, -, hclosure, rfl⟩ := Quadrature.octant_eq_ok.mp h
    exact hclosure

omit [Scalar R] [MatrixSolver R] in
/-- Every set but one that a user supplies completely has the axis of `mu`. -/
theorem mu_mem_axes (hkind : ∀ name dimension levels, q.kind ≠ .general name dimension levels) :
    Axis.mu ∈ Axis.all.take q.dimension := by
  rw [Quadrature.dimension]
  cases hq : q.kind with
  | general name dimension levels => exact (hkind _ _ _ hq).elim
  | _ => simp [SetKind.dimension, Axis.all]

/-- In exact arithmetic the first moment is a bound that only a norm that is not negative
can keep. -/
theorem norm_nonneg_of_build [MatrixSolver ℝ] {request : Request ℝ} {q : Quadrature ℝ}
    (h : request.build = .ok q)
    (hkind : ∀ name dimension levels, q.kind ≠ .general name dimension levels) : 0 ≤ q.norm := by
  have hcloses := Quadrature.closesWithin_of_checkClosure (checkClosure_of_build h)
  have hbound := hcloses.first hkind _ (mu_mem_axes hkind)
  have habs : |q.table.firstMoment .mu| ≤ Quadrature.momentTolerance * q.norm := not_lt.mp hbound
  exact nonneg_of_mul_nonneg_right ((abs_nonneg _).trans habs) Quadrature.momentTolerance_pos

end Request

/-- Every set that a request returns has the directions that the request asks for and
columns that are complete, its accessors answer for these directions only, and it closes
within the tolerances. Configurations lead to such requests, and before the rows of a user
are looked at, all of their entries are known to be there. Exact arithmetic has no sets of
negative norm but those that a user supplies completely. -/
theorem isComplete_of_build :
    (∀ {R : Type} [Scalar R] [MatrixSolver R] {request : Request R} {q : Quadrature R},
      request.build = .ok q →
        request.Allows q.angles ∧ q.IsComplete ∧ q.Answers ∧ q.ClosesWithin) ∧
    (∀ {R : Type} [Scalar R] [MatrixSolver R] (c : Configuration R),
      c.build = c.request >>= Request.build) ∧
    (∀ {R : Type} [Scalar R],
      (∀ {dimension : ℕ} {t carried : DirectionTable R},
        t.prepared dimension = .ok carried → carried.ReadsInside) ∧
      ∀ {layout : Layout} {levels : ℕ} {octant : DirectionTable R},
        UserOctant.checkColumns layout levels octant = .ok () → octant.ReadsInside) ∧
    ∀ [MatrixSolver ℝ] {request : Request ℝ} {q : Quadrature ℝ}, request.build = .ok q →
      (∀ name dimension levels, q.kind ≠ .general name dimension levels) → 0 ≤ q.norm := by
  refine ⟨fun h => ?_, Configuration.build_eq_bind, ⟨DirectionTable.readsInside_of_prepared,
    UserOctant.readsInside_of_checkColumns⟩, Request.norm_nonneg_of_build⟩
  obtain ⟨hpos, hallows⟩ := Request.allows_of_build h
  have hcolumns := Request.hasColumns_of_build h
  exact ⟨hallows, Quadrature.isComplete_of_hasColumns hpos hcolumns,
    Quadrature.answers_of_readsInside hcolumns.readsInside,
    Quadrature.closesWithin_of_checkClosure (Request.checkClosure_of_build h)⟩

/-- An octant that reaches the pole makes a set of two directions, and the tables of one
direction that are read are complete. -/
theorem isComplete_of_build_upright :
    let _ : MatrixSolver ℝ := .ofColumns ColumnMatrix.exactInverse? exactDecompose
    let request : Request ℝ := .octant (Quadrature.upright 1) 2 .square (some 2)
    let line : DirectionTable ℝ := { mu := [1], wt := [1] }
    (∃ q, request.build = .ok q ∧ q.angles ≤ 8 ∧ q.IsComplete ∧ q.Answers ∧
      (∀ name dimension levels, q.kind ≠ .general name dimension levels) ∧ 0 ≤ q.norm) ∧
    line.prepared 1 = .ok line ∧ line.ReadsInside ∧
    UserOctant.checkColumns .square 2 (Quadrature.upright 1) = .ok () ∧
    (Quadrature.upright 1).ReadsInside := by
  intro _ request line
  obtain ⟨hbuild, -, hread, hnorm⟩ := isComplete_of_build
  have hline : line.prepared 1 = .ok line :=
    DirectionTable.prepared_eq_ok.mpr ⟨by simp [line], rfl,
      DirectionTable.checkWeights_eq_ok.mpr (by simp [line]), rfl⟩
  have hoctant : UserOctant.checkColumns .square 2 (Quadrature.upright 1) = .ok () :=
    UserOctant.checkColumns_eq_ok.mpr ⟨rfl, rfl, rfl, rfl,
      DirectionTable.checkWeights_eq_ok.mpr (by simp [Quadrature.upright])⟩
  obtain ⟨q, hq⟩ := Quadrature.exists_octant_upright (one_mul 1) zero_le_two
  have hkind : ∀ name dimension levels, q.kind ≠ .general name dimension levels := by
    obtain ⟨t, openInterval, -, -, rfl⟩ := Quadrature.octant_eq_ok.mp hq
    exact fun _ _ _ => SetKind.noConfusion
  have hq : request.build = .ok q := hq
  obtain ⟨hallows, hcomplete, hanswers, -⟩ := hbuild hq
  exact ⟨⟨q, hq, hallows, hcomplete, hanswers, hkind, hnorm hq hkind⟩, hline, hread.1 hline,
    hoctant, hread.2 hoctant⟩

/-- An octant of one direction. -/
def beam : DirectionTable Float :=
  { mu := [1.0], eta := [0.0], xi := [0.0], wt := [1.0] }

/-- In floating point the tolerance of the first moment, which is a part of the norm, may
round to zero. Then the octant makes a set of negative norm. -/
theorem exists_octant_of_negative_norm :
    ∃ q, Quadrature.octant beam 2 .square (some (-1e-316)) = .ok q ∧
      (∀ name dimension levels, q.kind ≠ .general name dimension levels) ∧ q.norm < 0.0 := by
  have hrun : (Quadrature.octant beam 2 .square (some (-1e-316))).toOption.any
      (fun q => decide (q.norm < 0.0)) = true := by
    decide +kernel
  generalize hoctant : Quadrature.octant beam 2 .square (some (-1e-316)) = result at hrun ⊢
  cases result with
  | error cause => simp [Except.toOption] at hrun
  | ok q =>
    obtain ⟨t, openInterval, -, -, rfl⟩ := Quadrature.octant_eq_ok.mp hoctant
    exact ⟨_, rfl, fun _ _ _ => SetKind.noConfusion, of_decide_eq_true hrun⟩

end DiscreteOrdinates
