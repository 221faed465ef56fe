import DiscreteOrdinates.Proofs.ExactNegation
import DiscreteOrdinates.Proofs.Quadrature.Columns
import DiscreteOrdinates.Proofs.Quadrature.InPlaceRules
import DiscreteOrdinates.Proofs.Quadrature.SecondOrderRule

/-!
# Symmetry of the interval sets

The generated sets on the interval are symmetric about its centre whatever the iteration
returns and however the arithmetic rounds, as long as a negation is exact: only a root is
computed, its negative is written down. The square set has its levels in opposite pairs for
the same reason. Main statement: `isSymmetric_of_eq_ok`.
-/

namespace DiscreteOrdinates

variable {R : Type} [Scalar R]

/-- The second number is the negative of the first, up to the sign of a zero. -/
def IsNegative (x y : R) : Prop :=
  y = -x ∨ x = 0.0 ∧ y = 0.0

/-- Nodes and weights that are symmetric about zero. -/
structure IsSymmetric (order : ℕ) (nodes weights : List R) : Prop where
  length_nodes : nodes.length = order
  length_weights : weights.length = order
  isNegative : ∀ i (h : i < order), IsNegative nodes[i] nodes[order - 1 - i]
  weight_eq : ∀ i (h : i < order), weights[order - 1 - i] = weights[i]
  centre : ∀ h : order % 2 = 1, nodes[order / 2] = 0.0

namespace IsSymmetric

/-- Nodes and weights that read the same from either end, but for the sign of the nodes. -/
theorem of_reverse {order : ℕ} {nodes weights : List R} (hnodes : nodes.length = order)
    (hweights : weights.length = order) (hnegative : List.Forall₂ IsNegative nodes nodes.reverse)
    (hreverse : weights.reverse = weights)
    (hcentre : order % 2 = 1 → nodes[order / 2]? = some 0.0) :
    IsSymmetric order nodes weights where
  length_nodes := hnodes
  length_weights := hweights
  isNegative i h := by
    have hi : i < nodes.length := by omega
    have hreflected := hnegative.get hi (by rw [List.length_reverse]; exact hi)
    simpa [List.getElem_reverse, hnodes] using hreflected
  weight_eq i h := by
    have hi : i < weights.reverse.length := by rw [List.length_reverse]; omega
    have hreflected := List.getElem_of_eq hreverse hi
    simpa [List.getElem_reverse, hweights] using hreflected
  centre h := by
    obtain ⟨_, hvalue⟩ := List.getElem?_eq_some_iff.mp (hcentre h)
    exact hvalue

end IsSymmetric

/-! ## Rules -/

section

variable [ExactNegation R]

theorem isNegative_neg (x : R) : IsNegative (-x) x :=
  .inl (ExactNegation.neg_neg x).symm

theorem IsNegative.mul_self {x y : R} (h : IsNegative x y) : y * y = x * x := by
  obtain rfl | ⟨rfl, rfl⟩ := h
  · exact ExactNegation.neg_mul_neg x
  · rfl

theorem forall₂_isNegative_map (xs : List R) :
    List.Forall₂ IsNegative xs (xs.map (- ·)) ∧ List.Forall₂ IsNegative (xs.map (- ·)) xs := by
  rw [List.forall₂_map_right_iff, List.forall₂_map_left_iff, List.forall₂_same, List.forall₂_same]
  exact ⟨fun x _ => .inl rfl, fun x _ => isNegative_neg x⟩

end

namespace IntervalRule

theorem isSymmetric_toTable {order : ℕ} {rule : IntervalRule R}
    (h : IsSymmetric order rule.nodes rule.weights) (norm : R) :
    IsSymmetric order (rule.toTable norm).mu (rule.toTable norm).wt where
  length_nodes := h.length_nodes
  length_weights := (List.length_map _).trans h.length_weights
  isNegative := h.isNegative
  weight_eq i hi := by
    simp only [toTable, List.getElem_map]
    rw [h.weight_eq i hi]
  centre := h.centre

section

variable [ExactNegation R]

theorem isSymmetric_ofRoots {order : ℕ} {roots : List R} (h : roots.length = (order + 1) / 2) :
    IsSymmetric order (ofRoots order roots).nodes (ofRoots order roots).weights := by
  have hlength := length_ofRoots h
  have houter : ((roots.take (order / 2)).map fun x => -x).length = order / 2 := by
    rw [List.length_map, List.length_take]
    omega
  have hnegative := forall₂_isNegative_map (roots.take (order / 2))
  refine .of_reverse hlength.1 hlength.2 ?_ (reverse_weights_ofRoots h) fun hodd => ?_
  · rw [ofRoots]
    dsimp only
    rw [List.reverse_append, List.reverse_append, List.reverse_reverse, List.append_assoc]
    -- Read backwards, the roots stand where their negatives do, and the centre where it was.
    refine List.rel_append hnegative.2 (List.rel_append ?_ ?_)
    · split
      · exact .cons (.inr ⟨rfl, rfl⟩) .nil
      · exact .nil
    · rw [← List.map_reverse]
      exact (forall₂_isNegative_map _).1
  · rw [ofRoots, if_pos hodd, List.append_assoc, List.getElem?_append_right houter.le, houter,
      Nat.sub_self]
    rfl

/-- Either half of a double table is the other one mirrored, whatever the rule is. -/
theorem isSymmetric_toDoubleTable {order : ℕ} {rule : IntervalRule R}
    (hnodes : rule.nodes.length = order) (hweights : rule.weights.length = order) (norm : R) :
    IsSymmetric (2 * order) (rule.toDoubleTable norm).mu (rule.toDoubleTable norm).wt := by
  refine .of_reverse ?_ ?_ ?_ ?_ fun hodd => ?_
  · simp [toDoubleTable, hnodes, two_mul]
  · simp [toDoubleTable, hweights, two_mul]
  · rw [toDoubleTable]
    dsimp only
    rw [List.reverse_append, List.reverse_reverse, ← List.map_reverse]
    exact List.rel_append (forall₂_isNegative_map _).2 (forall₂_isNegative_map _).1
  · rw [toDoubleTable]
    dsimp only
    rw [List.reverse_append, List.reverse_reverse]
  · omega

end

end IntervalRule

/-! ## Levels -/

/-- Levels of `order` directions each, in opposite pairs: the directions of one level of a
pair are those of the other one, in the same order, but for the sign of `eta`. -/
structure HasMirroredLevels (order : ℕ) (t : DirectionTable R) : Prop where
  columns : t.HasColumns 2 (order * order)
  eta_eq : ∀ i < order, ∀ j < order, (t.row (i * order + j)).y = (t.row (i * order)).y
  mirrored : ∀ i < order, ∀ j < order,
    let o := t.row (i * order + j)
    let image := t.row ((order - 1 - i) * order + j)
    image.x = o.x ∧ image.z = o.z ∧ image.weight = o.weight ∧ IsNegative o.y image.y

/-- Place `j` of chunk `i`, if all chunks have the same size. -/
theorem getElem?_flatMap_of_length {α β : Type} {f : α → List β} {n : ℕ}
    (hf : ∀ a, (f a).length = n) (xs : List α) {i j : ℕ} (hi : i < xs.length) (hj : j < n) :
    (xs.flatMap f)[i * n + j]? = (f xs[i])[j]? := by
  induction xs generalizing i with
  | nil => cases hi
  | cons x xs ih =>
    rw [List.flatMap_cons]
    cases i with
    | zero =>
      rw [Nat.zero_mul, Nat.zero_add, List.getElem?_append_left (by rw [hf]; exact hj)]
      rfl
    | succ i =>
      have hplace : (i + 1) * n + j = (f x).length + (i * n + j) := by
        rw [hf, Nat.succ_mul]
        omega
      rw [hplace, List.getElem?_append_right (Nat.le_add_right _ _), Nat.add_sub_cancel_left,
        ih (Nat.lt_of_succ_lt_succ hi)]
      rfl

theorem DirectionTable.row_ofRows {os : List (Ordinate R)} {m : ℕ} {o : Ordinate R}
    (h : os[m]? = some o) : (ofRows os).row m = o := by
  simp [ofRows, row, Scalar.nth, h]

namespace ChebyshevLegendre

/-- Direction `j` of the level `eta`. -/
def levelDirection (order : ℕ) (eta weight : R) (j : ℕ) : Ordinate R :=
  let sinθ := Scalar.sqrt (Scalar.positivePart (1.0 - eta * eta))
  ⟨sinθ * Scalar.cos (azimuth order j), eta, sinθ * Scalar.sin (azimuth order j), weight⟩

theorem level_eq (order : ℕ) (eta weight : R) :
    level order eta weight = (List.range order).map (levelDirection order eta weight) :=
  rfl

/-- What a weight of the rule is multiplied by. -/
def weightScale (order : ℕ) (norm : R) : R :=
  norm / (2.0 * Scalar.pi) * Scalar.pi / (order : ℕ)

section

variable {order : ℕ} {rule : IntervalRule R} (hnodes : rule.nodes.length = order)
  (hweights : rule.weights.length = order) (norm : R)

include hnodes hweights

theorem length_levels :
    ((rule.nodes.zip rule.weights).flatMap fun p =>
      level order p.1 (p.2 * weightScale order norm)).length = order * order := by
  simp [List.length_flatMap, level_eq, hnodes, hweights]

theorem row_ofRule {i j : ℕ} (hi : i < order) (hj : j < order) :
    (ofRule order rule norm).row (i * order + j) =
      levelDirection order rule.nodes[i] (rule.weights[i] * weightScale order norm) j := by
  have hplace : i < (rule.nodes.zip rule.weights).length := by
    rw [List.length_zip]
    omega
  have hlevel (p : R × R) : (level order p.1 (p.2 * weightScale order norm)).length = order := by
    rw [level_eq, List.length_map, List.length_range]
  refine DirectionTable.row_ofRows ((getElem?_flatMap_of_length hlevel _ hplace hj).trans ?_)
  rw [level_eq, List.getElem?_map, List.getElem?_range hj, List.getElem_zip]
  rfl

end

theorem hasMirroredLevels_ofRule [ExactNegation R] {order : ℕ} {rule : IntervalRule R}
    (h : IsSymmetric order rule.nodes rule.weights) (norm : R) :
    HasMirroredLevels order (ofRule order rule norm) where
  columns := by
    rw [← length_levels h.length_nodes h.length_weights norm]
    exact DirectionTable.hasColumns_ofRows (by decide) _
  eta_eq i hi j hj := by
    have hfirst := row_ofRule h.length_nodes h.length_weights norm hi (Nat.zero_lt_of_lt hj)
    rw [Nat.add_zero] at hfirst
    rw [row_ofRule h.length_nodes h.length_weights norm hi hj, hfirst]
    rfl
  mirrored i hi j hj := by
    have hopposite : order - 1 - i < order := by omega
    -- All that a level has of its `eta`, besides the column itself, is the square.
    have hsquare := (h.isNegative i hi).mul_self
    rw [row_ofRule h.length_nodes h.length_weights norm hi hj,
      row_ofRule h.length_nodes h.length_weights norm hopposite hj]
    refine ⟨?_, ?_, ?_, h.isNegative i hi⟩
    · simp only [levelDirection, hsquare]
    · simp only [levelDirection, hsquare]
    · simp only [levelDirection, h.weight_eq i hi]

end ChebyshevLegendre

/-! ## Sets -/

namespace IntervalRule

/-- Whatever roots the iteration settles on, the rule that is written in place is
symmetric, and so are the tables that are made from it. -/
theorem isSymmetric_of_eq_ok [ExactNegation R] (order : ℕ) (norm : R) :
    (∀ rule, gaussLegendre order = .ok rule →
      (∃ zs, roots order = some zs ∧ rule = inPlace order zs) ∧
      IsSymmetric order rule.nodes rule.weights ∧
      IsSymmetric order (rule.toTable norm).mu (rule.toTable norm).wt) ∧
    (∀ table, doubleGaussTable order norm = .ok table →
      IsSymmetric order table.mu table.wt) ∧
    ∀ table, ChebyshevLegendre.table order norm = .ok table →
      HasMirroredLevels order table := by
  have hsymmetric (rule : IntervalRule R) (h : gaussLegendre order = .ok rule) :
      IsSymmetric order rule.nodes rule.weights := by
    obtain ⟨-, zs, -, hlength, rfl⟩ := eq_ofRoots_of_gaussLegendre h
    exact isSymmetric_ofRoots hlength
  refine ⟨fun rule h => ⟨?_, hsymmetric rule h, isSymmetric_toTable (hsymmetric rule h) norm⟩,
    fun table h => ?_, fun table h => ?_⟩
  · obtain ⟨-, zs, hroots, hlength, rfl⟩ := eq_ofRoots_of_gaussLegendre h
    exact ⟨zs, hroots, (inPlace_eq_ofRoots hlength).symm⟩
  · obtain ⟨⟨-, heven⟩, h⟩ := require_bind_eq_ok.mp h
    obtain ⟨rule, hrule, h⟩ := bind_eq_ok.mp h
    obtain rfl := Except.ok.inj h
    obtain ⟨-, hnodes, hweights⟩ := length_of_gaussLegendre hrule
    have hdouble := isSymmetric_toDoubleTable hnodes hweights norm
    rwa [Nat.mul_div_cancel' (Nat.dvd_of_mod_eq_zero heven)] at hdouble
  · obtain ⟨-, h⟩ := require_bind_eq_ok.mp h
    obtain ⟨rule, hrule, h⟩ := bind_eq_ok.mp h
    obtain rfl := Except.ok.inj h
    exact ChebyshevLegendre.hasMirroredLevels_ofRule (hsymmetric rule hrule) norm

/-- The sets over the rule of order two. -/
theorem isSymmetric_of_eq_ok_two :
    ExactNegation ℝ ∧
    (∃ rule : IntervalRule ℝ, gaussLegendre 2 = .ok rule ∧
      IsSymmetric 2 (rule.toTable 1).mu (rule.toTable 1).wt) ∧
    (∃ table : DirectionTable ℝ, doubleGaussTable 4 1 = .ok table ∧
      IsSymmetric 4 table.mu table.wt) ∧
    ∃ table : DirectionTable ℝ, ChebyshevLegendre.table 2 1 = .ok table ∧
      HasMirroredLevels 2 table := by
  obtain ⟨rule, hrule⟩ := exists_gaussLegendre_two
  have hdouble : doubleGaussTable 4 1 = .ok (rule.toDoubleTable 1) := by
    rw [doubleGaussTable, doubleGaussTableWith, require, if_pos (by decide), hrule]
    rfl
  have hlevels : ChebyshevLegendre.table 2 1 = .ok (ChebyshevLegendre.ofRule 2 rule 1) := by
    rw [ChebyshevLegendre.table, ChebyshevLegendre.tableWith, require, if_pos (by decide), hrule]
    rfl
  obtain ⟨hinterval, -, hsquare⟩ := isSymmetric_of_eq_ok 2 (1 : ℝ)
  obtain ⟨-, hhalves, -⟩ := isSymmetric_of_eq_ok 4 (1 : ℝ)
  exact ⟨inferInstance, ⟨rule, hrule, (hinterval rule hrule).2.2⟩, ⟨_, hdouble, hhalves _ hdouble⟩,
    ⟨_, hlevels, hsquare _ hlevels⟩⟩

end IntervalRule

end DiscreteOrdinates
