import DiscreteOrdinates.Proofs.Harmonics.Neighbours
import DiscreteOrdinates.Proofs.Harmonics.RealRoots
import DiscreteOrdinates.Proofs.Quadrature.Angles
import DiscreteOrdinates.Proofs.Quadrature.IntervalSets

/-!
# Rules of exact roots

A Gauss-Legendre rule is made of roots that an iteration delivers within a tolerance. What
holds of it if they are exact is stated with the iteration as a parameter: the nodes are
all roots of the Legendre polynomial, the weights are taken at them, and the rule has the
integral of every polynomial of less than twice its order (`integral_ofRoots`).
-/

namespace DiscreteOrdinates

open Legendre (rodrigues)

namespace IntervalRule

open Polynomial

/-! ## Weights -/

theorem weight_succ (n : ℕ) (z : ℝ) :
    weight (n + 1) z = 2 / ((1 - z ^ 2) *
      ((n + 1) * (z * (rodrigues (n + 1)).eval z - (rodrigues n).eval z) / (z ^ 2 - 1)) ^ 2) := by
  rw [weight, Legendre.neighbours_succ]
  dsimp only
  rw [Legendre.slope, Scalar.natCast_real, Scalar.one_real, Scalar.two_real]
  push_cast
  congr 1
  ring

/-- A root and its negative have the same weight. -/
theorem weight_neg (n : ℕ) (z : ℝ) : weight (n + 1) (-z) = weight (n + 1) z := by
  have hsign : ((-1 : ℝ) ^ n) ^ 2 = 1 := by rw [← pow_mul, mul_comm, pow_mul, neg_one_sq, one_pow]
  have hslope (a b : ℝ) : (n + 1 : ℝ) * (-z * ((-1) ^ (n + 1) * a) - (-1) ^ n * b) =
      (-1) ^ n * ((n + 1) * (z * a - b)) := by
    ring
  rw [weight_succ, weight_succ, Legendre.eval_neg_rodrigues, Legendre.eval_neg_rodrigues, hslope,
    neg_sq, mul_div_assoc, mul_pow, hsign, one_mul]

theorem weight_of_isRoot {n : ℕ} {z : ℝ} (h : (rodrigues (n + 1)).IsRoot z) :
    weight (n + 1) z = 2 / ((1 - z ^ 2) * (derivative (rodrigues (n + 1))).eval z ^ 2) := by
  rw [weight, Legendre.neighbours_succ]
  dsimp only
  rw [Legendre.slope_eq_derivative n (Legendre.sq_lt_one_of_isRoot h).ne, Scalar.one_real,
    Scalar.two_real]
  congr 1
  ring

theorem nodes_ofRoots (order : ℕ) (roots : List ℝ) :
    (ofRoots order roots).nodes =
      (roots.take (order / 2)).map (- ·) ++
        ((if order % 2 = 1 then [0] else []) ++ (roots.take (order / 2)).reverse) := by
  rw [ofRoots, Scalar.zero_real, List.append_assoc]

/-! ## Exact roots -/

/-- What an iteration delivers for a rule are the distinct roots of the Legendre
polynomial: each of them is a root, and together with the negatives of those off the
centre none comes twice. -/
structure AreRoots (order : ℕ) (roots : List ℝ) : Prop where
  length_eq : roots.length = (order + 1) / 2
  isRoot : ∀ z ∈ roots, (rodrigues order).IsRoot z
  nodup : (roots ++ (roots.take (order / 2)).map (- ·)).Nodup

/-- The roots of every order are there to be delivered: the positive ones, and zero if the
order is odd. -/
theorem exists_areRoots (order : ℕ) : ∃ roots, AreRoots order roots := by
  have hpositive : ∀ z ∈ (Legendre.positiveRoots order).toList,
      (rodrigues order).IsRoot z ∧ 0 < z :=
    fun z hz => Legendre.mem_positiveRoots.mp (Finset.mem_toList.mp hz)
  have hnodup := Finset.nodup_toList (Legendre.positiveRoots order)
  have hlength := Finset.length_toList (Legendre.positiveRoots order)
  rw [Legendre.card_positiveRoots] at hlength
  generalize (Legendre.positiveRoots order).toList = positive at hpositive hnodup hlength
  have hcentre : ∀ z ∈ (if order % 2 = 1 then [0] else [] : List ℝ), order % 2 = 1 ∧ z = 0 := by
    intro z hz
    split at hz
    next hodd => exact ⟨hodd, List.mem_singleton.mp hz⟩
    next => exact absurd hz List.not_mem_nil
  refine ⟨positive ++ if order % 2 = 1 then [0] else [], ?_, ?_, ?_⟩
  case refine_1 =>
    rw [List.length_append, hlength]
    split <;> simp <;> omega
  case refine_2 =>
    intro z hz
    rcases List.mem_append.mp hz with hz | hz
    · exact (hpositive z hz).1
    · obtain ⟨hodd, rfl⟩ := hcentre z hz
      exact Legendre.isRoot_zero_of_odd hodd
  case refine_3 =>
    rw [List.take_left' hlength, List.nodup_append, List.nodup_append]
    refine ⟨⟨hnodup, by split <;> simp, fun y hy z hz => ?_⟩, hnodup.map neg_injective,
      fun y hy z hz => ?_⟩
    · rw [(hcentre z hz).2]
      exact (hpositive y hy).2.ne'
    · -- What stands before the negatives is not negative.
      obtain ⟨x, hx, rfl⟩ := List.mem_map.mp hz
      have hnegative := neg_neg_of_pos (hpositive x hx).2
      rcases List.mem_append.mp hy with hy | hy
      · exact (hnegative.trans (hpositive y hy).2).ne'
      · rw [(hcentre y hy).2]
        exact hnegative.ne'

namespace AreRoots

variable {order : ℕ} {roots : List ℝ} (h : AreRoots order roots)

include h

theorem length_take : (roots.take (order / 2)).length = order / 2 := by
  rw [List.length_take, h.length_eq]
  omega

theorem length_all : (roots ++ (roots.take (order / 2)).map (- ·)).length = order := by
  rw [List.length_append, List.length_map, h.length_take, h.length_eq]
  omega

theorem isRoot_all : ∀ z ∈ roots ++ (roots.take (order / 2)).map (- ·),
    (rodrigues order).IsRoot z := by
  intro z hz
  rcases List.mem_append.mp hz with hz | hz
  · exact h.isRoot z hz
  · obtain ⟨y, hy, rfl⟩ := List.mem_map.mp hz
    exact Legendre.isRoot_neg (h.isRoot y (List.mem_of_mem_take hy))

/-- The polynomial has no other roots, as there are as many as its degree. -/
theorem mem_of_isRoot {z : ℝ} (hz : (rodrigues order).IsRoot z) :
    z ∈ roots ++ (roots.take (order / 2)).map (- ·) := by
  have hne := Legendre.rodrigues_ne_zero order
  have hsubset : (roots ++ (roots.take (order / 2)).map (- ·)).toFinset ⊆
      (rodrigues order).roots.toFinset := by
    intro y hy
    rw [Multiset.mem_toFinset, mem_roots hne]
    exact h.isRoot_all y (List.mem_toFinset.mp hy)
  have hcard : (rodrigues order).roots.toFinset.card ≤
      (roots ++ (roots.take (order / 2)).map (- ·)).toFinset.card := by
    rw [List.toFinset_card_of_nodup h.nodup, h.length_all]
    exact (Multiset.toFinset_card_le _).trans
      ((card_roots' _).trans (Legendre.natDegree_rodrigues_le order))
  rw [← List.mem_toFinset, Finset.eq_of_subset_of_card_le hsubset hcard, Multiset.mem_toFinset,
    mem_roots hne]
  exact hz

theorem zero_notMem_take : (0 : ℝ) ∉ roots.take (order / 2) := fun hz =>
  List.disjoint_of_nodup_append h.nodup (List.mem_of_mem_take hz)
    (List.mem_map.mpr ⟨0, hz, neg_zero⟩)

/-- Of an odd order the last root is the centre of the interval. -/
theorem eq_take_append :
    roots = roots.take (order / 2) ++ if order % 2 = 1 then [0] else [] := by
  conv_lhs => rw [← List.take_append_drop (order / 2) roots]
  rw [List.append_right_inj]
  split
  next hodd =>
    obtain ⟨c, hc⟩ : ∃ c, roots.drop (order / 2) = [c] := by
      rw [← List.length_eq_one_iff, List.length_drop, h.length_eq]
      omega
    -- Zero is a root, and it is not among those whose negatives are roots as well.
    have hzero := h.mem_of_isRoot (Legendre.isRoot_zero_of_odd hodd)
    rcases List.mem_append.mp hzero with hmem | hmem
    · rw [← List.take_append_drop (order / 2) roots, hc, List.mem_append, List.mem_singleton]
        at hmem
      rw [hc, hmem.resolve_left h.zero_notMem_take]
    · obtain ⟨y, hy, hyzero⟩ := List.mem_map.mp hmem
      exact absurd (neg_eq_zero.mp hyzero ▸ hy) h.zero_notMem_take
  next heven =>
    rw [List.drop_eq_nil_iff, h.length_eq]
    omega

/-- The nodes are the roots and the negatives of those off the centre. -/
theorem nodes_perm :
    (ofRoots order roots).nodes.Perm (roots ++ (roots.take (order / 2)).map (- ·)) := by
  rw [nodes_ofRoots]
  refine List.perm_append_comm.trans (List.Perm.append_right _ ?_)
  conv_rhs => rw [h.eq_take_append]
  exact List.perm_append_comm.trans (List.Perm.append_right _ (List.reverse_perm _))

theorem isRoot_of_mem_nodes {z : ℝ} (hz : z ∈ (ofRoots order roots).nodes) :
    (rodrigues order).IsRoot z :=
  h.isRoot_all z (h.nodes_perm.mem_iff.mp hz)

end AreRoots

section

variable {n : ℕ} {roots : List ℝ} (h : AreRoots (n + 1) roots)

include h

/-- The weights of the negatives are those of the roots, so all are taken at the nodes. -/
theorem AreRoots.weights_ofRoots :
    (ofRoots (n + 1) roots).weights = (ofRoots (n + 1) roots).nodes.map (weight (n + 1)) := by
  have hneg : weight (n + 1) ∘ (fun z : ℝ => -z) = weight (n + 1) := funext (weight_neg n)
  have hall := congrArg (List.map (weight (n + 1))) h.eq_take_append
  rw [List.map_append] at hall
  rw [nodes_ofRoots, ofRoots, hall]
  simp only [List.map_append, List.map_map, List.map_reverse, List.append_assoc, hneg]

theorem AreRoots.integral_eq_sum (f : ℝ → ℝ) :
    (ofRoots (n + 1) roots).integral f =
      ∑ z ∈ (ofRoots (n + 1) roots).nodes.toFinset, weight (n + 1) z * f z := by
  have hnodup := h.nodes_perm.nodup_iff.mpr h.nodup
  have hzip (xs : List ℝ) :
      xs.zip (xs.map (weight (n + 1))) = xs.map fun x => (x, weight (n + 1) x) := by
    rw [← List.zip_map', List.map_id']
  rw [List.sum_toFinset _ hnodup, integral, h.weights_ofRoots, hzip, List.map_map]
  rfl

/-- A rule of exact roots has the integral of every polynomial of less than twice its
order. -/
theorem AreRoots.integral_ofRoots {p : ℝ[X]} (hp : p.degree < (2 * (n + 1) : ℕ)) :
    (ofRoots (n + 1) roots).integral (fun x => p.eval x) = ∫ x in (-1)..1, p.eval x := by
  have hnodup := h.nodes_perm.nodup_iff.mpr h.nodup
  have hroots : ∀ z ∈ (ofRoots (n + 1) roots).nodes.toFinset, (rodrigues (n + 1)).IsRoot z :=
    fun z hz => h.isRoot_of_mem_nodes (List.mem_toFinset.mp hz)
  have hcard : (ofRoots (n + 1) roots).nodes.toFinset.card = n + 1 := by
    rw [List.toFinset_card_of_nodup hnodup, h.nodes_perm.length_eq, h.length_all]
  rw [h.integral_eq_sum, Legendre.integral_eq_sum_roots hcard hroots hp]
  exact Finset.sum_congr rfl fun z hz => by rw [weight_of_isRoot (hroots z hz)]

theorem AreRoots.isGauss_ofRoots : (ofRoots (n + 1) roots).IsGauss (n + 1) := by
  have hlength := length_ofRoots h.length_eq
  constructor
  case length_nodes => exact hlength.1
  case length_weights => exact hlength.2
  case reverse_nodes =>
    rw [nodes_ofRoots]
    split <;> simp
  case reverse_weights => exact reverse_weights_ofRoots h.length_eq
  case sum_weights =>
    have hdegree : (1 : ℝ[X]).degree < (2 * (n + 1) : ℕ) := by
      rw [degree_one]
      exact_mod_cast Nat.succ_pos _
    rw [← integral_one (hlength.1.trans hlength.2.symm)]
    have hone := h.integral_ofRoots hdegree
    simp only [eval_one] at hone
    rw [hone]
    norm_num
  case integral_square =>
    intro horder
    have hdegree : (X ^ 2 : ℝ[X]).degree < (2 * (n + 1) : ℕ) := by
      rw [degree_X_pow]
      exact_mod_cast (by omega : 2 < 2 * (n + 1))
    have hsquare := h.integral_ofRoots hdegree
    simp only [eval_pow, eval_X, integral_pow] at hsquare
    simp only [← sq]
    rw [hsquare]
    norm_num

end

end IntervalRule

end DiscreteOrdinates
