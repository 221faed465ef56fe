import DiscreteOrdinates.Proofs.Quadrature.Angles
import DiscreteOrdinates.Quadrature.IntervalRule

/-!
# Rules written in place

The nodes and weights of a rule can be written into two buffers, a root at a time: pass `i`
writes entry `i` from either end. The passes fill the buffers from both ends and do not
disturb each other, except that the two entries of the last pass of an odd order are one
and the same, whose node is overwritten in the end. What is left in the buffers is the rule
of the roots (`inPlace_eq_ofRoots`).
-/

namespace DiscreteOrdinates

namespace IntervalRule

/-! ## Buffers -/

section

variable {α : Type} (xs ys : List α) (a b e : α)

theorem set_ends (m : ℕ) :
    ((xs ++ List.replicate (m + 2) e ++ ys).set xs.length a).set (xs.length + (m + 1)) b =
      xs ++ [a] ++ List.replicate m e ++ b :: ys := by
  rw [List.replicate_succ, List.replicate_succ', List.append_assoc, List.cons_append,
    List.set_append_right _ _ le_rfl, Nat.sub_self, List.set_cons_zero,
    List.set_append_right _ _ (Nat.le_add_right _ _), Nat.add_sub_cancel_left, List.set_cons_succ,
    List.append_assoc, List.set_append_right _ _ (by rw [List.length_replicate]),
    List.length_replicate, Nat.sub_self]
  simp

theorem set_middle : (xs ++ [e] ++ ys).set xs.length a = xs ++ [a] ++ ys := by
  simp

end

variable {R : Type} [Scalar R]

/-- The pass of root `i` over both buffers. -/
def writePass (order i : ℕ) (z : R) (rule : IntervalRule R) : IntervalRule R where
  nodes := (rule.nodes.set i (-z)).set (order - 1 - i) z
  weights := (rule.weights.set i (weight order z)).set (order - 1 - i) (weight order z)

/-- The passes of roots from number `i` on. -/
def writePasses (order : ℕ) : (i : ℕ) → List R → IntervalRule R → IntervalRule R
  | _, [], rule => rule
  | i, z :: zs, rule => writePasses order (i + 1) zs (writePass order i z rule)

/-- The rule of some roots, written into buffers that are zero before. The central node of
an odd order is overwritten with zero. -/
def inPlace (order : ℕ) (roots : List R) : IntervalRule R :=
  let blank := List.replicate order 0.0
  let rule := writePasses order 0 roots ⟨blank, blank⟩
  if order % 2 = 1 then { rule with nodes := rule.nodes.set (order / 2) 0.0 } else rule

/-! ## Passes -/

/-- The buffers while there is still room between the entries that have been written. -/
def written (order : ℕ) (done : List R) : IntervalRule R where
  nodes := done.map (- ·) ++ List.replicate (order - 2 * done.length) 0.0 ++ done.reverse
  weights :=
    done.map (weight order) ++ List.replicate (order - 2 * done.length) 0.0 ++
      (done.map (weight order)).reverse

/-- A pass does not disturb the entries of earlier passes. -/
theorem writePass_written {order : ℕ} {done : List R} (h : 2 * done.length + 2 ≤ order) (z : R) :
    writePass order done.length z (written order done) = written order (done ++ [z]) := by
  obtain ⟨m, rfl⟩ := Nat.exists_eq_add_of_le' h
  have hroom : m + (2 * done.length + 2) - 2 * done.length = m + 2 := by omega
  have hrest : m + (2 * done.length + 2) - 2 * (done ++ [z]).length = m := by
    rw [List.length_append, List.length_singleton]
    omega
  have hend : m + (2 * done.length + 2) - 1 - done.length = done.length + (m + 1) := by omega
  have hnodes := set_ends (done.map (- ·)) done.reverse (-z) z (0.0 : R) m
  have hweights := set_ends (done.map (weight (m + (2 * done.length + 2))))
    (done.map (weight (m + (2 * done.length + 2)))).reverse
    (weight (m + (2 * done.length + 2)) z) (weight (m + (2 * done.length + 2)) z) (0.0 : R) m
  rw [List.length_map] at hnodes hweights
  rw [writePass, written, written, hroom, hrest, hend, hnodes, hweights]
  simp only [List.map_append, List.map_singleton, List.reverse_append, List.reverse_singleton,
    List.singleton_append]

theorem writePasses_written (order : ℕ) (done zs : List R)
    (h : 2 * (done.length + zs.length) ≤ order) :
    writePasses order done.length zs (written order done) = written order (done ++ zs) := by
  induction zs generalizing done with
  | nil => rw [writePasses, List.append_nil]
  | cons z zs ih =>
    rw [List.length_cons] at h
    have hlength : (done ++ [z]).length = done.length + 1 := List.length_append
    -- The first pass leaves the buffers of one root more, and the others start from these.
    have hrest := ih (done ++ [z]) (by omega)
    rw [hlength, List.append_assoc, List.singleton_append] at hrest
    rw [writePasses, writePass_written (by omega), hrest]

theorem writePasses_append (order i : ℕ) (ys zs : List R) (rule : IntervalRule R) :
    writePasses order i (ys ++ zs) rule =
      writePasses order (i + ys.length) zs (writePasses order i ys rule) := by
  induction ys generalizing i rule with
  | nil => rfl
  | cons y ys ih =>
    rw [List.cons_append, writePasses, writePasses, ih, List.length_cons, Nat.add_assoc,
      Nat.add_comm 1]

/-- The last pass of an odd order has one entry of each buffer left, and writes it twice. -/
theorem writePass_centre {order : ℕ} {done : List R} (h : order = 2 * done.length + 1) (z : R) :
    writePass order done.length z (written order done) =
      ⟨done.map (- ·) ++ [z] ++ done.reverse,
        done.map (weight order) ++ [weight order z] ++ (done.map (weight order)).reverse⟩ := by
  have hroom : order - 2 * done.length = 1 := by omega
  have hend : order - 1 - done.length = done.length := by omega
  have hnodes (a b : R) := set_middle (done.map (- ·)) done.reverse a b
  have hweights (a b : R) :=
    set_middle (done.map (weight order)) (done.map (weight order)).reverse a b
  simp only [List.length_map] at hnodes hweights
  rw [writePass, written, hroom, hend, List.replicate_one, hnodes, hnodes, hweights, hweights]

/-- What the passes leave in the buffers is the rule of the roots. -/
theorem inPlace_eq_ofRoots {order : ℕ} {roots : List R} (h : roots.length = (order + 1) / 2) :
    inPlace order roots = ofRoots order roots := by
  obtain ⟨outer, last, rfl, houter⟩ : ∃ outer last, roots = outer ++ last ∧
      outer.length = order / 2 :=
    ⟨_, _, (List.take_append_drop (order / 2) roots).symm, by rw [List.length_take]; omega⟩
  rw [List.length_append, houter] at h
  have hblank : written order ([] : List R) =
      ⟨List.replicate order 0.0, List.replicate order 0.0⟩ := by
    simp [written]
  -- Only the pass of a central root finds no room for two entries.
  have hfirst := writePasses_written order [] outer (by rw [List.length_nil, houter]; omega)
  rw [hblank, List.length_nil, List.nil_append] at hfirst
  unfold inPlace ofRoots
  rw [List.take_left' houter]
  dsimp only
  rw [writePasses_append, hfirst, Nat.zero_add]
  split
  next hodd =>
    obtain ⟨z, rfl⟩ : ∃ z, last = [z] := List.length_eq_one_iff.mp (by omega)
    have hmiddle := set_middle (outer.map (- ·)) outer.reverse 0.0 z
    rw [List.length_map, houter] at hmiddle
    rw [writePasses, writePasses, writePass_centre (by omega), hmiddle, List.map_append,
      List.map_singleton]
  next heven =>
    obtain rfl : last = [] := List.length_eq_zero_iff.mp (by omega)
    have hroom : order - 2 * outer.length = 0 := by omega
    rw [writePasses, written, hroom, List.replicate_zero, List.append_nil, List.append_nil,
      List.append_nil]

end IntervalRule

end DiscreteOrdinates
