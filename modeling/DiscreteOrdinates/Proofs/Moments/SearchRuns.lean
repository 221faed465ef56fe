import DiscreteOrdinates.Proofs.Moments.Candidates
import DiscreteOrdinates.Moments.Selection

/-!
# Runs of the search

What the search for independent moments keeps, in whatever arithmetic it computes:
candidates in the order in which it visits them, not more of them than it is asked
for, and the constant before all others if it tells the constant from zero
(`head?_of_independent`).
-/

namespace DiscreteOrdinates

variable {R : Type} [Scalar R]

namespace MomentIndex

namespace Search

/-! ## One run -/

theorem kept_visit (s : Search R) (i : MomentIndex) (values : List R) :
    (s.visit i values).kept = s.kept ∨ (s.visit i values).kept = i :: s.kept := by
  simp only [visit]
  split
  · exact .inl rfl
  · split
    · exact .inr rfl
    · exact .inl rfl

section

variable {os : List (Ordinate R)} {count : ℕ}

/-- One step of a run: it has enough, or it visits the next candidate. -/
theorem run_cons_cases {i : MomentIndex} {candidates : List MomentIndex} {s t : Search R}
    (h : s.run os count (i :: candidates) = .ok t) :
    s = t ∨ s.kept.length ≠ count ∧
      ∃ values, (s.visit i values).run os count candidates = .ok t := by
  rw [run] at h
  split at h
  · exact .inl (Except.ok.inj h)
  next hopen =>
    split at h
    next values _ => exact .inr ⟨hopen, values, h⟩
    next => cases h

/-- What a run adds comes from its candidates, in their order. -/
theorem kept_of_run {candidates : List MomentIndex} {s t : Search R}
    (h : s.run os count candidates = .ok t) :
    ∃ added, t.kept.reverse = s.kept.reverse ++ added ∧ added.Sublist candidates := by
  induction candidates generalizing s with
  | nil =>
    obtain rfl : s = t := Except.ok.inj h
    exact ⟨[], (List.append_nil _).symm, List.Sublist.refl _⟩
  | cons i candidates ih =>
    obtain rfl | ⟨-, values, hrest⟩ := run_cons_cases h
    · exact ⟨[], (List.append_nil _).symm, List.nil_sublist _⟩
    · obtain ⟨added, hadded, hsub⟩ := ih hrest
      rcases s.kept_visit i values with hkept | hkept
      · exact ⟨added, by rw [hadded, hkept], hsub.cons i⟩
      · refine ⟨i :: added, ?_, hsub.cons_cons i⟩
        rw [hadded, hkept, List.reverse_cons, List.append_assoc, List.singleton_append]

theorem length_of_run {candidates : List MomentIndex} {s t : Search R}
    (h : s.run os count candidates = .ok t) (hs : s.kept.length ≤ count) :
    t.kept.length ≤ count := by
  induction candidates generalizing s with
  | nil =>
    obtain rfl : s = t := Except.ok.inj h
    exact hs
  | cons i candidates ih =>
    obtain rfl | ⟨hopen, values, hrest⟩ := run_cons_cases h
    · exact hs
    · apply ih hrest
      rcases s.kept_visit i values with hkept | hkept
      · rwa [hkept]
      · rw [hkept, List.length_cons]
        omega

/-! ## One climb -/

/-- One step of a climb: it has enough, or it runs over the next degree. -/
theorem climb_succ_cases {dimension degrees l : ℕ} {s t : Search R}
    (h : s.climb os dimension count (degrees + 1) l = .ok t) :
    s = t ∨ ∃ u, s.run os count (resolvedShell dimension l) = .ok u ∧
      u.climb os dimension count degrees (l + 1) = .ok t := by
  rw [climb] at h
  split at h
  · exact .inl (Except.ok.inj h)
  · split at h
    next u hrun => exact .inr ⟨u, hrun, h⟩
    next => cases h

/-- The degrees of a climb add up to the candidates of one run. -/
theorem kept_of_climb {dimension degrees l : ℕ} {s t : Search R}
    (h : s.climb os dimension count degrees l = .ok t) :
    ∃ added, t.kept.reverse = s.kept.reverse ++ added ∧
      added.Sublist ((List.range' l degrees).flatMap (resolvedShell dimension)) := by
  induction degrees generalizing l s with
  | zero =>
    obtain rfl : s = t := Except.ok.inj h
    exact ⟨[], (List.append_nil _).symm, List.Sublist.refl _⟩
  | succ degrees ih =>
    obtain rfl | ⟨u, hrun, hclimb⟩ := climb_succ_cases h
    · exact ⟨[], (List.append_nil _).symm, List.nil_sublist _⟩
    · obtain ⟨first, hfirst, hfirst_sub⟩ := kept_of_run hrun
      obtain ⟨rest, hrest, hrest_sub⟩ := ih hclimb
      refine ⟨first ++ rest, by rw [hrest, hfirst, List.append_assoc], ?_⟩
      rw [List.range'_succ, List.flatMap_cons]
      exact hfirst_sub.append hrest_sub

theorem length_of_climb {dimension degrees l : ℕ} {s t : Search R}
    (h : s.climb os dimension count degrees l = .ok t) (hs : s.kept.length ≤ count) :
    t.kept.length ≤ count := by
  induction degrees generalizing l s with
  | zero =>
    obtain rfl : s = t := Except.ok.inj h
    exact hs
  | succ degrees ih =>
    obtain rfl | ⟨u, hrun, hclimb⟩ := climb_succ_cases h
    · exact hs
    · exact ih hclimb (length_of_run hrun hs)

end

end Search

/-! ## The whole search -/

theorem kept_of_independent {q : Quadrature R} {is : List MomentIndex}
    (h : independent q = .ok is) :
    is.Sublist (resolvedBelow q.dimension (2 * (q.order + 1) + 1)) ∧ is.length ≤ q.angles := by
  obtain ⟨s, hclimb, h⟩ := bind_eq_ok.mp h
  obtain rfl : s.kept.reverse = is := Except.ok.inj h
  obtain ⟨added, hadded, hsub⟩ := Search.kept_of_climb hclimb
  rw [List.reverse_nil, List.nil_append] at hadded
  rw [List.length_reverse]
  refine ⟨?_, Search.length_of_climb hclimb (Nat.zero_le _)⟩
  rwa [hadded, resolvedBelow, List.range_eq_range']

end MomentIndex

/-! ## The constant -/

theorem Quadrature.length_ordinates (q : Quadrature R) : q.ordinates.length = q.angles := by
  simp [Quadrature.ordinates, DirectionTable.rows, Quadrature.angles]

/-- The constant harmonic is one in every direction of a set, and the test for
independence, whose arithmetic may round, tells its values from zero. -/
structure Quadrature.ResolvesConstant (q : Quadrature R) : Prop where
  harmonic : ∀ o ∈ q.ordinates, Harmonic.tesseral 0 0 o = .ok 1.0
  size : (MomentIndex.norm (List.replicate q.angles (1.0 : R)) == 0.0) = false
  left : MomentIndex.independenceTolerance * MomentIndex.norm (List.replicate q.angles (1.0 : R)) <
    MomentIndex.norm (List.replicate q.angles (1.0 : R))

namespace MomentIndex

/-- The constant is the only moment of degree zero, in any dimension. -/
theorem resolvedShell_zero (dimension : ℕ) : resolvedShell dimension 0 = [⟨0, 0⟩] := by
  unfold resolvedShell
  split
  · rfl
  · rfl
  · rfl

theorem mapM_eq_ok_replicate {α β ε : Type} {f : α → Except ε β} {b : β} {xs : List α}
    (h : ∀ x ∈ xs, f x = .ok b) : xs.mapM f = .ok (List.replicate xs.length b) := by
  induction xs with
  | nil => rfl
  | cons x xs ih =>
    obtain ⟨hx, hxs⟩ := List.forall_mem_cons.mp h
    rw [List.mapM_cons, hx, ih hxs]
    rfl

/-- The search keeps the constant as its first moment. -/
theorem head?_of_independent {q : Quadrature R} (hconstant : q.ResolvesConstant)
    (hangles : 0 < q.angles) {is : List MomentIndex} (h : independent q = .ok is) :
    is.head? = some ⟨0, 0⟩ := by
  have hvalues : q.ordinates.mapM (Harmonic.tesseral 0 0) =
      .ok (List.replicate q.angles (1.0 : R)) := by
    rw [mapM_eq_ok_replicate hconstant.harmonic, q.length_ordinates]
  have hvisit : (({} : Search R).visit ⟨0, 0⟩ (List.replicate q.angles 1.0)).kept = [⟨0, 0⟩] := by
    have hleft : independenceTolerance * norm (List.replicate q.angles (1.0 : R)) <
        norm (({} : Search R).residual (List.replicate q.angles 1.0)) := hconstant.left
    rw [Search.visit, hconstant.size]
    simp only [Bool.false_eq_true, if_false, if_pos hleft]
  obtain ⟨s, hclimb, h⟩ := bind_eq_ok.mp h
  obtain rfl : s.kept.reverse = is := Except.ok.inj h
  have hopen : ¬ ({} : Search R).kept.length = q.angles := hangles.ne
  rw [Search.climb, if_neg hopen, resolvedShell_zero, Search.run, if_neg hopen, hvalues] at hclimb
  obtain ⟨added, hadded, -⟩ := Search.kept_of_climb hclimb
  rw [hadded, hvisit]
  rfl

end MomentIndex

end DiscreteOrdinates
