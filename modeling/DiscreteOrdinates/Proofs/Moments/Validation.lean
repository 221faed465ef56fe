import DiscreteOrdinates.Proofs.Moments.SearchRuns

/-!
# Validation of moments

Which lists of moments the validation accepts (`validate_eq_ok`), and that it
accepts whatever an interpolation selects by itself
(`validate_of_select`). The lists that are selected ascend by degree and order, so
no moment occurs in them twice.
-/

namespace DiscreteOrdinates

namespace MomentIndex

/-! ## Acceptance -/

theorem firstRepeat_eq_none {seen is : List MomentIndex} :
    firstRepeat seen is = none ↔ is.Nodup ∧ ∀ i ∈ is, i ∉ seen := by
  induction is generalizing seen with
  | nil => simp [firstRepeat]
  | cons i is ih =>
    rw [firstRepeat]
    split
    next hseen =>
      constructor
      · intro h
        cases h
      · rintro ⟨-, h⟩
        exact absurd hseen (h i List.mem_cons_self)
    next hnew =>
      -- A later moment differs from `i` and from all that came before `i`.
      rw [ih, List.nodup_cons, List.forall_mem_cons]
      simp only [List.mem_cons, not_or]
      constructor
      · rintro ⟨hnodup, h⟩
        exact ⟨⟨fun hmem => (h i hmem).1 rfl, hnodup⟩, hnew, fun j hj => (h j hj).2⟩
      · rintro ⟨⟨hi, hnodup⟩, -, h⟩
        exact ⟨hnodup, fun j hj => ⟨fun heq => hi (heq ▸ hj), h j hj⟩⟩

theorem find?_not_eq_none {p : MomentIndex → Bool} {is : List MomentIndex} :
    is.find? (!p ·) = none ↔ ∀ i ∈ is, p i := by
  simp only [List.find?_eq_none, Bool.not_eq_true', Bool.not_eq_false]

/-- A list of moments is accepted if it is not empty, holds moments of the set and
each of them once, and is as long as the interpolation asks for. -/
theorem validate_eq_ok {R : Type} {is : List MomentIndex} {dimension angles : ℕ}
    {model : Interpolation} :
    validate is dimension model angles = (.ok () : Except (MomentError R) Unit) ↔
      is ≠ [] ∧ (∀ i ∈ is, i.isValid) ∧ (∀ i ∈ is, i.isResolvedIn dimension) ∧ is.Nodup ∧
        is.length ≤ angles ∧ (model.isSquare → is.length = angles) := by
  have hnodup : firstRepeat [] is = none ↔ is.Nodup := by simp [firstRepeat_eq_none]
  rw [← find?_not_eq_none, ← find?_not_eq_none, ← hnodup, validate]
  split
  next hempty => simp [hempty]
  next hempty =>
    cases hvalid : is.find? (!·.isValid) with
    | some i => simp
    | none =>
      cases hresolved : is.find? (!·.isResolvedIn dimension) with
      | some i => simp
      | none =>
        cases hrepeat : firstRepeat [] is with
        | some i => simp
        | none =>
          simp only [hempty, ne_eq, not_false_eq_true, true_and]
          split
          next h =>
            obtain ⟨hsquare, hlength⟩ := h
            simp [hsquare, hlength]
          next h =>
            rw [not_and_not_right] at h
            split
            next hmany => simp [hmany]
            next hfew => simpa [not_lt.mp hfew] using h

/-! ## Fixed map -/

theorem mem_planeMap {n : ℕ} {i : MomentIndex} (h : i ∈ planeMap n) :
    i.isValid ∧ i.isResolvedIn 2 := by
  rcases List.mem_append.mp h with h | h
  · exact (mem_resolvedBelow.mp h).2
  · obtain ⟨hshell, hodd⟩ := List.mem_filter.mp h
    have hpos : 0 < i.k := by
      rw [isOddCosine, Bool.and_eq_true, decide_eq_true_eq] at hodd
      exact hodd.1
    exact ⟨(mem_shell.mp hshell).2, decide_eq_true hpos.le⟩

theorem mem_spaceMap {n : ℕ} {i : MomentIndex} (h : i ∈ spaceMap n) : i.isValid := by
  rcases List.mem_append.mp h with h | h
  · rcases List.mem_append.mp h with h | h
    · rcases List.mem_append.mp h with h | h
      · exact (mem_resolvedBelow.mp h).2.1
      · exact (mem_shell.mp (List.mem_filter.mp h).1).2
    · exact (mem_shell.mp (List.mem_filter.mp h).1).2
  · exact (mem_shell.mp (List.mem_filter.mp h).1).2

/-- Complete shells come before a part of any later shell. -/
theorem pairwise_resolvedBelow_append (dimension n : ℕ) (p : MomentIndex → Bool) :
    (resolvedBelow dimension n ++ (shell n).filter p).Pairwise Precedes := by
  rw [List.pairwise_append]
  refine ⟨pairwise_resolvedBelow dimension n, (pairwise_shell n).filter _, fun a ha b hb => ?_⟩
  have hb := (mem_shell.mp (List.mem_filter.mp hb).1).1
  exact .inl (hb ▸ (mem_resolvedBelow.mp ha).1)

theorem pairwise_planeMap (n : ℕ) : (planeMap n).Pairwise Precedes :=
  pairwise_resolvedBelow_append 2 n isOddCosine

/-- The four parts of the map follow one another: of degree `n` first the sines, then
the cosines. -/
theorem pairwise_spaceMap (n : ℕ) : (spaceMap n).Pairwise Precedes := by
  rw [spaceMap, List.pairwise_append, List.pairwise_append]
  refine ⟨⟨pairwise_resolvedBelow_append 3 n _, (pairwise_shell n).filter _, ?_⟩,
    (pairwise_shell (n + 1)).filter _, ?_⟩
  · intro a ha b hb
    obtain ⟨hb, hodd⟩ := List.mem_filter.mp hb
    rw [isOddCosine, Bool.and_eq_true, decide_eq_true_eq] at hodd
    rcases List.mem_append.mp ha with ha | ha
    · exact .inl ((mem_shell.mp hb).1 ▸ (mem_resolvedBelow.mp ha).1)
    · obtain ⟨ha, hsine⟩ := List.mem_filter.mp ha
      refine .inr ⟨(mem_shell.mp ha).1.trans (mem_shell.mp hb).1.symm, ?_⟩
      exact (of_decide_eq_true hsine).trans hodd.1
  · intro a ha b hb
    have hb := (mem_shell.mp (List.mem_filter.mp hb).1).1
    refine .inl (hb ▸ Nat.lt_succ_iff.mpr ?_)
    rcases List.mem_append.mp ha with ha | ha
    · rcases List.mem_append.mp ha with ha | ha
      · exact (mem_resolvedBelow.mp ha).1.le
      · exact (mem_shell.mp (List.mem_filter.mp ha).1).1.le
    · exact (mem_shell.mp (List.mem_filter.mp ha).1).1.le

theorem mem_squareMap {dimension n : ℕ} {i : MomentIndex} (hdimension : dimension ≠ 1)
    (h : i ∈ squareMap dimension n) : i.isValid ∧ i.isResolvedIn dimension := by
  unfold squareMap at h
  split at h
  next htwo => exact htwo ▸ mem_planeMap h
  next htwo =>
    refine ⟨mem_spaceMap h, ?_⟩
    unfold isResolvedIn
    split
    · exact absurd rfl hdimension
    · exact absurd rfl htwo
    · rfl

theorem pairwise_squareMap (dimension n : ℕ) : (squareMap dimension n).Pairwise Precedes := by
  unfold squareMap
  split
  · exact pairwise_planeMap n
  · exact pairwise_spaceMap n

theorem mem_mapPrefix {dimension n count : ℕ} {i : MomentIndex}
    (h : i ∈ mapPrefix dimension n count) : i.isValid ∧ i.isResolvedIn dimension := by
  unfold mapPrefix at h
  split at h
  next hone =>
    obtain ⟨l, -, rfl⟩ := List.mem_map.mp h
    subst hone
    exact ⟨decide_eq_true (Nat.zero_le l), rfl⟩
  next hone =>
    split at h
    · exact (mem_resolvedBelow.mp (List.mem_of_mem_take h)).2
    · exact mem_squareMap hone (List.mem_of_mem_take h)

theorem pairwise_mapPrefix (dimension n count : ℕ) :
    (mapPrefix dimension n count).Pairwise Precedes := by
  unfold mapPrefix
  split
  · exact List.Pairwise.map _ (fun _ _ h => .inl h) List.pairwise_lt_range
  · split
    · exact (pairwise_resolvedBelow _ _).sublist (List.take_sublist _ _)
    · exact (pairwise_squareMap _ _).sublist (List.take_sublist _ _)

theorem length_mapPrefix_le (dimension n count : ℕ) :
    (mapPrefix dimension n count).length ≤ count := by
  unfold mapPrefix
  split
  · simp
  · split
    · exact List.length_take_le ..
    · exact List.length_take_le ..

/-! ## The constant comes first -/

theorem head?_resolvedBelow_succ (dimension n : ℕ) :
    (resolvedBelow dimension (n + 1)).head? = some ⟨0, 0⟩ := by
  rw [resolvedBelow, List.range_succ_eq_map, List.flatMap_cons, resolvedShell_zero]
  rfl

theorem head?_squareMap_succ (dimension n : ℕ) :
    (squareMap dimension (n + 1)).head? = some ⟨0, 0⟩ := by
  unfold squareMap
  split
  · rw [planeMap, List.head?_append, head?_resolvedBelow_succ, Option.some_or]
  · rw [spaceMap, List.append_assoc, List.append_assoc, List.head?_append,
      head?_resolvedBelow_succ, Option.some_or]

theorem squareMap_zero (dimension : ℕ) : squareMap dimension 0 = [] := by
  unfold squareMap
  split
  · rfl
  · rfl

/-- The fixed map starts with the constant, unless its order leaves nothing in it. -/
theorem head?_mapPrefix {dimension n count : ℕ} (h : mapPrefix dimension n count ≠ []) :
    (mapPrefix dimension n count).head? = some ⟨0, 0⟩ := by
  have hcount : count ≠ 0 := by
    rintro rfl
    exact h (List.length_eq_zero_iff.mp (Nat.le_zero.mp (length_mapPrefix_le dimension n 0)))
  obtain ⟨count, rfl⟩ := Nat.exists_eq_succ_of_ne_zero hcount
  unfold mapPrefix at h ⊢
  split
  · rw [List.range_succ_eq_map]
    rfl
  next hone =>
    rw [if_neg hone] at h
    split
    · rw [List.head?_take, if_neg hcount, head?_resolvedBelow_succ]
    next hmany =>
      rw [if_neg hmany] at h
      cases n with
      | zero => exact absurd (by rw [squareMap_zero, List.take_nil]) h
      | succ n => rw [List.head?_take, if_neg hcount, head?_squareMap_succ]

/-! ## Selected moments -/

section

variable {R : Type} [Scalar R] {q : Quadrature R} {model : Interpolation}
  {expansionOrder : Option ℕ} {is : List MomentIndex}

/-- What the candidates of an interpolation are. -/
theorem candidates_cases (h : candidates q model expansionOrder = .ok is) :
    (model = .svd ∧ is = resolvedBelow q.dimension (expansionOrder.getD (q.order - 1) + 1) ∧
      is.length ≤ q.angles) ∨
    (model = .sn ∧ is = mapPrefix q.dimension q.order q.angles) ∨
    (model = .galerkin ∧ independent q = .ok is) := by
  unfold candidates at h
  split at h
  · dsimp only at h
    split at h
    · cases h
    next hcount =>
      rw [← Except.ok.inj h]
      exact .inl ⟨rfl, rfl, not_lt.mp hcount⟩
  · split at h
    · cases h
    · exact .inr (.inl ⟨rfl, (Except.ok.inj h).symm⟩)
  · split at h
    next js hsearch =>
      obtain rfl : js = is := Except.ok.inj h
      exact .inr (.inr ⟨rfl, hsearch⟩)
    · cases h

/-- The candidates of every interpolation ascend, and the set resolves them. -/
theorem pairwise_candidates (h : candidates q model expansionOrder = .ok is) :
    is.Pairwise Precedes ∧ ∀ i ∈ is, i.isValid ∧ i.isResolvedIn q.dimension := by
  obtain ⟨rfl, rfl, -⟩ | ⟨rfl, rfl⟩ | ⟨rfl, hsearch⟩ := candidates_cases h
  · exact ⟨pairwise_resolvedBelow _ _, fun i hi => (mem_resolvedBelow.mp hi).2⟩
  · exact ⟨pairwise_mapPrefix _ _ _, fun i hi => mem_mapPrefix hi⟩
  · obtain ⟨hsub, -⟩ := kept_of_independent hsearch
    exact ⟨(pairwise_resolvedBelow _ _).sublist hsub, fun i hi =>
      (mem_resolvedBelow.mp (hsub.subset hi)).2⟩

theorem length_candidates_le (h : candidates q model expansionOrder = .ok is) :
    is.length ≤ q.angles := by
  obtain ⟨rfl, -, hcount⟩ | ⟨rfl, rfl⟩ | ⟨rfl, hsearch⟩ := candidates_cases h
  · exact hcount
  · exact length_mapPrefix_le ..
  · exact (kept_of_independent hsearch).2

/-- What is selected are candidates, as many as the interpolation asks for. -/
theorem select_eq_ok :
    select q model expansionOrder = .ok is ↔ (expansionOrder = none ∨ model = .svd) ∧
      candidates q model expansionOrder = .ok is ∧ ¬ (model.isSquare ∧ is.length < q.angles) := by
  rw [select, require_bind_eq_ok, bind_eq_ok]
  apply and_congr_right
  intro _
  constructor
  · rintro ⟨js, hcandidates, h⟩
    obtain ⟨hcount, hjs⟩ := require_bind_eq_ok.mp h
    obtain rfl : js = is := Except.ok.inj hjs
    exact ⟨hcandidates, hcount⟩
  · rintro ⟨hcandidates, hcount⟩
    exact ⟨is, hcandidates, require_bind_eq_ok.mpr ⟨hcount, rfl⟩⟩

theorem length_of_select (h : select q model expansionOrder = .ok is) :
    is.length ≤ q.angles ∧ (model.isSquare → is.length = q.angles) := by
  obtain ⟨-, hcandidates, hcount⟩ := select_eq_ok.mp h
  have hle := length_candidates_le hcandidates
  refine ⟨hle, fun hmodel => ?_⟩
  simp only [hmodel, true_and, not_lt] at hcount
  exact le_antisymm hle hcount

/-- The selection of an interpolation is not empty if the set has directions. -/
theorem ne_nil_of_select (hangles : 0 < q.angles)
    (h : select q model expansionOrder = .ok is) : is ≠ [] := by
  intro hnil
  cases hmodel : model.isSquare with
  | true =>
    have hlength := (length_of_select h).2 hmodel
    rw [hnil, List.length_nil] at hlength
    exact hangles.ne hlength
  | false =>
    obtain ⟨rfl, hshells, -⟩ | ⟨rfl, -⟩ | ⟨rfl, -⟩ := candidates_cases (select_eq_ok.mp h).2.1
    · have hhead := head?_resolvedBelow_succ q.dimension (expansionOrder.getD (q.order - 1))
      rw [← hshells, hnil] at hhead
      cases hhead
    · cases hmodel
    · cases hmodel

theorem validate_of_select (hangles : 0 < q.angles)
    (h : select q model expansionOrder = .ok is) :
    validate is q.dimension model q.angles = (.ok () : Except (MomentError R) Unit) := by
  obtain ⟨hpairwise, hmem⟩ := pairwise_candidates (select_eq_ok.mp h).2.1
  obtain ⟨hle, hsquare⟩ := length_of_select h
  have hnodup : is.Nodup := hpairwise.imp fun hab heq => by
    subst heq
    exact Precedes.irrefl _ hab
  exact validate_eq_ok.mpr ⟨ne_nil_of_select hangles h, fun i hi => (hmem i hi).1,
    fun i hi => (hmem i hi).2, hnodup, hle, hsquare⟩

/-- Every selection starts with the constant. The search for independent moments has
to tell it from zero. -/
theorem head?_of_select (hangles : 0 < q.angles)
    (hconstant : model = .galerkin → q.ResolvesConstant)
    (h : select q model expansionOrder = .ok is) : is.head? = some ⟨0, 0⟩ := by
  have hne := ne_nil_of_select hangles h
  obtain ⟨rfl, rfl, -⟩ | ⟨rfl, rfl⟩ | ⟨rfl, hsearch⟩ := candidates_cases (select_eq_ok.mp h).2.1
  · exact head?_resolvedBelow_succ _ _
  · exact head?_mapPrefix hne
  · exact head?_of_independent (hconstant rfl) hangles hsearch

end

end MomentIndex

end DiscreteOrdinates
