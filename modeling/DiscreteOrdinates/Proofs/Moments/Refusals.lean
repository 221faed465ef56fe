import DiscreteOrdinates.Proofs.Moments.Validation

/-!
# Refused lists of moments

Which lists of moments a user may choose, and why any other list is refused: one
condition is looked at after the other, and the first entry of the list that breaks
it is named. Main statement: `validate_decides`.
-/

namespace DiscreteOrdinates

namespace MomentIndex

/-! ## Conditions -/

/-- A set of the given dimension resolves the moment: on a line the order is zero, in
the plane it is not negative. -/
structure Fits (dimension : ℕ) (i : MomentIndex) : Prop where
  line : dimension = 1 → i.k = 0
  plane : dimension = 2 → 0 ≤ i.k

theorem isValid_iff {i : MomentIndex} : i.isValid = true ↔ i.k.natAbs ≤ i.l :=
  decide_eq_true_iff

theorem isResolvedIn_iff {dimension : ℕ} {i : MomentIndex} :
    i.isResolvedIn dimension = true ↔ i.Fits dimension := by
  unfold isResolvedIn
  split
  · exact ⟨fun h => ⟨fun _ => eq_of_beq h, fun h => absurd h (by decide)⟩,
      fun h => beq_iff_eq.mpr (h.line rfl)⟩
  · exact ⟨fun h => ⟨fun h => absurd h (by decide), fun _ => of_decide_eq_true h⟩,
      fun h => decide_eq_true (h.plane rfl)⟩
  next hone htwo => exact ⟨fun _ => ⟨fun h => absurd h hone, fun h => absurd h htwo⟩, fun _ => rfl⟩

/-! ## Offenders -/

/-- The first entry of a list that does not have a property. -/
def IsFirstWithout (p : MomentIndex → Prop) (is : List MomentIndex) (i : MomentIndex) : Prop :=
  ∃ before after, is = before ++ i :: after ∧ (∀ j ∈ before, p j) ∧ ¬ p i

/-- The entry of a list whose second occurrence comes before that of any other. -/
def IsFirstRepeat (is : List MomentIndex) (i : MomentIndex) : Prop :=
  ∃ before after, is = before ++ i :: after ∧ before.Nodup ∧ i ∈ before

theorem find?_not_eq_some {p : MomentIndex → Bool} {q : MomentIndex → Prop}
    (hp : ∀ j, p j = true ↔ q j) {is : List MomentIndex} {i : MomentIndex} :
    is.find? (!p ·) = some i ↔ IsFirstWithout q is i := by
  simp only [List.find?_eq_some_iff_append, IsFirstWithout, ← hp, Bool.not_eq_true', Bool.not_not,
    Bool.not_eq_true]
  constructor
  · rintro ⟨hi, before, after, rfl, hbefore⟩
    exact ⟨before, after, rfl, hbefore, hi⟩
  · rintro ⟨before, after, rfl, hbefore, hi⟩
    exact ⟨hi, before, after, rfl, hbefore⟩

/-- The search goes on as long as every moment that it has passed is a new one. -/
theorem firstRepeat_eq_some {seen is : List MomentIndex} (hseen : seen.Nodup) {i : MomentIndex} :
    firstRepeat seen is = some i ↔
      ∃ before after, is = before ++ i :: after ∧ (before.reverse ++ seen).Nodup ∧
        i ∈ before.reverse ++ seen := by
  induction is generalizing seen with
  | nil => simp [firstRepeat]
  | cons a is ih =>
    rw [firstRepeat]
    split
    next hold =>
      constructor
      · intro h
        obtain rfl := Option.some.inj h
        exact ⟨[], is, rfl, hseen, hold⟩
      · rintro ⟨before, after, heq, hnodup, -⟩
        rcases List.cons_eq_append_iff.mp heq with ⟨-, heq⟩ | ⟨rest, rfl, -⟩
        · rw [(List.cons_eq_cons.mp heq).1]
        · -- Past `a`, the moments behind it would not all be new.
          rw [List.reverse_cons, List.append_assoc, List.singleton_append] at hnodup
          exact absurd hold (List.nodup_cons.mp (List.nodup_append.mp hnodup).2.1).1
    next hnew =>
      rw [ih (List.nodup_cons.mpr ⟨hnew, hseen⟩)]
      constructor
      · rintro ⟨before, after, rfl, h⟩
        refine ⟨a :: before, after, rfl, ?_⟩
        rwa [List.reverse_cons, List.append_assoc, List.singleton_append]
      · rintro ⟨before, after, heq, h⟩
        rcases List.cons_eq_append_iff.mp heq with ⟨rfl, heq⟩ | ⟨rest, rfl, rfl⟩
        · exact absurd ((List.cons_eq_cons.mp heq).1 ▸ h.2) hnew
        · rw [List.reverse_cons, List.append_assoc, List.singleton_append] at h
          exact ⟨rest, after, rfl, h⟩

theorem firstRepeat_nil_eq_some {is : List MomentIndex} {i : MomentIndex} :
    firstRepeat [] is = some i ↔ IsFirstRepeat is i := by
  rw [firstRepeat_eq_some List.nodup_nil]
  simp only [IsFirstRepeat, List.append_nil, List.nodup_reverse, List.mem_reverse]

/-! ## Searches without a result -/

theorem find?_not_isValid_eq_none {is : List MomentIndex} :
    is.find? (!·.isValid) = none ↔ ∀ j ∈ is, j.k.natAbs ≤ j.l := by
  rw [find?_not_eq_none]
  exact forall₂_congr fun j _ => isValid_iff

theorem find?_not_isResolvedIn_eq_none {dimension : ℕ} {is : List MomentIndex} :
    is.find? (!·.isResolvedIn dimension) = none ↔ ∀ j ∈ is, j.Fits dimension := by
  rw [find?_not_eq_none]
  exact forall₂_congr fun j _ => isResolvedIn_iff

theorem firstRepeat_nil_eq_none {is : List MomentIndex} : firstRepeat [] is = none ↔ is.Nodup := by
  simp [firstRepeat_eq_none]

/-! ## Verdicts -/

variable {R : Type} {is : List MomentIndex} {dimension angles : ℕ} {model : Interpolation}

/-- A list of moments that fits the set and the interpolation. -/
structure Accepted (is : List MomentIndex) (dimension : ℕ) (model : Interpolation) (angles : ℕ) :
    Prop where
  nonempty : is ≠ []
  valid : ∀ i ∈ is, i.k.natAbs ≤ i.l
  fits : ∀ i ∈ is, i.Fits dimension
  nodup : is.Nodup
  square : model = .sn ∨ model = .galerkin → is.length = angles
  atMost : model = .svd → is.length ≤ angles

/-- Why a list of moments is refused: of the conditions that it breaks, the first one. -/
inductive Refused (is : List MomentIndex) (dimension : ℕ) (model : Interpolation) (angles : ℕ) :
    MomentError R → Prop where
  | empty : is = [] → Refused is dimension model angles .noMoments
  | exceeds {i : MomentIndex} : IsFirstWithout (fun j => j.k.natAbs ≤ j.l) is i →
      Refused is dimension model angles (.invalidMoment i .orderExceedsDegree)
  | unresolved {i : MomentIndex} : (∀ j ∈ is, j.k.natAbs ≤ j.l) →
      IsFirstWithout (Fits dimension) is i →
      Refused is dimension model angles (.invalidMoment i .notResolved)
  | repeated {i : MomentIndex} : (∀ j ∈ is, j.k.natAbs ≤ j.l) → (∀ j ∈ is, j.Fits dimension) →
      IsFirstRepeat is i → Refused is dimension model angles (.duplicateMoment i)
  | count : is ≠ [] → (∀ j ∈ is, j.k.natAbs ≤ j.l) → (∀ j ∈ is, j.Fits dimension) → is.Nodup →
      model = .sn ∨ model = .galerkin → is.length ≠ angles →
      Refused is dimension model angles (.momentCount model angles is.length)
  | many : is ≠ [] → (∀ j ∈ is, j.k.natAbs ≤ j.l) → (∀ j ∈ is, j.Fits dimension) → is.Nodup →
      model = .svd → angles < is.length →
      Refused is dimension model angles (.tooManyMoments is.length angles)

theorem isSquare_iff : model.isSquare = true ↔ model = .sn ∨ model = .galerkin := by
  cases model <;> simp [Interpolation.isSquare]

theorem validate_eq_ok_iff_accepted :
    validate is dimension model angles = (.ok () : Except (MomentError R) Unit) ↔
      Accepted is dimension model angles := by
  rw [validate_eq_ok]
  simp only [isValid_iff, isResolvedIn_iff, isSquare_iff]
  constructor
  · rintro ⟨hne, hvalid, hfits, hnodup, hle, hsquare⟩
    exact ⟨hne, hvalid, hfits, hnodup, hsquare, fun _ => hle⟩
  · rintro ⟨hne, hvalid, hfits, hnodup, hsquare, hatMost⟩
    refine ⟨hne, hvalid, hfits, hnodup, ?_, hsquare⟩
    cases model with
    | sn => exact (hsquare (.inl rfl)).le
    | galerkin => exact (hsquare (.inr rfl)).le
    | svd => exact hatMost rfl

theorem validate_of_refused {e : MomentError R} (h : Refused is dimension model angles e) :
    validate is dimension model angles = .error e := by
  cases h with
  | empty h => exact if_pos h
  | exceeds h =>
    obtain ⟨before, after, his, -⟩ := id h
    rw [validate, if_neg (by simp [his]), (find?_not_eq_some fun _ => isValid_iff).mpr h]
  | unresolved hvalid h =>
    obtain ⟨before, after, his, -⟩ := id h
    rw [validate, if_neg (by simp [his]), find?_not_isValid_eq_none.mpr hvalid,
      (find?_not_eq_some fun _ => isResolvedIn_iff).mpr h]
  | repeated hvalid hfits h =>
    obtain ⟨before, after, his, -⟩ := id h
    rw [validate, if_neg (by simp [his]), find?_not_isValid_eq_none.mpr hvalid,
      find?_not_isResolvedIn_eq_none.mpr hfits, firstRepeat_nil_eq_some.mpr h]
  | count hne hvalid hfits hnodup hmodel hlength =>
    rw [validate, if_neg hne, find?_not_isValid_eq_none.mpr hvalid,
      find?_not_isResolvedIn_eq_none.mpr hfits, firstRepeat_nil_eq_none.mpr hnodup]
    exact if_pos ⟨isSquare_iff.mpr hmodel, hlength⟩
  | many hne hvalid hfits hnodup hmodel hlength =>
    subst hmodel
    rw [validate, if_neg hne, find?_not_isValid_eq_none.mpr hvalid,
      find?_not_isResolvedIn_eq_none.mpr hfits, firstRepeat_nil_eq_none.mpr hnodup]
    exact if_pos hlength

theorem refused_of_validate {e : MomentError R}
    (h : validate is dimension model angles = .error e) : Refused is dimension model angles e := by
  unfold validate at h
  split at h
  next hempty =>
    cases h
    exact .empty hempty
  next hne =>
    split at h
    next i hfind =>
      cases h
      exact .exceeds ((find?_not_eq_some fun _ => isValid_iff).mp hfind)
    next i hvalid hfind =>
      cases h
      exact .unresolved (find?_not_isValid_eq_none.mp hvalid)
        ((find?_not_eq_some fun _ => isResolvedIn_iff).mp hfind)
    next i hvalid hfits hfind =>
      cases h
      exact .repeated (find?_not_isValid_eq_none.mp hvalid)
        (find?_not_isResolvedIn_eq_none.mp hfits) (firstRepeat_nil_eq_some.mp hfind)
    next hvalid hfits hnodup =>
      rw [find?_not_isValid_eq_none] at hvalid
      rw [find?_not_isResolvedIn_eq_none] at hfits
      rw [firstRepeat_nil_eq_none] at hnodup
      split at h
      next hcount =>
        cases h
        exact .count hne hvalid hfits hnodup (isSquare_iff.mp hcount.1) hcount.2
      next hcount =>
        split at h
        next hmany =>
          cases h
          refine .many hne hvalid hfits hnodup ?_ hmany
          cases model with
          | svd => rfl
          | _ => exact absurd ⟨rfl, hmany.ne'⟩ hcount
        next => cases h

/-- A list of moments is accepted exactly if it is not empty, no order exceeds its degree,
the set resolves every moment, none occurs twice, and there are as many of them as angles
for the square interpolations and no more than angles otherwise. Any other list is refused
for the first of these conditions that it breaks, with the first entry that breaks it. -/
theorem validate_decides :
    (validate is dimension model angles = (.ok () : Except (MomentError R) Unit) ↔
      Accepted is dimension model angles) ∧
    ∀ e : MomentError R, validate is dimension model angles = .error e ↔
      Refused is dimension model angles e :=
  ⟨validate_eq_ok_iff_accepted, fun _ => ⟨refused_of_validate, validate_of_refused⟩⟩

/-- Two moments are repeated, and the second occurrence of `(1, 0)` comes first. -/
example : validate [⟨0, 0⟩, ⟨1, 0⟩, ⟨1, 0⟩, ⟨0, 0⟩] 1 .sn 2 =
    (.error (.duplicateMoment ⟨1, 0⟩) : Except (MomentError R) Unit) := rfl

end MomentIndex

end DiscreteOrdinates
