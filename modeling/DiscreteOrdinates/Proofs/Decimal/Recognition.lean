import Mathlib
import DiscreteOrdinates.Decimal.Literal

/-!
# The grammar of numbers

Which texts are read as a number, and as which one: an optional sign, digits with at most
one point before, between or behind them, and an optional power of ten. Main statement:
`ofText?_eq_some_iff`.
-/

namespace DiscreteOrdinates

namespace Literal

/-! ## Grammar -/

/-- The texts of an optional sign. -/
inductive SignText : List Char → Bool → Prop
  | absent : SignText [] false
  | plus : SignText ['+'] false
  | minus : SignText ['-'] true

/-- Digits that may have a point before, between or behind them. -/
inductive MantissaText : List Char → List Char → List Char → Prop
  | whole {ds : List Char} (hne : ds ≠ []) (hds : ∀ c ∈ ds, c.isDigit = true) :
    MantissaText ds ds []
  | point {ds fs : List Char} (hne : ds ≠ [] ∨ fs ≠ []) (hds : ∀ c ∈ ds, c.isDigit = true)
    (hfs : ∀ c ∈ fs, c.isDigit = true) : MantissaText (ds ++ '.' :: fs) ds fs

/-- An optional power of ten. -/
inductive ExponentText : List Char → Option ℤ → Prop
  | absent : ExponentText [] none
  | power {mark : Char} {sign ds : List Char} {negative : Bool} (hmark : mark = 'e' ∨ mark = 'E')
    (hsign : SignText sign negative) (hne : ds ≠ []) (hds : ∀ c ∈ ds, c.isDigit = true) :
    ExponentText (mark :: (sign ++ ds))
      (some (if negative then -(Decimal.ofDigits ds : ℤ) else Decimal.ofDigits ds))

/-- The texts that write a number. -/
inductive NumberText : List Char → Literal → Prop
  | number {sign mantissa power : List Char} {l : Literal} (hsign : SignText sign l.negative)
    (hmantissa : MantissaText mantissa l.whole l.fraction)
    (hpower : ExponentText power l.exponent) : NumberText (sign ++ (mantissa ++ power)) l

/-! ## Parts of a number -/

theorem exists_signText {cs rest : List Char} {negative : Bool}
    (h : spanSign cs = (negative, rest)) : ∃ sign, SignText sign negative ∧ cs = sign ++ rest := by
  unfold spanSign at h
  split at h
  · cases h
    exact ⟨['-'], .minus, rfl⟩
  · cases h
    exact ⟨['+'], .plus, rfl⟩
  · cases h
    exact ⟨[], .absent, rfl⟩

/-- A sign is taken off, if none of what follows could be one. -/
theorem spanSign_append {sign rest : List Char} {negative : Bool} (h : SignText sign negative)
    (hrest : ∀ c ∈ rest.head?, c ≠ '-' ∧ c ≠ '+') : spanSign (sign ++ rest) = (negative, rest) := by
  cases h with
  | plus => rfl
  | minus => rfl
  | absent =>
    rw [List.nil_append]
    unfold spanSign
    split
    · exact absurd rfl (hrest _ rfl).1
    · exact absurd rfl (hrest _ rfl).2
    · rfl

theorem spanDigits_append {ds rest : List Char} (hds : ∀ c ∈ ds, c.isDigit = true)
    (hrest : ∀ c ∈ rest.head?, c.isDigit = false) : spanDigits (ds ++ rest) = (ds, rest) := by
  rw [spanDigits, List.takeWhile_append_of_pos hds, List.dropWhile_append_of_pos hds]
  cases rest with
  | nil => simp
  | cons c rest =>
    have hc := hrest c rfl
    simp [hc]

theorem spanDigits_self {ds : List Char} (hds : ∀ c ∈ ds, c.isDigit = true) :
    spanDigits ds = (ds, []) := by
  have hspan := @spanDigits_append ds [] hds (by simp)
  rwa [List.append_nil] at hspan

theorem digits_of_spanDigits {cs ds rest : List Char} (h : spanDigits cs = (ds, rest)) :
    (∀ c ∈ ds, c.isDigit = true) ∧ cs = ds ++ rest := by
  obtain ⟨rfl, rfl⟩ := Prod.mk.inj h
  exact ⟨fun _ hc => List.mem_takeWhile_imp hc, List.takeWhile_append_dropWhile.symm⟩

theorem isExponentMark_iff {c : Char} : isExponentMark c = true ↔ c = 'e' ∨ c = 'E' := by
  rw [isExponentMark, Bool.or_eq_true, beq_iff_eq, beq_iff_eq]

theorem exists_exponentText {cs rest : List Char} {exponent : Option ℤ}
    (h : readExponent cs = some (exponent, rest)) :
    ∃ power, ExponentText power exponent ∧ cs = power ++ rest := by
  cases cs with
  | nil =>
    obtain ⟨rfl, rfl⟩ := Prod.mk.inj (Option.some.inj h)
    exact ⟨[], .absent, rfl⟩
  | cons c cs =>
    rw [readExponent] at h
    split at h
    next hmark =>
      split at h
      next negative behind hspan =>
        obtain ⟨sign, hsign, rfl⟩ := exists_signText hspan
        split at h
        next => cases h
        next ds after hne hdigits =>
          obtain ⟨hds, rfl⟩ := digits_of_spanDigits hdigits
          obtain ⟨rfl, rfl⟩ := Prod.mk.inj (Option.some.inj h)
          refine ⟨c :: (sign ++ ds), .power (isExponentMark_iff.mp hmark) hsign ?_ hds, ?_⟩
          · rintro rfl
            exact hne rfl
          · rw [List.cons_append, List.append_assoc]
    next =>
      obtain ⟨rfl, rfl⟩ := Prod.mk.inj (Option.some.inj h)
      exact ⟨[], .absent, rfl⟩

theorem readExponent_of_text {power : List Char} {exponent : Option ℤ}
    (h : ExponentText power exponent) : readExponent power = some (exponent, []) := by
  cases h with
  | absent => rfl
  | @power mark sign ds negative hmark hsign hne hds =>
    have hdigits : ∀ c ∈ ds.head?, c ≠ '-' ∧ c ≠ '+' := by
      intro c hc
      have hdigit := hds c (List.mem_of_mem_head? hc)
      constructor <;>
      · rintro rfl
        exact absurd hdigit (by decide)
    obtain ⟨d, ds, rfl⟩ := List.exists_cons_of_ne_nil hne
    rw [readExponent, if_pos (isExponentMark_iff.mpr hmark), spanSign_append hsign hdigits]
    simp only [spanDigits_self hds]

/-- What a power of ten begins with ends the digits and is no point. -/
theorem ExponentText.head_ne {power : List Char} {exponent : Option ℤ}
    (h : ExponentText power exponent) : ∀ c ∈ power.head?, c.isDigit = false ∧ c ≠ '.' := by
  cases h with
  | absent => simp
  | power hmark _ _ _ =>
    rintro c ⟨⟩
    rcases hmark with rfl | rfl <;> exact ⟨by decide, by decide⟩

/-- A mantissa begins with a digit or with the point. -/
theorem MantissaText.exists_cons {mantissa whole fraction : List Char}
    (h : MantissaText mantissa whole fraction) :
    ∃ c cs, mantissa = c :: cs ∧ (c.isDigit = true ∨ c = '.') := by
  cases h with
  | whole hne hds =>
    obtain ⟨c, cs, rfl⟩ := List.exists_cons_of_ne_nil hne
    exact ⟨c, cs, rfl, .inl (hds c List.mem_cons_self)⟩
  | point _ hds _ =>
    cases whole with
    | nil => exact ⟨'.', _, rfl, .inr rfl⟩
    | cons c cs => exact ⟨c, _, rfl, .inl (hds c List.mem_cons_self)⟩

theorem MantissaText.head_ne {mantissa whole fraction : List Char}
    (h : MantissaText mantissa whole fraction) (rest : List Char) :
    ∀ c ∈ (mantissa ++ rest).head?, c ≠ '-' ∧ c ≠ '+' := by
  obtain ⟨c, cs, rfl, hc⟩ := h.exists_cons
  rintro _ ⟨⟩
  constructor <;>
  · rintro rfl
    revert hc
    decide

/-- A number begins with a digit, a sign or the point. -/
theorem NumberText.exists_cons {cs : List Char} {l : Literal} (h : NumberText cs l) :
    ∃ c rest, cs = c :: rest ∧ (c.isDigit = true ∨ c = '+' ∨ c = '-' ∨ c = '.') := by
  obtain @⟨sign, mantissa, power, l, hsign, hmantissa, hpower⟩ := h
  obtain ⟨c, cs, rfl, hc⟩ := hmantissa.exists_cons
  generalize l.negative = negative at hsign
  cases hsign with
  | absent => exact ⟨c, _, rfl, hc.imp_right fun hpoint => .inr (.inr hpoint)⟩
  | plus => exact ⟨'+', _, rfl, .inr (.inl rfl)⟩
  | minus => exact ⟨'-', _, rfl, .inr (.inr (.inl rfl))⟩

/-! ## Numbers -/

/-- Behind the first digits there is a point with more digits, or nothing that belongs to
the mantissa. -/
theorem exists_mantissaText {whole behind fraction after : List Char}
    (hwhole : ∀ c ∈ whole, c.isDigit = true) (hne : whole ≠ [] ∨ fraction ≠ [])
    (h : (∃ rest, behind = '.' :: rest ∧ spanDigits rest = (fraction, after)) ∨
      (fraction = [] ∧ behind = after)) :
    ∃ mantissa, MantissaText mantissa whole fraction ∧ whole ++ behind = mantissa ++ after := by
  rcases h with ⟨rest, rfl, hspan⟩ | ⟨rfl, rfl⟩
  · obtain ⟨hfraction, rfl⟩ := digits_of_spanDigits hspan
    refine ⟨whole ++ '.' :: fraction, .point hne hwhole hfraction, ?_⟩
    rw [List.append_assoc, List.cons_append]
  · exact ⟨whole, .whole (hne.resolve_right (not_not.mpr rfl)) hwhole, rfl⟩

theorem exists_numberText {cs rest : List Char} {l : Literal} (h : read cs = some (l, rest)) :
    ∃ text, NumberText text l ∧ cs = text ++ rest := by
  unfold read at h
  split at h
  next negative unsigned hspan =>
    obtain ⟨sign, hsign, rfl⟩ := exists_signText hspan
    split at h
    next whole behind hdigits =>
      obtain ⟨hwhole, rfl⟩ := digits_of_spanDigits hdigits
      split at h
      next fraction after hpoint =>
        split at h
        next => cases h
        next hnonempty =>
          have hne : whole ≠ [] ∨ fraction ≠ [] := by
            rwa [Bool.and_eq_true, List.isEmpty_iff, List.isEmpty_iff, not_and_or] at hnonempty
          -- The point belongs to the mantissa if there is any digit at all.
          have hfraction : (∃ rest, behind = '.' :: rest ∧ spanDigits rest = (fraction, after)) ∨
              (fraction = [] ∧ behind = after) := by
            split at hpoint
            next rest =>
              split at hpoint
              next fs later hspan =>
                split at hpoint
                next =>
                  obtain ⟨rfl, rfl⟩ := Prod.mk.inj hpoint
                  exact .inr ⟨rfl, rfl⟩
                next =>
                  obtain ⟨rfl, rfl⟩ := Prod.mk.inj hpoint
                  exact .inl ⟨rest, rfl, hspan⟩
            next =>
              obtain ⟨rfl, rfl⟩ := Prod.mk.inj hpoint
              exact .inr ⟨rfl, rfl⟩
          obtain ⟨mantissa, hmantissa, hbehind⟩ := exists_mantissaText hwhole hne hfraction
          obtain ⟨⟨exponent, rest⟩, hexponent, h⟩ := Option.map_eq_some_iff.mp h
          obtain ⟨rfl, rfl⟩ := Prod.mk.inj h
          obtain ⟨power, hpower, rfl⟩ := exists_exponentText hexponent
          refine ⟨sign ++ (mantissa ++ power), .number hsign hmantissa hpower, ?_⟩
          rw [hbehind, List.append_assoc, List.append_assoc]

theorem read_of_text {cs : List Char} {l : Literal} (h : NumberText cs l) :
    read cs = some (l, []) := by
  obtain @⟨sign, mantissa, power, l, hsign, hmantissa, hpower⟩ := h
  obtain ⟨negative, whole, fraction, exponent⟩ := l
  dsimp only at hsign hmantissa hpower
  have hexponent := readExponent_of_text hpower
  -- The digits end where the power of ten begins.
  have hstop := hpower.head_ne
  have hspan : spanSign (sign ++ (mantissa ++ power)) = (negative, mantissa ++ power) :=
    spanSign_append hsign (hmantissa.head_ne power)
  cases hmantissa with
  | whole hne hwhole =>
    have hdigits : spanDigits (mantissa ++ power) = (mantissa, power) :=
      spanDigits_append hwhole fun c hc => (hstop c hc).1
    have hempty : mantissa.isEmpty = false := List.isEmpty_eq_false_iff.mpr hne
    simp only [read, hspan, hdigits, hempty]
    cases hpower with
    | absent => simp [hexponent]
    | power hmark _ _ _ => rcases hmark with rfl | rfl <;> simp [hexponent]
  | point hne hwhole hfraction =>
    have hdigits : spanDigits (whole ++ '.' :: (fraction ++ power)) =
        (whole, '.' :: (fraction ++ power)) :=
      spanDigits_append hwhole (by rintro _ ⟨⟩; decide)
    have hrest : spanDigits (fraction ++ power) = (fraction, power) :=
      spanDigits_append hfraction fun c hc => (hstop c hc).1
    rw [List.append_assoc, List.cons_append] at hspan ⊢
    have hempty : (whole.isEmpty && fraction.isEmpty) = false := by
      rwa [Bool.and_eq_false_iff, List.isEmpty_eq_false_iff, List.isEmpty_eq_false_iff]
    simp only [read, hspan, hdigits, hrest, hempty]
    simp [hempty, hexponent]

/-- A text is read as a number exactly if it writes this number. -/
theorem ofText?_eq_some_iff {cs : List Char} {l : Literal} :
    ofText? cs = some l ↔ NumberText cs l := by
  unfold ofText?
  constructor
  · intro h
    split at h
    next literal hread =>
      obtain rfl : literal = l := Option.some.inj h
      obtain ⟨text, htext, hcs⟩ := exists_numberText hread
      rwa [hcs, List.append_nil]
    next => cases h
  · intro h
    rw [read_of_text h]

end Literal

end DiscreteOrdinates
