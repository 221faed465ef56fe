import DiscreteOrdinates.Proofs.Decimal.Recognition
import DiscreteOrdinates.Configuration.Block

/-!
# The grammar of block lines

Which lines belong in a block, as relations between a line and what it says: the name of a
family, a keyword with a value behind it, or `end`. The case of ASCII letters does not matter
in any word. Main statements: a line is read as what it says, `Line.read_eq_some_iff` and
`readFamily_eq_some_iff`.
-/

namespace DiscreteOrdinates

namespace Configuration

/-! ## Grammar -/

/-- The digits of a count. -/
structure CountText (value : List Char) (n : ℕ) : Prop where
  ne_nil : value ≠ []
  isDigit : ∀ c ∈ value, c.isDigit = true
  ofDigits_eq : Decimal.ofDigits value = n
  lt : n < 2 ^ 64

/-- A number that a norm is the nearest float to, or one of two words. -/
inductive NormText : List Char → Float → Prop
  | number {value : List Char} {l : Literal} (h : l.NumberText value) : NormText value l.nearest
  | nan {value : List Char} (h : Text.lower value = "nan".toList) : NormText value (0.0 / 0.0)
  | inf {value : List Char} (h : Text.lower value = "inf".toList) : NormText value (1.0 / 0.0)

/-- A keyword, at least one space or tab, and a value. -/
inductive KeywordText (keyword : String) (value : List Char) : List Char → Prop
  | intro {word gaps : List Char} (hword : Text.lower word = keyword.toList) (hne : gaps ≠ [])
    (hgaps : ∀ c ∈ gaps, c = ' ' ∨ c = '\t') : KeywordText keyword value (word ++ (gaps ++ value))

/-- A keyword line and what it says. -/
inductive KeywordLine : List Char → Line → Prop
  | order {cs value : List Char} {n : ℕ} (h : KeywordText "order" value cs)
    (hn : CountText value n) : KeywordLine cs (.order n)
  | dimension {cs value : List Char} {n : ℕ} (h : KeywordText "dimension" value cs)
    (hn : CountText value n) : KeywordLine cs (.dimension n)
  | norm {cs value : List Char} {x : Float} (h : KeywordText "norm" value cs)
    (hx : NormText value x) : KeywordLine cs (.norm x)
  | levels {cs value : List Char} {n : ℕ} (h : KeywordText "levels" value cs)
    (hn : CountText value n) : KeywordLine cs (.levels n)

/-- The line that closes a block. -/
def IsEnd (cs : List Char) : Prop :=
  Text.lower cs = "end".toList

/-- The line that a block begins with. -/
def NamesFamily (cs : List Char) (family : Family) : Prop :=
  Text.lower cs = Text.lower family.name.toList

/-! ## Values -/

theorem isGap_iff {c : Char} : isGap c = true ↔ c = ' ' ∨ c = '\t' := by
  rw [isGap, Bool.or_eq_true, beq_iff_eq, beq_iff_eq]

theorem isDigit_eq_false_of_isGap {c : Char} (h : isGap c = true) : c.isDigit = false := by
  rcases isGap_iff.mp h with rfl | rfl <;> rfl

theorem toLower_of_isDigit {c : Char} (h : c.isDigit = true) : c.toLower = c := by
  refine Char.toLower_eq_of_not_isUpper ?_
  simp only [Char.isDigit, Char.isUpper, Bool.and_eq_true, decide_eq_true_eq, ge_iff_le,
    UInt32.le_iff_toNat_le] at *
  have hhigh : c.val.toNat ≤ 57 := h.2
  have hletter : 'A'.val.toNat = 65 := rfl
  omega

theorem readCount_eq_some_iff {value : List Char} {n : ℕ} :
    readCount value = some n ↔ CountText value n := by
  unfold readCount
  constructor
  · intro h
    split at h
    next hvalue =>
      obtain ⟨hlt, hn⟩ := Option.ite_none_right_eq_some.mp h
      obtain rfl := Option.some.inj hn
      exact ⟨hvalue.1, List.all_eq_true.mp hvalue.2, rfl, hlt⟩
    next => cases h
  · rintro ⟨hne, hdigits, rfl, hlt⟩
    rw [if_pos ⟨hne, List.all_eq_true.mpr hdigits⟩]
    exact if_pos hlt

/-- The words for norms are no numbers. -/
theorem ofText?_eq_none_of_lower {value : List Char}
    (h : Text.lower value = "nan".toList ∨ Text.lower value = "inf".toList) :
    Literal.ofText? value = none := by
  refine Option.eq_none_iff_forall_ne_some.mpr fun l hl => ?_
  -- A number begins with none of the letters that the words begin with.
  obtain ⟨c, rest, rfl, hc⟩ := (Literal.ofText?_eq_some_iff.mp hl).exists_cons
  have hletter : c.toLower = 'n' ∨ c.toLower = 'i' :=
    h.imp (fun h => (List.cons.inj h).1) fun h => (List.cons.inj h).1
  rcases hc with hdigit | rfl | rfl | rfl
  · rw [toLower_of_isDigit hdigit] at hletter
    rcases hletter with rfl | rfl <;> exact absurd hdigit (by decide)
  all_goals exact absurd hletter (by decide)

theorem readNorm_eq_some_iff {value : List Char} {x : Float} :
    readNorm value = some x ↔ NormText value x := by
  unfold readNorm
  constructor
  · intro h
    split at h
    next l hl =>
      obtain rfl := Option.some.inj h
      exact .number (Literal.ofText?_eq_some_iff.mp hl)
    next =>
      split at h
      next hnan =>
        obtain rfl := Option.some.inj h
        exact .nan (by rw [← String.toList_ofList (l := Text.lower value), hnan])
      next hinf =>
        obtain rfl := Option.some.inj h
        exact .inf (by rw [← String.toList_ofList (l := Text.lower value), hinf])
      next => cases h
  · intro h
    cases h with
    | number h => rw [Literal.ofText?_eq_some_iff.mpr h]
    | nan h =>
      rw [ofText?_eq_none_of_lower (.inl h), h]
      rfl
    | inf h =>
      rw [ofText?_eq_none_of_lower (.inr h), h]
      rfl

theorem CountText.isGap_eq_false {value : List Char} {n : ℕ} (h : CountText value n) :
    ∀ c ∈ value.head?, isGap c = false := by
  intro c hc
  have hdigit := h.isDigit c (List.mem_of_mem_head? hc)
  exact Bool.eq_false_iff.mpr fun hgap => by simp [isDigit_eq_false_of_isGap hgap] at hdigit

theorem NormText.isGap_eq_false {value : List Char} {x : Float} (h : NormText value x) :
    ∀ c ∈ value.head?, isGap c = false := by
  intro c hc
  refine Bool.eq_false_iff.mpr fun hgap => ?_
  obtain ⟨rest, rfl⟩ := List.head?_eq_some_iff.mp hc
  cases h with
  | number h =>
    obtain ⟨_, _, hcons, hfirst⟩ := h.exists_cons
    obtain ⟨rfl, -⟩ := List.cons.inj hcons
    rw [isDigit_eq_false_of_isGap hgap] at hfirst
    rcases isGap_iff.mp hgap with rfl | rfl <;> exact absurd hfirst (by decide)
  | nan h =>
    have hletter : c.toLower = 'n' := (List.cons.inj h).1
    rcases isGap_iff.mp hgap with rfl | rfl <;> exact absurd hletter (by decide)
  | inf h =>
    have hletter : c.toLower = 'i' := (List.cons.inj h).1
    rcases isGap_iff.mp hgap with rfl | rfl <;> exact absurd hletter (by decide)

/-! ## Keywords -/

/-- The keywords that take a value. -/
def keywords : List String :=
  ["order", "dimension", "norm", "levels"]

section

variable {α : Type} {keyword : String} {read : List Char → Option α} {cs value rest : List Char}

theorem exists_word_of_dropWord? {word : List Char} (h : dropWord? word cs = some rest) :
    ∃ front, Text.lower front = word ∧ cs = front ++ rest := by
  unfold dropWord? at h
  obtain ⟨hfront, hrest⟩ := Option.ite_none_right_eq_some.mp h
  obtain rfl := Option.some.inj hrest
  exact ⟨_, hfront, (List.take_append_drop _ cs).symm⟩

theorem dropWord?_append {front word : List Char} (h : Text.lower front = word) :
    dropWord? word (front ++ rest) = some rest := by
  have hlength : word.length = front.length := by rw [← h, Text.lower, List.length_map]
  rw [dropWord?, hlength, List.take_left, List.drop_left, if_pos h]

theorem exists_gaps_of_dropGaps? (h : dropGaps? cs = some rest) :
    ∃ gaps, gaps ≠ [] ∧ (∀ c ∈ gaps, isGap c = true) ∧ cs = gaps ++ rest := by
  cases cs with
  | nil => cases h
  | cons c cs =>
    obtain ⟨hc, hrest⟩ := Option.ite_none_right_eq_some.mp h
    obtain rfl := Option.some.inj hrest
    refine ⟨c :: cs.takeWhile isGap, List.cons_ne_nil _ _, ?_, ?_⟩
    · exact List.forall_mem_cons.mpr ⟨hc, fun _ hd => List.mem_takeWhile_imp hd⟩
    · rw [List.cons_append, List.takeWhile_append_dropWhile]

theorem dropGaps?_append {gaps : List Char} (hne : gaps ≠ []) (hgaps : ∀ c ∈ gaps, isGap c = true)
    (hrest : ∀ c ∈ rest.head?, isGap c = false) : dropGaps? (gaps ++ rest) = some rest := by
  obtain ⟨c, gaps, rfl⟩ := List.exists_cons_of_ne_nil hne
  obtain ⟨hc, hgaps⟩ := List.forall_mem_cons.mp hgaps
  rw [List.cons_append, dropGaps?, if_pos hc, List.dropWhile_append_of_pos hgaps]
  cases rest with
  | nil => rfl
  | cons d rest => rw [List.dropWhile_cons_of_neg (by simp [hrest d rfl])]

theorem exists_keywordText_of_readValue {a : α} (h : readValue keyword read cs = some a) :
    ∃ value, KeywordText keyword value cs ∧ read value = some a := by
  obtain ⟨behind, hword, h⟩ := Option.bind_eq_some_iff.mp h
  obtain ⟨value, hbehind, hvalue⟩ := Option.bind_eq_some_iff.mp h
  obtain ⟨word, hlower, rfl⟩ := exists_word_of_dropWord? hword
  obtain ⟨gaps, hne, hgaps, rfl⟩ := exists_gaps_of_dropGaps? hbehind
  exact ⟨value, .intro hlower hne fun c hc => isGap_iff.mp (hgaps c hc), hvalue⟩

theorem readValue_of_keywordText (h : KeywordText keyword value cs)
    (hvalue : ∀ c ∈ value.head?, isGap c = false) : readValue keyword read cs = read value := by
  obtain ⟨hword, hne, hgaps⟩ := h
  rw [readValue, dropWord?_append hword, Option.bind_eq_bind, Option.bind_some,
    dropGaps?_append hne (fun c hc => isGap_iff.mpr (hgaps c hc)) hvalue]
  rfl

/-- The first letter of a line tells which keyword it has. -/
theorem KeywordText.head?_lower (h : KeywordText keyword value cs) (hkeyword : keyword ∈ keywords) :
    (Text.lower cs).head? = keyword.toList.head? := by
  have hne : ∀ keyword ∈ keywords, keyword.toList ≠ [] := by decide
  obtain ⟨hword, -, -⟩ := h
  rw [Text.lower, List.map_append, ← Text.lower, hword,
    List.head?_append_of_ne_nil _ (hne keyword hkeyword)]

/-- A line with another first letter is not taken for one of this keyword. -/
theorem readValue_eq_none (hkeyword : keyword ∈ keywords)
    (h : (Text.lower cs).head? ≠ keyword.toList.head?) : readValue keyword read cs = none := by
  refine Option.eq_none_iff_forall_ne_some.mpr fun a ha => ?_
  obtain ⟨value, hvalue, -⟩ := exists_keywordText_of_readValue ha
  exact h (hvalue.head?_lower hkeyword)

end

/-! ## Lines -/

/-- A line is read as what it says. -/
theorem Line.read_eq_some_iff {cs : List Char} {l : Line} :
    Line.read cs = some l ↔ KeywordLine cs l ∨ (IsEnd cs ∧ l = .finish) := by
  constructor
  · intro h
    simp only [Line.read, Option.orElse_eq_orElse, Option.orElse_eq_or, Option.or_eq_some_iff,
      Option.map_eq_some_iff] at h
    rcases h with ⟨n, hn, rfl⟩ | ⟨-, ⟨n, hn, rfl⟩ | ⟨-, ⟨x, hx, rfl⟩ | ⟨-, ⟨n, hn, rfl⟩ | h⟩⟩⟩
    · obtain ⟨value, hvalue, hn⟩ := exists_keywordText_of_readValue hn
      exact .inl (.order hvalue (readCount_eq_some_iff.mp hn))
    · obtain ⟨value, hvalue, hn⟩ := exists_keywordText_of_readValue hn
      exact .inl (.dimension hvalue (readCount_eq_some_iff.mp hn))
    · obtain ⟨value, hvalue, hx⟩ := exists_keywordText_of_readValue hx
      exact .inl (.norm hvalue (readNorm_eq_some_iff.mp hx))
    · obtain ⟨value, hvalue, hn⟩ := exists_keywordText_of_readValue hn
      exact .inl (.levels hvalue (readCount_eq_some_iff.mp hn))
    · obtain ⟨hend, hl⟩ := Option.ite_none_right_eq_some.mp h.2
      exact .inr ⟨hend, (Option.some.inj hl).symm⟩
  · rintro (h | ⟨h, rfl⟩)
    · -- The keywords before the one on the line differ from it in their first letter.
      cases h with
      | order h hn =>
        rw [Line.read, readValue_of_keywordText h hn.isGap_eq_false, readCount_eq_some_iff.mpr hn]
        rfl
      | dimension h hn =>
        have hhead : (Text.lower cs).head? = some 'd' := h.head?_lower (by decide)
        rw [Line.read, readValue_eq_none (by decide) (by rw [hhead]; decide),
          readValue_of_keywordText h hn.isGap_eq_false, readCount_eq_some_iff.mpr hn]
        rfl
      | norm h hx =>
        have hhead : (Text.lower cs).head? = some 'n' := h.head?_lower (by decide)
        rw [Line.read, readValue_eq_none (by decide) (by rw [hhead]; decide),
          readValue_eq_none (by decide) (by rw [hhead]; decide),
          readValue_of_keywordText h hx.isGap_eq_false, readNorm_eq_some_iff.mpr hx]
        rfl
      | levels h hn =>
        have hhead : (Text.lower cs).head? = some 'l' := h.head?_lower (by decide)
        rw [Line.read, readValue_eq_none (by decide) (by rw [hhead]; decide),
          readValue_eq_none (by decide) (by rw [hhead]; decide),
          readValue_eq_none (by decide) (by rw [hhead]; decide),
          readValue_of_keywordText h hn.isGap_eq_false, readCount_eq_some_iff.mpr hn]
        rfl
    · have hhead : (Text.lower cs).head? = some 'e' := congrArg List.head? h
      rw [Line.read, readValue_eq_none (by decide) (by rw [hhead]; decide),
        readValue_eq_none (by decide) (by rw [hhead]; decide),
        readValue_eq_none (by decide) (by rw [hhead]; decide),
        readValue_eq_none (by decide) (by rw [hhead]; decide)]
      exact if_pos h

theorem readFamily_eq_some_iff {cs : List Char} {family : Family} :
    readFamily cs = some family ↔ NamesFamily cs family := by
  constructor
  · intro h
    have hnamed := List.find?_some h
    rwa [decide_eq_true_iff] at hnamed
  · intro h
    rw [NamesFamily] at h
    unfold readFamily
    rw [h]
    cases family <;> rfl

end Configuration

end DiscreteOrdinates
