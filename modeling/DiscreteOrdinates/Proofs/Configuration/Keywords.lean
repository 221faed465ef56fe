import DiscreteOrdinates.Proofs.Decimal.ReadBack
import DiscreteOrdinates.Proofs.Text.Lines
import DiscreteOrdinates.Proofs.Configuration.Grammar

/-!
# Keywords and their values

What the lines of a block say: a keyword with a word behind it. A count and a finite
float are words that read back as they were, and each keyword line is read for what
it states.
-/

namespace DiscreteOrdinates

namespace Configuration

open Text (IsWord isBlank)

/-! ## Values -/

theorem isWord_digits (n : ℕ) : IsWord (Decimal.digits n) where
  ne_nil := Nat.toDigits_ne_nil
  isBlank_eq_false c hc := Text.isBlank_of_isDigit (Decimal.isDigit_of_mem_digits c hc)

theorem isWord_floatText {x : Float} (hx : x.isFinite = true) : IsWord (floatText x).toList := by
  obtain ⟨l, hplain, htext, -⟩ := exists_literal_floatText hx
  rw [htext]
  exact ⟨hplain.plainText_ne_nil, fun c hc => by
    rcases hplain.mem_plainText hc with rfl | rfl | hdigit
    · decide
    · decide
    · exact Text.isBlank_of_isDigit hdigit⟩

theorem toList_toString (n : ℕ) : (toString n).toList = Decimal.digits n :=
  Nat.toList_repr

theorem countText_digits {n : ℕ} (h : n < UInt64.size) : CountText (Decimal.digits n) n where
  ne_nil := Nat.toDigits_ne_nil
  isDigit := Decimal.isDigit_of_mem_digits
  ofDigits_eq := Decimal.ofDigits_digits n
  lt := h

theorem normText_floatText {x : Float} (hx : x.isFinite = true) :
    NormText (floatText x).toList x := by
  obtain ⟨l, hplain, htext, rfl⟩ := exists_literal_floatText hx
  rw [htext]
  exact .number (Literal.numberText_plainText hplain)

/-! ## Keyword lines -/

/-- A keyword with a value behind it. -/
def statement (keyword : String) (value : List Char) : List Char :=
  keyword.toList ++ ' ' :: value

theorem isWord_keyword : ∀ keyword ∈ keywords, IsWord keyword.toList := by
  have hne : ∀ keyword ∈ keywords, keyword.toList ≠ [] := by decide
  have hblank : (keywords.all fun keyword => keyword.toList.all fun c => !isBlank c) = true := by
    decide
  simp only [List.all_eq_true, Bool.not_eq_true'] at hblank
  exact fun keyword h => ⟨hne keyword h, hblank keyword h⟩

theorem keywordText_statement {keyword : String} (hkeyword : keyword ∈ keywords)
    (value : List Char) : KeywordText keyword value (statement keyword value) := by
  have hlower : ∀ keyword ∈ keywords, Text.lower keyword.toList = keyword.toList := by decide
  exact .intro (hlower keyword hkeyword) (List.cons_ne_nil ' ' []) (by simp)

end Configuration

end DiscreteOrdinates
