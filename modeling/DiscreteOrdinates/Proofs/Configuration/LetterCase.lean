import DiscreteOrdinates.Proofs.Text.LetterCase
import DiscreteOrdinates.Proofs.Configuration.Grammar

/-!
# Lines in capitals or small letters

What a line of a block says does not depend on the case of its letters: only words have
letters, and the mark of a power of ten. Main statements: `Line.read_congr` and
`readFamily_congr`.
-/

namespace DiscreteOrdinates

open Text (lower isAlpha_of_isDigit)

/-! ## Numbers -/

namespace Literal

theorem SignText.isAlpha_eq_false {sign : List Char} {negative : Bool}
    (h : SignText sign negative) : ∀ c ∈ sign, c.isAlpha = false := by
  cases h with
  | absent => exact List.forall_mem_nil _
  | plus => exact List.forall_mem_singleton.mpr rfl
  | minus => exact List.forall_mem_singleton.mpr rfl

theorem MantissaText.isAlpha_eq_false {mantissa whole fraction : List Char}
    (h : MantissaText mantissa whole fraction) : ∀ c ∈ mantissa, c.isAlpha = false := by
  cases h with
  | whole _ hds => exact fun c hc => isAlpha_of_isDigit (hds c hc)
  | point _ hds hfs =>
    rw [List.forall_mem_append, List.forall_mem_cons]
    exact ⟨fun c hc => isAlpha_of_isDigit (hds c hc), rfl,
      fun c hc => isAlpha_of_isDigit (hfs c hc)⟩

theorem ExponentText.of_lower_eq {power other : List Char} {exponent : Option ℤ}
    (h : ExponentText power exponent) (hlower : lower other = lower power) :
    ExponentText other exponent := by
  cases h with
  | absent =>
    obtain rfl := List.map_eq_nil_iff.mp hlower
    exact .absent
  | @power mark sign ds negative hmark hsign hne hds =>
    obtain ⟨letter, rest, rfl, hletter, hrest⟩ := List.map_eq_cons_iff.mp hlower
    obtain rfl : rest = sign ++ ds := Text.eq_of_lower_eq hrest <| List.forall_mem_append.mpr
      ⟨hsign.isAlpha_eq_false, fun c hc => isAlpha_of_isDigit (hds c hc)⟩
    refine .power ?_ hsign hne hds
    have hsmall : letter.toLower = 'e' := by
      rw [hletter]
      rcases hmark with rfl | rfl <;> rfl
    exact Text.eq_or_eq_toUpper_of_toLower_eq hsmall

/-- A number is written in the same way with a small and with a capital mark. -/
theorem NumberText.of_lower_eq {cs ds : List Char} {l : Literal} (h : NumberText cs l)
    (hlower : lower ds = lower cs) : NumberText ds l := by
  obtain @⟨sign, mantissa, power, l, hsign, hmantissa, hpower⟩ := h
  simp only [lower, List.map_append] at hlower
  obtain ⟨sign', rest, rfl, hsign', hrest⟩ := List.map_eq_append_iff.mp hlower
  obtain ⟨mantissa', power', rfl, hmantissa', hpower'⟩ := List.map_eq_append_iff.mp hrest
  obtain rfl := Text.eq_of_lower_eq hsign' hsign.isAlpha_eq_false
  obtain rfl := Text.eq_of_lower_eq hmantissa' hmantissa.isAlpha_eq_false
  exact .number hsign hmantissa (hpower.of_lower_eq hpower')

end Literal

namespace Configuration

/-! ## Values -/

theorem CountText.of_lower_eq {value other : List Char} {n : ℕ} (h : CountText value n)
    (hlower : lower other = lower value) : CountText other n := by
  rwa [Text.eq_of_lower_eq hlower fun c hc => isAlpha_of_isDigit (h.isDigit c hc)]

theorem NormText.of_lower_eq {value other : List Char} {x : Float} (h : NormText value x)
    (hlower : lower other = lower value) : NormText other x := by
  cases h with
  | number h => exact .number (h.of_lower_eq hlower)
  | nan h => exact .nan (hlower.trans h)
  | inf h => exact .inf (hlower.trans h)

/-! ## Lines -/

theorem KeywordText.exists_of_lower_eq {keyword : String} {value cs ds : List Char}
    (h : KeywordText keyword value cs) (hlower : lower ds = lower cs) :
    ∃ other, lower other = lower value ∧ KeywordText keyword other ds := by
  obtain @⟨word, gaps, hword, hne, hgaps⟩ := h
  simp only [lower, List.map_append] at hlower
  obtain ⟨word', rest, rfl, hword', hrest⟩ := List.map_eq_append_iff.mp hlower
  obtain ⟨gaps', other, rfl, hgaps', hother⟩ := List.map_eq_append_iff.mp hrest
  obtain rfl := Text.eq_of_lower_eq hgaps' fun c hc => by
    rcases hgaps c hc with rfl | rfl <;> rfl
  exact ⟨other, hother, .intro (hword'.trans hword) hne hgaps⟩

theorem KeywordLine.of_lower_eq {cs ds : List Char} {l : Line} (h : KeywordLine cs l)
    (hlower : lower ds = lower cs) : KeywordLine ds l := by
  cases h with
  | order h hn =>
    obtain ⟨other, hother, h⟩ := h.exists_of_lower_eq hlower
    exact .order h (hn.of_lower_eq hother)
  | dimension h hn =>
    obtain ⟨other, hother, h⟩ := h.exists_of_lower_eq hlower
    exact .dimension h (hn.of_lower_eq hother)
  | norm h hx =>
    obtain ⟨other, hother, h⟩ := h.exists_of_lower_eq hlower
    exact .norm h (hx.of_lower_eq hother)
  | levels h hn =>
    obtain ⟨other, hother, h⟩ := h.exists_of_lower_eq hlower
    exact .levels h (hn.of_lower_eq hother)

theorem Line.read_congr {cs ds : List Char} (h : lower cs = lower ds) :
    Line.read cs = Line.read ds := by
  ext l
  rw [Line.read_eq_some_iff, Line.read_eq_some_iff, IsEnd, IsEnd, h]
  exact or_congr_left ⟨fun hl => hl.of_lower_eq h.symm, fun hl => hl.of_lower_eq h⟩

theorem readFamily_congr {cs ds : List Char} (h : lower cs = lower ds) :
    readFamily cs = readFamily ds := by
  simp only [readFamily, h]

end Configuration

end DiscreteOrdinates
