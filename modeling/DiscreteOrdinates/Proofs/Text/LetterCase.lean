import Mathlib
import DiscreteOrdinates.Proofs.Text.Lines
import DiscreteOrdinates.Text.Letter

/-!
# Letter case

Texts that differ in the case of ASCII letters only, which `lower` makes equal. They have the
same blanks and the same marks at the same places, and so fall into lines that differ in the
case of letters only (`map_lower_trimmedLines`).
-/

namespace DiscreteOrdinates.Text

/-! ## Characters -/

theorem isAlpha_iff {c : Char} :
    c.isAlpha = true ↔ (65 ≤ c.toNat ∧ c.toNat ≤ 90) ∨ (97 ≤ c.toNat ∧ c.toNat ≤ 122) := by
  simp only [Char.isAlpha, Char.isUpper, Char.isLower, Bool.or_eq_true, Bool.and_eq_true,
    decide_eq_true_eq, ge_iff_le, UInt32.le_iff_toNat_le]
  exact Iff.rfl

theorem isAlpha_of_isDigit {c : Char} (h : c.isDigit = true) : c.isAlpha = false := by
  simp only [Char.isDigit, Bool.and_eq_true, decide_eq_true_eq, ge_iff_le,
    UInt32.le_iff_toNat_le] at h
  have hhigh : c.toNat ≤ 57 := h.2
  refine Bool.eq_false_iff.mpr fun hletter => ?_
  have := isAlpha_iff.mp hletter
  omega

theorem isBlank_of_isAlpha {c : Char} (h : c.isAlpha = true) : isBlank c = false := by
  have hletter := isAlpha_iff.mp h
  simp only [isBlank, blankRanges, List.any_cons, List.any_nil, Bool.or_false,
    Bool.or_eq_false_iff, Bool.and_eq_false_iff, decide_eq_false_iff_not]
  omega

theorem toLower_of_not_isAlpha {c : Char} (h : c.isAlpha = false) : c.toLower = c := by
  rw [Char.isAlpha, Bool.or_eq_false_iff] at h
  exact Char.toLower_eq_of_not_isUpper (by simp [h.1])

theorem isBlank_toLower (c : Char) : isBlank c.toLower = isBlank c := by
  cases h : c.isAlpha with
  | true => rw [isBlank_of_isAlpha h, isBlank_of_isAlpha (by rwa [Char.isAlpha_toLower_eq_isAlpha])]
  | false => rw [toLower_of_not_isAlpha h]

/-- A character that is no letter has no other case. -/
theorem eq_of_toLower_eq {c d : Char} (h : d.toLower = c.toLower) (hc : c.isAlpha = false) :
    d = c := by
  have hd : d.isAlpha = false := by
    rw [← Char.isAlpha_toLower_eq_isAlpha, h, Char.isAlpha_toLower_eq_isAlpha, hc]
  rwa [toLower_of_not_isAlpha hd, toLower_of_not_isAlpha hc] at h

/-- A letter is one of two characters. -/
theorem eq_or_eq_toUpper_of_toLower_eq {c d : Char} (h : d.toLower = c) : d = c ∨ d = c.toUpper := by
  by_cases hlower : d.isLower
  · left
    rw [← h, Char.toLower_eq_of_not_isUpper (Char.not_isUpper_of_isLower hlower)]
  · right
    rw [← h, Char.toUpper_toLower_eq_toUpper, Char.toUpper_eq_of_not_isLower hlower]

/-! ## Texts -/

theorem eq_of_lower_eq {cs ds : List Char} (h : lower ds = lower cs)
    (hcs : ∀ c ∈ cs, c.isAlpha = false) : ds = cs := by
  induction cs generalizing ds with
  | nil => exact List.map_eq_nil_iff.mp h
  | cons c cs ih =>
    obtain ⟨d, ds, rfl, hd, hds⟩ := List.map_eq_cons_iff.mp h
    obtain ⟨hc, hcs⟩ := List.forall_mem_cons.mp hcs
    rw [eq_of_toLower_eq hd hc, ih hds hcs]

theorem trim_lower (cs : List Char) : trim (lower cs) = lower (trim cs) := by
  have hblank : isBlank ∘ Char.toLower = isBlank := funext isBlank_toLower
  simp only [trim, lower, List.dropWhile_map, ← List.map_reverse, hblank]

/-- Changing the case of letters neither makes nor removes a line break. -/
theorem splitOn_lower (cs : List Char) :
    (lower cs).splitOn '\n' = (cs.splitOn '\n').map lower := by
  induction cs with
  | nil => rfl
  | cons c cs ih =>
    have hbreak : (c.toLower == '\n') = (c == '\n') := by
      have hnewline : c.toLower = '\n' ↔ c = '\n' := by
        refine ⟨fun h => eq_of_toLower_eq h rfl, ?_⟩
        rintro rfl
        rfl
      rw [Bool.eq_iff_iff, beq_iff_eq, beq_iff_eq, hnewline]
    have hhead : ∀ lines : List (List Char), (lines.modifyHead (List.cons c)).map lower =
        (lines.map lower).modifyHead (List.cons c.toLower) := by
      intro lines
      cases lines <;> rfl
    rw [List.splitOn, lower, List.map_cons, List.splitOnP_cons_eq_if_modifyHead, hbreak,
      List.splitOn, List.splitOnP_cons_eq_if_modifyHead, ← lower]
    rw [List.splitOn, List.splitOn] at ih
    split
    · rw [ih]
      rfl
    · rw [ih, hhead]

theorem map_lower_trimmedLines {cs ds : List Char} (h : lower cs = lower ds) :
    (trimmedLines cs).map lower = (trimmedLines ds).map lower := by
  have hlines : ∀ cs, (trimmedLines cs).map lower = trimmedLines (lower cs) := by
    intro cs
    rw [trimmedLines, trimmedLines, splitOn_lower, List.map_map, List.map_map]
    exact List.map_congr_left fun line _ => (trim_lower line).symm
  rw [hlines, hlines, h]

end DiscreteOrdinates.Text
