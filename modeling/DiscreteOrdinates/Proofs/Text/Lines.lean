import DiscreteOrdinates.Text.Blank

/-!
# Lines of a text

What trimming does to a text that begins and ends with other characters, and how
a text that was joined from lines falls into these lines again. Main statement:
`trimmedLines_join`.
-/

namespace DiscreteOrdinates.Text

/-- The lines of a text as they stand. -/
def rawLines (text : String) : List (List Char) :=
  text.toList.splitOn '\n'

/-! ## Words -/

/-- A text without blanks that is not empty. -/
structure IsWord (cs : List Char) : Prop where
  ne_nil : cs ≠ []
  isBlank_eq_false : ∀ c ∈ cs, isBlank c = false

theorem isBlank_of_isDigit {c : Char} (h : c.isDigit = true) : isBlank c = false := by
  simp only [Char.isDigit, Bool.and_eq_true, decide_eq_true_eq, ge_iff_le, UInt32.le_iff_toNat_le]
    at h
  have hlow : 48 ≤ c.toNat := h.1
  have hhigh : c.toNat ≤ 57 := h.2
  simp only [isBlank, blankRanges, List.any_cons, List.any_nil, Bool.or_false,
    Bool.or_eq_false_iff, Bool.and_eq_false_iff, decide_eq_false_iff_not]
  omega

/-! ## Trimming -/

theorem trim_cons_of_isBlank {c : Char} (h : isBlank c = true) (cs : List Char) :
    trim (c :: cs) = trim cs := by
  rw [trim, List.dropWhile_cons_of_pos h, ← trim]

theorem dropWhile_isBlank_eq_nil {cs : List Char} (h : ∀ c ∈ cs, isBlank c = true) :
    cs.dropWhile isBlank = [] := by
  have hdrop := @List.dropWhile_append_of_pos _ isBlank cs [] h
  rwa [List.append_nil] at hdrop

theorem trim_of_isBlank {cs : List Char} (h : ∀ c ∈ cs, isBlank c = true) : trim cs = [] := by
  rw [trim, dropWhile_isBlank_eq_nil h]
  rfl

theorem trim_append_left {gap : List Char} (h : ∀ c ∈ gap, isBlank c = true) (cs : List Char) :
    trim (gap ++ cs) = trim cs := by
  rw [trim, List.dropWhile_append_of_pos h, ← trim]

theorem trim_append_right {gap : List Char} (h : ∀ c ∈ gap, isBlank c = true) (cs : List Char) :
    trim (cs ++ gap) = trim cs := by
  have hreverse : ∀ c ∈ gap.reverse, isBlank c = true := fun c hc => h c (List.mem_reverse.mp hc)
  rw [trim, trim, List.dropWhile_append, dropWhile_isBlank_eq_nil h]
  split
  next hempty => rw [List.isEmpty_iff.mp hempty]
  next => rw [List.reverse_append, List.dropWhile_append_of_pos hreverse]

/-- What begins with a character that is not blank begins with it after trimming. -/
theorem exists_trim_eq_cons {c : Char} (hc : isBlank c = false) (cs : List Char) :
    ∃ rest, trim (c :: cs) = c :: rest := by
  have hstop : [c].dropWhile isBlank = [c] := List.dropWhile_cons_of_neg (by simp [hc])
  rw [trim, List.dropWhile_cons_of_neg (by simp [hc]), List.reverse_cons, List.dropWhile_append]
  split
  · rw [hstop]
    exact ⟨[], rfl⟩
  · rw [List.reverse_append]
    exact ⟨_, rfl⟩

theorem dropWhile_isBlank_eq_self {cs : List Char} (hhead : ∀ c ∈ cs.head?, isBlank c = false) :
    cs.dropWhile isBlank = cs := by
  cases cs with
  | nil => rfl
  | cons c cs => exact List.dropWhile_cons_of_neg (by simp [hhead c rfl])

theorem trim_eq_self {cs : List Char} (hhead : ∀ c ∈ cs.head?, isBlank c = false)
    (hlast : ∀ c ∈ cs.getLast?, isBlank c = false) : trim cs = cs := by
  rw [trim, dropWhile_isBlank_eq_self hhead, dropWhile_isBlank_eq_self, List.reverse_reverse]
  rwa [List.head?_reverse]

/-! ## Joining -/

theorem toList_join (separator : String) (texts : List String) :
    (join separator texts).toList = separator.toList.intercalate (texts.map String.toList) := by
  fun_induction join separator texts with
  | case1 => simp
  | case2 text => simp
  | case3 text rest hrest ih =>
    obtain ⟨next, rest, rfl⟩ := List.exists_cons_of_ne_nil hrest
    simp [ih, List.intercalate_cons_cons]

theorem trimmedLines_join {texts : List String} (hne : texts ≠ [])
    (hline : ∀ text ∈ texts, '\n' ∉ text.toList) :
    trimmedLines (join "\n" texts).toList = texts.map fun text => trim text.toList := by
  have hlines : ∀ cs ∈ texts.map String.toList, '\n' ∉ cs := by
    intro cs hcs
    obtain ⟨text, htext, rfl⟩ := List.mem_map.mp hcs
    exact hline text htext
  have hsplit := List.splitOn_intercalate '\n' hlines (mt List.map_eq_nil_iff.mp hne)
  rw [trimmedLines, toList_join, show "\n".toList = ['\n'] from rfl, hsplit, List.map_map]
  rfl

end DiscreteOrdinates.Text
