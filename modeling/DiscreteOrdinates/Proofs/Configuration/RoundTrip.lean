import DiscreteOrdinates.Proofs.Configuration.Keywords
import DiscreteOrdinates.Proofs.Configuration.Acceptance

/-!
# Configurations and their blocks

The block that is written for a configuration reads as the same configuration. Its
lines say one thing each, apart from blanks, and are read one after the other into a
configuration with everything they state. Main statement: `ofBlock_text`.
-/

namespace DiscreteOrdinates

namespace Configuration

open Text (IsWord isBlank)

/-! ## Lines of a block -/

/-- A text is one line that says `line`, with nothing but blanks around it. -/
structure IsLine (text : String) (line : List Char) : Prop where
  newline_notMem : '\n' ∉ text.toList
  trim_eq : Text.trim text.toList = line
  significant : ∃ c cs, line = c :: cs ∧ c ≠ '#'

section

variable {texts : List String} {lines : List (List Char)} (h : List.Forall₂ IsLine texts lines)
include h

theorem newline_notMem_of_isLine : ∀ text ∈ texts, '\n' ∉ text.toList := by
  induction h with
  | nil => exact List.forall_mem_nil _
  | cons hline _ ih => exact List.forall_mem_cons.mpr ⟨hline.newline_notMem, ih⟩

theorem map_trim_of_isLine : texts.map (fun text => Text.trim text.toList) = lines := by
  induction h with
  | nil => rfl
  | cons hline _ ih => rw [List.map_cons, hline.trim_eq, ih]

theorem significant_of_isLine : ∀ line ∈ lines, ∃ c cs, line = c :: cs ∧ c ≠ '#' := by
  induction h with
  | nil => exact List.forall_mem_nil _
  | cons hline _ ih => exact List.forall_mem_cons.mpr ⟨hline.significant, ih⟩

theorem significantLines_join (hne : texts ≠ []) :
    significantLines (Text.join "\n" texts).toList = lines := by
  rw [significantLines, Text.trimmedLines_join hne (newline_notMem_of_isLine h),
    map_trim_of_isLine h, List.filter_eq_self]
  intro line hline
  obtain ⟨c, cs, rfl, hc⟩ := significant_of_isLine h line hline
  exact bne_iff_ne.mpr hc

end

/-- A family writes its name on a line of its own. -/
theorem isLine_family (family : Family) : IsLine family.name family.name.toList := by
  cases family <;> exact ⟨by decide, rfl, ⟨_, _, rfl, by decide⟩⟩

theorem isLine_end : IsLine "end" "end".toList :=
  ⟨by decide, rfl, ⟨_, _, rfl, by decide⟩⟩

section

variable {keyword : String} (hkeyword : keyword ∈ keywords)
include hkeyword

theorem trim_statement {value : List Char} (hvalue : IsWord value) :
    Text.trim (statement keyword value) = statement keyword value := by
  have hword := isWord_keyword keyword hkeyword
  have hhead : (statement keyword value).head? = keyword.toList.head? :=
    List.head?_append_of_ne_nil _ hword.ne_nil
  have hlast : (statement keyword value).getLast? = value.getLast? := by
    rw [statement, List.getLast?_append_cons, List.getLast?_cons_of_ne_nil hvalue.ne_nil]
  refine Text.trim_eq_self (fun c hc => ?_) fun c hc => ?_
  · rw [hhead] at hc
    exact hword.isBlank_eq_false c (List.mem_of_mem_head? hc)
  · rw [hlast] at hc
    exact hvalue.isBlank_eq_false c (List.mem_of_mem_getLast? hc)

theorem newline_notMem_statement {value : List Char} (hvalue : IsWord value) :
    '\n' ∉ statement keyword value := by
  have hnewline : isBlank '\n' ≠ false := by decide
  intro hmem
  rcases List.mem_append.mp hmem with hkey | hrest
  · exact hnewline ((isWord_keyword keyword hkeyword).isBlank_eq_false _ hkey)
  · rcases List.mem_cons.mp hrest with hspace | hval
    · exact absurd hspace (by decide)
    · exact hnewline (hvalue.isBlank_eq_false _ hval)

theorem isLine_statement {value : String} (hvalue : IsWord value.toList) :
    IsLine ("  " ++ keyword ++ " " ++ value) (statement keyword value.toList) := by
  have hcomment : keyword.toList.head? ≠ some '#' := by
    revert keyword
    decide
  have hspace : isBlank ' ' = true := by decide
  have htext : ("  " ++ keyword ++ " " ++ value).toList
      = ' ' :: ' ' :: statement keyword value.toList := by
    simp [statement]
  obtain ⟨k, ks, hks⟩ := List.exists_cons_of_ne_nil (isWord_keyword keyword hkeyword).ne_nil
  refine ⟨?_, ?_, k, ks ++ ' ' :: value.toList, ?_, ?_⟩
  · rw [htext]
    simpa using newline_notMem_statement hkeyword hvalue
  · rw [htext, Text.trim_cons_of_isBlank hspace, Text.trim_cons_of_isBlank hspace,
      trim_statement hkeyword hvalue]
  · rw [statement, hks, List.cons_append]
  · rw [hks] at hcomment
    exact fun heq => hcomment (congrArg some heq)

theorem isLine_optionalLine {value : Option String} (hvalue : ∀ text ∈ value, IsWord text.toList) :
    List.Forall₂ IsLine (optionalLine keyword value)
      (value.map fun text => statement keyword text.toList).toList := by
  cases value with
  | none => exact .nil
  | some text => exact .cons (isLine_statement hkeyword (hvalue text rfl)) .nil

end

/-! ## Reading a block -/

/-- What a block can state: no layout, name or ordinates, counts of 64 bits and a
finite norm. -/
structure FitsBlock (c : Configuration Float) : Prop where
  layout : c.layout = none
  name : c.name = none
  ordinates : c.ordinates = none
  order : c.order < UInt64.size
  dimension : ∀ n ∈ c.dimension, n < UInt64.size
  levels : ∀ n ∈ c.levels, n < UInt64.size
  norm : ∀ x ∈ c.norm, x.isFinite = true

/-- What the lines of a block say. -/
def statements (c : Configuration Float) : List (List Char) :=
  [c.family.name.toList, statement "order" (Decimal.digits c.order)]
    ++ (c.dimension.map fun n => statement "dimension" (Decimal.digits n)).toList
    ++ (c.norm.map fun x => statement "norm" (floatText x).toList).toList
    ++ (c.levels.map fun n => statement "levels" (Decimal.digits n)).toList
    ++ ["end".toList]

theorem isLine_counts {keyword : String} (hkeyword : keyword ∈ keywords) (count : Option ℕ) :
    List.Forall₂ IsLine (optionalLine keyword (count.map toString))
      (count.map fun n => statement keyword (Decimal.digits n)).toList := by
  have hline := @isLine_optionalLine keyword hkeyword (count.map toString) (by
    rintro text htext
    obtain ⟨n, -, rfl⟩ := Option.mem_map.mp htext
    exact toList_toString n ▸ isWord_digits n)
  simpa only [Option.map_map, Function.comp_def, toList_toString] using hline

theorem isLine_norm {norm : Option Float} (hnorm : ∀ x ∈ norm, x.isFinite = true) :
    List.Forall₂ IsLine (optionalLine "norm" (norm.map floatText))
      (norm.map fun x => statement "norm" (floatText x).toList).toList := by
  have hline := @isLine_optionalLine "norm" (by decide) (norm.map floatText) (by
    rintro text htext
    obtain ⟨x, hx, rfl⟩ := Option.mem_map.mp htext
    exact isWord_floatText (hnorm x hx))
  simpa only [Option.map_map, Function.comp_def] using hline

theorem isLine_order (n : ℕ) :
    IsLine ("  order " ++ toString n) (statement "order" (Decimal.digits n)) := by
  have hline := @isLine_statement "order" (by decide) (toString n) (by
    rw [toList_toString]
    exact isWord_digits n)
  rwa [toList_toString] at hline

theorem isLine_lines {c : Configuration Float} (h : c.FitsBlock) :
    List.Forall₂ IsLine c.lines c.statements := by
  have hfirst : List.Forall₂ IsLine [c.family.name, "  order " ++ toString c.order]
      [c.family.name.toList, statement "order" (Decimal.digits c.order)] :=
    .cons (isLine_family c.family) (.cons (isLine_order c.order) .nil)
  exact List.rel_append (List.rel_append (List.rel_append (List.rel_append hfirst
    (isLine_counts (by decide) c.dimension)) (isLine_norm h.norm))
    (isLine_counts (by decide) c.levels))
    (.cons isLine_end .nil)

/-- What the keyword lines of a block say. -/
def said (c : Configuration Float) : List Line :=
  [.order c.order]
    ++ (c.dimension.map .dimension).toList
    ++ (c.norm.map .norm).toList
    ++ (c.levels.map .levels).toList

theorem keywordLine_optional {α : Type} {value : Option α} {line : α → List Char} {l : α → Line}
    (h : ∀ a ∈ value, KeywordLine (line a) (l a)) :
    List.Forall₂ KeywordLine (value.map line).toList (value.map l).toList := by
  cases value with
  | none => exact .nil
  | some a => exact .cons (h a rfl) .nil

theorem exists_keywordLines {c : Configuration Float} (h : c.FitsBlock) :
    ∃ lines, c.statements = c.family.name.toList :: (lines ++ ["end".toList]) ∧
      List.Forall₂ KeywordLine lines c.said := by
  have horder : List.Forall₂ KeywordLine [statement "order" (Decimal.digits c.order)]
      [.order c.order] :=
    .cons (.order (keywordText_statement (by decide) _) (countText_digits h.order)) .nil
  have hdimension := @keywordLine_optional _ c.dimension _ _ fun n hn =>
    .dimension (keywordText_statement (by decide) _) (countText_digits (h.dimension n hn))
  have hnorm := @keywordLine_optional _ c.norm _ _ fun x hx =>
    .norm (keywordText_statement (by decide) _) (normText_floatText (h.norm x hx))
  have hlevels := @keywordLine_optional _ c.levels _ _ fun n hn =>
    .levels (keywordText_statement (by decide) _) (countText_digits (h.levels n hn))
  exact ⟨_, rfl,
    List.rel_append (List.rel_append (List.rel_append horder hdimension) hnorm) hlevels⟩

theorem readLines_statements {c : Configuration Float} (h : c.FitsBlock) :
    readLines { family := c.family, order := 0 } none c.statements.tail = .ok c := by
  have hend : IsEnd "end".toList := rfl
  obtain ⟨lines, hstatements, hlines⟩ := exists_keywordLines h
  rw [hstatements, List.tail_cons, readLines_append _ _ _ hlines, readLines_isEnd _ _ _ hend]
  obtain ⟨family, order, dimension, norm, levels, layout, name, ordinates⟩ := c
  obtain ⟨rfl, rfl, rfl, -⟩ := h
  cases dimension <;> cases norm <;> cases levels <;> rfl

theorem readFamily_name (family : Family) : readFamily family.name.toList = some family := by
  cases family <;> rfl

/-- The block of a configuration reads as the configuration, with the norm the same
bit for bit. -/
theorem ofBlock_text (c : Configuration Float) (h : c.FitsBlock) : ofBlock c.text = .ok c := by
  have hlines : significantLines c.text.toList = c.family.name.toList :: c.statements.tail :=
    significantLines_join (isLine_lines h) (List.cons_ne_nil _ _)
  rw [ofBlock, hlines]
  simp only [readFamily_name]
  exact readLines_statements h

/-- The largest count, and the negative float next to zero, which takes more than three
hundred places. -/
theorem ofBlock_text_extreme :
    let c : Configuration Float :=
      { family := .squareChebyshevLegendre, order := 18446744073709551615, dimension := some 2,
        norm := some (.ofBits 0x8000000000000001), levels := some 0 }
    c.FitsBlock ∧ ofBlock c.text = .ok c := by
  intro c
  have hfits : c.FitsBlock :=
    { layout := rfl, name := rfl, ordinates := rfl, order := by decide,
      dimension := by decide, levels := by decide, norm := by decide }
  exact ⟨hfits, ofBlock_text c hfits⟩

end Configuration

end DiscreteOrdinates
