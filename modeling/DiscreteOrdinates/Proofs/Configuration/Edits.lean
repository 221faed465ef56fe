import DiscreteOrdinates.Proofs.Configuration.LetterCase
import DiscreteOrdinates.Proofs.Configuration.Acceptance

/-!
# Edits that do not matter

A block says the same after edits that keep each keyword line in its place among those of
its keyword: comments and blank lines, other blanks around a line, letters in the other
case, keyword lines in another order, and anything at all behind `end`. Main statement:
`ofBlock_eq_ok_iff_of_edits`.
-/

namespace DiscreteOrdinates

namespace Configuration

open Text (isBlank trim rawLines lower)

/-! ## Edits -/

/-- A line of blanks only, or a comment. -/
inductive IsSkipped : List Char → Prop
  | blank {line : List Char} (h : ∀ c ∈ line, isBlank c = true) : IsSkipped line
  | comment {gap rest : List Char} (h : ∀ c ∈ gap, isBlank c = true) :
    IsSkipped (gap ++ '#' :: rest)

/-- A keyword line, with blanks around it. -/
def IsStatement (line : List Char) : Prop :=
  ∃ l, KeywordLine (trim line) l

/-- Two lines with blanks before and behind the same text. -/
inductive Respaced : List Char → List Char → Prop
  | intro {before after before' after' : List Char} (cs : List Char)
    (hbefore : ∀ c ∈ before, isBlank c = true) (hafter : ∀ c ∈ after, isBlank c = true)
    (hbefore' : ∀ c ∈ before', isBlank c = true) (hafter' : ∀ c ∈ after', isBlank c = true) :
    Respaced (before ++ (cs ++ after)) (before' ++ (cs ++ after'))

theorem Respaced.refl (line : List Char) : Respaced line line := by
  simpa using @Respaced.intro [] [] [] [] line nofun nofun nofun nofun

/-- The word that a line begins with, in small letters. -/
def firstWord (line : List Char) : List Char :=
  lower ((trim line).takeWhile fun c => !isGap c)

/-- A change of a text that does not matter to what it says as a block. -/
inductive Edit (text text' : String) : Prop
  | insert {front back : List (List Char)} {line : List Char} (hline : IsSkipped line)
    (h : rawLines text = front ++ back) (h' : rawLines text' = front ++ line :: back)
  | respace (h : List.Forall₂ Respaced (rawLines text) (rawLines text'))
  | recase (h : lower text.toList = lower text'.toList)
  -- Lines of one keyword stay in order among themselves.
  | reorder {front lines lines' back : List (List Char)}
    (hlines : ∀ line ∈ lines, IsSkipped line ∨ IsStatement line) (hperm : lines.Perm lines')
    (horder : ∀ keyword ∈ keywords, lines.filter (firstWord · = keyword.toList) =
      lines'.filter (firstWord · = keyword.toList))
    (h : rawLines text = front ++ (lines ++ back)) (h' : rawLines text' = front ++ (lines' ++ back))
  | replaceRest {front rest rest' : List (List Char)} {line : List Char} (hend : IsEnd (trim line))
    (h : rawLines text = front ++ line :: rest) (h' : rawLines text' = front ++ line :: rest')

/-! ## Keywords -/

/-- The keyword that a line has. -/
def Line.keyword? : Line → Option String
  | .order _ => some "order"
  | .dimension _ => some "dimension"
  | .norm _ => some "norm"
  | .levels _ => some "levels"
  | .finish => none

theorem KeywordLine.exists_keywordText {cs : List Char} {l : Line} (h : KeywordLine cs l) :
    ∃ keyword ∈ keywords, l.keyword? = some keyword ∧ ∃ value, KeywordText keyword value cs := by
  cases h with
  | order h => exact ⟨_, by decide, rfl, _, h⟩
  | dimension h => exact ⟨_, by decide, rfl, _, h⟩
  | norm h => exact ⟨_, by decide, rfl, _, h⟩
  | levels h => exact ⟨_, by decide, rfl, _, h⟩

/-- A keyword line is neither empty nor a comment. -/
theorem KeywordLine.head?_ne {cs : List Char} {l : Line} (h : KeywordLine cs l) :
    cs ≠ [] ∧ cs.head? ≠ some '#' := by
  obtain ⟨keyword, hkeyword, -, value, htext⟩ := h.exists_keywordText
  have hletters : ∀ keyword ∈ keywords,
      keyword.toList.head? ≠ none ∧ keyword.toList.head? ≠ some '#' := by decide
  obtain ⟨hnone, hcomment⟩ := hletters keyword hkeyword
  rw [← htext.head?_lower hkeyword, lower, List.head?_map] at hnone hcomment
  constructor
  · rintro rfl
    exact hnone rfl
  · intro hcs
    rw [hcs] at hcomment
    exact hcomment rfl

/-- No keyword begins the name of a family. -/
theorem KeywordLine.not_namesFamily {cs : List Char} {l : Line} (h : KeywordLine cs l)
    (family : Family) : ¬NamesFamily cs family := by
  intro hfamily
  obtain ⟨keyword, hkeyword, -, value, hword, -, -⟩ := h.exists_keywordText
  have hnames : (keywords.all fun keyword => Family.all.all fun family =>
      !keyword.toList.isPrefixOf (lower family.name.toList)) = true := by decide
  simp only [List.all_eq_true, Bool.not_eq_true'] at hnames
  have hname := hnames keyword hkeyword family (by cases family <;> decide)
  rw [NamesFamily, lower, List.map_append, ← lower, hword] at hfamily
  rw [← hfamily, Bool.eq_false_iff, ne_eq, List.isPrefixOf_iff_prefix] at hname
  exact hname (List.prefix_append _ _)

theorem IsEnd.head?_ne {cs : List Char} (h : IsEnd cs) : cs ≠ [] ∧ cs.head? ≠ some '#' := by
  have hhead : (lower cs).head? = some 'e' := congrArg List.head? h
  rw [lower, List.head?_map] at hhead
  constructor
  · rintro rfl
    cases hhead
  · intro hcs
    rw [hcs] at hhead
    exact absurd hhead (by decide)

theorem IsEnd.not_namesFamily {cs : List Char} (h : IsEnd cs) (family : Family) :
    ¬NamesFamily cs family := by
  rw [NamesFamily, h]
  cases family <;> decide

/-! ## Significant lines -/

/-- The lines that say something, trimmed. -/
def significant (lines : List (List Char)) : List (List Char) :=
  (lines.map trim).filter fun line => line ≠ [] ∧ line.head? ≠ some '#'

theorem significantLines_toList (text : String) :
    significantLines text.toList = significant (rawLines text) :=
  significantLines_eq _

theorem significant_append (lines lines' : List (List Char)) :
    significant (lines ++ lines') = significant lines ++ significant lines' := by
  rw [significant, List.map_append, List.filter_append, ← significant, ← significant]

theorem IsSkipped.trim_eq {line : List Char} (h : IsSkipped line) :
    trim line = [] ∨ (trim line).head? = some '#' := by
  cases h with
  | blank h => exact .inl (Text.trim_of_isBlank h)
  | @comment gap rest h =>
    obtain ⟨rest, hrest⟩ := Text.exists_trim_eq_cons (by decide : isBlank '#' = false) rest
    rw [Text.trim_append_left h, hrest]
    exact .inr rfl

theorem significant_cons_of_isSkipped {line : List Char} (h : IsSkipped line)
    (lines : List (List Char)) : significant (line :: lines) = significant lines := by
  rw [significant, List.map_cons, List.filter_cons_of_neg, ← significant]
  simpa [imp_iff_not_or] using h.trim_eq

theorem significant_cons {line : List Char} (h : trim line ≠ [] ∧ (trim line).head? ≠ some '#')
    (lines : List (List Char)) : significant (line :: lines) = trim line :: significant lines := by
  rw [significant, List.map_cons, List.filter_cons_of_pos (by simpa using h), ← significant]

/-- What lines among a block say. -/
def saidBy (lines : List (List Char)) : List Line :=
  (lines.map trim).filterMap Line.read

theorem IsSkipped.read_eq_none {line : List Char} (h : IsSkipped line) :
    Line.read (trim line) = none := by
  refine Option.eq_none_iff_forall_ne_some.mpr fun l hl => ?_
  have hne : trim line ≠ [] ∧ (trim line).head? ≠ some '#' := by
    rcases Line.read_eq_some_iff.mp hl with hline | ⟨hend, -⟩
    · exact hline.head?_ne
    · exact hend.head?_ne
  exact h.trim_eq.elim hne.1 hne.2

theorem isStatement_of_read {line : List Char} {l : Line} (h : Line.read (trim line) = some l)
    (hl : l ≠ .finish) : IsStatement line :=
  ⟨l, (Line.read_eq_some_iff.mp h).resolve_right fun hend => hl hend.2⟩

/-- Lines that are skipped or say something are a run of keyword lines. -/
theorem forall₂_saidBy {lines : List (List Char)}
    (h : ∀ line ∈ lines, IsSkipped line ∨ IsStatement line) :
    List.Forall₂ KeywordLine (significant lines) (saidBy lines) := by
  induction lines with
  | nil => exact .nil
  | cons line lines ih =>
    obtain ⟨hline, hlines⟩ := List.forall_mem_cons.mp h
    rw [saidBy, List.map_cons]
    rcases hline with hskipped | ⟨l, hl⟩
    · rw [significant_cons_of_isSkipped hskipped, List.filterMap_cons_none hskipped.read_eq_none]
      exact ih hlines
    · rw [significant_cons hl.head?_ne,
        List.filterMap_cons_some (Line.read_eq_some_iff.mpr (.inl hl))]
      exact .cons hl (ih hlines)

/-! ## Order of the keyword lines -/

theorem KeywordText.lower_takeWhile {keyword : String} (hkeyword : keyword ∈ keywords)
    {value cs : List Char} (h : KeywordText keyword value cs) :
    lower (cs.takeWhile fun c => !isGap c) = keyword.toList := by
  have hletters : (keywords.all fun keyword => keyword.toList.all fun c => !isGap c) = true := by
    decide
  simp only [List.all_eq_true, Bool.not_eq_true'] at hletters
  obtain @⟨word, gaps, hword, hne, hgaps⟩ := h
  -- The word ends where the gaps begin, since no letter is a gap.
  have hfirst : ∀ c ∈ word, (!isGap c) = true := by
    intro c hc
    have hsmall : c.toLower ∈ keyword.toList := hword ▸ List.mem_map_of_mem hc
    have hgap := hletters keyword hkeyword _ hsmall
    refine Bool.not_eq_true' _ ▸ Bool.eq_false_iff.mpr fun hc => ?_
    rcases isGap_iff.mp hc with rfl | rfl <;> exact absurd hgap (by decide)
  obtain ⟨g, gaps, rfl⟩ := List.exists_cons_of_ne_nil hne
  have hg : isGap g = true := isGap_iff.mpr (hgaps g List.mem_cons_self)
  rw [List.takeWhile_append_of_pos hfirst, List.cons_append, List.takeWhile_cons_of_neg (by simp [hg]),
    List.append_nil, hword]

/-- The last value of a keyword depends on the lines of this keyword, in their order. -/
theorem last_saidBy_congr {α : Type} {value? : Line → Option α} {keyword : String}
    (hkeyword : keyword ∈ keywords)
    (hvalue : ∀ l, value? l ≠ none → l.keyword? = some keyword)
    {lines lines' : List (List Char)}
    (horder : lines.filter (firstWord · = keyword.toList) =
      lines'.filter (firstWord · = keyword.toList)) :
    last value? (saidBy lines) = last value? (saidBy lines') := by
  have hvalues : ∀ lines, (saidBy lines).filterMap value? =
      (lines.filter (firstWord · = keyword.toList)).filterMap
        fun line => (Line.read (trim line)).bind value? := by
    intro lines
    rw [saidBy, List.filterMap_filterMap, List.filterMap_map, List.filterMap_filter]
    refine List.filterMap_congr fun line _ => ?_
    dsimp only [Function.comp_apply]
    -- A line without this keyword states no value of the kind.
    split
    next => rfl
    next hword =>
      rw [decide_eq_true_iff] at hword
      refine Option.bind_eq_none_iff.mpr fun l hl => ?_
      by_contra hne
      have hof := hvalue l hne
      rcases Line.read_eq_some_iff.mp hl with hline | ⟨-, rfl⟩
      · obtain ⟨other, -, hother, value, htext⟩ := hline.exists_keywordText
        obtain rfl := Option.some.inj (hother.symm.trans hof)
        exact hword (htext.lower_takeWhile hkeyword)
      · cases hof
  rw [last, last, hvalues, hvalues, horder]

/-- Keyword lines that keep their order among those of their keyword come to the same. -/
theorem readLines_reorder {lines lines' : List (List Char)}
    (hlines : ∀ line ∈ lines, IsSkipped line ∨ IsStatement line) (hperm : lines.Perm lines')
    (horder : ∀ keyword ∈ keywords, lines.filter (firstWord · = keyword.toList) =
      lines'.filter (firstWord · = keyword.toList))
    (c : Configuration Float) (order : Option ℕ) (rest : List (List Char)) :
    readLines c order (significant lines ++ rest) =
      readLines c order (significant lines' ++ rest) := by
  have hlines' : ∀ line ∈ lines', IsSkipped line ∨ IsStatement line := fun line hline =>
    hlines line (hperm.mem_iff.mpr hline)
  have hof : last Line.order? (saidBy lines) = last Line.order? (saidBy lines') :=
    last_saidBy_congr (by decide) (fun l => by cases l <;> simp [Line.order?, Line.keyword?])
      (horder "order" (by decide))
  have hdimension : last Line.dimension? (saidBy lines) = last Line.dimension? (saidBy lines') :=
    last_saidBy_congr (by decide) (fun l => by cases l <;> simp [Line.dimension?, Line.keyword?])
      (horder "dimension" (by decide))
  have hnorm : last Line.norm? (saidBy lines) = last Line.norm? (saidBy lines') :=
    last_saidBy_congr (by decide) (fun l => by cases l <;> simp [Line.norm?, Line.keyword?])
      (horder "norm" (by decide))
  have hlevels : last Line.levels? (saidBy lines) = last Line.levels? (saidBy lines') :=
    last_saidBy_congr (by decide) (fun l => by cases l <;> simp [Line.levels?, Line.keyword?])
      (horder "levels" (by decide))
  rw [readLines_append _ _ _ (forall₂_saidBy hlines), readLines_append _ _ _ (forall₂_saidBy hlines'),
    hof, hdimension, hnorm, hlevels]

/-! ## Reading an edited block -/

variable {text text' : String} {c : Configuration Float}

theorem ofBlock_of_significant {first : List Char} {rest : List (List Char)}
    (h : significant (rawLines text) = first :: rest) :
    ofBlock text = (readFamily first).elim (.error (.malformedLine (String.ofList first)))
      fun family => readLines { family, order := 0 } none rest := by
  rw [ofBlock, significantLines_toList, h]
  cases hfirst : readFamily first <;> simp only [hfirst] <;> rfl

/-- A text that begins with no family is not read. -/
theorem ofBlock_ne_ok (h : ∀ first ∈ (significant (rawLines text)).head?,
    ∀ family, ¬NamesFamily first family) : ofBlock text ≠ .ok c := by
  cases hlines : significant (rawLines text) with
  | nil =>
    rw [ofBlock, significantLines_toList, hlines]
    exact nofun
  | cons first rest =>
    rw [ofBlock_of_significant hlines, readFamily_eq_none (h first (by rw [hlines]; rfl))]
    exact nofun

theorem readLines_append_congr {back back' : List (List Char)}
    (h : ∀ c order, readLines c order back = readLines c order back') (c : Configuration Float)
    (order : Option ℕ) (front : List (List Char)) :
    readLines c order (front ++ back) = readLines c order (front ++ back') := by
  induction front generalizing c order with
  | nil => exact h c order
  | cons line front ih =>
    rw [List.cons_append, List.cons_append]
    cases hl : Line.read line with
    | none =>
      rw [readLines.eq_def, readLines.eq_def c order (line :: _)]
      simp only [hl]
    | some l =>
      rw [readLines_cons _ _ hl, readLines_cons _ _ hl]
      cases l with
      | finish => rfl
      | _ => exact ih _ _

/-- Behind the name of the family, lines give way to others that are read in the same way. -/
theorem ofBlock_eq_ok_iff_of_append {front back back' : List (List Char)}
    (h : significant (rawLines text) = front ++ back)
    (h' : significant (rawLines text') = front ++ back')
    (hread : ∀ c order, readLines c order back = readLines c order back')
    (hback : ∀ first ∈ back.head?, ∀ family, ¬NamesFamily first family)
    (hback' : ∀ first ∈ back'.head?, ∀ family, ¬NamesFamily first family) :
    ofBlock text = .ok c ↔ ofBlock text' = .ok c := by
  cases front with
  | nil => exact iff_of_false (ofBlock_ne_ok (h ▸ hback)) (ofBlock_ne_ok (h' ▸ hback'))
  | cons first front =>
    rw [ofBlock_of_significant h, ofBlock_of_significant h']
    cases readFamily first with
    | none => rfl
    | some family =>
      rw [Option.elim_some, Option.elim_some]
      exact iff_of_eq (congrArg (· = _) (readLines_append_congr hread _ _ _))

/-! ## Single edits -/

theorem ofBlock_of_significant_eq (h : significant (rawLines text) = significant (rawLines text')) :
    ofBlock text = ofBlock text' := by
  rw [ofBlock, ofBlock, significantLines_toList, significantLines_toList, h]

theorem Respaced.trim_eq {line line' : List Char} (h : Respaced line line') :
    trim line = trim line' := by
  obtain @⟨before, after, before', after', cs, hbefore, hafter, hbefore', hafter'⟩ := h
  rw [Text.trim_append_left hbefore, Text.trim_append_right hafter, Text.trim_append_left hbefore',
    Text.trim_append_right hafter']

theorem significant_of_respaced {lines lines' : List (List Char)}
    (h : List.Forall₂ Respaced lines lines') : significant lines = significant lines' := by
  have htrim : lines.map trim = lines'.map trim := by
    induction h with
    | nil => rfl
    | cons hline _ ih => rw [List.map_cons, List.map_cons, hline.trim_eq, ih]
  rw [significant, significant, htrim]

theorem map_lower_significant (lines : List (List Char)) :
    (significant lines).map lower =
      ((lines.map trim).map lower).filter fun line => line ≠ [] ∧ line.head? ≠ some '#' := by
  rw [significant, List.filter_map (f := lower)]
  refine congrArg (List.map lower) (List.filter_congr fun line _ => ?_)
  have hempty : lower line = [] ↔ line = [] := List.map_eq_nil_iff
  have hcomment : (lower line).head? = some '#' ↔ line.head? = some '#' := by
    cases line with
    | nil => rfl
    | cons d line =>
      rw [lower, List.map_cons, List.head?_cons, List.head?_cons, Option.some_inj, Option.some_inj]
      refine ⟨fun hd => Text.eq_of_toLower_eq hd rfl, ?_⟩
      rintro rfl
      rfl
  simp only [Function.comp_apply, ne_eq, hempty, hcomment]

theorem readLines_recase {lines lines' : List (List Char)}
    (h : lines.map lower = lines'.map lower) (d : Configuration Float) (order : Option ℕ) :
    readLines d order lines = .ok c ↔ readLines d order lines' = .ok c := by
  induction lines generalizing lines' d order with
  | nil => rw [List.map_eq_nil_iff.mp h.symm]
  | cons line lines ih =>
    obtain ⟨line', lines', rfl, hline, hlines⟩ := List.map_eq_cons_iff.mp h.symm
    have hread := Line.read_congr hline
    cases hl : Line.read line with
    | none =>
      -- What is reported about the line differs in the case of letters.
      rw [readLines.eq_def, readLines.eq_def d order (line' :: _)]
      simp only [hl, hread, reduceCtorEq]
    | some l =>
      rw [readLines_cons _ _ hl, readLines_cons _ _ (hread.trans hl)]
      cases l with
      | finish => rfl
      | _ => exact ih hlines.symm _ _

theorem ofBlock_eq_ok_iff_of_recase (h : lower text.toList = lower text'.toList) :
    ofBlock text = .ok c ↔ ofBlock text' = .ok c := by
  have hlines : (significant (rawLines text)).map lower =
      (significant (rawLines text')).map lower := by
    rw [map_lower_significant, map_lower_significant]
    exact congrArg _ (Text.map_lower_trimmedLines h)
  cases hfirst : significant (rawLines text) with
  | nil =>
    rw [hfirst, List.map_nil, eq_comm, List.map_eq_nil_iff] at hlines
    rw [ofBlock_of_significant_eq (hfirst.trans hlines.symm)]
  | cons first rest =>
    rw [hfirst, eq_comm, List.map_cons] at hlines
    obtain ⟨first', rest', hfirst', hname, hrest⟩ := List.map_eq_cons_iff.mp hlines
    rw [ofBlock_of_significant hfirst, ofBlock_of_significant hfirst', readFamily_congr hname]
    cases readFamily first with
    | none => exact iff_of_false nofun nofun
    | some family => exact readLines_recase hrest.symm _ _

/-- A block cannot begin with a keyword line. -/
theorem not_namesFamily_of_forall₂ {lines : List (List Char)} {said : List Line} (hne : lines ≠ [])
    (h : List.Forall₂ KeywordLine lines said) (rest : List (List Char)) :
    ∀ first ∈ (lines ++ rest).head?, ∀ family, ¬NamesFamily first family := by
  cases h with
  | nil => exact absurd rfl hne
  | cons hfirst _ =>
    rintro first ⟨⟩
    exact hfirst.not_namesFamily

theorem ofBlock_eq_ok_iff_of_reorder {front lines lines' back : List (List Char)}
    (hlines : ∀ line ∈ lines, IsSkipped line ∨ IsStatement line) (hperm : lines.Perm lines')
    (horder : ∀ keyword ∈ keywords, lines.filter (firstWord · = keyword.toList) =
      lines'.filter (firstWord · = keyword.toList))
    (h : rawLines text = front ++ (lines ++ back))
    (h' : rawLines text' = front ++ (lines' ++ back)) :
    ofBlock text = .ok c ↔ ofBlock text' = .ok c := by
  have hlines' : ∀ line ∈ lines', IsSkipped line ∨ IsStatement line := fun line hline =>
    hlines line (hperm.mem_iff.mpr hline)
  have hsignificant : (significant lines).Perm (significant lines') := (hperm.map trim).filter _
  have hparts : ∀ lines, significant (front ++ (lines ++ back)) =
      significant front ++ (significant lines ++ significant back) := fun lines => by
    rw [significant_append, significant_append]
  by_cases hempty : significant lines = []
  · rw [hempty, List.nil_perm] at hsignificant
    have hequal : significant (rawLines text) = significant (rawLines text') := by
      rw [h, h', hparts, hparts, hempty, hsignificant]
    rw [ofBlock_of_significant_eq hequal]
  · have hempty' : significant lines' ≠ [] := fun hnil =>
      hempty (hnil ▸ hsignificant).eq_nil
    exact ofBlock_eq_ok_iff_of_append (h ▸ hparts lines) (h' ▸ hparts lines')
      (fun c order => readLines_reorder hlines hperm horder c order _)
      (not_namesFamily_of_forall₂ hempty (forall₂_saidBy hlines) _)
      (not_namesFamily_of_forall₂ hempty' (forall₂_saidBy hlines') _)

theorem ofBlock_eq_ok_iff_of_replaceRest {front rest rest' : List (List Char)} {line : List Char}
    (hend : IsEnd (trim line)) (h : rawLines text = front ++ line :: rest)
    (h' : rawLines text' = front ++ line :: rest') :
    ofBlock text = .ok c ↔ ofBlock text' = .ok c := by
  have hparts : ∀ rest, significant (front ++ line :: rest) =
      significant front ++ trim line :: significant rest := fun rest => by
    rw [significant_append, significant_cons hend.head?_ne]
  have hread : ∀ c order, readLines c order (trim line :: significant rest) =
      readLines c order (trim line :: significant rest') := fun c order => by
    rw [readLines_isEnd _ _ _ hend, readLines_isEnd _ _ _ hend]
  have hfamily : ∀ rest : List (List Char), ∀ first ∈ (trim line :: rest).head?,
      ∀ family, ¬NamesFamily first family := by
    rintro rest first ⟨⟩
    exact hend.not_namesFamily
  exact ofBlock_eq_ok_iff_of_append (h ▸ hparts rest) (h' ▸ hparts rest') hread (hfamily _)
    (hfamily _)

/-! ## Edits of a block -/

theorem Edit.ofBlock_eq_ok_iff (h : Edit text text') : ofBlock text = .ok c ↔ ofBlock text' = .ok c := by
  cases h with
  | insert hline h h' =>
    have hequal : significant (rawLines text) = significant (rawLines text') := by
      rw [h, h', significant_append, significant_append, significant_cons_of_isSkipped hline]
    rw [ofBlock_of_significant_eq hequal]
  | respace h => rw [ofBlock_of_significant_eq (significant_of_respaced h)]
  | recase h => exact ofBlock_eq_ok_iff_of_recase h
  | reorder hlines hperm horder h h' => exact ofBlock_eq_ok_iff_of_reorder hlines hperm horder h h'
  | replaceRest hend h h' => exact ofBlock_eq_ok_iff_of_replaceRest hend h h'

/-- After harmless edits, one after the other, a text is read if it was before, and as the
same configuration. -/
theorem ofBlock_eq_ok_iff_of_edits (h : Relation.ReflTransGen Edit text text') :
    ofBlock text = .ok c ↔ ofBlock text' = .ok c := by
  induction h with
  | refl => rfl
  | tail _ hedit ih => exact ih.trans hedit.ofBlock_eq_ok_iff

/-- One edit of each kind, one after the other. -/
theorem ofBlock_eq_ok_iff_of_edits_each_kind :
    ofBlock "#\nGeneral\nlevels 1\nlevels 2\n Order 4\nend\n?" =
      .ok { family := .general, order := 4, levels := some 2 } := by
  have hinsert : Edit "general\norder 4\nlevels 1\nlevels 2\nend"
      "#\ngeneral\norder 4\nlevels 1\nlevels 2\nend" :=
    @Edit.insert _ _ [] _ "#".toList (@IsSkipped.comment [] _ nofun) rfl rfl
  have hindented : Respaced "order 4".toList " order 4".toList :=
    @Respaced.intro [] [] [' '] [] "order 4".toList nofun nofun
      (List.forall_mem_singleton.mpr rfl) nofun
  have hrespace : Edit "#\ngeneral\norder 4\nlevels 1\nlevels 2\nend"
      "#\ngeneral\n order 4\nlevels 1\nlevels 2\nend" :=
    .respace (.cons (.refl _) (.cons (.refl _) (.cons hindented
      (.cons (.refl _) (.cons (.refl _) (.cons (.refl _) .nil))))))
  have hrecase : Edit "#\ngeneral\n order 4\nlevels 1\nlevels 2\nend"
      "#\nGeneral\n Order 4\nlevels 1\nlevels 2\nend" :=
    .recase (by decide)
  have hstatements : ∀ line ∈ [" Order 4".toList, "levels 1".toList, "levels 2".toList],
      IsSkipped line ∨ IsStatement line := by
    simp only [List.forall_mem_cons]
    exact ⟨.inr (isStatement_of_read (l := .order 4) rfl nofun),
      .inr (isStatement_of_read (l := .levels 1) rfl nofun),
      .inr (isStatement_of_read (l := .levels 2) rfl nofun), List.forall_mem_nil _⟩
  have hreorder : Edit "#\nGeneral\n Order 4\nlevels 1\nlevels 2\nend"
      "#\nGeneral\nlevels 1\nlevels 2\n Order 4\nend" :=
    @Edit.reorder _ _ ["#".toList, "General".toList] _ _ ["end".toList] hstatements
      ((List.Perm.swap _ _ _).trans (.cons _ (.swap _ _ _))) (by decide) rfl rfl
  have hreplace : Edit "#\nGeneral\nlevels 1\nlevels 2\n Order 4\nend"
      "#\nGeneral\nlevels 1\nlevels 2\n Order 4\nend\n?" :=
    @Edit.replaceRest _ _ ["#".toList, "General".toList, "levels 1".toList, "levels 2".toList,
      " Order 4".toList] [] ["?".toList] "end".toList rfl rfl rfl
  refine (ofBlock_eq_ok_iff_of_edits
    (.tail (.tail (.tail (.tail (.single hinsert) hrespace) hrecase) hreorder) hreplace)).mp ?_
  rfl

end Configuration

end DiscreteOrdinates
