import DiscreteOrdinates.Proofs.Configuration.Grammar

/-!
# Accepted blocks

Which texts are read as a configuration, and what is reported about any other text. Keyword
lines are taken one after the other, so that the last one counts, and what is reported about
a block is the first thing that is wrong with it. Main statement: `ofBlock_eq_iff`.
-/

namespace DiscreteOrdinates

namespace Configuration

/-! ## Stated values -/

namespace Line

/-- The order that a line states. -/
def order? : Line → Option ℕ
  | .order n => some n
  | _ => none

/-- The dimension that a line states. -/
def dimension? : Line → Option ℕ
  | .dimension n => some n
  | _ => none

/-- The norm that a line states. -/
def norm? : Line → Option Float
  | .norm x => some x
  | _ => none

/-- The number of levels that a line states. -/
def levels? : Line → Option ℕ
  | .levels n => some n
  | _ => none

end Line

/-- The last value of a kind that is stated. -/
def last {α : Type} (value? : Line → Option α) (said : List Line) : Option α :=
  (said.filterMap value?).getLast?

theorem last_cons {α : Type} (value? : Line → Option α) (l : Line) (said : List Line) :
    last value? (l :: said) = (last value? said).or (value? l) := by
  unfold last
  cases h : value? l with
  | none => rw [List.filterMap_cons_none h, Option.or_none]
  | some a => rw [List.filterMap_cons_some h, List.getLast?_cons, Option.or_some]

theorem last_order?_eq_none_iff {said : List Line} :
    last Line.order? said = none ↔ ∀ n, Line.order n ∉ said := by
  rw [last, List.getLast?_eq_none_iff, List.filterMap_eq_nil_iff]
  constructor
  · intro h n hn
    cases h _ hn
  · intro h l hl
    cases l with
    | order n => exact absurd hl (h n)
    | _ => rfl

/-! ## Outcomes -/

/-- What the lines of a block are read as. What comes behind the line that decides it does
not matter. -/
inductive Outcome : List (List Char) → Except (QuadratureError Float) (Configuration Float) → Prop
  | noFamily : Outcome [] (.error (.missingKeyword .family))
  | unknownFamily {first : List Char} {rest : List (List Char)}
    (hfirst : ∀ family, ¬NamesFamily first family) :
    Outcome (first :: rest) (.error (.malformedLine (String.ofList first)))
  -- Before the first line that is no keyword line there is no `end` either.
  | malformed {first line : List Char} {before rest : List (List Char)} {family : Family}
    {said : List Line} (hfirst : NamesFamily first family)
    (hbefore : List.Forall₂ KeywordLine before said) (hend : ¬IsEnd line)
    (hline : ∀ l, ¬KeywordLine line l) :
    Outcome (first :: (before ++ line :: rest)) (.error (.malformedLine (String.ofList line)))
  | noEnd {first : List Char} {lines : List (List Char)} {family : Family} {said : List Line}
    (hfirst : NamesFamily first family) (hlines : List.Forall₂ KeywordLine lines said) :
    Outcome (first :: lines) (.error (.missingKeyword .finish))
  | noOrder {first line : List Char} {before rest : List (List Char)} {family : Family}
    {said : List Line} (hfirst : NamesFamily first family)
    (hbefore : List.Forall₂ KeywordLine before said) (hend : IsEnd line)
    (horder : ∀ n, Line.order n ∉ said) :
    Outcome (first :: (before ++ line :: rest)) (.error (.missingKeyword .order))
  | accepted {first line : List Char} {before rest : List (List Char)} {family : Family}
    {said : List Line} {n : ℕ} (hfirst : NamesFamily first family)
    (hbefore : List.Forall₂ KeywordLine before said) (hend : IsEnd line)
    (horder : last Line.order? said = some n) :
    Outcome (first :: (before ++ line :: rest))
      (.ok {
        family
        order := n
        dimension := last Line.dimension? said
        norm := last Line.norm? said
        levels := last Line.levels? said
        layout := none
        name := none
        ordinates := none })

/-- Lines are keyword lines up to the first one that is none. -/
theorem exists_said (lines : List (List Char)) :
    (∃ said, List.Forall₂ KeywordLine lines said) ∨
      ∃ before line rest said, lines = before ++ line :: rest ∧
        List.Forall₂ KeywordLine before said ∧ ∀ l, ¬KeywordLine line l := by
  induction lines with
  | nil => exact .inl ⟨[], .nil⟩
  | cons line lines ih =>
    by_cases hline : ∃ l, KeywordLine line l
    · obtain ⟨l, hl⟩ := hline
      rcases ih with ⟨said, hsaid⟩ | ⟨before, next, rest, said, rfl, hsaid, hnext⟩
      · exact .inl ⟨l :: said, .cons hl hsaid⟩
      · exact .inr ⟨line :: before, next, rest, l :: said, rfl, .cons hl hsaid, hnext⟩
    · exact .inr ⟨[], line, lines, [], rfl, .nil, not_exists.mp hline⟩

/-- Something is reported about every block. -/
theorem exists_outcome (lines : List (List Char)) : ∃ r, Outcome lines r := by
  cases lines with
  | nil => exact ⟨_, .noFamily⟩
  | cons first rest =>
    by_cases hfirst : ∃ family, NamesFamily first family
    · obtain ⟨family, hfamily⟩ := hfirst
      rcases exists_said rest with ⟨said, hsaid⟩ | ⟨before, line, rest, said, rfl, hsaid, hline⟩
      · exact ⟨_, .noEnd hfamily hsaid⟩
      · by_cases hend : IsEnd line
        · cases horder : last Line.order? said with
          | none => exact ⟨_, .noOrder hfamily hsaid hend (last_order?_eq_none_iff.mp horder)⟩
          | some n => exact ⟨_, .accepted hfamily hsaid hend horder⟩
        · exact ⟨_, .malformed hfamily hsaid hend hline⟩
    · exact ⟨_, .unknownFamily (not_exists.mp hfirst)⟩

/-! ## Reading -/

/-- One line that can be read. -/
theorem readLines_cons (c : Configuration Float) (order : Option ℕ) {line : List Char} {l : Line}
    (h : Line.read line = some l) (rest : List (List Char)) :
    readLines c order (line :: rest) =
      match l with
      | .order n => readLines c (some n) rest
      | .dimension n => readLines { c with dimension := some n } order rest
      | .norm x => readLines { c with norm := some x } order rest
      | .levels n => readLines { c with levels := some n } order rest
      | .finish =>
        match order with
        | some n => .ok { c with order := n }
        | none => .error (.missingKeyword .order) := by
  rw [readLines.eq_def]
  simp only [h]
  cases l <;> rfl

section

variable (c : Configuration Float) (order : Option ℕ) {line : List Char} (rest : List (List Char))

/-- Keyword lines add what they say, and a later one replaces what was said before it. -/
theorem readLines_append {lines : List (List Char)} {said : List Line}
    (h : List.Forall₂ KeywordLine lines said) :
    readLines c order (lines ++ rest) =
      readLines
        { c with
          dimension := (last Line.dimension? said).or c.dimension
          norm := (last Line.norm? said).or c.norm
          levels := (last Line.levels? said).or c.levels }
        ((last Line.order? said).or order) rest := by
  induction h generalizing c order with
  | nil => rfl
  | cons hline _ ih =>
    rw [List.cons_append, readLines_cons _ _ (Line.read_eq_some_iff.mpr (.inl hline))]
    -- What the first line states gives way to the later lines, as the old value does.
    simp only [last_cons, Option.or_assoc]
    cases hline with
    | order => exact ih c (some _)
    | dimension => exact ih { c with dimension := some _ } order
    | norm => exact ih { c with norm := some _ } order
    | levels => exact ih { c with levels := some _ } order

theorem readLines_malformed (hend : ¬IsEnd line) (hline : ∀ l, ¬KeywordLine line l) :
    readLines c order (line :: rest) = .error (.malformedLine (String.ofList line)) := by
  have hread : Line.read line = none := by
    refine Option.eq_none_iff_forall_ne_some.mpr fun l hl => ?_
    rcases Line.read_eq_some_iff.mp hl with h | ⟨h, -⟩
    · exact hline l h
    · exact hend h
  rw [readLines.eq_def]
  simp only [hread]

theorem readLines_isEnd (hend : IsEnd line) :
    readLines c order (line :: rest) =
      (order.elim (.error (.missingKeyword .order)) fun n => .ok { c with order := n }) := by
  rw [readLines_cons _ _ (Line.read_eq_some_iff.mpr (.inr ⟨hend, rfl⟩))]
  cases order <;> rfl

end

theorem significantLines_eq (cs : List Char) :
    significantLines cs =
      ((cs.splitOn '\n').map Text.trim).filter fun line => line ≠ [] ∧ line.head? ≠ some '#' := by
  refine List.filter_congr fun line _ => ?_
  cases line with
  | nil => rfl
  | cons c line => simp [bne, beq_eq_decide]

theorem readFamily_eq_none {cs : List Char} (h : ∀ family, ¬NamesFamily cs family) :
    readFamily cs = none :=
  Option.eq_none_iff_forall_ne_some.mpr fun family hfamily =>
    h family (readFamily_eq_some_iff.mp hfamily)

theorem ofBlock_of_outcome {text : String}
    {r : Except (QuadratureError Float) (Configuration Float)}
    (h : Outcome (significantLines text.toList) r) : ofBlock text = r := by
  unfold ofBlock
  generalize significantLines text.toList = lines at h
  cases h with
  | noFamily => rfl
  | unknownFamily hfirst => simp only [readFamily_eq_none hfirst]
  | malformed hfirst hbefore hend hline =>
    simp only [readFamily_eq_some_iff.mpr hfirst]
    rw [readLines_append _ _ _ hbefore, readLines_malformed _ _ _ hend hline]
  | @noEnd first lines family said hfirst hlines =>
    simp only [readFamily_eq_some_iff.mpr hfirst]
    -- Nothing is left behind the keyword lines.
    rw [← List.append_nil lines, readLines_append _ _ _ hlines]
    rfl
  | noOrder hfirst hbefore hend horder =>
    simp only [readFamily_eq_some_iff.mpr hfirst]
    rw [readLines_append _ _ _ hbefore, readLines_isEnd _ _ _ hend,
      last_order?_eq_none_iff.mpr horder]
    rfl
  | accepted hfirst hbefore hend horder =>
    simp only [readFamily_eq_some_iff.mpr hfirst]
    rw [readLines_append _ _ _ hbefore, readLines_isEnd _ _ _ hend, horder]
    simp only [Option.or_none]
    rfl

/-- A block is read as its outcome, and nothing else is: its lines are those of the text
without surrounding blanks, empty ones and comments left out. -/
theorem ofBlock_eq_iff (text : String)
    (r : Except (QuadratureError Float) (Configuration Float)) :
    ofBlock text = r ↔
      Outcome (((text.toList.splitOn '\n').map Text.trim).filter fun line =>
        line ≠ [] ∧ line.head? ≠ some '#') r := by
  rw [← significantLines_eq]
  constructor
  · rintro rfl
    obtain ⟨r, hr⟩ := exists_outcome (significantLines text.toList)
    rwa [ofBlock_of_outcome hr]
  · exact ofBlock_of_outcome

/-- Capitals, tabs and a keyword that is given twice. -/
example : ofBlock "# set\nSquare cl\n order 2\n\n ORDER\t 04 \nEnd\nnorm" =
    .ok { family := .squareChebyshevLegendre, order := 4 } := by
  rfl

/-- A line that is no keyword line is reported before everything that is missing. -/
example : ofBlock "gauss legendre\n  shape round" = .error (.malformedLine "shape round") := by
  rfl

end Configuration

end DiscreteOrdinates
