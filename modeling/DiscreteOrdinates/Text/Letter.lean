import DiscreteOrdinates.Text.Blank

/-!
# Letter case

Folding of texts to compare them with names that consist of ASCII letters. Only
letters whose folded form is ASCII matter for such a comparison: in lower case
these are the ASCII capitals, in upper case the small ASCII letters together
with the long s and the dotless i.
-/

namespace DiscreteOrdinates.Text

/-- The small form of the ASCII letters. -/
def lower (cs : List Char) : List Char :=
  cs.map Char.toLower

/-- The capital form of a letter, as far as it is an ASCII letter. -/
def capital (c : Char) : Char :=
  if c = 'ſ' then 'S' else if c = 'ı' then 'I' else c.toUpper

/-- The capital form of the letters, as far as it is ASCII. -/
def upper (cs : List Char) : List Char :=
  cs.map capital

end DiscreteOrdinates.Text
