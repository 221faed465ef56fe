import DiscreteOrdinates.Configuration.Basic
import DiscreteOrdinates.Json.Number
import DiscreteOrdinates.Json.Reader

/-!
# Configuration documents

The JSON form of a configuration: an object with a member for each part, or an
array of the parts in order. Members that are not known are ignored.
-/

namespace DiscreteOrdinates

namespace Configuration

/-- The parts of a configuration by name. -/
def partNames : List String :=
  ["family", "order", "dimension", "norm", "levels", "class", "name", "ordinates"]

/-- The columns of a table by name. -/
def columnNames : List String :=
  Column.name <$> [.mu, .eta, .xi, .wt]

/-- Reads a part that may be absent or `null`. -/
def readOptional {α : Type} (read : Json → Option α) : Option Json → Option (Option α)
  | none | some .null => some none
  | some j => (read j).map some

/-- Reads a family by its name. -/
def familyOfJson (j : Json) : Option Family := do
  let name ← j.alternative?
  Family.all.find? (·.name == name)

/-- Reads a layout by its name. -/
def layoutOfJson (j : Json) : Option Layout := do
  let name ← j.alternative?
  Layout.all.find? (·.name == name)

/-- Reads a column of numbers. -/
def columnOfJson (j : Json) : Option (List Float) := do
  (← j.elements?).mapM Json.float?

/-- Reads a column that may be absent. -/
def optionalColumn : Option Json → Option (List Float)
  | none => some []
  | some j => columnOfJson j

/-- Reads a table of directions. -/
def tableOfJson (j : Json) : Option (DirectionTable Float) :=
  match j.fields? columnNames with
  | some [some mu, eta, xi, some wt] => do
    return {
      mu := ← columnOfJson mu
      eta := ← optionalColumn eta
      xi := ← optionalColumn xi
      wt := ← columnOfJson wt }
  | _ => none

/-- Reads a configuration. -/
def ofJson? (j : Json) : Option (Configuration Float) :=
  match j.fields? partNames with
  | some [some family, some order, dimension, norm, levels, layout, name, ordinates] => do
    return {
      family := ← familyOfJson family
      order := ← order.unsigned?
      dimension := ← readOptional Json.unsigned? dimension
      norm := ← readOptional Json.float? norm
      levels := ← readOptional Json.unsigned? levels
      layout := ← readOptional layoutOfJson layout
      name := ← readOptional Json.text? name
      ordinates := ← readOptional tableOfJson ordinates }
  | _ => none

/-- Reads a JSON text. -/
def ofDocument (text : String) : Except (QuadratureError Float) (Configuration Float) :=
  match (Json.ofText? text).bind ofJson? with
  | some c => .ok c
  | none => .error .malformedJson

/-- Reads the content of a file, if there is one. -/
def ofFile : (content : Option String) → Except (QuadratureError Float) (Configuration Float)
  | some text => ofDocument text
  | none => .error .unreadable

end Configuration

end DiscreteOrdinates
