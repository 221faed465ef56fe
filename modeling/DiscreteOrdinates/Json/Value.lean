import DiscreteOrdinates.Decimal.Literal

/-!
# JSON values

The tree that a JSON text stands for, and the readings of its leaves that
configurations use. Numbers stay literals, because integers, floats and ignored
values put different demands on them.
-/

namespace DiscreteOrdinates

/-- A JSON value. A string that holds half of a surrogate pair is well formed
but denotes no text. -/
inductive Json where
  | null
  | bool (value : Bool)
  | number (value : Literal)
  | string (value : Option String)
  | array (elements : List Json)
  | object (members : List (Option String × Json))

namespace Json

/-- The text of a string. -/
def text? : Json → Option String
  | .string value => value
  | _ => none

/-- The elements of an array. -/
def elements? : Json → Option (List Json)
  | .array elements => some elements
  | _ => none

/-- A natural number below `2 ^ 64`, written without sign, point or power of
ten. -/
def unsigned? : Json → Option Nat
  | .number ⟨false, whole, [], none⟩ =>
    let n := Decimal.ofDigits whole
    if n < UInt64.size then some n else none
  | _ => none

/-- The members of an object by name, in the order of `names`; an absent one is
`none`. Unknown members are left out. Every key has to be a text, and no known
key may be repeated. An array lists the members by position instead. -/
def fields? (names : List String) : Json → Option (List (Option Json))
  | .object members =>
    let known (name : String) := members.filter fun m => m.1 == some name
    if members.all (·.1.isSome) ∧ names.all fun name => (known name).length ≤ 1 then
      some (names.map fun name => (known name).head?.map (·.2))
    else none
  | .array elements =>
    if elements.length ≤ names.length then
      some (elements.map some ++ List.replicate (names.length - elements.length) none)
    else none
  | _ => none

/-- The name of an alternative without content: its text, or an object that maps
the text to `null`. -/
def alternative? : Json → Option String
  | .string value => value
  | .object [(name, .null)] => name
  | _ => none

end Json

end DiscreteOrdinates
