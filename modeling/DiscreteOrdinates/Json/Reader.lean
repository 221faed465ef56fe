import DiscreteOrdinates.Json.Value
import DiscreteOrdinates.Json.Token

/-!
# Reading JSON

A step for each token, over a stack of the arrays and objects that are still
open. The depth of nesting is not limited.
-/

namespace DiscreteOrdinates

namespace Json

/-- A member of an object. -/
abbrev Member := Option String × Json

/-- An array or object that is still open, its content read so far in reverse
order. -/
inductive Frame where
  | array (elements : List Json)
  | object (members : List Member) (key : Option String)

/-- What has been read and what may follow. -/
inductive Progress where
  /-- A value has to follow. -/
  | value (stack : List Frame)
  /-- An array has been opened. -/
  | openedArray (stack : List Frame)
  /-- An object has been opened. -/
  | openedObject (stack : List Frame)
  /-- A further key has to follow. -/
  | key (members : List Member) (stack : List Frame)
  /-- The colon behind a key has to follow. -/
  | colon (members : List Member) (key : Option String) (stack : List Frame)
  /-- A value is complete. -/
  | complete (value : Json) (stack : List Frame)

namespace Progress

/-- Takes the first token of a value. -/
def stepValue (stack : List Frame) : Token → Option Progress
  | .null => some (.complete .null stack)
  | .bool b => some (.complete (.bool b) stack)
  | .number l => some (.complete (.number l) stack)
  | .string s => some (.complete (.string s) stack)
  | .openArray => some (.openedArray stack)
  | .openObject => some (.openedObject stack)
  | _ => none

/-- Takes one token. -/
def step : Progress → Token → Option Progress
  | .value stack, token => stepValue stack token
  | .openedArray stack, .closeArray => some (.complete (.array []) stack)
  | .openedArray stack, token => stepValue (.array [] :: stack) token
  | .openedObject stack, .closeObject => some (.complete (.object []) stack)
  | .openedObject stack, .string k => some (.colon [] k stack)
  | .key members stack, .string k => some (.colon members k stack)
  | .colon members k stack, .colon => some (.value (.object members k :: stack))
  -- Behind a comma only a value or a key is taken, so none may come last.
  | .complete v (.array elements :: stack), .comma =>
    some (.value (.array (v :: elements) :: stack))
  | .complete v (.array elements :: stack), .closeArray =>
    some (.complete (.array (v :: elements).reverse) stack)
  | .complete v (.object members k :: stack), .comma => some (.key ((k, v) :: members) stack)
  | .complete v (.object members k :: stack), .closeObject =>
    some (.complete (.object ((k, v) :: members).reverse) stack)
  | _, _ => none

/-- The value that has been read, if nothing is left open. -/
def result? : Progress → Option Json
  | .complete v [] => some v
  | _ => none

end Progress

/-- The value that a list of tokens writes. -/
def ofTokens? (tokens : List Token) : Option Json := do
  let progress ← tokens.foldlM Progress.step (.value [])
  progress.result?

/-- The value that a text writes. -/
def ofText? (text : String) : Option Json := do
  ofTokens? (← Token.ofText? text.toList)

end Json

end DiscreteOrdinates
