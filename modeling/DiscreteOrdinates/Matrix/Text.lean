import DiscreteOrdinates.Decimal.Rounded
import DiscreteOrdinates.Matrix.Basic

/-!
# Matrices as text

One line for each row, entries in columns of twelve characters.
-/

namespace DiscreteOrdinates

namespace DenseMatrix

/-- The entries of a row in columns. -/
def rowText (xs : List Float) : String :=
  Text.join " " (xs.map fun x => Text.alignRight 12 (tableText x))

/-- The rows of a matrix, one on a line. -/
def text (A : DenseMatrix Float) : String :=
  String.join (A.toRows.map fun xs => rowText xs ++ "\n")

/-- A heading with the shape, and the numbered rows. -/
def report (A : DenseMatrix Float) (name : String) : String :=
  let heading := name ++ " (" ++ toString A.rows ++ " x " ++ toString A.cols ++ ")\n"
  let line (xs : List Float) (i : Nat) : String :=
    Text.alignRight 5 (toString i) ++ "  " ++ rowText xs ++ "\n"
  heading ++ String.join (A.toRows.zipIdx.map fun (xs, i) => line xs i)

end DenseMatrix

/-- The name of an operand. -/
def Operand.name : Operand → String
  | .entries => "matrix data"
  | .vector => "vector"
  | .rows => "matrix rows"
  | .moments => "moments"
  | .flux => "angular flux"

/-- The wording of a shape mismatch. -/
def ShapeMismatch.message (e : ShapeMismatch) : String :=
  "expected " ++ toString e.expected ++ " values for " ++ e.operand.name ++ ", found " ++
    toString e.found

end DiscreteOrdinates
