import DiscreteOrdinates.Decimal.Rounded
import DiscreteOrdinates.Quadrature.Closure

/-!
# Quadrature sets as text

A heading, a line for each direction and the total weight.
-/

namespace DiscreteOrdinates

namespace Quadrature

/-- A line of the table: a label and four columns. -/
def tableLine (label : String) (columns : List String) : String :=
  Text.join " " (Text.alignRight 6 label :: columns.map (Text.alignRight 13))

/-- The heading of a set. -/
def heading (q : Quadrature Float) : String :=
  q.name ++ " S" ++ toString q.order ++ ": " ++ toString q.angles ++ " angles, " ++
    toString q.levels ++ " levels, norm " ++ tableText q.norm

/-- The table of a set. -/
def text (q : Quadrature Float) : String :=
  let row (o : Ordinate Float) (m : Nat) : String :=
    tableLine (toString m) ((o.cosines ++ [o.weight]).map tableText)
  let total := Text.alignRight 6 "sum" ++ " " ++ Text.alignRight 55 (tableText q.totalWeight)
  Text.join "\n"
    (q.heading :: tableLine "m" ["mu", "eta", "xi", "wt"] ::
      (q.table.rows.zipIdx.map fun (o, m) => row o m) ++ [total])

end Quadrature

end DiscreteOrdinates
