import DiscreteOrdinates.Moments.Operators

/-!
# Moment operators as text
-/

namespace DiscreteOrdinates

namespace MomentOperators

/-- A line that sums up the operators. -/
def text (s : MomentOperators Float) : String :=
  s.model.name ++ " interpolation in " ++ toString s.dimension ++ "D, " ++
    toString s.ordinates.length ++ " angles, " ++ toString s.moments.length ++ " moments: " ++
    Text.join " " (s.moments.map MomentIndex.text)

/-- The summary and both matrices. -/
def report (s : MomentOperators Float) : String :=
  s.text ++ "\n" ++ s.toFlux.report "M" ++ s.toMoments.report "D"

end MomentOperators

end DiscreteOrdinates
