import DiscreteOrdinates.Quadrature.IntervalRule

/-!
# Square Chebyshev-Legendre sets

Product sets in the plane: the levels are the nodes of a Gauss-Legendre rule in
`eta`, and each level holds equally weighted directions at the Chebyshev
azimuths of the half plane `xi > 0`.
-/

namespace DiscreteOrdinates

namespace ChebyshevLegendre

variable {R : Type} [Scalar R]

/-- The azimuth of direction `j` of a level. -/
def azimuth (order j : Nat) : R :=
  ((j : Nat) + 0.5) * Scalar.pi / (order : Nat)

/-- The directions of the level `eta`, descending in `mu`. -/
def level (order : Nat) (eta weight : R) : List (Ordinate R) :=
  let sinθ := Scalar.sqrt (Scalar.positivePart (1.0 - eta * eta))
  (List.range order).map fun j =>
    let φ := azimuth order j
    ⟨sinθ * Scalar.cos φ, eta, sinθ * Scalar.sin φ, weight⟩

/-- The table of the set over a rule in `eta`, with total weight `norm`. -/
def ofRule (order : Nat) (rule : IntervalRule R) (norm : R) : DirectionTable R :=
  let scale := norm / (2.0 * Scalar.pi) * Scalar.pi / (order : Nat)
  DirectionTable.ofRows
    ((rule.nodes.zip rule.weights).flatMap fun (eta, w) => level order eta (w * scale))

/-- The table of a square Chebyshev-Legendre set with `order` levels, over the rules
that it is made from. -/
def tableWith (solve : Nat → Except (QuadratureError R) (IntervalRule R)) (order : Nat) (norm : R) :
    Except (QuadratureError R) (DirectionTable R) := do
  require (2 ≤ order) (.unsupportedOrder .squareChebyshevLegendre order .tooFewLevels)
  return ofRule order (← solve order) norm

/-- The table of a square Chebyshev-Legendre set with `order` levels. -/
def table (order : Nat) (norm : R) : Except (QuadratureError R) (DirectionTable R) :=
  tableWith IntervalRule.gaussLegendre order norm

end ChebyshevLegendre

end DiscreteOrdinates
