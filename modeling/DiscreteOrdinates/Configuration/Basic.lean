import DiscreteOrdinates.Quadrature.Families

/-!
# Configurations

What a user states about a quadrature set, and the set that follows from it.
-/

namespace DiscreteOrdinates

/-- The description of a quadrature set. What is left out takes a default. -/
structure Configuration (R : Type) where
  family : Family
  order : Nat
  /-- The default is that of the family. -/
  dimension : Option Nat := none
  /-- The default is that of the dimension. -/
  norm : Option R := none
  /-- The number of levels of a general set, its order by default. -/
  levels : Option Nat := none
  /-- The layout of an octant. A general set is complete without it. -/
  layout : Option Layout := none
  /-- The name of a general set. -/
  name : Option String := none
  /-- The directions of a general set. -/
  ordinates : Option (DirectionTable R) := none
  deriving BEq, Repr

namespace Configuration

variable {R : Type} [Scalar R] [MatrixSolver R]

/-- The name of a general set that was given none. -/
def defaultName : String := "General Quadrature"

/-- The dimension that was requested, or that of the family. -/
def requestedDimension (c : Configuration R) : Nat :=
  c.dimension.getD c.family.defaultDimension

/-- The dimension has to be the only one that there is. -/
def requireDimension (c : Configuration R) (dimension : Nat) : Except (QuadratureError R) Unit :=
  require (c.requestedDimension = dimension)
    (.unsupportedDimension c.family c.requestedDimension)

/-- The quadrature set that a configuration describes. -/
def build (c : Configuration R) : Except (QuadratureError R) (Quadrature R) :=
  match c.family with
  | .gaussLegendre => do
    c.requireDimension 1
    Quadrature.gaussLegendre c.order c.norm
  | .doubleGauss => do
    c.requireDimension 1
    Quadrature.doubleGauss c.order c.norm
  | .squareChebyshevLegendre => do
    c.requireDimension 2
    Quadrature.squareChebyshevLegendre c.order c.norm
  | .levelSymmetric => Quadrature.levelSymmetric c.order c.requestedDimension c.norm
  | .general =>
    let levels := c.levels.getD c.order
    match c.ordinates, c.layout with
    | none, _ => .error (.missingOrdinates c.family)
    | some table, some layout => do
      c.requireDimension 3
      Quadrature.octant table levels layout c.norm
    | some table, none =>
      Quadrature.general (c.name.getD defaultName) c.requestedDimension c.order levels c.norm table

end Configuration

end DiscreteOrdinates
