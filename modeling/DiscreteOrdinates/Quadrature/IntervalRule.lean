import DiscreteOrdinates.Harmonics.Legendre
import DiscreteOrdinates.Quadrature.Table

/-!
# Rules on an interval

Gauss-Legendre rules on `[-1, 1]`, from the roots of a Legendre polynomial, and
the double rule that puts one of them on each half of the interval. What is made
from roots leaves open how they are found, and what is made from a rule leaves
open where it comes from. Newton's iteration is used for both.
-/

namespace DiscreteOrdinates

/-- Nodes and weights of a rule on `[-1, 1]`. -/
structure IntervalRule (R : Type) where
  nodes : List R
  weights : List R
  deriving Repr

namespace IntervalRule

variable {R : Type} [Scalar R]

/-! ## Roots -/

/-- A step of this size ends the iteration. -/
def newtonTolerance : R := 1e-15

/-- How many steps are tried. -/
def newtonLimit : Nat := 100

/-- What one step of the iteration takes off `z`: the value of the Legendre
polynomial of degree `order` over its slope. -/
@[specialize] def newtonStep (order : Nat) (z : R) : R :=
  let values := Legendre.neighbours order z
  values.1 / Legendre.slope order z values.1 values.2

/-- Newton steps towards a root of the Legendre polynomial of degree `order`,
until one of them is small. -/
@[specialize] def newton (order : Nat) : (steps : Nat) → R → Option R
  | 0, _ => none
  | steps + 1, z =>
    let step := newtonStep order z
    if Scalar.abs step ≤ newtonTolerance then some (z - step) else newton order steps (z - step)

/-- The usual estimate of root number `i`, counted from the largest one. -/
def rootEstimate (order i : Nat) : R :=
  Scalar.cos (Scalar.pi * ((i : Nat) + 0.75) / ((order : Nat) + 0.5))

/-- Root number `i`, or none if the iteration does not settle. -/
@[specialize] def newtonRoot (order i : Nat) : Option R :=
  newton order newtonLimit (rootEstimate order i)

/-- The roots that are not negative, from the largest one, or none if one of them
is not found. `find` is told the order and the number of a root. -/
@[specialize] def rootsWith (find : Nat → Nat → Option R) (order : Nat) : Option (List R) :=
  (List.range ((order + 1) / 2)).mapM (find order)

/-- The roots that are not negative, from the largest one, or none if the
iteration does not settle. -/
@[specialize] def roots (order : Nat) : Option (List R) :=
  rootsWith newtonRoot order

/-! ## Gauss-Legendre -/

/-- The weight of a root, `2 / ((1 - z²) P' z ²)`. -/
def weight (order : Nat) (z : R) : R :=
  -- The slope is always taken at the root, without a test whether the value there is finite.
  -- The step that ends the iteration starts from a finite value and is too short to leave them.
  let (p, previous) := Legendre.neighbours order z
  let slope := Legendre.slope order z p previous
  2.0 / ((1.0 - z * z) * slope * slope)

/-- The rule whose nodes are the given roots and their negatives, ascending. The
central node of an odd order is zero. -/
def ofRoots (order : Nat) (roots : List R) : IntervalRule R :=
  -- Of an odd order the last root is the central one, which only has its weight taken.
  let outer := roots.take (order / 2)
  let centre : List R := if order % 2 = 1 then [0.0] else []
  { nodes := outer.map (- ·) ++ centre ++ outer.reverse
    weights := roots.map (weight order) ++ (outer.map (weight order)).reverse }

/-- The Gauss-Legendre rule of any positive order, over what finds its roots. -/
@[specialize] def gaussLegendreWith (find : Nat → Nat → Option R) (order : Nat) :
    Except (QuadratureError R) (IntervalRule R) := do
  require (0 < order) (.unsupportedOrder .gaussLegendre order .notPositive)
  match rootsWith find order with
  | some roots => return ofRoots order roots
  | none => .error (.newtonIteration order)

/-- The Gauss-Legendre rule of any positive order. -/
@[specialize] def gaussLegendre (order : Nat) : Except (QuadratureError R) (IntervalRule R) :=
  gaussLegendreWith newtonRoot order

/-- A rule as the table of a set with total weight `norm`. -/
def toTable (rule : IntervalRule R) (norm : R) : DirectionTable R :=
  let scale := norm / 2.0
  { mu := rule.nodes, wt := rule.weights.map (· * scale) }

/-! ## Double Gauss -/

/-- A rule on `[0, 1]` and its reflection on `[-1, 0]`, each of them a copy of the
given rule, as the table of a set with total weight `norm`. -/
def toDoubleTable (rule : IntervalRule R) (norm : R) : DirectionTable R :=
  let scale := norm / 2.0
  let mu := rule.nodes.map fun x => 0.5 * (1.0 + x)
  let wt := rule.weights.map fun w => 0.5 * w * scale
  { mu := (mu.map (- ·)).reverse ++ mu, wt := wt.reverse ++ wt }

/-- The table of a double Gauss set, over the rules that it is made from. Each half
carries half of the directions, so the order is even. -/
def doubleGaussTableWith (solve : Nat → Except (QuadratureError R) (IntervalRule R))
    (order : Nat) (norm : R) : Except (QuadratureError R) (DirectionTable R) := do
  require (2 ≤ order ∧ order % 2 = 0) (.unsupportedOrder .doubleGauss order .notEvenFromTwo)
  return (← solve (order / 2)).toDoubleTable norm

/-- The table of a double Gauss set. -/
def doubleGaussTable (order : Nat) (norm : R) : Except (QuadratureError R) (DirectionTable R) :=
  doubleGaussTableWith gaussLegendre order norm

end IntervalRule

end DiscreteOrdinates
