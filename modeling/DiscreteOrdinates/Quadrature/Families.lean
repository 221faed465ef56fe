import DiscreteOrdinates.Quadrature.ChebyshevLegendre
import DiscreteOrdinates.Quadrature.Closure
import DiscreteOrdinates.Quadrature.LevelSymmetric
import DiscreteOrdinates.Quadrature.UserOctant

/-!
# Families of sets

The constructors of quadrature sets. Each of them checks the closure of what it
returns. Those that are made from a Gauss-Legendre rule leave open where the rule
comes from, until they are given the iteration.
-/

namespace DiscreteOrdinates

namespace Quadrature

variable {R : Type} [Scalar R]

/-! ## Sets from a rule -/

section

variable (solve : Nat → Except (QuadratureError R) (IntervalRule R)) (order : Nat)
  (norm : Option R)

/-- The Gauss-Legendre set of any positive order, over the rules that it is made from. -/
def gaussLegendreWith : Except (QuadratureError R) (Quadrature R) := do
  let norm := norm.getD (defaultNorm 1)
  let rule ← solve order
  checked ⟨.gaussLegendre, order, norm, rule.toTable norm⟩

/-- The double Gauss set of an even order, over the rules that it is made from. -/
def doubleGaussWith : Except (QuadratureError R) (Quadrature R) := do
  let norm := norm.getD (defaultNorm 1)
  checked ⟨.doubleGauss, order, norm, ← IntervalRule.doubleGaussTableWith solve order norm⟩

/-- The square Chebyshev-Legendre set with `order` levels, over the rules that it is
made from. -/
def squareChebyshevLegendreWith : Except (QuadratureError R) (Quadrature R) := do
  let norm := norm.getD (defaultNorm 2)
  checked ⟨.squareChebyshevLegendre, order, norm, ← ChebyshevLegendre.tableWith solve order norm⟩

end

/-- The Gauss-Legendre set of any positive order. -/
def gaussLegendre (order : Nat) (norm : Option R) : Except (QuadratureError R) (Quadrature R) :=
  gaussLegendreWith IntervalRule.gaussLegendre order norm

/-- The double Gauss set of an even order. -/
def doubleGauss (order : Nat) (norm : Option R) : Except (QuadratureError R) (Quadrature R) :=
  doubleGaussWith IntervalRule.gaussLegendre order norm

/-- The square Chebyshev-Legendre set with `order` levels. -/
def squareChebyshevLegendre (order : Nat) (norm : Option R) :
    Except (QuadratureError R) (Quadrature R) :=
  squareChebyshevLegendreWith IntervalRule.gaussLegendre order norm

/-! ## Other sets -/

/-- The level symmetric set in the plane or in space. -/
def levelSymmetric [MatrixSolver R] (order dimension : Nat) (norm : Option R) :
    Except (QuadratureError R) (Quadrature R) :=
  let norm := norm.getD (defaultNorm dimension)
  match dimension with
  | 2 => do
    let octant ← LevelSymmetric.octant order
    checked ⟨.levelSymmetricPlane, order, norm, LevelSymmetric.planeTable octant norm⟩
  | 3 => do
    let octant ← LevelSymmetric.octant order
    checked ⟨.levelSymmetricSpace, order, norm, LevelSymmetric.spaceTable octant norm⟩
  | _ => .error (.unsupportedDimension .levelSymmetric dimension)

/-- A set that a user supplies completely. -/
def general (name : String) (dimension order levels : Nat) (norm : Option R)
    (table : DirectionTable R) : Except (QuadratureError R) (Quadrature R) := do
  let norm := norm.getD (defaultNorm dimension)
  checked ⟨.general name dimension levels, order, norm, ← table.checked dimension norm⟩

/-- A set in space that is reflected from an octant of a user. -/
def octant (table : DirectionTable R) (levels : Nat) (layout : Layout) (norm : Option R) :
    Except (QuadratureError R) (Quadrature R) := do
  let norm := norm.getD (defaultNorm 3)
  let (table, openInterval) ← UserOctant.table layout levels norm table
  checked ⟨.octant levels layout openInterval, levels, norm, table⟩

end Quadrature

end DiscreteOrdinates
