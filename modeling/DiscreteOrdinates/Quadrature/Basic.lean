import DiscreteOrdinates.Quadrature.Table

/-!
# Quadrature sets

A set is a table of directions together with its kind, its order and the norm
that its weights sum to. The kind fixes name, family, dimension and layout.
-/

namespace DiscreteOrdinates

/-- How a set came about, with what is particular to it. -/
inductive SetKind where
  | gaussLegendre
  | doubleGauss
  | levelSymmetricPlane
  | levelSymmetricSpace
  | squareChebyshevLegendre
  | general (name : String) (dimension levels : Nat)
  | octant (levels : Nat) (layout : Layout) (openInterval : Bool)
  deriving DecidableEq, Repr

/-- A discrete ordinates quadrature set. -/
structure Quadrature (R : Type) where
  kind : SetKind
  order : Nat
  norm : R
  table : DirectionTable R
  deriving Repr

/-- The norm of a set for which none is requested: the measure of the interval,
of the half sphere or of the sphere. -/
def defaultNorm {R : Type} [Scalar R] (dimension : Nat) : R :=
  match dimension with
  | 1 => 2.0
  | 2 => 2.0 * Scalar.pi
  | _ => 4.0 * Scalar.pi

namespace SetKind

/-- The official name of the set. -/
def name : SetKind → String
  | gaussLegendre => "1D Gauss Legendre"
  | doubleGauss => "1D Double Gauss"
  | levelSymmetricPlane => "2D Level Symmetric"
  | levelSymmetricSpace => "3D Level Symmetric"
  | squareChebyshevLegendre => "2D Square Chebyshev Legendre"
  | general name _ _ => name
  | octant .. => "General Octant Quadrature"

/-- The family that the set belongs to. -/
def family : SetKind → Family
  | gaussLegendre => .gaussLegendre
  | doubleGauss => .doubleGauss
  | levelSymmetricPlane | levelSymmetricSpace => .levelSymmetric
  | squareChebyshevLegendre => .squareChebyshevLegendre
  | general .. | octant .. => .general

/-- The dimension of the set. -/
def dimension : SetKind → Nat
  | gaussLegendre | doubleGauss => 1
  | levelSymmetricPlane | squareChebyshevLegendre => 2
  | levelSymmetricSpace | octant .. => 3
  | general _ dimension _ => dimension

/-- How the directions are laid out over the levels. -/
def layout : SetKind → Layout
  | gaussLegendre | doubleGauss => .interval
  | levelSymmetricPlane | levelSymmetricSpace => .triangle
  | squareChebyshevLegendre => .square
  | general _ dimension _ => if dimension = 1 then .interval else .triangle
  | octant _ layout _ => layout

/-- The number of levels of a set of the given order. -/
def levels (order : Nat) : SetKind → Nat
  | gaussLegendre | doubleGauss => 1
  | levelSymmetricPlane | levelSymmetricSpace | squareChebyshevLegendre => order
  | general _ _ levels => levels
  | octant levels .. => levels

/-- Whether the set was reflected from an octant that reaches `xi = -1`. -/
def isOpenInterval : SetKind → Bool
  | octant _ _ openInterval => openInterval
  | _ => false

end SetKind

namespace Quadrature

variable {R : Type}

/-- The official name of the set. -/
def name (q : Quadrature R) : String :=
  q.kind.name

/-- The dimension of the set. -/
def dimension (q : Quadrature R) : Nat :=
  q.kind.dimension

/-- How the directions are laid out over the levels. -/
def layout (q : Quadrature R) : Layout :=
  q.kind.layout

/-- The number of levels. -/
def levels (q : Quadrature R) : Nat :=
  q.kind.levels q.order

/-- The number of directions. -/
def angles (q : Quadrature R) : Nat :=
  q.table.wt.length

/-- Equality of all that makes up a set, numbers in the sense of the scalars. -/
def beq [BEq R] (p q : Quadrature R) : Bool :=
  p.kind == q.kind && p.order == q.order && p.norm == q.norm && p.table == q.table

instance [BEq R] : BEq (Quadrature R) := ⟨beq⟩

variable [Scalar R]

/-! ## Directions -/

/-- An index has to be that of a direction. -/
def checkIndex (q : Quadrature R) (m : Nat) : Except (QuadratureError R) Unit :=
  require (m < q.angles) (.indexOutOfRange m q.angles)

/-- Number `m` of a column, zero in a column that the set does not carry. -/
def component (q : Quadrature R) (column : DirectionTable R → List R) (m : Nat) :
    Except (QuadratureError R) R := do
  q.checkIndex m
  return Scalar.nth (column q.table) m

/-- The cosines `mu`, `eta` and `xi` of direction `m`. -/
def omega (q : Quadrature R) (m : Nat) : Except (QuadratureError R) (List R) := do
  q.checkIndex m
  return (q.table.row m).cosines

/-- The row of a table as an ordinate, whose `z` cosine defines levels: nothing
in one dimension, `eta` in the plane and `xi` in space. -/
def arrange (dimension : Nat) (row : Ordinate R) : Ordinate R :=
  match dimension with
  | 1 => ⟨row.x, 0.0, 0.0, row.weight⟩
  | 2 => ⟨row.x, row.z, row.y, row.weight⟩
  | _ => row

/-- Direction `m` as an ordinate. -/
def ordinate (q : Quadrature R) (m : Nat) : Except (QuadratureError R) (Ordinate R) := do
  q.checkIndex m
  return arrange q.dimension (q.table.row m)

/-- Every direction as an ordinate, in the order of the set. -/
def ordinates (q : Quadrature R) : List (Ordinate R) :=
  q.table.rows.map (arrange q.dimension)

end Quadrature

end DiscreteOrdinates
