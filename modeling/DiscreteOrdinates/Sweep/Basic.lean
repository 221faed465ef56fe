import DiscreteOrdinates.Quadrature.Basic
import DiscreteOrdinates.Sweep.Level

/-!
# Sweep sets

The ordinates of a quadrature set as they are swept through a mesh of some
geometry and dimension:

| set | mesh | ordinates                                                          |
| --- | ---- | ------------------------------------------------------------------ |
| 1D  | 1    | cartesian in the order of the set, spherical sorted with starts      |
| 2D  | 2    | cartesian in the order of the set, axisymmetric sorted with starts   |
| 2D  | 1    | collapsed, or for axisymmetric geometry the levels `z > 0`           |
| 3D  | 3    | cartesian only, in the order of the set                              |
| 3D  | 1, 2 | the half `xi > 0` with doubled weights, then as a set in the plane   |
-/

namespace DiscreteOrdinates

/-- Ordinates in the order of a sweep. -/
structure SweepSet (R : Type) where
  ordinates : List (Ordinate R)
  geometry : Geometry
  /-- The dimension of the quadrature set. -/
  dimension : Nat
  meshDimension : Nat
  /-- The total weight of the quadrature set. -/
  norm : R
  deriving Repr

namespace SweepSet

variable {R : Type} [Scalar R]

/-- The ordinates with `z > 0`, their weights doubled. -/
def upper (os : List (Ordinate R)) : List (Ordinate R) :=
  (os.filter fun o => 0.0 < o.z).map fun o => ⟨o.x, o.y, o.z, 2.0 * o.weight⟩

/-- An ordinate in space as one in the plane, where `y` defines levels. -/
def flatten (o : Ordinate R) : Ordinate R :=
  ⟨o.x, o.z, o.y, o.weight⟩

/-- Ordinates in the plane, arranged for a mesh of one or two dimensions. None
if the geometry has no such mesh. -/
def planar (os : List (Ordinate R)) (geometry : Geometry) (meshDimension : Nat) :
    Option (List (Ordinate R)) :=
  match geometry, meshDimension with
  | .cartesian, 2 => some os
  | .axisymmetric, 2 => some (Ordinate.withStarts (Ordinate.sorted os))
  | .cartesian, 1 => some (Ordinate.collapse os)
  | .spherical, 1 => some (Ordinate.withStarts (Ordinate.collapse os))
  | .axisymmetric, 1 => some (Ordinate.withStarts (Ordinate.sorted (upper os)))
  | _, _ => none

/-- Ordinates on a line, arranged for a mesh of one dimension. -/
def linear (os : List (Ordinate R)) (geometry : Geometry) : Option (List (Ordinate R)) :=
  match geometry with
  | .cartesian => some os
  | .spherical => some (Ordinate.withStarts (Ordinate.sorted os))
  | .axisymmetric => none

/-- The ordinates of a set, arranged for a mesh. None if the combination cannot
be swept. -/
def arrange (q : Quadrature R) (geometry : Geometry) (meshDimension : Nat) :
    Option (List (Ordinate R)) :=
  if meshDimension = 0 ∨ q.dimension < meshDimension then none
  else
    match q.dimension, meshDimension with
    | 1, _ => linear q.ordinates geometry
    | 3, 3 => if geometry = .cartesian then some q.ordinates else none
    | 3, _ => planar ((upper q.ordinates).map flatten) geometry meshDimension
    | _, _ => planar q.ordinates geometry meshDimension

/-- The sweep set of a quadrature set on a mesh. -/
def ofQuadrature (q : Quadrature R) (geometry : Geometry) (meshDimension : Nat) :
    Except (QuadratureError R) (SweepSet R) :=
  match arrange q geometry meshDimension with
  | some ordinates => .ok ⟨ordinates, geometry, q.dimension, meshDimension, q.norm⟩
  | none => .error (.incompatibleGeometry geometry q.dimension meshDimension)

/-- The number of ordinates that carry weight. -/
def weighted (s : SweepSet R) : Nat :=
  s.ordinates.countP fun o => !o.isStart

end SweepSet

end DiscreteOrdinates
