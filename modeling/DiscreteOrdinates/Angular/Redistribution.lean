import DiscreteOrdinates.Angular.Error
import DiscreteOrdinates.Sweep.Basic

/-!
# Angular redistribution

In curvilinear geometries a direction turns while it crosses the mesh. Each
level of a sweep set opens with a start, and each later ordinate `a` depends on
the one before it:

    α a = α (a - 1) + f · w a · x a,                       α start = 0
    τ a = (x a - x (a - ½)) / (x (a + ½) - x (a - ½))

Here `w` are the weights, normalised to sum to one, `f` is one in axisymmetric
and two in spherical geometry, and `x (a + ½)` are the edges of the cells that
the weights cut the level into. In cartesian geometry nothing depends on
anything, so `α = 0` and `τ = 1`.
-/

namespace DiscreteOrdinates

/-- An ordinate of a sweep with its place and its coefficients. -/
structure AngularNode (R : Type) where
  ordinate : Ordinate R
  /-- The weight, normalised over the set. -/
  weight : R
  level : Nat
  /-- Whether the ordinate depends on the one before it. -/
  dependent : Bool := false
  alpha : R
  tau : R
  deriving Repr

/-- A sweep set with its levels and coefficients. -/
structure AngularRedistribution (R : Type) where
  sweep : SweepSet R
  nodes : List (AngularNode R)
  deriving Repr

namespace AngularRedistribution

variable {R : Type} [Scalar R]

/-! ## Levels -/

/-- The position of the last element of a list with a property. -/
def lastIndex? {α : Type} (p : α → Bool) : List α → Option Nat
  | [] => none
  | x :: xs =>
    match lastIndex? p xs with
    | some i => some (i + 1)
    | none => if p x then some 0 else none

/-- The level of a cosine among the cosines of all levels: the last one that it
reaches. -/
def levelOf (levels : List R) (z : R) : Nat :=
  (lastIndex? (fun level => level ≤ z + levelTolerance) levels).getD 0

/-- The level of each ordinate. -/
def assignLevels (os : List (Ordinate R)) : Except (AngularError R) (List Nat) :=
  match Sample.distinctWithin levelTolerance (os.map (·.z)) with
  | .ok levels => .ok (os.map fun o => levelOf levels o.z)
  | .error e => .error (.sample e)

/-! ## Closing a level -/

/-- The factor of the `α` recursion. -/
def recursionFactor : Geometry → R
  | .spherical => 2.0
  | _ => 1.0

/-- What is passed from one ordinate of a level to the next: `α`, the lower edge
of the next cell, and the azimuth of that edge. -/
structure Edge (R : Type) where
  alpha : R
  lower : R
  azimuth : R

/-- The edges of a level of a given geometry, weight and radius. -/
structure LevelShape (R : Type) where
  geometry : Geometry
  weight : R
  radius : R

namespace LevelShape

/-- The lower edge of the first cell. -/
def start (s : LevelShape R) : Edge R :=
  { alpha := 0.0
    lower := match s.geometry with
      | .spherical => -1.0
      | _ => -s.radius
    azimuth := Scalar.pi }

/-- The azimuth behind a cell. -/
def nextAzimuth (s : LevelShape R) (e : Edge R) (w : R) : R :=
  e.azimuth - Scalar.pi * w / s.weight

/-- The upper edge of a cell: equal weights take equal lengths on a sphere, and
equal angles on a circle. -/
def upper (s : LevelShape R) (e : Edge R) (w : R) : R :=
  match s.geometry with
  | .spherical => e.lower + 2.0 * w / s.weight
  | _ => s.radius * Scalar.cos (s.nextAzimuth e w)

/-- The edge behind a cell. -/
def next (s : LevelShape R) (e : Edge R) (node : AngularNode R) : Edge R :=
  { alpha := e.alpha + recursionFactor s.geometry * node.weight * node.ordinate.x
    lower := s.upper e node.weight
    azimuth := s.nextAzimuth e node.weight }

/-- Gives the nodes behind a start their coefficients; `index` is the number of
the first of them. A cell without width is an error. -/
def close (s : LevelShape R) (index : Nat) (e : Edge R) :
    List (AngularNode R) → Except (AngularError R) (List (AngularNode R))
  | [] => .ok []
  | node :: nodes =>
    let behind := s.next e node
    let width := behind.lower - e.lower
    if width ≤ 0.0 then .error (.degenerateInterval index)
    else
      let closed : AngularNode R :=
        { node with
          dependent := true
          alpha := behind.alpha
          tau := (node.ordinate.x - e.lower) / width }
      match close s (index + 1) behind nodes with
      | .ok rest => .ok (closed :: rest)
      | .error cause => .error cause

end LevelShape

/-- Gives the nodes of a level their coefficients. The level has to carry weight,
and its first node opens it. A run of nodes is not empty, so there is no number to
report an empty level by, and it stays as it is. -/
def closeLevel (geometry : Geometry) (index : Nat) (nodes : List (AngularNode R)) :
    Except (AngularError R) (List (AngularNode R)) :=
  match nodes with
  | [] => .ok []
  | first :: dependents =>
    -- The weight of the first node counts as well, should it have any.
    let total := Scalar.sum (nodes.map (·.weight))
    if total ≤ 0.0 then .error (.emptyLevel first.level)
    else
      let z := first.ordinate.z
      let shape : LevelShape R :=
        ⟨geometry, total, Scalar.sqrt (Scalar.positivePart (1.0 - z * z))⟩
      match shape.close (index + 1) shape.start dependents with
      | .ok closed => .ok (first :: closed)
      | .error cause => .error cause

/-- Closes levels one after the other; `index` is the number of the first node. -/
def closeLevels (geometry : Geometry) (index : Nat) :
    List (List (AngularNode R)) → Except (AngularError R) (List (AngularNode R))
  | [] => .ok []
  | level :: levels => do
    let closed ← closeLevel geometry index level
    return closed ++ (← closeLevels geometry (index + level.length) levels)

/-! ## Construction -/

/-- The runs of nodes on one level. -/
def groupLevels (nodes : List (AngularNode R)) : List (List (AngularNode R)) :=
  nodes.splitBy fun a b => a.level == b.level

/-- The coefficients of a sweep set. -/
def ofSweep (sweep : SweepSet R) : Except (AngularError R) (AngularRedistribution R) := do
  let os := sweep.ordinates
  let total : R := Scalar.sum (os.map (·.weight))
  require (¬ total ≤ 0.0 ∧ Scalar.isFinite total) .noWeight
  let levels ← assignLevels os
  let nodes := os.zipWith
    (fun o level =>
      ({ ordinate := o, weight := o.weight / total, level, alpha := 0.0, tau := 1.0 } :
        AngularNode R))
    levels
  if sweep.geometry.isCurvilinear then
    return ⟨sweep, ← closeLevels sweep.geometry 0 (groupLevels nodes)⟩
  else
    -- Nothing depends on anything, so the nodes stay as they are.
    return ⟨sweep, nodes⟩

/-- The coefficients of a quadrature set on a mesh. -/
def ofQuadrature (q : Quadrature R) (geometry : Geometry) (meshDimension : Nat) :
    Except (AngularError R) (AngularRedistribution R) :=
  match SweepSet.ofQuadrature q geometry meshDimension with
  | .ok sweep => ofSweep sweep
  | .error e => .error (.quadrature e)

/-! ## Coefficients -/

/-- The number of levels. -/
def levels (r : AngularRedistribution R) : Nat :=
  r.nodes.foldl (fun count node => max count (node.level + 1)) 0

/-- Node `m`. -/
def node (r : AngularRedistribution R) (m : Nat) : Except (AngularError R) (AngularNode R) :=
  match r.nodes[m]? with
  | some node => .ok node
  | none => .error (.indexOutOfRange m r.nodes.length)

/-- Node `m`, which has to depend on the one before it. -/
def dependentNode (r : AngularRedistribution R) (m : Nat) :
    Except (AngularError R) (AngularNode R) := do
  let node ← r.node m
  require (node.dependent = true) (.notDependent m)
  return node

/-- Whether node `m` depends on the one before it. -/
def isDependent (r : AngularRedistribution R) (m : Nat) : Except (AngularError R) Bool := do
  return (← r.node m).dependent

/-- `α / (w τ)`, the coefficient of the angular flux. -/
def fluxCoefficient (r : AngularRedistribution R) (m : Nat) : Except (AngularError R) R := do
  let node ← r.dependentNode m
  return node.alpha / (node.weight * node.tau)

/-- `(α (1 - τ) / τ + α (m - 1)) / w`, the coefficient of the flux on the lower
edge. -/
def sourceCoefficient (r : AngularRedistribution R) (m : Nat) : Except (AngularError R) R := do
  let node ← r.dependentNode m
  let before ← r.node (m - 1)
  return (node.alpha * (1.0 - node.tau) / node.tau + before.alpha) / node.weight

/-- `1 / τ`, the coefficient that steps the flux to the upper edge. -/
def edgeCoefficient (r : AngularRedistribution R) (m : Nat) : Except (AngularError R) R := do
  let node ← r.dependentNode m
  return 1.0 / node.tau

/-- The cosines of node `m` along the axes of the mesh. -/
def projection (r : AngularRedistribution R) (m : Nat) : Except (AngularError R) (List R) := do
  let o := (← r.node m).ordinate
  match r.sweep.meshDimension with
  | 1 => return [o.x]
  | 2 => return [o.x, o.z]
  | _ => return o.cosines

end AngularRedistribution

end DiscreteOrdinates
