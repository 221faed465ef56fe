import DiscreteOrdinates.Harmonics.Spherical
import DiscreteOrdinates.Moments.Error
import DiscreteOrdinates.Quadrature.Basic

/-!
# Selection of moments

Which moments an interpolation retains for a set, and in which order. A fixed
map fits level symmetric sets. The search for independent harmonics fits any
set. Complete shells leave fewer moments than angles.
-/

namespace DiscreteOrdinates

namespace MomentIndex

/-! ## Fixed map -/

/-- Whether an order is positive and odd. -/
def isOddCosine (i : MomentIndex) : Bool :=
  0 < i.k && i.k % 2 == 1

/-- Whether an order is negative and even, and at least `-n`. -/
def isEvenSine (n : Nat) (i : MomentIndex) : Bool :=
  i.k < 0 && -(n : Int) ≤ i.k && i.k % 2 == 0

/-- The map of moments for a set in the plane of order `n`: complete shells
below `n`, then the odd cosines of degree `n`. -/
def planeMap (n : Nat) : List MomentIndex :=
  resolvedBelow 2 n ++ (shell n).filter isOddCosine

/-- The map of moments for a set in space of order `n`: complete shells below
`n`, of degree `n` all sines and the odd cosines, and of degree `n + 1` the even
sines. -/
def spaceMap (n : Nat) : List MomentIndex :=
  resolvedBelow 3 n ++ (shell n).filter (fun i => i.k < 0) ++ (shell n).filter isOddCosine
    ++ (shell (n + 1)).filter (isEvenSine n)

/-- The map for a set of the given dimension, two or three, and order. -/
def squareMap (dimension n : Nat) : List MomentIndex :=
  if dimension = 2 then planeMap n else spaceMap n

/-- The first `count` moments of the map. In one dimension the map does not end.
Otherwise it starts with complete shells, and if there are `count` of them they
hold all that is asked for. -/
def mapPrefix (dimension n count : Nat) : List MomentIndex :=
  if dimension = 1 then (List.range count).map fun l => ⟨l, 0⟩
  else if count ≤ n then (resolvedBelow dimension count).take count
  else (squareMap dimension n).take count

/-! ## Independent moments -/

section Independent

variable {R : Type} [Scalar R]

/-- The scalar product of two lists of values. -/
def dot (u v : List R) : R :=
  (u.zipWith (· * ·) v).foldl (· + ·) 0.0

/-- The length of a vector. -/
def norm (v : List R) : R :=
  Scalar.sqrt (dot v v)

/-- Removes from `v` its projection on the unit vector `b`. -/
def removeProjection (v b : List R) : List R :=
  let projection := dot b v
  v.zipWith (fun x y => -projection * y + x) b

/-- Least length of a residual, relative to the vector itself, for which the
vector counts as independent. -/
def independenceTolerance : R := 1e-8

/-- A search that goes on: the orthonormal basis of the vectors that were kept,
in order, and the moments they belong to, the latest one first. -/
structure Search (R : Type) where
  basis : Array (List R) := #[]
  kept : List MomentIndex := []

/-- What is left of `v` beside the vectors that were kept. -/
def Search.residual (s : Search R) (v : List R) : List R :=
  s.basis.foldl removeProjection v

/-- Keeps a moment if its values are independent of those kept so far. -/
def Search.visit (s : Search R) (i : MomentIndex) (values : List R) : Search R :=
  let size := norm values
  -- The zero vector depends on anything.
  if size == 0.0 then s
  else
    let v := s.residual values
    let left := norm v
    if independenceTolerance * size < left then
      ⟨s.basis.push (v.map (· / left)), i :: s.kept⟩
    else s

/-- Visits candidates until `count` moments are kept. -/
def Search.run (os : List (Ordinate R)) (count : Nat) (s : Search R) :
    List MomentIndex → Except (QuadratureError R) (Search R)
  | [] => .ok s
  | i :: candidates =>
    if s.kept.length = count then .ok s
    else
      match os.mapM (Harmonic.tesseral i.l i.k) with
      | .ok values => run os count (s.visit i values) candidates
      | .error e => .error e

/-- Visits the resolved moments of `degrees` degrees from `l` on, until `count`
moments are kept. -/
def Search.climb (os : List (Ordinate R)) (dimension count : Nat) :
    (degrees l : Nat) → Search R → Except (QuadratureError R) (Search R)
  | 0, _, s => .ok s
  | degrees + 1, l, s =>
    if s.kept.length = count then .ok s
    else
      match s.run os count (resolvedShell dimension l) with
      | .ok s => climb os dimension count degrees (l + 1) s
      | .error e => .error e

/-- The first moments, up to degree `2 (n + 1)`, whose harmonics are independent
over the directions of a set: one for each angle, if there are as many. The degree is
exact: what becomes of orders for which it does not fit a machine word is left out. -/
def independent (q : Quadrature R) : Except (QuadratureError R) (List MomentIndex) := do
  let s ← Search.climb q.ordinates q.dimension q.angles (2 * (q.order + 1) + 1) 0 {}
  return s.kept.reverse

end Independent

/-! ## Selection -/

section Selection

variable {R : Type} [Scalar R]

/-- The moments before their number is checked. -/
def candidates (q : Quadrature R) (model : Interpolation) (expansionOrder : Option Nat) :
    Except (MomentError R) (List MomentIndex) :=
  match model with
  | .svd =>
    let is := resolvedBelow q.dimension (expansionOrder.getD (q.order - 1) + 1)
    if q.angles < is.length then .error (.tooManyMoments is.length q.angles) else .ok is
  | .sn =>
    if q.layout = .square then .error (.unsupportedInterpolation model q.layout q.dimension)
    else .ok (mapPrefix q.dimension q.order q.angles)
  | .galerkin =>
    match independent q with
    | .ok is => .ok is
    | .error e => .error (.quadrature e)

/-- The moments that an interpolation retains for a set. An expansion order can
only be chosen for complete shells, up to degree `N - 1` by default. -/
def select (q : Quadrature R) (model : Interpolation) (expansionOrder : Option Nat) :
    Except (MomentError R) (List MomentIndex) := do
  require (expansionOrder = none ∨ model = .svd) (.expansionOrderNotAllowed model)
  let is ← candidates q model expansionOrder
  require (¬ (model.isSquare ∧ is.length < q.angles)) (.momentCount model q.angles is.length)
  return is

end Selection

/-! ## Explicit lists -/

/-- The first entry of a list that has occurred before. -/
def firstRepeat (seen : List MomentIndex) : List MomentIndex → Option MomentIndex
  | [] => none
  | i :: is => if i ∈ seen then some i else firstRepeat (i :: seen) is

/-- Checks a list of moments that a user chose for a set. -/
def validate {R : Type} (is : List MomentIndex) (dimension : Nat) (model : Interpolation)
    (angles : Nat) : Except (MomentError R) Unit :=
  if is = [] then .error .noMoments
  else
    -- Each fault is looked for in the whole list before the next one is.
    match is.find? (!·.isValid), is.find? (!·.isResolvedIn dimension), firstRepeat [] is with
    | some i, _, _ => .error (.invalidMoment i .orderExceedsDegree)
    | none, some i, _ => .error (.invalidMoment i .notResolved)
    | none, none, some i => .error (.duplicateMoment i)
    | none, none, none =>
      if model.isSquare ∧ is.length ≠ angles then .error (.momentCount model angles is.length)
      else if angles < is.length then .error (.tooManyMoments is.length angles)
      else .ok ()

end MomentIndex

end DiscreteOrdinates
