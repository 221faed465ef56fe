import DiscreteOrdinates.Quadrature.Basic
import DiscreteOrdinates.Quadrature.UserTable

/-!
# Closure

Angular integrals of a set, and the values they have to have: the weights sum to
the norm, the first moment vanishes, and a set of sufficient order integrates
the products of two cosines.
-/

namespace DiscreteOrdinates

/-- The coordinate axes. -/
inductive Axis where
  | mu
  | eta
  | xi
  deriving DecidableEq, Repr

/-- Every axis. -/
def Axis.all : List Axis :=
  [.mu, .eta, .xi]

variable {R : Type} [Scalar R]

/-- The cosine of a table row along an axis. -/
def Ordinate.along (row : Ordinate R) : Axis → R
  | .mu => row.x
  | .eta => row.y
  | .xi => row.z

namespace DirectionTable

/-- The integral of a function of direction. -/
def integrate (t : DirectionTable R) (f : Ordinate R → R) : R :=
  t.rows.foldl (fun total row => total + f row) 0.0

/-- The integral of one cosine. -/
def firstMoment (t : DirectionTable R) (i : Axis) : R :=
  t.integrate fun row => row.weight * row.along i

/-- The integral of the product of two cosines. -/
def secondMoment (t : DirectionTable R) (i j : Axis) : R :=
  t.integrate fun row => row.weight * row.along i * row.along j

end DirectionTable

namespace Quadrature

/-- Tolerance of the first and second moments, relative to the norm. -/
def momentTolerance : R := 1e-8

/-- The integral of one. -/
def totalWeight (q : Quadrature R) : R :=
  Scalar.sum q.table.wt

/-- Whether the kind of the set promises second moments. -/
def integratesQuadratics (q : Quadrature R) : Bool :=
  match q.kind with
  | .gaussLegendre => 2 ≤ q.order
  | .doubleGauss => 4 ≤ q.order
  | .levelSymmetricPlane | .levelSymmetricSpace | .squareChebyshevLegendre => true
  | .general .. | .octant .. => false

/-- The second moment that a set ought to have. -/
def expectedSecondMoment (norm : R) (i j : Axis) : R :=
  if i = j then norm / 3.0 else 0.0

/-- The weights have to sum to the norm. -/
def checkWeight (q : Quadrature R) : Except (QuadratureError R) Unit :=
  require (softEq q.totalWeight q.norm weightTolerance)
    (.closureFailure .zeroth q.norm q.totalWeight)

/-- The first moment has to vanish along the axes of the set. In the plane the
set covers a half space in `xi`. -/
def checkFirstMoment (q : Quadrature R) : Except (QuadratureError R) Unit :=
  let moments := (Axis.all.take q.dimension).map q.table.firstMoment
  match moments.find? fun c => momentTolerance * q.norm < Scalar.abs c with
  | some found => .error (.closureFailure .first 0.0 found)
  | none => .ok ()

/-- The second moment has to be a third of the norm along each axis and zero
across. -/
def checkSecondMoment (q : Quadrature R) : Except (QuadratureError R) Unit :=
  let axes := Axis.all.take (if q.dimension = 1 then 1 else 3)
  axes.forM fun i => axes.forM fun j =>
    let expected := expectedSecondMoment q.norm i j
    let found := q.table.secondMoment i j
    require (¬ momentTolerance * q.norm < Scalar.abs (found - expected))
      (.closureFailure .second expected found)

/-- Checks the set against the integrals that it should reproduce. Of a set
that a user supplied completely only the weights are checked. -/
def checkClosure (q : Quadrature R) : Except (QuadratureError R) Unit := do
  q.checkWeight
  match q.kind with
  | .general .. => return ()
  | _ =>
    q.checkFirstMoment
    if q.integratesQuadratics then q.checkSecondMoment

/-- The set itself, if its closure holds. -/
def checked (q : Quadrature R) : Except (QuadratureError R) (Quadrature R) := do
  q.checkClosure
  return q

end Quadrature

end DiscreteOrdinates
