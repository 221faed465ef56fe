import DiscreteOrdinates.Quadrature.Reflection
import DiscreteOrdinates.SoftEquality

/-!
# User octants

Full sets that are reflected from one octant of a user. A direction in a
coordinate plane coincides with some of its images. It is then listed once, with
the weights of all octants that share it.
-/

namespace DiscreteOrdinates

variable {R : Type} [Scalar R]

namespace Layout

/-- Whether `levels` levels in this layout hold eight octants of `ordinates`
directions. Intervals have no octants. The products are exact: what becomes of level
numbers whose products do not fit a machine word is left out. -/
def checkCount (layout : Layout) (levels ordinates : Nat) : Except (QuadratureError R) Unit :=
  let mismatch : QuadratureError R := .classCountMismatch layout levels ordinates
  match layout with
  | interval => .error .intervalClass
  | triangle => require (levels * (levels + 2) = 8 * ordinates) mismatch
  | square => require (2 * levels * levels = 8 * ordinates) mismatch

end Layout

namespace Ordinate

/-- Whether two ordinates have the same direction. -/
def sameDirection (a b : Ordinate R) : Bool :=
  a.x == b.x && a.y == b.y && a.z == b.z

/-- Adds an ordinate to a list, by its weight alone if the direction is already
there. -/
def accumulate (o : Ordinate R) : List (Ordinate R) → List (Ordinate R)
  | [] => [o]
  | p :: ps =>
    -- Signed zeros are equal here, so images across a plane meet in it.
    if p.sameDirection o then p.withWeight (p.weight + o.weight) :: ps
    else p :: accumulate o ps

/-- One ordinate for each direction of a list, in order of first appearance. -/
def merge (os : List (Ordinate R)) : List (Ordinate R) :=
  os.foldl (fun merged o => accumulate o merged) []

end Ordinate

namespace UserOctant

/-- How close to `-1` a cosine has to be to mark the pole. -/
def poleTolerance : R := 1e-12

/-- Every direction that is an image of an octant, with unscaled weights. -/
def sphere (octant : List (Ordinate R)) : List (Ordinate R) :=
  Ordinate.merge (Ordinate.images (Signs.withXi Signs.both) octant)

/-- The ordinates with weights that sum to `norm` in proportion. -/
def normalise (norm : R) (os : List (Ordinate R)) :
    Except (QuadratureError R) (List (Ordinate R)) := do
  let total := Scalar.sum (os.map (·.weight))
  require (¬ total ≤ 0.0) (.invalidWeight 0 total)
  return os.map fun o => o.withWeight (o.weight * (norm / total))

/-- What an octant goes through before its rows are looked at: their number, equal
lengths of the columns, and weights. -/
def checkColumns (layout : Layout) (levels : Nat) (octant : DirectionTable R) :
    Except (QuadratureError R) Unit := do
  let n := octant.mu.length
  layout.checkCount levels n
  DirectionTable.checkLength .eta octant.eta n
  DirectionTable.checkLength .xi octant.xi n
  DirectionTable.checkLength .wt octant.wt n
  DirectionTable.checkWeights octant.wt

/-- Checks an octant: its columns, and unit vectors in its rows. -/
def check (layout : Layout) (levels : Nat) (octant : DirectionTable R) :
    Except (QuadratureError R) Unit := do
  checkColumns layout levels octant
  octant.checkDirections

/-- Whether the lowest cosine of an octant is that of the pole. -/
def reachesPole (octant : DirectionTable R) : Except (QuadratureError R) Bool :=
  match Sample.minimum octant.xi with
  | .ok least => .ok (softEq least (-1.0) poleTolerance)
  | .error cause => .error (.sample cause)

/-- The table of the set that is reflected from an octant, and whether the
octant reaches the pole `xi = -1`. -/
def table (layout : Layout) (levels : Nat) (norm : R) (octant : DirectionTable R) :
    Except (QuadratureError R) (DirectionTable R × Bool) := do
  check layout levels octant
  let openInterval ← reachesPole octant
  let os ← normalise norm (sphere octant.rows)
  return (DirectionTable.ofRows os, openInterval)

end UserOctant

end DiscreteOrdinates
