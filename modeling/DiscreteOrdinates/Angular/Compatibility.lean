import DiscreteOrdinates.Angular.Redistribution
import DiscreteOrdinates.Decimal.Rounded

/-!
# Compatibility

Whether a quadrature set suits a mesh, with a report of each problem found: a
set that cannot be swept, a level on which `α` does not return to zero, or a set
in the plane whose levels are not those it claims to have.
-/

namespace DiscreteOrdinates

/-- Why a set does not suit a mesh. -/
inductive Problem (R : Type) where
  | unusable (geometry : Geometry) (meshDimension : Nat) (cause : AngularError R)
  | openLevel (level : Nat) (alpha : R)
  | levelCount (found defined : Nat)
  deriving Repr

/-- The wording of a problem of the named set. -/
def Problem.message (name : String) : Problem Float → String
  | .unusable geometry meshDimension cause =>
    name ++ " cannot be used for " ++ geometry.name ++ " geometry in " ++ toString meshDimension ++
      "D: " ++ cause.message
  | .openLevel level alpha =>
    name ++ ": alpha does not close on level " ++ toString level ++ ", found " ++
      (Binary.ofFloat alpha).scientificText 6
  | .levelCount found defined =>
    name ++ ": found " ++ toString found ++ " levels but the quadrature defines " ++
      toString defined

namespace AngularRedistribution

variable {R : Type} [Scalar R]

/-- Largest magnitude of `α` at the end of a level. -/
def closureTolerance : R := 1e-10

/-- The last `α` of each run of nodes on one level. -/
def closingAlphas (r : AngularRedistribution R) : List (Nat × R) :=
  (groupLevels r.nodes).filterMap fun level =>
    level.getLast?.map fun node => (node.level, node.alpha)

/-- A check that writes reports while it runs. -/
abbrev Reporting (R : Type) := StateM (List (Problem R))

/-- Writes a report behind those that there are. -/
def report (problem : Problem R) : Reporting R Unit :=
  modify (· ++ [problem])

/-- Checks that `α` returns to zero on every level. -/
def checkClosing : List (Nat × R) → Reporting R Bool
  | [] => return true
  | (level, alpha) :: rest =>
    if closureTolerance < Scalar.abs alpha then do
      report (.openLevel level alpha)
      -- The other levels are checked for their reports.
      discard (checkClosing rest)
      return false
    else checkClosing rest

/-- Whether the levels of a set can be compared with those of the sweep. -/
def definesLevels (q : Quadrature R) (geometry : Geometry) (meshDimension : Nat) : Bool :=
  geometry == .axisymmetric && meshDimension == 2 && q.dimension == 2

/-- Checks that a set in the plane has the levels that it claims to have. -/
def checkLevelCount (q : Quadrature R) (geometry : Geometry) (meshDimension : Nat)
    (r : AngularRedistribution R) : Reporting R Bool :=
  if definesLevels q geometry meshDimension && r.levels != q.levels then do
    report (.levelCount r.levels q.levels)
    return false
  else return true

/-- Whether a set suits a mesh. -/
def checkCompatible (q : Quadrature R) (geometry : Geometry) (meshDimension : Nat) :
    Reporting R Bool :=
  match ofQuadrature q geometry meshDimension with
  | .error cause => do
    report (.unusable geometry meshDimension cause)
    return false
  | .ok r => do
    -- The second check runs whatever the first one finds.
    let closes ← if geometry.isCurvilinear then checkClosing r.closingAlphas else pure true
    let counts ← checkLevelCount q geometry meshDimension r
    return closes && counts

/-- Whether a set suits a mesh, and the problems that were found. -/
def compatibility (q : Quadrature R) (geometry : Geometry) (meshDimension : Nat) :
    Bool × List (Problem R) :=
  (checkCompatible q geometry meshDimension).run []

/-- The reports on a set, a line for each. -/
def diagnostics (q : Quadrature Float) (problems : List (Problem Float)) : String :=
  String.join (problems.map fun p => p.message q.name ++ "\n")

end AngularRedistribution

end DiscreteOrdinates
