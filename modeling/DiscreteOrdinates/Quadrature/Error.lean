import DiscreteOrdinates.Decimal.Rounded
import DiscreteOrdinates.Sample
import DiscreteOrdinates.Selector

/-!
# Quadrature errors

The causes for which no quadrature set, ordinate, ordinate set or harmonic
exists, each with its wording.
-/

namespace DiscreteOrdinates

/-- What is wrong with a requested order. -/
inductive OrderFault where
  | notPositive
  | notEven
  | notEvenFromTwo
  | notTabulated
  | tooFewLevels
  deriving DecidableEq, Repr

/-- The angular integrals that a set is checked against. -/
inductive Integral where
  | zeroth
  | first
  | second
  deriving DecidableEq, Repr

/-- The columns of a table of directions. -/
inductive Column where
  | mu
  | eta
  | xi
  | wt
  deriving DecidableEq, Repr

/-- Lines that a configuration block cannot do without. -/
inductive RequiredLine where
  | family
  | order
  | finish
  deriving DecidableEq, Repr

/-- Why the weights of a level symmetric octant are refused. -/
inductive WeightFault (R : Type) where
  | inconsistent (residual : R)
  | notPositive (weight : R)
  deriving Repr

/-- Why something about a quadrature set is refused. -/
inductive QuadratureError (R : Type) where
  | unreadable
  | malformedJson
  | sample (cause : SampleError R)
  | unsupportedOrder (family : Family) (order : Nat) (fault : OrderFault)
  | unsupportedDimension (family : Family) (dimension : Nat)
  | incompatibleGeometry (geometry : Geometry) (dimension meshDimension : Nat)
  | closureFailure (integral : Integral) (expected found : R)
  | lengthMismatch (column : Column) (expected found : Nat)
  | invalidWeight (index : Nat) (weight : R)
  | notUnitVector (x y z : R)
  | zeroCosine
  | classCountMismatch (layout : Layout) (levels ordinates : Nat)
  | intervalClass
  | weightSolve (order : Nat) (fault : WeightFault R)
  | newtonIteration (order : Nat)
  | degenerateCoefficient (l : Nat) (k : Int)
  | indexOutOfRange (index length : Nat)
  | missingOrdinates (family : Family)
  | missingKeyword (line : RequiredLine)
  | malformedLine (line : String)
  deriving Repr

/-! ## Wording -/

/-- The wording of an order fault. -/
def OrderFault.message : OrderFault → String
  | .notPositive => "order must be positive"
  | .notEven => "order must be even"
  | .notEvenFromTwo => "order must be even and at least 2"
  | .notTabulated => "only S2 to S16 are tabulated"
  | .tooFewLevels => "at least two levels are needed"

/-- The name of an integral in a closure failure. -/
def Integral.name : Integral → String
  | .zeroth => "iDomega"
  | .first => "iOmegaDomega"
  | .second => "iOmegaOmegaDomega"

/-- The heading of a column. -/
def Column.name : Column → String
  | .mu => "mu"
  | .eta => "eta"
  | .xi => "xi"
  | .wt => "wt"

/-- The word that opens a required line. -/
def RequiredLine.name : RequiredLine → String
  | .family => "family"
  | .order => "order"
  | .finish => "end"

/-- The wording of a weight fault. -/
def WeightFault.message : WeightFault Float → String
  | .inconsistent residual =>
    "moment equations inconsistent, residual " ++ (Binary.ofFloat residual).scientificText 3
  | .notPositive weight => "non-positive weight " ++ floatText weight

/-- The wording of a quadrature error. -/
def QuadratureError.message : QuadratureError Float → String
  | .unreadable => "failed input/output stream"
  | .malformedJson => "failed to read JSON configuration"
  | .sample cause => cause.message
  | .unsupportedOrder family order fault =>
    "unsupported order S" ++ toString order ++ " for " ++ family.name ++ ": " ++ fault.message
  | .unsupportedDimension family dimension =>
    family.name ++ " is not available in " ++ toString dimension ++ "D"
  | .incompatibleGeometry geometry dimension meshDimension =>
    toString dimension ++ "D quadrature cannot be used with " ++ geometry.name ++
      " geometry on a " ++ toString meshDimension ++ "D mesh"
  | .closureFailure integral expected found =>
    "quadrature closure check " ++ integral.name ++ " failed: expected " ++ floatText expected ++
      ", found " ++ floatText found
  | .lengthMismatch column expected found =>
    "expected " ++ toString expected ++ " values for " ++ column.name ++ ", found " ++
      toString found
  | .invalidWeight index weight =>
    "quadrature weight " ++ floatText weight ++ " at index " ++ toString index ++
      " is not a finite positive value"
  | .notUnitVector x y z =>
    "direction (" ++ floatText x ++ ", " ++ floatText y ++ ", " ++ floatText z ++
      ") is not a unit vector"
  | .zeroCosine => "a 1D ordinate requires a non-zero direction cosine within [-1, 1]"
  | .classCountMismatch layout levels ordinates =>
    layout.name ++ " quadrature with " ++ toString levels ++ " levels cannot hold " ++
      toString ordinates ++ " octant ordinates"
  | .intervalClass => "interval quadrature classes cannot be used for octant quadrature"
  | .weightSolve order fault =>
    "failed to solve level symmetric weights for S" ++ toString order ++ ": " ++ fault.message
  | .newtonIteration order =>
    "Newton iteration for Gauss-Legendre S" ++ toString order ++ " did not converge"
  | .degenerateCoefficient l k =>
    "degenerate normalisation coefficient for l=" ++ toString l ++ ", k=" ++ toString k
  | .indexOutOfRange index length =>
    "index " ++ toString index ++ " is out of range for " ++ toString length ++ " values"
  | .missingOrdinates family => family.name ++ " requires an explicit table of ordinates"
  | .missingKeyword line => "configuration is missing the \"" ++ line.name ++ "\" keyword"
  | .malformedLine line => "failed to parse quadrature block near \"" ++ line ++ "\""

end DiscreteOrdinates
