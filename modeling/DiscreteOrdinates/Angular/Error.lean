import DiscreteOrdinates.Quadrature.Error

/-!
# Errors of angular redistribution

The causes for which there are no redistribution coefficients, each with its
wording.
-/

namespace DiscreteOrdinates

/-- Why angular redistribution is refused. -/
inductive AngularError (R : Type) where
  | quadrature (cause : QuadratureError R)
  | sample (cause : SampleError R)
  | noWeight
  | emptyLevel (level : Nat)
  | degenerateInterval (index : Nat)
  | notDependent (index : Nat)
  | indexOutOfRange (index length : Nat)
  deriving Repr

/-- The wording of an error of angular redistribution. -/
def AngularError.message : AngularError Float → String
  | .quadrature cause => cause.message
  | .sample cause => cause.message
  | .noWeight => "ordinate set carries no weight"
  | .emptyLevel level => "level " ++ toString level ++ " has no weighted ordinates"
  | .degenerateInterval index =>
    "ordinate " ++ toString index ++ " does not lie between its level edges"
  | .notDependent index =>
    "ordinate " ++ toString index ++ " does not depend on a preceding ordinate"
  | .indexOutOfRange index length =>
    "index " ++ toString index ++ " is out of range for " ++ toString length ++ " ordinates"

end DiscreteOrdinates
