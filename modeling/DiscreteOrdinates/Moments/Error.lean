import DiscreteOrdinates.Matrix.Text
import DiscreteOrdinates.Moments.Index
import DiscreteOrdinates.Quadrature.Error

/-!
# Moment errors

The causes for which there are no moment operators, each with its wording.
-/

namespace DiscreteOrdinates

/-- What is wrong with a moment. -/
inductive MomentFault where
  | orderExceedsDegree
  | notResolved
  deriving DecidableEq, Repr

/-- Why something about moments is refused. -/
inductive MomentError (R : Type) where
  | quadrature (cause : QuadratureError R)
  | unsupportedInterpolation (model : Interpolation) (layout : Layout) (dimension : Nat)
  | expansionOrderNotAllowed (model : Interpolation)
  | momentCount (model : Interpolation) (expected found : Nat)
  | noMoments
  | tooManyMoments (moments angles : Nat)
  | invalidMoment (index : MomentIndex) (fault : MomentFault)
  | duplicateMoment (index : MomentIndex)
  | singularOperator (model : Interpolation)
  | rankDeficient (ratio : R)
  | negativeWeight (index : Nat) (weight : R)
  | shape (cause : ShapeMismatch)
  | indexOutOfRange (index length : Nat)
  deriving Repr

/-- The wording of a moment fault. -/
def MomentFault.message : MomentFault → String
  | .orderExceedsDegree => "order exceeds degree"
  | .notResolved => "not resolved by the quadrature dimension"

/-- The wording of a moment error. -/
def MomentError.message : MomentError Float → String
  | .quadrature cause => cause.message
  | .unsupportedInterpolation model layout dimension =>
    model.name ++ " interpolation is not supported for " ++ toString dimension ++ "D " ++
      layout.name ++ " quadrature"
  | .expansionOrderNotAllowed model =>
    "an expansion order can only be chosen for SVD interpolation, not " ++ model.name
  | .momentCount model expected found =>
    model.name ++ " interpolation needs " ++ toString expected ++ " moments, found " ++
      toString found
  | .noMoments => "at least one moment is needed"
  | .tooManyMoments moments angles =>
    toString moments ++ " moments cannot be resolved by " ++ toString angles ++ " angles"
  | .invalidMoment index fault => "moment " ++ index.text ++ " is not valid: " ++ fault.message
  | .duplicateMoment index => "moment " ++ index.text ++ " appears more than once"
  | .singularOperator model => model.name ++ " moment operator is singular"
  | .rankDeficient ratio =>
    "moment operator is rank deficient, singular value ratio " ++
      (Binary.ofFloat ratio).scientificText 3
  | .negativeWeight index weight =>
    "weighted interpolation needs non-negative weights, found " ++ floatText weight ++
      " at index " ++ toString index
  | .shape cause => cause.message
  | .indexOutOfRange index length =>
    "index " ++ toString index ++ " is out of range for " ++ toString length ++ " values"

end DiscreteOrdinates
