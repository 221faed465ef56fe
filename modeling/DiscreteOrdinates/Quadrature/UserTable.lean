import DiscreteOrdinates.Quadrature.Table
import DiscreteOrdinates.SoftEquality

/-!
# User tables

Complete sets that a user supplies. In one dimension only `mu` counts, in the
plane `xi` may be left out and is completed to unit vectors, in space every
column is needed.
-/

namespace DiscreteOrdinates

variable {R : Type} [Scalar R]

/-- Precision, relative to the norm, to which weights have to add up. -/
def weightTolerance : R := 1e-10

namespace DirectionTable

/-- The cosine that completes two others to a unit vector. -/
def completion (mu eta : R) : R :=
  Scalar.sqrt (Scalar.positivePart (1.0 - mu * mu - eta * eta))

/-- The columns that a set of the given dimension carries. -/
def carried (dimension : Nat) (t : DirectionTable R) :
    Except (QuadratureError R) (DirectionTable R) :=
  let n := t.mu.length
  match dimension with
  | 1 => return { mu := t.mu, wt := t.wt }
  | 2 => do
    checkLength .eta t.eta n
    if t.xi.isEmpty then return { t with xi := t.mu.zipWith completion t.eta }
    else
      checkLength .xi t.xi n
      return t
  | 3 => do
    checkLength .eta t.eta n
    checkLength .xi t.xi n
    return t
  | _ => .error (.unsupportedDimension .general dimension)

/-- What a table of a user goes through before its rows are looked at. -/
def prepared (dimension : Nat) (t : DirectionTable R) :
    Except (QuadratureError R) (DirectionTable R) := do
  require (t.mu ≠ []) (.lengthMismatch .mu 1 0)
  checkLength .wt t.wt t.mu.length
  checkWeights t.wt
  carried dimension t

/-- The table of a user set: unit vectors whose weights sum to the norm. -/
def checked (dimension : Nat) (norm : R) (t : DirectionTable R) :
    Except (QuadratureError R) (DirectionTable R) := do
  let t ← prepared dimension t
  checkDirections t
  let total := Scalar.sum t.wt
  require (softEq total norm weightTolerance) (.closureFailure .zeroth norm total)
  return t

end DirectionTable

end DiscreteOrdinates
