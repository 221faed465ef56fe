import DiscreteOrdinates.Harmonics.Legendre
import DiscreteOrdinates.Ordinate

/-!
# Real spherical harmonics

Directions have `x` as their polar cosine and an azimuth in the plane of `z` and
`y`. The tesseral harmonic of degree `l` and order `k` is

    c l k · P l |k| x · T k φ

with `T k φ = cos (k φ)` for `k ≥ 0` and `sin (|k| φ)` otherwise.
-/

namespace DiscreteOrdinates

namespace Harmonic

variable {R : Type} [Scalar R]

/-! ## Normalisation -/

/-- The factorial of an integer, one for all that are not positive. -/
def factorial (n : Int) : R :=
  Nat.fold (n.toNat - 1) (fun i _ product => product * (i + 2 : Nat)) 1.0

/-- One for equal arguments, zero otherwise. -/
def delta {α : Type} [BEq α] (a b : α) : R :=
  if a == b then 1.0 else 0.0

/-- The ratio `(l - m)! / (l + m)!`, one factor after the other so that no
factorial is formed. -/
def factorialRatio (l m : Nat) : R :=
  Nat.fold (2 * m) (fun i _ ratio => ratio / (l - m + 1 + i : Nat)) 1.0

/-- The normalisation `√((2 - δ k 0) (l - |k|)! / (l + |k|)!)`. An order above
the degree, or a value that is not finite and positive, is an error. -/
def coefficient (l : Nat) (k : Int) : Except (QuadratureError R) R :=
  if l < k.natAbs then .error (.degenerateCoefficient l k)
  else
    let c := Scalar.sqrt ((2.0 - delta k 0) * factorialRatio l k.natAbs)
    if Scalar.isFinite c ∧ 0.0 < c then .ok c else .error (.degenerateCoefficient l k)

/-! ## Azimuth -/

/-- Cosines of smaller magnitude have no azimuth: twice the unit roundoff. -/
def poleTolerance : R := 2.220446049250313080847263336181640625e-16

/-- The azimuth in `[0, 2π)` of the direction with cosines `y` and `z`, zero on
the polar axis. -/
def azimuth (y z : R) : R :=
  if Scalar.abs y < poleTolerance ∧ Scalar.abs z < poleTolerance then 0.0
  else
    let φ := Scalar.atan2 y z
    if φ < 0.0 then φ + 2.0 * Scalar.pi else φ

/-- `cos (k φ)` for `k ≥ 0` and `sin (|k| φ)` otherwise. -/
def azimuthalFactor (k : Int) (φ : R) : R :=
  if 0 ≤ k then Scalar.cos ((k.natAbs : Nat) * φ) else Scalar.sin ((k.natAbs : Nat) * φ)

/-! ## Harmonics -/

/-- The tesseral harmonic at an ordinate, without the norm of a set. -/
def tesseral (l : Nat) (k : Int) (o : Ordinate R) : Except (QuadratureError R) R := do
  let c ← coefficient l k
  return c * Legendre.associated l k.natAbs o.x * azimuthalFactor k (azimuth o.y o.z)

/-- The harmonic that is orthonormal over a sphere of total weight `norm`. -/
def spherical (l : Nat) (k : Int) (o : Ordinate R) (norm : R) : Except (QuadratureError R) R := do
  return Scalar.sqrt ((2 * l + 1 : Nat) / norm) * (← tesseral l k o)

end Harmonic

end DiscreteOrdinates
