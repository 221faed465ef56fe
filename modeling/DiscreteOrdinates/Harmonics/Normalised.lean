import DiscreteOrdinates.Harmonics.Spherical

/-!
# Normalised harmonics

The orthonormal spherical harmonics once more, through the recurrence of the
fully normalised Legendre functions. No factorial and no factorial ratio occurs,
and orders above the degree give zero.
-/

namespace DiscreteOrdinates

namespace NormalisedHarmonic

variable {R : Type} [Scalar R]

/-- The normalised function of equal degree and order. -/
def sectoral (m : Nat) (x : R) : R :=
  let s := Scalar.sqrt (Scalar.positivePart (1.0 - x * x))
  Nat.fold m
    (fun i _ p => p * (Scalar.sqrt (((2 * i + 1 : Nat) : R) / (2 * i + 2 : Nat)) * s))
    (Scalar.sqrt ((2 * m + 1 : Nat) : R))

/-- The factor of the recurrence in front of degree `n`. -/
def lead (n m : R) : R :=
  Scalar.sqrt ((4.0 * n * n - 1.0) / (n * n - m * m))

/-- The factor of the recurrence in front of degree `n - 2`. -/
def trail (n m : R) : R :=
  Scalar.sqrt
    ((Scalar.power (n - 1.0) 2 - m * m) / (4.0 * Scalar.power (n - 1.0) 2 - 1.0))

/-- The normalised functions of order `m` and degrees `m + 1 + steps` and
`m + steps`. -/
def climb (m : Nat) (x : R) (steps : Nat) : R × R :=
  let start := sectoral m x
  Nat.fold steps
    (fun i _ (p, previous) =>
      let n : R := (m + 2 + i : Nat)
      (lead n (m : Nat) * (x * p - trail n (m : Nat) * previous), p))
    (Scalar.sqrt ((2 * m + 3 : Nat) : R) * x * start, start)

/-- The normalised function of degree `l` and order `m ≤ l`. -/
def legendre (l m : Nat) (x : R) : R :=
  if l = m then sectoral m x else (climb m x (l - m - 1)).1

/-- The harmonic of degree `l` and order `k` at a polar cosine and an azimuth. -/
def value (l : Nat) (k : Int) (x φ norm : R) : R :=
  if l < k.natAbs then 0.0
  else
    Scalar.sqrt ((2.0 - Harmonic.delta k.natAbs 0) / norm) * legendre l k.natAbs x
      * Harmonic.azimuthalFactor k φ

end NormalisedHarmonic

end DiscreteOrdinates
