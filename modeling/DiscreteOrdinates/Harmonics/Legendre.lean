import DiscreteOrdinates.Scalar

/-!
# Legendre functions

Legendre polynomials and associated Legendre functions by upward recurrence in
the degree. The functions are those without the Condon-Shortley phase.
-/

namespace DiscreteOrdinates

namespace Legendre

variable {R : Type} [Scalar R]

/-- The values `P n z` and `P (n - 1) z` of neighbouring Legendre polynomials,
the latter zero for `n = 0`. -/
@[specialize] def neighbours (n : Nat) (z : R) : R × R :=
  Nat.fold n
    (fun j _ (p, previous) =>
      (((2 * j + 1 : Nat) * z * p - (j : Nat) * previous) / (j + 1 : Nat), p))
    (1.0, 0.0)

/-- The derivative of `P n` at `z`, from the values of `P n` and `P (n - 1)`
there. -/
def slope (n : Nat) (z p previous : R) : R :=
  (n : Nat) * (z * p - previous) / (z * z - 1.0)

/-- The function of equal degree and order, `(2m - 1)!! (1 - x²)^(m/2)`. -/
@[specialize] def sectoral (m : Nat) (x : R) : R :=
  let s := Scalar.sqrt (Scalar.positivePart (1.0 - x * x))
  Nat.fold m (fun i _ p => p * ((2 * i + 1 : Nat) * s)) 1.0

/-- The functions of order `m` and degrees `m + 1 + steps` and `m + steps`. -/
@[specialize] def climb (m : Nat) (x : R) (steps : Nat) : R × R :=
  let start := sectoral m x
  Nat.fold steps
    (fun i _ (p, previous) =>
      ((x * (2 * (m + i) + 3 : Nat) * p - (2 * m + i + 1 : Nat) * previous) / (i + 2 : Nat), p))
    (x * (2 * m + 1 : Nat) * start, start)

/-- The associated Legendre function of degree `l` and order `m`, zero for
`m > l`. -/
@[specialize] def associated (l m : Nat) (x : R) : R :=
  if l < m then 0.0
  else if l = m then sectoral m x
  else (climb m x (l - m - 1)).1

/-- The Legendre polynomial of degree `l`. -/
def polynomial (l : Nat) (x : R) : R :=
  associated l 0 x

end Legendre

end DiscreteOrdinates
