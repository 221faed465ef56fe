/-!
# Moment indices

Degree and order of real spherical harmonic moments, the shells they form, and
which of them a set of some dimension resolves.
-/

namespace DiscreteOrdinates

/-- Degree `l` and order `k` of a moment. Negative orders are those of the
sines. -/
structure MomentIndex where
  l : Nat
  k : Int
  deriving DecidableEq, Repr

namespace MomentIndex

/-- Whether the order does not exceed the degree. -/
def isValid (i : MomentIndex) : Bool :=
  i.k.natAbs ≤ i.l

/-- Whether a set of the given dimension resolves the moment: in one dimension
the order is zero, in the plane it is not negative. -/
def isResolvedIn (dimension : Nat) (i : MomentIndex) : Bool :=
  match dimension with
  | 1 => i.k == 0
  | 2 => 0 ≤ i.k
  | _ => true

/-- The text of a moment. -/
def text (i : MomentIndex) : String :=
  "(" ++ toString i.l ++ "," ++ toString i.k ++ ")"

/-- The moments of degree `l`, orders ascending. -/
def shell (l : Nat) : List MomentIndex :=
  (List.range (2 * l + 1)).map fun p : Nat => ⟨l, (p : Int) - l⟩

/-- The moments of degree `l` that a set of the given dimension resolves, orders
ascending. -/
def resolvedShell (dimension l : Nat) : List MomentIndex :=
  match dimension with
  | 1 => [⟨l, 0⟩]
  | 2 => (List.range (l + 1)).map fun k : Nat => ⟨l, k⟩
  | _ => shell l

/-- The moments of all degrees below `n` that a set of the given dimension
resolves. -/
def resolvedBelow (dimension n : Nat) : List MomentIndex :=
  (List.range n).flatMap (resolvedShell dimension)

end MomentIndex

end DiscreteOrdinates
