import DiscreteOrdinates.Sample
import DiscreteOrdinates.Ordinate

/-!
# Levels

Ordinates whose `z` cosines practically agree form a level. In curvilinear
geometries each level opens with a direction without weight, and on a mesh of
one dimension directions with the same `x` collapse into one.
-/

namespace DiscreteOrdinates

variable {R : Type} [Scalar R]

/-- Cosines that differ by no more than this count as equal. -/
def levelTolerance : R := 1e-12

namespace Ordinate

/-! ## Level starts -/

/-- The direction that opens the level of the cosine `z`: the most negative `x`
that a unit vector can have there, without weight. -/
def levelStart (z : R) : Ordinate R :=
  ⟨-Scalar.sqrt (Scalar.positivePart (1.0 - z * z)), 0.0, z, 0.0⟩

/-- Whether `z` lies outside the level that was opened at `current`. -/
def opensLevel (current : Option R) (z : R) : Bool :=
  match current with
  | none => true
  | some current => levelTolerance < Scalar.abs (z - current)

/-- Ordinates in sweep order with a start in front of every level, where
`current` is the cosine that opened the level before them. -/
def withStartsFrom (current : Option R) : List (Ordinate R) → List (Ordinate R)
  | [] => []
  | o :: os =>
    -- Compared with the opening, not with the last ordinate, a level cannot drift.
    if opensLevel current o.z then levelStart o.z :: o :: withStartsFrom (some o.z) os
    else o :: withStartsFrom current os

/-- Ordinates in sweep order with a start in front of every level. -/
def withStarts (os : List (Ordinate R)) : List (Ordinate R) :=
  withStartsFrom none os

/-! ## Collapse -/

/-- Adds the weights of the ordinates that follow to the cosine `x` with weight
`w`, as long as their own cosine counts as equal to it. -/
def gather (x w : R) : List (Ordinate R) → List (Ordinate R)
  | [] => [⟨x, 0.0, 0.0, w⟩]
  | o :: os =>
    if Scalar.abs (o.x - x) ≤ levelTolerance then gather x (w + o.weight) os
    else ⟨x, 0.0, 0.0, w⟩ :: gather o.x o.weight os

/-- One ordinate for each distinct `x`, ascending, with the weights of all
ordinates that share it. -/
def collapse (os : List (Ordinate R)) : List (Ordinate R) :=
  match os.mergeSort fun a b => (Scalar.order a.x b.x).isLE with
  | [] => []
  | o :: os => gather o.x o.weight os

end Ordinate

end DiscreteOrdinates
