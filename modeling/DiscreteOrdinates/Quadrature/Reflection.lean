import DiscreteOrdinates.Quadrature.Table

/-!
# Reflections

Images of the directions of one octant in the other octants.
-/

namespace DiscreteOrdinates

variable {R : Type} [Scalar R]

/-- A choice of signs for the three cosines. -/
structure Signs (R : Type) where
  mu : R
  eta : R
  xi : R

namespace Signs

/-- Both signs, the negative one first. -/
def both : List R := [-1.0, 1.0]

/-- All signs of `mu` and `eta` for given signs of `xi`; `mu` changes fastest. -/
def withXi (xiSigns : List R) : List (Signs R) :=
  xiSigns.flatMap fun xi => both.flatMap fun eta => both.map fun mu => ⟨mu, eta, xi⟩

end Signs

namespace Ordinate

/-- The image of a direction under a change of signs. -/
def reflect (s : Signs R) (o : Ordinate R) : Ordinate R :=
  ⟨s.mu * o.x, s.eta * o.y, s.xi * o.z, o.weight⟩

/-- The same direction with another weight. -/
def withWeight (w : R) (o : Ordinate R) : Ordinate R :=
  ⟨o.x, o.y, o.z, w⟩

/-- The images of an octant under several changes of signs, octant by octant. -/
def images (signs : List (Signs R)) (octant : List (Ordinate R)) : List (Ordinate R) :=
  signs.flatMap fun s => octant.map (reflect s)

end Ordinate

end DiscreteOrdinates
