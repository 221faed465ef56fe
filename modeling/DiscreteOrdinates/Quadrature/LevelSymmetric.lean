import DiscreteOrdinates.Matrix.Solver
import DiscreteOrdinates.Quadrature.Reflection

/-!
# Level symmetric sets

The cosines of an octant follow

    μ i ² = μ 0 ² + i · 2 (1 - 3 μ 0 ²) / (N - 2),    i < N / 2

and the octant holds every direction `(μ i, μ j, μ k)` with
`i + j + k = N / 2 - 1`. Directions that are permutations of one another share a
weight. The weights are those for which the octant integrates all even monomials
of degree up to `N - 2`.
-/

namespace DiscreteOrdinates

namespace LevelSymmetric

variable {R : Type} [Scalar R]

/-! ## Directions -/

/-- The first cosine of each order from four on. -/
def firstCosines : List (Nat × R) :=
  [(4, 0.350021174582), (6, 0.266635401517), (8, 0.218217890450), (10, 0.189321326478),
   (12, 0.167212652823), (14, 0.151985861461), (16, 0.138956875067)]

/-- The cosines that follow from the first one. -/
def cosinesFrom (order : Nat) (first : R) : List R :=
  let step := 2.0 * (1.0 - 3.0 * first * first) / (order - 2 : Nat)
  (List.range (order / 2)).map fun i => Scalar.sqrt (first * first + (i : Nat) * step)

/-- The cosines of an octant, ascending. -/
def cosines (order : Nat) : Except (QuadratureError R) (List R) := do
  require (2 ≤ order ∧ order % 2 = 0) (.unsupportedOrder .levelSymmetric order .notEven)
  if order = 2 then return [1.0 / Scalar.sqrt 3.0]
  else
    match firstCosines.lookup order with
    | some first => return cosinesFrom order first
    | none => .error (.unsupportedOrder .levelSymmetric order .notTabulated)

/-- The place of a direction in the octant: the numbers of its three cosines. -/
abbrev Place := Nat × Nat × Nat

/-- The places of an octant with `half` cosines. -/
def places (half : Nat) : List Place :=
  (List.range half).flatMap fun i =>
    (List.range (half - i)).map fun j => (i, j, half - 1 - i - j)

/-- The permutations of a place are exactly the places with the same class. -/
def placeClass : Place → List Nat
  | (i, j, k) => [i, j, k].mergeSort

/-- The classes of an octant in the order in which they appear. -/
def classes (half : Nat) : List (List Nat) :=
  ((places half).map placeClass).eraseDups

/-! ## Moment equations -/

/-- `(2n - 1)!!`. -/
def oddFactorial (n : Nat) : R :=
  Nat.fold n (fun i _ product => product * (2 * i + 1 : Nat)) 1.0

/-- Halves of the exponents of an even monomial, in descending order. -/
structure Monomial where
  a : Nat
  b : Nat
  c : Nat
  deriving DecidableEq, Repr

namespace Monomial

/-- The monomials of degree `2n`, one for each way to share the degree. -/
def ofDegree (n : Nat) : List Monomial :=
  let down := (List.range (n + 1)).reverse
  (down.flatMap fun a => down.map fun b => (⟨a, b, n - a - b⟩ : Monomial)).filter fun m =>
    m.b ≤ m.a && m.a + m.b ≤ n && m.c ≤ m.b

/-- The monomials of degree up to `2 (half - 1)`. -/
def below (half : Nat) : List Monomial :=
  (List.range half).flatMap ofDegree

/-- The mean of the monomial over the sphere. -/
def mean (m : Monomial) : R :=
  oddFactorial m.a * oddFactorial m.b * oddFactorial m.c / oddFactorial (m.a + m.b + m.c + 1)

/-- The monomial at a place. -/
def value (mu : List R) (m : Monomial) : Place → R
  | (i, j, k) =>
    Scalar.power (Scalar.nth mu i) (2 * m.a) * Scalar.power (Scalar.nth mu j) (2 * m.b)
      * Scalar.power (Scalar.nth mu k) (2 * m.c)

end Monomial

/-- The coefficient of a class in the equation of a monomial: its sum over the
places of the class. -/
def coefficient (half : Nat) (mu : List R) (m : Monomial) (cls : List Nat) : R :=
  ((places half).filter fun p => placeClass p = cls).foldl (fun total p => total + m.value mu p) 0.0

/-- The matrix of the moment equations, a row for each monomial and a column for
each class. -/
def system (half : Nat) (mu : List R) : DenseMatrix R :=
  let monomials := Monomial.below half
  let classes := classes half
  DenseMatrix.ofFn monomials.length classes.length fun r c =>
    coefficient half mu (monomials.get r) (classes.get c)

/-- The largest magnitude in a list. -/
def amplitude (xs : List R) : R :=
  xs.foldl (fun largest x => Scalar.larger largest (Scalar.abs x)) 0.0

/-- Singular values up to this one count as zero in the weight equations. -/
def solveCutoff : R := 1e-14

/-- Residual up to which the weights are taken to solve their equations. -/
def residualTolerance : R := 1e-8

/-! ## Octants -/

/-- The weights of the places of an octant before they are scaled, from the
weights of the classes. -/
def placeWeights (half : Nat) (solution : List R) : List R :=
  (places half).map fun p =>
    Scalar.nth solution ((classes half).idxOf (placeClass p))

/-- The first octant of a set, with weights that sum to one. -/
def octant [MatrixSolver R] (order : Nat) : Except (QuadratureError R) (List (Ordinate R)) := do
  let mu ← cosines order
  let half := order / 2
  let equations := system half mu
  let means : List R := (Monomial.below half).map Monomial.mean
  let solution :=
    ((MatrixSolver.decompose equations).pseudoInverse solveCutoff |>.mulVec means).toOption.getD []
  let residual := amplitude <|
    ((equations.mulVec solution).toOption.getD []).zipWith (· - ·) means
  require (¬ residualTolerance < residual) (.weightSolve order (.inconsistent residual))
  let weights := placeWeights half solution
  match weights.find? fun w => w ≤ 0.0 || !Scalar.isFinite w with
  | some w => .error (.weightSolve order (.notPositive w))
  | none =>
    let total := Scalar.sum weights
    return (places half).zipWith
      (fun (i, j, k) w =>
        ⟨Scalar.nth mu i, Scalar.nth mu j, Scalar.nth mu k, w / total⟩)
      weights

/-- An octant reflected in every sign of `mu` and `eta` and the given signs of
`xi`, its weights multiplied by `scale`. -/
def reflect (xiSigns : List R) (scale : R) (octant : List (Ordinate R)) : DirectionTable R :=
  DirectionTable.ofRows
    ((Ordinate.images (Signs.withXi xiSigns) octant).map fun o => o.withWeight (o.weight * scale))

/-- The set over all eight octants. -/
def spaceTable (octant : List (Ordinate R)) (norm : R) : DirectionTable R :=
  reflect Signs.both (norm / 8.0) octant

/-- The set over the four octants with `xi > 0`. -/
def planeTable (octant : List (Ordinate R)) (norm : R) : DirectionTable R :=
  reflect [1.0] (norm / 4.0) octant

end LevelSymmetric

end DiscreteOrdinates
