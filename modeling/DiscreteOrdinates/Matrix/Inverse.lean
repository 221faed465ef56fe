import DiscreteOrdinates.Matrix.ColumnMajor

/-!
# Inverses

The inverse of a square matrix. Up to four rows it is the adjugate over the
determinant; larger systems are eliminated with partial pivoting, all columns of
the identity at once. A matrix is singular if its determinant, or the best pivot
of a step, is zero.
-/

namespace DiscreteOrdinates

variable {R : Type} [Scalar R]

/-! ## Cofactors -/

namespace Cofactor

/-- The determinant of rows `r`, `s` and columns `c`, `d`. -/
def minor2 (a : Nat → Nat → R) (r s c d : Nat) : R :=
  a r c * a s d - a s c * a r d

/-- The determinant of rows `r`, `s`, `t` and columns `c`, `d`, `e`. -/
def minor3 (a : Nat → Nat → R) (r s t c d e : Nat) : R :=
  a r c * a s d * a t e - a r c * a t d * a s e - a r d * a s c * a t e
    + a r d * a t c * a s e + a r e * a s c * a t d - a r e * a t c * a s d

/-- Place `p` among the rows or columns without number `i`. -/
def skip (i p : Nat) : Nat :=
  if p < i then p else p + 1

/-- The sign of a cofactor. -/
def signed (i j : Nat) (x : R) : R :=
  if (i + j) % 2 = 0 then x else -x

/-- The cofactor of entry `(i, j)` in three dimensions. Below the first row the
sign is changed by exchanging the columns of the minor, so that a cofactor that
cancels is not negated. -/
def cofactor3 (a : Nat → Nat → R) (i j : Nat) : R :=
  let r := skip i 0
  let s := skip i 1
  let c := skip j 0
  let d := skip j 1
  if i = 0 then signed i j (minor2 a r s c d)
  else if (i + j) % 2 = 0 then minor2 a r s c d
  else minor2 a r s d c

/-- The entries with the signs of row `r` changed. -/
def negateRow (a : Nat → Nat → R) (r : Nat) : Nat → Nat → R :=
  fun i j => if i = r then -a i j else a i j

/-- The cofactor of entry `(i, j)` in four dimensions. The sign is changed in the
first row of the minor. -/
def cofactor4 (a : Nat → Nat → R) (i j : Nat) : R :=
  let a := if (i + j) % 2 = 0 then a else negateRow a (skip i 0)
  minor3 a (skip i 0) (skip i 1) (skip i 2) (skip j 0) (skip j 1) (skip j 2)

/-- The matrix of a function, unless the determinant is zero. -/
def unlessZero (n : Nat) (determinant : R) (f : Nat → Nat → R) : Option (DenseMatrix R) :=
  if determinant == 0.0 then none else some (DenseMatrix.ofFn n n fun i j => f i j)

/-- The inverse of a matrix with one row. -/
def inverse1 (a : Nat → Nat → R) : Option (DenseMatrix R) :=
  unlessZero 1 (a 0 0) fun _ _ => 1.0 / a 0 0

/-- The inverse of a matrix with two rows. -/
def inverse2 (a : Nat → Nat → R) : Option (DenseMatrix R) :=
  let determinant := minor2 a 0 1 0 1
  unlessZero 2 determinant fun i j => signed i j (a (1 - j) (1 - i)) / determinant

/-- The inverse of a matrix with three rows, developed along the first row. -/
def inverse3 (a : Nat → Nat → R) : Option (DenseMatrix R) :=
  let determinant :=
    a 0 0 * minor2 a 1 2 1 2 - a 0 1 * minor2 a 1 2 0 2 + a 0 2 * minor2 a 1 2 0 1
  unlessZero 3 determinant fun i j => cofactor3 a j i / determinant

/-- The inverse of a matrix with four rows, developed along the first column. -/
def inverse4 (a : Nat → Nat → R) : Option (DenseMatrix R) :=
  let determinant :=
    a 0 0 * cofactor4 a 0 0 + a 1 0 * cofactor4 a 1 0 + a 2 0 * cofactor4 a 2 0
      + a 3 0 * cofactor4 a 3 0
  unlessZero 4 determinant fun i j => cofactor4 a j i * (1.0 / determinant)

end Cofactor

/-! ## Elimination -/

namespace Elimination

/-- An equation: the coefficients of the unknowns that are left, and the right
hand sides of all systems that are solved together. -/
structure Equation (R : Type) where
  coefficients : List R
  values : List R

/-- The magnitude of the first coefficient. -/
def Equation.size (e : Equation R) : R :=
  Scalar.abs (e.coefficients.headD 0.0)

/-- The number of the first equation whose leading coefficient is largest. -/
def pivotIndex : List (Equation R) → Nat
  | [] => 0
  | e :: es =>
    let choose (best : Nat × R) (next : Equation R × Nat) : Nat × R :=
      if best.2 < next.1.size then (next.2, next.1.size) else best
    ((es.zipIdx 1).foldl choose (0, e.size)).1

/-- Exchanges the first equation with the pivot. -/
def exchange (es : List (Equation R)) : List (Equation R) :=
  match es, pivotIndex es with
  | [], _ => []
  | e :: rest, 0 => e :: rest
  | e :: rest, p + 1 =>
    match rest[p]? with
    | some pivot => pivot :: rest.set p e
    | none => e :: rest

/-- Subtracts a multiple of the second list from the first one. -/
def subtract (factor : R) (xs ys : List R) : List R :=
  xs.zipWith (fun x y => -y * factor + x) ys

/-- Eliminates the leading unknown of `pivot` from an equation. -/
def reduce (pivot : Equation R) (inverse : R) (e : Equation R) : Equation R :=
  let factor := e.coefficients.headD 0.0 * inverse
  ⟨subtract factor e.coefficients.tail pivot.coefficients.tail,
    subtract factor e.values pivot.values⟩

/-- Brings `n` equations into triangular form, none if a pivot is zero. -/
def triangulate : (n : Nat) → List (Equation R) → Option (List (Equation R))
  | 0, _ => some []
  | n + 1, es =>
    match exchange es with
    | [] => some []
    | pivot :: rest =>
      let leading := pivot.coefficients.headD 0.0
      if leading == 0.0 then none
      else (triangulate n (rest.map (reduce pivot (1.0 / leading)))).map (pivot :: ·)

/-- Solves triangular equations from the last one upwards. -/
def backSubstitute (es : List (Equation R)) : List (List R) :=
  es.foldr
    (fun e solved =>
      let known := (e.coefficients.tail.zip solved).foldr
        (fun (c, xs) values => values.zipWith (fun v x => -x * c + v) xs) e.values
      known.map (· / e.coefficients.headD 0.0) :: solved)
    []

/-- The equations `A x = e` for all unit vectors `e`. -/
def unitSystem (A : DenseMatrix R) : List (Equation R) :=
  List.ofFn fun i => ⟨A.row i, List.ofFn fun j : Fin A.rows => DenseMatrix.unitEntry i j⟩

/-- The inverse by elimination. -/
def inverse? (A : DenseMatrix R) : Option (DenseMatrix R) :=
  match triangulate A.rows (unitSystem A) with
  | none => none
  | some triangle => (DenseMatrix.ofList A.rows A.rows (backSubstitute triangle).flatten).toOption

end Elimination

/-- The inverse of a square matrix, none if it is singular. -/
def DenseMatrix.inverse? (A : DenseMatrix R) : Option (DenseMatrix R) :=
  let a (i j : Nat) : R := (A.get? i j).getD 0.0
  if A.rows ≠ A.cols then none
  else
    match A.rows with
    | 1 => Cofactor.inverse1 a
    | 2 => Cofactor.inverse2 a
    | 3 => Cofactor.inverse3 a
    | 4 => Cofactor.inverse4 a
    | _ => Elimination.inverse? A

/-- The inverse of a square matrix in the layout of columns. -/
def ColumnMatrix.inverse? (A : ColumnMatrix R) : Option (ColumnMatrix R) :=
  A.toDense.inverse?.map DenseMatrix.toColumnMatrix

end DiscreteOrdinates
