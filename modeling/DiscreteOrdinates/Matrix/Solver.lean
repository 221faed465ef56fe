import DiscreteOrdinates.Matrix.ColumnMajor

/-!
# Solvers

What the moment operators and the level symmetric weights need from linear
algebra: the inverse of a square matrix, and the singular values of a matrix
together with its pseudo-inverses.
-/

namespace DiscreteOrdinates

/-- A matrix after its singular values have been found. -/
structure SingularDecomposition (R : Type) where
  /-- The singular values, in no particular order. -/
  values : List R
  /-- The pseudo-inverse in which singular values up to a cutoff count as zero. -/
  pseudoInverse : (cutoff : R) → DenseMatrix R

/-- Linear algebra over a scalar type. -/
class MatrixSolver (R : Type) where
  /-- The inverse of a square matrix, none if it is singular. -/
  inverse? : DenseMatrix R → Option (DenseMatrix R)
  /-- The singular values and the pseudo-inverses of a matrix. -/
  decompose : DenseMatrix R → SingularDecomposition R

/-- The solver that inverts a matrix in the layout of columns, and brings the
inverse back into the layout of rows. -/
@[reducible] def MatrixSolver.ofColumns {R : Type}
    (inverse? : ColumnMatrix R → Option (ColumnMatrix R))
    (decompose : DenseMatrix R → SingularDecomposition R) : MatrixSolver R where
  inverse? A := (inverse? A.toColumnMatrix).map ColumnMatrix.toDense
  decompose := decompose

end DiscreteOrdinates
