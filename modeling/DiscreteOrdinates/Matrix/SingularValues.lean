import DiscreteOrdinates.Matrix.Inverse
import DiscreteOrdinates.Matrix.Solver

/-!
# Singular values

Plane rotations make the columns of a matrix orthogonal to one another. Their
lengths are then the singular values, and the rotations, collected below the
matrix, give its pseudo-inverses.
-/

namespace DiscreteOrdinates

/-- Columns of equal height in one buffer. The first `height` numbers of each
column are rotated to be orthogonal, the others are carried along. -/
structure ColumnBuffer where
  height : Nat
  stride : Nat
  data : FloatArray

namespace ColumnBuffer

/-- Number `r` of column `j`. -/
@[inline] def get (b : ColumnBuffer) (j r : Nat) : Float :=
  b.data.get! (j * b.stride + r)

/-- The scalar product of the upper parts of two columns. -/
def dot (b : ColumnBuffer) (i j : Nat) : Float :=
  Nat.fold b.height (fun r _ total => total + b.get i r * b.get j r) 0.0

/-- Rotates two columns by the angle with the given cosine and sine. -/
def rotate (b : ColumnBuffer) (i j : Nat) (cos sin : Float) : ColumnBuffer :=
  let ⟨height, stride, data⟩ := b
  let data := Nat.fold stride
    (fun r _ (data : FloatArray) =>
      let x := data.get! (i * stride + r)
      let y := data.get! (j * stride + r)
      (data.set! (i * stride + r) (cos * x - sin * y)).set! (j * stride + r) (sin * x + cos * y))
    data
  ⟨height, stride, data⟩

/-- Two columns count as orthogonal once their scalar product is this small,
relative to their lengths. -/
def orthogonality : Float := 1e-15

/-- Makes columns `i` and `j` orthogonal. The flag tells whether they were not. -/
def orthogonalise (i j : Nat) (b : ColumnBuffer) : ColumnBuffer × Bool :=
  let a := b.dot i i
  let c := b.dot j j
  let p := b.dot i j
  if p == 0.0 || p.abs ≤ orthogonality * (a.sqrt * c.sqrt) then (b, false)
  else
    -- Of the two angles that do it, the smaller one disturbs the other columns less.
    let ζ := (c - a) / (2.0 * p)
    let t := (if ζ < 0.0 then -1.0 else 1.0) / (ζ.abs + (1.0 + ζ * ζ).sqrt)
    let cos := 1.0 / (1.0 + t * t).sqrt
    (b.rotate i j cos (cos * t), true)

/-- Visits every pair of columns once. -/
def sweep (cols : Nat) (b : ColumnBuffer) : ColumnBuffer × Bool :=
  Nat.fold cols
    (fun j _ state =>
      Nat.fold j
        (fun i _ (b, changed) =>
          let (b, rotated) := orthogonalise i j b
          (b, changed || rotated))
        state)
    (b, false)

/-- Sweeps until nothing changes, `limit` times at most. -/
def converge (cols : Nat) : (limit : Nat) → ColumnBuffer → ColumnBuffer
  | 0, b => b
  | limit + 1, b =>
    let (b, changed) := sweep cols b
    if changed then converge cols limit b else b

/-- How often all pairs are visited at most. Convergence is quadratic, so a few
sweeps are enough. -/
def sweepLimit : Nat := 60

end ColumnBuffer

namespace DenseMatrix

/-- The largest magnitude of an entry. -/
def amplitude (A : DenseMatrix Float) : Float :=
  A.toList.foldl (fun largest x => Scalar.larger largest x.abs) 0.0

/-- The columns of a matrix over `scale`, each with a column of the identity
below it. -/
def toColumns (A : DenseMatrix Float) (scale : Float) : ColumnBuffer :=
  let column (j : Fin A.cols) : List Float :=
    (List.ofFn fun i => A.entry i j / scale) ++ List.ofFn fun k : Fin A.cols => unitEntry k j
  ⟨A.rows, A.rows + A.cols, ⟨(List.ofFn column).flatten.toArray⟩⟩

/-- Singular values and pseudo-inverses of a matrix with no more columns than
rows. With columns `σ u` above `v`, the pseudo-inverse is the sum of `v uᵀ / σ`. -/
def decomposeTall (A : DenseMatrix Float) : SingularDecomposition Float :=
  let amplitude := A.amplitude
  let scale := if amplitude == 0.0 then 1.0 else amplitude
  let b := ColumnBuffer.converge A.cols ColumnBuffer.sweepLimit (A.toColumns scale)
  let lengths := (List.range A.cols).map fun j => (b.dot j j).sqrt
  { values := lengths.map (· * scale)
    pseudoInverse := fun cutoff =>
      let kept := lengths.zipIdx.filter fun (σ, _) => cutoff < σ * scale
      ofFn A.cols A.rows fun k m =>
        kept.foldl
          (fun total (σ, j) =>
            total + b.get j (A.rows + k) * (1.0 / (σ * scale)) * (b.get j m / σ))
          0.0 }

/-- Singular values and pseudo-inverses of a matrix. -/
def decompose (A : DenseMatrix Float) : SingularDecomposition Float :=
  if A.cols ≤ A.rows then A.decomposeTall
  else
    let d := A.transpose.decomposeTall
    ⟨d.values, fun cutoff => (d.pseudoInverse cutoff).transpose⟩

end DenseMatrix

instance : MatrixSolver Float :=
  .ofColumns ColumnMatrix.inverse? DenseMatrix.decompose

end DiscreteOrdinates
