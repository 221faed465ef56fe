import DiscreteOrdinates.Ordinate

/-!
# Tables of directions

Direction cosines and weights in parallel columns, as users supply them and as
quadrature sets hold them. A column that a table does not carry is empty.
-/

namespace DiscreteOrdinates

/-- Columns of direction cosines and weights. -/
structure DirectionTable (R : Type) where
  mu : List R
  eta : List R := []
  xi : List R := []
  wt : List R
  deriving BEq, Repr

namespace DirectionTable

variable {R : Type}

/-- The table that lists directions, with `mu`, `eta` and `xi` as the three
cosines. -/
def ofRows (os : List (Ordinate R)) : DirectionTable R :=
  ⟨os.map (·.x), os.map (·.y), os.map (·.z), os.map (·.weight)⟩

variable [Scalar R]

/-- Row `m` of the table, with zero for the cosines that it does not carry. -/
def row (t : DirectionTable R) (m : Nat) : Ordinate R :=
  ⟨Scalar.nth t.mu m, Scalar.nth t.eta m, Scalar.nth t.xi m, Scalar.nth t.wt m⟩

/-- The rows of the table, one for each weight. -/
def rows (t : DirectionTable R) : List (Ordinate R) :=
  (List.range t.wt.length).map t.row

/-! ## Checks -/

/-- A column has to have a certain length. -/
def checkLength (column : Column) (values : List R) (expected : Nat) :
    Except (QuadratureError R) Unit :=
  require (values.length = expected) (.lengthMismatch column expected values.length)

/-- Weights have to be finite and must not be negative. The first one that is
not so is reported. -/
def checkWeights (wt : List R) : Except (QuadratureError R) Unit :=
  match wt.zipIdx.find? fun (w, _) => !Scalar.isFinite w || w < 0.0 with
  | some (w, index) => .error (.invalidWeight index w)
  | none => .ok ()

/-- Every row has to be a direction. Without an `eta` column the only cosine of
a row is `mu`. -/
def checkDirections (t : DirectionTable R) : Except (QuadratureError R) Unit :=
  t.rows.forM fun o => do
    if t.eta.isEmpty then discard (Ordinate.ofCosine o.x o.weight)
    else discard (Ordinate.ofDirection o.x o.y o.z o.weight)

end DirectionTable

end DiscreteOrdinates
