import DiscreteOrdinates.Proofs.RealScalar
import DiscreteOrdinates.Quadrature.Table

/-!
# Columns of the rows

The rows of a table have the entries of its columns, as far as these are as long as the
column of weights.
-/

namespace DiscreteOrdinates

namespace DirectionTable

variable {R : Type} [Scalar R] {t : DirectionTable R}

/-- What is read from the rows at the places of a column is the column. -/
theorem map_rows_eq {read : Ordinate R → R} {column : List R}
    (hread : ∀ m, read (t.row m) = Scalar.nth column m) (h : column.length = t.wt.length) :
    t.rows.map read = column := by
  refine List.ext_getElem (by rw [List.length_map, rows, List.length_map, List.length_range, h])
    fun m _ hm => ?_
  simp only [rows, List.getElem_map, List.getElem_range, hread, Scalar.nth,
    List.getElem?_eq_getElem hm, Option.getD_some]

theorem map_weight_rows (t : DirectionTable R) : t.rows.map (·.weight) = t.wt :=
  map_rows_eq (fun _ => rfl) rfl

theorem map_x_rows (h : t.mu.length = t.wt.length) : t.rows.map (·.x) = t.mu :=
  map_rows_eq (fun _ => rfl) h

theorem map_y_rows (h : t.eta.length = t.wt.length) : t.rows.map (·.y) = t.eta :=
  map_rows_eq (fun _ => rfl) h

theorem map_z_rows (h : t.xi.length = t.wt.length) : t.rows.map (·.z) = t.xi :=
  map_rows_eq (fun _ => rfl) h

end DirectionTable

end DiscreteOrdinates
