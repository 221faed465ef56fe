import DiscreteOrdinates.Proofs.Matrix.Product

/-!
# Filling a matrix

When a matrix cannot be filled, and what is reported then: it is filled row by row,
and the first entry that fails is the answer (`ofFnM_eq_error_iff`).
-/

namespace DiscreteOrdinates

/-- A vector is filled up to the first element that fails. -/
theorem vector_ofFnM_eq_error_iff {ε α : Type} {n : ℕ} {f : Fin n → Except ε α} {e : ε} :
    Vector.ofFnM f = .error e ↔ ∃ p, f p = .error e ∧ ∀ r < p, ∃ a, f r = .ok a := by
  induction n generalizing e with
  | zero => simp [pure, Except.pure]
  | succ n ih =>
    have hinit : (∃ p : Fin n, f p.castSucc = .error e ∧ ∀ r < p.castSucc, ∃ a, f r = .ok a) ↔
        Vector.ofFnM (fun i : Fin n => f i.castSucc) = .error e := by
      rw [ih]
      simp only [Fin.forall_fin_succ', Fin.castSucc_lt_castSucc_iff, Fin.not_lt.mpr (Fin.le_last _),
        false_imp_iff, and_true]
    rw [Vector.ofFnM_succ, Fin.exists_fin_succ', hinit]
    simp only [Fin.forall_fin_succ', Fin.castSucc_lt_last, lt_irrefl, true_imp_iff, false_imp_iff,
      and_true]
    cases hfirst : Vector.ofFnM fun i : Fin n => f i.castSucc with
    | error e' =>
      -- What has failed before the last element has failed for good.
      obtain ⟨p, hp, -⟩ := ih.mp hfirst
      have hlast : ¬ ∀ r : Fin n, ∃ a, f r.castSucc = .ok a := by
        intro h
        obtain ⟨a, ha⟩ := h p
        rw [hp] at ha
        cases ha
      simp [hlast, bind, Except.bind]
    | ok u =>
      have hall : ∀ r : Fin n, ∃ a, f r.castSucc = .ok a := fun r =>
        ⟨_, DenseMatrix.getElem_of_ofFnM_eq_ok hfirst r⟩
      cases f (Fin.last n) with
      | error e' => simp [hall, bind, Except.bind]
      | ok a => simp [bind, Except.bind, pure, Except.pure]

namespace DenseMatrix

/-- The buffer holds one row after the other, and in a row one column after the other. -/
theorem lt_iff_row_col {rows cols : ℕ} {r p : Fin (rows * cols)} :
    r < p ↔ rowOf r < rowOf p ∨ rowOf r = rowOf p ∧ colOf r < colOf p := by
  have hr : r.val / cols * cols + r.val % cols = r.val := Nat.div_add_mod' r cols
  have hp : p.val / cols * cols + p.val % cols = p.val := Nat.div_add_mod' p cols
  rw [Fin.ext_iff, Fin.lt_def, Fin.lt_def, Fin.lt_def]
  dsimp only [rowOf, colOf]
  constructor
  · intro hlt
    rcases (Nat.div_le_div_right hlt.le).lt_or_eq with hrow | hrow
    · exact .inl hrow
    · refine .inr ⟨hrow, ?_⟩
      rw [hrow] at hr
      omega
  · rintro (hrow | ⟨hrow, hcol⟩)
    · exact Nat.lt_of_div_lt_div hrow
    · rw [hrow] at hr
      omega

/-- A matrix that cannot be filled is refused with its first failure, row by row. -/
theorem ofFnM_eq_error_iff {ε R : Type} {rows cols : ℕ} {f : Fin rows → Fin cols → Except ε R}
    {e : ε} :
    ofFnM rows cols f = .error e ↔
      ∃ i j, f i j = .error e ∧ ∀ r c, r < i ∨ r = i ∧ c < j → ∃ a, f r c = .ok a := by
  have hfill : ofFnM rows cols f = .error e ↔
      Vector.ofFnM (fun p => f (rowOf p) (colOf p)) = .error e := by
    rw [ofFnM]
    cases Vector.ofFnM fun p => f (rowOf p) (colOf p) with
    | error e' => simp [bind, Except.bind]
    | ok entries => simp [bind, Except.bind, pure, Except.pure]
  rw [hfill, vector_ofFnM_eq_error_iff]
  constructor
  · rintro ⟨p, hp, hbefore⟩
    refine ⟨rowOf p, colOf p, hp, fun r c hlt => ?_⟩
    have hentry := hbefore ⟨r.val * cols + c.val, position_lt r c⟩
    rw [lt_iff_row_col, rowOf_position, colOf_position] at hentry
    exact hentry hlt
  · rintro ⟨i, j, hij, hbefore⟩
    refine ⟨⟨i.val * cols + j.val, position_lt i j⟩, ?_, fun r hlt => ?_⟩
    · rw [rowOf_position, colOf_position, hij]
    · rw [lt_iff_row_col, rowOf_position, colOf_position] at hlt
      exact hbefore _ _ hlt

end DenseMatrix

end DiscreteOrdinates
