import DiscreteOrdinates.Proofs.Matrix.Product
import DiscreteOrdinates.Proofs.Quadrature.UserTable
import DiscreteOrdinates.Proofs.Sweep.Arrangement

/-!
# Reordered sets

A user may list the rows of a complete set in any order: the table is accepted just
as well, and gives the set whose directions are in that order
(`Quadrature.general_permute`).
-/

namespace DiscreteOrdinates

variable {α β γ : Type} {n : ℕ}

/-! ## Lists -/

/-- The elements of a list of length `n` in the order of a permutation. A list of
another length stays as it is. -/
def permuted (σ : Equiv.Perm (Fin n)) (xs : List α) : List α :=
  if h : xs.length = n then List.ofFn fun m => xs.get ((σ m).cast h.symm) else xs

@[simp] theorem permuted_ofFn (σ : Equiv.Perm (Fin n)) (f : Fin n → α) :
    permuted σ (List.ofFn f) = List.ofFn (f ∘ σ) := by
  rw [permuted, dif_pos List.length_ofFn]
  congr
  funext m
  rw [List.get_ofFn]
  rfl

theorem permuted_of_ne (σ : Equiv.Perm (Fin n)) {xs : List α} (h : xs.length ≠ n) :
    permuted σ xs = xs :=
  dif_neg h

@[simp] theorem permuted_nil (σ : Equiv.Perm (Fin n)) : permuted σ ([] : List α) = [] := by
  by_cases h : n = 0
  · subst h
    exact permuted_ofFn σ Fin.elim0
  · exact permuted_of_ne σ (Ne.symm h)

@[simp] theorem length_permuted (σ : Equiv.Perm (Fin n)) (xs : List α) :
    (permuted σ xs).length = xs.length := by
  by_cases h : xs.length = n
  · obtain ⟨f, rfl⟩ := exists_eq_ofFn_of_length h
    simp
  · rw [permuted_of_ne σ h]

theorem permuted_perm (σ : Equiv.Perm (Fin n)) (xs : List α) : (permuted σ xs).Perm xs := by
  by_cases h : xs.length = n
  · obtain ⟨f, rfl⟩ := exists_eq_ofFn_of_length h
    rw [permuted_ofFn]
    exact σ.ofFn_comp_perm f
  · rw [permuted_of_ne σ h]

theorem permuted_eq_nil {σ : Equiv.Perm (Fin n)} {xs : List α} : permuted σ xs = [] ↔ xs = [] := by
  rw [← List.length_eq_zero_iff, length_permuted, List.length_eq_zero_iff]

theorem isEmpty_permuted (σ : Equiv.Perm (Fin n)) (xs : List α) :
    (permuted σ xs).isEmpty = xs.isEmpty := by
  rw [Bool.eq_iff_iff, List.isEmpty_iff, List.isEmpty_iff, permuted_eq_nil]

theorem permuted_inv (σ : Equiv.Perm (Fin n)) (xs : List α) :
    permuted σ⁻¹ (permuted σ xs) = xs := by
  by_cases h : xs.length = n
  · obtain ⟨f, rfl⟩ := exists_eq_ofFn_of_length h
    rw [permuted_ofFn, permuted_ofFn, Function.comp_assoc]
    exact congrArg (fun g => List.ofFn (f ∘ g)) (funext σ.apply_symm_apply)
  · rw [permuted_of_ne σ h, permuted_of_ne _ h]

theorem get_permuted {σ : Equiv.Perm (Fin n)} {xs ys : List α} (hys : ys = permuted σ xs)
    (hxs : xs.length = n) (hlength : ys.length = n) (m : Fin ys.length) :
    ys.get m = xs.get ((σ (m.cast hlength)).cast hxs.symm) := by
  obtain ⟨f, rfl⟩ := exists_eq_ofFn_of_length hxs
  obtain rfl : ys = List.ofFn (f ∘ σ) := hys.trans (permuted_ofFn σ f)
  rw [List.get_ofFn, List.get_ofFn]
  rfl

theorem map_permuted (f : α → β) (σ : Equiv.Perm (Fin n)) (xs : List α) :
    (permuted σ xs).map f = permuted σ (xs.map f) := by
  by_cases h : xs.length = n
  · obtain ⟨g, rfl⟩ := exists_eq_ofFn_of_length h
    rw [permuted_ofFn, List.map_ofFn, List.map_ofFn, permuted_ofFn]
    rfl
  · rw [permuted_of_ne σ h, permuted_of_ne σ (by rwa [List.length_map])]

theorem zipWith_ofFn (f : α → β → γ) (g : Fin n → α) (h : Fin n → β) :
    List.zipWith f (List.ofFn g) (List.ofFn h) = List.ofFn fun m => f (g m) (h m) := by
  apply List.ext_getElem
  · simp
  · intro m hm hm'
    simp

theorem zipWith_permuted (f : α → β → γ) (σ : Equiv.Perm (Fin n)) {xs : List α} {ys : List β}
    (hxs : xs.length = n) (hys : ys.length = n) :
    List.zipWith f (permuted σ xs) (permuted σ ys) = permuted σ (List.zipWith f xs ys) := by
  obtain ⟨g, rfl⟩ := exists_eq_ofFn_of_length hxs
  obtain ⟨h, rfl⟩ := exists_eq_ofFn_of_length hys
  rw [permuted_ofFn, permuted_ofFn, zipWith_ofFn, zipWith_ofFn, permuted_ofFn]
  rfl

theorem nth_ofFn {R : Type} [Scalar R] (f : Fin n → R) (m : Fin n) :
    Scalar.nth (List.ofFn f) m = f m := by
  simp [Scalar.nth]

/-- A column that is there is reordered, and one that is not stays away. -/
theorem nth_permuted {R : Type} [Scalar R] (σ : Equiv.Perm (Fin n)) {xs : List R}
    (h : xs = [] ∨ xs.length = n) (m : Fin n) :
    Scalar.nth (permuted σ xs) m = Scalar.nth xs (σ m) := by
  rcases h with rfl | h
  · rw [permuted_nil]
    rfl
  · obtain ⟨f, rfl⟩ := exists_eq_ofFn_of_length h
    rw [permuted_ofFn, nth_ofFn, nth_ofFn]
    rfl

/-! ## Tables -/

namespace DirectionTable

/-- The table with its rows in the order of a permutation. -/
def permute {R : Type} (σ : Equiv.Perm (Fin n)) (t : DirectionTable R) : DirectionTable R :=
  ⟨permuted σ t.mu, permuted σ t.eta, permuted σ t.xi, permuted σ t.wt⟩

/-- A table of `n` rows, in which each column is complete or missing. -/
structure IsAligned {R : Type} (n : ℕ) (t : DirectionTable R) : Prop where
  mu : t.mu.length = n
  eta : t.eta = [] ∨ t.eta.length = n
  xi : t.xi = [] ∨ t.xi.length = n
  wt : t.wt.length = n

theorem IsAligned.permute {R : Type} {t : DirectionTable R} (h : t.IsAligned n)
    (σ : Equiv.Perm (Fin n)) : (t.permute σ).IsAligned n where
  mu := (length_permuted σ _).trans h.mu
  eta := h.eta.imp permuted_eq_nil.mpr (length_permuted σ _).trans
  xi := h.xi.imp permuted_eq_nil.mpr (length_permuted σ _).trans
  wt := (length_permuted σ _).trans h.wt

theorem permute_inv {R : Type} (σ : Equiv.Perm (Fin n)) (t : DirectionTable R) :
    (t.permute σ).permute σ⁻¹ = t := by
  simp only [DirectionTable.permute, permuted_inv]

theorem isAligned_of_carried {R : Type} [Scalar R] {dimension : ℕ} {t carried : DirectionTable R}
    (hwt : t.wt.length = t.mu.length) (h : t.carried dimension = .ok carried) :
    carried.IsAligned t.mu.length := by
  obtain ⟨hmu, hcwt, hothers⟩ := hasColumns_of_carried hwt h
  split at hothers
  · exact ⟨hmu, .inl hothers.1, .inl hothers.2, hcwt⟩
  · exact ⟨hmu, .inr hothers.1, .inr hothers.2, hcwt⟩

theorem rows_eq_ofFn {R : Type} [Scalar R] {t : DirectionTable R} (h : t.wt.length = n) :
    t.rows = List.ofFn fun m : Fin n => t.row m := by
  subst h
  rw [rows, List.ofFn_eq_map, ← List.map_coe_finRange_eq_range, List.map_map]
  rfl

theorem row_permute {R : Type} [Scalar R] {t : DirectionTable R} (h : t.IsAligned n)
    (σ : Equiv.Perm (Fin n)) (m : Fin n) : (t.permute σ).row m = t.row (σ m) := by
  simp only [row, permute, nth_permuted σ (.inr h.mu), nth_permuted σ h.eta, nth_permuted σ h.xi,
    nth_permuted σ (.inr h.wt)]

theorem rows_permute {R : Type} [Scalar R] {t : DirectionTable R} (h : t.IsAligned n)
    (σ : Equiv.Perm (Fin n)) : (t.permute σ).rows = permuted σ t.rows := by
  have hwt : (t.permute σ).wt.length = n := (length_permuted σ t.wt).trans h.wt
  rw [rows_eq_ofFn hwt, rows_eq_ofFn h.wt, permuted_ofFn]
  exact congrArg List.ofFn (funext fun m => row_permute h σ m)

/-- The columns that a set carries are reordered with the table. -/
theorem carried_permute {R : Type} [Scalar R] {dimension : ℕ} {t carried : DirectionTable R}
    (hlength : t.mu.length = n) (h : t.carried dimension = .ok carried)
    (σ : Equiv.Perm (Fin n)) :
    (t.permute σ).carried dimension = .ok (carried.permute σ) := by
  have hlengths : ∀ {values : List R}, values.length = t.mu.length →
      (permuted σ values).length = (permuted σ t.mu).length := by
    intro values h
    rw [length_permuted, length_permuted, h]
  have hxi_empty : (permuted σ t.xi).isEmpty = t.xi.isEmpty := isEmpty_permuted σ t.xi
  unfold DirectionTable.carried at h ⊢
  split at h
  · rw [← Except.ok.inj h]
    simp only [permute, permuted_nil]
    rfl
  · obtain ⟨heta, h⟩ := require_bind_eq_ok.mp h
    refine require_bind_eq_ok.mpr ⟨hlengths heta, ?_⟩
    show (if (permuted σ t.xi).isEmpty then _ else _) = _
    rw [hxi_empty]
    split at h
    next hempty =>
      rw [if_pos hempty, ← Except.ok.inj h]
      simp only [permute, zipWith_permuted _ σ hlength (heta.trans hlength)]
      rfl
    next hempty =>
      obtain ⟨hxi, h⟩ := require_bind_eq_ok.mp h
      rw [if_neg hempty, ← Except.ok.inj h]
      exact require_bind_eq_ok.mpr ⟨hlengths hxi, rfl⟩
  · obtain ⟨heta, h⟩ := require_bind_eq_ok.mp h
    obtain ⟨hxi, h⟩ := require_bind_eq_ok.mp h
    rw [← Except.ok.inj h]
    exact require_bind_eq_ok.mpr ⟨hlengths heta, require_bind_eq_ok.mpr ⟨hlengths hxi, rfl⟩⟩
  · cases h

theorem checkDirections_permute {R : Type} [Scalar R] {t : DirectionTable R} (haligned : t.IsAligned n)
    (σ : Equiv.Perm (Fin n)) (h : t.checkDirections = .ok ()) :
    (t.permute σ).checkDirections = .ok () := by
  have hempty : (t.permute σ).eta.isEmpty = t.eta.isEmpty := isEmpty_permuted σ t.eta
  rw [checkDirections, forM_eq_ok, hempty, rows_permute haligned]
  rw [checkDirections, forM_eq_ok] at h
  exact fun o ho => h o ((permuted_perm σ t.rows).mem_iff.mp ho)

theorem checked_permute {dimension : ℕ} {norm : ℝ} {t carried : DirectionTable ℝ}
    (hlength : t.mu.length = n) (h : t.checked dimension norm = .ok carried)
    (σ : Equiv.Perm (Fin n)) :
    (t.permute σ).checked dimension norm = .ok (carried.permute σ) := by
  subst hlength
  obtain ⟨hmu, hwt, hweights, hcarried, hdirections, hsum⟩ := checked_eq_ok.mp h
  have haligned := isAligned_of_carried hwt hcarried
  rw [checked_eq_ok]
  refine ⟨mt permuted_eq_nil.mp hmu, ?_, ?_, ?_, checkDirections_permute haligned σ hdirections, ?_⟩
  · rw [permute, length_permuted, length_permuted, hwt]
  · rw [checkWeights_eq_ok] at hweights ⊢
    exact fun w hw => hweights w ((permuted_perm σ t.wt).mem_iff.mp hw)
  · exact carried_permute rfl hcarried σ
  · have hperm : (carried.permute σ).wt.sum = carried.wt.sum := (permuted_perm σ carried.wt).sum_eq
    rwa [Scalar.sum_real, hperm, ← Scalar.sum_real]

end DirectionTable

/-! ## Sets -/

namespace Quadrature

/-- The set with its directions in the order of a permutation. -/
def permute {R : Type} (σ : Equiv.Perm (Fin n)) (q : Quadrature R) : Quadrature R :=
  { q with table := q.table.permute σ }

theorem permute_inv {R : Type} (σ : Equiv.Perm (Fin n)) (q : Quadrature R) :
    (q.permute σ).permute σ⁻¹ = q := by
  simp only [permute, DirectionTable.permute_inv]

theorem angles_permute {R : Type} (σ : Equiv.Perm (Fin n)) (q : Quadrature R) :
    (q.permute σ).angles = q.angles :=
  length_permuted σ q.table.wt

theorem general_permute {name : String} {dimension order levels : ℕ} {norm : Option ℝ}
    {table : DirectionTable ℝ} {q : Quadrature ℝ} (hlength : table.mu.length = n)
    (h : general name dimension order levels norm table = .ok q) (σ : Equiv.Perm (Fin n)) :
    general name dimension order levels norm (table.permute σ) = .ok (q.permute σ) ∧
      q.table.IsAligned n := by
  obtain ⟨carried, hchecked, rfl⟩ := general_eq_ok_iff.mp h
  obtain ⟨-, hwt, -, hcarried, -, -⟩ := DirectionTable.checked_eq_ok.mp hchecked
  refine ⟨general_eq_ok_iff.mpr ⟨_, DirectionTable.checked_permute hlength hchecked σ, rfl⟩, ?_⟩
  rw [← hlength]
  exact DirectionTable.isAligned_of_carried hwt hcarried

theorem ordinates_permute {R : Type} [Scalar R] {q : Quadrature R} (h : q.table.IsAligned n)
    (σ : Equiv.Perm (Fin n)) : (q.permute σ).ordinates = permuted σ q.ordinates := by
  show (q.table.permute σ).rows.map (arrange q.dimension) = _
  rw [DirectionTable.rows_permute h, map_permuted]
  rfl

end Quadrature

end DiscreteOrdinates
