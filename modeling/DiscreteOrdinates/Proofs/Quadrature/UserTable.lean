import DiscreteOrdinates.Proofs.Quadrature.Rows
import DiscreteOrdinates.Quadrature.Families

/-!
# Accepted user tables

Which tables of a user become sets: those whose columns have equal lengths, whose
rows are directions and whose weights sum to the norm. Octants have to have as
many rows as their layout asks for, and are looked through for the lowest cosine.
-/

namespace DiscreteOrdinates

theorem softEq_self (x : ℝ) {precision : ℝ} (h : 0 ≤ precision) : softEq x x precision = true := by
  have hbound : 0 ≤ precision * |x| := mul_nonneg h (abs_nonneg x)
  simp [softEq, hbound]

theorem DirectionTable.checkWeights_eq_ok_iff {R : Type} [Scalar R] {wt : List R} :
    checkWeights wt = .ok () ↔ ∀ w ∈ wt, Scalar.isFinite w = true ∧ ¬ w < 0.0 := by
  unfold checkWeights
  split
  next w index heq =>
    refine iff_of_false nofun fun h => ?_
    have hfound := List.find?_some heq
    obtain ⟨hfinite, hlt⟩ := h w (List.fst_mem_of_mem_zipIdx (List.mem_of_find?_eq_some heq))
    simp [hfinite, hlt] at hfound
  next heq =>
    refine iff_of_true rfl fun w hw => ?_
    obtain ⟨i, hi, rfl⟩ := List.getElem_of_mem hw
    have hpassed := List.find?_eq_none.mp heq (wt[i], i)
      (List.mk_mem_zipIdx_iff_getElem?.mpr (List.getElem?_eq_getElem hi))
    simpa using hpassed

theorem DirectionTable.checkWeights_eq_ok {wt : List ℝ} :
    checkWeights wt = .ok () ↔ ∀ w ∈ wt, 0 ≤ w := by
  simp only [checkWeights_eq_ok_iff, Scalar.isFinite_real, Scalar.zero_real, not_lt, true_and]

/-! ## Directions -/

theorem Ordinate.isWeight_real {w : ℝ} : IsWeight w ↔ 0 ≤ w := by
  rw [IsWeight, Scalar.zero_real]
  exact and_iff_right rfl

theorem Ordinate.exists_ofDirection_iff {x y z w : ℝ} :
    (∃ o, ofDirection x y z w = .ok o) ↔ |squaredLength x y z - 1| ≤ unitTolerance ∧ 0 ≤ w := by
  simp only [ofDirection, require_bind_eq_ok, isWeight_real, Scalar.one_real, Scalar.abs_real,
    exists_and_left]
  exact and_congr_right fun _ => and_iff_left ⟨_, rfl⟩

theorem Ordinate.exists_ofCosine_iff {x w : ℝ} :
    (∃ o, ofCosine x w = .ok o) ↔ (x ≠ 0 ∧ |x| ≤ 1) ∧ 0 ≤ w := by
  simp only [ofCosine, require_bind_eq_ok, isWeight_real, Scalar.one_real, Scalar.zero_real,
    Scalar.abs_real, Scalar.isFinite_real, beq_iff_eq, not_lt, true_and, exists_and_left]
  exact and_congr_right fun _ => and_iff_left ⟨_, rfl⟩

theorem discard_eq_ok {ε α : Type} {x : Except ε α} : discard x = .ok () ↔ ∃ a, x = .ok a := by
  cases x with
  | error e => exact iff_of_false nofun nofun
  | ok a => exact iff_of_true rfl ⟨a, rfl⟩

theorem forM_eq_ok {ε α : Type} {f : α → Except ε Unit} {xs : List α} :
    xs.forM f = .ok () ↔ ∀ x ∈ xs, f x = .ok () := by
  induction xs with
  | nil => exact iff_of_true rfl (by simp)
  | cons x xs ih =>
    have hfirst : (x :: xs).forM f = f x >>= fun _ => xs.forM f := rfl
    rw [hfirst, check_bind_eq_ok, ih, List.forall_mem_cons]

/-- Rows are directions exactly if their weights count and they have unit length or, where
there is only one column, a cosine of magnitude up to one that is not zero. -/
theorem DirectionTable.checkDirections_eq_ok_iff {t : DirectionTable ℝ} :
    t.checkDirections = .ok () ↔ ∀ o ∈ t.rows, 0 ≤ o.weight ∧
      if t.eta = [] then o.x ≠ 0 ∧ |o.x| ≤ 1
      else |Ordinate.squaredLength o.x o.y o.z - 1| ≤ Ordinate.unitTolerance := by
  refine forM_eq_ok.trans (forall₂_congr fun o _ => ?_)
  by_cases heta : t.eta = []
  · simp only [heta, List.isEmpty_nil, if_true, discard_eq_ok, Ordinate.exists_ofCosine_iff]
    exact and_comm
  · simp only [heta, List.isEmpty_iff, if_false, discard_eq_ok, Ordinate.exists_ofDirection_iff]
    exact and_comm

theorem DirectionTable.checkDirections_eq_ok {t : DirectionTable ℝ}
    (hcosines : t.eta = [] → ∀ o ∈ t.rows, o.x ≠ 0 ∧ |o.x| ≤ 1)
    (hunit : t.eta ≠ [] → ∀ o ∈ t.rows,
      |Ordinate.squaredLength o.x o.y o.z - 1| ≤ Ordinate.unitTolerance)
    (hweights : ∀ o ∈ t.rows, 0 ≤ o.weight) : t.checkDirections = .ok () := by
  refine checkDirections_eq_ok_iff.mpr fun o ho => ⟨hweights o ho, ?_⟩
  split
  next heta => exact hcosines heta o ho
  next heta => exact hunit heta o ho

/-! ## Sets -/

theorem weightTolerance_nonneg : (0 : ℝ) ≤ weightTolerance := by
  unfold weightTolerance
  norm_num

/-- The columns of `n` directions in a dimension. On a line there are only `mu` and `wt`. -/
structure DirectionTable.HasColumns {R : Type} (dimension n : ℕ) (t : DirectionTable R) : Prop where
  mu : t.mu.length = n
  wt : t.wt.length = n
  others : if dimension = 1 then t.eta = [] ∧ t.xi = [] else t.eta.length = n ∧ t.xi.length = n

theorem DirectionTable.hasColumns_of_carried {R : Type} [Scalar R] {dimension : ℕ}
    {t carried : DirectionTable R} (hwt : t.wt.length = t.mu.length)
    (h : t.carried dimension = .ok carried) : carried.HasColumns dimension t.mu.length := by
  unfold DirectionTable.carried at h
  split at h
  · rw [← Except.ok.inj h]
    exact ⟨rfl, hwt, rfl, rfl⟩
  · obtain ⟨heta, h⟩ := require_bind_eq_ok.mp h
    split at h
    · rw [← Except.ok.inj h]
      refine ⟨rfl, hwt, heta, ?_⟩
      rw [List.length_zipWith, heta, min_self]
    · obtain ⟨hxi, h⟩ := require_bind_eq_ok.mp h
      rw [← Except.ok.inj h]
      exact ⟨rfl, hwt, heta, hxi⟩
  · obtain ⟨heta, h⟩ := require_bind_eq_ok.mp h
    obtain ⟨hxi, h⟩ := require_bind_eq_ok.mp h
    rw [← Except.ok.inj h]
    exact ⟨rfl, hwt, heta, hxi⟩
  · cases h

theorem DirectionTable.prepared_eq_ok {R : Type} [Scalar R] {dimension : ℕ}
    {t carried : DirectionTable R} :
    t.prepared dimension = .ok carried ↔
      t.mu ≠ [] ∧ t.wt.length = t.mu.length ∧ checkWeights t.wt = .ok () ∧
        t.carried dimension = .ok carried := by
  rw [prepared, require_bind_eq_ok, checkLength, require_bind_eq_ok, check_bind_eq_ok]

/-- A table is accepted if each of its checks passes. -/
theorem DirectionTable.checked_eq_ok {R : Type} [Scalar R] {dimension : ℕ} {norm : R}
    {t carried : DirectionTable R} :
    t.checked dimension norm = .ok carried ↔
      t.mu ≠ [] ∧ t.wt.length = t.mu.length ∧ checkWeights t.wt = .ok () ∧
        t.carried dimension = .ok carried ∧ carried.checkDirections = .ok () ∧
        softEq (Scalar.sum carried.wt) norm weightTolerance = true := by
  rw [checked, bind_eq_ok]
  constructor
  · rintro ⟨c, hprepared, h⟩
    obtain ⟨hmu, hwt, hweights, hcarried⟩ := prepared_eq_ok.mp hprepared
    obtain ⟨hdirections, h⟩ := check_bind_eq_ok.mp h
    obtain ⟨hsum, h⟩ := require_bind_eq_ok.mp h
    obtain rfl : c = carried := Except.ok.inj h
    exact ⟨hmu, hwt, hweights, hcarried, hdirections, hsum⟩
  · rintro ⟨hmu, hwt, hweights, hcarried, hdirections, hsum⟩
    exact ⟨carried, prepared_eq_ok.mpr ⟨hmu, hwt, hweights, hcarried⟩,
      check_bind_eq_ok.mpr ⟨hdirections, require_bind_eq_ok.mpr ⟨hsum, rfl⟩⟩⟩

namespace Quadrature

/-- A table that is accepted makes a set. Its closure asks for nothing more. -/
theorem general_eq_ok_iff {R : Type} [Scalar R] {name : String} {dimension order levels : ℕ}
    {norm : Option R} {table : DirectionTable R} {q : Quadrature R} :
    general name dimension order levels norm table = .ok q ↔
      ∃ carried, table.checked dimension (norm.getD (defaultNorm dimension)) = .ok carried ∧
        q = ⟨.general name dimension levels, order, norm.getD (defaultNorm dimension), carried⟩ := by
  rw [general, bind_eq_ok]
  refine exists_congr fun carried => and_congr_right fun hcarried => ?_
  obtain ⟨-, -, -, -, -, hsum⟩ := DirectionTable.checked_eq_ok.mp hcarried
  rw [checked, check_bind_eq_ok, checkClosure, check_bind_eq_ok]
  constructor
  · rintro ⟨-, h⟩
    exact (Except.ok.inj h).symm
  · rintro rfl
    exact ⟨⟨if_pos hsum, rfl⟩, rfl⟩

theorem general_eq_ok {name : String} {dimension order levels : ℕ} {norm : ℝ}
    {table carried : DirectionTable ℝ} (hmu : table.mu ≠ [])
    (hwt : table.wt.length = table.mu.length) (hweights : ∀ w ∈ table.wt, 0 ≤ w)
    (hcarried : table.carried dimension = .ok carried)
    (hdirections : carried.checkDirections = .ok ()) (hsum : carried.wt.sum = norm) :
    general name dimension order levels (some norm) table =
      .ok ⟨.general name dimension levels, order, norm, carried⟩ := by
  have hsoft : softEq (Scalar.sum carried.wt) norm weightTolerance = true := by
    rw [Scalar.sum_real, hsum, softEq_self _ weightTolerance_nonneg]
  exact general_eq_ok_iff.mpr ⟨carried, DirectionTable.checked_eq_ok.mpr ⟨hmu, hwt,
    DirectionTable.checkWeights_eq_ok.mpr hweights, hcarried, hdirections, hsoft⟩, rfl⟩

/-- Cosines of magnitude up to one that are not zero make a set on a line. -/
theorem general_line {name : String} {order levels : ℕ} {norm : ℝ} {mu wt : List ℝ}
    (hmu : mu ≠ []) (hlength : wt.length = mu.length) (hcosines : ∀ x ∈ mu, x ≠ 0 ∧ |x| ≤ 1)
    (hweights : ∀ w ∈ wt, 0 ≤ w) (hsum : wt.sum = norm) :
    general name 1 order levels (some norm) { mu := mu, wt := wt } =
      .ok ⟨.general name 1 levels, order, norm, { mu := mu, wt := wt }⟩ := by
  have hrows : ∀ o ∈ ({ mu := mu, wt := wt } : DirectionTable ℝ).rows, o.x ∈ mu ∧ o.weight ∈ wt := by
    intro o ho
    obtain ⟨m, hm, rfl⟩ := List.mem_map.mp ho
    have hwt : m < wt.length := List.mem_range.mp hm
    have hmu : m < mu.length := hlength ▸ hwt
    simp [DirectionTable.row, hwt, hmu]
  refine general_eq_ok hmu hlength hweights rfl (DirectionTable.checkDirections_eq_ok ?_ ?_ ?_) hsum
  · exact fun _ o ho => hcosines _ (hrows o ho).1
  · exact fun heta => absurd rfl heta
  · exact fun o ho => hweights _ (hrows o ho).2

end Quadrature

/-! ## Octants -/

/-- An octant makes a set if it is accepted and the set that is reflected from it closes. -/
theorem Quadrature.octant_eq_ok {R : Type} [Scalar R] {table : DirectionTable R} {levels : ℕ}
    {layout : Layout} {norm : Option R} {q : Quadrature R} :
    octant table levels layout norm = .ok q ↔
      ∃ t openInterval,
        UserOctant.table layout levels (norm.getD (defaultNorm 3)) table = .ok (t, openInterval) ∧
          (⟨.octant levels layout openInterval, levels, norm.getD (defaultNorm 3), t⟩ :
            Quadrature R).checkClosure = .ok () ∧
          q = ⟨.octant levels layout openInterval, levels, norm.getD (defaultNorm 3), t⟩ := by
  rw [octant, bind_eq_ok]
  constructor
  · rintro ⟨⟨t, openInterval⟩, htable, h⟩
    obtain ⟨hclosure, h⟩ := check_bind_eq_ok.mp h
    exact ⟨t, openInterval, htable, hclosure, (Except.ok.inj h).symm⟩
  · rintro ⟨t, openInterval, htable, hclosure, rfl⟩
    exact ⟨(t, openInterval), htable, check_bind_eq_ok.mpr ⟨hclosure, rfl⟩⟩

/-- The least of some numbers is one of them and not above any. -/
theorem Sample.minimum_eq_ok {xs : List ℝ} {least : ℝ} :
    minimum xs = .ok least ↔ least ∈ xs ∧ ∀ x ∈ xs, least ≤ x := by
  have hstep : (fun least x : ℝ => if Scalar.order x least = .lt then x else least) = min := by
    funext least x
    rw [Scalar.order_real, min_comm, min_def_lt]
    simp [compare_lt_iff_lt]
  have hminimum : minimum xs = .ok least ↔ xs.min? = some least := by
    cases xs with
    | nil => simp [minimum]
    | cons x xs => rw [minimum, if_pos (by simp), hstep, List.min?_cons', Except.ok.injEq,
        Option.some.injEq]
  rw [hminimum, List.min?_eq_some_iff]

namespace UserOctant

section

variable {R : Type} [Scalar R] {layout : Layout} {levels : ℕ} {octant : DirectionTable R}

theorem checkColumns_eq_ok :
    checkColumns layout levels octant = .ok () ↔
      layout.checkCount levels octant.mu.length = (.ok () : Except (QuadratureError R) Unit) ∧
      octant.eta.length = octant.mu.length ∧ octant.xi.length = octant.mu.length ∧
      octant.wt.length = octant.mu.length ∧ DirectionTable.checkWeights octant.wt = .ok () := by
  unfold checkColumns DirectionTable.checkLength
  rw [check_bind_eq_ok, require_bind_eq_ok, require_bind_eq_ok, require_bind_eq_ok]

theorem check_eq_ok :
    check layout levels octant = .ok () ↔
      layout.checkCount levels octant.mu.length = (.ok () : Except (QuadratureError R) Unit) ∧
      octant.eta.length = octant.mu.length ∧ octant.xi.length = octant.mu.length ∧
      octant.wt.length = octant.mu.length ∧ DirectionTable.checkWeights octant.wt = .ok () ∧
      octant.checkDirections = .ok () := by
  rw [check, check_bind_eq_ok, checkColumns_eq_ok]
  simp only [and_assoc]

end

theorem softEq_pole (x : ℝ) :
    softEq x (-1.0) poleTolerance = decide (|x + 1| ≤ 1e-12) := by
  have hthreshold : ¬ (1 : ℝ) < zeroThreshold := by
    unfold zeroThreshold
    norm_num
  simp [softEq, poleTolerance, Scalar.one_real, hthreshold]

/-- The pole counts as reached if the lowest cosine is practically `-1`. -/
theorem reachesPole_eq_ok {octant : DirectionTable ℝ} {reached : Bool} :
    reachesPole octant = .ok reached ↔ ∃ least ∈ octant.xi, (∀ x ∈ octant.xi, least ≤ x) ∧
      reached = decide (|least + 1| ≤ 1e-12) := by
  unfold reachesPole
  constructor
  · intro h
    split at h
    next least hleast =>
      obtain ⟨hmem, hle⟩ := Sample.minimum_eq_ok.mp hleast
      rw [softEq_pole] at h
      exact ⟨least, hmem, hle, (Except.ok.inj h).symm⟩
    next => cases h
  · rintro ⟨least, hmem, hle, rfl⟩
    rw [Sample.minimum_eq_ok.mpr ⟨hmem, hle⟩]
    exact congrArg _ (softEq_pole least)

end UserOctant

end DiscreteOrdinates
