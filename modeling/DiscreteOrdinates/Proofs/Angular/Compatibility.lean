import DiscreteOrdinates.Proofs.Angular.Alpha
import DiscreteOrdinates.Proofs.Sweep.Clusters

/-!
# Reports of a compatibility check

What a compatibility check writes, and that its answer is no exactly if it writes
anything. It writes about the levels of which the moment does not vanish, and about a set
in the plane that falls into more or fewer levels than it defines. Main statement:
`compatibility_reports`.
-/

namespace DiscreteOrdinates

namespace AngularRedistribution

/-! ## Running a check -/

section

variable {R : Type}

theorem run_bind {α β : Type} (check : Reporting R α) (next : α → Reporting R β)
    (problems : List (Problem R)) :
    (check >>= next).run problems = (next (check.run problems).1).run (check.run problems).2 :=
  rfl

/-- The report on a set with other levels than it defines. -/
def miscounted (q : Quadrature R) (geometry : Geometry) (meshDimension : ℕ)
    (r : AngularRedistribution R) : List (Problem R) :=
  if definesLevels q geometry meshDimension = true ∧ r.levels ≠ q.levels then
    [.levelCount r.levels q.levels]
  else []

theorem run_checkLevelCount (q : Quadrature R) (geometry : Geometry) (meshDimension : ℕ)
    (r : AngularRedistribution R) (problems : List (Problem R)) :
    (checkLevelCount q geometry meshDimension r).run problems =
      ((miscounted q geometry meshDimension r).isEmpty,
        problems ++ miscounted q geometry meshDimension r) := by
  have hiff : (definesLevels q geometry meshDimension && r.levels != q.levels) = true ↔
      definesLevels q geometry meshDimension = true ∧ r.levels ≠ q.levels := by simp
  rw [checkLevelCount, miscounted]
  split
  next h =>
    rw [if_pos (hiff.mp h)]
    rfl
  next h =>
    rw [if_neg (mt hiff.mpr h), List.append_nil]
    rfl

variable [Scalar R]

/-- A level of which the last `α` is not close to zero. -/
def IsOpen (closing : ℕ × R) : Prop :=
  closureTolerance < Scalar.abs closing.2

instance (closing : ℕ × R) : Decidable (IsOpen closing) :=
  inferInstanceAs (Decidable (_ < _))

/-- The reports on open levels. -/
def openLevels (closings : List (ℕ × R)) : List (Problem R) :=
  (closings.filter (IsOpen ·)).map fun closing => .openLevel closing.1 closing.2

/-- Every open level is reported, also behind the first one. -/
theorem run_checkClosing (closings : List (ℕ × R)) (problems : List (Problem R)) :
    (checkClosing closings).run problems =
      ((openLevels closings).isEmpty, problems ++ openLevels closings) := by
  induction closings generalizing problems with
  | nil =>
    rw [openLevels, List.filter_nil, List.map_nil, List.append_nil]
    rfl
  | cons closing closings ih =>
    rw [checkClosing]
    split
    next hopen =>
      have hopen : IsOpen closing := hopen
      have hreports : openLevels (closing :: closings) =
          .openLevel closing.1 closing.2 :: openLevels closings := by
        simp [openLevels, hopen]
      -- What the other levels are found to be does not count, but their reports do.
      change (false, ((checkClosing closings).run
        (problems ++ [.openLevel closing.1 closing.2])).2) = _
      rw [ih, hreports, List.append_assoc]
      rfl
    next hcloses =>
      have hcloses : ¬ IsOpen closing := hcloses
      have hreports : openLevels (closing :: closings) = openLevels closings := by
        simp [openLevels, hcloses]
      rw [ih, hreports]

/-- The problems of a set that can be swept. -/
def problemsOf (q : Quadrature R) (geometry : Geometry) (meshDimension : ℕ)
    (r : AngularRedistribution R) : List (Problem R) :=
  (if geometry.isCurvilinear then openLevels r.closingAlphas else []) ++
    miscounted q geometry meshDimension r

variable {q : Quadrature R} {geometry : Geometry} {meshDimension : ℕ}

theorem compatibility_of_ok {r : AngularRedistribution R}
    (h : ofQuadrature q geometry meshDimension = .ok r) :
    compatibility q geometry meshDimension =
      ((problemsOf q geometry meshDimension r).isEmpty, problemsOf q geometry meshDimension r) := by
  have happend : ∀ ps ps' : List (Problem R),
      (ps ++ ps').isEmpty = (ps.isEmpty && ps'.isEmpty) := by
    intro ps ps'
    cases ps <;> rfl
  rw [compatibility, checkCompatible, h, problemsOf]
  simp only
  split
  · rw [run_bind, run_checkClosing, run_bind, run_checkLevelCount, happend]
    rfl
  · rw [run_bind, run_bind, run_checkLevelCount]
    rfl

theorem compatibility_of_error {cause : AngularError R}
    (h : ofQuadrature q geometry meshDimension = .error cause) :
    compatibility q geometry meshDimension =
      (false, [.unusable geometry meshDimension cause]) := by
  rw [compatibility, checkCompatible, h]
  rfl

/-- The answer and the reports agree. -/
theorem compatibility_fst_iff (q : Quadrature R) (geometry : Geometry) (meshDimension : ℕ) :
    (compatibility q geometry meshDimension).1 = true ↔
      (compatibility q geometry meshDimension).2 = [] := by
  cases h : ofQuadrature q geometry meshDimension with
  | error cause => simp [compatibility_of_error h]
  | ok r => simp [compatibility_of_ok h]

end

/-- A report takes up a line. -/
theorem diagnostics_eq_empty_iff (q : Quadrature Float) (problems : List (Problem Float)) :
    diagnostics q problems = "" ↔ problems = [] := by
  cases problems with
  | nil => exact iff_of_true rfl rfl
  | cons problem problems =>
    rw [diagnostics, List.map_cons, String.join_cons, String.append_eq_empty_iff,
      String.append_eq_empty_iff]
    simp

/-! ## Levels of a set in the plane -/

theorem miscounted_eq {R : Type} {q : Quadrature R} {geometry : Geometry} {meshDimension : ℕ}
    {r : AngularRedistribution R} :
    miscounted q geometry meshDimension r =
      if (geometry = .axisymmetric ∧ meshDimension = 2 ∧ q.dimension = 2) ∧ r.levels ≠ q.levels then
        [.levelCount r.levels q.levels]
      else [] := by
  have hiff : definesLevels q geometry meshDimension = true ↔
      geometry = .axisymmetric ∧ meshDimension = 2 ∧ q.dimension = 2 := by
    simp [definesLevels, and_assoc]
  simp only [miscounted, hiff]

/-- Starts do not add to the cosines that count as different. -/
theorem distinctWithin_withStarts (os : List (Ordinate ℝ)) :
    Sample.distinctWithin levelTolerance ((Ordinate.withStarts (Ordinate.sorted os)).map (·.z)) =
      Sample.distinctWithin levelTolerance (os.map (·.z)) := by
  have hlevels := SweepLevel.isLevelled_cut
    ((Ordinate.pairwise_sorted os).imp Ordinate.SweepLE.z_le)
  rw [SweepLevel.withStarts_eq_flatMap, Sample.distinctWithin_flatMap hlevels,
    Sample.distinctWithin_map_z fun _ _ => rfl]

/-- A set in the plane that is swept as such keeps its own cosines. -/
theorem distinctWithin_of_isPlanar {q : Quadrature ℝ} {geometry : Geometry}
    {meshDimension : ℕ} {s : SweepSet ℝ}
    (hplanar : geometry = .axisymmetric ∧ meshDimension = 2 ∧ q.dimension = 2)
    (h : SweepSet.ofQuadrature q geometry meshDimension = .ok s) :
    Sample.distinctWithin levelTolerance (s.ordinates.map (·.z)) =
      Sample.distinctWithin levelTolerance (q.ordinates.map (·.z)) := by
  obtain ⟨rfl, rfl, hdimension⟩ := hplanar
  obtain ⟨harrange, -, -⟩ := SweepSet.ofQuadrature_eq_ok h
  have hsweep : Ordinate.withStarts (Ordinate.sorted q.ordinates) = s.ordinates := by
    simpa [SweepSet.arrange, SweepSet.planar, hdimension] using harrange
  rw [← hsweep, distinctWithin_withStarts]

theorem HasBlocks.openLevels_closingAlphas {geometry : Geometry} {r : AngularRedistribution ℝ}
    {blocks : List (List (AngularNode ℝ))} (h : r.HasBlocks geometry blocks) :
    openLevels r.closingAlphas =
      ((List.range r.levels).filter fun i => closureTolerance <
        |(if geometry = .spherical then 2 else 1) * moment (r.onLevel i)|).map fun i =>
          .openLevel i ((if geometry = .spherical then 2 else 1) * moment (r.onLevel i)) := by
  rw [h.closingAlphas_eq, openLevels, List.filter_map, List.map_map, recursionFactor_eq]
  rfl

/-! ## Main statement -/

/-- The answer of the check is yes exactly if nothing is written. A set that cannot be used
has one report, which tells the cause. Of any other set the check reports in their order the
levels of a curvilinear geometry that keep a moment, and then, for a set in the plane that is
swept as such, a number of levels that is not the one that the set defines. -/
theorem compatibility_reports :
    (∀ {R : Type} [Scalar R] (q : Quadrature R) (geometry : Geometry) (meshDimension : ℕ),
      ((compatibility q geometry meshDimension).1 = true ↔
        (compatibility q geometry meshDimension).2 = []) ∧
      ∀ cause, ofQuadrature q geometry meshDimension = .error cause →
        compatibility q geometry meshDimension =
          (false, [.unusable geometry meshDimension cause])) ∧
    (∀ (q : Quadrature Float) (geometry : Geometry) (meshDimension : ℕ),
      (compatibility q geometry meshDimension).1 = true ↔
        diagnostics q (compatibility q geometry meshDimension).2 = "") ∧
    ∀ {q : Quadrature ℝ} {geometry : Geometry} {meshDimension : ℕ} {r : AngularRedistribution ℝ},
      ofQuadrature q geometry meshDimension = .ok r →
      let alpha : ℕ → ℝ := fun i =>
        (if geometry = .spherical then 2 else 1) * moment (r.onLevel i)
      let isPlanar := geometry = .axisymmetric ∧ meshDimension = 2 ∧ q.dimension = 2
      ∃ clusters, Sample.distinctWithin levelTolerance (r.sweep.ordinates.map (·.z)) = .ok clusters ∧
        (isPlanar → Sample.distinctWithin levelTolerance (q.ordinates.map (·.z)) = .ok clusters) ∧
        (compatibility q geometry meshDimension).2 =
          (if geometry.isCurvilinear then
            ((List.range r.levels).filter fun i => closureTolerance < |alpha i|).map fun i =>
              .openLevel i (alpha i)
          else []) ++
          if isPlanar ∧ clusters.length ≠ q.levels then
            [.levelCount clusters.length q.levels]
          else [] := by
  refine ⟨fun q geometry meshDimension => ⟨compatibility_fst_iff q geometry meshDimension,
    fun cause => compatibility_of_error⟩, fun q geometry meshDimension => ?_, ?_⟩
  · rw [diagnostics_eq_empty_iff, compatibility_fst_iff]
  · intro q geometry meshDimension r h alpha isPlanar
    rw [compatibility_of_ok h, problemsOf, miscounted_eq]
    by_cases hgeometry : geometry.isCurvilinear
    · -- The levels that were built are those that the reports count.
      obtain ⟨hsweep, -⟩ := exists_closeLevels hgeometry h
      obtain ⟨blocks, hblocks⟩ := exists_hasBlocks hgeometry h
      obtain ⟨clusters, hclusters, hlength⟩ := hblocks.clusters
      refine ⟨clusters, hclusters, fun hplanar => ?_, ?_⟩
      · rw [← distinctWithin_of_isPlanar hplanar hsweep, hclusters]
      · rw [if_pos hgeometry, if_pos hgeometry, hblocks.openLevels_closingAlphas, hlength,
          hblocks.levels_eq]
    · -- Without curvature neither check applies.
      have hplanar : ¬ isPlanar := fun hplanar => hgeometry (by rw [hplanar.1]; rfl)
      refine ⟨_, Sample.distinctWithin_levelTolerance _, fun h => (hplanar h).elim, ?_⟩
      rw [if_neg hgeometry, if_neg hgeometry, if_neg fun h => hplanar h.1,
        if_neg fun h => hplanar h.1]

/-- Two directions to the same side do not balance on a sphere, and no directions on a line
can be swept around an axis. -/
theorem compatibility_reports_beams :
    (∃ r, ofQuadrature (beams 0.6 0.8) .spherical 1 = .ok r ∧
      compatibility (beams 0.6 0.8) .spherical 1 = (false, [.openLevel 0 1.4])) ∧
    compatibility (beams 0.6 0.8) .axisymmetric 1 =
      (false, [.unusable .axisymmetric 1 (.quadrature (.incompatibleGeometry .axisymmetric 1 1))]) := by
  obtain ⟨hanswer, -, hreports⟩ := compatibility_reports
  refine ⟨?_, (hanswer (beams 0.6 0.8) .axisymmetric 1).2 _ rfl⟩
  obtain ⟨r, hr, hnodes⟩ := exists_ofQuadrature_beams (a := 0.6) (b := 0.8) (by norm_num)
  obtain ⟨clusters, -, -, hreports⟩ := hreports hr
  have hlevels : r.levels = 1 := by simp [levels, hnodes, twoNodes]
  have hmoment : 2 * moment (r.onLevel 0) = 1.4 := by
    simp [onLevel, hnodes, twoNodes, moment]
    norm_num
  have hopen : (closureTolerance : ℝ) < |1.4| := by
    rw [closureTolerance, abs_of_pos] <;> norm_num
  have hproblems : (compatibility (beams 0.6 0.8) .spherical 1).2 = [.openLevel 0 1.4] := by
    rw [hreports]
    simp [-abs_mul, hlevels, hmoment, hopen, Geometry.isCurvilinear]
  refine ⟨r, hr, Prod.ext ?_ hproblems⟩
  rw [← Bool.not_eq_true, (hanswer _ _ _).1, hproblems]
  exact List.cons_ne_nil _ _

end AngularRedistribution

end DiscreteOrdinates
