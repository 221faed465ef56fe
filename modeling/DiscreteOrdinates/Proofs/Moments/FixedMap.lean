import DiscreteOrdinates.Proofs.Moments.Validation
import DiscreteOrdinates.Proofs.Quadrature.UserTable

/-!
# Size of the fixed map

How many moments the fixed map of each dimension and order holds. The orders of a
shell are those of the shell before it and one more at either end, so the parts of
the map are counted shell by shell. Main statement: the map serves a set that has no
more angles than it has moments (`fixedMap_serves`).
-/

namespace DiscreteOrdinates

namespace MomentIndex

/-! ## Orders of a shell -/

/-- The orders of a shell. -/
def orders (l : ℕ) : List ℤ :=
  (shell l).map (·.k)

theorem orders_eq (l : ℕ) : orders l = (List.range (2 * l + 1)).map fun p : ℕ => (p : ℤ) - l := by
  rw [orders, shell, List.map_map]
  rfl

/-- The next shell adds an order at either end. -/
theorem orders_succ (l : ℕ) :
    orders (l + 1) = -((l : ℤ) + 1) :: (orders l ++ [(l : ℤ) + 1]) := by
  have hrange : List.range (2 * (l + 1) + 1) =
      0 :: ((List.range (2 * l + 1)).map Nat.succ ++ [2 * l + 2]) := by
    rw [Nat.mul_succ, List.range_succ, List.range_succ_eq_map]
    rfl
  rw [orders_eq, orders_eq, hrange, List.map_cons, List.map_append, List.map_map]
  refine List.cons_eq_cons.mpr ⟨by simp, congrArg₂ _ ?_ ?_⟩
  · refine List.map_congr_left fun p _ => ?_
    simp
  · rw [List.map_singleton, List.singleton_inj]
    push_cast
    ring

theorem countP_orders_succ (p : ℤ → Bool) (l : ℕ) :
    (orders (l + 1)).countP p = (if p (-((l : ℤ) + 1)) then 1 else 0) + (orders l).countP p +
      if p ((l : ℤ) + 1) then 1 else 0 := by
  rw [orders_succ, List.countP_cons, List.countP_append, List.countP_singleton]
  omega

/-- The odd numbers up to the degree. -/
theorem countP_odd_cosine (l : ℕ) :
    (orders l).countP (fun k => 0 < k && k % 2 == 1) = (l + 1) / 2 := by
  induction l with
  | zero => rfl
  | succ l ih =>
    rw [countP_orders_succ, ih]
    simp only [Bool.and_eq_true, decide_eq_true_eq, beq_iff_eq]
    split <;> split <;> omega

theorem countP_sine (l : ℕ) : (orders l).countP (fun k => k < 0) = l := by
  induction l with
  | zero => rfl
  | succ l ih =>
    rw [countP_orders_succ, ih]
    simp only [decide_eq_true_eq]
    split <;> split <;> omega

theorem countP_even_sine (l : ℕ) :
    (orders l).countP (fun k => k < 0 && k % 2 == 0) = l / 2 := by
  induction l with
  | zero => rfl
  | succ l ih =>
    rw [countP_orders_succ, ih]
    simp only [Bool.and_eq_true, decide_eq_true_eq, beq_iff_eq]
    split <;> split <;> omega

theorem length_filter_shell (p : ℤ → Bool) (l : ℕ) :
    ((shell l).filter fun i => p i.k).length = (orders l).countP p := by
  rw [← List.countP_eq_length_filter, orders, List.countP_map]
  rfl

theorem length_filter_isOddCosine (l : ℕ) :
    ((shell l).filter isOddCosine).length = (l + 1) / 2 :=
  (length_filter_shell _ l).trans (countP_odd_cosine l)

/-- Of the even sines of the next shell, the lowest one may be missing. -/
theorem length_filter_isEvenSine (n : ℕ) :
    ((shell (n + 1)).filter (isEvenSine n)).length = n / 2 := by
  have hinside : (orders n).countP (fun k => k < 0 && -(n : ℤ) ≤ k && k % 2 == 0) =
      (orders n).countP fun k => k < 0 && k % 2 == 0 := by
    refine List.countP_congr fun k hk => ?_
    obtain ⟨i, hi, rfl⟩ := List.mem_map.mp hk
    obtain ⟨hl, hvalid⟩ := mem_shell.mp hi
    have hvalid : i.k.natAbs ≤ i.l := of_decide_eq_true hvalid
    simp only [Bool.and_eq_true, decide_eq_true_eq, beq_iff_eq]
    omega
  refine (length_filter_shell (fun k => k < 0 && -(n : ℤ) ≤ k && k % 2 == 0) (n + 1)).trans ?_
  rw [countP_orders_succ, hinside, countP_even_sine]
  simp only [Bool.and_eq_true, decide_eq_true_eq, beq_iff_eq]
  split <;> split <;> omega

/-! ## Complete shells -/

theorem resolvedBelow_add (dimension n j : ℕ) :
    resolvedBelow dimension (n + j) = resolvedBelow dimension n ++
      (List.range j).flatMap fun l => resolvedShell dimension (n + l) := by
  rw [resolvedBelow, List.range_add, List.flatMap_append, List.flatMap_map]
  rfl

theorem length_resolvedBelow_succ (dimension n : ℕ) :
    (resolvedBelow dimension (n + 1)).length =
      (resolvedBelow dimension n).length + (resolvedShell dimension n).length := by
  rw [resolvedBelow_add, List.length_append]
  simp

theorem length_resolvedBelow_plane (n : ℕ) : 2 * (resolvedBelow 2 n).length = n * (n + 1) := by
  induction n with
  | zero => rfl
  | succ n ih =>
    have hshell : (resolvedShell 2 n).length = n + 1 := by simp [resolvedShell]
    rw [length_resolvedBelow_succ, hshell, Nat.mul_add, ih]
    ring

theorem length_resolvedBelow_space (n : ℕ) : (resolvedBelow 3 n).length = n * n := by
  induction n with
  | zero => rfl
  | succ n ih =>
    have hshell : (resolvedShell 3 n).length = 2 * n + 1 := by simp [resolvedShell, shell]
    rw [length_resolvedBelow_succ, hshell, ih]
    ring

/-- Every dimension resolves a moment of each degree. -/
theorem le_length_resolvedBelow (dimension n : ℕ) : n ≤ (resolvedBelow dimension n).length := by
  induction n with
  | zero => exact Nat.zero_le _
  | succ n ih =>
    have hmem : (⟨n, 0⟩ : MomentIndex) ∈ resolvedShell dimension n := by
      rw [mem_resolvedShell]
      refine ⟨rfl, by simp [isValid], ?_⟩
      unfold isResolvedIn
      split <;> simp
    have hpos := List.length_pos_of_mem hmem
    rw [length_resolvedBelow_succ]
    omega

/-! ## The map -/

theorem length_planeMap (n : ℕ) : (planeMap n).length = n * (n + 1) / 2 + (n + 1) / 2 := by
  have hshells := length_resolvedBelow_plane n
  rw [planeMap, List.length_append, length_filter_isOddCosine, ← hshells]
  omega

theorem length_spaceMap (n : ℕ) : (spaceMap n).length = n * (n + 2) := by
  have hsine : ((shell n).filter fun i => i.k < 0).length = n :=
    (length_filter_shell _ n).trans (countP_sine n)
  rw [spaceMap, List.length_append, List.length_append, List.length_append,
    length_resolvedBelow_space, length_filter_isOddCosine, hsine, length_filter_isEvenSine,
    Nat.mul_add]
  omega

/-- For an even order there are as many moments as a level symmetric set has angles. -/
theorem length_planeMap_of_even {n : ℕ} (h : n % 2 = 0) : (planeMap n).length = n * (n + 2) / 2 := by
  obtain ⟨j, rfl⟩ := Nat.dvd_of_mod_eq_zero h
  have hshells : 2 * j * (2 * j + 1) / 2 = j * (2 * j + 1) := by
    rw [mul_assoc, Nat.mul_div_cancel_left _ two_pos]
  have hall : 2 * j * (2 * j + 2) / 2 = j * (2 * j + 2) := by
    rw [mul_assoc, Nat.mul_div_cancel_left _ two_pos]
  rw [length_planeMap, hshells, hall, Nat.mul_succ j (2 * j + 1)]
  omega

/-- Outside one dimension the map starts with complete shells. -/
theorem exists_squareMap_eq_append {dimension : ℕ} (h : dimension ≠ 1) (n : ℕ) :
    ∃ rest, squareMap dimension n = resolvedBelow dimension n ++ rest := by
  unfold squareMap
  split
  next htwo => exact ⟨_, by rw [htwo, planeMap]⟩
  next htwo =>
    have hshells : resolvedBelow dimension n = resolvedBelow 3 n := by
      refine congrArg (List.flatMap · (List.range n)) (funext fun l => ?_)
      unfold resolvedShell
      split
      · exact absurd rfl h
      · exact absurd rfl htwo
      · rfl
    exact ⟨_, by rw [spaceMap, List.append_assoc, List.append_assoc, hshells]⟩

theorem le_length_squareMap {dimension : ℕ} (h : dimension ≠ 1) (n : ℕ) :
    n ≤ (squareMap dimension n).length := by
  obtain ⟨rest, hmap⟩ := exists_squareMap_eq_append h n
  rw [hmap, List.length_append]
  exact (le_length_resolvedBelow dimension n).trans (Nat.le_add_right ..)

/-- Outside one dimension a prefix is what it says, also where only the shells that
are needed are built. -/
theorem mapPrefix_eq_take {dimension : ℕ} (h : dimension ≠ 1) (n count : ℕ) :
    mapPrefix dimension n count = (squareMap dimension n).take count := by
  rw [mapPrefix, if_neg h]
  split
  next hcount =>
    obtain ⟨j, rfl⟩ := Nat.exists_eq_add_of_le hcount
    obtain ⟨rest, hmap⟩ := exists_squareMap_eq_append h (count + j)
    have hlength := le_length_resolvedBelow dimension count
    rw [hmap, resolvedBelow_add, List.append_assoc, List.take_append_of_le_length hlength]
  next => rfl

theorem length_mapPrefix (dimension n count : ℕ) :
    (mapPrefix dimension n count).length =
      if dimension = 1 then count else min count (squareMap dimension n).length := by
  split
  next hone => simp [mapPrefix, hone]
  next hone => rw [mapPrefix_eq_take hone, List.length_take]

/-! ## Selection -/

/-- What becomes of the moments of the map. -/
theorem select_sn {R : Type} [Scalar R] {q : Quadrature R} (h : q.layout ≠ .square) :
    select q .sn none =
      if (mapPrefix q.dimension q.order q.angles).length < q.angles then
        .error (.momentCount .sn q.angles (mapPrefix q.dimension q.order q.angles).length)
      else .ok (mapPrefix q.dimension q.order q.angles) := by
  have hcandidates : candidates q .sn none = .ok (mapPrefix q.dimension q.order q.angles) :=
    if_neg h
  by_cases hlt : (mapPrefix q.dimension q.order q.angles).length < q.angles
  · simp [select, hcandidates, require, bind, Except.bind, Interpolation.isSquare, hlt]
  · simp [select, hcandidates, require, bind, Except.bind, Interpolation.isSquare, hlt, pure,
      Except.pure]

/-- The fixed map of a positive order fits its purpose: whatever prefix is taken of it
starts with the constant, repeats no moment and holds none that the dimension does not
resolve. On a line the map does not end. In the plane and in space it holds a certain
number of moments, for even orders as many as a level symmetric set has angles. The
interpolation takes one moment for each angle of a set that is not square, and is
refused exactly if the map has fewer of them. -/
theorem fixedMap_serves {n : ℕ} (hn : 1 ≤ n) :
    (∀ dimension count,
      (mapPrefix dimension n count).Nodup ∧
      (∀ i ∈ mapPrefix dimension n count, i.k.natAbs ≤ i.l ∧ i.isResolvedIn dimension) ∧
      (1 ≤ count → (mapPrefix dimension n count).head? = some ⟨0, 0⟩)) ∧
    (∀ count, mapPrefix 1 n count = (List.range count).map fun l => ⟨l, 0⟩) ∧
    (∀ dimension count, dimension ≠ 1 →
      mapPrefix dimension n count = (squareMap dimension n).take count) ∧
    (squareMap 2 n).length = n * (n + 1) / 2 + (n + 1) / 2 ∧
    (n % 2 = 0 → (squareMap 2 n).length = n * (n + 2) / 2) ∧
    (squareMap 3 n).length = n * (n + 2) ∧
    ∀ {R : Type} [Scalar R] {q : Quadrature R}, q.order = n → q.layout ≠ .square →
      select q .sn none =
        if q.dimension = 1 ∨ q.angles ≤ (squareMap q.dimension n).length then
          .ok (mapPrefix q.dimension n q.angles)
        else .error (.momentCount .sn q.angles (squareMap q.dimension n).length) := by
  refine ⟨fun dimension count => ⟨?_, fun i hi => ?_, fun hcount => ?_⟩, fun count => rfl,
    fun dimension count h => mapPrefix_eq_take h n count, length_planeMap n,
    length_planeMap_of_even, length_spaceMap n, ?_⟩
  · exact (pairwise_mapPrefix dimension n count).imp fun hab heq => by
      subst heq
      exact Precedes.irrefl _ hab
  · obtain ⟨hvalid, hresolved⟩ := mem_mapPrefix hi
    exact ⟨of_decide_eq_true hvalid, hresolved⟩
  · refine head?_mapPrefix (List.ne_nil_of_length_pos ?_)
    rw [length_mapPrefix]
    split
    · exact hcount
    next hone => exact lt_min hcount (hn.trans (le_length_squareMap hone n))
  · intro R _ q horder hlayout
    rw [select_sn hlayout, horder, length_mapPrefix]
    by_cases hone : q.dimension = 1
    · simp [hone]
    · by_cases hcount : q.angles ≤ (squareMap q.dimension n).length
      · simp [hone, hcount]
      · rw [not_le] at hcount
        simp [hone, hcount, hcount.le]

/-- A set of odd order in the plane, with one direction more than there are moments. -/
noncomputable def crowdedPlane : Quadrature ℝ :=
  ⟨.general "crowded" 2 1, 1, 3.0,
    { mu := [-0.6, 0.6, 0], eta := [0, 0, 0.6], xi := [0.8, 0.8, 0.8], wt := [1, 1, 1] }⟩

theorem general_crowdedPlane :
    Quadrature.general "crowded" 2 1 1 (some 3.0) crowdedPlane.table = .ok crowdedPlane := by
  have hrows : crowdedPlane.table.rows =
      [⟨-0.6, 0, 0.8, 1⟩, ⟨0.6, 0, 0.8, 1⟩, ⟨0, 0.6, 0.8, 1⟩] := by
    simp [crowdedPlane, DirectionTable.rows, DirectionTable.row, List.range_succ]
  have hdirections : crowdedPlane.table.checkDirections = .ok () := by
    apply DirectionTable.checkDirections_eq_ok
    · simp [crowdedPlane]
    · intro _
      rw [hrows]
      simp only [List.forall_mem_cons, Ordinate.unitTolerance, abs_le]
      norm_num [Ordinate.squaredLength]
    · simp [hrows]
  refine Quadrature.general_eq_ok (by simp [crowdedPlane]) rfl (by simp [crowdedPlane]) rfl
    hdirections ?_
  norm_num [crowdedPlane]

theorem fixedMap_serves_crowdedPlane :
    Quadrature.general "crowded" 2 1 1 (some 3.0) crowdedPlane.table = .ok crowdedPlane ∧
      1 ≤ 1 ∧ crowdedPlane.order = 1 ∧ crowdedPlane.layout ≠ .square ∧
      (squareMap 2 1).length = 2 ∧
      select crowdedPlane .sn none = .error (.momentCount .sn 3 2) := by
  obtain ⟨-, -, -, hplane, -, -, hselect⟩ := fixedMap_serves (n := 1) le_rfl
  have horder : crowdedPlane.order = 1 := rfl
  have hlayout : crowdedPlane.layout ≠ .square := by decide
  refine ⟨general_crowdedPlane, le_rfl, horder, hlayout, hplane, ?_⟩
  rw [hselect horder hlayout]
  rfl

end MomentIndex

end DiscreteOrdinates
