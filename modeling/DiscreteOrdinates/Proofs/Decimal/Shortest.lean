import DiscreteOrdinates.Proofs.Decimal.Rounding
import DiscreteOrdinates.Decimal.Shortest

/-!
# Shortest decimals read back

The decimal that is chosen for a float lies where numbers round to this float.
Main statement: `shortest_roundsTo`. The grid of seventeen digits is fine enough
to hold such a decimal (`onGrid_ne_none`), so that one is always found.
-/

namespace DiscreteOrdinates

/-- The number that a decimal stands for. -/
def Decimal.value (d : Decimal) : ℚ :=
  d.coefficient * 10 ^ d.exponent

namespace Binary

variable {m n : ℕ} {e grid : ℤ}

/-! ## Points of a grid -/

/-- The place of the last grid point up to a stored number. -/
def placeBelow (m : ℕ) (e grid : ℤ) : ℕ :=
  4 * m * (scaledRatio 1 2 (e - 2)).1 * (scaledRatio 1 10 grid).2
    / ((scaledRatio 1 10 grid).1 * (scaledRatio 1 2 (e - 2)).2)

/-- Whether the grid point at a place lies in the neighbourhood. -/
def isInside (m : ℕ) (e grid : ℤ) (n : ℕ) : Bool :=
  let (low, high) := neighbourhood m e
  let (unit, unitDen) := scaledRatio 1 2 (e - 2)
  let (step, stepDen) := scaledRatio 1 10 grid
  let step := step * unitDen
  if m % 2 = 0 then
    low * unit * stepDen ≤ n * step && n * step ≤ high * unit * stepDen
  else
    low * unit * stepDen < n * step && n * step < high * unit * stepDen

/-- One of the two points around a stored number is chosen, if one of them is
inside. -/
theorem onGrid_cases (m : ℕ) (e grid : ℤ) :
    let lower := placeBelow m e grid
    (∃ n, onGrid m e grid = some ⟨n, grid⟩ ∧ isInside m e grid n) ∨
      onGrid m e grid = none ∧ ¬isInside m e grid lower ∧ ¬isInside m e grid (lower + 1) := by
  intro lower
  cases hlower : isInside m e grid lower <;> cases hupper : isInside m e grid (lower + 1)
  all_goals
    -- The same tests as they stand in the definition.
    have hlower' := hlower
    have hupper' := hupper
    simp only [isInside, lower, placeBelow] at hlower' hupper'
    simp only [onGrid, hlower', hupper']
  · exact .inr ⟨trivial, Bool.false_ne_true, Bool.false_ne_true⟩
  · exact .inl ⟨_, rfl, hupper⟩
  · exact .inl ⟨_, rfl, hlower⟩
  · refine .inl ⟨_, rfl, ?_⟩
    split
    · exact hlower
    · exact hupper

/-! ## Grid points as numbers -/

section

variable {bound : ℕ} {k : ℤ}

/-- A multiple of `2 ^ k` and a grid point over their common denominator. -/
private theorem scaled_eq (bound n : ℕ) (k grid : ℤ) :
    let common : ℚ := (scaledRatio 1 2 k).2 * (scaledRatio 1 10 grid).2
    0 < common ∧
      ((bound * (scaledRatio 1 2 k).1 * (scaledRatio 1 10 grid).2 : ℕ) : ℚ)
        = bound * 2 ^ k * common ∧
      ((n * ((scaledRatio 1 10 grid).1 * (scaledRatio 1 2 k).2) : ℕ) : ℚ)
        = n * 10 ^ grid * common := by
  have hunit : (0 : ℚ) < (scaledRatio 1 2 k).2 := by
    exact_mod_cast scaledRatio_den_pos 1 two_pos k
  have hstep : (0 : ℚ) < (scaledRatio 1 10 grid).2 := by
    exact_mod_cast scaledRatio_den_pos 1 (by decide) grid
  have hpower := scaledRatio_div 1 2 k
  have hpoint := scaledRatio_div 1 10 grid
  rw [div_eq_iff hunit.ne', Nat.cast_one, one_mul] at hpower
  rw [div_eq_iff hstep.ne', Nat.cast_one, one_mul] at hpoint
  refine ⟨mul_pos hunit hstep, ?_, ?_⟩
  · push_cast at hpower ⊢
    rw [hpower]
    ring
  · push_cast at hpoint ⊢
    rw [hpoint]
    ring

private theorem bound_le_point_iff :
    bound * (scaledRatio 1 2 k).1 * (scaledRatio 1 10 grid).2
        ≤ n * ((scaledRatio 1 10 grid).1 * (scaledRatio 1 2 k).2) ↔
      (bound : ℚ) * 2 ^ k ≤ n * 10 ^ grid := by
  obtain ⟨hcommon, hbound, hpoint⟩ := scaled_eq bound n k grid
  rw [← @Nat.cast_le ℚ, hbound, hpoint, mul_le_mul_iff_left₀ hcommon]

private theorem point_le_bound_iff :
    n * ((scaledRatio 1 10 grid).1 * (scaledRatio 1 2 k).2)
        ≤ bound * (scaledRatio 1 2 k).1 * (scaledRatio 1 10 grid).2 ↔
      (n : ℚ) * 10 ^ grid ≤ bound * 2 ^ k := by
  obtain ⟨hcommon, hbound, hpoint⟩ := scaled_eq bound n k grid
  rw [← @Nat.cast_le ℚ, hbound, hpoint, mul_le_mul_iff_left₀ hcommon]

private theorem bound_lt_point_iff :
    bound * (scaledRatio 1 2 k).1 * (scaledRatio 1 10 grid).2
        < n * ((scaledRatio 1 10 grid).1 * (scaledRatio 1 2 k).2) ↔
      (bound : ℚ) * 2 ^ k < n * 10 ^ grid := by
  rw [← not_le, ← not_le, point_le_bound_iff]

private theorem point_lt_bound_iff :
    n * ((scaledRatio 1 10 grid).1 * (scaledRatio 1 2 k).2)
        < bound * (scaledRatio 1 2 k).1 * (scaledRatio 1 10 grid).2 ↔
      (n : ℚ) * 10 ^ grid < bound * 2 ^ k := by
  rw [← not_le, ← not_le, bound_le_point_iff]

end

/-- The bounds of the neighbourhood as numbers. -/
theorem neighbourhood_eq (hm : 0 < m) (e : ℤ) :
    ((neighbourhood m e).1 : ℚ) * 2 ^ (e - 2) = (m - reachBelow m e) * 2 ^ e ∧
      ((neighbourhood m e).2 : ℚ) * 2 ^ (e - 2) = (m + 1 / 2) * 2 ^ e := by
  rw [neighbourhood, reachBelow, zpow_sub₀ two_ne_zero]
  constructor
  · split <;>
    · rw [Nat.cast_sub (by omega)]
      push_cast
      ring
  · push_cast
    ring

theorem isInside_iff (hm : 0 < m) :
    isInside m e grid n = true ↔ RoundsTo (n * 10 ^ grid) m e := by
  obtain ⟨hlow, hhigh⟩ := neighbourhood_eq hm e
  have hpower : (0 : ℚ) < 2 ^ e := by positivity
  rw [RoundsTo, lt_div_iff₀ hpower, div_lt_iff₀ hpower, le_div_iff₀ hpower, div_le_iff₀ hpower,
    ← hlow, ← hhigh, Nat.even_iff]
  simp only [isInside]
  split
  next heven =>
    rw [Bool.and_eq_true, decide_eq_true_eq, decide_eq_true_eq, bound_le_point_iff,
      point_le_bound_iff]
    exact ⟨fun h => .inr ⟨heven, h⟩, fun h => h.elim (fun h => ⟨h.1.le, h.2.le⟩) fun h => h.2⟩
  next hodd =>
    rw [Bool.and_eq_true, decide_eq_true_eq, decide_eq_true_eq, bound_lt_point_iff,
      point_lt_bound_iff]
    exact ⟨.inl, fun h => h.resolve_right fun h => hodd h.1⟩

theorem placeBelow_bounds (m : ℕ) (e grid : ℤ) :
    (placeBelow m e grid : ℚ) * 10 ^ grid ≤ m * 2 ^ e ∧
      (m : ℚ) * 2 ^ e < ((placeBelow m e grid + 1 : ℕ) : ℚ) * 10 ^ grid := by
  have hstep : 0 < (scaledRatio 1 10 grid).1 * (scaledRatio 1 2 (e - 2)).2 :=
    Nat.mul_pos (scaledRatio_num_pos one_pos (by decide) grid) (scaledRatio_den_pos 1 two_pos _)
  have hvalue : (m : ℚ) * 2 ^ e = (4 * m : ℕ) * 2 ^ (e - 2) := by
    rw [zpow_sub₀ two_ne_zero]
    push_cast
    ring
  rw [hvalue, ← point_le_bound_iff, ← bound_lt_point_iff]
  exact ⟨Nat.div_mul_le_self _ _, Nat.lt_mul_of_div_lt (Nat.lt_succ_self _) hstep⟩

/-! ## Seventeen digits -/

/-- A grid that is finer than the neighbourhood holds a decimal in it. -/
theorem onGrid_ne_none (hm : 0 < m) (hfine : (10 : ℚ) ^ grid < 2 * reachBelow m e * 2 ^ e) :
    onGrid m e grid ≠ none := by
  intro hnone
  obtain ⟨_, hsome, -⟩ | ⟨-, hlower, hupper⟩ := onGrid_cases m e grid
  · rw [hnone] at hsome
    contradiction
  obtain ⟨hbelow, habove⟩ := placeBelow_bounds m e grid
  rw [isInside_iff hm] at hlower hupper
  push_cast at habove hupper
  -- The nearer one of the two points is within half a step.
  rcases lt_or_ge ((m : ℚ) * 2 ^ e - placeBelow m e grid * 10 ^ grid)
    (reachBelow m e * 2 ^ e) with hnear | hfar
  · exact hlower (.of_abs_sub_lt (abs_lt.mpr ⟨by linarith, by linarith⟩))
  · exact hupper (.of_abs_sub_lt (abs_lt.mpr ⟨by linarith, by linarith⟩))

/-- Seventeen digits are finer than the neighbourhood of a stored number. -/
theorem seventeen_digits (hs : IsStored m e) {top : ℤ}
    (htop : (10 : ℚ) ^ top ≤ m * 2 ^ e) :
    (10 : ℚ) ^ (top - 16) < 2 * reachBelow m e * 2 ^ e := by
  have hpower : (0 : ℚ) < 2 ^ e := by positivity
  have hsmall : (m : ℚ) < 10 ^ (16 : ℤ) * (2 * reachBelow m e) := by
    have hlt := hs.small
    rw [hiddenBit_eq] at hlt
    rw [reachBelow]
    split
    next hfirst =>
      rw [hfirst.1, hiddenBit_eq]
      norm_num
    next =>
      have : (m : ℚ) < (9007199254740992 : ℕ) := by exact_mod_cast hlt
      refine this.trans_le ?_
      norm_num
  rw [zpow_sub₀ (by norm_num), div_lt_iff₀ (by positivity)]
  calc (10 : ℚ) ^ top ≤ m * 2 ^ e := htop
    _ < 10 ^ (16 : ℤ) * (2 * reachBelow m e) * 2 ^ e := by gcongr
    _ = 2 * reachBelow m e * 2 ^ e * 10 ^ (16 : ℤ) := by ring

/-- A carry into the next decade leaves the value as it is. -/
theorem value_carry (n : ℕ) (top : ℤ) :
    (⟨Nat.pow 10 (n + 1), top - n⟩ : Decimal).value = (⟨1, top + 1⟩ : Decimal).value := by
  simp only [Decimal.value, Nat.pow_eq]
  push_cast
  rw [one_mul, ← zpow_natCast, ← zpow_add₀ (by norm_num)]
  congr 1
  push_cast
  ring

theorem onGrid_roundsTo (hm : 0 < m) {d : Decimal} (h : onGrid m e grid = some d) :
    d.exponent = grid ∧ RoundsTo d.value m e := by
  obtain ⟨n, hsome, hinside⟩ | ⟨hnone, -⟩ := onGrid_cases m e grid
  · obtain rfl : ⟨n, grid⟩ = d := Option.some.inj (hsome.symm.trans h)
    exact ⟨rfl, (isInside_iff hm).mp hinside⟩
  · rw [hnone] at h
    contradiction

theorem shortest_roundsTo (hm : 0 < m) (hs : IsStored m e) :
    RoundsTo (shortest m e).value m e := by
  obtain ⟨htop, -⟩ := decade_bounds (scaledRatio_num_pos hm two_pos e)
    (scaledRatio_den_pos m two_pos e)
  rw [scaledRatio_div, Nat.cast_two] at htop
  simp only [shortest]
  generalize decade (scaledRatio m 2 e).1 (scaledRatio m 2 e).2 = top at htop ⊢
  cases hfound : (List.range 17).findSome? _ with
  | none =>
    -- The last grid of the search holds a decimal.
    have hnone := List.findSome?_eq_none_iff.mp hfound 16 (List.mem_range.mpr (by decide))
    exact absurd (Option.map_eq_none_iff.mp hnone) (onGrid_ne_none hm (seventeen_digits hs htop))
  | some d =>
    obtain ⟨n, -, hsome⟩ := List.exists_of_findSome?_eq_some hfound
    obtain ⟨point, hpoint, rfl⟩ := Option.map_eq_some_iff.mp hsome
    obtain ⟨hexponent, hround⟩ := onGrid_roundsTo hm hpoint
    rw [Option.getD_some]
    split
    next hcarry =>
      rw [← value_carry n top, ← hcarry, ← hexponent]
      exact hround
    next => exact hround

end Binary

end DiscreteOrdinates
