import DiscreteOrdinates.Proofs.Decimal.Scales

/-!
# Rounding to floats

How a finite float is stored, and which numbers round to it. Main statements:
the bits of a finite float are those of its significand and exponent
(`ofFloat_of_isFinite`), and every ratio near enough to a stored number rounds to
its bits (`nearestBits_eq`).
-/

namespace DiscreteOrdinates

namespace Binary

/-! ## Stored numbers -/

/-- Significand and exponent as a finite float stores them: the leading bit of the
significand is in use, unless the exponent is the least one. -/
structure IsStored (m : ℕ) (e : ℤ) : Prop where
  least : leastExponent ≤ e
  greatest : e < leastExponent + 2046
  small : m < 2 * hiddenBit
  normal : leastExponent < e → hiddenBit ≤ m

/-- The bits of a stored number without its sign. -/
def storedBits (m : ℕ) (e : ℤ) : ℕ :=
  (e - leastExponent).toNat * hiddenBit + m

theorem hiddenBit_eq : hiddenBit = 4503599627370496 := rfl

theorem IsStored.storedBits_lt {m : ℕ} {e : ℤ} (h : IsStored m e) :
    storedBits m e < specialField * hiddenBit := by
  obtain ⟨hleast, hgreatest, hsmall, -⟩ := h
  rw [hiddenBit_eq] at hsmall
  rw [storedBits, hiddenBit_eq, specialField]
  omega

theorem IsStored.succ_le {m : ℕ} {e : ℤ} (h : IsStored m e) : (m : ℚ) + 1 ≤ 2 ^ (53 : ℤ) := by
  rw [show (2 : ℚ) ^ (53 : ℤ) = (2 * hiddenBit : ℕ) by rw [hiddenBit_eq]; norm_num]
  exact_mod_cast h.small

/-- Zero has the least exponent. -/
theorem IsStored.storedBits_zero {e : ℤ} (h : IsStored 0 e) : storedBits 0 e = 0 := by
  have hexponent : e = leastExponent :=
    le_antisymm (not_lt.mp fun hlt => absurd (h.normal hlt) (by decide)) h.least
  rw [storedBits, hexponent, sub_self, Int.toNat_zero, zero_mul]

/-- A float is finite unless its exponent field is the special one. -/
theorem biased_ne_of_isFinite {x : Float} (h : x.isFinite = true) :
    x.toBits.toNat / hiddenBit % (specialField + 1) ≠ specialField := by
  intro hspecial
  have hexponent : @Float.Model.UnpackedFloat.unpackExponent Float.Model.Format.binary64
      x.toModel.toBits.toBitVec = -1#_ := by
    rw [Float.Model.UnpackedFloat.unpackExponent_def, ← BitVec.toNat_inj,
      BitVec.extractLsb'_toNat, Nat.shiftRight_eq_div_pow]
    exact hspecial
  rw [Float.isFinite, Float.Model.isFinite, Float.Model.unpack, Float.Model.UnpackedFloat.unpack,
    if_pos hexponent] at h
  split at h <;> exact absurd h Bool.false_ne_true

/-- The bits of a float put together from sign, exponent field and fraction. -/
theorem toBits_eq_fields (x : Float) :
    let stored := x.toBits.toNat / hiddenBit % (specialField + 1) * hiddenBit
      + x.toBits.toNat % hiddenBit
    x.toBits.toNat = if signBit ≤ x.toBits.toNat then stored + signBit else stored := by
  have hbits : x.toBits.toNat < 18446744073709551616 := x.toBits.toNat_lt_size
  have hsign : signBit = 9223372036854775808 := rfl
  rw [hsign, hiddenBit_eq, specialField]
  split <;> omega

theorem ofFloat_of_isFinite {x : Float} (h : x.isFinite = true) :
    ∃ negative m e, ofFloat x = .finite negative m e ∧ IsStored m e ∧
      x.toBits.toNat = if negative then storedBits m e + signBit else storedBits m e := by
  have hspecial := biased_ne_of_isFinite h
  have hfields := toBits_eq_fields x
  have hbiased : x.toBits.toNat / hiddenBit % (specialField + 1) < specialField + 1 :=
    Nat.mod_lt _ (Nat.succ_pos _)
  have hfraction : x.toBits.toNat % hiddenBit < hiddenBit := Nat.mod_lt _ (by decide)
  simp only [ofFloat]
  rw [if_neg hspecial]
  generalize x.toBits.toNat / hiddenBit % (specialField + 1) = biased at *
  generalize x.toBits.toNat % hiddenBit = fraction at *
  rw [specialField] at hspecial hbiased
  -- An empty exponent field stands for the least exponent, without a hidden bit.
  by_cases hleast : biased = 0
  · have hstored : storedBits fraction leastExponent = biased * hiddenBit + fraction := by
      rw [storedBits, sub_self, hleast, Int.toNat_zero]
    rw [if_pos hleast]
    refine ⟨_, _, _, rfl, ⟨le_rfl, by omega, by omega, fun hlt => absurd hlt (lt_irrefl _)⟩, ?_⟩
    rw [hstored]
    simpa only [decide_eq_true_eq] using hfields
  · have hstored : storedBits (hiddenBit + fraction) (leastExponent + (biased - 1 : ℕ))
        = biased * hiddenBit + fraction := by
      rw [storedBits, add_sub_cancel_left, Int.toNat_natCast, ← Nat.add_assoc, ← Nat.succ_mul,
        Nat.succ_eq_add_one, Nat.sub_add_cancel (Nat.pos_of_ne_zero hleast)]
    rw [if_neg hleast]
    refine ⟨_, _, _, rfl, ⟨by omega, by omega, by omega, fun _ => Nat.le_add_right _ _⟩, ?_⟩
    rw [hstored]
    simpa only [decide_eq_true_eq] using hfields

/-! ## What rounds to a stored number -/

/-- How far below `m · 2 ^ e` numbers round to it, in units of `2 ^ e`. Below the
first significand of a binade the next float is only half as far away. -/
def reachBelow (m : ℕ) (e : ℤ) : ℚ :=
  if m = hiddenBit ∧ leastExponent < e then 1 / 4 else 1 / 2

/-- The number `q` rounds to `m · 2 ^ e`: it is within the reach of it, the ends
included for an even significand. -/
def RoundsTo (q : ℚ) (m : ℕ) (e : ℤ) : Prop :=
  m - reachBelow m e < q / 2 ^ e ∧ q / 2 ^ e < m + 1 / 2 ∨
    Even m ∧ m - reachBelow m e ≤ q / 2 ^ e ∧ q / 2 ^ e ≤ m + 1 / 2

theorem reachBelow_le_half (m : ℕ) (e : ℤ) : reachBelow m e ≤ 1 / 2 := by
  rw [reachBelow]
  split <;> norm_num

namespace RoundsTo

variable {q : ℚ} {m : ℕ} {e : ℤ}

theorem low_le (h : RoundsTo q m e) : m - reachBelow m e ≤ q / 2 ^ e :=
  h.elim (fun h => h.1.le) fun h => h.2.1

theorem le_high (h : RoundsTo q m e) : q / 2 ^ e ≤ m + 1 / 2 :=
  h.elim (fun h => h.2.le) fun h => h.2.2

theorem half_le (h : RoundsTo q m e) : (m : ℚ) - 1 / 2 ≤ q / 2 ^ e := by
  have := h.low_le
  have := reachBelow_le_half m e
  linarith

theorem isNearest (h : RoundsTo q m e) : IsNearest (q / 2 ^ e) m := by
  have hreach := reachBelow_le_half m e
  rcases h with ⟨hlow, hhigh⟩ | ⟨heven, hlow, hhigh⟩
  · exact .inl (abs_lt.mpr ⟨by linarith, by linarith⟩)
  · rcases (abs_le.mpr ⟨by linarith, by linarith⟩ : |q / 2 ^ e - m| ≤ 1 / 2).lt_or_eq with hlt | heq
    · exact .inl hlt
    · exact .inr ⟨heq, heven⟩

theorem pos (h : RoundsTo q m e) (hm : 0 < m) : 0 < q := by
  have hone : (1 : ℚ) ≤ m := by exact_mod_cast hm
  have hscaled : 0 < q / 2 ^ e := by linarith [h.half_le]
  exact (div_pos_iff_of_pos_right (by positivity)).mp hscaled

/-- On both sides numbers round to `m · 2 ^ e` up to the reach below it. -/
theorem of_abs_sub_lt (h : |q - m * 2 ^ e| < reachBelow m e * 2 ^ e) : RoundsTo q m e := by
  have hpower : (0 : ℚ) < 2 ^ e := by positivity
  have hreach := mul_le_mul_of_nonneg_right (reachBelow_le_half m e) hpower.le
  obtain ⟨hlow, hhigh⟩ := abs_lt.mp h
  refine .inl ⟨?_, ?_⟩
  · rw [lt_div_iff₀ hpower]
    linarith
  · rw [div_lt_iff₀ hpower]
    linarith

end RoundsTo

/-! ## Rounding to bits -/

section

variable {num den m : ℕ} {e : ℤ}

/-- The significand at an exponent, once it is known what the scaled ratio is
nearest to. -/
theorem roundHalfEven_scaled (hden : 0 < den) {s : ℕ} (h : IsNearest (num / den / 2 ^ e) s) :
    roundHalfEven (num * (scaledRatio den 2 e).2) (scaledRatio den 2 e).1 = s := by
  have hratio := scaledRatio_div den 2 e
  refine roundHalfEven_eq (scaledRatio_num_pos hden two_pos e) ?_
  rwa [Nat.cast_mul, mul_div_assoc, ← inv_div, hratio, Nat.cast_two, ← div_eq_mul_inv, ← div_div]

/-- The exponent that a ratio rounds at. -/
def roundingExponent (num den : ℕ) : ℤ :=
  max (binade num den - 52) leastExponent

theorem nearestBits_eq_of_isNearest (hnum : 0 < num) (hden : 0 < den)
    (he : roundingExponent num den = e) (h : IsNearest (num / den / 2 ^ e) m)
    (hfits : storedBits m e < specialField * hiddenBit) :
    nearestBits num den = storedBits m e := by
  simp only [nearestBits]
  rw [if_neg hnum.ne', ← roundingExponent, he, roundHalfEven_scaled hden h]
  exact min_eq_left hfits.le

theorem RoundsTo.num_pos (hm : 0 < m) (h : RoundsTo (num / den) m e) : 0 < num := by
  refine Nat.pos_of_ne_zero fun hzero => (h.pos hm).ne' ?_
  rw [hzero, Nat.cast_zero, zero_div]

/-- A ratio that rounds to a stored number is not rounded at a higher exponent. -/
theorem roundingExponent_le (hm : 0 < m) (hden : 0 < den) (hs : IsStored m e)
    (h : RoundsTo (num / den) m e) : roundingExponent num den ≤ e := by
  have hsmall := hs.succ_le
  have hscaled : (num : ℚ) / den / 2 ^ e < 2 ^ (53 : ℤ) := by linarith [h.le_high]
  rw [div_lt_iff₀ (by positivity), ← zpow_add₀ two_ne_zero] at hscaled
  have hbinade := (binade_bounds (h.num_pos hm) hden).1.trans_lt hscaled
  rw [zpow_lt_zpow_iff_right₀ one_lt_two] at hbinade
  exact max_le (by omega) hs.least

theorem scaled_lt_hiddenBit (hnum : 0 < num) (hden : 0 < den)
    (hlt : roundingExponent num den < e) : (num : ℚ) / den / 2 ^ e < hiddenBit := by
  have hbinade : binade num den - 52 < e := (le_max_left _ _).trans_lt hlt
  have hhidden : (2 : ℚ) ^ (52 : ℤ) = hiddenBit := by
    rw [hiddenBit_eq]
    norm_num
  rw [div_lt_iff₀ (by positivity), ← hhidden, ← zpow_add₀ two_ne_zero]
  refine (binade_bounds hnum hden).2.trans_le ?_
  exact zpow_le_zpow_right₀ one_le_two (by omega)

theorem le_roundingExponent (hnum : 0 < num) (hden : 0 < den)
    (h : (2 : ℚ) ^ (51 : ℤ) ≤ num / den / 2 ^ e) : e - 1 ≤ roundingExponent num den := by
  rw [le_div_iff₀ (by positivity), ← zpow_add₀ two_ne_zero] at h
  have hbinade := h.trans_lt (binade_bounds hnum hden).2
  rw [zpow_lt_zpow_iff_right₀ one_lt_two] at hbinade
  exact (by omega : e - 1 ≤ binade num den - 52).trans (le_max_left _ _)

/-- A ratio that rounds to a stored number but at a lower exponent is just below
the first number of a binade. -/
theorem eq_of_roundingExponent_lt (hm : 0 < m) (hden : 0 < den) (hs : IsStored m e)
    (h : RoundsTo (num / den) m e) (hlt : roundingExponent num den < e) :
    m = hiddenBit ∧ roundingExponent num den = e - 1 ∧
      IsNearest (num / den / 2 ^ (e - 1)) (2 * hiddenBit) := by
  have hleast : leastExponent < e := (le_max_right _ _).trans_lt hlt
  have hhigh := scaled_lt_hiddenBit (h.num_pos hm) hden hlt
  have hfirst : m = hiddenBit := by
    have hle : (m : ℚ) < (hiddenBit + 1 : ℕ) := by
      push_cast
      linarith [h.half_le]
    exact le_antisymm (Nat.lt_succ_iff.mp (by exact_mod_cast hle)) (hs.normal hleast)
  have hlow : (hiddenBit : ℚ) - 1 / 4 ≤ num / den / 2 ^ e := by
    have := h.low_le
    rwa [reachBelow, if_pos ⟨hfirst, hleast⟩, hfirst] at this
  have hhalf : (2 : ℚ) ^ (51 : ℤ) ≤ num / den / 2 ^ e := by
    refine le_trans ?_ hlow
    rw [hiddenBit_eq]
    norm_num
  refine ⟨hfirst, le_antisymm (by omega) (le_roundingExponent (h.num_pos hm) hden hhalf), ?_⟩
  have hdouble : (num : ℚ) / den / 2 ^ (e - 1) = 2 * (num / den / 2 ^ e) := by
    rw [zpow_sub_one₀ two_ne_zero]
    field_simp
  rw [hdouble, IsNearest]
  push_cast
  have habs : |2 * ((num : ℚ) / den / 2 ^ e) - 2 * hiddenBit| ≤ 1 / 2 :=
    abs_le.mpr ⟨by linarith, by linarith⟩
  exact habs.lt_or_eq.imp_right fun heq => ⟨heq, even_two_mul _⟩

/-- A carry into the next binade leaves the bits as they are. -/
theorem storedBits_carry (h : leastExponent < e) :
    storedBits (2 * hiddenBit) (e - 1) = storedBits hiddenBit e := by
  have hexponent : (e - leastExponent).toNat = (e - 1 - leastExponent).toNat + 1 := by omega
  rw [storedBits, storedBits, hexponent, two_mul, Nat.succ_mul, Nat.add_assoc]

theorem nearestBits_eq (hm : 0 < m) (hden : 0 < den) (hs : IsStored m e)
    (h : RoundsTo (num / den) m e) : nearestBits num den = storedBits m e := by
  rcases (roundingExponent_le hm hden hs h).lt_or_eq with hlt | heq
  · have hleast : leastExponent < e := (le_max_right _ _).trans_lt hlt
    obtain ⟨rfl, hexponent, hnearest⟩ := eq_of_roundingExponent_lt hm hden hs h hlt
    -- The significand is rounded up into the next binade.
    rw [← storedBits_carry hleast]
    refine nearestBits_eq_of_isNearest (h.num_pos hm) hden hexponent hnearest ?_
    rw [storedBits_carry hleast]
    exact hs.storedBits_lt
  · exact nearestBits_eq_of_isNearest (h.num_pos hm) hden heq h.isNearest hs.storedBits_lt

end

theorem nearestBits_zero (den : ℕ) : nearestBits 0 den = 0 := rfl

/-- A ratio that rounds to the bits of a float, with its sign, is that float. -/
theorem nearest_eq {x : Float} {negative : Bool} {num den bits : ℕ}
    (hbits : nearestBits num den = bits)
    (hx : x.toBits.toNat = if negative then bits + signBit else bits) :
    nearest negative num den = x := by
  simp only [nearest]
  rw [hbits, ← hx, UInt64.ofNat_toNat, Float.ofBits_toBits]

end Binary

end DiscreteOrdinates
