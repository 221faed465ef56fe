import DiscreteOrdinates.Proofs.Decimal.Shortest
import DiscreteOrdinates.Proofs.Decimal.Recognition

/-!
# Reading a float back

The plain text of a finite float is a number without a power of ten, and the
float nearest to this number is the same float, bit for bit. Main statements: the
characters of a plain number write it (`numberText_plainText`), and what the text
of a float reads as (`exists_literal_floatText`).
-/

namespace DiscreteOrdinates

/-! ## Literals without a power of ten -/

namespace Literal

/-- A number as it is written without a power of ten: digits in front of the point
in any case. -/
structure IsPlain (l : Literal) : Prop where
  whole_ne_nil : l.whole ≠ []
  isDigit_whole : ∀ c ∈ l.whole, c.isDigit = true
  isDigit_fraction : ∀ c ∈ l.fraction, c.isDigit = true
  exponent_eq : l.exponent = none

/-- The characters of a plain number, with a point only in front of a fraction. -/
def plainText (l : Literal) : List Char :=
  let unsigned := if l.fraction = [] then l.whole else l.whole ++ '.' :: l.fraction
  if l.negative then '-' :: unsigned else unsigned

namespace IsPlain

variable {l : Literal}

theorem plainText_ne_nil (h : l.IsPlain) : l.plainText ≠ [] := by
  simp only [plainText]
  split_ifs
  · exact List.cons_ne_nil _ _
  · exact List.cons_ne_nil _ _
  · exact h.whole_ne_nil
  · exact List.append_ne_nil_of_left_ne_nil h.whole_ne_nil _

theorem mem_plainText (h : l.IsPlain) {c : Char} (hc : c ∈ l.plainText) :
    c = '-' ∨ c = '.' ∨ c.isDigit = true := by
  have hunsigned : ∀ c ∈ (if l.fraction = [] then l.whole else l.whole ++ '.' :: l.fraction),
      c = '.' ∨ c.isDigit = true := by
    intro c hc
    split at hc
    · exact .inr (h.isDigit_whole c hc)
    · rcases List.mem_append.mp hc with hwhole | hrest
      · exact .inr (h.isDigit_whole c hwhole)
      · exact (List.mem_cons.mp hrest).imp_right (h.isDigit_fraction c)
  simp only [plainText] at hc
  split at hc
  · exact (List.mem_cons.mp hc).imp_right (hunsigned c)
  · exact .inr (hunsigned c hc)

end IsPlain

/-- The characters of a plain number write this number. -/
theorem numberText_plainText {l : Literal} (h : l.IsPlain) : NumberText l.plainText l := by
  obtain ⟨negative, whole, fraction, exponent⟩ := l
  obtain ⟨hne, hwhole, hfraction, rfl⟩ := h
  have hmantissa : MantissaText (if fraction = [] then whole else whole ++ '.' :: fraction)
      whole fraction := by
    split
    next hnone => exact hnone ▸ .whole hne hwhole
    next => exact .point (.inl hne) hwhole hfraction
  have hsign : SignText (if negative then ['-'] else []) negative := by
    cases negative with
    | true => exact .minus
    | false => exact .absent
  have htext := @NumberText.number _ _ _ ⟨negative, whole, fraction, none⟩ hsign hmantissa .absent
  rw [List.append_nil] at htext
  cases negative <;> exact htext

end Literal

/-! ## Decimals as literals -/

namespace Decimal

/-- The literal that the positional text of a decimal is. -/
def toLiteral (negative : Bool) (d : Decimal) : Literal :=
  match d.exponent with
  | .ofNat e =>
    ⟨negative, if d.coefficient = 0 then ['0'] else digits d.coefficient ++ List.replicate e '0',
      [], none⟩
  | .negSucc e =>
    let ds := (digits d.coefficient).leftpad (e + 2) '0'
    ⟨negative, ds.take (ds.length - (e + 1)), ds.drop (ds.length - (e + 1)), none⟩

theorem isDigit_of_mem_digits {n : ℕ} : ∀ c ∈ digits n, c.isDigit = true :=
  fun _ => Nat.isDigit_of_mem_toDigits (by decide) (by decide)

theorem isDigit_of_mem_leftpad {n k : ℕ} : ∀ c ∈ (digits n).leftpad k '0', c.isDigit = true := by
  intro c hc
  rcases List.mem_append.mp hc with hzero | hdigit
  · rw [List.eq_of_mem_replicate hzero]
    decide
  · exact isDigit_of_mem_digits c hdigit

theorem ofDigits_leftpad (n k : ℕ) : ofDigits ((digits n).leftpad k '0') = n := by
  rw [ofDigits, List.leftpad, Nat.ofDigitChars_append, Nat.ofDigitChars_replicate_zero, mul_zero]
  exact ofDigits_digits n

/-- A text that is padded beyond its fraction has a digit in front of the point. -/
theorem lt_length_leftpad (e : ℕ) (ds : List Char) : e + 1 < (ds.leftpad (e + 2) '0').length := by
  rw [List.length_leftpad]
  exact lt_of_lt_of_le (Nat.lt_succ_self _) (le_max_left _ _)

@[simp] theorem negative_toLiteral (negative : Bool) (d : Decimal) :
    (d.toLiteral negative).negative = negative := by
  obtain ⟨_, _ | _⟩ := d <;> rfl

theorem isPlain_toLiteral (negative : Bool) (d : Decimal) : (d.toLiteral negative).IsPlain := by
  obtain ⟨coefficient, exponent⟩ := d
  cases exponent with
  | ofNat e =>
    refine ⟨?_, fun c hc => ?_, by simp [toLiteral], rfl⟩ <;> simp only [toLiteral] at *
    · split
      · exact List.cons_ne_nil _ _
      · exact List.append_ne_nil_of_left_ne_nil Nat.toDigits_ne_nil _
    · split at hc
      · rw [List.mem_singleton.mp hc]
        decide
      · rcases List.mem_append.mp hc with hdigit | hzero
        · exact isDigit_of_mem_digits c hdigit
        · rw [List.eq_of_mem_replicate hzero]
          decide
  | negSucc e =>
    refine ⟨?_, fun c hc => isDigit_of_mem_leftpad c (List.mem_of_mem_take hc),
      fun c hc => isDigit_of_mem_leftpad c (List.mem_of_mem_drop hc), rfl⟩
    have hlength := lt_length_leftpad e (digits coefficient)
    refine List.ne_nil_of_length_pos ?_
    simp only [toLiteral, List.length_take]
    omega

theorem length_fraction_toLiteral (negative : Bool) (coefficient e : ℕ) :
    (toLiteral negative ⟨coefficient, .negSucc e⟩).fraction.length = e + 1 := by
  have hlength := lt_length_leftpad e (digits coefficient)
  simp only [toLiteral, List.length_drop]
  omega

theorem plainText_toLiteral (negative : Bool) (d : Decimal) :
    (d.toLiteral negative).plainText =
      if negative then '-' :: d.positional else d.positional := by
  obtain ⟨coefficient, exponent⟩ := d
  cases exponent with
  | ofNat e => rfl
  | negSucc e =>
    have hfraction : (toLiteral negative ⟨coefficient, .negSucc e⟩).fraction ≠ [] := by
      refine List.ne_nil_of_length_pos ?_
      rw [length_fraction_toLiteral]
      exact Nat.succ_pos e
    simp only [Literal.plainText]
    rw [if_neg hfraction]
    rfl

end Decimal

/-! ## Values -/

/-- The number that a literal stands for, without its sign. -/
def Literal.value (l : Literal) : ℚ :=
  l.coefficient * 10 ^ l.scale

theorem Decimal.value_toLiteral (negative : Bool) (d : Decimal) :
    (d.toLiteral negative).value = d.value := by
  obtain ⟨coefficient, exponent⟩ := d
  cases exponent with
  | ofNat e =>
    have hcoefficient : (toLiteral negative ⟨coefficient, .ofNat e⟩).coefficient
        = coefficient * 10 ^ e := by
      simp only [Literal.coefficient, toLiteral, List.append_nil]
      split
      next hzero => rw [hzero, zero_mul]; rfl
      next =>
        rw [ofDigits, Nat.ofDigitChars_append, Nat.ofDigitChars_replicate_zero, mul_comm]
        congr 1
        exact ofDigits_digits coefficient
    have hscale : (toLiteral negative ⟨coefficient, .ofNat e⟩).scale = 0 := rfl
    rw [Literal.value, hcoefficient, hscale, value]
    simp
  | negSucc e =>
    have hcoefficient : (toLiteral negative ⟨coefficient, .negSucc e⟩).coefficient
        = coefficient := by
      simp only [Literal.coefficient, toLiteral, List.take_append_drop]
      exact ofDigits_leftpad coefficient (e + 2)
    have hscale : (toLiteral negative ⟨coefficient, .negSucc e⟩).scale = .negSucc e := by
      rw [Literal.scale, length_fraction_toLiteral]
      exact Int.zero_sub _
    rw [Literal.value, hcoefficient, hscale, value]

/-! ## The nearest float -/

namespace Binary

private theorem two_pow_lt_least : 2 ^ 1075 < 10 ^ 330 := by decide +kernel

private theorem two_pow_lt_greatest : 2 ^ 1024 < 10 ^ 309 := by decide +kernel

/-- What rounds to a stored number lies within the decades of floats. -/
theorem RoundsTo.decades {q : ℚ} {m : ℕ} {e : ℤ} (hm : 0 < m) (hs : IsStored m e)
    (h : RoundsTo q m e) : (10 : ℚ) ^ (-330 : ℤ) < q ∧ q < 10 ^ (309 : ℤ) := by
  have hpower : (0 : ℚ) < 2 ^ e := by positivity
  have hone : (1 : ℚ) ≤ m := by exact_mod_cast hm
  have hsmall : (m : ℚ) + 1 ≤ 2 ^ (53 : ℤ) := hs.succ_le
  constructor
  · have hleast : (2 : ℚ) ^ (-1074 : ℤ) ≤ 2 ^ e := zpow_le_zpow_right₀ one_le_two hs.least
    calc (10 : ℚ) ^ (-330 : ℤ) < 2 ^ (-1075 : ℤ) := by
          rw [zpow_neg, zpow_neg, inv_lt_inv₀ (by positivity) (by positivity)]
          exact_mod_cast two_pow_lt_least
      _ = 1 / 2 * 2 ^ (-1074 : ℤ) := by
          rw [show (-1075 : ℤ) = -1074 - 1 by norm_num, zpow_sub_one₀ two_ne_zero]
          ring
      _ ≤ (m - 1 / 2) * 2 ^ e := mul_le_mul (by linarith) hleast (by positivity) (by linarith)
      _ ≤ q := (le_div_iff₀ hpower).mp h.half_le
  · have hgreatest : (2 : ℚ) ^ e ≤ 2 ^ (971 : ℤ) :=
      zpow_le_zpow_right₀ one_le_two (Int.lt_add_one_iff.mp hs.greatest)
    calc q ≤ (m + 1 / 2) * 2 ^ e := (div_le_iff₀ hpower).mp h.le_high
      _ ≤ 2 ^ (53 : ℤ) * 2 ^ (971 : ℤ) :=
          mul_le_mul (by linarith) hgreatest hpower.le (by positivity)
      _ = 2 ^ (1024 : ℤ) := by
          rw [← zpow_add₀ two_ne_zero]
          norm_num
      _ < 10 ^ (309 : ℤ) := by exact_mod_cast two_pow_lt_greatest

end Binary

namespace Literal

variable {l : Literal} {x : Float}

theorem nearest_eq_of_roundsTo {m : ℕ} {e : ℤ} (hm : 0 < m) (hs : Binary.IsStored m e)
    (h : Binary.RoundsTo l.value m e)
    (hx : x.toBits.toNat = if l.negative then Binary.storedBits m e + Binary.signBit
      else Binary.storedBits m e) : l.nearest = x := by
  have hcoefficient : 0 < l.coefficient := by
    refine Nat.pos_of_ne_zero fun hzero => (h.pos hm).ne' ?_
    rw [value, hzero, Nat.cast_zero, zero_mul]
  have hscale : (0 : ℚ) < 10 ^ l.scale := by positivity
  obtain ⟨hlow, hhigh⟩ := h.decades hm hs
  obtain ⟨hcountLow, hcountHigh⟩ := digitCount_bounds hcoefficient
  have htop : -330 < digitCount l.coefficient + l.scale := by
    have := hlow.trans (mul_lt_mul_of_pos_right hcountHigh hscale)
    rwa [← zpow_add₀ (by norm_num), zpow_lt_zpow_iff_right₀ (by norm_num)] at this
  have hbottom : digitCount l.coefficient - 1 + l.scale < 309 := by
    have := (mul_le_mul_of_nonneg_right hcountLow hscale.le).trans_lt hhigh
    rwa [← zpow_add₀ (by norm_num), zpow_lt_zpow_iff_right₀ (by norm_num)] at this
  -- Between these decades neither cutoff of the reader applies.
  simp only [nearest]
  rw [if_neg (by omega), min_eq_left (by omega)]
  refine Binary.nearest_eq (Binary.nearestBits_eq hm (scaledRatio_den_pos _ (by decide) _) hs ?_) hx
  rwa [scaledRatio_div]

theorem nearest_eq_of_zero (hzero : l.coefficient = 0)
    (hx : x.toBits.toNat = if l.negative then 0 + Binary.signBit else 0) : l.nearest = x := by
  simp only [nearest]
  rw [if_pos (.inl hzero)]
  exact Binary.nearest_eq (Binary.nearestBits_zero 1) hx

end Literal

/-! ## The text of a float -/

/-- The text of a finite float is a plain number, and the float is the nearest
one to it. -/
theorem exists_literal_floatText {x : Float} (hx : x.isFinite = true) :
    ∃ l : Literal, l.IsPlain ∧ (floatText x).toList = l.plainText ∧ l.nearest = x := by
  obtain ⟨negative, m, e, hfloat, hs, hbits⟩ := Binary.ofFloat_of_isFinite hx
  simp only [floatText, hfloat, Binary.text, String.toList_ofList]
  -- Zero is written as a digit of its own.
  by_cases hm : m = 0
  · rw [hm] at hs hbits
    rw [hs.storedBits_zero] at hbits
    rw [if_pos hm]
    exact ⟨Decimal.toLiteral negative ⟨0, 0⟩, Decimal.isPlain_toLiteral _ _,
      (Decimal.plainText_toLiteral negative ⟨0, 0⟩).symm, Literal.nearest_eq_of_zero rfl hbits⟩
  · have hpos : 0 < m := Nat.pos_of_ne_zero hm
    rw [if_neg hm]
    refine ⟨(Binary.shortest m e).toLiteral negative, Decimal.isPlain_toLiteral _ _,
      (Decimal.plainText_toLiteral _ _).symm, Literal.nearest_eq_of_roundsTo hpos hs ?_ ?_⟩
    · rw [Decimal.value_toLiteral]
      exact Binary.shortest_roundsTo hpos hs
    · rwa [Decimal.negative_toLiteral]

end DiscreteOrdinates
