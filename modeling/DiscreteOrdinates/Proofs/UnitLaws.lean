import DiscreteOrdinates.Proofs.ExactNegation

/-!
# Zero and one

Where two computations of the same polynomial start apart, they meet again only if zero and
one are neutral to the bit. They are, for reals and for floats: nothing is rounded when zero
is subtracted from a float or when it is divided by one, since it fits where it is stored
already.
-/

namespace DiscreteOrdinates

/-- Scalars whose products commute, and that stay as they are when zero is subtracted from
them and when they are divided by one. Nothing else is assumed about rounding. -/
class UnitLaws (R : Type) [Scalar R] : Prop where
  natCast_one : ((1 : ℕ) : R) = 1.0
  zero_mul_zero : ((0 : ℕ) : R) * 0.0 = 0.0
  mul_comm (x y : R) : x * y = y * x
  sub_zero (x : R) : x - 0.0 = x
  div_one (x : R) : x / 1.0 = x

instance : UnitLaws ℝ where
  natCast_one := by rw [Scalar.natCast_real, Nat.cast_one, Scalar.one_real]
  zero_mul_zero := by rw [Scalar.zero_real, mul_zero]
  mul_comm := mul_comm
  sub_zero x := by rw [Scalar.zero_real, sub_zero]
  div_one x := by rw [Scalar.one_real, div_one]

namespace Scalar

open Float.Model (UnpackedFloat Format totalExponent)
open Float.Model.UnpackedFloat

/-! ## Unpacked floats -/

theorem sign_mul_comm (s t : Sign) : s * t = t * s := by
  cases s <;> cases t <;> rfl

theorem mul_comm_unpacked (spec : Format) (a b : UnpackedFloat) : mul spec a b = mul spec b a := by
  cases a <;> cases b <;> simp only [mul, sign_mul_comm, Nat.mul_comm, Int.add_comm]

theorem sub_zero_unpacked (spec : Format) (a : UnpackedFloat) :
    sub spec a (.zero .positive) = a := by
  cases a with
  | zero s => cases s <;> rfl
  | _ => rfl

/-! ## Rounding of what fits -/

theorem log2_mul_two_pow {m : ℕ} (hm : m ≠ 0) (k : ℕ) : (m * 2 ^ k).log2 = m.log2 + k := by
  rw [Nat.log2_eq_iff (by positivity)]
  constructor
  · rw [pow_add]
    exact Nat.mul_le_mul_right _ (Nat.log2_self_le hm)
  · rw [Nat.add_right_comm, pow_add]
    exact Nat.mul_lt_mul_of_pos_right Nat.lt_log2_self (by positivity)

/-- Nothing is lost when bits that are zero are shifted out. -/
theorem shiftRight_mul_two_pow (m k : ℕ) :
    (⟨m * 2 ^ k, false, false⟩ : ExtendedMantissa) >>> k = ⟨m, false, false⟩ := by
  induction k generalizing m with
  | zero => rw [pow_zero, mul_one]; rfl
  | succ k ih =>
    have hdouble : m * 2 ^ (k + 1) = m * 2 * 2 ^ k := by ring
    have hshift := congrArg ExtendedMantissa.shiftRightOne (ih (m * 2))
    rw [hdouble]
    refine Eq.trans hshift ?_
    simp [ExtendedMantissa.shiftRightOne]

theorem shiftToTargetExponent_of_fits {spec : Format} {m : ℕ} {e : ℤ} (hm : m ≠ 0)
    (hfits : spec.targetExponent (totalExponent m e) = e) (k : ℕ) :
    shiftToTargetExponent spec (m * 2 ^ k) (e - k) .exact = (⟨m, false, false⟩, e) := by
  have htotal : totalExponent (m * 2 ^ k) (e - k) = totalExponent m e := by
    rw [totalExponent, totalExponent, log2_mul_two_pow hm]
    push_cast
    ring
  have hamount : (e - (e - k)).toNat = k := by omega
  rw [shiftToTargetExponent, htotal, hfits, shiftToExponent, hamount, sub_add_cancel,
    ExtendedMantissa.ofMantissaAndAccuracy, shiftRight_mul_two_pow]

/-- A number that fits is not rounded, with however many zeros behind it. -/
theorem roundWithAccuracy_of_fits {spec : Format} {m : ℕ} {e : ℤ} (hm : 0 < m)
    (hfits : spec.targetExponent (totalExponent m e) = e) (s : Sign) (k : ℕ) :
    roundWithAccuracy spec s (m * 2 ^ k) (e - k) .exact = .finite s m e hm := by
  have hagain := shiftToTargetExponent_of_fits hm.ne' hfits 0
  rw [pow_zero, mul_one, Int.natCast_zero, Int.sub_zero] at hagain
  rw [roundWithAccuracy, shiftToTargetExponent_of_fits hm.ne' hfits k]
  dsimp only
  rw [ExtendedMantissa.roundedMantissa, ExtendedMantissa.accuracy, Accuracy.roundToNearestEven,
    hagain]
  exact dif_neg hm.ne'

/-! ## Division by one -/

/-- A stored number has the exponent that it would be rounded to. -/
theorem targetExponent_of_unpack {b : BitVec Format.binary64.numBits} {s : Sign} {m : ℕ} {e : ℤ}
    {hm : 0 < m} (h : unpack .binary64 b = .finite s m e hm) :
    Format.binary64.targetExponent (totalExponent m e) = e := by
  have hbits : Format.binary64.mantissaBits = 53 := rfl
  have hbias : (Format.binary64.exponentBias : ℤ) = 1023 := rfl
  have hleast : Format.binary64.minExponent = -1074 := rfl
  have hmantissa : (unpackMantissa b).toNat < 2 ^ 52 := (unpackMantissa b).isLt
  rw [Format.targetExponent, totalExponent, hbits, hleast]
  simp only [unpack, hbias] at h
  split at h
  · split at h <;> cases h
  next hfinite =>
    split at h
    next hzero =>
      split at h
      next => cases h
      next =>
        -- A number below the normal ones has the least exponent.
        obtain ⟨-, rfl, rfl⟩ := UnpackedFloat.finite.inj h
        have hlog := (Nat.log2_lt hm.ne').mpr hmantissa
        rw [hzero, BitVec.toNat_zero]
        push_cast
        omega
    next hnormal =>
      obtain ⟨-, rfl, rfl⟩ := UnpackedFloat.finite.inj h
      have hexponent : (unpackExponent b).toNat ≠ 0 := fun hzero =>
        hnormal (BitVec.eq_of_toNat_eq (hzero.trans BitVec.toNat_zero.symm))
      have hlead : (1#1 ++ unpackMantissa b).toNat = 2 ^ 52 + (unpackMantissa b).toNat := by
        rw [BitVec.toNat_append, ← Nat.shiftLeft_add_eq_or_of_lt hmantissa]
        rfl
      have hlog : (1#1 ++ unpackMantissa b).toNat.log2 = 52 := by
        rw [Nat.log2_eq_iff hm.ne', hlead]
        omega
      rw [hlog]
      push_cast
      omega

/-- The quotient by one is exact, with zeros behind it. -/
theorem exists_divCore_one {m : ℕ} {e : ℤ}
    (hfits : Format.binary64.targetExponent (totalExponent m e) = e) :
    ∃ k : ℕ, divCore .binary64 m e (2 ^ 52) (-52) = (m * 2 ^ k, e - k, .exact) := by
  have hone : totalExponent (2 ^ 52) (-52) = 1 := rfl
  obtain ⟨k, hk⟩ : ∃ k : ℕ,
      Format.binary64.targetExponent (totalExponent m e - 1) = e - k := by
    refine ⟨(e - Format.binary64.targetExponent (totalExponent m e - 1)).toNat, ?_⟩
    rw [Format.targetExponent] at hfits ⊢
    omega
  have hmin : min (e - -52) (e - k : ℤ) = e - k := by omega
  have hamount : (e - -52 - (e - k)).toNat = k + 52 := by omega
  have hshift : m <<< (k + 52) = m * 2 ^ k * 2 ^ 52 := by
    rw [Nat.shiftLeft_eq, pow_add, mul_assoc]
  refine ⟨k, ?_⟩
  rw [divCore, hone, hk, hmin, hamount, hshift, Nat.mul_mod_left, Nat.mul_div_cancel _ (by decide)]
  rfl

theorem div_one_unpacked {m : ℕ} {e : ℤ} (hm : 0 < m)
    (hfits : Format.binary64.targetExponent (totalExponent m e) = e) (s : Sign) :
    div .binary64 (.finite s m e hm) (.finite .positive (2 ^ 52) (-52) (by decide)) =
      .finite s m e hm := by
  obtain ⟨k, hk⟩ := exists_divCore_one hfits
  have hsign : s / .positive = s := by cases s <;> rfl
  rw [div, hk, hsign]
  exact roundWithAccuracy_of_fits hm hfits s k

theorem div_one_unpack (b : BitVec Format.binary64.numBits) :
    div .binary64 (unpack .binary64 b) (.finite .positive (2 ^ 52) (-52) (by decide)) =
      unpack .binary64 b := by
  cases h : unpack .binary64 b with
  | notANumber => rfl
  | infinity s => cases s <;> rfl
  | zero s => cases s <;> rfl
  | finite s m e hm => exact div_one_unpacked hm (targetExponent_of_unpack h) s

end Scalar

open Scalar Float.Model Float.Model.UnpackedFloat in
instance : UnitLaws Float where
  natCast_one := by decide +kernel
  zero_mul_zero := by decide +kernel
  mul_comm x y := by
    calc x * y
        = .ofModel (.pack (.mul .binary64 x.toModel.unpack y.toModel.unpack)) := rfl
      _ = .ofModel (.pack (.mul .binary64 y.toModel.unpack x.toModel.unpack)) := by
          rw [mul_comm_unpacked]
      _ = y * x := rfl
  sub_zero x := by
    calc x - 0.0
        = .ofModel (.pack (.sub .binary64 x.toModel.unpack (.zero .positive))) := rfl
      _ = .ofModel (.pack x.toModel.unpack) := by rw [sub_zero_unpacked]
      _ = x := pack_unpack_float x
  div_one x := by
    have hone : (1.0 : Float).toModel.unpack = .finite .positive (2 ^ 52) (-52) (by decide) := rfl
    calc x / 1.0
        = .ofModel (.pack (.div .binary64 x.toModel.unpack (1.0 : Float).toModel.unpack)) := rfl
      _ = .ofModel (.pack x.toModel.unpack) := by
          rw [hone, Float.Model.unpack, div_one_unpack]
      _ = x := pack_unpack_float x

end DiscreteOrdinates
