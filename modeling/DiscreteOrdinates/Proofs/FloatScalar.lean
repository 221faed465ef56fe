import Mathlib
import DiscreteOrdinates.Scalar

/-!
# Floating-point scalars

What holds of floats as scalars for all their bit patterns. Their total order tells any
two of them apart, signed zeros included, and two floats that are not undefined are
compared by `<` and `≤` as the reals are. The difference of finite floats may overflow,
but is never undefined.
-/

namespace DiscreteOrdinates

namespace Scalar

open Float.Model (UnpackedFloat Format)
open Float.Model.UnpackedFloat

/-! ## Total order -/

theorem patternKey_injective : Function.Injective patternKey := by
  intro p q h
  have hhalf : UInt64.size / 2 = 9223372036854775808 := rfl
  unfold patternKey at h
  simp only [hhalf] at h
  apply UInt64.toNat_inj.mp
  split at h <;> split at h <;> omega

theorem orderKey_injective {x y : Float} (h : orderKey x = orderKey y) : x = y :=
  Float.toBits_inj.mp (patternKey_injective h)

instance : Std.OrientedCmp (Scalar.order : Float → Float → Ordering) where
  eq_swap := Std.OrientedOrd.eq_swap

instance : Std.TransCmp (Scalar.order : Float → Float → Ordering) where
  isLE_trans := Std.TransOrd.isLE_trans (α := ℤ)

instance : Std.LawfulEqCmp (Scalar.order : Float → Float → Ordering) where
  compare_self := compare_eq_iff_eq.mpr rfl
  eq_of_compare h := orderKey_injective (compare_eq_iff_eq.mp h)

/-! ## Undefined values -/

theorem isNaN_normalize (spec : Format) (m e : ℤ) (zeroSign : Sign) :
    (UnpackedFloat.normalize spec m e zeroSign).isNaN = false := by
  unfold UnpackedFloat.normalize UnpackedFloat.round roundWithAccuracy
  split
  · dsimp only
    split <;> rfl
  · rfl
  · dsimp only
    split <;> rfl

theorem isNaN_sub {spec : Format} {a b : UnpackedFloat} (ha : a.isFinite = true)
    (hb : b.isFinite = true) : (sub spec a b).isNaN = false := by
  cases a with
  | infinity s => cases ha
  | notANumber => cases ha
  | zero s =>
    cases b with
    | infinity t => cases hb
    | notANumber => cases hb
    | zero t =>
      simp only [sub]
      split <;> rfl
    | finite t n f hn => rfl
  | finite s m e hm =>
    cases b with
    | infinity t => cases hb
    | notANumber => cases hb
    | zero t => rfl
    | finite t n f hn => exact isNaN_normalize _ _ _ _

theorem isNaN_abs (a : UnpackedFloat) : a.abs.isNaN = a.isNaN := by
  cases a <;> rfl

theorem isNaN_unpack {spec : Format} (b : BitVec spec.numBits) :
    (unpack spec b).isNaN = true ↔ unpackExponent b = -1#_ ∧ unpackMantissa b ≠ 0#_ := by
  unfold unpack
  dsimp only
  by_cases he : unpackExponent b = -1#_
  · by_cases hm : unpackMantissa b = 0#_
    · simp [he, hm, isNaN]
    · simp [he, hm, isNaN]
  · rw [if_neg he]
    split
    · split <;> simp [isNaN, he]
    · simp [isNaN, he]

/-- What is not undefined is not stored as undefined, also where it overflows. -/
theorem isNaN_unpack_pack {spec : Format} {a : UnpackedFloat} (h : a.isNaN = false) :
    (unpack spec (pack spec a)).isNaN = false := by
  rw [← Bool.not_eq_true, isNaN_unpack, not_and_not_right]
  intro hexponent
  fun_cases pack spec a with
  | case1 => cases h
  | case2 s => simp [packedInfinity]
  | case3 s => simp [packedZero]
  | case4 s m e hm biased hoverflow => simp [packedInfinity]
  | case5 s m e hm bits biased hfits hnormal =>
    -- The exponent of a normal number is not the one that marks infinities.
    rw [pack, if_neg hfits, if_pos hnormal, unpackExponent_packComponents,
      BitVec.neg_one_eq_allOnes, ← BitVec.toNat_inj, BitVec.toNat_ofNat, BitVec.toNat_allOnes,
      Nat.mod_eq_of_lt (by omega)] at hexponent
    omega
  | case6 s m e hm bits biased hfits hsubnormal =>
    rw [pack, if_neg hfits, if_neg hsubnormal, unpackExponent_packComponents,
      BitVec.neg_one_eq_allOnes, ← BitVec.toNat_inj, BitVec.toNat_ofNat, BitVec.toNat_allOnes,
      Nat.zero_mod] at hexponent
    have hpow := Nat.one_lt_two_pow spec.he.ne'
    omega

theorem isNaN_sub_of_isFinite {x y : Float} (hx : x.isFinite = true) (hy : y.isFinite = true) :
    (x - y).isNaN = false :=
  isNaN_unpack_pack (isNaN_sub hx hy)

theorem isNaN_abs_of_isNaN {x : Float} (h : x.isNaN = false) : x.abs.isNaN = false :=
  isNaN_unpack_pack ((isNaN_abs _).trans h)

/-! ## Comparisons -/

theorem compare_swap (a b : UnpackedFloat) :
    b.compare a = (a.compare b).map Ordering.swap := by
  have hmagnitude : ∀ (e f : ℤ) (m n : ℕ), (compare f e).then (compare n m) =
      ((compare e f).then (compare m n)).swap := by
    intro e f m n
    rw [Ordering.swap_then, ← Std.OrientedCmp.eq_swap, ← Std.OrientedCmp.eq_swap]
  fun_cases UnpackedFloat.compare a b
  case case1 => cases b <;> rfl
  case case3 s t => cases s <;> cases t <;> rfl
  all_goals simp [UnpackedFloat.compare, ← hmagnitude]

theorem compare_ne_none {a b : UnpackedFloat} (ha : a.isNaN = false) (hb : b.isNaN = false) :
    a.compare b ≠ none := by
  fun_cases UnpackedFloat.compare a b <;> simp [isNaN] at *

theorem lt_eq_not_le {a b : UnpackedFloat} (ha : a.isNaN = false) (hb : b.isNaN = false) :
    a.lt b = !b.le a := by
  rw [UnpackedFloat.lt, UnpackedFloat.le, compare_swap a b]
  cases h : a.compare b with
  | none => exact absurd h (compare_ne_none ha hb)
  | some o => cases o <;> rfl

theorem float_lt_iff_not_le {x y : Float} (hx : x.isNaN = false) (hy : y.isNaN = false) :
    x < y ↔ ¬ y ≤ x := by
  have hlt : x < y ↔ x.toModel.unpack.lt y.toModel.unpack = true := decide_eq_true_iff
  have hle : y ≤ x ↔ y.toModel.unpack.le x.toModel.unpack = true := decide_eq_true_iff
  rw [hlt, hle, lt_eq_not_le hx hy, Bool.not_eq_true', Bool.not_eq_true]

theorem float_not_lt_iff_le {x y : Float} (hx : x.isNaN = false) (hy : y.isNaN = false) :
    ¬ x < y ↔ y ≤ x := by
  rw [float_lt_iff_not_le hx hy, not_not]

theorem isNaN_of_isFinite {x : Float} (h : x.isFinite = true) : x.isNaN = false := by
  have hunpacked : x.toModel.unpack.isFinite = true := h
  show x.toModel.unpack.isNaN = false
  cases hx : x.toModel.unpack with
  | notANumber =>
    rw [hx] at hunpacked
    cases hunpacked
  | _ => rfl

theorem sub_self_unpacked {spec : Format} {a : UnpackedFloat} (h : a.isFinite = true) :
    sub spec a a = .zero .positive := by
  cases a with
  | infinity s => cases h
  | notANumber => cases h
  | zero s => cases s <;> rfl
  | finite s m e hm =>
    simp only [sub, Int.sub_self, UnpackedFloat.normalize]
    rfl

/-- A finite float differs from itself by a positive zero. -/
theorem sub_self_float {x : Float} (h : x.isFinite = true) : x - x = 0.0 := by
  calc
    x - x = .ofModel (.pack (sub Format.binary64 x.toModel.unpack x.toModel.unpack)) := rfl
    _ = .ofModel (.pack (.zero .positive)) := by rw [sub_self_unpacked h]
    _ = 0.0 := rfl

end Scalar

end DiscreteOrdinates
