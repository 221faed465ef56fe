import DiscreteOrdinates.Proofs.FloatScalar
import DiscreteOrdinates.Proofs.RealScalar

/-!
# Exact negation

All that the symmetry of a quadrature set needs from the arithmetic is that a sign can be
changed back, and that it does not show in a square. Both hold over the reals, and bit for
bit over floats: a float is stored with its sign apart from the rest, so no negation is
rounded.
-/

namespace DiscreteOrdinates

/-- Scalars whose negation is exact. Nothing else is assumed about rounding. -/
class ExactNegation (R : Type) [Scalar R] : Prop where
  neg_neg : ∀ x : R, -(-x) = x
  neg_mul_neg : ∀ x : R, -x * -x = x * x

instance : ExactNegation ℝ where
  neg_neg := neg_neg
  neg_mul_neg x := neg_mul_neg x x

namespace Scalar

open Float.Model (UnpackedFloat Format)
open Float.Model.UnpackedFloat

/-! ## Unpacked floats -/

theorem neg_neg_unpacked (a : UnpackedFloat) : a.neg.neg = a := by
  cases a with
  | notANumber => rfl
  | infinity s => cases s <;> rfl
  | zero s => cases s <;> rfl
  | finite s m e hm => cases s <;> rfl

theorem sign_neg_mul_neg (s : Sign) : -s * -s = s * s := by
  cases s <;> rfl

theorem mul_neg_neg_unpacked (spec : Format) (a : UnpackedFloat) :
    mul spec a.neg a.neg = mul spec a a := by
  cases a with
  | notANumber => rfl
  | infinity s => exact congrArg UnpackedFloat.infinity (sign_neg_mul_neg s)
  | zero s => exact congrArg UnpackedFloat.zero (sign_neg_mul_neg s)
  | finite s m e hm =>
    exact congrArg (roundWithAccuracy spec · (m * m) (e + e) .exact) (sign_neg_mul_neg s)

/-! ## Storage -/

/-- What is stored comes back, where it has been stored before. -/
theorem unpack_pack_unpack {spec : Format} (b : BitVec spec.numBits)
    (hspec : 2 ≤ spec.exponentBits) :
    unpack spec (pack spec (unpack spec b)) = unpack spec b := by
  rw [pack_unpack b hspec]
  split
  next hnan =>
    rw [unpack_packedNaN, eq_comm, ← isNaN_iff, isNaN_unpack]
    exact of_decide_eq_true hnan
  next => rfl

/-- The negative of what is stored is stored with the other sign bit. -/
theorem neg_unpack {spec : Format} (b : BitVec spec.numBits) :
    (unpack spec b).neg =
      unpack spec (packComponents spec (-Sign.ofBitVec (unpackSign b)) (unpackExponent b)
        (unpackMantissa b)) := by
  unfold unpack
  simp only [unpackSign_packComponents, unpackExponent_packComponents,
    unpackMantissa_packComponents, Sign.ofBitVec_toBitVec]
  split
  · split <;> rfl
  · split
    · split <;> rfl
    · rfl

theorem unpack_neg (x : Float) : (-x).toModel.unpack = x.toModel.unpack.neg := by
  have hspec : 2 ≤ Format.binary64.exponentBits := by decide
  -- The negative is that of some stored bits, and those come back unchanged.
  have hbits := @neg_unpack Format.binary64 x.toModel.toBits.toBitVec
  exact (congrArg (fun a => unpack _ (pack _ a)) hbits).trans
    ((unpack_pack_unpack _ hspec).trans hbits.symm)

theorem pack_unpack_float (x : Float) : Float.ofModel (.pack x.toModel.unpack) = x :=
  Float.toBits_inj.mp (UInt64.toBitVec_inj.mp (pack_unpack_of_valid x.toModel.valid))

end Scalar

open Scalar in
instance : ExactNegation Float where
  neg_neg x := by
    calc -(-x)
        = .ofModel (.pack (-x).toModel.unpack.neg) := rfl
      _ = .ofModel (.pack x.toModel.unpack) := by rw [unpack_neg, neg_neg_unpacked]
      _ = x := pack_unpack_float x
  neg_mul_neg x := by
    calc -x * -x
        = .ofModel (.pack (.mul .binary64 (-x).toModel.unpack (-x).toModel.unpack)) := rfl
      _ = .ofModel (.pack (.mul .binary64 x.toModel.unpack x.toModel.unpack)) := by
          rw [unpack_neg, mul_neg_neg_unpacked]
      _ = x * x := rfl

end DiscreteOrdinates
