import DiscreteOrdinates.Proofs.FloatScalar
import DiscreteOrdinates.Proofs.Sorting

/-!
# Sweep order of stored cosines

Ordinates are compared by the bits of their cosines. A stored float may be undefined with
either sign and any payload, while floats as such have one undefined value. So the order
is looked at for all scalars that are stored in 64 bits: floats are among them, and so are
the bare patterns, of which none is left out. Main statement: `sweepOrder_canonical`.
-/

namespace DiscreteOrdinates

/-! ## Stored scalars -/

/-- Scalars that are told apart by the 64 bits they are stored in, and ordered by them. -/
class StoredInBits (R : Type) [Scalar R] where
  pattern : R → UInt64
  pattern_injective : Function.Injective pattern
  order_eq (x y : R) :
    Scalar.order x y = compare (Scalar.patternKey (pattern x)) (Scalar.patternKey (pattern y))

open StoredInBits (pattern)

instance : StoredInBits Float where
  pattern := Float.toBits
  pattern_injective _ _ := Float.toBits_inj.mp
  order_eq _ _ := rfl

/-- Any 64 bits, read as a float. Undefined values keep their sign and payload until they
are computed with. -/
structure StoredFloat where
  bits : UInt64

namespace StoredFloat

def value (x : StoredFloat) : Float :=
  .ofBits x.bits

def ofValue (x : Float) : StoredFloat :=
  ⟨x.toBits⟩

instance : Scalar StoredFloat where
  add x y := ofValue (x.value + y.value)
  sub x y := ofValue (x.value - y.value)
  mul x y := ofValue (x.value * y.value)
  div x y := ofValue (x.value / y.value)
  neg x := ofValue (-x.value)
  natCast n := ofValue (Float.ofNat n)
  ofScientific m s e := ofValue (.ofScientific m s e)
  lt x y := x.value < y.value
  le x y := x.value ≤ y.value
  beq x y := x.value == y.value
  decidableLT x y := inferInstanceAs (Decidable (x.value < y.value))
  decidableLE x y := inferInstanceAs (Decidable (x.value ≤ y.value))
  abs x := ofValue x.value.abs
  sqrt x := ofValue x.value.sqrt
  cos x := ofValue x.value.cos
  sin x := ofValue x.value.sin
  atan2 y z := ofValue (y.value.atan2 z.value)
  pi := ofValue Scalar.pi
  isFinite x := x.value.isFinite
  order x y := compare (Scalar.patternKey x.bits) (Scalar.patternKey y.bits)

instance : StoredInBits StoredFloat where
  pattern := bits
  pattern_injective _ _ := congrArg mk
  order_eq _ _ := rfl

end StoredFloat

section

variable {R : Type} [Scalar R] [StoredInBits R]

instance : Std.TransCmp (Scalar.order : R → R → Ordering) := by
  have heq : (Scalar.order : R → R → Ordering) =
      fun x y => compare (Scalar.patternKey (pattern x)) (Scalar.patternKey (pattern y)) :=
    funext fun x => funext (StoredInBits.order_eq x)
  rw [heq]
  exact transCmp_comap fun x : R => Scalar.patternKey (pattern x)

theorem order_eq_iff {x y : R} : Scalar.order x y = .eq ↔ pattern x = pattern y := by
  rw [StoredInBits.order_eq, compare_eq_iff_eq, Scalar.patternKey_injective.eq_iff]

end

/-! ## Orders -/

theorem isStrictWeakOrder_of_transCmp {α : Type} {cmp : α → α → Ordering} [Std.TransCmp cmp] :
    IsStrictWeakOrder α fun a b => cmp a b = .lt where
  irrefl a := by
    have hself : cmp a a = .eq := Std.ReflCmp.compare_self
    simp [hself]
  trans _ _ _ := Std.TransCmp.lt_trans
  incomp_trans a b c hab hbc := by
    -- What is less neither way compares equal.
    have heq {a b : α} : ¬ cmp a b = .lt ∧ ¬ cmp b a = .lt ↔ cmp a b = .eq := by
      have hswap : cmp b a = (cmp a b).swap := Std.OrientedCmp.eq_swap
      rw [hswap]
      cases cmp a b <;> simp
    rw [heq] at hab hbc ⊢
    exact Std.TransCmp.eq_trans hab hbc

namespace Ordinate

variable {R : Type} [Scalar R] [StoredInBits R]

/-- The sweep order is a strict weak order of ordinates with any bits in their cosines.
Ordinates compare equal if both cosines agree bit for bit. A list has one arrangement that
ascends and keeps what compares equal in the order it was in, and this is how it is
sorted. -/
theorem sweepOrder_canonical :
    (∀ a b : Ordinate R, sweepOrder b a = (sweepOrder a b).swap) ∧
    (∀ (o : Ordering) (a b c : Ordinate R),
      sweepOrder a b = o → sweepOrder b c = o → sweepOrder a c = o) ∧
    IsStrictWeakOrder (Ordinate R) (fun a b => sweepOrder a b = .lt) ∧
    (∀ a b : Ordinate R,
      sweepOrder a b = .eq ↔ pattern a.z = pattern b.z ∧ pattern a.x = pattern b.x) ∧
    ∀ os ss : List (Ordinate R), IsStableSort sweepOrder os ss ↔ ss = sorted os := by
  refine ⟨fun a b => Std.OrientedCmp.eq_swap, fun o a b c hab hbc => ?_,
    isStrictWeakOrder_of_transCmp, fun a b => ?_, fun os ss => ⟨fun h => ?_, ?_⟩⟩
  · cases o with
    | lt => exact Std.TransCmp.lt_trans hab hbc
    | eq => exact Std.TransCmp.eq_trans hab hbc
    | gt => exact Std.TransCmp.gt_trans hab hbc
  · rw [sweepOrder, Ordering.then_eq_eq, order_eq_iff, order_eq_iff]
  · exact h.unique (isStableSort_sorted os)
  · rintro rfl
    exact isStableSort_sorted os

/-- Undefined levels lie beyond the infinities of their sign, and differ by their payloads. -/
example :
    ([0xfff8000000000001, 0xfff8000000000000, 0xfff0000000000000, 0x8000000000000000, 0,
      0x7ff0000000000000, 0x7ff8000000000000] : List UInt64).Pairwise fun p q =>
        sweepOrder (⟨⟨0⟩, ⟨0⟩, ⟨p⟩, ⟨0⟩⟩ : Ordinate StoredFloat) ⟨⟨0⟩, ⟨0⟩, ⟨q⟩, ⟨0⟩⟩ = .lt := by
  decide

end Ordinate

end DiscreteOrdinates
