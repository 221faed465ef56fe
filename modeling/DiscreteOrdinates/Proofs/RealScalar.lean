import Mathlib
import DiscreteOrdinates.Scalar

/-!
# Real scalars

The reals as scalars: exact arithmetic, in which every number is finite and the
angle of a point is the argument of a complex number. The lemmas bring the
derived operations into the form that Mathlib has for them.
-/

namespace DiscreteOrdinates

noncomputable instance : Scalar ℝ where
  abs x := |x|
  sqrt := Real.sqrt
  cos := Real.cos
  sin := Real.sin
  atan2 y z := Complex.arg ⟨z, y⟩
  pi := Real.pi
  isFinite _ := true
  order x y := compare x y

instance lawfulBEq_real : @LawfulBEq ℝ Scalar.toBEq := inferInstanceAs (LawfulBEq ℝ)

namespace Scalar

/-! ## Primitive operations -/

@[simp] theorem abs_real (x : ℝ) : Scalar.abs x = |x| := rfl
@[simp] theorem sqrt_real (x : ℝ) : Scalar.sqrt x = √x := rfl
@[simp] theorem cos_real (x : ℝ) : Scalar.cos x = Real.cos x := rfl
@[simp] theorem sin_real (x : ℝ) : Scalar.sin x = Real.sin x := rfl
@[simp] theorem pi_real : (Scalar.pi : ℝ) = Real.pi := rfl
@[simp] theorem isFinite_real (x : ℝ) : Scalar.isFinite x = true := rfl
@[simp] theorem order_real (x y : ℝ) : Scalar.order x y = compare x y := rfl
@[simp] theorem natCast_real (n : ℕ) : @Nat.cast ℝ Scalar.toNatCast n = (n : ℝ) := rfl

theorem isLE_order_real {x y : ℝ} : (Scalar.order x y).isLE = true ↔ x ≤ y := by
  rw [order_real]
  exact Std.LawfulBCmp.isLE_iff_le

instance : Std.TransCmp (Scalar.order : ℝ → ℝ → Ordering) :=
  inferInstanceAs (Std.TransCmp (compare : ℝ → ℝ → Ordering))

instance : Std.LawfulEqCmp (Scalar.order : ℝ → ℝ → Ordering) :=
  inferInstanceAs (Std.LawfulEqCmp (compare : ℝ → ℝ → Ordering))

theorem zero_real : (0.0 : ℝ) = 0 := by norm_num

theorem one_real : (1.0 : ℝ) = 1 := by norm_num

theorem two_real : (2.0 : ℝ) = 2 := by norm_num

/-! ## Derived operations -/

@[simp] theorem positivePart_real (x : ℝ) : Scalar.positivePart x = max x 0 := by
  unfold Scalar.positivePart
  rw [zero_real]
  split
  next h => exact (max_eq_left h.le).symm
  next h => exact (max_eq_right (not_lt.mp h)).symm

@[simp] theorem larger_real : (Scalar.larger : ℝ → ℝ → ℝ) = max := by
  funext x y
  unfold Scalar.larger
  split
  next h => exact (max_eq_right h.le).symm
  next h => exact (max_eq_left (not_lt.mp h)).symm

@[simp] theorem smaller_real : (Scalar.smaller : ℝ → ℝ → ℝ) = min := by
  funext x y
  unfold Scalar.smaller
  split
  next h => exact (min_eq_right h.le).symm
  next h => exact (min_eq_left (not_lt.mp h)).symm

@[simp] theorem sum_real (xs : List ℝ) : Scalar.sum xs = xs.sum := by
  unfold Scalar.sum
  rw [zero_real, neg_zero, List.sum_eq_foldl]

@[simp] theorem nth_real (xs : List ℝ) (m : ℕ) : Scalar.nth xs m = xs.getD m 0 := by
  unfold Scalar.nth
  rw [zero_real, List.getD_eq_getElem?_getD]

end Scalar

end DiscreteOrdinates
