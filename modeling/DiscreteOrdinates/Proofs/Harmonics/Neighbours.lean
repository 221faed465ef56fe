import DiscreteOrdinates.Proofs.Harmonics.Rodrigues
import DiscreteOrdinates.Proofs.UnitLaws

/-!
# Neighbouring degrees

The values of two neighbouring Legendre polynomials have a loop of their own. It starts one
degree before the upward recurrence of the associated functions, and takes the same steps
from there on, for floats bit by bit (`neighbours_eq_polynomial`). Over the reals the slope
that is taken from both values is the derivative.
-/

namespace DiscreteOrdinates

namespace Legendre

section

variable {R : Type} [Scalar R]

theorem polynomial_succ (n : ℕ) (z : R) : polynomial (n + 1) z = (climb 0 z n).1 :=
  rfl

theorem polynomial_eq_climb (n : ℕ) (z : R) : polynomial n z = (climb 0 z n).2 := by
  cases n with
  | zero => rfl
  | succ n => rw [polynomial_succ, climb, climb, Nat.fold_succ]

/-- Both loops take the same steps once they agree, which they do from the first degree
on. -/
theorem neighbours_succ_eq_climb [UnitLaws R] (n : ℕ) (z : R) :
    neighbours (n + 1) z = climb 0 z n := by
  induction n with
  | zero =>
    have hfirst : neighbours 1 z =
        (((1 : ℕ) * z * 1.0 - (0 : ℕ) * 0.0) / (1 : ℕ), (1.0 : R)) := rfl
    have hstart : climb 0 z 0 = (z * (1 : ℕ) * 1.0, (1.0 : R)) := rfl
    rw [hfirst, hstart, UnitLaws.zero_mul_zero, UnitLaws.sub_zero, UnitLaws.mul_comm _ z,
      UnitLaws.natCast_one, UnitLaws.div_one]
  | succ n ih =>
    have hfactor : 2 * (0 + n) + 3 = 2 * (n + 1) + 1 := by ring
    have htrail : 2 * 0 + n + 1 = n + 1 := by ring
    have hstep : climb 0 z (n + 1) =
        ((z * (2 * (0 + n) + 3 : ℕ) * (climb 0 z n).1 - (2 * 0 + n + 1 : ℕ) * (climb 0 z n).2) /
          (n + 2 : ℕ), (climb 0 z n).1) := by
      rw [climb, Nat.fold_succ]
      rfl
    rw [neighbours, Nat.fold_succ, ← neighbours, ih, hstep, hfactor, htrail, UnitLaws.mul_comm z]

theorem neighbours_eq_polynomial [UnitLaws R] (n : ℕ) (z : R) :
    neighbours (n + 1) z = (polynomial (n + 1) z, polynomial n z) := by
  rw [neighbours_succ_eq_climb, polynomial_succ, polynomial_eq_climb n]

end

/-! ## Values over the reals -/

open Polynomial

theorem polynomial_eq_eval (n : ℕ) (z : ℝ) : polynomial n z = (rodrigues n).eval z := by
  rw [polynomial, associated_eq_eval, formal_eq_rodrigues]

theorem neighbours_succ (n : ℕ) (z : ℝ) :
    neighbours (n + 1) z = ((rodrigues (n + 1)).eval z, (rodrigues n).eval z) := by
  rw [neighbours_eq_polynomial, polynomial_eq_eval, polynomial_eq_eval]

/-- The values of neighbouring degrees tell the derivative of the upper one. -/
theorem slope_eq_derivative (n : ℕ) {z : ℝ} (hz : z ^ 2 ≠ 1) :
    slope (n + 1) z ((rodrigues (n + 1)).eval z) ((rodrigues n).eval z) =
      (derivative (rodrigues (n + 1))).eval z := by
  have hne : z ^ 2 - 1 ≠ 0 := sub_ne_zero.mpr hz
  have hslope := congrArg (eval z) (mul_derivative_rodrigues_succ n)
  simp only [eval_mul, eval_sub, eval_add, eval_pow, eval_natCast, eval_one, eval_X] at hslope
  rw [slope, Scalar.natCast_real, Scalar.one_real, ← sq, div_eq_iff hne]
  push_cast
  linear_combination -hslope

end Legendre

end DiscreteOrdinates
