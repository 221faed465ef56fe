import DiscreteOrdinates.Proofs.Harmonics.Neighbours
import DiscreteOrdinates.Proofs.Harmonics.Orthogonality
import DiscreteOrdinates.Quadrature.IntervalRule

/-!
# Steps of the iteration

The iteration towards the roots corrects an estimate by the value of the Legendre polynomial
over its derivative. Both are taken from the values of neighbouring degrees. A step is zero
exactly at a root, where the iteration stands still. Main statement:
`newtonStep_eq_zero_iff`.
-/

namespace DiscreteOrdinates

namespace IntervalRule

open Legendre (neighbours slope polynomial rodrigues)
open Polynomial (derivative eval)

theorem newtonStep_eq (n : ℕ) {z : ℝ} (hz : z ^ 2 ≠ 1) :
    newtonStep (n + 1) z =
      (rodrigues (n + 1)).eval z / (derivative (rodrigues (n + 1))).eval z := by
  rw [newtonStep, Legendre.neighbours_succ]
  dsimp only
  rw [Legendre.slope_eq_derivative n hz]

/-- At a root the iteration stands still. -/
theorem newton_of_polynomial_eq_zero {n : ℕ} {z : ℝ} (hroot : polynomial (n + 1) z = 0)
    (steps : ℕ) : newton (n + 1) (steps + 1) z = some z := by
  have hstep : newtonStep (n + 1) z = 0 := by
    rw [newtonStep, Legendre.neighbours_eq_polynomial]
    dsimp only
    rw [hroot, zero_div]
  have htolerance : Scalar.abs (0 : ℝ) ≤ newtonTolerance := by
    rw [Scalar.abs_real, abs_zero, newtonTolerance]
    norm_num
  rw [newton, hstep, if_pos htolerance, sub_zero]

/-- The loop of the iteration computes the values of the upward recurrence, for floats bit
by bit. Over the reals its slope is the derivative of the Legendre polynomial, and where that
does not vanish, a step is zero exactly at a root. There the iteration stands still. -/
theorem newtonStep_eq_zero_iff (n : ℕ) :
    (∀ z : Float, neighbours (n + 1) z = (polynomial (n + 1) z, polynomial n z)) ∧
    (∀ z : ℝ, neighbours (n + 1) z = (polynomial (n + 1) z, polynomial n z)) ∧
    (∀ z : ℝ, polynomial (n + 1) z = (rodrigues (n + 1)).eval z) ∧
    (∀ z : ℝ, z ^ 2 ≠ 1 →
      slope (n + 1) z (polynomial (n + 1) z) (polynomial n z) =
          (derivative (rodrigues (n + 1))).eval z ∧
        ((derivative (rodrigues (n + 1))).eval z ≠ 0 →
          (newtonStep (n + 1) z = 0 ↔ polynomial (n + 1) z = 0))) ∧
    ∀ z : ℝ, polynomial (n + 1) z = 0 → ∀ steps, newton (n + 1) (steps + 1) z = some z := by
  refine ⟨Legendre.neighbours_eq_polynomial n, Legendre.neighbours_eq_polynomial n,
    Legendre.polynomial_eq_eval (n + 1), fun z hz => ⟨?_, fun hderivative => ?_⟩,
    fun _ => newton_of_polynomial_eq_zero⟩
  · rw [Legendre.polynomial_eq_eval, Legendre.polynomial_eq_eval, Legendre.slope_eq_derivative n hz]
  · rw [newtonStep_eq n hz, div_eq_zero_iff, or_iff_left hderivative, Legendre.polynomial_eq_eval]

/-- The central root of the polynomial of degree three. -/
theorem newtonStep_eq_zero_iff_three :
    (0 : ℝ) ^ 2 ≠ 1 ∧ (derivative (rodrigues 3)).eval (0 : ℝ) ≠ 0 ∧
      newtonStep 3 (0 : ℝ) = 0 ∧ newton 3 1 (0 : ℝ) = some 0 := by
  obtain ⟨-, -, hvalue, hsteps, hstill⟩ := newtonStep_eq_zero_iff 2
  have hzero : (0 : ℝ) ^ 2 ≠ 1 := by norm_num
  have hisRoot : (rodrigues 3).IsRoot 0 := Legendre.isRoot_zero_of_odd rfl
  have hroot : polynomial 3 (0 : ℝ) = 0 := (hvalue 0).trans hisRoot
  have hderivative := Legendre.derivative_ne_zero_of_isRoot hisRoot
  exact ⟨hzero, hderivative, ((hsteps 0 hzero).2 hderivative).mpr hroot, hstill 0 hroot 0⟩

end IntervalRule

end DiscreteOrdinates
