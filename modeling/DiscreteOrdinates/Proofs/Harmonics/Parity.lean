import DiscreteOrdinates.Proofs.Harmonics.LegendrePolynomials
import DiscreteOrdinates.Proofs.Harmonics.Tesseral
import DiscreteOrdinates.Proofs.Sweep.Mirror
import DiscreteOrdinates.Moments.Index

/-!
# Parity of the harmonics

A mirror across a coordinate plane multiplies a tesseral harmonic by a sign. Across
`x` the Legendre function changes, by a parity that every step of its recurrence
keeps. Across `y` and `z` the azimuth changes, to its negative and to what is left
of a half turn. Main statement: the signs, and the integrals which vanish because
of them (`tesseral_parity`).
-/

namespace DiscreteOrdinates

/-! ## Legendre functions -/

namespace Legendre

theorem sectoral_neg (m : ℕ) (x : ℝ) : sectoral m (-x) = sectoral m x := by
  simp only [sectoral, neg_mul_neg]

/-- The two degrees of a climb have opposite parities, and every step exchanges them. -/
theorem climb_neg (m : ℕ) (x : ℝ) (j : ℕ) :
    climb m (-x) j = ((-1) ^ (j + 1) * (climb m x j).1, (-1) ^ j * (climb m x j).2) := by
  induction j with
  | zero =>
    rw [climb_zero, climb_zero, sectoral_neg]
    refine Prod.ext ?_ ?_
    · ring
    · ring
  | succ j ih =>
    rw [climb_succ, climb_succ, ih]
    refine Prod.ext ?_ rfl
    dsimp only
    ring

theorem associated_neg {l m : ℕ} (h : m ≤ l) (x : ℝ) :
    associated l m (-x) = (-1) ^ (l + m) * associated l m x := by
  obtain ⟨j, rfl⟩ := Nat.exists_eq_add_of_le h
  have hparity : (-1 : ℝ) ^ (m + j + m) = (-1) ^ j := by
    rw [Nat.add_right_comm, pow_add, Even.neg_one_pow ⟨m, rfl⟩, one_mul]
  rw [associated_add, associated_add, climb_neg, hparity]

end Legendre

/-! ## Azimuth -/

/-- Whether the direction is far enough from the polar axis to have an azimuth. -/
def Ordinate.HasAzimuth (o : Ordinate ℝ) : Prop :=
  Harmonic.poleTolerance ≤ max |o.y| |o.z|

namespace Harmonic

open Complex (arg)

section

variable {y z : ℝ} (h : poleTolerance ≤ max |y| |z|)

include h

/-- Off the polar axis the azimuth is an argument, up to a full turn. -/
theorem coe_azimuth : ((azimuth y z : ℝ) : Real.Angle) = (arg ⟨z, y⟩ : ℝ) := by
  rw [azimuth_eq_ite h]
  split
  · rw [Real.Angle.coe_add, Real.Angle.coe_two_pi, add_zero]
  · rfl

theorem coe_azimuth_neg_left : ((azimuth (-y) z : ℝ) : Real.Angle) = (-azimuth y z : ℝ) := by
  have hneg : poleTolerance ≤ max |-y| |z| := by rwa [abs_neg]
  have hconj : (⟨z, -y⟩ : ℂ) = (starRingEnd ℂ) ⟨z, y⟩ := rfl
  rw [coe_azimuth hneg, hconj, Complex.arg_conj_coe_angle, Real.Angle.coe_neg, coe_azimuth h]

theorem coe_azimuth_neg_right :
    ((azimuth y (-z) : ℝ) : Real.Angle) = (Real.pi - azimuth y z : ℝ) := by
  have hneg : poleTolerance ≤ max |y| |-z| := by rwa [abs_neg]
  have hleft : poleTolerance ≤ max |-y| |z| := by rwa [abs_neg]
  have hne : (⟨z, -y⟩ : ℂ) ≠ 0 := by
    intro hzero
    have hz : z = 0 := congrArg Complex.re hzero
    have hy : y = 0 := neg_eq_zero.mp (congrArg Complex.im hzero)
    rw [hy, hz, abs_zero, max_self] at h
    exact absurd h (not_le.mpr poleTolerance_pos)
  -- Both cosines change sign, and then one of them changes back.
  have hopposite : (⟨-z, y⟩ : ℂ) = -⟨z, -y⟩ := by
    refine Complex.ext rfl ?_
    simp
  rw [coe_azimuth hneg, hopposite, Complex.arg_neg_coe_angle hne, ← coe_azimuth hleft,
    coe_azimuth_neg_left h, ← Real.Angle.coe_add, neg_add_eq_sub]

end

theorem azimuth_zero_left {z : ℝ} (hz : poleTolerance ≤ z) : azimuth 0 z = 0 := by
  have hpos : 0 ≤ z := poleTolerance_pos.le.trans hz
  have hangle : arg (⟨z, 0⟩ : ℂ) = 0 := Complex.arg_ofReal_of_nonneg hpos
  rw [azimuth_eq_ite (hz.trans (le_max_of_le_right (le_abs_self z))), hangle, if_neg (lt_irrefl 0)]

/-! ## Azimuthal factor -/

theorem azimuthalFactor_real (k : ℤ) (φ : ℝ) :
    azimuthalFactor k φ =
      if 0 ≤ k then Real.cos (k.natAbs * φ) else Real.sin (k.natAbs * φ) := rfl

/-- The factor does not tell full turns apart. -/
theorem azimuthalFactor_congr (k : ℤ) {φ ψ : ℝ} (h : (φ : Real.Angle) = ψ) :
    azimuthalFactor k φ = azimuthalFactor k ψ := by
  have hmul : ((k.natAbs * φ : ℝ) : Real.Angle) = (k.natAbs * ψ : ℝ) := by
    rw [Real.Angle.natCast_mul_eq_nsmul, Real.Angle.natCast_mul_eq_nsmul, h]
  rw [azimuthalFactor_real, azimuthalFactor_real, ← Real.Angle.cos_coe, ← Real.Angle.sin_coe, hmul,
    Real.Angle.cos_coe, Real.Angle.sin_coe]

theorem azimuthalFactor_neg (k : ℤ) (φ : ℝ) :
    azimuthalFactor k (-φ) = (if 0 ≤ k then 1 else -1) * azimuthalFactor k φ := by
  rw [azimuthalFactor_real, azimuthalFactor_real, mul_neg]
  split
  · rw [Real.cos_neg, one_mul]
  · rw [Real.sin_neg, neg_one_mul]

theorem azimuthalFactor_pi_sub (k : ℤ) (φ : ℝ) :
    azimuthalFactor k (Real.pi - φ) =
      (if 0 ≤ k then (-1) ^ k.natAbs else (-1) ^ (k.natAbs + 1)) * azimuthalFactor k φ := by
  rw [azimuthalFactor_real, azimuthalFactor_real, mul_sub]
  split
  · rw [Real.cos_nat_mul_pi_sub]
  · rw [Real.sin_nat_mul_pi_sub, pow_succ, mul_neg_one, neg_mul]

end Harmonic

/-! ## Signs -/

namespace Ordinate

theorem HasAzimuth.mirrored {o : Ordinate ℝ} (h : o.HasAzimuth) (a : Axis) :
    (o.mirrored a).HasAzimuth := by
  cases a <;> simpa [HasAzimuth, Ordinate.mirrored, direction, Axis.mirror] using h

end Ordinate

namespace Harmonic

open Ordinate

/-- The sign by which the mirror across an axis multiplies the harmonics of a degree
and an order. -/
def mirrorSign (a : Axis) (l : ℕ) (k : ℤ) : ℤ :=
  match a with
  | .mu => (-1) ^ (l + k.natAbs)
  | .eta => if 0 ≤ k then 1 else -1
  | .xi => if 0 ≤ k then (-1) ^ k.natAbs else (-1) ^ (k.natAbs + 1)

/-- The value of a harmonic in a direction. -/
noncomputable def tesseralAt (l : ℕ) (k : ℤ) (d : Direction) : ℝ :=
  √((2.0 - delta k 0) * factorialRatio l k.natAbs) * Legendre.associated l k.natAbs d.1
    * azimuthalFactor k (azimuth d.2.1 d.2.2)

/-- The integral of a harmonic over a weighted list of directions. -/
noncomputable def integral (l : ℕ) (k : ℤ) (os : List (Ordinate ℝ)) :
    Except (QuadratureError ℝ) ℝ := do
  let terms ← os.mapM fun o => return o.weight * (← tesseral l k o)
  return terms.sum

section

variable {l : ℕ} {k : ℤ} (h : k.natAbs ≤ l)

include h

theorem tesseral_eq_tesseralAt (o : Ordinate ℝ) :
    tesseral l k o = .ok (tesseralAt l k o.direction) := by
  rw [tesseral_eq_ok h, tesseralAt, Scalar.two_real]
  rfl

theorem tesseralAt_mirror (a : Axis) {o : Ordinate ℝ} (ho : o.HasAzimuth) :
    tesseralAt l k (a.mirror o.direction) = mirrorSign a l k * tesseralAt l k o.direction := by
  cases a with
  | mu =>
    simp only [tesseralAt, Axis.mirror, mirrorSign, direction, Legendre.associated_neg h]
    push_cast
    ring
  | eta =>
    have hfactor := azimuthalFactor_congr k (coe_azimuth_neg_left ho)
    simp only [tesseralAt, Axis.mirror, mirrorSign, direction, hfactor, azimuthalFactor_neg]
    push_cast
    ring
  | xi =>
    have hfactor := azimuthalFactor_congr k (coe_azimuth_neg_right ho)
    simp only [tesseralAt, Axis.mirror, mirrorSign, direction, hfactor, azimuthalFactor_pi_sub]
    push_cast
    ring

theorem integral_eq_ok (os : List (Ordinate ℝ)) :
    integral l k os = .ok (os.map fun o => o.weight * tesseralAt l k o.direction).sum := by
  have hterm : (fun o : Ordinate ℝ => do return o.weight * (← tesseral l k o)) =
      fun o => (pure (o.weight * tesseralAt l k o.direction) : Except (QuadratureError ℝ) ℝ) := by
    funext o
    rw [tesseral_eq_tesseralAt h]
    rfl
  rw [integral, hterm, List.mapM_pure]
  rfl

theorem integral_singleton (o : Ordinate ℝ) :
    integral l k [o] = .ok (o.weight * tesseralAt l k o.direction) := by
  rw [integral_eq_ok h, List.map_singleton, List.sum_singleton]

theorem integral_eq_zero {a : Axis} {os : List (Ordinate ℝ)} (hos : ∀ o ∈ os, o.HasAzimuth)
    (hmirrored : IsMirrored a os) (hsign : mirrorSign a l k = -1) : integral l k os = .ok 0 := by
  rw [integral_eq_ok h, hmirrored.sum_weight_mul_eq_zero fun o ho => ?_]
  rw [tesseralAt_mirror h a (hos o ho), hsign]
  push_cast
  exact neg_one_mul _

/-- Some direction in the plane `y = 0` sees a harmonic whose order is not negative. -/
theorem exists_tesseralAt_ne_zero (hk : 0 ≤ k) :
    ∃ x z : ℝ, squaredLength x 0 z = 1 ∧ poleTolerance ≤ z ∧ tesseralAt l k (x, 0, z) ≠ 0 := by
  obtain ⟨x, ⟨hpos, hhalf⟩, hne⟩ :=
    Legendre.exists_associated_ne_zero h (by norm_num : (0 : ℝ) < 1 / 2) (by norm_num) (by norm_num)
  have hsquare : x * x ≤ 3 / 4 := by nlinarith only [hpos, hhalf]
  have hz : 1 / 2 ≤ √(1 - x * x) := by
    apply Real.le_sqrt_of_sq_le
    linarith
  have hpole : poleTolerance ≤ √(1 - x * x) := by
    refine le_trans ?_ hz
    unfold poleTolerance
    norm_num
  refine ⟨x, √(1 - x * x), ?_, hpole, ?_⟩
  · rw [squaredLength, Real.mul_self_sqrt (by linarith)]
    ring
  · have hcoefficient := (coefficient_pos h).ne'
    rw [tesseralAt, azimuth_zero_left hpole, azimuthalFactor_real, if_pos hk, mul_zero, Real.cos_zero,
      mul_one, Scalar.two_real]
    exact mul_ne_zero hcoefficient hne

/-- A harmonic that no set mirrored across `y` sees is one of negative order. -/
theorem exists_integral_ne_zero (hk : 0 ≤ k) :
    ∃ os : List (Ordinate ℝ), (∀ o ∈ os, squaredLength o.x o.y o.z = 1 ∧ o.HasAzimuth) ∧
      IsMirrored .eta os ∧ integral l k os ≠ .ok 0 := by
  obtain ⟨x, z, hunit, hpole, hne⟩ := exists_tesseralAt_ne_zero h hk
  refine ⟨[⟨x, 0, z, 1⟩], ?_, ?_, ?_⟩
  · rw [List.forall_mem_singleton]
    exact ⟨hunit, hpole.trans (le_max_of_le_right (le_abs_self z))⟩
  · apply isMirrored_of_perm
    simp [mirrored, direction, Axis.mirror]
  · rw [integral_singleton h, one_mul]
    exact fun hzero => hne (Except.ok.inj hzero)

end

/-- A mirror across a coordinate plane multiplies the value of every harmonic by a
sign that only the degree and the order decide. So a harmonic has no integral over a
list that is mirrored across an axis which gives it the sign `-1`. Across `y` these
are the harmonics of negative order. A set in the plane resolves the other ones, which
are those that some list of directions mirrored across `y` sees. -/
theorem tesseral_parity {l : ℕ} {k : ℤ} (h : k.natAbs ≤ l) :
    (∀ (a : Axis) (o : Ordinate ℝ), o.HasAzimuth → ∃ v,
      tesseral l k o = .ok v ∧ tesseral l k (o.mirrored a) = .ok (mirrorSign a l k * v)) ∧
    (∀ (a : Axis) (os : List (Ordinate ℝ)), (∀ o ∈ os, o.HasAzimuth) → IsMirrored a os →
      mirrorSign a l k = -1 → integral l k os = .ok 0) ∧
    (k < 0 → ∀ os : List (Ordinate ℝ), (∀ o ∈ os, o.HasAzimuth) → IsMirrored .eta os →
      integral l k os = .ok 0) ∧
    ((⟨l, k⟩ : MomentIndex).isResolvedIn 2 = true ↔
      ∃ os : List (Ordinate ℝ), (∀ o ∈ os, squaredLength o.x o.y o.z = 1 ∧ o.HasAzimuth) ∧
        IsMirrored .eta os ∧ integral l k os ≠ .ok 0) := by
  have hodd : k < 0 → ∀ os : List (Ordinate ℝ), (∀ o ∈ os, o.HasAzimuth) → IsMirrored .eta os →
      integral l k os = .ok 0 := fun hk os hos hmirrored =>
    integral_eq_zero h hos hmirrored (if_neg (not_le.mpr hk))
  have hresolved : (⟨l, k⟩ : MomentIndex).isResolvedIn 2 = true ↔ 0 ≤ k := decide_eq_true_iff
  refine ⟨fun a o ho => ?_, fun a os hos hmirrored => integral_eq_zero h hos hmirrored, hodd, ?_⟩
  · refine ⟨tesseralAt l k o.direction, tesseral_eq_tesseralAt h o, ?_⟩
    rw [tesseral_eq_tesseralAt h, direction_mirrored, tesseralAt_mirror h a ho]
  · rw [hresolved]
    refine ⟨exists_integral_ne_zero h, ?_⟩
    rintro ⟨os, hos, hmirrored, hseen⟩
    by_contra hk
    exact hseen (hodd (not_le.mp hk) os (fun o ho => (hos o ho).2) hmirrored)

theorem isMirrored_pair (a : Axis) (o : Ordinate ℝ) : IsMirrored a [o, o.mirrored a] := by
  apply isMirrored_of_perm
  rw [List.map_cons, List.map_cons, List.map_nil, mirrored_mirrored]
  exact List.Perm.swap _ _ _

/-- A direction off all coordinate planes. -/
noncomputable def oblique : Ordinate ℝ :=
  ⟨0.6, 0.48, 0.64, 1⟩

theorem hasAzimuth_oblique : oblique.HasAzimuth := by
  apply le_max_of_le_left
  unfold oblique poleTolerance
  norm_num [abs_of_pos]

theorem hasAzimuth_pair (a : Axis) : ∀ o ∈ [oblique, oblique.mirrored a], o.HasAzimuth := by
  rw [List.forall_mem_cons, List.forall_mem_singleton]
  exact ⟨hasAzimuth_oblique, hasAzimuth_oblique.mirrored a⟩

/-- The harmonic of degree three and order minus two is odd across every plane, so it
has no integral over a direction and any of its images. That of order two has one over
some list mirrored across `y`. -/
theorem tesseral_parity_oblique :
    ((-2 : ℤ).natAbs ≤ 3 ∧ oblique.HasAzimuth) ∧
    ((∃ v, tesseral 3 (-2) oblique = .ok v ∧
        tesseral 3 (-2) (oblique.mirrored .xi) = .ok (-v)) ∧
      ∀ a : Axis, integral 3 (-2) [oblique, oblique.mirrored a] = .ok 0) ∧
    ∃ os : List (Ordinate ℝ), IsMirrored .eta os ∧ integral 3 2 os ≠ .ok 0 := by
  have horder : (-2 : ℤ).natAbs ≤ 3 := by decide
  obtain ⟨hsign, hvanish, -, -⟩ := tesseral_parity horder
  obtain ⟨v, hvalue, himage⟩ := hsign .xi oblique hasAzimuth_oblique
  refine ⟨⟨horder, hasAzimuth_oblique⟩, ⟨⟨v, hvalue, ?_⟩, fun a => ?_⟩, ?_⟩
  · rw [himage, show mirrorSign .xi 3 (-2) = -1 by decide]
    push_cast
    rw [neg_one_mul]
  · refine hvanish a _ (hasAzimuth_pair a) (isMirrored_pair a oblique) ?_
    cases a <;> decide
  · have hseen : (2 : ℤ).natAbs ≤ 3 := by decide
    obtain ⟨-, -, -, hresolved⟩ := tesseral_parity hseen
    obtain ⟨os, -, hmirrored, hne⟩ := hresolved.mp rfl
    exact ⟨os, hmirrored, hne⟩

end Harmonic

end DiscreteOrdinates
