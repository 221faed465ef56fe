import DiscreteOrdinates.Proofs.Angular.Recursion

/-!
# Uniform flux

A flux that is the same in all directions stays so while directions turn. The
coefficients of the flux and of its source differ by what streams along the
radius. Main statement: `flux_sub_source_of_dependent`.
-/

namespace DiscreteOrdinates

namespace AngularRedistribution

theorem recursionFactor_eq {geometry : Geometry} :
    (recursionFactor geometry : ℝ) = if geometry = .spherical then 2 else 1 := by
  cases geometry with
  | cartesian => exact Scalar.one_real
  | axisymmetric => exact Scalar.one_real
  | spherical => exact Scalar.two_real

theorem recursionFactor_pos {geometry : Geometry} : (0 : ℝ) < recursionFactor geometry := by
  rw [recursionFactor_eq]
  split <;> norm_num

/-- Without curvature the two coefficients would be equal. -/
theorem coefficient_sub_coefficient {α β w τ c : ℝ} (hw : w ≠ 0) (hτ : τ ≠ 0) (h : α = β + c * w) :
    α / (w * τ) - (α * (1 - τ) / τ + β) / w = c := by
  have hdifference : α / (w * τ) - (α * (1 - τ) / τ + β) / w = (α - β) / w := by
    field_simp
    ring
  rw [hdifference, h, add_sub_cancel_left, mul_div_cancel_right₀ c hw]

/-- Where the `τ` of a dependent node does not vanish, its two coefficients differ
by its cosine, taken twice on a sphere. -/
theorem flux_sub_source_of_dependent {q : Quadrature ℝ} {geometry : Geometry} {meshDimension : ℕ}
    {r : AngularRedistribution ℝ} (hgeometry : geometry.isCurvilinear)
    (h : ofQuadrature q geometry meshDimension = .ok r) {m : ℕ} (hm : m < r.nodes.length)
    (hdependent : r.isDependent m = .ok true) (htau : r.nodes[m].tau ≠ 0) :
    ∃ flux source, r.fluxCoefficient m = .ok flux ∧ r.sourceCoefficient m = .ok source ∧
      flux - source = (if geometry = .spherical then 2 else 1) * r.nodes[m].ordinate.x := by
  have hdependent : r.nodes[m].dependent = true := by
    rw [isDependent_eq_ok hm] at hdependent
    exact Except.ok.inj hdependent
  have hbefore : m - 1 < r.nodes.length := by omega
  obtain ⟨-, hlinks⟩ := links_of_dependent hgeometry h hm hbefore hdependent
  obtain ⟨hweight, halpha⟩ := hlinks hdependent
  refine ⟨_, _, fluxCoefficient_eq_ok hm hdependent, sourceCoefficient_eq_ok hm hdependent, ?_⟩
  apply coefficient_sub_coefficient hweight htau
  rw [halpha, recursionFactor_eq]
  ring

/-- In the first of two opposite directions on a sphere the coefficients differ
by twice its cosine. -/
theorem flux_sub_source_of_dependent_beams : ∃ r,
    ofQuadrature (beams (-0.5) 0.5) .spherical 1 = .ok r ∧
    Geometry.spherical.isCurvilinear = true ∧ r.isDependent 1 = .ok true ∧
    (∃ hm : 1 < r.nodes.length, r.nodes[1].tau ≠ 0) ∧
    ∃ flux source, r.fluxCoefficient 1 = .ok flux ∧ r.sourceCoefficient 1 = .ok source ∧
      flux - source = -1 := by
  obtain ⟨r, hr, hnodes⟩ := exists_ofQuadrature_beams (a := -0.5) (b := 0.5) (by norm_num)
  have hm : 1 < r.nodes.length := by simp [hnodes, twoNodes]
  have hdependent : r.isDependent 1 = .ok true := by
    rw [isDependent_eq_ok hm]
    simp [hnodes, twoNodes]
  have htau : r.nodes[1].tau ≠ 0 := by
    simp [hnodes, twoNodes]
    norm_num
  obtain ⟨flux, source, hflux, hsource, hdifference⟩ :=
    flux_sub_source_of_dependent (by rfl) hr hm hdependent htau
  refine ⟨r, hr, rfl, hdependent, ⟨hm, htau⟩, flux, source, hflux, hsource, ?_⟩
  rw [hdifference]
  simp [hnodes, twoNodes]
  norm_num

end AngularRedistribution

end DiscreteOrdinates
