import DiscreteOrdinates.Proofs.Moments.Galerkin

/-!
# Selections of similar sets

Sets whose directions are the same up to their numbers have the same moments: the
distance of a harmonic from the span of others does not depend on the order of the
directions, nor on their weights. Main statement: `select_eq_of_renumbered`.
-/

namespace DiscreteOrdinates

namespace MomentIndex

/-! ## Harmonics -/

section

variable {os os' : List (Ordinate ℝ)} (e : Fin os'.length ≃ Fin os.length)

/-- The vectors over the directions of one list as vectors over those of another. -/
noncomputable def renumber :
    EuclideanSpace ℝ (Fin os'.length) ≃ₗᵢ[ℝ] EuclideanSpace ℝ (Fin os.length) :=
  LinearIsometryEquiv.piLpCongrLeft _ ℝ ℝ e

variable (h : ∀ l k m, Harmonic.tesseral l k (os'.get m) = Harmonic.tesseral l k (os.get (e m)))

include h

theorem renumber_harmonics (i : MomentIndex) : renumber e (harmonics os' i) = harmonics os i := by
  ext m
  have hvalue := h i.l i.k (e.symm m)
  rw [e.apply_symm_apply] at hvalue
  simp only [renumber, LinearIsometryEquiv.piLpCongrLeft_apply, Equiv.piCongrLeft'_apply, harmonics,
    hvalue]

theorem map_harmonicSpan (is : List MomentIndex) :
    (harmonicSpan os' is).map (renumber e).toLinearEquiv.toLinearMap = harmonicSpan os is := by
  rw [harmonicSpan, Submodule.map_span, ← Set.image_comp, harmonicSpan]
  have himage : ⇑(renumber e).toLinearEquiv.toLinearMap ∘ harmonics os' = harmonics os :=
    funext fun i => renumber_harmonics e h i
  rw [himage]

theorem isApart_iff_of_renumbered (is : List MomentIndex) (i : MomentIndex) :
    IsApart os' is i ↔ IsApart os is i := by
  have hspan : (renumber e) '' (harmonicSpan os' is) = (harmonicSpan os is : Set _) := by
    rw [← map_harmonicSpan e h is]
    rfl
  rw [IsApart, IsApart, ← renumber_harmonics e h i, ← hspan,
    Metric.infDist_image (renumber e).isometry, (renumber e).norm_map]

end

/-! ## Selections -/

/-- Sets of one kind select the same moments if the independence of harmonics is the
same for both of them. -/
theorem select_congr {q q' : Quadrature ℝ} (hdimension : q'.dimension = q.dimension)
    (hlayout : q'.layout = q.layout) (horder : q'.order = q.order) (hangles : q'.angles = q.angles)
    (hapart : ∀ is i, IsApart q'.ordinates is i ↔ IsApart q.ordinates is i)
    (model : Interpolation) (expansionOrder : Option ℕ) :
    select q' model expansionOrder = select q model expansionOrder := by
  have happart : IsApart q'.ordinates = IsApart q.ordinates := by
    funext is i
    exact propext (hapart is i)
  have hindependent : independent q' = independent q := by
    rw [independent_eq_ok, independent_eq_ok, happart, hdimension, horder, hangles]
  have hcandidates : candidates q' model expansionOrder = candidates q model expansionOrder := by
    unfold candidates
    rw [hindependent, hdimension, hlayout, horder, hangles]
  rw [select, select, hcandidates, hangles]

theorem select_eq_of_renumbered {q q' : Quadrature ℝ} (hdimension : q'.dimension = q.dimension)
    (hlayout : q'.layout = q.layout) (horder : q'.order = q.order) (hangles : q'.angles = q.angles)
    (e : Fin q'.ordinates.length ≃ Fin q.ordinates.length)
    (h : ∀ l k m, Harmonic.tesseral l k (q'.ordinates.get m) =
      Harmonic.tesseral l k (q.ordinates.get (e m)))
    (model : Interpolation) (expansionOrder : Option ℕ) :
    select q' model expansionOrder = select q model expansionOrder :=
  select_congr hdimension hlayout horder hangles (isApart_iff_of_renumbered e h) model expansionOrder

end MomentIndex

end DiscreteOrdinates
