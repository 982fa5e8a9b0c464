/-
  MagneticBearing.Proofs.Saturation — requests beyond what the iron can carry.

  An unsaturated space vector is bounded by the saturation field, so the terms that the tolerance
  scales with are a few hexagon bounds (`terms_le`). A target that is above the hexagon bound by more
  than a hundred millionth is then missed by every unsaturated candidate (`saturated_of_above`).

  - `hexagonBound_bounds`: the bound holds for every unsaturated excitation and is attained; beyond it
    no currents are answered with the saturation check on, whatever finds the roots, and the residual of
    the rating is positive.
-/

import MagneticBearing.Proofs.Currents
import MagneticBearing.Proofs.Physical
import MagneticBearing.Quartic.ClosedForm
import MagneticBearing.Rating

namespace MagneticBearing

/-! ## The residual -/

namespace Rating

section Numbers

variable {K : Type} [Scalar K] {r : Rating K} {direction magnitude : K}

theorem residual_of_error {e : AllocationError K} (hs : r.allocator.solve direction magnitude = .error e) :
    r.residual direction magnitude = .error e := by
  unfold Rating.residual Allocator.candidates
  rw [hs]
  rfl

/-- An answered request has a residual if it has a candidate. -/
theorem residual_of_solve {sols : Solutions K} (hs : r.allocator.solve direction magnitude = .ok sols) :
    r.residual direction magnitude =
      match Scalar.leastBy id ((sols.vectors.map SpaceVector.toPoles).map r.bearing.peakField) with
      | some peak => .ok (peak - r.bearing.limit)
      | none => .error (.noFeasibleSolution direction magnitude) := by
  have hc : r.allocator.candidates direction magnitude = .ok (sols.vectors.map SpaceVector.toPoles) := by
    unfold Allocator.candidates
    rw [hs]
    rfl
  unfold Rating.residual
  rw [hc]
  simp only [bind, Except.bind]
  cases Scalar.leastBy id ((sols.vectors.map SpaceVector.toPoles).map r.bearing.peakField) with
  | none => rfl
  | some peak => rfl

end Numbers

variable {r : Rating ℝ} {direction magnitude residual : ℝ}

/-- The residual is how far the least peak field among the candidates is above the limit. -/
theorem residual_ok (h : r.residual direction magnitude = .ok residual) :
    ∃ sols, r.allocator.solve direction magnitude = .ok sols ∧ ∃ s ∈ sols.vectors,
      residual = r.bearing.peakField s.toPoles - r.bearing.limit ∧
        ∀ t ∈ sols.vectors, r.bearing.peakField s.toPoles ≤ r.bearing.peakField t.toPoles := by
  cases hs : r.allocator.solve direction magnitude with
  | error e =>
    rw [residual_of_error hs] at h
    cases h
  | ok sols =>
    rw [residual_of_solve hs] at h
    split at h
    · rename_i peak hp
      cases h
      have hleast := Scalar.leastBy_first hp
      have hmem := hleast.mem
      simp only [List.mem_map, exists_exists_and_eq_and] at hmem
      obtain ⟨s, hs', rfl⟩ := hmem
      refine ⟨sols, rfl, s, hs', rfl, fun t ht => ?_⟩
      exact hleast.le _ (List.mem_map_of_mem (List.mem_map_of_mem ht))
    · cases h

/-- With a candidate there is a residual, and the candidate's peak field bounds it. -/
theorem residual_of_mem {sols : Solutions ℝ} (hs : r.allocator.solve direction magnitude = .ok sols)
    {s : SpaceVector ℝ} (hmem : s ∈ sols.vectors) : ∃ y, r.residual direction magnitude = .ok y ∧
      y ≤ r.bearing.peakField s.toPoles - r.bearing.limit := by
  rw [residual_of_solve hs]
  cases hp : Scalar.leastBy id ((sols.vectors.map SpaceVector.toPoles).map r.bearing.peakField) with
  | none =>
    rw [Scalar.leastBy_eq_none, List.map_eq_nil_iff, List.map_eq_nil_iff] at hp
    rw [hp] at hmem
    cases hmem
  | some peak =>
    have hle := (Scalar.leastBy_first hp).le _ (List.mem_map_of_mem (List.mem_map_of_mem hmem))
    exact ⟨peak - r.bearing.limit, rfl, sub_le_sub_right hle _⟩

end Rating

/-! ## Beyond the hexagon bound -/

namespace Physical

variable {b : Physical ℝ} {s : SpaceVector ℝ} {target : Cx ℝ}

theorem hexagonBound_pos (hb : b.Sound) : 0 < b.bearing.hexagonBound :=
  mul_pos (mul_pos hb.k1_pos hb.saturationField_pos) hb.saturationField_pos

/-- The terms of the force law at an unsaturated space vector. -/
theorem terms_le (hb : b.Sound) (hs : b.bearing.saturated s.toPoles = false) :
    b.bearing.law.linear * ‖s.toComplex‖ + b.bearing.law.quadratic * ‖s.toComplex‖ ^ 2 / 3 ≤
      16 / 3 * b.bearing.hexagonBound := by
  have hk := hb.k1_pos.le
  have hB := hb.saturationField_pos.le
  have hle := norm_le_of_unsaturated hs
  have hlin : b.bearing.law.linear ≤ 2 * b.saturationField * b.k1 := by
    show 2.0 * b.bias * b.k1 ≤ _
    rw [Exact.two_eq]
    have := hb.bias_lt.le
    gcongr
  calc b.bearing.law.linear * ‖s.toComplex‖ + b.bearing.law.quadratic * ‖s.toComplex‖ ^ 2 / 3
      ≤ 2 * b.saturationField * b.k1 * (2 * b.saturationField) + b.k1 * (2 * b.saturationField) ^ 2 / 3 := by
        have hquad : b.bearing.law.quadratic = b.k1 := rfl
        rw [hquad]
        gcongr
    _ = 16 / 3 * (b.k1 * b.saturationField * b.saturationField) := by ring

theorem saturated_of_above (hb : b.Sound) (hr : b.bearing.law.reproduces s target = true)
    (hm : (1 + 1 / 10 ^ 8) * b.bearing.hexagonBound < ‖target.toComplex‖) : b.bearing.saturated s.toPoles = true := by
  by_contra hsat
  have hs : b.bearing.saturated s.toPoles = false := by simpa using hsat
  have hforce : ‖b.bearing.law.onPlane s.toComplex‖ ≤ b.bearing.hexagonBound := by
    have := norm_force_le hb hs
    rwa [ForceLaw.ofPoles_toPoles, ForceLaw.toComplex_ofVector] at this
  have hterms := terms_le hb hs
  have hmiss := ForceLaw.reproduces_iff.mp hr
  have htri : ‖target.toComplex‖ ≤ ‖b.bearing.law.onPlane s.toComplex‖ + b.bearing.law.miss target s :=
    norm_le_norm_add_norm_sub _ _
  have hH := hexagonBound_pos hb
  linarith

/-- Beyond the bound every candidate is saturated, whatever found the roots. -/
theorem solve_saturated (hb : b.Sound) {find : RootFinder ℝ} {direction magnitude : ℝ} {sols : Solutions ℝ}
    (hm : (1 + 1 / 10 ^ 8) * b.bearing.hexagonBound < magnitude)
    (h : (Rating.mk b.bearing find).allocator.solve direction magnitude = .ok sols) :
    ∀ s ∈ sols.vectors, b.bearing.saturated s.toPoles = true := by
  have hH := hexagonBound_pos hb
  intro s hs
  refine saturated_of_above hb (Allocator.solve_reproduces h s hs) ?_
  rw [Allocator.norm_target (by linarith)]
  exact hm

theorem residual_pos_of_above (hb : b.Sound) {find : RootFinder ℝ} {direction magnitude residual : ℝ}
    (hm : (1 + 1 / 10 ^ 8) * b.bearing.hexagonBound < magnitude)
    (h : (Rating.mk b.bearing find).residual direction magnitude = .ok residual) : 0 < residual := by
  obtain ⟨sols, hs, s, hmem, rfl, -⟩ := Rating.residual_ok h
  have hsat : b.saturationField < b.bearing.peakField s.toPoles := of_decide_eq_true (solve_saturated hb hm hs s hmem)
  exact sub_pos.mpr hsat

theorem no_currents_above (hb : b.Sound) {find : RootFinder ℝ} {direction magnitude : ℝ}
    (hm : (1 + 1 / 10 ^ 8) * b.bearing.hexagonBound < magnitude) (unit : CurrentUnit) (i : Poles ℝ) :
    (Allocator.mk b.bearing.toBearing find).controlCurrents direction magnitude unit true ≠ .ok i := by
  have hamps (i : Poles ℝ) :
      (Allocator.mk b.bearing.toBearing find).controlCurrents direction magnitude .amps true ≠ .ok i := by
    intro h
    obtain ⟨sols, hs, hleast⟩ := Allocator.controlCurrents_ok h
    obtain ⟨s, hmem, helig, -⟩ := Allocator.mem_offered.mp hleast.mem
    have hsat := solve_saturated hb hm hs s hmem
    have hunsat := helig rfl
    rw [hsat] at hunsat
    cases hunsat
  cases unit with
  | amps => exact hamps i
  | ampereTurns =>
    rw [Allocator.controlCurrents_ampereTurns]
    intro h
    cases hc : (Allocator.mk b.bearing.toBearing find).controlCurrents direction magnitude .amps true with
    | error e =>
      rw [hc] at h
      cases h
    | ok j => exact hamps j hc

/-- The hexagon bound bounds every unsaturated force, some unsaturated force attains it, and beyond it no
request has an unsaturated answer. -/
theorem hexagonBound_bounds (hb : b.Made) :
    (∀ e, b.bearing.saturated e = false → (b.bearing.law.ofPoles e).norm ≤ b.bearing.hexagonBound) ∧
      (∃ e, b.bearing.saturated e = false ∧ (b.bearing.law.ofPoles e).norm = b.bearing.hexagonBound) ∧
      ∀ (find : RootFinder ℝ) (direction magnitude : ℝ), (1 + 1 / 10 ^ 8) * b.bearing.hexagonBound < magnitude →
        (∀ unit i, (Allocator.mk b.bearing.toBearing find).controlCurrents direction magnitude unit true ≠ .ok i) ∧
          ∀ residual, (Rating.mk b.bearing find).residual direction magnitude = .ok residual → 0 < residual := by
  have hs := hb.sound
  refine ⟨?_, ?_, ?_⟩
  · intro e he
    rw [Cx.norm_eq]
    exact norm_force_le hs he
  · obtain ⟨e, he, hn⟩ := hexagonBound_attained hs
    exact ⟨e, he, by rw [Cx.norm_eq]; exact hn⟩
  · intro find direction magnitude hm
    exact ⟨no_currents_above hs hm, fun _ h => residual_pos_of_above hs hm h⟩

/-- Twice the bound is out of reach for the prototype. -/
theorem hexagonBound_bounds_prototype : ∃ b : Physical ℝ, Physical.build Geometry.prototype = .ok b ∧
    (∃ e, b.bearing.saturated e = false ∧ (b.bearing.law.ofPoles e).norm = b.bearing.hexagonBound) ∧
    ∀ (direction : ℝ) (i : Poles ℝ), (Allocator.mk b.bearing.toBearing Quartic.closedForm).controlCurrents direction
      (2 * b.bearing.hexagonBound) .amps true ≠ .ok i := by
  have hbuild : Physical.build Geometry.prototype = .ok (Geometry.prototype : Geometry ℝ).derive :=
    build_of_valid Geometry.prototype_valid
  obtain ⟨-, hattained, habove⟩ := hexagonBound_bounds (.build hbuild)
  refine ⟨_, hbuild, hattained, fun direction i => ?_⟩
  have hH := hexagonBound_pos Geometry.prototype_valid.sound
  exact (habove _ direction _ (by linarith)).1 .amps i

end Physical

end MagneticBearing
