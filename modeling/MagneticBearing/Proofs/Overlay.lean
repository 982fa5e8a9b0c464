/-
  MagneticBearing.Proofs.Overlay — a fit laid over a physical bearing is the fit.

  A fit gives the force by the currents, a physical bearing by the control fields. The overlay takes its
  two constants from the fit such that the field of a current yields the force of the current: the laws
  are similar with the field per ampere as the ratio of excitations and no change of force
  (`overlay_sameCurrents`). Two bearings in that relation (`SameCurrents`) cannot be told apart by
  currents and forces: not on the way forward (`ofPoles_currents_eq`), not by the exact solutions
  (`exactCurrents_eq`), and not by what a request is answered with, where their root finders agree
  (`controlCurrents_eq`).

  - `withFit_is_curveFit`: all of this for an overlay and the fit alone. The saturation field and the bias
    stay those of the physical bearing.
-/

import MagneticBearing.Bearing.CurveFit
import MagneticBearing.Proofs.Scaling

namespace MagneticBearing

/-! ## One bearing in two units -/

/-- The control currents of the exact solutions for a force. -/
def Bearing.exactCurrents (b : Bearing ℝ) (target : Cx ℝ) : Set (Poles ℝ) :=
  (fun s : SpaceVector ℝ => s.toPoles.scale b.ampsPerUnit) '' {s | b.law.ofVector s = target}

/-- The same currents yield the same force; `c` units of excitation of `b'` are one of `b`. -/
structure Bearing.SameCurrents (b b' : Bearing ℝ) (c : ℝ) : Prop where
  similar : b.law.Similar b'.law c 1
  ampsPerUnit_pos : 0 < b'.ampsPerUnit
  ampsPerUnit_eq : b.ampsPerUnit = c * b'.ampsPerUnit

namespace Bearing.SameCurrents

variable {b b' : Bearing ℝ} {c : ℝ} (h : b.SameCurrents b' c)

include h

theorem currents_scale (s : SpaceVector ℝ) :
    (SpaceVector.toPoles (Cx.scale c s)).scale b'.ampsPerUnit = s.toPoles.scale b.ampsPerUnit := by
  rw [SpaceVector.toPoles_scale, h.ampsPerUnit_eq]
  simp only [Poles.scale, Poles.map, mul_assoc]

theorem solution_iff (s : SpaceVector ℝ) (target : Cx ℝ) :
    b'.law.ofVector (Cx.scale c s) = target ↔ b.law.ofVector s = target := by
  have hiff := h.similar.ofVector_scale_iff s target
  rwa [Cx.scale_one] at hiff

theorem refine_eq (s : SpaceVector ℝ) (target : Cx ℝ) :
    b'.law.refine (Cx.scale c s) target = Cx.scale c (b.law.refine s target) := by
  have hr := h.similar.refine_scale s target
  rwa [Cx.scale_one] at hr

theorem reproduces_eq (s : SpaceVector ℝ) (target : Cx ℝ) :
    b'.law.reproduces (Cx.scale c s) target = b.law.reproduces s target := by
  have hr := h.similar.reproduces_scale s target
  rwa [Cx.scale_one] at hr

/-- Common mode included. -/
theorem ofPoles_currents_eq (i : Poles ℝ) :
    b'.law.ofPoles (i.divEach b'.ampsPerUnit) = b.law.ofPoles (i.divEach b.ampsPerUnit) := by
  have hc := h.similar.length_pos.ne'
  have hk := h.ampsPerUnit_pos.ne'
  have e : i.divEach b'.ampsPerUnit = (i.divEach b.ampsPerUnit).scale c := by
    rw [h.ampsPerUnit_eq]
    simp only [Poles.divEach, Poles.scale, Poles.map, Poles.mk.injEq]
    refine ⟨?_, ?_, ?_⟩
    · field_simp
    · field_simp
    · field_simp
  rw [e, h.similar.ofPoles_scale, Cx.scale_one]

theorem exactCurrents_eq (target : Cx ℝ) : b'.exactCurrents target = b.exactCurrents target := by
  ext i
  constructor
  · rintro ⟨t, ht, rfl⟩
    obtain ⟨s, rfl⟩ := (Cx.scale_bijective h.similar.length_pos.ne').surjective t
    exact ⟨s, (h.solution_iff s target).mp ht, (h.currents_scale s).symm⟩
  · rintro ⟨s, hs, rfl⟩
    exact ⟨Cx.scale c s, (h.solution_iff s target).mpr hs, h.currents_scale s⟩

theorem root_iff (ha : b.law.quadratic ≠ 0) (form : Formulation) (target : Cx ℝ) (root : ℝ) :
    (b'.law.quartic form target.re target.im).eval (c * root) = 0 ↔
      (b.law.quartic form target.re target.im).eval root = 0 := by
  have hc := h.similar.length_pos.ne'
  have e := h.similar.eval_scale ha form target.re target.im root
  rw [one_mul, one_mul] at e
  rw [e, mul_eq_zero_iff_left (pow_ne_zero 4 hc)]

variable {find find' : RootFinder ℝ} {direction magnitude : ℝ} {sols : Solutions ℝ}
  (hroots : Allocator.RootsScale ⟨b, find⟩ ⟨b', find'⟩ c (Allocator.target direction magnitude)
    (Allocator.target direction magnitude))
  (hs : (Allocator.mk b find).solve direction magnitude = .ok sols)

include hroots hs

theorem solve_eq : (Allocator.mk b' find').solve direction magnitude =
    .ok ⟨sols.formulation, sols.vectors.map (Cx.scale c)⟩ := by
  have hroots' : Allocator.RootsScale ⟨b, find⟩ ⟨b', find'⟩ c (Allocator.target direction magnitude)
      (Allocator.target direction (1 * magnitude)) := by
    rwa [one_mul]
  have hsolve := Allocator.solve_scale h.similar hroots' hs
  rwa [one_mul] at hsolve

/-- Without the saturation check the same currents are selected. -/
theorem controlCurrents_eq : (Allocator.mk b' find').controlCurrents direction magnitude .amps false =
    (Allocator.mk b find).controlCurrents direction magnitude .amps false := by
  have hoffered : (Allocator.mk b' find').offered false (sols.vectors.map (Cx.scale c)) =
      (Allocator.mk b find).offered false sols.vectors := by
    unfold Allocator.offered
    simp only [Bool.false_and, Bool.not_false, List.filter_true, List.map_map]
    exact List.map_congr_left fun s _ => h.currents_scale s
  rw [Allocator.controlCurrents_eq, Allocator.controlCurrents_eq, h.solve_eq hroots hs, hs]
  simp only [hoffered]

end Bearing.SameCurrents

/-! ## The overlay -/

theorem CurveFit.build_ok {c1 c2 turns : ℝ} {C : CurveFit ℝ} :
    CurveFit.build c1 c2 turns = .ok C ↔ 0 < c1 ∧ 0 < c2 ∧ 0 < turns ∧ ⟨c1, c2, turns⟩ = C := by
  unfold CurveFit.build
  simp only [except_bind_ok, requirePositive_ok, pure, Except.pure, Except.ok.injEq, exists_and_left, exists_const]

namespace Physical

variable {P Q : Physical ℝ} {C : CurveFit ℝ} {c1 c2 turns : ℝ}

/-- An ampere is `k2` units of field, and the constants of the overlay are those of the fit in these units. -/
theorem overlay_sameCurrents (hP : P.Sound) (hQ : P.withFit c1 c2 = .ok Q) (hC : CurveFit.build c1 c2 turns = .ok C) :
    C.bearing.SameCurrents Q.bearing.toBearing Q.k2 := by
  have hsound := withFit_sound hP hQ
  have hk2 := hsound.k2_pos
  obtain ⟨h1, h2, rfl⟩ := withFit_ok.mp hQ
  obtain ⟨-, -, -, rfl⟩ := CurveFit.build_ok.mp hC
  have hbias := hP.bias_pos.ne'
  have h4 : (4.0 : ℝ) = 4 := by norm_num
  refine ⟨⟨hk2, one_pos, ?_, ?_⟩, ampsPerUnit_pos hsound, ?_⟩
  · show c1 * c1 / (4.0 * P.bias * P.bias * c2) * (2.0 * P.bias * c2 / c1) ^ 2 = 1 * c2
    rw [Exact.two_eq, h4]
    field_simp
    ring
  · show 2.0 * P.bias * (c1 * c1 / (4.0 * P.bias * P.bias * c2)) * (2.0 * P.bias * c2 / c1) = 1 * c1
    rw [Exact.two_eq, h4]
    field_simp
    ring
  · exact (mul_div_cancel₀ _ hk2.ne').symm

/-- A fit laid over a physical bearing is the fit alone, in units of the field that an ampere makes. All currents,
with a common mode or without, yield the same force; the exact solutions, the polished vectors and the accepted ones
correspond; so the exact solutions of a force have the same currents, and the smallest of these are the same. The roots
of the quartics correspond too. If those that are found do, in their order, a request without the saturation check is
answered with the same currents. The saturation field and the bias stay. -/
theorem withFit_is_curveFit (hP : P.Made) (h1 : 0 < c1) (h2 : 0 < c2) (ht : 0 < turns) :
    ∃ Q C, P.withFit c1 c2 = .ok Q ∧ CurveFit.build c1 c2 turns = .ok C ∧
      Q.saturationField = P.saturationField ∧ Q.bias = P.bias ∧
      (∀ i, Q.bearing.law.ofPoles (i.divEach Q.bearing.ampsPerUnit) = C.bearing.law.ofPoles (i.divEach C.bearing.ampsPerUnit) ∧
        ∀ find find', (Allocator.mk Q.bearing.toBearing find').forceFromCurrents i =
          (Allocator.mk C.bearing find).forceFromCurrents i) ∧
      (∀ s target, (Q.bearing.law.ofVector (Cx.scale Q.k2 s) = target ↔ C.bearing.law.ofVector s = target) ∧
        Q.bearing.law.refine (Cx.scale Q.k2 s) target = Cx.scale Q.k2 (C.bearing.law.refine s target) ∧
        Q.bearing.law.reproduces (Cx.scale Q.k2 s) target = C.bearing.law.reproduces s target) ∧
      (∀ target, Q.bearing.exactCurrents target = C.bearing.exactCurrents target ∧
        (∃ i ∈ C.bearing.exactCurrents target, ∀ j ∈ Q.bearing.exactCurrents target, i.norm ≤ j.norm) ∧
        ∀ form root, (Q.bearing.law.quartic form target.re target.im).eval (Q.k2 * root) = 0 ↔
          (C.bearing.law.quartic form target.re target.im).eval root = 0) ∧
      ∀ find find' direction magnitude,
        Allocator.RootsScale ⟨C.bearing, find⟩ ⟨Q.bearing.toBearing, find'⟩ Q.k2 (Allocator.target direction magnitude)
          (Allocator.target direction magnitude) →
        ∀ sols, (Allocator.mk C.bearing find).solve direction magnitude = .ok sols →
          (Allocator.mk Q.bearing.toBearing find').solve direction magnitude =
              .ok ⟨sols.formulation, sols.vectors.map (Cx.scale Q.k2)⟩ ∧
            (Allocator.mk Q.bearing.toBearing find').controlCurrents direction magnitude .amps false =
              (Allocator.mk C.bearing find).controlCurrents direction magnitude .amps false := by
  obtain ⟨Q, hQ⟩ := withFit_isOk P h1 h2
  have hC : CurveFit.build c1 c2 turns = .ok ⟨c1, c2, turns⟩ := CurveFit.build_ok.mpr ⟨h1, h2, ht, rfl⟩
  have h := overlay_sameCurrents hP.sound hQ hC
  have hkeep : Q.saturationField = P.saturationField ∧ Q.bias = P.bias := by
    obtain ⟨-, -, rfl⟩ := withFit_ok.mp hQ
    exact ⟨rfl, rfl⟩
  refine ⟨Q, ⟨c1, c2, turns⟩, hQ, hC, hkeep.1, hkeep.2, ?_, ?_, ?_, ?_⟩
  · intro i
    refine ⟨h.ofPoles_currents_eq i, fun find find' => ?_⟩
    unfold Allocator.forceFromCurrents Allocator.force ForceLaw.force
    rw [h.ofPoles_currents_eq]
  · intro s target
    exact ⟨h.solution_iff s target, h.refine_eq s target, h.reproduces_eq s target⟩
  · intro target
    have ha : 0 < (CurveFit.bearing ⟨c1, c2, turns⟩).law.quadratic := h2
    have hb : 0 < (CurveFit.bearing ⟨c1, c2, turns⟩).law.linear := h1
    refine ⟨h.exactCurrents_eq target, ?_, fun form root => h.root_iff ha.ne' form target root⟩
    obtain ⟨s, hs, hleast⟩ := ForceLaw.exists_least_solution ha hb target
      fun s => (s.toPoles.scale (CurveFit.bearing ⟨c1, c2, turns⟩).ampsPerUnit).norm
    refine ⟨_, ⟨s, hs, rfl⟩, ?_⟩
    rw [h.exactCurrents_eq]
    rintro _ ⟨t, ht, rfl⟩
    exact hleast t ht
  · intro find find' direction magnitude hroots sols hs
    exact ⟨h.solve_eq hroots hs, h.controlCurrents_eq hroots hs⟩

/-- On the prototype with the fit `3 S(I²) + 2 S(I)`: 8 newtons along the axis by 2 amperes, and the same currents for
finders that know the root. -/
theorem withFit_is_curveFit_along_axis : ∃ (Q : Physical ℝ) (C : CurveFit ℝ),
    (Geometry.prototype : Geometry ℝ).derive.withFit 2.0 3.0 = .ok Q ∧ CurveFit.build 2.0 3.0 1 = .ok C ∧
      Q.bearing.law.ofVector (Cx.scale Q.k2 ⟨2, 0⟩) = ⟨8, 0⟩ ∧
      ∃ i, (Allocator.mk C.bearing Allocator.alongAxis.find).controlCurrents 0 8 .amps false = .ok i ∧
        (Allocator.mk Q.bearing.toBearing fun _ => .ok [⟨Q.k2 * 2, 0⟩]).controlCurrents 0 8 .amps false = .ok i := by
  have hmade : (Geometry.prototype : Geometry ℝ).derive.Made := .build (build_of_valid Geometry.prototype_valid)
  obtain ⟨Q, C, hQ, hC, -, -, -, hsolutions, -, hrequest⟩ := withFit_is_curveFit hmade
    (by norm_num : (0 : ℝ) < 2.0) (by norm_num : (0 : ℝ) < 3.0) one_pos
  have hbearing : Allocator.mk C.bearing Allocator.alongAxis.find = Allocator.alongAxis := by
    obtain ⟨-, -, -, rfl⟩ := CurveFit.build_ok.mp hC
    show Allocator.mk ⟨⟨3.0, 2.0⟩, 1.0, 1, 0.0, fun _ => false⟩ _ = _
    rw [Exact.one_eq, Exact.zero_eq]
    rfl
  have hk2 : 1 ≤ Q.k2 := by
    obtain ⟨-, -, rfl⟩ := withFit_ok.mp hQ
    show 1 ≤ 2.0 * ((Geometry.prototype : Geometry ℝ).biasFraction * 1.16) * 3.0 / 2.0
    have := Geometry.half_le_prototype_biasFraction
    norm_num
    linarith
  have hroots : Allocator.RootsScale ⟨C.bearing, Allocator.alongAxis.find⟩ ⟨Q.bearing.toBearing, fun _ => .ok [⟨Q.k2 * 2, 0⟩]⟩
      Q.k2 (Allocator.target 0 8) (Allocator.target 0 8) := by
    intro form roots hr
    rw [Allocator.alongAxis_roots] at hr
    cases hr
    refine ⟨Quartic.realRoots_known _ _, fun _ root hmem => ?_⟩
    rw [List.mem_singleton.mp hmem, Quartic.zeroTolerance_eq, abs_of_pos (by positivity), abs_of_pos two_pos]
    exact iff_of_false (by linarith) (by norm_num)
  refine ⟨Q, C, hQ, hC, ?_, ?_⟩
  · refine (hsolutions ⟨2, 0⟩ ⟨8, 0⟩).1.mpr ?_
    obtain ⟨-, -, -, rfl⟩ := CurveFit.build_ok.mp hC
    rw [ForceLaw.ofVector_eq_iff]
    norm_num [CurveFit.bearing]
  · obtain ⟨sols, hs, k, hmem, -⟩ := Allocator.alongAxis_solve
    rw [← hbearing] at hs
    obtain ⟨i, hi⟩ := Allocator.controlCurrents_isOk hs hmem (Allocator.eligible_unchecked k)
    exact ⟨i, hi, (hrequest _ _ 0 8 hroots sols hs).2.trans hi⟩

end Physical

end MagneticBearing
