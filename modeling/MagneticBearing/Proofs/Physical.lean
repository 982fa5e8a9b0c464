/-
  MagneticBearing.Proofs.Physical — bearings that were built, and the field in their poles.

  Whatever is built, with a fit laid over it or not, has positive constants and a bias strictly between
  zero and the saturation field (`Made.sound`). Its force is `k1` times the space vector of the squared
  total fields (`ofPoles_fields`).

  - `norm_force_le`: as long as no field exceeds the saturation field, the squares lie in an interval,
    and their spread bounds the force by `k1 · saturationField²`.
  - `hexagonBound_attained`: with one pole saturated and the others without field the force is that.
  - `norm_le_of_unsaturated`: the fields themselves spread over twice the saturation field.
-/

import MagneticBearing.Bearing.Physical
import MagneticBearing.Proofs.ForceMap

namespace MagneticBearing

/-! ## Building -/

theorem except_bind_ok {ε α β : Type} {x : Except ε α} {f : α → Except ε β} {r : β} :
    (x >>= f) = .ok r ↔ ∃ a, x = .ok a ∧ f a = .ok r := by
  cases x with
  | error e =>
    constructor
    · intro h
      cases h
    · rintro ⟨a, h, -⟩
      cases h
  | ok a =>
    constructor
    · intro h
      exact ⟨a, rfl, h⟩
    · rintro ⟨a', h, h'⟩
      cases h
      exact h'

theorem requirePositive_ok {p : Parameter} {x : ℝ} {u : Unit} : requirePositive p x = .ok u ↔ 0 < x := by
  have hf : Arith.finite x = true := rfl
  simp only [requirePositive, hf, Bool.true_and, Exact.zero_eq]
  by_cases h : 0 < x
  · simp [h]
  · simp [h]

namespace Geometry

/-- What a geometry must satisfy. -/
structure Valid (g : Geometry ℝ) : Prop where
  saturationField_pos : 0 < g.saturationField
  airgap_pos : 0 < g.airgap
  rotorRadius_pos : 0 < g.rotorRadius
  laminationLength_pos : 0 < g.laminationLength
  turns_pos : 0 < g.turns
  biasFraction_mem : 0 < g.biasFraction ∧ g.biasFraction < 1
  poleSpan_mem : 0 < g.poleSpan ∧ g.poleSpan < 120

theorem valid_of_check {g : Geometry ℝ} {u : Unit} (h : g.check = .ok u) : g.Valid := by
  have h120 : (120.0 : ℝ) = 120 := by norm_num
  unfold check at h
  simp only [except_bind_ok, requirePositive_ok, Exact.zero_eq, Exact.one_eq, h120] at h
  obtain ⟨-, h1, -, h2, -, h3, -, h4, -, h5, h⟩ := h
  split at h
  · cases h
  rename_i hz
  split at h
  · cases h
  rename_i hspan
  simp only [Bool.not_eq_true', Bool.not_eq_false, Bool.and_eq_true, decide_eq_true_eq] at hz hspan
  exact ⟨h1, h2, h3, h4, h5, hz, hspan⟩

theorem check_of_valid {g : Geometry ℝ} (h : g.Valid) : g.check = .ok () := by
  have h120 : (120.0 : ℝ) = 120 := by norm_num
  unfold check
  have hp {p : Parameter} {x : ℝ} (hx : 0 < x) : requirePositive p x = .ok () := requirePositive_ok.mpr hx
  rw [hp h.saturationField_pos, hp h.airgap_pos, hp h.rotorRadius_pos, hp h.laminationLength_pos, hp h.turns_pos]
  simp only [bind, Except.bind, Exact.zero_eq, Exact.one_eq, h120, h.biasFraction_mem, h.poleSpan_mem, decide_true,
    Bool.and_self, Bool.not_true, Bool.false_eq_true, if_false]
  rfl

theorem prototype_biasFraction_eq : (prototype : Geometry ℝ).biasFraction = (1 + 1 / √2) / 3 := by
  show ((1.0 + 1.0 / √2.0) / 3.0 : ℝ) = _
  rw [Exact.one_eq, Exact.two_eq, Exact.three_eq]

/-- The bias of the prototype is a little over half of its saturation field. -/
theorem prototype_biasFraction : 0 < (prototype : Geometry ℝ).biasFraction ∧
    (prototype : Geometry ℝ).biasFraction ≤ 2 / 3 := by
  have h2 : 1 ≤ √(2 : ℝ) := Real.one_le_sqrt.mpr (by norm_num)
  have hle : 1 / √(2 : ℝ) ≤ 1 := (div_le_one (by positivity)).mpr h2
  rw [prototype_biasFraction_eq]
  refine ⟨by positivity, by linarith⟩

theorem half_le_prototype_biasFraction : 1 / 2 ≤ (prototype : Geometry ℝ).biasFraction := by
  have h2 : √(2 : ℝ) ≤ 2 := Real.sqrt_le_iff.mpr ⟨by norm_num, by norm_num⟩
  have hle : 1 / 2 ≤ 1 / √(2 : ℝ) := one_div_le_one_div_of_le (by positivity) h2
  rw [prototype_biasFraction_eq]
  linarith

theorem prototype_valid : (prototype : Geometry ℝ).Valid := by
  obtain ⟨hz, hz'⟩ := prototype_biasFraction
  refine ⟨?_, ?_, ?_, ?_, ?_, ⟨hz, by linarith⟩, ?_⟩
  · show (0 : ℝ) < 1.16
    norm_num
  · show (0 : ℝ) < 0.001
    norm_num
  · show (0 : ℝ) < 0.0401
    norm_num
  · show (0 : ℝ) < 0.0165
    norm_num
  · show (0 : ℝ) < 1000.0
    norm_num
  · show (0 : ℝ) < 110.0 ∧ (110.0 : ℝ) < 120
    norm_num

end Geometry

theorem permeability_pos : (0 : ℝ) < permeability := by
  show (0 : ℝ) < Real.pi * 4e-7
  have := Real.pi_pos
  positivity

namespace Physical

/-- Built from a geometry, with any number of fits laid over it. -/
inductive Made : Physical ℝ → Prop
  | build {g : Geometry ℝ} {b : Physical ℝ} (h : Physical.build g = .ok b) : Made b
  | withFit {b b' : Physical ℝ} {c1 c2 : ℝ} (hb : Made b) (h : b.withFit c1 c2 = .ok b') : Made b'

structure Sound (b : Physical ℝ) : Prop where
  saturationField_pos : 0 < b.saturationField
  biasFraction_pos : 0 < b.biasFraction
  biasFraction_lt : b.biasFraction < 1
  bias_eq : b.bias = b.biasFraction * b.saturationField
  k1_pos : 0 < b.k1
  k2_pos : 0 < b.k2
  turns_pos : 0 < b.turns

theorem Sound.bias_pos {b : Physical ℝ} (h : b.Sound) : 0 < b.bias := by
  rw [h.bias_eq]
  exact mul_pos h.biasFraction_pos h.saturationField_pos

theorem Sound.bias_lt {b : Physical ℝ} (h : b.Sound) : b.bias < b.saturationField := by
  rw [h.bias_eq]
  exact mul_lt_of_lt_one_left h.saturationField_pos h.biasFraction_lt

theorem Sound.linear_pos {b : Physical ℝ} (h : b.Sound) : 0 < b.bearing.law.linear := by
  show 0 < 2.0 * b.bias * b.k1
  have h1 := h.bias_pos
  have h2 := h.k1_pos
  positivity

end Physical

/-- Half the span of a tooth is well inside half a turn, so the tooth correction is positive. -/
theorem Geometry.Valid.sound {g : Geometry ℝ} (h : g.Valid) : g.derive.Sound := by
  have hpi := Real.pi_pos
  have hmu := permeability_pos
  have hspan : 0 < Direction.toRadians g.poleSpan := by
    show 0 < g.poleSpan * (Real.pi / 180.0)
    have := h.poleSpan_mem.1
    positivity
  have hhalf : Direction.toRadians g.poleSpan / 2.0 < Real.pi := by
    show g.poleSpan * (Real.pi / 180.0) / 2.0 < Real.pi
    have h180 : (180.0 : ℝ) = 180 := by norm_num
    rw [h180, Exact.two_eq]
    have := mul_lt_mul_of_pos_right h.poleSpan_mem.2 hpi
    linarith
  have hsin : 0 < Scalar.sin (Direction.toRadians g.poleSpan / 2.0) :=
    Real.sin_pos_of_pos_of_lt_pi (by positivity) hhalf
  obtain ⟨hB, hgap, hR, hL, hN, hz, -⟩ := h
  refine ⟨hB, hz.1, hz.2, rfl, ?_, ?_, hN⟩
  · unfold derive
    positivity
  · unfold derive
    positivity

namespace Physical

theorem valid_of_build {g : Geometry ℝ} {b : Physical ℝ} (h : Physical.build g = .ok b) : g.Valid ∧ g.derive = b := by
  unfold Physical.build at h
  obtain ⟨u, hc, h⟩ := except_bind_ok.mp h
  cases h
  exact ⟨Geometry.valid_of_check hc, rfl⟩

theorem build_sound {g : Geometry ℝ} {b : Physical ℝ} (h : Physical.build g = .ok b) : b.Sound := by
  obtain ⟨hg, rfl⟩ := valid_of_build h
  exact hg.sound

theorem build_of_valid {g : Geometry ℝ} (h : g.Valid) : Physical.build g = .ok g.derive := by
  unfold Physical.build
  rw [Geometry.check_of_valid h]
  rfl

/-- A fit replaces the two constants and keeps the rest. -/
theorem withFit_ok {b b' : Physical ℝ} {c1 c2 : ℝ} : b.withFit c1 c2 = .ok b' ↔ 0 < c1 ∧ 0 < c2 ∧
    { b with k1 := c1 * c1 / (4.0 * b.bias * b.bias * c2), k2 := 2.0 * b.bias * c2 / c1 } = b' := by
  unfold withFit
  simp only [except_bind_ok, requirePositive_ok, pure, Except.pure, Except.ok.injEq, exists_and_left, exists_const]

theorem withFit_sound {b b' : Physical ℝ} {c1 c2 : ℝ} (hb : b.Sound) (h : b.withFit c1 c2 = .ok b') : b'.Sound := by
  obtain ⟨h1, h2, rfl⟩ := withFit_ok.mp h
  have hbias := hb.bias_pos
  exact ⟨hb.saturationField_pos, hb.biasFraction_pos, hb.biasFraction_lt, hb.bias_eq, by positivity, by positivity,
    hb.turns_pos⟩

theorem withFit_isOk (b : Physical ℝ) {c1 c2 : ℝ} (h1 : 0 < c1) (h2 : 0 < c2) : ∃ b', b.withFit c1 c2 = .ok b' :=
  ⟨_, withFit_ok.mpr ⟨h1, h2, rfl⟩⟩

/-- The share of the hexagon bound that is the bias's comes from the fit alone. -/
theorem withFit_hexagonBound {b b' : Physical ℝ} {c1 c2 : ℝ} (hb : b.Sound) (h : b.withFit c1 c2 = .ok b') :
    b'.biasFraction = b.biasFraction ∧ b.biasFraction ^ 2 * b'.bearing.hexagonBound = c1 ^ 2 / (4 * c2) := by
  have hz := hb.biasFraction_pos.ne'
  have hB := hb.saturationField_pos.ne'
  have h4 : (4.0 : ℝ) = 4 := by norm_num
  obtain ⟨h1, h2, rfl⟩ := withFit_ok.mp h
  refine ⟨rfl, ?_⟩
  show b.biasFraction ^ 2 * (c1 * c1 / (4.0 * b.bias * b.bias * c2) * b.saturationField * b.saturationField) = _
  rw [hb.bias_eq, h4]
  field_simp

theorem Made.sound {b : Physical ℝ} (h : Made b) : b.Sound := by
  induction h with
  | build h => exact build_sound h
  | withFit _ h ih => exact withFit_sound ih h

/-- The prototype takes a fit of equal parts. -/
theorem fitted_prototype : ∃ b : Physical ℝ, (Geometry.prototype : Geometry ℝ).derive.withFit 1 1 = .ok b ∧ b.Made ∧
    (1 / 2 ≤ b.biasFraction ∧ b.biasFraction ≤ 2 / 3) ∧ b.biasFraction ^ 2 * b.bearing.hexagonBound = 1 / 4 := by
  obtain ⟨b, hfit⟩ := withFit_isOk (Geometry.prototype : Geometry ℝ).derive one_pos one_pos
  obtain ⟨hz, hbound⟩ := withFit_hexagonBound Geometry.prototype_valid.sound hfit
  refine ⟨b, hfit, .withFit (.build (build_of_valid Geometry.prototype_valid)) hfit, ?_, ?_⟩
  · rw [hz]
    exact ⟨Geometry.half_le_prototype_biasFraction, Geometry.prototype_biasFraction.2⟩
  · rw [hz, hbound]
    norm_num

/-! ## Fields -/

variable {b : Physical ℝ} {e : Poles ℝ}

/-- The force in the total fields: the bias is the linear part, and its own square is a common mode. -/
theorem ofPoles_fields (b : Physical ℝ) (e : Poles ℝ) :
    b.bearing.law.ofPoles e = Cx.scale b.k1 (SpaceVector.ofPoles (e.addEach b.bias).squared) := by
  rw [← Cx.toComplex_inj]
  unfold ForceLaw.ofPoles
  simp only [SpaceVector.ofPoles_eq, Poles.squared, Poles.addEach, Poles.map, bearing, Exact.two_eq]
  apply Complex.ext
  · simp
    ring
  · simp
    ring

theorem unsaturated_iff_peakField : b.bearing.saturated e = false ↔ b.bearing.peakField e ≤ b.saturationField := by
  show decide (b.saturationField < b.bearing.peakField e) = false ↔ _
  rw [decide_eq_false_iff_not, not_lt]

theorem unsaturated_iff : b.bearing.saturated e = false ↔
    |e.p1 + b.bias| ≤ b.saturationField ∧ |e.p2 + b.bias| ≤ b.saturationField ∧ |e.p3 + b.bias| ≤ b.saturationField := by
  rw [unsaturated_iff_peakField]
  exact Poles.peak_le_iff

/-- Two thirds of the space vector's length add to the bias at most. -/
theorem peakField_le (hb : b.Sound) (s : SpaceVector ℝ) : b.bearing.peakField s.toPoles ≤ 2 / 3 * ‖s.toComplex‖ + b.bias := by
  calc b.bearing.peakField s.toPoles ≤ s.toPoles.peak + |b.bias| := Poles.peak_addEach_le _ _
    _ ≤ 2 / 3 * ‖s.toComplex‖ + b.bias := by
        rw [abs_of_pos hb.bias_pos]
        exact add_le_add_left (Poles.peak_le_iff.mpr (SpaceVector.abs_toPoles_le s)) _

/-- The bias is a fraction of the saturation field. -/
theorem unsaturated_zero (hb : b.Sound) : b.bearing.saturated ⟨0, 0, 0⟩ = false := by
  have hbias : |0 + b.bias| ≤ b.saturationField := by
    rw [zero_add, abs_of_pos hb.bias_pos]
    exact hb.bias_lt.le
  exact unsaturated_iff.mpr ⟨hbias, hbias, hbias⟩

theorem norm_force_le (hb : b.Sound) (he : b.bearing.saturated e = false) :
    ‖(b.bearing.law.ofPoles e).toComplex‖ ≤ b.bearing.hexagonBound := by
  have hsq {x : ℝ} (h : |x| ≤ b.saturationField) : 0 ≤ x * x ∧ x * x ≤ b.saturationField ^ 2 := by
    refine ⟨mul_self_nonneg x, ?_⟩
    rw [← sq]
    exact sq_le_sq' (abs_le.mp h).1 (abs_le.mp h).2
  obtain ⟨h1, h2, h3⟩ := unsaturated_iff.mp he
  have hle := SpaceVector.norm_ofPoles_le (x := (e.addEach b.bias).squared) (hsq h1) (hsq h2) (hsq h3)
  rw [ofPoles_fields, Cx.toComplex_scale, norm_mul, Complex.norm_real, Real.norm_of_nonneg hb.k1_pos.le]
  calc b.k1 * ‖(SpaceVector.ofPoles (e.addEach b.bias).squared).toComplex‖
      ≤ b.k1 * (b.saturationField ^ 2 - 0) := mul_le_mul_of_nonneg_left hle hb.k1_pos.le
    _ = b.bearing.hexagonBound := by
        show _ = b.k1 * b.saturationField * b.saturationField
        ring

/-- The field of pole one at its limit, and none in the others. -/
theorem hexagonBound_attained (hb : b.Sound) :
    ∃ e, b.bearing.saturated e = false ∧ ‖(b.bearing.law.ofPoles e).toComplex‖ = b.bearing.hexagonBound := by
  have hB := hb.saturationField_pos
  refine ⟨⟨b.saturationField - b.bias, -b.bias, -b.bias⟩, ?_, ?_⟩
  · rw [unsaturated_iff]
    simp only [sub_add_cancel, neg_add_cancel, abs_zero, abs_of_pos hB]
    exact ⟨le_refl _, hB.le, hB.le⟩
  · have hs : SpaceVector.ofPoles ((⟨b.saturationField - b.bias, -b.bias, -b.bias⟩ : Poles ℝ).addEach b.bias).squared =
        ⟨b.saturationField ^ 2, 0⟩ := by
      rw [SpaceVector.ofPoles_eq]
      simp only [Poles.squared, Poles.addEach, Poles.map, Cx.mk.injEq]
      constructor
      · ring
      · ring
    have hreal : (Cx.scale b.k1 ⟨b.saturationField ^ 2, 0⟩).toComplex = ((b.k1 * b.saturationField ^ 2 : ℝ) : ℂ) := by
      apply Complex.ext
      · rfl
      · exact mul_zero _
    have hpos := hb.k1_pos
    rw [ofPoles_fields, hs, hreal, Complex.norm_real, Real.norm_of_nonneg (by positivity)]
    show _ = b.k1 * b.saturationField * b.saturationField
    ring

/-- An unsaturated space vector is no longer than the width of the range that the fields have. -/
theorem norm_le_of_unsaturated {s : SpaceVector ℝ} (hs : b.bearing.saturated s.toPoles = false) :
    ‖s.toComplex‖ ≤ 2 * b.saturationField := by
  obtain ⟨h1, h2, h3⟩ := unsaturated_iff.mp hs
  have hle := SpaceVector.norm_ofPoles_le (x := s.toPoles.addEach b.bias) (abs_le.mp h1) (abs_le.mp h2) (abs_le.mp h3)
  rw [SpaceVector.ofPoles_addEach, SpaceVector.ofPoles_toPoles] at hle
  linarith

end Physical

end MagneticBearing
