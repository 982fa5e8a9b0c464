/-
  MagneticBearing.Proofs.Headroom — the excitations that leave a bearing unsaturated.

  More of an excitation is not more field on every pole: against the bias the field of a pole first falls, and
  rises only once it has turned. But the peak field is a largest magnitude, so of a mixture of two excitations it
  is no more than the mixture of theirs (`peakField_mix_le`). The bias alone stays below the saturation field
  (`unsaturated_zero`), and every smaller share of an excitation is a mixture of it with none at all
  (`scale_eq_mix`).

  - `unsaturated_convex`: so the unsaturated excitations are a convex set around zero. Scaled up, an excitation
    leaves it once, before its largest entry exceeds the saturation field and the bias together, and does not come
    back.
-/

import MagneticBearing.Proofs.Physical

namespace MagneticBearing

namespace Poles

/-- A share `t` of the first and the rest of the second, pole by pole. -/
noncomputable def mix (t : ℝ) (x y : Poles ℝ) : Poles ℝ :=
  ⟨t * x.p1 + (1 - t) * y.p1, t * x.p2 + (1 - t) * y.p2, t * x.p3 + (1 - t) * y.p3⟩

variable {x y : Poles ℝ} {s t : ℝ}

theorem peak_mix_le (h0 : 0 ≤ t) (h1 : t ≤ 1) : (mix t x y).peak ≤ t * x.peak + (1 - t) * y.peak := by
  obtain ⟨hx1, hx2, hx3⟩ := peak_le_iff.mp (le_refl x.peak)
  obtain ⟨hy1, hy2, hy3⟩ := peak_le_iff.mp (le_refl y.peak)
  have step {u v : ℝ} (hu : |u| ≤ x.peak) (hv : |v| ≤ y.peak) :
      |t * u + (1 - t) * v| ≤ t * x.peak + (1 - t) * y.peak :=
    calc |t * u + (1 - t) * v| ≤ |t * u| + |(1 - t) * v| := abs_add_le _ _
      _ = t * |u| + (1 - t) * |v| := by rw [abs_mul, abs_mul, abs_of_nonneg h0, abs_of_nonneg (sub_nonneg.mpr h1)]
      _ ≤ t * x.peak + (1 - t) * y.peak := by gcongr
  exact peak_le_iff.mpr ⟨step hx1 hy1, step hx2 hy2, step hx3 hy3⟩

/-- What is added to every pole is added to the mixture. -/
theorem mix_addEach (c : ℝ) : (mix t x y).addEach c = mix t (x.addEach c) (y.addEach c) := by
  simp only [mix, addEach, map, mk.injEq]
  refine ⟨by ring, by ring, by ring⟩

/-- A smaller share of an excitation is a mixture of it with none. -/
theorem scale_eq_mix (x : Poles ℝ) (ht : t ≠ 0) : x.scale s = mix (s / t) (x.scale t) ⟨0, 0, 0⟩ := by
  have e (u : ℝ) : u * s = s / t * (u * t) + (1 - s / t) * 0 := by
    field_simp
    ring
  simp only [mix, scale, map, mk.injEq]
  exact ⟨e _, e _, e _⟩

theorem peak_pos (hx : x ≠ ⟨0, 0, 0⟩) : 0 < x.peak := by
  by_contra h
  obtain ⟨h1, h2, h3⟩ := peak_le_iff.mp (not_lt.mp h)
  obtain ⟨x1, x2, x3⟩ := x
  obtain rfl : x1 = 0 := abs_nonpos_iff.mp h1
  obtain rfl : x2 = 0 := abs_nonpos_iff.mp h2
  obtain rfl : x3 = 0 := abs_nonpos_iff.mp h3
  exact hx rfl

/-- What is added to every pole hides no more of the peak than itself. -/
theorem le_peak_addEach (x : Poles ℝ) (c : ℝ) : x.peak ≤ (x.addEach c).peak + |c| := by
  have h := peak_addEach_le (x.addEach c) (-c)
  have e : (x.addEach c).addEach (-c) = x := by
    obtain ⟨x1, x2, x3⟩ := x
    simp [addEach, map]
  rwa [e, abs_neg] at h

end Poles

theorem RatedBearing.peakField_mix_le (b : RatedBearing ℝ) {e e' : Poles ℝ} {t : ℝ} (h0 : 0 ≤ t) (h1 : t ≤ 1) :
    b.peakField (Poles.mix t e e') ≤ t * b.peakField e + (1 - t) * b.peakField e' := by
  unfold RatedBearing.peakField
  rw [Poles.mix_addEach]
  exact Poles.peak_mix_le h0 h1

namespace Physical

variable {b : Physical ℝ} {e e' : Poles ℝ} {s t : ℝ}

theorem unsaturated_mix (h0 : 0 ≤ t) (h1 : t ≤ 1) (he : b.bearing.saturated e = false)
    (he' : b.bearing.saturated e' = false) : b.bearing.saturated (Poles.mix t e e') = false := by
  rw [unsaturated_iff_peakField] at he he' ⊢
  calc b.bearing.peakField (Poles.mix t e e')
      ≤ t * b.bearing.peakField e + (1 - t) * b.bearing.peakField e' := b.bearing.peakField_mix_le h0 h1
    _ ≤ t * b.saturationField + (1 - t) * b.saturationField := by gcongr
    _ = b.saturationField := by ring

/-- What is out of saturation was so all the way up from zero. -/
theorem unsaturated_scale (hb : b.Sound) (hs : 0 ≤ s) (hst : s ≤ t) (h : b.bearing.saturated (e.scale t) = false) :
    b.bearing.saturated (e.scale s) = false := by
  by_cases ht : t = 0
  · rw [le_antisymm (hst.trans_eq ht) hs, ← ht]
    exact h
  · have hpos : 0 < t := lt_of_le_of_ne (hs.trans hst) (Ne.symm ht)
    rw [Poles.scale_eq_mix e ht]
    exact unsaturated_mix (by positivity) ((div_le_one hpos).mpr hst) h (unsaturated_zero hb)

/-- A pole whose excitation exceeds the saturation field and the bias is saturated whichever way its field goes. -/
theorem saturated_of_far (hb : b.Sound) (h : b.saturationField + b.bias < e.peak) : b.bearing.saturated e = true := by
  by_contra hsat
  have hle : b.bearing.peakField e ≤ b.saturationField := unsaturated_iff_peakField.mp (Bool.not_eq_true _ ▸ hsat)
  have hpeak : e.peak ≤ b.bearing.peakField e + |b.bias| := Poles.le_peak_addEach e b.bias
  rw [abs_of_pos hb.bias_pos] at hpeak
  linarith

/-- The unsaturated excitations of a bearing known by its geometry, with a fit laid over it or not, are a convex set
with zero in it. So where an excitation saturates more of it does too, and all that is not zero does in the end. -/
theorem unsaturated_convex (hb : b.Made) :
    b.bearing.saturated ⟨0, 0, 0⟩ = false ∧
    (∀ (e e' : Poles ℝ) (t : ℝ), 0 ≤ t → t ≤ 1 → b.bearing.saturated e = false → b.bearing.saturated e' = false →
      b.bearing.saturated (Poles.mix t e e') = false) ∧
    (∀ (e : Poles ℝ) (s t : ℝ), 0 < s → s ≤ t → b.bearing.saturated (e.scale s) = true →
      b.bearing.saturated (e.scale t) = true) ∧
    ∀ (e : Poles ℝ) (t : ℝ), e ≠ ⟨0, 0, 0⟩ → (b.bearing.limit + b.bearing.bias) / max (max |e.p1| |e.p2|) |e.p3| < |t| →
      b.bearing.saturated (e.scale t) = true := by
  have hsound := hb.sound
  refine ⟨unsaturated_zero hsound, fun e e' t h0 h1 => unsaturated_mix h0 h1, fun e s t hs hst h => ?_, fun e t he h => ?_⟩
  · by_contra hsat
    rw [unsaturated_scale hsound hs.le hst (Bool.not_eq_true _ ▸ hsat)] at h
    cases h
  · rw [← Poles.peak_eq, div_lt_iff₀ (Poles.peak_pos he)] at h
    apply saturated_of_far hsound
    rw [Poles.peak_scale]
    exact h

/-- The prototype, pole one against the bias: as it stands, mixed with its mirror image, and too much of it. -/
theorem unsaturated_convex_prototype : ∃ b : Physical ℝ, Physical.build Geometry.prototype = .ok b ∧
    let e : Poles ℝ := ⟨-1, 0, 1 / 4⟩
    let e' : Poles ℝ := ⟨1 / 4, 0, -1⟩
    b.bearing.saturated e = false ∧ b.bearing.saturated e' = false ∧
      b.bearing.saturated (Poles.mix (1 / 2) e e') = false ∧ b.bearing.saturated (e.scale 2) = true ∧
      b.bearing.saturated (e.scale 3) = true ∧ b.bearing.saturated (e.scale (-4)) = true := by
  have hbuild : Physical.build Geometry.prototype = .ok (Geometry.prototype : Geometry ℝ).derive :=
    build_of_valid Geometry.prototype_valid
  refine ⟨_, hbuild, ?_⟩
  intro e e'
  generalize hb : (Geometry.prototype : Geometry ℝ).derive = b at hbuild
  obtain ⟨-, hmix, hmono, hfar⟩ := unsaturated_convex (.build hbuild)
  have hfield : b.saturationField = 1.16 := by
    rw [← hb]
    rfl
  have hbias : b.bias = b.biasFraction * 1.16 := by
    rw [← hfield]
    exact (build_sound hbuild).bias_eq
  have hlow : 1 / 2 ≤ b.biasFraction := hb ▸ Geometry.half_le_prototype_biasFraction
  have hhigh : b.biasFraction ≤ 2 / 3 := hb ▸ Geometry.prototype_biasFraction.2
  have hone : |-1 + b.bias| ≤ b.saturationField := by
    rw [hbias, hfield, abs_le]
    constructor <;> linarith
  have hthree : |1 / 4 + b.bias| ≤ b.saturationField := by
    rw [hbias, hfield, abs_le]
    constructor <;> linarith
  have hnone : |0 + b.bias| ≤ b.saturationField := by
    rw [hbias, hfield, abs_le]
    constructor <;> linarith
  have he : b.bearing.saturated e = false := unsaturated_iff.mpr ⟨hone, hnone, hthree⟩
  have he' : b.bearing.saturated e' = false := unsaturated_iff.mpr ⟨hthree, hnone, hone⟩
  have htwice : b.bearing.saturated (e.scale 2) = true := by
    by_contra hsat
    have hle : |-1 * 2 + b.bias| ≤ b.saturationField := (unsaturated_iff.mp (Bool.not_eq_true _ ▸ hsat)).1
    rw [hbias, hfield, abs_le] at hle
    linarith
  refine ⟨he, he', hmix e e' _ (by norm_num) (by norm_num) he he', htwice,
    hmono e _ _ (by norm_num) (by norm_num) htwice, hfar e _ ?_ ?_⟩
  · intro h0
    have h1 : (-1 : ℝ) = 0 := congrArg Poles.p1 h0
    norm_num at h1
  · have hpeak : max (max |e.p1| |e.p2|) |e.p3| = 1 := by
      show max (max |(-1 : ℝ)| |0|) |1 / 4| = 1
      norm_num
    have hlimit : b.bearing.limit + b.bearing.bias = b.saturationField + b.bias := rfl
    rw [hpeak, hlimit, hbias, hfield, abs_neg, abs_of_pos four_pos]
    linarith

end Physical

end MagneticBearing
