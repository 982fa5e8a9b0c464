/-
  MagneticBearing.Proofs.Balanced — sets of three that sum to zero, and the space vectors that encode them.

  Encoding forgets the mean of the three quantities and nothing else: decoded again they are what they were, less
  their mean (`toPoles_ofPoles`). So space vectors stand for the sets with sum zero, one for one.

  Such a set is three samples of one cosine, a third of a turn apart: the angle of its space vector is where the
  cosine is largest, and two thirds of the norm is how large it is (`toPoles_wave`). No sample exceeds that peak, and as
  they balance the largest of them is at least half of it (`norm_le_largest`).

  - `transform_pair`: all of this. The norm of the poles is a fixed multiple of that of the space vector, so selecting
    among poles is selecting among space vectors.
-/

import MagneticBearing.Allocation
import MagneticBearing.Proofs.Poles
import MagneticBearing.Proofs.Selection

namespace MagneticBearing

namespace Poles

noncomputable def mean (x : Poles ℝ) : ℝ := (x.p1 + x.p2 + x.p3) / 3.0

/-- A cosine sampled at three poles a third of a turn apart; its largest value `peak` is at `angle`. -/
noncomputable def wave (angle peak : ℝ) : Poles ℝ :=
  let sample (pole : ℕ) : ℝ := peak * Real.cos (angle - 2.0 * Real.pi * pole / 3.0)
  ⟨sample 0, sample 1, sample 2⟩

theorem wave_eq (angle peak : ℝ) : wave angle peak = ⟨peak * Real.cos angle,
    peak * Real.cos (angle - (Real.pi - Real.pi / 3)), peak * Real.cos (angle - (Real.pi / 3 + Real.pi))⟩ := by
  have h0 : angle - 2.0 * Real.pi * (0 : ℕ) / 3.0 = angle := by simp
  have h1 : angle - 2.0 * Real.pi * (1 : ℕ) / 3.0 = angle - (Real.pi - Real.pi / 3) := by
    simp only [Exact.decimal]
    push_cast
    ring
  have h2 : angle - 2.0 * Real.pi * (2 : ℕ) / 3.0 = angle - (Real.pi / 3 + Real.pi) := by
    simp only [Exact.decimal]
    push_cast
    ring
  unfold wave
  simp only [h0, h1, h2]

end Poles

namespace SpaceVector

theorem toPoles_ofPoles (x : Poles ℝ) : toPoles (ofPoles x) = x.map (· - x.mean) := by
  have h3 : √3 ≠ (0 : ℝ) := by positivity
  have hy : √3 / 2 * (x.p2 - x.p3) / √3 = (x.p2 - x.p3) / 2 := by field_simp
  rw [toPoles_eq, ofPoles_eq]
  simp only [hy, Poles.map, Poles.mean, Exact.three_eq, Poles.mk.injEq]
  refine ⟨by ring, by ring, by ring⟩

theorem toPoles_ofPoles_of_sum_zero {x : Poles ℝ} (h : x.p1 + x.p2 + x.p3 = 0) : toPoles (ofPoles x) = x := by
  have hmean : x.mean = 0 := by rw [Poles.mean, h, zero_div]
  rw [toPoles_ofPoles, hmean]
  simp only [sub_zero]
  rfl

/-! ## Samples of a cosine -/

theorem norm_mul_cos_sub (z : ℂ) (angle : ℝ) :
    ‖z‖ * Real.cos (z.arg - angle) = z.re * Real.cos angle + z.im * Real.sin angle := by
  rw [Real.cos_sub, mul_add, ← mul_assoc, ← mul_assoc, Complex.norm_mul_cos_arg, Complex.norm_mul_sin_arg]

theorem toPoles_wave (s : SpaceVector ℝ) : toPoles s = Poles.wave s.toComplex.arg (2 / 3 * ‖s.toComplex‖) := by
  have h3 : √3 * √3 = (3 : ℝ) := Real.mul_self_sqrt (by norm_num)
  have hy : s.im / √3 = √3 / 3 * s.im := by
    have hne : √3 ≠ (0 : ℝ) := by positivity
    field_simp
    linear_combination (-s.im) * h3
  rw [Poles.wave_eq, toPoles_eq]
  simp only [mul_assoc, norm_mul_cos_sub, Complex.norm_mul_cos_arg, Real.cos_pi_sub, Real.sin_pi_sub, Real.cos_add_pi,
    Real.sin_add_pi, Real.cos_pi_div_three, Real.sin_pi_div_three, Cx.toComplex_re, Cx.toComplex_im, hy, Poles.mk.injEq]
  refine ⟨trivial, by ring, by ring⟩

theorem angleAndPeak_eq (x : Poles ℝ) :
    angleAndPeak x = ((ofPoles x).toComplex.arg, 2 / 3 * ‖(ofPoles x).toComplex‖) := by
  show ((ofPoles x).arg, 2.0 / 3.0 * (ofPoles x).norm) = _
  rw [Cx.norm_eq, Cx.arg_eq, Exact.two_eq, Exact.three_eq]

theorem norm_le_largest (s : SpaceVector ℝ) :
    ‖s.toComplex‖ / 3 ≤ max (max (toPoles s).p1 (toPoles s).p2) (toPoles s).p3 := by
  have h12 := le_max_left (max (toPoles s).p1 (toPoles s).p2) (toPoles s).p3
  have hle := norm_le_of_toPoles_le ((le_max_left _ _).trans h12) ((le_max_right _ _).trans h12) (le_max_right _ _)
  linarith

/-! ## Selecting -/

theorem leastNorm_toPoles (candidates : List (SpaceVector ℝ)) :
    leastNorm (candidates.map toPoles) = (Scalar.leastBy Cx.norm candidates).map toPoles := by
  rw [leastNorm, Scalar.leastBy_map]
  congr 1
  refine Scalar.leastBy_congr (fun s t => ?_) candidates
  rw [Cx.norm_eq, Cx.norm_eq]
  exact decide_eq_decide.mpr (toPoles_norm_le_iff s t)

/-- Encoding and decoding are a pair. Decoding what was encoded takes off the mean; encoding what was decoded gives the
space vector back. What a space vector decodes to sums to zero, has a fixed multiple of its norm, no entry beyond two
thirds of it, and a largest entry of at least one third. Angle and peak of a set with sum zero are those of the cosine
that the set samples. And the order by the norm of the poles is the order by the norm of the space vector, so the
candidate selected by either is the same. -/
theorem transform_pair :
    (∀ x : Poles ℝ, (ofPoles x).toPoles = x.map (· - x.mean)) ∧
    (∀ s : SpaceVector ℝ, ofPoles s.toPoles = s ∧ s.toPoles.p1 + s.toPoles.p2 + s.toPoles.p3 = 0 ∧
      s.toPoles.normSq = 2 / 3 * ‖s.toComplex‖ ^ 2 ∧
      max (max |s.toPoles.p1| |s.toPoles.p2|) |s.toPoles.p3| ≤ 2 / 3 * ‖s.toComplex‖ ∧
      ‖s.toComplex‖ / 3 ≤ max (max s.toPoles.p1 s.toPoles.p2) s.toPoles.p3) ∧
    (∀ x : Poles ℝ, (angleAndPeak x).1 ∈ Set.Ioc (-Real.pi) Real.pi ∧ 0 ≤ (angleAndPeak x).2 ∧
      (x.p1 + x.p2 + x.p3 = 0 → x = Poles.wave (angleAndPeak x).1 (angleAndPeak x).2)) ∧
    (∀ s t : SpaceVector ℝ, s.toPoles.norm ≤ t.toPoles.norm ↔ ‖s.toComplex‖ ≤ ‖t.toComplex‖) ∧
    ∀ candidates : List (SpaceVector ℝ),
      leastNorm (candidates.map toPoles) = (Scalar.leastBy Cx.norm candidates).map toPoles := by
  refine ⟨toPoles_ofPoles, fun s => ?_, fun x => ?_, toPoles_norm_le_iff, leastNorm_toPoles⟩
  · have hpeak := Poles.peak_le_iff.mpr (abs_toPoles_le s)
    rw [Poles.peak_eq] at hpeak
    exact ⟨ofPoles_toPoles s, toPoles_sum s, toPoles_normSq s, hpeak, norm_le_largest s⟩
  · rw [angleAndPeak_eq, ← toPoles_wave]
    exact ⟨Complex.arg_mem_Ioc _, by positivity, fun hx => (toPoles_ofPoles_of_sum_zero hx).symm⟩

/-- Three poles at 2, 3 and 1: less their mean of 2 they are a cosine that is largest a quarter of a turn on. -/
theorem transform_pair_offset :
    (ofPoles (⟨2, 3, 1⟩ : Poles ℝ)).toPoles = ⟨0, 1, -1⟩ ∧ (0 : ℝ) + 1 + -1 = 0 ∧
      (⟨0, 1, -1⟩ : Poles ℝ) = Poles.wave (Real.pi / 2) (2 / √3) := by
  obtain ⟨hback, -, hwave, -⟩ := transform_pair
  have hmean : (⟨2, 3, 1⟩ : Poles ℝ).mean = 2 := by norm_num [Poles.mean]
  have hsum : (0 : ℝ) + 1 + -1 = 0 := by norm_num
  have hvector : (ofPoles (⟨0, 1, -1⟩ : Poles ℝ)).toComplex = √3 * Complex.I := by
    rw [ofPoles_eq, Cx.toComplex_mk]
    apply Complex.ext
    · simp
    · norm_num
  have hpair : angleAndPeak (⟨0, 1, -1⟩ : Poles ℝ) = (Real.pi / 2, 2 / √3) := by
    have h3 : √3 * √3 = (3 : ℝ) := Real.mul_self_sqrt (by norm_num)
    have hpos : 0 < √(3 : ℝ) := by positivity
    have hpeak : 2 / 3 * √3 = 2 / √3 := by
      field_simp
      linear_combination h3
    rw [angleAndPeak_eq, hvector, Complex.arg_real_mul _ hpos, Complex.arg_I, norm_mul, Complex.norm_I, mul_one,
      Complex.norm_real, Real.norm_of_nonneg hpos.le, hpeak]
  refine ⟨?_, hsum, ?_⟩
  · rw [hback, hmean]
    norm_num [Poles.map]
  · obtain ⟨-, -, h⟩ := hwave ⟨0, 1, -1⟩
    rw [hpair] at h
    exact h hsum

end SpaceVector

end MagneticBearing
