/-
  MagneticBearing.Proofs.Poles — three poles and one complex number.

  With the rotation written out, encoding and decoding are linear in the pole quantities
  (`ofPoles_eq`, `toPoles_eq`). What a space vector decodes to has no common mode
  (`toPoles_sum`) and a norm that is a fixed multiple of the vector's (`toPoles_norm`), so
  ordering one is ordering the other.

  A common mode is lost in the encoding (`ofPoles_addEach`). What is left is the spread of the
  quantities: if they lie in an interval, its length bounds the norm (`norm_ofPoles_le`). Without a
  common mode an upper bound is enough, as each of the three is balanced by the other two
  (`norm_le_of_toPoles_le`). The peak is the largest of the three magnitudes (`peak_eq`), for a space
  vector at most two thirds of its norm (`abs_toPoles_le`).
-/

import MagneticBearing.Proofs.Exact
import MagneticBearing.SpaceVector

namespace MagneticBearing

namespace SpaceVector

theorem rotation_eq : (rotation : Cx ℝ) = ⟨-1 / 2, √3 / 2⟩ := by
  have e : (2.0 : ℝ) * Scalar.pi / 3.0 = Real.pi - Real.pi / 3 := by
    show (2.0 : ℝ) * Real.pi / 3.0 = _
    simp only [Exact.decimal]
    ring
  have hc : Scalar.cos ((2.0 : ℝ) * Scalar.pi / 3.0) = -1 / 2 := by
    rw [e]
    show Real.cos _ = _
    rw [Real.cos_pi_sub, Real.cos_pi_div_three]
    norm_num
  have hs : Scalar.sin ((2.0 : ℝ) * Scalar.pi / 3.0) = √3 / 2 := by
    rw [e]
    show Real.sin _ = _
    rw [Real.sin_pi_sub, Real.sin_pi_div_three]
  unfold rotation Cx.ofPolar
  rw [hc, hs, Exact.one_eq, one_mul, one_mul]

theorem ofPoles_eq (x : Poles ℝ) : ofPoles x = ⟨x.p1 - (x.p2 + x.p3) / 2, √3 / 2 * (x.p2 - x.p3)⟩ := by
  have h3 : √3 * √3 = (3 : ℝ) := Real.mul_self_sqrt (by norm_num)
  rw [← Cx.toComplex_inj]
  unfold ofPoles
  simp only [rotation_eq, Cx.toComplex_add, Cx.toComplex_shift, Cx.toComplex_scale, Cx.toComplex_mul, Cx.toComplex_mk]
  apply Complex.ext
  · simp
    linear_combination (-x.p3 / 4) * h3
  · simp
    ring

theorem toPoles_eq (s : SpaceVector ℝ) :
    toPoles s = ⟨2 / 3 * s.re, -(1 / 3) * s.re + s.im / √3, -(1 / 3) * s.re - s.im / √3⟩ := by
  have e : 1 / √3 * s.im = s.im / √3 := one_div_mul_eq_div _ _
  unfold toPoles
  simp only [Exact.one_eq, Exact.two_eq, Exact.three_eq]
  rw [← e]
  rfl

theorem toPoles_sum (s : SpaceVector ℝ) : (toPoles s).p1 + (toPoles s).p2 + (toPoles s).p3 = 0 := by
  rw [toPoles_eq]
  ring

theorem ofPoles_toPoles (s : SpaceVector ℝ) : ofPoles (toPoles s) = s := by
  have h3 : √3 ≠ (0 : ℝ) := by positivity
  rw [ofPoles_eq, toPoles_eq]
  obtain ⟨x, y⟩ := s
  simp only [Cx.mk.injEq]
  refine ⟨by ring, ?_⟩
  field_simp
  ring

theorem toPoles_normSq (s : SpaceVector ℝ) : (toPoles s).normSq = 2 / 3 * ‖s.toComplex‖ ^ 2 := by
  have h3 : √3 * √3 = (3 : ℝ) := Real.mul_self_sqrt (by norm_num)
  have hq : s.im / √3 * (s.im / √3) = s.im ^ 2 / 3 := by rw [div_mul_div_comm, h3, sq]
  rw [toPoles_eq, Complex.sq_norm, Complex.normSq_apply]
  show (2 / 3 * s.re) * (2 / 3 * s.re) + (-(1 / 3) * s.re + s.im / √3) * (-(1 / 3) * s.re + s.im / √3) +
    (-(1 / 3) * s.re - s.im / √3) * (-(1 / 3) * s.re - s.im / √3) = 2 / 3 * (s.re * s.re + s.im * s.im)
  linear_combination 2 * hq

theorem toPoles_norm (s : SpaceVector ℝ) : (toPoles s).norm = √(2 / 3) * ‖s.toComplex‖ := by
  show √(toPoles s).normSq = _
  rw [toPoles_normSq, Real.sqrt_mul (by norm_num), Real.sqrt_sq (norm_nonneg _)]

theorem ofPoles_addEach (x : Poles ℝ) (c : ℝ) : ofPoles (x.addEach c) = ofPoles x := by
  rw [ofPoles_eq, ofPoles_eq]
  simp only [Poles.addEach, Poles.map, Cx.mk.injEq]
  constructor
  · ring
  · ring

theorem norm_ofPoles_sq (x : Poles ℝ) : ‖(ofPoles x).toComplex‖ ^ 2 =
    ((x.p1 - x.p2) ^ 2 + (x.p2 - x.p3) ^ 2 + (x.p3 - x.p1) ^ 2) / 2 := by
  have h3 : √3 * √3 = (3 : ℝ) := Real.mul_self_sqrt (by norm_num)
  rw [Complex.sq_norm, Complex.normSq_apply, ofPoles_eq]
  show (x.p1 - (x.p2 + x.p3) / 2) * (x.p1 - (x.p2 + x.p3) / 2) +
    √3 / 2 * (x.p2 - x.p3) * (√3 / 2 * (x.p2 - x.p3)) = _
  linear_combination (x.p2 - x.p3) ^ 2 / 4 * h3

/-- Of three numbers that sum to zero two have the same sign, and the third outweighs them. -/
theorem half_sum_sq_le {u v w d : ℝ} (h : u + v + w = 0) (hu : |u| ≤ d) (hv : |v| ≤ d) (hw : |w| ≤ d) :
    (u ^ 2 + v ^ 2 + w ^ 2) / 2 ≤ d ^ 2 := by
  have step {x y z : ℝ} (h : x + y + z = 0) (hxy : 0 ≤ x * y) (hz : |z| ≤ d) :
      (x ^ 2 + y ^ 2 + z ^ 2) / 2 ≤ d ^ 2 := by
    have e : z ^ 2 = x ^ 2 + y ^ 2 + 2 * (x * y) := by
      rw [eq_neg_of_add_eq_zero_right h]
      ring
    have hd : z ^ 2 ≤ d ^ 2 := sq_le_sq.mpr (hz.trans (le_abs_self d))
    linarith
  rcases le_or_gt 0 (u * v) with huv | huv
  · exact step h huv hw
  rcases le_or_gt 0 (v * w) with hvw | hvw
  · have := step (by linarith : v + w + u = 0) hvw hu
    linarith
  -- With `v` against both, `u` and `w` have the same sign.
  have huw : 0 ≤ u * w := by
    have := mul_pos_of_neg_of_neg huv hvw
    nlinarith [sq_nonneg v]
  have := step (by linarith : u + w + v = 0) huw hv
  linarith

theorem norm_ofPoles_le {x : Poles ℝ} {lo hi : ℝ} (h1 : lo ≤ x.p1 ∧ x.p1 ≤ hi) (h2 : lo ≤ x.p2 ∧ x.p2 ≤ hi)
    (h3 : lo ≤ x.p3 ∧ x.p3 ≤ hi) : ‖(ofPoles x).toComplex‖ ≤ hi - lo := by
  have hd : 0 ≤ hi - lo := by linarith
  rw [← abs_of_nonneg hd, ← abs_of_nonneg (norm_nonneg (ofPoles x).toComplex), ← sq_le_sq, norm_ofPoles_sq]
  apply half_sum_sq_le (by ring)
  · exact abs_sub_le_iff.mpr ⟨by linarith, by linarith⟩
  · exact abs_sub_le_iff.mpr ⟨by linarith, by linarith⟩
  · exact abs_sub_le_iff.mpr ⟨by linarith, by linarith⟩

/-- Where no pole is above `m`, none is below minus twice that, and the vector is no longer than the difference. -/
theorem norm_le_of_toPoles_le {s : SpaceVector ℝ} {m : ℝ} (h1 : (toPoles s).p1 ≤ m) (h2 : (toPoles s).p2 ≤ m)
    (h3 : (toPoles s).p3 ≤ m) : ‖s.toComplex‖ ≤ 3 * m := by
  have hsum := toPoles_sum s
  have low {x y z : ℝ} (h : x + y + z = 0) (hy : y ≤ m) (hz : z ≤ m) : -2 * m ≤ x := by linarith
  have hle := norm_ofPoles_le ⟨low hsum h2 h3, h1⟩ ⟨low (by linarith) h1 h3, h2⟩ ⟨low (by linarith) h1 h2, h3⟩
  rw [ofPoles_toPoles] at hle
  linarith

/-- Of three numbers that sum to zero each is balanced by the other two. -/
theorem abs_le_of_sum_zero {u v w q : ℝ} (hq : 0 ≤ q) (h : u + v + w = 0)
    (hsq : u ^ 2 + v ^ 2 + w ^ 2 = 2 / 3 * q ^ 2) : |u| ≤ 2 / 3 * q := by
  have hu : u ^ 2 = (v + w) ^ 2 := by
    rw [eq_neg_of_add_eq_zero_left (by linarith : u + (v + w) = 0)]
    ring
  refine abs_le_of_sq_le_sq ?_ (by positivity)
  linarith [sq_nonneg (v - w)]

theorem abs_toPoles_le (s : SpaceVector ℝ) : |(toPoles s).p1| ≤ 2 / 3 * ‖s.toComplex‖ ∧
    |(toPoles s).p2| ≤ 2 / 3 * ‖s.toComplex‖ ∧ |(toPoles s).p3| ≤ 2 / 3 * ‖s.toComplex‖ := by
  have hn := norm_nonneg s.toComplex
  have hsum := toPoles_sum s
  have hsq : (toPoles s).p1 ^ 2 + (toPoles s).p2 ^ 2 + (toPoles s).p3 ^ 2 = 2 / 3 * ‖s.toComplex‖ ^ 2 := by
    rw [← toPoles_normSq, sq, sq, sq]
    rfl
  refine ⟨?_, ?_, ?_⟩
  · exact abs_le_of_sum_zero hn hsum hsq
  · exact abs_le_of_sum_zero hn (by linarith : _ + (toPoles s).p1 + (toPoles s).p3 = 0) (by linarith)
  · exact abs_le_of_sum_zero hn (by linarith : _ + (toPoles s).p1 + (toPoles s).p2 = 0) (by linarith)

theorem toPoles_norm_le_iff (s t : SpaceVector ℝ) :
    (toPoles s).norm ≤ (toPoles t).norm ↔ ‖s.toComplex‖ ≤ ‖t.toComplex‖ := by
  rw [toPoles_norm, toPoles_norm]
  exact mul_le_mul_iff_right₀ (by positivity)

end SpaceVector

namespace Poles

theorem scale_norm (x : Poles ℝ) {c : ℝ} (hc : 0 ≤ c) : (x.scale c).norm = c * x.norm := by
  show √((x.p1 * c) * (x.p1 * c) + (x.p2 * c) * (x.p2 * c) + (x.p3 * c) * (x.p3 * c)) =
    c * √(x.p1 * x.p1 + x.p2 * x.p2 + x.p3 * x.p3)
  have e : (x.p1 * c) * (x.p1 * c) + (x.p2 * c) * (x.p2 * c) + (x.p3 * c) * (x.p3 * c) =
      c ^ 2 * (x.p1 * x.p1 + x.p2 * x.p2 + x.p3 * x.p3) := by ring
  rw [e, Real.sqrt_mul (sq_nonneg c), Real.sqrt_sq hc]

theorem peak_eq (x : Poles ℝ) : x.peak = max (max |x.p1| |x.p2|) |x.p3| := by
  have top (u v : ℝ) : (if v ≤ u then u else v) = max u v := by rw [max_comm, max_def]
  show (if |x.p3| ≤ (if |x.p2| ≤ |x.p1| then |x.p1| else |x.p2|) then (if |x.p2| ≤ |x.p1| then |x.p1| else |x.p2|)
    else |x.p3|) = _
  rw [top, top]

theorem peak_le_iff {x : Poles ℝ} {c : ℝ} : x.peak ≤ c ↔ |x.p1| ≤ c ∧ |x.p2| ≤ c ∧ |x.p3| ≤ c := by
  rw [peak_eq, max_le_iff, max_le_iff, and_assoc]

theorem peak_addEach_le (x : Poles ℝ) (c : ℝ) : (x.addEach c).peak ≤ x.peak + |c| := by
  obtain ⟨h1, h2, h3⟩ := peak_le_iff.mp (le_refl x.peak)
  have step {u : ℝ} (h : |u| ≤ x.peak) : |u + c| ≤ x.peak + |c| := (abs_add_le u c).trans (by linarith)
  exact peak_le_iff.mpr ⟨step h1, step h2, step h3⟩

theorem peak_scale (x : Poles ℝ) (c : ℝ) : (x.scale c).peak = |c| * x.peak := by
  rw [peak_eq, peak_eq]
  simp only [scale, map, abs_mul]
  rw [← max_mul_of_nonneg _ _ (abs_nonneg c), ← max_mul_of_nonneg _ _ (abs_nonneg c), mul_comm]

theorem divEach_scale (x : Poles ℝ) {c : ℝ} (hc : c ≠ 0) : (x.scale c).divEach c = x := by
  obtain ⟨x1, x2, x3⟩ := x
  show (⟨x1 * c / c, x2 * c / c, x3 * c / c⟩ : Poles ℝ) = _
  rw [mul_div_cancel_right₀ _ hc, mul_div_cancel_right₀ _ hc, mul_div_cancel_right₀ _ hc]

end Poles

end MagneticBearing
