/-
  MagneticBearing.Proofs.Directions — directions over the reals, and which formulation they call for.

  `wrap` is the fractional part of the turns (`wrap_eq`), so it lies in `[0, 360)` and whole turns drop out
  of it (`wrap_add_turns`). The real part is solved for first within a degree of the axis, either way along it
  and after any number of turns: the three angles that are looked at in `[0, 360)` are all the half turns that
  a wrapped direction can be near to (`near_half_turn_iff`, `forDirection_eq_realFirst_iff`). Along the axes
  themselves the target is real (`target_forward`, `target_backward`), and only there (`forDirection_of_axis`).
-/

import MagneticBearing.Allocation
import MagneticBearing.Proofs.Exact

namespace MagneticBearing

namespace Direction

theorem cut_of_nonneg {x : ℝ} (h : 0 ≤ x) : Exact.cut x = ⌊x⌋ := if_pos h

theorem cut_of_neg {x : ℝ} (h : x < 0) : Exact.cut x = ⌈x⌉ := if_neg (not_le.mpr h)

theorem wrap_eq (d : ℝ) : wrap d = 360 * Int.fract (d / 360) := by
  have h360 : (360.0 : ℝ) = 360 := by norm_num
  have hlt : 360 * Int.fract (d / 360) < 360 := by linarith [Int.fract_lt_one (d / 360)]
  have hr : Scalar.rem d 360 = 360 * (d / 360 - Exact.cut (d / 360)) := by
    show d - 360 * (Exact.cut (d / 360) : ℝ) = _
    ring
  have hcut : (if Scalar.rem d 360 < 0 then Scalar.rem d 360 + 360 else Scalar.rem d 360) =
      360 * Int.fract (d / 360) := by
    rw [hr]
    by_cases hx : 0 ≤ d / 360
    · have e : d / 360 - ⌊d / 360⌋ = Int.fract (d / 360) := Int.self_sub_floor _
      rw [cut_of_nonneg hx, e, if_neg (not_lt.mpr (by positivity))]
    · rw [cut_of_neg (not_le.mp hx)]
      by_cases hf : Int.fract (d / 360) = 0
      · have e : (⌈d / 360⌉ : ℝ) = d / 360 := by rw [Int.ceil_eq_self_iff_mem]; exact Int.fract_eq_zero_iff.mp hf
        rw [e, hf, sub_self, mul_zero, if_neg (lt_irrefl 0)]
      · have e : (⌈d / 360⌉ : ℝ) = d / 360 + 1 - Int.fract (d / 360) := Int.ceil_eq_add_one_sub_fract hf
        have hpos := Int.fract_lt_one (d / 360)
        rw [e, if_pos (by linarith)]
        ring
  unfold wrap
  simp only [Exact.zero_eq, h360, hcut]
  exact if_neg (not_le.mpr hlt)

theorem wrap_nonneg (d : ℝ) : 0 ≤ wrap d := by
  rw [wrap_eq]
  exact mul_nonneg (by norm_num) (Int.fract_nonneg _)

theorem wrap_lt (d : ℝ) : wrap d < 360 := by
  rw [wrap_eq]
  linarith [Int.fract_lt_one (d / 360)]

theorem wrap_eq_sub (d : ℝ) : wrap d = d - 360 * ⌊d / 360⌋ := by
  rw [wrap_eq, ← Int.self_sub_floor]
  ring

theorem wrap_add_turns (d : ℝ) (k : ℤ) : wrap (d + 360 * k) = wrap d := by
  have e : (d + 360 * k) / 360 = d / 360 + k := by ring
  rw [wrap_eq, wrap_eq, e, Int.fract_add_intCast]

/-- In range there are three half turns to be near to; the last is where the range wraps around. -/
theorem near_half_turn_iff {w : ℝ} (h0 : 0 ≤ w) (h1 : w < 360) :
    (∃ k : ℤ, |w - 180 * k| < 1) ↔ |w| < 1 ∨ |w - 180| < 1 ∨ |w - 360| < 1 := by
  have e : 180 * ((2 : ℤ) : ℝ) = 360 := by norm_num
  constructor
  · rintro ⟨k, hk⟩
    obtain ⟨hlow, hhigh⟩ := abs_lt.mp hk
    have hk0 : (-1 : ℝ) < k := by linarith
    have hk3 : (k : ℝ) < 3 := by linarith
    norm_cast at hk0 hk3
    obtain rfl | rfl | rfl : k = 0 ∨ k = 1 ∨ k = 2 := by omega
    · exact .inl (by simpa using hk)
    · exact .inr (.inl (by simpa using hk))
    · rw [e] at hk
      exact .inr (.inr hk)
  · rintro (h | h | h)
    · exact ⟨0, by simpa using h⟩
    · exact ⟨1, by simpa using h⟩
    · refine ⟨2, ?_⟩
      rw [e]
      exact h

/-- Directions already in range are left alone. -/
theorem wrap_of_mem {d : ℝ} (h0 : 0 ≤ d) (h1 : d < 360) : wrap d = d := by
  have hf : Int.fract (d / 360) = d / 360 := Int.fract_eq_self.mpr ⟨by positivity, by rw [div_lt_one (by norm_num)]; exact h1⟩
  rw [wrap_eq, hf]
  ring

end Direction

/-- The real part comes first within a degree of the axis, either way along it. -/
theorem Formulation.forDirection_eq (d : ℝ) : forDirection d =
    if |Direction.wrap d| < 1 ∨ |Direction.wrap d - 180| < 1 ∨ |Direction.wrap d - 360| < 1 then .realFirst
    else .imaginaryFirst := by
  have h1 : (axisMargin : ℝ) = 1 := by
    show (1.0 : ℝ) = 1
    norm_num
  have h180 : (180.0 : ℝ) = 180 := by norm_num
  have h360 : (360.0 : ℝ) = 360 := by norm_num
  simp only [forDirection, Exact.zero_eq, h1, h180, h360, sub_zero, Bool.or_eq_true, decide_eq_true_eq, or_assoc]
  rfl

/-- The margin is the same about every half turn, those where directions wrap around included. -/
theorem Formulation.forDirection_eq_realFirst_iff (d : ℝ) :
    forDirection d = .realFirst ↔ ∃ k : ℤ, |d - 180 * k| < 1 := by
  have hshift (k : ℤ) : Direction.wrap d - 180 * k = d - 180 * ((k + 2 * ⌊d / 360⌋ : ℤ) : ℝ) := by
    rw [Direction.wrap_eq_sub]
    push_cast
    ring
  have hwrap : (∃ k : ℤ, |Direction.wrap d - 180 * k| < 1) ↔ ∃ k : ℤ, |d - 180 * k| < 1 := by
    constructor
    · rintro ⟨k, hk⟩
      exact ⟨k + 2 * ⌊d / 360⌋, by rwa [← hshift]⟩
    · rintro ⟨k, hk⟩
      exact ⟨k - 2 * ⌊d / 360⌋, by rwa [hshift, sub_add_cancel]⟩
  rw [← hwrap, Direction.near_half_turn_iff (Direction.wrap_nonneg d) (Direction.wrap_lt d), forDirection_eq]
  split
  · rename_i h
    exact iff_of_true rfl h
  · rename_i h
    exact iff_of_false nofun h

theorem Formulation.forDirection_upward : forDirection (90 : ℝ) = .imaginaryFirst := by
  rw [forDirection_eq, Direction.wrap_of_mem (by norm_num) (by norm_num)]
  exact if_neg (by norm_num [abs_of_neg])

namespace Allocator

/-- Whole turns drop out of the target. -/
theorem toComplex_target (direction magnitude : ℝ) : (target direction magnitude).toComplex =
    magnitude * Complex.exp ((direction * Real.pi / 180 : ℝ) * Complex.I) := by
  have h : target direction magnitude = Cx.ofPolar magnitude (Direction.toRadians (Direction.wrap direction)) := rfl
  have hangle : Direction.toRadians (Direction.wrap direction) =
      direction * Real.pi / 180 - ⌊direction / 360⌋ * (2 * Real.pi) := by
    show Direction.wrap direction * (Real.pi / 180.0) = _
    rw [Direction.wrap_eq_sub]
    simp only [Exact.decimal]
    ring
  rw [h, Cx.toComplex_ofPolar, hangle]
  congr 1
  rw [Complex.exp_eq_exp_iff_exists_int]
  refine ⟨-⌊direction / 360⌋, ?_⟩
  push_cast
  ring

theorem target_forward (magnitude : ℝ) : target 0 magnitude = ⟨magnitude, 0⟩ := by
  have e : Direction.toRadians (Direction.wrap (0 : ℝ)) = 0 := by
    rw [Direction.wrap_of_mem (le_refl 0) (by norm_num)]
    exact zero_mul _
  show (⟨magnitude * Real.cos (Direction.toRadians (Direction.wrap 0)),
    magnitude * Real.sin (Direction.toRadians (Direction.wrap 0))⟩ : Cx ℝ) = _
  rw [e, Real.cos_zero, Real.sin_zero, mul_one, mul_zero]

theorem target_backward (magnitude : ℝ) : target 180 magnitude = ⟨-magnitude, 0⟩ := by
  have e : Direction.toRadians (Direction.wrap (180 : ℝ)) = Real.pi := by
    rw [Direction.wrap_of_mem (by norm_num) (by norm_num)]
    show (180 : ℝ) * (Real.pi / 180.0) = _
    simp only [Exact.decimal]
    ring
  show (⟨magnitude * Real.cos (Direction.toRadians (Direction.wrap 180)),
    magnitude * Real.sin (Direction.toRadians (Direction.wrap 180))⟩ : Cx ℝ) = _
  rw [e, Real.cos_pi, Real.sin_pi, mul_neg, mul_one, mul_zero]

theorem target_upward (magnitude : ℝ) : target 90 magnitude = ⟨0, magnitude⟩ := by
  have e : Direction.toRadians (Direction.wrap (90 : ℝ)) = Real.pi / 2 := by
    rw [Direction.wrap_of_mem (by norm_num) (by norm_num)]
    show (90 : ℝ) * (Real.pi / 180.0) = _
    simp only [Exact.decimal]
    ring
  show (⟨magnitude * Real.cos (Direction.toRadians (Direction.wrap 90)),
    magnitude * Real.sin (Direction.toRadians (Direction.wrap 90))⟩ : Cx ℝ) = _
  rw [e, Real.cos_pi_div_two, Real.sin_pi_div_two, mul_zero, mul_one]

/-- A force along the axis is requested along the axis. -/
theorem forDirection_of_axis {direction magnitude : ℝ} (hm : magnitude ≠ 0) (h : (target direction magnitude).im = 0) :
    Formulation.forDirection direction = .realFirst := by
  have hsin : Real.sin (Direction.toRadians (Direction.wrap direction)) = 0 := (mul_eq_zero.mp h).resolve_left hm
  obtain ⟨n, hn⟩ := Real.sin_eq_zero_iff.mp hsin
  have hw : Direction.wrap direction = 180 * n := by
    have e : Direction.toRadians (Direction.wrap direction) = Direction.wrap direction * (Real.pi / 180.0) := rfl
    rw [e] at hn
    simp only [Exact.decimal] at hn
    field_simp at hn
    push_cast at hn
    linarith
  have hzero : direction - 180 * ((n + 2 * ⌊direction / 360⌋ : ℤ) : ℝ) = 0 := by
    have hsub := Direction.wrap_eq_sub direction
    push_cast
    linarith
  rw [Formulation.forDirection_eq_realFirst_iff]
  refine ⟨n + 2 * ⌊direction / 360⌋, ?_⟩
  rw [hzero, abs_zero]
  exact one_pos

end Allocator

end MagneticBearing
