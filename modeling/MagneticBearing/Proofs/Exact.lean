/-
  MagneticBearing.Proofs.Exact — the real numbers as the numbers of the library.

  Over the reals every formula has its exact value: a zero has no sign, every number is finite
  and the total order is the order. A point of the plane is then a complex number
  (`Cx.toComplex`), and each operation of `Cx` is the operation of that name there
  (`toComplex_add` … `toComplex_under`, `norm_eq`).

  The principal roots are taken by their angle, half or a third of the principal one
  (`toComplex_sqrt`, `toComplex_cbrt`). So the roots of `2 m` and `2 / m` have the product 2
  (`sqrt_mul_sqrt_under_off`), except for a negative `m`, where both lie on the upper imaginary
  axis and it is -2 (`sqrt_mul_sqrt_under_on`).
-/

import Mathlib
import MagneticBearing.Quartic

namespace MagneticBearing

open MagneticBearing.Number

namespace Exact

/-- The real cube root. -/
noncomputable def cbrt (x : ℝ) : ℝ := if 0 ≤ x then x ^ (1 / 3 : ℝ) else -(-x) ^ (1 / 3 : ℝ)

/-- Cut toward zero. -/
noncomputable def cut (x : ℝ) : ℤ := if 0 ≤ x then ⌊x⌋ else ⌈x⌉

/-- What a numeral is worth; the words that stand for no real number are worth nothing. -/
noncomputable def worth : Numeral → ℝ
  | .nan => 0
  | .infinite _ => 0
  | .finite neg mantissa exponent => (if neg then -1 else 1) * mantissa * 10 ^ exponent

@[reducible] noncomputable instance reals : Scalar ℝ where
  decLT := inferInstance
  decLE := inferInstance
  beq x y := decide (x = y)
  abs x := |x|
  negative x := decide (x < 0)
  finite _ := true
  pi := Real.pi
  sqrt := Real.sqrt
  cbrt := cbrt
  pow x y := x ^ y
  sin := Real.sin
  cos := Real.cos
  atan2 y x := Complex.arg ⟨x, y⟩
  hypot x y := √(x * x + y * y)
  rem x y := x - y * cut (x / y)
  notAfter x y := decide (x ≤ y)
  ofInt n := n
  ofNumeral := worth
  toWhole x := max (-9223372036854775808) (min 9223372036854775807 (cut x))

/-- A decimal with one place, as a fraction. The ring tactics read fractions, not decimals. -/
theorem decimal (n : ℕ) : (OfScientific.ofScientific n true 1 : ℝ) = n / 10 := by
  have h : (OfScientific.ofScientific n true 1 : ℚ) = n / 10 := by
    show Rat.ofScientific n true 1 = _
    rw [Rat.ofScientific_true_def, Rat.mkRat_eq_div]
    norm_num
  rw [← Rat.cast_ofScientific, h]
  norm_num

theorem zero_eq : (0.0 : ℝ) = 0 := by norm_num
theorem one_eq : (1.0 : ℝ) = 1 := by norm_num
theorem two_eq : (2.0 : ℝ) = 2 := by norm_num
theorem three_eq : (3.0 : ℝ) = 3 := by norm_num

theorem cbrt_of_nonneg {x : ℝ} (h : 0 ≤ x) : cbrt x = x ^ (1 / 3 : ℝ) := if_pos h

theorem rpow_third_cube {x : ℝ} (h : 0 ≤ x) : (x ^ (1 / 3 : ℝ)) ^ 3 = x := by
  rw [← Real.rpow_natCast, ← Real.rpow_mul h]
  norm_num

@[simp] theorem cbrt_cube (x : ℝ) : cbrt x ^ 3 = x := by
  unfold cbrt
  split
  · exact rpow_third_cube ‹_›
  · rename_i h
    have := rpow_third_cube (x := -x) (by linarith)
    rw [Odd.neg_pow (by decide), this, neg_neg]

theorem one_le_cbrt {x : ℝ} (h : 1 ≤ x) : 1 ≤ cbrt x := by
  rw [cbrt_of_nonneg (by linarith)]; exact Real.one_le_rpow h (by norm_num)

@[simp] theorem beq_iff (x y : ℝ) : (@BEq.beq ℝ Arith.toBEq x y) = true ↔ x = y := by
  show decide (x = y) = true ↔ _; simp

theorem beq_zero_iff (x : ℝ) : (x == 0.0) = true ↔ x = 0 := by
  rw [beq_iff, zero_eq]

end Exact

namespace Cx

/-- The point as a complex number. -/
def toComplex (z : Cx ℝ) : ℂ := ⟨z.re, z.im⟩

@[simp] theorem toComplex_re (z : Cx ℝ) : z.toComplex.re = z.re := rfl
@[simp] theorem toComplex_im (z : Cx ℝ) : z.toComplex.im = z.im := rfl
@[simp] theorem toComplex_mk (x y : ℝ) : (⟨x, y⟩ : Cx ℝ).toComplex = ⟨x, y⟩ := rfl

theorem toComplex_inj {z w : Cx ℝ} : z.toComplex = w.toComplex ↔ z = w := by
  obtain ⟨x, y⟩ := z
  obtain ⟨u, v⟩ := w
  simp [Complex.ext_iff]

/-! ## Field operations -/

@[simp] theorem toComplex_add (z w : Cx ℝ) : (z + w).toComplex = z.toComplex + w.toComplex := rfl
@[simp] theorem toComplex_mul (z w : Cx ℝ) : (z * w).toComplex = z.toComplex * w.toComplex := rfl
@[simp] theorem toComplex_neg (z : Cx ℝ) : (-z).toComplex = -z.toComplex := rfl
@[simp] theorem toComplex_conj (z : Cx ℝ) : z.conj.toComplex = (starRingEnd ℂ) z.toComplex := rfl

@[simp] theorem toComplex_sub (z w : Cx ℝ) : (z - w).toComplex = z.toComplex - w.toComplex := by
  apply Complex.ext <;> rfl

@[simp] theorem toComplex_ofReal (x : ℝ) : (ofReal x).toComplex = x := by
  apply Complex.ext
  · rfl
  · show (0.0 : ℝ) = 0; norm_num

@[simp] theorem toComplex_zero : (zero : Cx ℝ).toComplex = 0 := by
  rw [zero, toComplex_ofReal]; norm_num

@[simp] theorem toComplex_scale (x : ℝ) (z : Cx ℝ) : (scale x z).toComplex = x * z.toComplex := by
  apply Complex.ext <;> simp [scale]

@[simp] theorem toComplex_shift (x : ℝ) (z : Cx ℝ) : (shift x z).toComplex = x + z.toComplex := by
  apply Complex.ext <;> simp [shift]

@[simp] theorem toComplex_divReal (z : Cx ℝ) (x : ℝ) : (divReal z x).toComplex = z.toComplex / x := by
  apply Complex.ext
  · rw [Complex.div_ofReal_re]; rfl
  · rw [Complex.div_ofReal_im]; rfl

@[simp] theorem toComplex_under (x : ℝ) (z : Cx ℝ) : (under x z).toComplex = x / z.toComplex := by
  have hn : Complex.normSq z.toComplex = z.re * z.re + z.im * z.im := rfl
  apply Complex.ext
  · show x * z.re / (z.re * z.re + z.im * z.im) = _
    rw [Complex.div_re, hn]; simp
  · show (0.0 - x * z.im / (z.re * z.re + z.im * z.im) : ℝ) = _
    rw [Complex.div_im, hn]; norm_num

@[simp] theorem finite_eq (z : Cx ℝ) : z.finite = true := rfl

@[simp] theorem norm_eq (z : Cx ℝ) : z.norm = ‖z.toComplex‖ := by
  rw [Complex.norm_def]; rfl

/-! ## Principal roots -/

@[simp] theorem toComplex_ofPolar (r angle : ℝ) :
    (ofPolar r angle).toComplex = r * Complex.exp (angle * Complex.I) := by
  apply Complex.ext
  · show r * Real.cos angle = _
    rw [Complex.re_ofReal_mul, Complex.exp_ofReal_mul_I_re]
  · show r * Real.sin angle = _
    rw [Complex.im_ofReal_mul, Complex.exp_ofReal_mul_I_im]

theorem arg_eq (z : Cx ℝ) : z.arg = z.toComplex.arg := rfl

theorem toComplex_cbrt (z : Cx ℝ) :
    (cbrt z).toComplex = Exact.cbrt ‖z.toComplex‖ * Complex.exp ((z.toComplex.arg / 3 : ℝ) * Complex.I) := by
  show (ofPolar (Exact.cbrt z.norm) (z.arg / 3.0)).toComplex = _
  rw [toComplex_ofPolar, norm_eq, arg_eq, Exact.three_eq]

theorem sqrt_of_im_eq_zero {z : Cx ℝ} (h : z.im = 0) :
    z.sqrt = if z.re < 0 then ⟨0, √(-z.re)⟩ else ⟨√z.re, 0⟩ := by
  have e : (z.im == 0.0) = true := (Exact.beq_zero_iff _).mpr h
  have en : Arith.negative z.im = false := decide_eq_false (by rw [h]; exact lt_irrefl 0)
  unfold sqrt
  rw [if_pos e]
  by_cases hr : z.re < 0
  · have er : Arith.negative z.re = true := decide_eq_true hr
    simp only [er, en, if_true, hr, Exact.zero_eq, Bool.false_eq_true, if_false]
    rfl
  · have er : Arith.negative z.re = false := decide_eq_false hr
    simp only [er, hr, Bool.false_eq_true, if_false, h]
    rfl

theorem sqrt_of_re_eq_zero {z : Cx ℝ} (hi : z.im ≠ 0) (h : z.re = 0) :
    z.sqrt = ⟨√(|z.im| / 2), if z.im < 0 then -√(|z.im| / 2) else √(|z.im| / 2)⟩ := by
  have ei : ¬ (z.im == 0.0) = true := mt (Exact.beq_zero_iff _).mp hi
  have er : (z.re == 0.0) = true := (Exact.beq_zero_iff _).mpr h
  unfold sqrt
  rw [if_neg ei, if_pos er]
  show (⟨√(|z.im| / 2.0), if decide (z.im < 0) = true then -√(|z.im| / 2.0) else √(|z.im| / 2.0)⟩ : Cx ℝ) = _
  simp only [Exact.two_eq, decide_eq_true_eq]

theorem sqrt_of_ne_zero {z : Cx ℝ} (hi : z.im ≠ 0) (hr : z.re ≠ 0) :
    z.sqrt = ofPolar √‖z.toComplex‖ (z.toComplex.arg / 2) := by
  have ei : ¬ (z.im == 0.0) = true := mt (Exact.beq_zero_iff _).mp hi
  have er : ¬ (z.re == 0.0) = true := mt (Exact.beq_zero_iff _).mp hr
  unfold sqrt
  rw [if_neg ei, if_neg er, norm_eq, arg_eq]
  show ofPolar √‖z.toComplex‖ (z.toComplex.arg / 2.0) = _
  rw [Exact.two_eq]

theorem half_angle_of_real (x : ℝ) :
    (if x < 0 then ⟨0, √(-x)⟩ else ⟨√x, 0⟩ : ℂ) =
      √‖(x : ℂ)‖ * Complex.exp ((Complex.arg x / 2 : ℝ) * Complex.I) := by
  rw [Complex.norm_real, Real.norm_eq_abs]
  by_cases hx : x < 0
  · rw [if_pos hx, Complex.arg_ofReal_of_neg hx, abs_of_neg hx]
    apply Complex.ext <;> simp
  · rw [if_neg hx, Complex.arg_ofReal_of_nonneg (not_lt.mp hx), abs_of_nonneg (not_lt.mp hx)]
    apply Complex.ext <;> simp

theorem half_angle_of_imaginary {y : ℝ} (hy : y ≠ 0) :
    (⟨√(|y| / 2), if y < 0 then -√(|y| / 2) else √(|y| / 2)⟩ : ℂ) =
      √‖(⟨0, y⟩ : ℂ)‖ * Complex.exp ((Complex.arg ⟨0, y⟩ / 2 : ℝ) * Complex.I) := by
  have hn : ‖(⟨0, y⟩ : ℂ)‖ = |y| := by
    rw [Complex.norm_def, Complex.normSq_mk, zero_mul, zero_add, Real.sqrt_mul_self_eq_abs]
  have hq : √(|y| / 2) = √|y| * (√2 / 2) := by
    rw [Real.sqrt_div (abs_nonneg y), Real.sqrt_div_self', div_eq_mul_one_div]
  rw [hn]
  rcases lt_or_gt_of_ne hy with h | h
  · have ha : Complex.arg ⟨0, y⟩ = -(Real.pi / 2) := Complex.arg_eq_neg_pi_div_two_iff.mpr ⟨rfl, h⟩
    have e : -(Real.pi / 2) / 2 = -(Real.pi / 4) := by ring
    rw [ha, e, if_pos h, hq]
    apply Complex.ext
    · rw [Complex.re_ofReal_mul, Complex.exp_ofReal_mul_I_re, Real.cos_neg, Real.cos_pi_div_four]
    · rw [Complex.im_ofReal_mul, Complex.exp_ofReal_mul_I_im, Real.sin_neg, Real.sin_pi_div_four, mul_neg]
  · have ha : Complex.arg ⟨0, y⟩ = Real.pi / 2 := Complex.arg_eq_pi_div_two_iff.mpr ⟨rfl, h⟩
    have e : Real.pi / 2 / 2 = Real.pi / 4 := by ring
    rw [ha, e, if_neg (not_lt.mpr h.le), hq]
    apply Complex.ext
    · rw [Complex.re_ofReal_mul, Complex.exp_ofReal_mul_I_re, Real.cos_pi_div_four]
    · rw [Complex.im_ofReal_mul, Complex.exp_ofReal_mul_I_im, Real.sin_pi_div_four]

-- On the axes the root is written out; it is the one of half the angle there too.
theorem toComplex_sqrt (z : Cx ℝ) :
    z.sqrt.toComplex = √‖z.toComplex‖ * Complex.exp ((z.toComplex.arg / 2 : ℝ) * Complex.I) := by
  by_cases hi : z.im = 0
  · have hz : z.toComplex = (z.re : ℂ) := Complex.ext rfl hi
    rw [hz, ← half_angle_of_real, sqrt_of_im_eq_zero hi]
    split <;> rfl
  by_cases hr : z.re = 0
  · have hz : z.toComplex = ⟨0, z.im⟩ := Complex.ext hr rfl
    rw [hz, ← half_angle_of_imaginary hi, sqrt_of_re_eq_zero hi hr]
    rfl
  · rw [sqrt_of_ne_zero hi hr, toComplex_ofPolar]

theorem sqrt_sq (z : Cx ℝ) : z.sqrt.toComplex ^ 2 = z.toComplex := by
  rw [toComplex_sqrt, mul_pow, ← Complex.exp_nat_mul, ← Complex.ofReal_pow, Real.sq_sqrt (norm_nonneg _)]
  have e : ((2 : ℕ) : ℂ) * (((z.toComplex.arg / 2 : ℝ) : ℂ) * Complex.I) = z.toComplex.arg * Complex.I := by
    push_cast; ring
  rw [e, Complex.norm_mul_exp_arg_mul_I]

theorem cbrt_cube (z : Cx ℝ) : (cbrt z).toComplex ^ 3 = z.toComplex := by
  rw [toComplex_cbrt, mul_pow, ← Complex.exp_nat_mul, ← Complex.ofReal_pow, Exact.cbrt_cube]
  have e : ((3 : ℕ) : ℂ) * (((z.toComplex.arg / 3 : ℝ) : ℂ) * Complex.I) = z.toComplex.arg * Complex.I := by
    push_cast; ring
  rw [e, Complex.norm_mul_exp_arg_mul_I]

/-- The principal cube root turns by a third. -/
theorem arg_cbrt {z : Cx ℝ} (h : z.toComplex ≠ 0) : (cbrt z).toComplex.arg = z.toComplex.arg / 3 := by
  have hpos : 0 < Exact.cbrt ‖z.toComplex‖ := by
    rw [Exact.cbrt_of_nonneg (norm_nonneg _)]
    exact Real.rpow_pos_of_pos (norm_pos_iff.mpr h) _
  have hlow := Complex.neg_pi_lt_arg z.toComplex
  have hhigh := Complex.arg_le_pi z.toComplex
  have hpi := Real.pi_pos
  rw [toComplex_cbrt, Complex.arg_real_mul _ hpos, Complex.exp_mul_I]
  exact Complex.arg_cos_add_sin_mul_I ⟨by linarith, by linarith⟩

/-- On the cut of the principal square root. -/
def OnCut (m : Cx ℝ) : Prop := m.re < 0 ∧ m.im = 0

theorem onCut_iff {m : Cx ℝ} : OnCut m ↔ m.toComplex.arg = Real.pi := by
  rw [Complex.arg_eq_pi_iff]; rfl

theorem sqrt_mul_sqrt_under {m : Cx ℝ} (hm : m.toComplex ≠ 0) :
    (scale 2 m).sqrt.toComplex * (under 2 m).sqrt.toComplex =
      2 * Complex.exp (((m.toComplex.arg + m.toComplex⁻¹.arg) / 2 : ℝ) * Complex.I) := by
  have hn : √‖(scale 2 m).toComplex‖ * √‖(under 2 m).toComplex‖ = 2 := by
    rw [toComplex_scale, toComplex_under, norm_mul, norm_div, ← Real.sqrt_mul (by positivity)]
    have e : ‖((2 : ℝ) : ℂ)‖ * ‖m.toComplex‖ * (‖((2 : ℝ) : ℂ)‖ / ‖m.toComplex‖) = 2 ^ 2 := by
      have := norm_ne_zero_iff.mpr hm
      simp only [Complex.norm_real, Real.norm_ofNat]
      field_simp
    rw [e, Real.sqrt_sq (by norm_num)]
  have h1 : (scale 2 m).toComplex.arg = m.toComplex.arg := by
    rw [toComplex_scale, Complex.arg_real_mul _ (by norm_num)]
  have h2 : (under 2 m).toComplex.arg = m.toComplex⁻¹.arg := by
    rw [toComplex_under, div_eq_mul_inv, Complex.arg_real_mul _ (by norm_num)]
  rw [toComplex_sqrt, toComplex_sqrt, h1, h2, mul_mul_mul_comm, ← Complex.ofReal_mul, hn, ← Complex.exp_add]
  push_cast
  ring_nf

/-- Off the cut the angles of `m` and of its inverse cancel. -/
theorem sqrt_mul_sqrt_under_off {m : Cx ℝ} (hm : m.toComplex ≠ 0) (h : ¬ OnCut m) :
    (scale 2 m).sqrt.toComplex * (under 2 m).sqrt.toComplex = 2 := by
  rw [sqrt_mul_sqrt_under hm, Complex.arg_inv, if_neg (fun e => h (onCut_iff.mpr e)), add_neg_cancel]
  simp

/-- On the cut `m` and its inverse have the same angle. -/
theorem sqrt_mul_sqrt_under_on {m : Cx ℝ} (hm : m.toComplex ≠ 0) (h : OnCut m) :
    (scale 2 m).sqrt.toComplex * (under 2 m).sqrt.toComplex = -2 := by
  rw [sqrt_mul_sqrt_under hm, Complex.arg_inv, if_pos (onCut_iff.mp h), onCut_iff.mp h, add_self_div_two,
    Complex.exp_pi_mul_I]
  norm_num

end Cx

/-! ## Tolerances -/

@[simp] theorem Quartic.zeroTolerance_eq : (Quartic.zeroTolerance : ℝ) = 1 / 10 ^ 12 := by
  show (1e-12 : ℝ) = _; norm_num

@[simp] theorem Quartic.imaginaryTolerance_eq : (Quartic.imaginaryTolerance : ℝ) = 1 / 10 ^ 8 := by
  show (1e-8 : ℝ) = _; norm_num

/-- A real root is one, whatever the tolerance. -/
theorem Quartic.realPart?_of_real {z : Cx ℝ} (h : z.im = 0) : Quartic.realPart? z = some z.re := by
  unfold Quartic.realPart?
  rw [imaginaryTolerance_eq]
  refine if_pos ?_
  show |z.im| < 1 / 10 ^ 8
  rw [h, abs_zero]
  positivity

/-- A finder that knows one real number finds it. -/
theorem Quartic.realRoots_known (x : ℝ) (c : Quartic ℝ) :
    Quartic.realRoots (fun _ => .ok [⟨x, 0⟩]) c = .ok [x] := by
  show Except.ok (List.filterMap Quartic.realPart? [(⟨x, 0⟩ : Cx ℝ)]) = _
  rw [List.filterMap_cons, Quartic.realPart?_of_real rfl]
  rfl

@[simp] theorem Arith.epsilon_eq : (Arith.epsilon : ℝ) = 1 / 2 ^ 52 := by
  show (1.0 / 4503599627370496.0 : ℝ) = _; norm_num

end MagneticBearing
