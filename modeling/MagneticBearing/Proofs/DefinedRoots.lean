/-
  MagneticBearing.Proofs.DefinedRoots — the closed form divides by nothing that is zero.

  Its divisors are constants, the squared size of the radical `u` that Cardano's formula is written in, and
  that of the auxiliary root `m`. Where `u` or `m` is zero up to the tolerance the closed form fails instead,
  so behind those guards neither is zero (`normSq_ne_zero`). Over numbers of which a quotient by zero is
  undefined it therefore has the same roots and the same failures (`closedForm_lifts`).
-/

import MagneticBearing.Proofs.Defined
import MagneticBearing.Proofs.Resolvent

namespace MagneticBearing

namespace Cx

variable (z : Cx ℝ)

theorem normSq_ne_zero {z : Cx ℝ} (h : ¬ z.norm < Quartic.zeroTolerance) : z.normSq ≠ 0 := by
  intro hz
  apply h
  show √z.normSq < _
  rw [hz, Real.sqrt_zero, Quartic.zeroTolerance_eq]
  norm_num

theorem normSq_scale_ne_zero {a : ℝ} {z : Cx ℝ} (ha : a ≠ 0) (h : z.normSq ≠ 0) : (scale a z).normSq ≠ 0 := by
  have hscale : (scale a z).normSq = a * a * z.normSq := by
    show a * z.re * (a * z.re) + a * z.im * (a * z.im) = a * a * (z.re * z.re + z.im * z.im)
    ring
  rw [hscale]
  exact mul_ne_zero (mul_ne_zero ha ha) h

theorem under_lift (a : ℝ) {z : Cx ℝ} (h : z.normSq ≠ 0) : under (.defined a) z.lift = (under a z).lift := by
  have hn : z.lift.normSq = .defined z.normSq := rfl
  simp only [under, hn]
  simp only [lift, Partial.defined_decimal, Partial.defined_mul, Partial.defined_sub, Partial.div_of_ne _ h]

theorem cbrt_lift : cbrt z.lift = (cbrt z).lift := by
  have h3 : (3.0 : ℝ) ≠ 0 := by norm_num
  show ofPolar (Scalar.cbrt (Partial.defined z.norm)) (Partial.defined z.arg / Partial.defined 3.0) = _
  rw [Partial.div_of_ne _ h3]
  rfl

theorem sqrt_lift : sqrt z.lift = (sqrt z).lift := by
  have h2 : (2.0 : ℝ) ≠ 0 := by norm_num
  obtain ⟨x, y⟩ := z
  have hnegative (t : ℝ) : Arith.negative (Partial.defined t) = Arith.negative t := rfl
  have harg : (lift ⟨x, y⟩).arg = .defined (arg ⟨x, y⟩) := rfl
  simp only [sqrt, lift_norm, harg]
  simp only [lift, Partial.defined_decimal, Partial.defined_beq, hnegative, Partial.defined_neg, Partial.defined_abs,
    Partial.div_of_ne _ h2, Partial.defined_sqrt]
  split
  · split
    · rw [apply_ite Partial.defined]
    · rfl
  · split
    · rw [apply_ite Partial.defined]
    · rfl

end Cx

namespace Quartic.ClosedForm

theorem radical_lift (d1 d2 : ℝ) : radical (Partial.defined d1) (.defined d2) = (radical d1 d2).lift := by
  have hdisc : discriminant (Partial.defined d1) (.defined d2) = .defined (discriminant d1 d2) := rfl
  simp only [radical, hdisc, Partial.defined_decimal, Partial.defined_add, Partial.defined_le, Partial.defined_neg,
    Partial.defined_sqrt]
  split
  · rfl
  · exact Cx.cbrt_lift ⟨d2, _⟩

theorem auxiliaryRoots_lift (c : Quartic ℝ) : auxiliaryRoots c.lift = found (List.map Cx.lift) (auxiliaryRoots c) := by
  have h2 : (2.0 : ℝ) ≠ 0 := by norm_num
  have h3 : (3.0 : ℝ) ≠ 0 := by norm_num
  have hterms : cubicTerms c.lift = (.defined (cubicTerms c).1, .defined (cubicTerms c).2) := rfl
  have hpow (x y : ℝ) : Scalar.pow (Partial.defined x) (.defined y) = .defined (Scalar.pow x y) := rfl
  have hcbrt (x : ℝ) : Scalar.cbrt (Partial.defined x) = .defined (Scalar.cbrt x) := rfl
  have hreal (x : ℝ) : Cx.ofReal (Partial.defined x) = (Cx.ofReal x).lift := rfl
  have hpoint (x y : ℝ) : (⟨.defined x, .defined y⟩ : Cx (Partial ℝ)) = Cx.lift ⟨x, y⟩ := rfl
  have hlinear : 12.0 * Scalar.pow (2.0 : ℝ) (2.0 / 3.0) ≠ 0 := by
    have hpos : 0 < (2.0 : ℝ) ^ (2.0 / 3.0 : ℝ) := Real.rpow_pos_of_pos (by norm_num) _
    show 12.0 * (2.0 : ℝ) ^ (2.0 / 3.0 : ℝ) ≠ 0
    positivity
  have hconstant : 24.0 * Scalar.cbrt (2.0 : ℝ) ≠ 0 := by
    have hone : 1 ≤ Exact.cbrt 2.0 := Exact.one_le_cbrt (by norm_num)
    show 24.0 * Exact.cbrt 2.0 ≠ 0
    positivity
  simp only [auxiliaryRoots, hterms, radical_lift, Cx.lift_norm, zeroTolerance_lift, Partial.defined_lt]
  split
  · rfl
  · rename_i hu
    have hunder := Cx.normSq_scale_ne_zero hlinear (Cx.normSq_ne_zero hu)
    have hp : c.lift.p = .defined c.p := rfl
    simp only [Partial.defined_decimal, hp, Partial.div_of_ne _ h3, hpow, hcbrt, Partial.defined_mul, Cx.lift_scale,
      Cx.under_lift _ hunder, Cx.divReal_lift _ hconstant, Partial.defined_sqrt, Partial.defined_neg, hreal, hpoint,
      Cx.lift_neg, Cx.lift_sub, Cx.lift_add, Cx.lift_mul, Cx.divReal_lift _ h2]
    rfl

theorem greatestBy_lift (zs : List (Cx ℝ)) :
    Scalar.greatestBy Cx.norm (zs.map Cx.lift) = (Scalar.greatestBy Cx.norm zs).map Cx.lift := by
  cases zs with
  | nil => rfl
  | cons z zs =>
    simp only [List.map_cons, Scalar.greatestBy, List.foldl_map]
    refine congrArg some (List.foldl_hom Cx.lift fun best y => ?_)
    rw [apply_ite Cx.lift]
    rfl

theorem auxiliaryRoot_lift (c : Quartic ℝ) : auxiliaryRoot c.lift = found Cx.lift (auxiliaryRoot c) := by
  simp only [auxiliaryRoot, auxiliaryRoots_lift]
  cases auxiliaryRoots c with
  | error e => rfl
  | ok ms =>
    have hzero : (Cx.zero : Cx (Partial ℝ)) = Cx.zero.lift := rfl
    have hgreatest : (Scalar.greatestBy Cx.norm (ms.map Cx.lift)).getD Cx.zero =
        ((Scalar.greatestBy Cx.norm ms).getD Cx.zero).lift := by
      rw [greatestBy_lift, hzero, Option.getD_map]
    simp only [found, bind, Except.bind, hgreatest, Cx.lift_norm, zeroTolerance_lift, Partial.defined_lt]
    split
    · rfl
    · rfl

theorem fromAuxiliary_lift (c : Quartic ℝ) {m : Cx ℝ} (h : m.normSq ≠ 0) :
    fromAuxiliary c.lift m.lift = (fromAuxiliary c m).map Cx.lift := by
  have h2 : (2.0 : ℝ) ≠ 0 := by norm_num
  have hp : c.lift.p = .defined c.p := rfl
  have hq : c.lift.q = .defined c.q := rfl
  simp only [fromAuxiliary, Partial.defined_decimal, hp, hq, Partial.defined_mul, Cx.lift_scale, Cx.under_lift _ h,
    Cx.sqrt_lift, Cx.lift_shift, Cx.lift_add, Cx.lift_sub, Cx.lift_neg, Cx.divReal_lift _ h2]
  rfl

theorem closedForm_lifts : Lifts (closedForm (K := Partial ℝ)) (closedForm (K := ℝ)) := by
  intro c
  have hnonzero : ∀ m, auxiliaryRoot c = .ok m → m.normSq ≠ 0 := by
    intro m hm hzero
    obtain ⟨-, -, hne⟩ := auxiliaryRoot_spec hm
    exact hne (Complex.normSq_eq_zero.mp hzero)
  simp only [closedForm, auxiliaryRoot_lift]
  cases hm : auxiliaryRoot c with
  | error e => rfl
  | ok m =>
    show Except.ok _ = Except.ok _
    rw [fromAuxiliary_lift c (hnonzero m hm)]

end Quartic.ClosedForm

end MagneticBearing
