/-
  MagneticBearing.Proofs.ForceMap — the force law as a map of the plane, and its inverse.

  On complex numbers the law is `z ↦ quadratic / 3 · conj(z)² + linear · z` (`onPlane`); it is what
  the poles of `z` produce (`ofPoles_toPoles`).

  Both quartics are exact eliminations. The first coordinate of every solution is a root
  (`eval_coordinate`). Unless completing it divides by zero (`Singular`), a root completes to a
  solution (`force_completion`), and to the one that it is the coordinate of (`completion_coordinate`).
  The guard of `pair` is wider than that by a tolerance (`Guarded`). So outside the guards either
  formulation has all solutions and nothing else (`reduction_exact`).
-/

import MagneticBearing.ForceLaw
import MagneticBearing.Proofs.Poles

namespace MagneticBearing

open ComplexConjugate

/-- The coordinate that the quartic is for. -/
def Formulation.coordinate (form : Formulation) (s : SpaceVector ℝ) : ℝ :=
  match form with
  | .imaginaryFirst => s.im
  | .realFirst => s.re

namespace ForceLaw

variable (law : ForceLaw ℝ)

@[simp] theorem tolerance_eq : (tolerance : ℝ) = 1 / 10 ^ 9 := by
  show (1e-9 : ℝ) = _; norm_num

/-- The force of a space vector. -/
noncomputable def onPlane (z : ℂ) : ℂ := (law.ofVector ⟨z.re, z.im⟩).toComplex

@[simp] theorem toComplex_ofVector (s : SpaceVector ℝ) : (law.ofVector s).toComplex = law.onPlane s.toComplex := rfl

theorem onPlane_eq (z : ℂ) : law.onPlane z = law.quadratic / 3 * conj z ^ 2 + law.linear * z := by
  unfold onPlane ofVector
  simp only [Exact.three_eq, Cx.toComplex_add, Cx.toComplex_divReal, Cx.toComplex_scale, Cx.toComplex_mul, Cx.toComplex_conj,
    Cx.toComplex_mk]
  push_cast
  ring

/-- The terms of the law, as if they were in line. -/
theorem norm_onPlane_le {law : ForceLaw ℝ} (ha : 0 ≤ law.quadratic) (hb : 0 ≤ law.linear) (z : ℂ) :
    ‖law.onPlane z‖ ≤ law.linear * ‖z‖ + law.quadratic * ‖z‖ ^ 2 / 3 := by
  have hq : ‖(law.quadratic / 3 : ℂ)‖ = law.quadratic / 3 := by
    rw [← Complex.ofReal_ofNat, ← Complex.ofReal_div, Complex.norm_real, Real.norm_of_nonneg (by positivity)]
  calc ‖law.onPlane z‖ ≤ ‖(law.quadratic / 3 : ℂ) * conj z ^ 2‖ + ‖(law.linear : ℂ) * z‖ := by
        rw [onPlane_eq]
        exact norm_add_le _ _
    _ = law.linear * ‖z‖ + law.quadratic * ‖z‖ ^ 2 / 3 := by
        rw [norm_mul, norm_mul, norm_pow, hq, Complex.norm_conj, Complex.norm_real, Real.norm_of_nonneg hb]
        ring

theorem ofVector_re (s : SpaceVector ℝ) :
    (law.ofVector s).re = law.quadratic / 3 * (s.re ^ 2 - s.im ^ 2) + law.linear * s.re := by
  show law.quadratic * (s.re * s.re - -s.im * -s.im) / 3.0 + law.linear * s.re = _
  simp only [Exact.decimal]
  ring

theorem ofVector_im (s : SpaceVector ℝ) :
    (law.ofVector s).im = s.im * (law.linear - 2 * law.quadratic / 3 * s.re) := by
  show law.quadratic * (s.re * -s.im + -s.im * s.re) / 3.0 + law.linear * s.im = _
  simp only [Exact.decimal]
  ring

theorem ofVector_eq_iff (s target : Cx ℝ) : law.ofVector s = target ↔
    law.quadratic / 3 * (s.re ^ 2 - s.im ^ 2) + law.linear * s.re = target.re ∧
      s.im * (law.linear - 2 * law.quadratic / 3 * s.re) = target.im := by
  rw [← ofVector_re, ← ofVector_im]
  constructor
  · rintro rfl
    exact ⟨rfl, rfl⟩
  · rintro ⟨h1, h2⟩
    exact Cx.toComplex_inj.mp (Complex.ext h1 h2)

/-- The poles that a space vector stands for produce its force. -/
theorem ofPoles_toPoles (s : SpaceVector ℝ) : law.ofPoles s.toPoles = law.ofVector s := by
  have h3 : √3 * √3 = (3 : ℝ) := Real.mul_self_sqrt (by norm_num)
  have hne : √3 ≠ (0 : ℝ) := by positivity
  have hq : s.im / √3 * (s.im / √3) = s.im ^ 2 / 3 := by rw [div_mul_div_comm, h3, sq]
  have hd : √3 * (s.im / √3) = s.im := mul_div_cancel₀ _ hne
  have hp : SpaceVector.ofPoles s.toPoles.squared = ⟨(s.re ^ 2 - s.im ^ 2) / 3, -(2 / 3 * s.re * s.im)⟩ := by
    rw [SpaceVector.toPoles_eq, SpaceVector.ofPoles_eq]
    simp only [Poles.squared, Poles.map, Cx.mk.injEq]
    constructor
    · linear_combination -hq
    · linear_combination (-(2 / 3) * s.re) * hd
  symm
  rw [ofVector_eq_iff]
  unfold ofPoles
  rw [hp, SpaceVector.ofPoles_toPoles]
  constructor
  · show _ = law.quadratic * ((s.re ^ 2 - s.im ^ 2) / 3) + law.linear * s.re
    ring
  · show _ = law.quadratic * -(2 / 3 * s.re * s.im) + law.linear * s.im
    ring

/-! ## Elimination -/

/-- Completing the root divides by zero. -/
def Singular (form : Formulation) (root : ℝ) : Prop :=
  match form with
  | .imaginaryFirst => root = 0
  | .realFirst => 3.0 * law.linear - 2.0 * law.quadratic * root = 0

/-- The root is too close to where completing it divides by zero. -/
def Guarded (form : Formulation) (root : ℝ) : Prop :=
  match form with
  | .imaginaryFirst => |root| < Quartic.zeroTolerance
  | .realFirst => |3.0 * law.linear - 2.0 * law.quadratic * root| ≤ Quartic.zeroTolerance * |3.0 * law.linear|

theorem eval_eq (c : Quartic ℝ) (y : ℝ) : c.eval y = y ^ 4 + c.p * y ^ 2 + c.q * y + c.r := by
  show y * y * (y * y) + c.p * (y * y) + c.q * y + c.r = _
  ring

variable {law} {form : Formulation} {s target : Cx ℝ} {root : ℝ}

theorem eval_imaginaryFirst (ha : law.quadratic ≠ 0) (fx fy root : ℝ) :
    4 * law.quadratic ^ 2 * (law.quartic .imaginaryFirst fx fy).eval root =
      4 * law.quadratic ^ 2 * root ^ 4 + (-27 * law.linear ^ 2 + 12 * law.quadratic * fx) * root ^ 2 +
        36 * law.linear * fy * root - 9 * fy ^ 2 := by
  simp only [eval_eq, quartic, Exact.decimal]
  field_simp
  ring

theorem eval_realFirst (ha : law.quadratic ≠ 0) (fx fy root : ℝ) :
    4 * law.quadratic ^ 3 * (law.quartic .realFirst fx fy).eval root =
      (3 * law.linear - 2 * law.quadratic * root) ^ 2 *
          (law.quadratic * root ^ 2 + 3 * law.linear * root - 3 * fx) - 9 * law.quadratic * fy ^ 2 := by
  simp only [eval_eq, quartic, Exact.decimal]
  field_simp
  ring

/-- The first coordinate of a solution is a root, inside the guard or not. -/
theorem eval_coordinate (ha : law.quadratic ≠ 0) (h : law.ofVector s = target) :
    (law.quartic form target.re target.im).eval (form.coordinate s) = 0 := by
  obtain ⟨h1, h2⟩ := (ofVector_eq_iff law s target).mp h
  cases form with
  | imaginaryFirst =>
    have e := eval_imaginaryFirst ha target.re target.im s.im
    rw [← h1, ← h2] at e ⊢
    refine (mul_eq_zero.mp (e.trans ?_)).resolve_left (by positivity)
    ring
  | realFirst =>
    have e := eval_realFirst ha target.re target.im s.re
    rw [← h1, ← h2] at e ⊢
    refine (mul_eq_zero.mp (e.trans ?_)).resolve_left (by positivity)
    ring

variable (law form) in
/-- The space vector that a root is completed to. -/
noncomputable def completion (fy root : ℝ) : SpaceVector ℝ :=
  match form with
  | .imaginaryFirst => ⟨1.5 * (law.linear / law.quadratic - fy / (law.quadratic * root)), root⟩
  | .realFirst => ⟨root, 3.0 * fy / (3.0 * law.linear - 2.0 * law.quadratic * root)⟩

theorem completion_imaginaryFirst (fy : ℝ) : law.completion .imaginaryFirst fy root =
    ⟨3 / 2 * (law.linear / law.quadratic - fy / (law.quadratic * root)), root⟩ := by
  have h15 : (1.5 : ℝ) = 3 / 2 := by norm_num
  simp only [completion, h15]

theorem completion_realFirst (fy : ℝ) : law.completion .realFirst fy root =
    ⟨root, 3 * fy / (3 * law.linear - 2 * law.quadratic * root)⟩ := by
  simp only [completion, Exact.two_eq, Exact.three_eq]

theorem singular_realFirst : law.Singular .realFirst root ↔ 3 * law.linear - 2 * law.quadratic * root = 0 := by
  simp only [Singular, Exact.two_eq, Exact.three_eq]

theorem guarded_of_singular (h : law.Singular form root) : law.Guarded form root := by
  cases form with
  | imaginaryFirst =>
    have h0 : root = 0 := h
    simp only [Guarded, h0, abs_zero, Quartic.zeroTolerance_eq]
    positivity
  | realFirst =>
    have h0 : 3.0 * law.linear - 2.0 * law.quadratic * root = 0 := h
    simp only [Guarded, h0, abs_zero, Quartic.zeroTolerance_eq]
    positivity

theorem pair_of_guarded (fy : ℝ) (hg : law.Guarded form root) : law.pair form fy root = none := by
  cases form with
  | imaginaryFirst => exact if_pos hg
  | realFirst => exact if_pos hg

theorem pair_of_not_guarded (fy : ℝ) (hg : ¬ law.Guarded form root) :
    law.pair form fy root = some (law.completion form fy root) := by
  cases form with
  | imaginaryFirst => exact if_neg hg
  | realFirst => exact if_neg hg

theorem pair_eq_some_iff (fy : ℝ) :
    law.pair form fy root = some s ↔ ¬ law.Guarded form root ∧ law.completion form fy root = s := by
  by_cases hg : law.Guarded form root
  · simp [pair_of_guarded fy hg, hg]
  · simp [pair_of_not_guarded fy hg, hg]

/-- A solution is what its first coordinate completes to. -/
theorem completion_coordinate (ha : law.quadratic ≠ 0) (h : law.ofVector s = target)
    (hs : ¬ law.Singular form (form.coordinate s)) : law.completion form target.im (form.coordinate s) = s := by
  obtain ⟨-, h2⟩ := (ofVector_eq_iff law s target).mp h
  obtain ⟨x, y⟩ := s
  cases form with
  | imaginaryFirst =>
    have hy : y ≠ 0 := hs
    rw [← h2]
    simp only [completion_imaginaryFirst, Formulation.coordinate, Cx.mk.injEq, and_true]
    field_simp
    ring
  | realFirst =>
    have hd : 3 * law.linear - 2 * law.quadratic * x ≠ 0 := mt singular_realFirst.mpr hs
    rw [← h2]
    simp only [completion_realFirst, Formulation.coordinate, Cx.mk.injEq, true_and]
    field_simp

/-- What a root completes to is a solution. -/
theorem force_completion (ha : law.quadratic ≠ 0) (hr : (law.quartic form target.re target.im).eval root = 0)
    (hs : ¬ law.Singular form root) : law.ofVector (law.completion form target.im root) = target := by
  rw [ofVector_eq_iff]
  cases form with
  | imaginaryFirst =>
    have hy : root ≠ 0 := hs
    have e := eval_imaginaryFirst ha target.re target.im root
    rw [hr, mul_zero] at e
    simp only [completion_imaginaryFirst]
    refine ⟨?_, ?_⟩
    · field_simp
      linear_combination e
    · field_simp
      ring
  | realFirst =>
    have hd : 3 * law.linear - 2 * law.quadratic * root ≠ 0 := mt singular_realFirst.mpr hs
    have e := eval_realFirst ha target.re target.im root
    rw [hr, mul_zero] at e
    simp only [completion_realFirst]
    generalize hde : 3 * law.linear - 2 * law.quadratic * root = d at hd e ⊢
    refine ⟨?_, ?_⟩
    · field_simp
      linear_combination -e
    · have hd3 : law.linear - 2 * law.quadratic / 3 * root = d / 3 := by rw [← hde]; ring
      rw [hd3]
      field_simp

/-! ## All solutions -/

variable (law form target) in
/-- What the roots of the quartic are completed to. -/
def completed : Set (SpaceVector ℝ) :=
  {s | ∃ root, (law.quartic form target.re target.im).eval root = 0 ∧ law.pair form target.im root = some s}

theorem force_of_pair (ha : law.quadratic ≠ 0) (hr : (law.quartic form target.re target.im).eval root = 0)
    (hp : law.pair form target.im root = some s) : law.ofVector s = target := by
  obtain ⟨hg, rfl⟩ := (pair_eq_some_iff _).mp hp
  exact force_completion ha hr (mt guarded_of_singular hg)

theorem pair_coordinate (ha : law.quadratic ≠ 0) (h : law.ofVector s = target)
    (hg : ¬ law.Guarded form (form.coordinate s)) : law.pair form target.im (form.coordinate s) = some s :=
  (pair_eq_some_iff _).mpr ⟨hg, completion_coordinate ha h (mt guarded_of_singular hg)⟩

/-- The root that a space vector was completed from is its coordinate. -/
theorem coordinate_of_pair {fy : ℝ} (hp : law.pair form fy root = some s) : form.coordinate s = root := by
  obtain ⟨-, rfl⟩ := (pair_eq_some_iff _).mp hp
  cases form <;> rfl

theorem pair_eq_none_iff (fy : ℝ) : law.pair form fy root = none ↔ law.Guarded form root := by
  by_cases hg : law.Guarded form root
  · simp [pair_of_guarded fy hg, hg]
  · simp [pair_of_not_guarded fy hg, hg]

/-- Completing loses the solutions inside the guard and no other, and makes up none. -/
theorem mem_completed_iff (ha : law.quadratic ≠ 0) :
    s ∈ law.completed form target ↔ law.ofVector s = target ∧ ¬ law.Guarded form (form.coordinate s) := by
  constructor
  · rintro ⟨root, hr, hp⟩
    refine ⟨force_of_pair ha hr hp, ?_⟩
    rw [coordinate_of_pair hp]
    exact ((pair_eq_some_iff _).mp hp).1
  · rintro ⟨h, hg⟩
    exact ⟨form.coordinate s, eval_coordinate ha h, pair_coordinate ha h hg⟩

/-- The reduction to a quartic is exact: what a root completes to has the force, and every vector with the force
is what its coordinate, a root, completes to, unless that is inside the guard. So where the guard of a formulation
takes no solution away, its roots complete to all of them. -/
theorem reduction_exact (ha : law.quadratic ≠ 0) (target : Cx ℝ) (form : Formulation) :
    (∀ root, law.pair form target.im root = none ↔ law.Guarded form root) ∧
      (∀ root s, (law.quartic form target.re target.im).eval root = 0 → law.pair form target.im root = some s →
        law.ofVector s = target) ∧
      (∀ s, law.ofVector s = target → ¬ law.Guarded form (form.coordinate s) →
        (law.quartic form target.re target.im).eval (form.coordinate s) = 0 ∧
          law.pair form target.im (form.coordinate s) = some s) ∧
      ((∀ s, law.ofVector s = target → ¬ law.Guarded form (form.coordinate s)) →
        law.completed form target = {s | law.ofVector s = target}) := by
  refine ⟨fun root => pair_eq_none_iff _, fun root s => force_of_pair ha,
    fun s h hg => ⟨eval_coordinate ha h, pair_coordinate ha h hg⟩, fun hclear => ?_⟩
  ext s
  rw [mem_completed_iff ha]
  exact and_iff_left_of_imp (hclear s)

/-- A force that neither guard takes a solution from: both formulations complete to the same vectors. -/
theorem reduction_exact_plain :
    let law : ForceLaw ℝ := ⟨3, 3⟩
    law.quadratic ≠ 0 ∧ (∀ form, law.completed form ⟨3, 1⟩ = {s | law.ofVector s = ⟨3, 1⟩}) ∧
      ∀ form, (⟨1, 1⟩ : SpaceVector ℝ) ∈ law.completed form ⟨3, 1⟩ := by
  intro law
  have ha : law.quadratic ≠ 0 := by norm_num [law]
  have hforce (s : SpaceVector ℝ) : law.ofVector s = ⟨3, 1⟩ ↔
      s.re ^ 2 - s.im ^ 2 + 3 * s.re = 3 ∧ s.im * (3 - 2 * s.re) = 1 := by
    rw [ofVector_eq_iff]
    norm_num [law]
  have hclear (form : Formulation) (s : SpaceVector ℝ) (hs : law.ofVector s = ⟨3, 1⟩) :
      ¬ law.Guarded form (form.coordinate s) := by
    obtain ⟨h1, h2⟩ := (hforce s).mp hs
    cases form with
    | imaginaryFirst =>
      -- The quartic at an imaginary part as small as the guard has it: far below zero.
      have hroot : 4 * s.im ^ 4 - 15 * s.im ^ 2 + 12 * s.im = 1 := by
        linear_combination -4 * s.im ^ 2 * h1 + (s.im * (3 - 2 * s.re) + 1 - 12 * s.im) * h2
      intro hg
      have hsmall : |s.im| < 1 / 10 ^ 12 := by simpa only [Guarded, Formulation.coordinate, Quartic.zeroTolerance_eq] using hg
      obtain ⟨-, hupper⟩ := abs_lt.mp hsmall
      have hsq : s.im ^ 2 ≤ 1 := (sq_le_one_iff_abs_le_one _).mpr (hsmall.le.trans (by norm_num))
      have hfourth : 4 * s.im ^ 4 ≤ 4 * s.im ^ 2 := by nlinarith [sq_nonneg s.im]
      linarith [sq_nonneg s.im]
    | realFirst =>
      have hroot : (3 - 2 * s.re) ^ 2 * ((3 - 2 * s.re) ^ 2 - 12 * (3 - 2 * s.re) + 15) = 4 := by
        linear_combination 4 * (3 - 2 * s.re) ^ 2 * h1 + 4 * (s.im * (3 - 2 * s.re) + 1) * h2
      intro hg
      have hsmall : |3 - 2 * s.re| ≤ 1 / 10 := by
        have h3 : |3 * (3 - 2 * s.re)| ≤ 1 / 10 ^ 12 * 9 := by
          have he : 3 * (3 : ℝ) - 2 * 3 * s.re = 3 * (3 - 2 * s.re) := by ring
          have h9 : |3 * (3 : ℝ)| = 9 := by norm_num
          simpa only [Guarded, Formulation.coordinate, law, Quartic.zeroTolerance_eq, Exact.two_eq, Exact.three_eq, he, h9]
            using hg
        rw [abs_mul, abs_of_pos three_pos] at h3
        linarith
      generalize 3 - 2 * s.re = d at hroot hsmall
      obtain ⟨hlower, hupper⟩ := abs_le.mp hsmall
      have hsq : d ^ 2 ≤ 1 / 100 := by nlinarith
      nlinarith [sq_nonneg d]
  have hall (form : Formulation) : law.completed form ⟨3, 1⟩ = {s | law.ofVector s = ⟨3, 1⟩} :=
    (reduction_exact ha ⟨3, 1⟩ form).2.2.2 (hclear form)
  refine ⟨ha, hall, fun form => ?_⟩
  rw [hall]
  exact (hforce _).mpr (by norm_num)

end ForceLaw

end MagneticBearing
