/-
  MagneticBearing.Proofs.Newton — what one polishing step does, and what a run of them keeps.

  The law is quadratic, so a step solves the linear part of the miss exactly and what is left is
  the square of the step: `quadratic / 3 · conj(d)²` (`newtonStep_linear`, `onPlane_step`). The
  derivative at `s` has the determinant `linear² - (2 · quadratic / 3)² · |s|²` (`jacobian`); a step is
  refused only where that is negligible (`newtonStep_eq_none_iff`).

  A run is a sequence of steps that ends early at a refused step or at one too short to matter
  (`refineFrom_induction`). It leaves exact solutions alone (`refineFrom_exact`) and keeps the real
  axis (`refineFrom_on_axis`). A map that scales lengths and takes steps to steps takes runs to runs
  (`refineFrom_map`).
-/

import MagneticBearing.Proofs.ForceMap

namespace MagneticBearing.ForceLaw

open ComplexConjugate

variable (law : ForceLaw ℝ)

/-- How far the force of `s` is from the target. -/
noncomputable def miss (target s : Cx ℝ) : ℝ := ‖law.onPlane s.toComplex - target.toComplex‖

/-- The determinant of the derivative at `s`. -/
noncomputable def jacobian (s : Cx ℝ) : ℝ :=
  law.linear ^ 2 - (2.0 * law.quadratic / 3.0) ^ 2 * ‖s.toComplex‖ ^ 2

theorem jacobian_eq (s : Cx ℝ) :
    law.jacobian s = law.linear ^ 2 - (2 * law.quadratic / 3) ^ 2 * ‖s.toComplex‖ ^ 2 := by
  simp only [jacobian, Exact.two_eq, Exact.three_eq]

theorem jacobian_det (s : Cx ℝ) : law.jacobian s =
    (law.linear + 2 * law.quadratic / 3 * s.re) * (law.linear - 2 * law.quadratic / 3 * s.re) -
      (2 * law.quadratic / 3 * s.im) ^ 2 := by
  rw [jacobian_eq, Complex.sq_norm, Complex.normSq_apply]
  show law.linear ^ 2 - (2 * law.quadratic / 3) ^ 2 * (s.re * s.re + s.im * s.im) = _
  ring

variable {law} {target s d : Cx ℝ}

theorem reproduces_iff : law.reproduces s target = true ↔
    law.miss target s ≤ 1 / 10 ^ 9 * (‖target.toComplex‖ + law.linear * ‖s.toComplex‖ +
      law.quadratic * ‖s.toComplex‖ ^ 2 / 3) := by
  simp only [reproduces, tolerance_eq, Exact.three_eq, Cx.norm_eq, Cx.toComplex_sub, toComplex_ofVector]
  show (true && decide _) = true ↔ _
  rw [Bool.true_and, decide_eq_true_eq, sq, ← mul_assoc]
  rfl

theorem miss_eq_zero_iff : law.miss target s = 0 ↔ law.ofVector s = target := by
  rw [miss, norm_eq_zero, sub_eq_zero, ← toComplex_ofVector, Cx.toComplex_inj]

/-- An exact solution passes the check. -/
theorem reproduces_of_eq (ha : 0 ≤ law.quadratic) (hb : 0 ≤ law.linear) (h : law.ofVector s = target) :
    law.reproduces s target = true := by
  rw [reproduces_iff, miss_eq_zero_iff.mpr h]
  positivity

/-! ## One step -/

theorem newtonStep_eq (target s : Cx ℝ) : law.newtonStep target s =
    let m := law.ofVector s - target
    let j11 := law.linear + 2 * law.quadratic / 3 * s.re
    let j22 := law.linear - 2 * law.quadratic / 3 * s.re
    let j12 := -(2 * law.quadratic / 3 * s.im)
    if |law.jacobian s| ≤ 1 / 10 ^ 12 * law.linear ^ 2 then none
    else some ⟨(j22 * m.re - j12 * m.im) / law.jacobian s, (j11 * m.im - j12 * m.re) / law.jacobian s⟩ := by
  have e11 : law.linear + 2 * law.quadratic * s.re / 3 = law.linear + 2 * law.quadratic / 3 * s.re := by ring
  have e22 : law.linear - 2 * law.quadratic * s.re / 3 = law.linear - 2 * law.quadratic / 3 * s.re := by ring
  have e12 : -2 * law.quadratic * s.im / 3 = -(2 * law.quadratic / 3 * s.im) := by ring
  have edet : (law.linear + 2 * law.quadratic / 3 * s.re) * (law.linear - 2 * law.quadratic / 3 * s.re) -
      -(2 * law.quadratic / 3 * s.im) * -(2 * law.quadratic / 3 * s.im) = law.jacobian s := by
    rw [jacobian_det]
    ring
  simp only [newtonStep, Quartic.zeroTolerance_eq, Exact.two_eq, Exact.three_eq, e11, e22, e12, edet]
  have hg : (!Arith.finite (law.jacobian s) || decide (Arith.abs (law.jacobian s) ≤ 1 / 10 ^ 12 * law.linear * law.linear)) =
      decide (|law.jacobian s| ≤ 1 / 10 ^ 12 * law.linear ^ 2) := by
    show (false || _) = _
    rw [Bool.false_or, sq, ← mul_assoc]
    rfl
  rw [hg]
  simp only [decide_eq_true_eq]

theorem newtonStep_eq_none_iff : law.newtonStep target s = none ↔
    |law.jacobian s| ≤ 1 / 10 ^ 12 * law.linear ^ 2 := by
  rw [newtonStep_eq]
  simp

/-- The step as a complex number. -/
theorem newtonStep_toComplex (h : law.newtonStep target s = some d) :
    d.toComplex = (1 / law.jacobian s : ℝ) * (law.linear * (law.ofVector s - target).toComplex -
      (2 * law.quadratic / 3 : ℝ) * (conj s.toComplex * conj (law.ofVector s - target).toComplex)) := by
  rw [newtonStep_eq] at h
  simp only at h
  split at h
  · cases h
  generalize law.ofVector s - target = m at h ⊢
  cases h
  apply Complex.ext
  · simp
    ring
  · simp
    ring

theorem jacobian_ne_zero (h : law.newtonStep target s = some d) : law.jacobian s ≠ 0 := by
  intro h0
  have hnone : law.newtonStep target s = none := by
    rw [newtonStep_eq_none_iff, h0, abs_zero]
    positivity
  rw [hnone] at h
  cases h

/-- The step removes the linear part of the miss. -/
theorem newtonStep_linear (h : law.newtonStep target s = some d) :
    law.linear * d.toComplex + 2 * law.quadratic / 3 * (conj s.toComplex * conj d.toComplex) =
      law.onPlane s.toComplex - target.toComplex := by
  have hj := jacobian_ne_zero h
  rw [newtonStep_eq] at h
  simp only at h
  split at h
  · cases h
  rw [← toComplex_ofVector, ← Cx.toComplex_sub]
  generalize law.ofVector s - target = m at h ⊢
  cases h
  apply Complex.ext
  · simp
    field_simp
    rw [jacobian_det]
    ring
  · simp
    field_simp
    rw [jacobian_det]
    ring

/-- The law at a point moved by `d`: the linear part, and the square of `d`. -/
theorem onPlane_sub (z d : ℂ) : law.onPlane (z - d) =
    law.onPlane z - (law.linear * d + 2 * law.quadratic / 3 * (conj z * conj d)) + law.quadratic / 3 * conj d ^ 2 := by
  rw [onPlane_eq, onPlane_eq, map_sub]
  ring

theorem norm_square_term (law : ForceLaw ℝ) (z : ℂ) :
    ‖law.quadratic / 3 * conj z ^ 2‖ = |law.quadratic| / 3 * ‖z‖ ^ 2 := by
  rw [norm_mul, norm_pow, Complex.norm_conj, norm_div, Complex.norm_real, Real.norm_eq_abs]
  norm_num

/-- What a step leaves of the miss: the square of the step. -/
theorem onPlane_step (h : law.newtonStep target s = some d) :
    law.onPlane (s - d).toComplex - target.toComplex = law.quadratic / 3 * conj d.toComplex ^ 2 := by
  rw [Cx.toComplex_sub, onPlane_sub, newtonStep_linear h]
  ring

theorem miss_step (h : law.newtonStep target s = some d) :
    law.miss target (s - d) = |law.quadratic| / 3 * ‖d.toComplex‖ ^ 2 := by
  rw [miss, onPlane_step h, norm_square_term]

/-- A step is no longer than the miss over the least slope of the law at `s`. -/
theorem norm_step_le (ha : 0 ≤ law.quadratic) (hb : 0 < law.linear) (h : law.newtonStep target s = some d) :
    (law.linear - 2 * law.quadratic / 3 * ‖s.toComplex‖) * ‖d.toComplex‖ ≤ law.miss target s := by
  have hl : ‖(law.linear : ℂ) * d.toComplex‖ = law.linear * ‖d.toComplex‖ := by
    rw [norm_mul, Complex.norm_real, Real.norm_of_nonneg hb.le]
  have hq : ‖2 * (law.quadratic : ℂ) / 3 * (conj s.toComplex * conj d.toComplex)‖ =
      2 * law.quadratic / 3 * (‖s.toComplex‖ * ‖d.toComplex‖) := by
    rw [norm_mul, norm_mul, Complex.norm_conj, Complex.norm_conj, norm_div, norm_mul, Complex.norm_real,
      Real.norm_of_nonneg ha]
    norm_num
  have htri := norm_sub_le_norm_add (law.linear * d.toComplex)
    (2 * law.quadratic / 3 * (conj s.toComplex * conj d.toComplex))
  rw [hl, hq, newtonStep_linear h] at htri
  calc (law.linear - 2 * law.quadratic / 3 * ‖s.toComplex‖) * ‖d.toComplex‖
      = law.linear * ‖d.toComplex‖ - 2 * law.quadratic / 3 * (‖s.toComplex‖ * ‖d.toComplex‖) := by ring
    _ ≤ law.miss target s := htri

/-- From an exact solution the step goes nowhere. -/
theorem newtonStep_exact (h : law.ofVector s = target) (hd : law.newtonStep target s = some d) : s - d = s := by
  have hm : law.ofVector s - target = ⟨0, 0⟩ := by
    rw [← Cx.toComplex_inj, Cx.toComplex_sub, h, sub_self]
    rfl
  rw [newtonStep_eq, hm] at hd
  simp only [mul_zero, sub_zero, zero_div] at hd
  split at hd
  · cases hd
  · cases hd
    rw [← Cx.toComplex_inj, Cx.toComplex_sub]
    exact sub_zero _

/-- A real target is approached along the real axis. -/
theorem newtonStep_on_axis (ht : target.im = 0) (hs : s.im = 0) (hd : law.newtonStep target s = some d) :
    (s - d).im = 0 := by
  have hm : (law.ofVector s - target).im = 0 := by
    show (law.ofVector s).im - target.im = 0
    rw [ofVector_im, hs, ht]
    ring
  rw [newtonStep_eq] at hd
  simp only [hm, hs, mul_zero, zero_mul, neg_zero, sub_zero, zero_div] at hd
  split at hd
  · cases hd
  · cases hd
    show s.im - 0 = 0
    rw [hs, sub_zero]

/-! ## A run -/

variable (law target) in
/-- Where a run stops before its steps are used up: no step is possible, or the last was too short to matter. -/
def Settled (s : SpaceVector ℝ) : Prop :=
  law.newtonStep target s = none ∨
    ∃ t d, law.newtonStep target t = some d ∧ s = t - d ∧ ‖d.toComplex‖ ≤ Arith.epsilon * ‖s.toComplex‖

theorem refineFrom_succ (target s : Cx ℝ) (n : ℕ) : law.refineFrom target (n + 1) s =
    match law.newtonStep target s with
    | none => s
    | some d =>
      if ‖d.toComplex‖ ≤ Arith.epsilon * ‖(s - d).toComplex‖ then s - d else law.refineFrom target n (s - d) := by
  rw [refineFrom]
  cases law.newtonStep target s with
  | none => rfl
  | some d =>
    simp only [Cx.norm_eq, Cx.finite_eq, Bool.not_true, Bool.or_false, decide_eq_true_eq]

/-- What each step keeps, a run keeps; `k` counts the steps. -/
theorem refineFrom_induction {P : ℕ → SpaceVector ℝ → Prop}
    (step : ∀ k s d, P k s → law.newtonStep target s = some d → P (k + 1) (s - d)) (n : ℕ) {k : ℕ}
    (h : P k s) : ∃ j, P j (law.refineFrom target n s) ∧ (j = k + n ∨ law.Settled target (law.refineFrom target n s)) := by
  induction n generalizing k s with
  | zero => exact ⟨k, h, .inl rfl⟩
  | succ n ih =>
    rw [refineFrom_succ]
    cases hd : law.newtonStep target s with
    | none => exact ⟨k, h, .inr (.inl hd)⟩
    | some d =>
      simp only
      have hnext := step k s d h hd
      split
      · rename_i hshort
        exact ⟨k + 1, hnext, .inr (.inr ⟨s, d, hd, rfl, hshort⟩)⟩
      · obtain ⟨j, hj, hend⟩ := ih hnext
        exact ⟨j, hj, hend.imp_left fun e => by omega⟩

theorem refineFrom_exact (h : law.ofVector s = target) (n : ℕ) : law.refineFrom target n s = s := by
  have step (_ : ℕ) (t d : Cx ℝ) (ht : t = s) (hd : law.newtonStep target t = some d) : t - d = s := by
    rw [ht] at hd ⊢
    exact newtonStep_exact h hd
  obtain ⟨_, hs, -⟩ := refineFrom_induction step n (k := 0) rfl
  exact hs

theorem refineFrom_on_axis (ht : target.im = 0) (hs : s.im = 0) (n : ℕ) : (law.refineFrom target n s).im = 0 := by
  have step (_ : ℕ) (t d : Cx ℝ) (h : t.im = 0) (hd : law.newtonStep target t = some d) : (t - d).im = 0 :=
    newtonStep_on_axis ht h hd
  obtain ⟨_, h, -⟩ := refineFrom_induction step n (k := 0) hs
  exact h

/-! ## The image of a run -/

variable {law' : ForceLaw ℝ} {target' : Cx ℝ} {f : Cx ℝ → Cx ℝ}

theorem newtonStep_map (hnone : law'.newtonStep target' (f s) = none ↔ law.newtonStep target s = none)
    (hsome : ∀ d d', law.newtonStep target s = some d → law'.newtonStep target' (f s) = some d' → d' = f d) :
    law'.newtonStep target' (f s) = (law.newtonStep target s).map f := by
  cases hd : law.newtonStep target s with
  | none => exact hnone.mpr hd
  | some d =>
    cases hd' : law'.newtonStep target' (f s) with
    | none =>
      rw [hnone.mp hd'] at hd
      cases hd
    | some d' =>
      rw [hsome d d' hd hd']
      rfl

/-- Where every step has an image the run has one: its exits depend on ratios of lengths alone. -/
theorem refineFrom_map {c : ℝ} (hc : 0 < c) (hsub : ∀ s d, f (s - d) = f s - f d)
    (hnorm : ∀ s, ‖(f s).toComplex‖ = c * ‖s.toComplex‖)
    (hstep : ∀ s, law'.newtonStep target' (f s) = (law.newtonStep target s).map f) (n : ℕ) (s : Cx ℝ) :
    law'.refineFrom target' n (f s) = f (law.refineFrom target n s) := by
  have hshort (s d : Cx ℝ) : ‖(f d).toComplex‖ ≤ Arith.epsilon * ‖(f (s - d)).toComplex‖ ↔
      ‖d.toComplex‖ ≤ Arith.epsilon * ‖(s - d).toComplex‖ := by
    rw [hnorm, hnorm, mul_left_comm, mul_le_mul_iff_right₀ hc]
  induction n generalizing s with
  | zero => rfl
  | succ n ih =>
    rw [refineFrom_succ, refineFrom_succ, hstep]
    cases law.newtonStep target s with
    | none => rfl
    | some d =>
      simp only [Option.map_some, ← hsub, hshort]
      split
      · rfl
      · exact ih (s - d)

end MagneticBearing.ForceLaw
