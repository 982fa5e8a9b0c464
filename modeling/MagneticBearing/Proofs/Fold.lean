/-
  MagneticBearing.Proofs.Fold — the circle where the force law folds, and the one solution inside it.

  The law is quadratic, so two space vectors with one force have a sum of fixed length
  (`norm_add_of_same_force`): twice the radius of the circle where the derivative is singular
  (`foldRadius`). If one of them lies inside that circle or on it, every other is longer
  (`norm_lt_of_same_force`). A polishing step divides by the determinant of the derivative
  (`newtonStep_determinant`), which is positive exactly inside the circle (`determinant_pos_iff`).

  The poles of an unsaturated space vector have at most what the bias leaves of the saturation field, so
  the vector is no longer than three times that (`norm_le_headroom`). The circle's radius is three times
  the bias. With a bias of at least half the saturation field it has every unsaturated space vector inside.

  The polished linear solution of a small force is merged into the exact one (`close_linear`). With a finder
  that is exact all candidates are exact then (`exact_of_small`).

  - `inside_fold_least`: at most one solution of a force is inside the circle, and it is the shortest one, as
    poles too.
  - `unsaturated_solution_least`: there an unsaturated solution is the only one of its force, and shorter
    than every other. So of exact solutions the saturation check never selects another one.
-/

import MagneticBearing.Proofs.Completeness
import MagneticBearing.Proofs.Saturation
import MagneticBearing.Proofs.SmallForce

namespace MagneticBearing

open ComplexConjugate

/-! ## The fold -/

namespace ForceLaw

variable (law : ForceLaw ℝ)

/-- The radius of the circle where the derivative of the law is singular. -/
noncomputable def foldRadius : ℝ := 3.0 * law.linear / (2.0 * law.quadratic)

theorem foldRadius_eq : law.foldRadius = 3 * law.linear / (2 * law.quadratic) := by
  simp only [foldRadius, Exact.two_eq, Exact.three_eq]

variable {law} {z w : ℂ} {s t : SpaceVector ℝ} (ha : 0 < law.quadratic) (hb : 0 < law.linear)

include ha hb

/-- What the linear part tells apart the quadratic part has to bring together again. -/
theorem norm_add_of_same_force (h : law.onPlane z = law.onPlane w) (hne : z ≠ w) : ‖z + w‖ = 2 * law.foldRadius := by
  have hd : ‖z - w‖ ≠ 0 := norm_ne_zero_iff.mpr (sub_ne_zero.mpr hne)
  have e : (law.linear : ℂ) * (z - w) = -((law.quadratic / 3 : ℝ) * (conj (z + w) * conj (z - w))) := by
    rw [onPlane_eq, onPlane_eq] at h
    simp only [map_sub, map_add]
    push_cast
    linear_combination h
  have hn := congrArg norm e
  rw [norm_neg, norm_mul, norm_mul, norm_mul, Complex.norm_conj, Complex.norm_conj, Complex.norm_real, Complex.norm_real,
    Real.norm_of_nonneg hb.le, Real.norm_of_nonneg (by positivity), ← mul_assoc] at hn
  have hsum : law.linear = law.quadratic / 3 * ‖z + w‖ := mul_right_cancel₀ hd hn
  rw [foldRadius_eq, hsum]
  field_simp

theorem norm_sum_of_same_force (h : law.ofVector s = law.ofVector t) (hne : s ≠ t) :
    ‖s.toComplex + t.toComplex‖ = 2 * law.foldRadius := by
  have hplane : law.onPlane s.toComplex = law.onPlane t.toComplex := by
    rw [← toComplex_ofVector, ← toComplex_ofVector, h]
  exact norm_add_of_same_force ha hb hplane (mt Cx.toComplex_inj.mp hne)

/-- Next to a vector inside the circle every other with its force is longer. -/
theorem norm_lt_of_same_force (h : law.ofVector s = law.ofVector t) (hne : s ≠ t)
    (hs : ‖s.toComplex‖ ≤ law.foldRadius) : ‖s.toComplex‖ < ‖t.toComplex‖ := by
  have hne' : s.toComplex ≠ t.toComplex := mt Cx.toComplex_inj.mp hne
  have hsum := norm_sum_of_same_force ha hb h hne
  have htri := norm_add_le s.toComplex t.toComplex
  by_contra hlt
  -- Both would be on the circle, and add up in length only if they are the same.
  have heq : ‖s.toComplex‖ = ‖t.toComplex‖ := by linarith [not_lt.mp hlt]
  exact hne' (eq_of_norm_eq_of_norm_add_eq heq (by linarith))

/-- The law does not fold inside the circle. -/
theorem eq_of_same_force (h : law.ofVector s = law.ofVector t) (hs : ‖s.toComplex‖ ≤ law.foldRadius)
    (ht : ‖t.toComplex‖ ≤ law.foldRadius) : s = t := by
  by_contra hne
  exact lt_asymm (norm_lt_of_same_force ha hb h hne hs) (norm_lt_of_same_force ha hb h.symm (Ne.symm hne) ht)

end ForceLaw

/-! ## Small forces -/

namespace ForceLaw

variable {law : ForceLaw ℝ} {target s k : Cx ℝ}

/-- The law rises at least by what is left of its linear part. -/
theorem mul_norm_sub_le (ha : 0 ≤ law.quadratic) (hb : 0 ≤ law.linear) (z w : ℂ) :
    (law.linear - law.quadratic / 3 * ‖z + w‖) * ‖z - w‖ ≤ ‖law.onPlane z - law.onPlane w‖ := by
  have hsplit : law.onPlane z - law.onPlane w =
      (law.linear : ℂ) * (z - w) + (law.quadratic / 3 : ℝ) * (conj (z + w) * conj (z - w)) := by
    rw [onPlane_eq, onPlane_eq, map_sub, map_add]
    push_cast
    ring
  have htri := norm_sub_norm_le ((law.linear : ℂ) * (z - w)) (-((law.quadratic / 3 : ℝ) * (conj (z + w) * conj (z - w))))
  rw [norm_neg, sub_neg_eq_add, ← hsplit] at htri
  rw [norm_mul, norm_mul, norm_mul, Complex.norm_conj, Complex.norm_conj, Complex.norm_real, Complex.norm_real,
    Real.norm_of_nonneg hb, Real.norm_of_nonneg (by positivity)] at htri
  calc (law.linear - law.quadratic / 3 * ‖z + w‖) * ‖z - w‖
      = law.linear * ‖z - w‖ - law.quadratic / 3 * (‖z + w‖ * ‖z - w‖) := by ring
    _ ≤ ‖law.onPlane z - law.onPlane w‖ := htri

namespace Small

variable (h : Small law target) (hs : law.ofVector s = target) (hle : ‖s.toComplex‖ ≤ law.radius target)

include h hs hle

/-- The polished linear solution is hardly off the exact one. -/
theorem close_linear : close s (law.refine (Cx.divReal target law.linear) target) = true := by
  obtain ⟨j, hj, -⟩ := near_run h refineSteps
  have hmiss := miss_refine h
  generalize ht : law.refine (Cx.divReal target law.linear) target = t at hmiss ⊢
  have ht' : ‖t.toComplex‖ ≤ 5 / 3 * law.radius target := by
    rw [← ht]
    exact Near.norm_le_radius h hj
  have ha := h.quadratic_pos
  have hb := h.linear_pos
  have hR := h.quadratic_mul_radius
  have hslope : 5 / 9 * law.linear ≤ law.linear - law.quadratic / 3 * ‖s.toComplex + t.toComplex‖ := by
    have hsum : ‖s.toComplex + t.toComplex‖ ≤ 8 / 3 * law.radius target := (norm_add_le _ _).trans (by linarith)
    have hterm : law.quadratic / 3 * ‖s.toComplex + t.toComplex‖ ≤ law.quadratic / 3 * (8 / 3 * law.radius target) := by
      gcongr
    linarith
  have hdist : ‖s.toComplex - t.toComplex‖ ≤ 9 / 5 * (1 / 10 ^ 20) * law.radius target := by
    refine le_of_mul_le_mul_left ?_ (by positivity : 0 < 5 / 9 * law.linear)
    calc 5 / 9 * law.linear * ‖s.toComplex - t.toComplex‖
        ≤ (law.linear - law.quadratic / 3 * ‖s.toComplex + t.toComplex‖) * ‖s.toComplex - t.toComplex‖ := by gcongr
      _ ≤ ‖law.onPlane s.toComplex - law.onPlane t.toComplex‖ := mul_norm_sub_le ha.le hb.le _ _
      _ = law.miss target t := by rw [← toComplex_ofVector, hs, norm_sub_rev, miss]
      _ ≤ 1 / 10 ^ 20 * (law.linear * law.radius target) := by rwa [h.linear_mul_radius]
      _ = 5 / 9 * law.linear * (9 / 5 * (1 / 10 ^ 20) * law.radius target) := by ring
  have hlong : law.radius target ≤ 7 / 6 * ‖s.toComplex‖ := by
    refine le_of_mul_le_mul_left ?_ hb
    calc law.linear * law.radius target = ‖law.onPlane s.toComplex‖ := by
          rw [h.linear_mul_radius, ← toComplex_ofVector, hs]
      _ ≤ law.linear * ‖s.toComplex‖ + law.quadratic * ‖s.toComplex‖ ^ 2 / 3 := norm_onPlane_le ha.le hb.le _
      _ ≤ law.linear * ‖s.toComplex‖ + law.linear / 2 * ‖s.toComplex‖ / 3 := by
          have hshort : law.quadratic * ‖s.toComplex‖ ≤ law.linear / 2 := le_trans (by gcongr) hR
          have := mul_le_mul_of_nonneg_right hshort (norm_nonneg s.toComplex)
          linarith
      _ = law.linear * (7 / 6 * ‖s.toComplex‖) := by ring
  rw [close_iff]
  linarith [le_max_left ‖s.toComplex‖ ‖t.toComplex‖, norm_nonneg s.toComplex]

/-- Another solution that is as short would be the same. -/
theorem eq_of_close (hk : law.ofVector k = target) (hc : close k s = true) : k = s := by
  by_contra hne
  have hsum := norm_sum_of_same_force h.quadratic_pos h.linear_pos (hk.trans hs.symm) hne
  have htri := norm_add_le k.toComplex s.toComplex
  have hlong := norm_le_of_close hc
  have hpos : 0 < law.foldRadius := by
    rw [foldRadius_eq]
    exact div_pos (mul_pos three_pos h.linear_pos) (mul_pos two_pos h.quadratic_pos)
  have hfold : 3 * law.radius target ≤ law.foldRadius := by
    rw [foldRadius_eq, le_div_iff₀ (mul_pos two_pos h.quadratic_pos)]
    linarith [h.quadratic_mul_radius]
  linarith

end Small

end ForceLaw

namespace Allocator

variable {a : Allocator ℝ} {direction magnitude : ℝ} {sols : Solutions ℝ} {s : SpaceVector ℝ}

/-- With a finder that is exact, a small force has exact candidates: the linear solution ends at one of them. -/
theorem ExactAnswer.exact_of_small (h : a.ExactAnswer direction magnitude sols)
    (hsmall : ForceLaw.Small a.bearing.law (target direction magnitude))
    (hs : a.bearing.law.ofVector s = target direction magnitude)
    (hle : ‖s.toComplex‖ ≤ a.bearing.law.radius (target direction magnitude))
    (hd : ¬ a.bearing.law.Dropped sols.formulation s) :
    s ∈ sols.vectors ∧ ∀ k ∈ sols.vectors, a.bearing.law.ofVector k = target direction magnitude := by
  obtain ⟨seeds, hseeds, hv⟩ := h.vectors
  have hexact : ∀ k ∈ a.bearing.law.distinct (target direction magnitude) seeds,
      a.bearing.law.ofVector k = target direction magnitude := by
    intro k hk
    obtain ⟨seed, hseed, rfl, -⟩ := ForceLaw.distinct_mem hk
    have hforce := ((hseeds seed).mp hseed).1
    have hfix : a.bearing.law.refine seed (target direction magnitude) = seed :=
      ForceLaw.refineFrom_exact hforce ForceLaw.refineSteps
    rwa [hfix]
  obtain ⟨k, hk, hc⟩ := ForceLaw.distinct_covers_solution hsmall.quadratic_pos hsmall.linear_pos
    ((hseeds s).mpr ⟨hs, hd⟩) hs
  obtain rfl := hsmall.eq_of_close hs hle (hexact k hk) hc
  rw [hv, ForceLaw.distinct_concat_of_close hk (hsmall.close_linear hs hle)]
  exact ⟨hk, hexact⟩

end Allocator

/-! ## The derivative -/

namespace ForceLaw

section Determinant

variable {K : Type} [Scalar K]

/-- The determinant of the derivative at `s`. -/
def determinant (law : ForceLaw K) (s : Cx K) : K :=
  (law.linear + 2.0 * law.quadratic * s.re / 3.0) * (law.linear - 2.0 * law.quadratic * s.re / 3.0) -
    (-2.0 * law.quadratic * s.im / 3.0) * (-2.0 * law.quadratic * s.im / 3.0)

/-- The Newton step toward `target` with `det` for the determinant; none where `det` is negligible. -/
def stepOver (law : ForceLaw K) (det : K) (target s : Cx K) : Option (Cx K) :=
  let m := law.ofVector s - target
  let j11 := law.linear + 2.0 * law.quadratic * s.re / 3.0
  let j22 := law.linear - 2.0 * law.quadratic * s.re / 3.0
  let j12 := -2.0 * law.quadratic * s.im / 3.0
  if !Arith.finite det || Arith.abs det ≤ Quartic.zeroTolerance * law.linear * law.linear then none
  else some ⟨(j22 * m.re - j12 * m.im) / det, (j11 * m.im - j12 * m.re) / det⟩

theorem newtonStep_determinant (law : ForceLaw K) (target s : Cx K) :
    law.newtonStep target s = law.stepOver (law.determinant s) target s := rfl

end Determinant

variable {law : ForceLaw ℝ}

theorem determinant_eq (law : ForceLaw ℝ) (s : Cx ℝ) :
    law.determinant s = law.linear ^ 2 - 4 * law.quadratic ^ 2 * ‖s.toComplex‖ ^ 2 / 9 := by
  rw [Complex.sq_norm, Complex.normSq_apply]
  simp only [determinant, Exact.two_eq, Exact.three_eq, Cx.toComplex_re, Cx.toComplex_im]
  ring

theorem determinant_pos_iff (ha : 0 < law.quadratic) (hb : 0 < law.linear) (s : Cx ℝ) :
    0 < law.determinant s ↔ ‖s.toComplex‖ < law.foldRadius := by
  have e : law.determinant s = (2 * law.quadratic / 3) ^ 2 * (law.foldRadius ^ 2 - ‖s.toComplex‖ ^ 2) := by
    rw [determinant_eq, foldRadius_eq]
    field_simp
    ring
  have hr : 0 ≤ law.foldRadius := by
    rw [foldRadius_eq]
    positivity
  rw [e, mul_pos_iff_of_pos_left (by positivity), sub_pos]
  exact sq_lt_sq₀ (norm_nonneg _) hr

/-- Two space vectors with one force have a sum of fixed length. So at most one of them is inside the circle of half
that length, and it is shorter than every other, as poles too. The determinant that a polishing step divides by is
positive exactly inside the circle. -/
theorem inside_fold_least (ha : 0 < law.quadratic) (hb : 0 < law.linear) (target : Cx ℝ) :
    (∀ s t, law.ofVector s = target → law.ofVector t = target → s ≠ t →
      (s + t).norm = 3 * law.linear / law.quadratic) ∧
    (∀ s t, law.ofVector s = target → law.ofVector t = target → s.norm < 3 * law.linear / (2 * law.quadratic) →
      t.norm < 3 * law.linear / (2 * law.quadratic) → s = t) ∧
    (∀ s t, law.ofVector s = target → law.ofVector t = target → s.norm < 3 * law.linear / (2 * law.quadratic) →
      t ≠ s → s.norm < t.norm ∧ (SpaceVector.toPoles s).norm < (SpaceVector.toPoles t).norm) ∧
    ∀ s, law.newtonStep target s = law.stepOver (law.determinant s) target s ∧
      law.determinant s = law.linear ^ 2 - 4 * law.quadratic ^ 2 * s.norm ^ 2 / 9 ∧
      (0 < law.determinant s ↔ s.norm < 3 * law.linear / (2 * law.quadratic)) := by
  simp only [Cx.norm_eq, ← foldRadius_eq]
  refine ⟨fun s t hs ht hne => ?_, fun s t hs ht hin hin' => ?_, fun s t hs ht hin hne => ?_, fun s => ?_⟩
  · rw [Cx.toComplex_add, norm_sum_of_same_force ha hb (hs.trans ht.symm) hne, foldRadius_eq]
    field_simp
  · exact eq_of_same_force ha hb (hs.trans ht.symm) hin.le hin'.le
  · have hlt := norm_lt_of_same_force ha hb (hs.trans ht.symm) hne.symm hin.le
    refine ⟨hlt, not_le.mp fun hle => ?_⟩
    exact absurd ((SpaceVector.toPoles_norm_le_iff t s).mp hle) (not_le.mpr hlt)
  · exact ⟨newtonStep_determinant law target s, determinant_eq law s, determinant_pos_iff ha hb s⟩

/-- Along the axis of pole one: a half and minus five halves have one force, and only the half is inside. -/
theorem inside_fold_least_on_axis :
    let law : ForceLaw ℝ := ⟨3, 2⟩
    0 < law.quadratic ∧ 0 < law.linear ∧ law.ofVector ⟨1 / 2, 0⟩ = ⟨5 / 4, 0⟩ ∧
      law.ofVector ⟨-5 / 2, 0⟩ = ⟨5 / 4, 0⟩ ∧ (Cx.mk (1 / 2) 0 + Cx.mk (-5 / 2) (0 : ℝ)).norm = 3 * 2 / 3 ∧
      (Cx.mk (1 / 2) (0 : ℝ)).norm < (Cx.mk (-5 / 2) (0 : ℝ)).norm ∧
      (SpaceVector.toPoles ⟨1 / 2, (0 : ℝ)⟩).norm < (SpaceVector.toPoles ⟨-5 / 2, (0 : ℝ)⟩).norm ∧
      0 < law.determinant ⟨1 / 2, 0⟩ := by
  intro law
  have ha : 0 < law.quadratic := by norm_num [law]
  have hb : 0 < law.linear := by norm_num [law]
  have hs : law.ofVector ⟨1 / 2, 0⟩ = ⟨5 / 4, 0⟩ := by
    rw [ofVector_eq_iff]
    norm_num [law]
  have ht : law.ofVector ⟨-5 / 2, 0⟩ = ⟨5 / 4, 0⟩ := by
    rw [ofVector_eq_iff]
    norm_num [law]
  have hne : Cx.mk (-5 / 2) (0 : ℝ) ≠ Cx.mk (1 / 2) 0 := by
    intro h
    rw [Cx.mk.injEq] at h
    norm_num at h
  have hin : (Cx.mk (1 / 2) (0 : ℝ)).norm < 3 * law.linear / (2 * law.quadratic) := by
    rw [Cx.norm_eq, Complex.norm_def, Complex.normSq_apply]
    norm_num [law, Real.sqrt_lt']
  obtain ⟨hsum, -, hleast, hdet⟩ := inside_fold_least ha hb ⟨5 / 4, 0⟩
  obtain ⟨hlt, hpoles⟩ := hleast _ _ hs ht hin hne
  exact ⟨ha, hb, hs, ht, hsum _ _ hs ht hne.symm, hlt, hpoles, ((hdet _).2.2).mpr hin⟩

end ForceLaw

/-! ## Unsaturated solutions -/

namespace Physical

variable {b : Physical ℝ} {s t : SpaceVector ℝ} {target : Cx ℝ}

theorem foldRadius_eq (hb : b.Sound) : b.bearing.law.foldRadius = 3 * b.bias := by
  have hk := hb.k1_pos.ne'
  rw [ForceLaw.foldRadius_eq]
  show 3 * (2.0 * b.bias * b.k1) / (2 * b.k1) = 3 * b.bias
  rw [Exact.two_eq]
  field_simp

/-- No field that control adds is above the room that the bias leaves. -/
theorem norm_le_headroom (hs : b.bearing.saturated s.toPoles = false) :
    ‖s.toComplex‖ ≤ 3 * (b.saturationField - b.bias) := by
  obtain ⟨h1, h2, h3⟩ := unsaturated_iff.mp hs
  have hroom {x : ℝ} (h : |x + b.bias| ≤ b.saturationField) : x ≤ b.saturationField - b.bias := by
    linarith [le_abs_self (x + b.bias)]
  exact SpaceVector.norm_le_of_toPoles_le (hroom h1) (hroom h2) (hroom h3)

/-- A force beyond what the law makes of the longest unsaturated vector saturates every candidate. -/
theorem saturated_of_beyond_headroom (hb : b.Sound) (hr : b.bearing.law.reproduces s target = true)
    (hm : (1 + 1 / 10 ^ 8) * (b.bearing.law.linear * (3 * (b.saturationField - b.bias)) +
      b.bearing.law.quadratic * (3 * (b.saturationField - b.bias)) ^ 2 / 3) < ‖target.toComplex‖) :
    b.bearing.saturated s.toPoles = true := by
  by_contra hsat
  have hlen := norm_le_headroom (s := s) (by simpa using hsat)
  have hlin := hb.linear_pos
  have hquad : 0 < b.bearing.law.quadratic := hb.k1_pos
  have hterms : b.bearing.law.linear * ‖s.toComplex‖ + b.bearing.law.quadratic * ‖s.toComplex‖ ^ 2 / 3 ≤
      b.bearing.law.linear * (3 * (b.saturationField - b.bias)) +
        b.bearing.law.quadratic * (3 * (b.saturationField - b.bias)) ^ 2 / 3 := by gcongr
  have hforce : ‖b.bearing.law.onPlane s.toComplex‖ ≤
      b.bearing.law.linear * ‖s.toComplex‖ + b.bearing.law.quadratic * ‖s.toComplex‖ ^ 2 / 3 :=
    ForceLaw.norm_onPlane_le hquad.le hlin.le _
  have hmiss := ForceLaw.reproduces_iff.mp hr
  have htri : ‖target.toComplex‖ ≤ ‖b.bearing.law.onPlane s.toComplex‖ + b.bearing.law.miss target s :=
    norm_le_norm_add_norm_sub _ _
  have hpos : 0 ≤ b.bearing.law.linear * ‖s.toComplex‖ + b.bearing.law.quadratic * ‖s.toComplex‖ ^ 2 / 3 := by positivity
  linarith

section HalfBias

variable (hb : b.Sound) (hz : 1 / 2 ≤ b.biasFraction)

include hb hz

theorem headroom_le_bias : b.saturationField - b.bias ≤ b.bias := by
  have h := mul_le_mul_of_nonneg_right hz hb.saturationField_pos.le
  rw [hb.bias_eq]
  linarith

theorem norm_le_foldRadius (hs : b.bearing.saturated s.toPoles = false) :
    ‖s.toComplex‖ ≤ b.bearing.law.foldRadius := by
  rw [foldRadius_eq hb]
  linarith [norm_le_headroom hs, headroom_le_bias hb hz]

/-- Another solution is longer than an unsaturated one. -/
theorem norm_lt_of_unsaturated (hs : b.bearing.saturated s.toPoles = false)
    (h : b.bearing.law.ofVector s = b.bearing.law.ofVector t) (hne : s ≠ t) : ‖s.toComplex‖ < ‖t.toComplex‖ :=
  ForceLaw.norm_lt_of_same_force hb.k1_pos hb.linear_pos h hne (norm_le_foldRadius hb hz hs)

theorem eq_of_unsaturated (hs : b.bearing.saturated s.toPoles = false) (ht : b.bearing.saturated t.toPoles = false)
    (h : b.bearing.law.ofVector s = b.bearing.law.ofVector t) : s = t :=
  ForceLaw.eq_of_same_force hb.k1_pos hb.linear_pos h (norm_le_foldRadius hb hz hs) (norm_le_foldRadius hb hz ht)

end HalfBias

end Physical

/-! ## Selection -/

namespace Allocator

variable {a : Allocator ℝ} {direction magnitude : ℝ} {check : Bool} {i : Poles ℝ}

/-- The currents yield the requested force exactly. -/
def Exactly (a : Allocator ℝ) (direction magnitude : ℝ) (i : Poles ℝ) : Prop :=
  a.bearing.law.ofPoles (i.divEach a.bearing.ampsPerUnit) = target direction magnitude

theorem exactly_iff (hk : a.bearing.ampsPerUnit ≠ 0) (s : SpaceVector ℝ) :
    a.Exactly direction magnitude (s.toPoles.scale a.bearing.ampsPerUnit) ↔
      a.bearing.law.ofVector s = target direction magnitude := by
  unfold Exactly
  rw [ofPoles_currents _ _ hk]

/-- What is selected is one of the candidates, and no other that may be used is shorter. -/
theorem controlCurrents_selects (hk : 0 < a.bearing.ampsPerUnit)
    (h : a.controlCurrents direction magnitude .amps check = .ok i) :
    ∃ sols, a.solve direction magnitude = .ok sols ∧ ∃ s ∈ sols.vectors, a.Eligible check s ∧
      i = s.toPoles.scale a.bearing.ampsPerUnit ∧
      ∀ t ∈ sols.vectors, a.Eligible check t → ‖s.toComplex‖ ≤ ‖t.toComplex‖ := by
  obtain ⟨sols, hs, hleast⟩ := controlCurrents_ok h
  obtain ⟨s, hmem, he, rfl⟩ := mem_offered.mp hleast.mem
  refine ⟨sols, hs, s, hmem, he, rfl, fun t ht het => ?_⟩
  have hle := (currents_norm_le_iff s t hk).mp (hleast.le _ (mem_offered.mpr ⟨t, ht, het, rfl⟩))
  rwa [Cx.norm_eq, Cx.norm_eq] at hle

/-- A candidate that may be used makes the request answered. -/
theorem controlCurrents_isOk {sols : Solutions ℝ} {s : SpaceVector ℝ} (hs : a.solve direction magnitude = .ok sols)
    (hmem : s ∈ sols.vectors) (he : a.Eligible check s) :
    ∃ i, a.controlCurrents direction magnitude .amps check = .ok i := by
  cases hi : a.controlCurrents direction magnitude .amps check with
  | ok i => exact ⟨i, rfl⟩
  | error e =>
    rcases controlCurrents_error.mp hi with he' | ⟨-, sols', hs', hno⟩
    · rw [hs] at he'
      cases he'
    · rw [hs] at hs'
      cases hs'
      exact absurd he (hno s hmem)

theorem eligible_unchecked (s : SpaceVector ℝ) : a.Eligible false s := fun hc => absurd hc Bool.false_ne_true

/-- Without the check there is an answer wherever there is one with it. -/
theorem unchecked_isOk (h : a.controlCurrents direction magnitude .amps true = .ok i) :
    ∃ j, a.controlCurrents direction magnitude .amps false = .ok j := by
  obtain ⟨sols, hs, hleast⟩ := controlCurrents_ok h
  obtain ⟨s, hmem, -, -⟩ := mem_offered.mp hleast.mem
  exact controlCurrents_isOk hs hmem (eligible_unchecked s)

end Allocator

namespace Physical

open Allocator (Exactly)

variable {b : Physical ℝ} {find : RootFinder ℝ} {direction magnitude : ℝ} {i j : Poles ℝ}

theorem ampsPerUnit_pos (hb : b.Sound) : 0 < b.bearing.ampsPerUnit := by
  have := hb.k2_pos
  show (0 : ℝ) < 1.0 / b.k2
  positivity

section HalfBias

variable (hb : b.Sound) (hz : 1 / 2 ≤ b.biasFraction)

include hb hz

/-- The exact solution selected with the check is the one selected without it. -/
theorem selected_eq
    (hi : (Allocator.mk b.bearing.toBearing find).controlCurrents direction magnitude .amps true = .ok i)
    (hj : (Allocator.mk b.bearing.toBearing find).controlCurrents direction magnitude .amps false = .ok j)
    (hie : (Allocator.mk b.bearing.toBearing find).Exactly direction magnitude i)
    (hje : (Allocator.mk b.bearing.toBearing find).Exactly direction magnitude j) : i = j := by
  have hk := ampsPerUnit_pos hb
  obtain ⟨sols, hs, s, hmem, hsat, rfl, -⟩ := Allocator.controlCurrents_selects hk hi
  obtain ⟨sols', hs', t, -, -, rfl, hmin⟩ := Allocator.controlCurrents_selects hk hj
  rw [hs] at hs'
  cases hs'
  rw [Allocator.exactly_iff hk.ne'] at hie hje
  have hle := hmin s hmem (Allocator.eligible_unchecked s)
  by_contra hne
  have hst : s ≠ t := by
    rintro rfl
    exact hne rfl
  exact absurd (norm_lt_of_unsaturated hb hz (hsat rfl) (hie.trans hje.symm) hst) (not_lt.mpr hle)

/-- Where the answers are exact, the check takes an answer away or leaves it as it is. -/
theorem controlCurrents_check (hexact : ∀ check i,
      (Allocator.mk b.bearing.toBearing find).controlCurrents direction magnitude .amps check = .ok i →
        (Allocator.mk b.bearing.toBearing find).Exactly direction magnitude i) :
    (Allocator.mk b.bearing.toBearing find).controlCurrents direction magnitude .amps true =
        (Allocator.mk b.bearing.toBearing find).controlCurrents direction magnitude .amps false ∨
      (Allocator.mk b.bearing.toBearing find).controlCurrents direction magnitude .amps true =
        .error (.noFeasibleSolution direction magnitude) := by
  cases hi : (Allocator.mk b.bearing.toBearing find).controlCurrents direction magnitude .amps true with
  | ok i =>
    obtain ⟨j, hj⟩ := Allocator.unchecked_isOk hi
    rw [hj, selected_eq hb hz hi hj (hexact true i hi) (hexact false j hj)]
    exact .inl rfl
  | error e =>
    rcases Allocator.controlCurrents_error.mp hi with he | ⟨rfl, -⟩
    · exact .inl (Allocator.controlCurrents_error.mpr (.inl he)).symm
    · exact .inr rfl

end HalfBias

/-- With a bias of at least half the saturation field, an unsaturated solution is no longer than three times the
bias. It is the only one of its force, and shorter than every other solution. So where the answers to a request are
exact, the saturation check takes an answer away or leaves it as it is. -/
theorem unsaturated_solution_least (hb : b.Made) (hz : 1 / 2 ≤ b.biasFraction) :
    (∀ (target : Cx ℝ) (s : SpaceVector ℝ), b.bearing.law.ofVector s = target →
      b.bearing.saturated s.toPoles = false →
        s.norm ≤ 3 * (b.saturationField - b.bias) ∧ 3 * (b.saturationField - b.bias) ≤ 3 * b.bias ∧
          ∀ t, b.bearing.law.ofVector t = target → t ≠ s →
            b.bearing.saturated t.toPoles = true ∧ s.norm < t.norm) ∧
      ∀ (find : RootFinder ℝ) (direction magnitude : ℝ),
        (∀ check i, (Allocator.mk b.bearing.toBearing find).controlCurrents direction magnitude .amps check = .ok i →
          (Allocator.mk b.bearing.toBearing find).Exactly direction magnitude i) →
        ∀ unit, (Allocator.mk b.bearing.toBearing find).controlCurrents direction magnitude unit true =
            (Allocator.mk b.bearing.toBearing find).controlCurrents direction magnitude unit false ∨
          (Allocator.mk b.bearing.toBearing find).controlCurrents direction magnitude unit true =
            .error (.noFeasibleSolution direction magnitude) := by
  have hs := hb.sound
  refine ⟨?_, ?_⟩
  · rintro _ s rfl hsat
    rw [Cx.norm_eq]
    refine ⟨norm_le_headroom hsat, by linarith [headroom_le_bias hs hz], fun t ht hne => ⟨?_, ?_⟩⟩
    · rw [← Bool.not_eq_false]
      exact fun hsat' => hne (eq_of_unsaturated hs hz hsat' hsat ht)
    · rw [Cx.norm_eq]
      exact norm_lt_of_unsaturated hs hz hsat ht.symm (Ne.symm hne)
  · intro find direction magnitude hexact unit
    have hamps := controlCurrents_check hs hz hexact
    cases unit with
    | amps => exact hamps
    | ampereTurns =>
      rw [Allocator.controlCurrents_ampereTurns, Allocator.controlCurrents_ampereTurns]
      rcases hamps with h | h
      · exact .inl (by rw [h])
      · exact .inr (by rw [h]; rfl)

/-- Half a turn from pole one, where the control field takes all of the bias away there. -/
theorem unsaturated_backward (hb : b.Sound) (hz : b.biasFraction ≤ 2 / 3) :
    b.bearing.saturated (SpaceVector.toPoles ⟨-(3 / 2) * b.bias, 0⟩) = false := by
  have hB := hb.saturationField_pos
  have h0 := hb.bias_pos
  have hle : 3 / 2 * b.bias ≤ b.saturationField := by
    rw [hb.bias_eq]
    linarith [mul_le_mul_of_nonneg_right hz hB.le]
  rw [unsaturated_iff, SpaceVector.toPoles_eq]
  have e1 : 2 / 3 * (-(3 / 2) * b.bias) + b.bias = 0 := by ring
  have e2 : -(1 / 3) * (-(3 / 2) * b.bias) + 0 / √3 + b.bias = 3 / 2 * b.bias := by ring
  have e3 : -(1 / 3) * (-(3 / 2) * b.bias) - 0 / √3 + b.bias = 3 / 2 * b.bias := by ring
  simp only [e1, e2, e3, abs_zero, abs_of_pos (by positivity : 0 < 3 / 2 * b.bias)]
  exact ⟨hB.le, hle, hle⟩

section Forward

variable {s : SpaceVector ℝ} {m : ℝ} (hb : b.Sound) (hz : 1 / 2 ≤ b.biasFraction)

include hb hz

theorem quadratic_mul_hexagonBound_le : b.bearing.law.quadratic * b.bearing.hexagonBound ≤ b.bearing.law.linear ^ 2 := by
  have hk := hb.k1_pos
  have hB := hb.saturationField_pos
  have hbias : b.saturationField ≤ 2 * b.bias := by linarith [headroom_le_bias hb hz]
  calc b.k1 * (b.k1 * b.saturationField * b.saturationField) = (b.saturationField * b.k1) ^ 2 := by ring
    _ ≤ (2 * b.bias * b.k1) ^ 2 := by gcongr
    _ = (2.0 * b.bias * b.k1) ^ 2 := by rw [Exact.two_eq]

theorem small_quarter (hm : 0 ≤ m) (hle : m ≤ b.bearing.hexagonBound / 4) :
    ForceLaw.Small b.bearing.law (Allocator.target 0 m) where
  quadratic_pos := hb.k1_pos
  linear_pos := hb.linear_pos
  bound := by
    have hk : 0 < b.bearing.law.quadratic := hb.k1_pos
    have h := quadratic_mul_hexagonBound_le hb hz
    rw [Allocator.norm_target hm]
    calc b.bearing.law.quadratic * m ≤ b.bearing.law.quadratic * (b.bearing.hexagonBound / 4) := by gcongr
      _ ≤ b.bearing.law.linear ^ 2 / 2 := by linarith [sq_nonneg b.bearing.law.linear]

/-- Up to a quarter of the bound nothing as short as the linear solution is saturated. -/
theorem unsaturated_quarter (hz' : b.biasFraction ≤ 2 / 3) (hle : m ≤ b.bearing.hexagonBound / 4)
    (hs : ‖s.toComplex‖ ≤ m / b.bearing.law.linear) : b.bearing.saturated s.toPoles = false := by
  have hk := hb.k1_pos
  have hB := hb.saturationField_pos
  have hlinear := hb.linear_pos
  have hbias : b.bias ≤ 2 / 3 * b.saturationField := by
    rw [hb.bias_eq]
    gcongr
  have hshort : m / b.bearing.law.linear ≤ b.saturationField / 4 := by
    rw [div_le_iff₀ hlinear]
    calc m ≤ b.saturationField / 4 * (b.saturationField * b.k1) := by
          refine hle.trans_eq ?_
          show b.k1 * b.saturationField * b.saturationField / 4 = _
          ring
      _ ≤ b.saturationField / 4 * (2 * b.bias * b.k1) := by
          have hhalf : b.saturationField ≤ 2 * b.bias := by linarith [headroom_le_bias hb hz]
          gcongr
      _ = b.saturationField / 4 * (2.0 * b.bias * b.k1) := by rw [Exact.two_eq]
  rw [unsaturated_iff_peakField]
  linarith [peakField_le hb s]

/-- Toward pole one a force has an exact solution that is not dropped, up to the bound and more. -/
theorem solve_forward (hfind : Quartic.FindsExactly find) (hm : 0 < m) (hle : m ≤ 4 / 3 * b.bearing.hexagonBound) :
    ∃ sols, (Allocator.mk b.bearing.toBearing find).ExactAnswer 0 m sols ∧
      ∃ s : SpaceVector ℝ, ‖s.toComplex‖ ≤ m / b.bearing.law.linear ∧ b.bearing.law.ofVector s = Allocator.target 0 m ∧
        ¬ b.bearing.law.Dropped sols.formulation s := by
  have ha : 0 < b.bearing.law.quadratic := hb.k1_pos
  have hlinear := hb.linear_pos
  obtain ⟨sols, h⟩ := Allocator.solve_exact (a := ⟨b.bearing.toBearing, find⟩) hfind ha 0 hm
  obtain ⟨x, ⟨hx0, hx⟩, hforce⟩ := ForceLaw.exists_on_axis ha hlinear hm.le
  refine ⟨sols, h, ⟨x, 0⟩, ?_, hforce.trans (Allocator.target_forward m).symm, fun hd => ?_⟩
  · show ‖(x : ℂ)‖ ≤ _
    rwa [Complex.norm_real, Real.norm_of_nonneg hx0]
  · refine ForceLaw.not_guarded_on_axis ha hlinear ?_ hx hd.2
    calc b.bearing.law.quadratic * m ≤ b.bearing.law.quadratic * (4 / 3 * b.bearing.hexagonBound) := by gcongr
      _ = 4 / 3 * (b.bearing.law.quadratic * b.bearing.hexagonBound) := by ring
      _ ≤ 4 / 3 * b.bearing.law.linear ^ 2 := by
          have := quadratic_mul_hexagonBound_le hb hz
          gcongr

/-- A force toward pole one of up to a quarter of the bound is answered with exact solutions, one of them
unsaturated. -/
theorem solve_quarter (hz' : b.biasFraction ≤ 2 / 3) (hfind : Quartic.FindsExactly find) (hm : 0 < m)
    (hle : m ≤ b.bearing.hexagonBound / 4) :
    ∃ sols, (Allocator.mk b.bearing.toBearing find).solve 0 m = .ok sols ∧
      (∀ k ∈ sols.vectors, b.bearing.law.ofVector k = Allocator.target 0 m) ∧
        ∃ s ∈ sols.vectors, b.bearing.saturated s.toPoles = false := by
  obtain ⟨sols, h, s, hnorm, hforce, hd⟩ := solve_forward hb hz hfind hm (by linarith [hexagonBound_pos hb])
  obtain ⟨hmem, hexact⟩ := h.exact_of_small (small_quarter hb hz hm.le hle) hforce
    (by rwa [ForceLaw.radius, Allocator.norm_target hm.le]) hd
  exact ⟨sols, h.solved, hexact, s, hmem, unsaturated_quarter hb hz hz' hle hnorm⟩

end Forward

/-- On the prototype: a solution against pole one with a saturated twin, and a quarter of the bound toward pole one,
which is answered with the same currents with and without the check. -/
theorem unsaturated_solution_least_prototype :
    ∃ b : Physical ℝ, Physical.build Geometry.prototype = .ok b ∧ 1 / 2 ≤ b.biasFraction ∧
      (∃ s t, b.bearing.law.ofVector t = b.bearing.law.ofVector s ∧ t ≠ s ∧
        b.bearing.saturated s.toPoles = false ∧ b.bearing.saturated t.toPoles = true ∧ s.norm < t.norm) ∧
      ∃ i, (Allocator.mk b.bearing.toBearing Allocator.exactFinder).controlCurrents 0 (b.bearing.hexagonBound / 4)
            .amps true = .ok i ∧
        (Allocator.mk b.bearing.toBearing Allocator.exactFinder).controlCurrents 0 (b.bearing.hexagonBound / 4)
            .amps false = .ok i := by
  have hs : (Geometry.prototype : Geometry ℝ).derive.Sound := Geometry.prototype_valid.sound
  have hbuild : Physical.build Geometry.prototype = .ok (Geometry.prototype : Geometry ℝ).derive :=
    build_of_valid Geometry.prototype_valid
  have hhalf : 1 / 2 ≤ (Geometry.prototype : Geometry ℝ).derive.biasFraction := Geometry.half_le_prototype_biasFraction
  obtain ⟨hleast, hcheck⟩ := unsaturated_solution_least (.build hbuild) hhalf
  refine ⟨_, hbuild, hhalf, ?_, ?_⟩
  · have hsat := unsaturated_backward hs Geometry.prototype_biasFraction.2
    obtain ⟨-, -, htwin⟩ := hleast _ _ rfl hsat
    obtain ⟨u, v, huv, hu, hv⟩ := ForceLaw.two_solutions hs.k1_pos hs.linear_pos
      ((Geometry.prototype : Geometry ℝ).derive.bearing.law.ofVector
        ⟨-(3 / 2) * (Geometry.prototype : Geometry ℝ).derive.bias, 0⟩)
    by_cases hne : u = ⟨-(3 / 2) * (Geometry.prototype : Geometry ℝ).derive.bias, 0⟩
    · have hv' := huv.symm
      rw [hne] at hv'
      exact ⟨_, v, hv, hv', hsat, htwin v hv hv'⟩
    · exact ⟨_, u, hu, hne, hsat, htwin u hu hne⟩
  · have hk := ampsPerUnit_pos hs
    have hH := hexagonBound_pos hs
    obtain ⟨sols, hsol, hforces, s, hmem, hsat⟩ := solve_quarter hs hhalf Geometry.prototype_biasFraction.2
      Allocator.exactFinder_findsExactly (by positivity) (le_refl _)
    obtain ⟨i, hi⟩ := Allocator.controlCurrents_isOk hsol hmem fun _ => hsat
    have hsame := hcheck Allocator.exactFinder 0 ((Geometry.prototype : Geometry ℝ).derive.bearing.hexagonBound / 4)
      (fun check j hj => ?_) .amps
    · rw [hi] at hsame
      refine ⟨i, hi, (hsame.resolve_right ?_).symm⟩
      intro h
      cases h
    · obtain ⟨sols', hsol', t, ht, -, rfl, -⟩ := Allocator.controlCurrents_selects hk hj
      rw [hsol] at hsol'
      cases hsol'
      rw [Allocator.exactly_iff hk.ne']
      exact hforces t ht

end Physical

end MagneticBearing
