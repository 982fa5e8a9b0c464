/-
  MagneticBearing.Proofs.Preimages — which space vectors have a given force.

  A force off the axis has one with the imaginary part above zero and one below: the quartic of the
  imaginary part is negative at zero (`imaginaryFirst_r_neg`, `exists_off_axis`). A force along the
  axis has its solutions on the axis, and a pair off it that shares the real part
  `3 linear / (2 quadratic)`, as long as the force is below `9 linear² / (4 quadratic)`
  (`off_axis_iff`). There are always two (`two_solutions`). Nothing on the axis is pushed back harder
  than `3 linear² / (4 quadratic)` (`least_on_axis`), and every force in the direction of the axis has a
  solution there (`exists_on_axis`), outside the guard up to `4 linear² / (3 quadratic)`
  (`not_guarded_on_axis`).
-/

import MagneticBearing.Proofs.ForceMap

namespace MagneticBearing.ForceLaw

theorem exists_pos_root (p q : ℝ) {r : ℝ} (hr : r < 0) : ∃ y > 0, y ^ 4 + p * y ^ 2 + q * y + r = 0 := by
  let f : ℝ → ℝ := fun y => y ^ 4 + p * y ^ 2 + q * y + r
  have hc : ContinuousOn f (Set.Icc 0 (1 + |p| + |q| + |r|)) := by
    apply Continuous.continuousOn
    fun_prop
  have hp := abs_nonneg p
  have hq := abs_nonneg q
  have hr' := abs_nonneg r
  generalize hM : 1 + |p| + |q| + |r| = M at hc
  have hM1 : 1 ≤ M := by linarith
  have hM2 : M ≤ M ^ 2 := le_self_pow₀ hM1 (by norm_num)
  have h1 : -(|p| * M ^ 2) ≤ p * M ^ 2 := by
    have := mul_le_mul_of_nonneg_right (neg_abs_le p) (sq_nonneg M)
    linarith
  have h2 : -(|q| * M ^ 2) ≤ q * M := by
    have h3 := mul_le_mul_of_nonneg_right (neg_abs_le q) (by linarith : 0 ≤ M)
    have h4 := mul_le_mul_of_nonneg_left hM2 hq
    linarith
  have h3 : -(|r| * M ^ 2) ≤ r := by
    have h4 := mul_le_mul_of_nonneg_left (le_trans hM1 hM2) hr'
    linarith [neg_abs_le r]
  -- Past the sum of the coefficients the leading term outweighs them.
  have hbig : 0 < f M := by
    have h4 : 0 < M ^ 2 * (M ^ 2 - (|p| + |q| + |r|)) := by
      apply mul_pos (by positivity)
      linarith
    calc 0 < M ^ 2 * (M ^ 2 - (|p| + |q| + |r|)) := h4
      _ = M ^ 4 + -(|p| * M ^ 2) + -(|q| * M ^ 2) + -(|r| * M ^ 2) := by ring
      _ ≤ f M := by simp only [f]; linarith
  have hzero : f 0 < 0 := by simpa [f] using hr
  obtain ⟨y, hy, hfy⟩ := intermediate_value_Icc (by linarith : 0 ≤ M) hc ⟨hzero.le, hbig.le⟩
  refine ⟨y, lt_of_le_of_ne hy.1 ?_, hfy⟩
  rintro rfl
  exact hzero.ne hfy

variable {law : ForceLaw ℝ} {target s : Cx ℝ}

/-- Off the axis the quartic of the imaginary part is negative at zero. -/
theorem imaginaryFirst_r_neg (ha : 0 < law.quadratic) (fx : ℝ) {fy : ℝ} (hy : fy ≠ 0) :
    (law.quartic .imaginaryFirst fx fy).r < 0 := by
  have e : (law.quartic .imaginaryFirst fx fy).r = -(9 * fy ^ 2 / (4 * law.quadratic ^ 2)) := by
    simp only [quartic, Exact.decimal]
    ring
  rw [e, neg_lt_zero]
  positivity

theorem exists_off_axis (ha : 0 < law.quadratic) (ht : target.im ≠ 0) :
    (∃ s, law.ofVector s = target ∧ 0 < s.im) ∧ ∃ s, law.ofVector s = target ∧ s.im < 0 := by
  generalize hc : law.quartic .imaginaryFirst target.re target.im = c
  have hr : c.r < 0 := by
    rw [← hc]
    exact imaginaryFirst_r_neg ha target.re ht
  -- Where the quartic is zero, and the root is not, there is a solution.
  have hs {y : ℝ} (hy : y ≠ 0) (hroot : c.eval y = 0) : law.ofVector (law.completion .imaginaryFirst target.im y) = target :=
    force_completion ha.ne' (by rw [hc]; exact hroot) hy
  constructor
  · obtain ⟨y, hy, hroot⟩ := exists_pos_root c.p c.q hr
    exact ⟨_, hs hy.ne' (by rw [eval_eq]; exact hroot), hy⟩
  · obtain ⟨y, hy, hroot⟩ := exists_pos_root c.p (-c.q) hr
    refine ⟨_, hs (neg_ne_zero.mpr hy.ne') ?_, neg_lt_zero.mpr hy⟩
    rw [eval_eq]
    linear_combination hroot

/-- Off the axis the solutions for a force along it share the real part that the guard is for. -/
theorem off_axis_iff (ha : 0 < law.quadratic) (ht : target.im = 0) (hs : s.im ≠ 0) : law.ofVector s = target ↔
    s.re = 3 * law.linear / (2 * law.quadratic) ∧
      s.im ^ 2 = 3 / law.quadratic * (9 * law.linear ^ 2 / (4 * law.quadratic) - target.re) := by
  rw [ofVector_eq_iff, ht, mul_eq_zero, or_iff_right hs]
  have hre : law.linear - 2 * law.quadratic / 3 * s.re = 0 ↔ s.re = 3 * law.linear / (2 * law.quadratic) := by
    rw [eq_div_iff (by positivity)]
    constructor <;> intro h <;> linarith
  rw [hre, and_comm]
  refine and_congr_right fun h => ?_
  rw [h]
  constructor
  · intro h2
    rw [← h2]
    field_simp
    ring
  · intro h2
    rw [h2]
    field_simp
    ring

theorem on_axis_iff (ht : target.im = 0) (hs : s.im = 0) : law.ofVector s = target ↔
    law.quadratic / 3 * s.re ^ 2 + law.linear * s.re = target.re := by
  rw [ofVector_eq_iff, ht, hs]
  simp

/-- Along the axis the force is least at the vertex. -/
theorem least_on_axis (ha : 0 < law.quadratic) (x : ℝ) :
    -(3 * law.linear ^ 2 / (4 * law.quadratic)) + law.quadratic / 3 * (x + 3 * law.linear / (2 * law.quadratic)) ^ 2 =
      law.quadratic / 3 * x ^ 2 + law.linear * x := by
  field_simp
  ring

/-- A force toward pole one has a solution on its axis, no longer than the linear one. -/
theorem exists_on_axis (ha : 0 < law.quadratic) (hb : 0 < law.linear) {m : ℝ} (hm : 0 ≤ m) :
    ∃ x ∈ Set.Icc 0 (m / law.linear), law.ofVector ⟨x, 0⟩ = ⟨m, 0⟩ := by
  let f : ℝ → ℝ := fun x => law.quadratic / 3 * x ^ 2 + law.linear * x
  have hc : ContinuousOn f (Set.Icc 0 (m / law.linear)) := by
    apply Continuous.continuousOn
    fun_prop
  have hzero : f 0 ≤ m := by simpa [f] using hm
  have hlinear : m ≤ f (m / law.linear) := by
    have hquad : 0 ≤ law.quadratic / 3 * (m / law.linear) ^ 2 := by positivity
    simp only [f]
    rw [mul_div_cancel₀ m hb.ne']
    linarith
  obtain ⟨x, hx, hfx⟩ := intermediate_value_Icc (div_nonneg hm hb.le) hc ⟨hzero, hlinear⟩
  exact ⟨x, hx, (on_axis_iff rfl rfl).mpr hfx⟩

/-- It is far from where the guard is, unless the force is large. -/
theorem not_guarded_on_axis (ha : 0 < law.quadratic) (hb : 0 < law.linear) {m x : ℝ}
    (hm : law.quadratic * m ≤ 4 / 3 * law.linear ^ 2) (hx : x ≤ m / law.linear) : ¬ law.Guarded .realFirst x := by
  have hroot : law.quadratic * x ≤ 4 / 3 * law.linear := by
    refine le_of_mul_le_mul_right ?_ hb
    calc law.quadratic * x * law.linear ≤ law.quadratic * (m / law.linear) * law.linear := by gcongr
      _ = law.quadratic * m := by rw [mul_assoc, div_mul_cancel₀ m hb.ne']
      _ ≤ 4 / 3 * law.linear * law.linear := by linarith
  have hpos : 0 < 3 * law.linear - 2 * law.quadratic * x := by linarith
  simp only [Guarded, Exact.two_eq, Exact.three_eq, Quartic.zeroTolerance_eq, abs_of_pos hpos,
    abs_of_pos (by positivity : 0 < 3 * law.linear)]
  linarith

theorem two_solutions (ha : 0 < law.quadratic) (hb : 0 < law.linear) (target : Cx ℝ) :
    ∃ s t, s ≠ t ∧ law.ofVector s = target ∧ law.ofVector t = target := by
  by_cases ht : target.im = 0
  · by_cases hlow : target.re < 9 * law.linear ^ 2 / (4 * law.quadratic)
    · -- The pair off the axis.
      have hpos : 0 < 3 / law.quadratic * (9 * law.linear ^ 2 / (4 * law.quadratic) - target.re) :=
        mul_pos (by positivity) (by linarith)
      generalize hv : 3 / law.quadratic * (9 * law.linear ^ 2 / (4 * law.quadratic) - target.re) = v at hpos
      have hy : √v ≠ 0 := (Real.sqrt_pos.mpr hpos).ne'
      refine ⟨⟨3 * law.linear / (2 * law.quadratic), √v⟩, ⟨3 * law.linear / (2 * law.quadratic), -√v⟩, ?_, ?_, ?_⟩
      · intro h
        have him : √v = -√v := congrArg Cx.im h
        exact hy (by linarith)
      · rw [off_axis_iff ha ht hy, hv]
        exact ⟨rfl, Real.sq_sqrt hpos.le⟩
      · rw [off_axis_iff ha ht (neg_ne_zero.mpr hy), hv]
        exact ⟨rfl, by rw [neg_sq]; exact Real.sq_sqrt hpos.le⟩
    · -- The two on it.
      have hpos : 0 < 3 / law.quadratic * (target.re + 3 * law.linear ^ 2 / (4 * law.quadratic)) := by
        have h1 : 0 < 3 * law.linear ^ 2 / (4 * law.quadratic) := by positivity
        have h2 : 0 < 9 * law.linear ^ 2 / (4 * law.quadratic) := by positivity
        exact mul_pos (by positivity) (by linarith)
      generalize hv : 3 / law.quadratic * (target.re + 3 * law.linear ^ 2 / (4 * law.quadratic)) = v at hpos
      have hforce {w : ℝ} (hw : w ^ 2 = v) : law.ofVector ⟨w - 3 * law.linear / (2 * law.quadratic), 0⟩ = target := by
        rw [on_axis_iff ht rfl, ← least_on_axis ha, sub_add_cancel, hw, ← hv]
        field_simp
        ring
      refine ⟨_, _, ?_, hforce (Real.sq_sqrt hpos.le), hforce (w := -√v) (by rw [neg_sq]; exact Real.sq_sqrt hpos.le)⟩
      intro h
      have hre : √v - 3 * law.linear / (2 * law.quadratic) = -√v - 3 * law.linear / (2 * law.quadratic) := congrArg Cx.re h
      have hy := Real.sqrt_pos.mpr hpos
      linarith
  · obtain ⟨⟨s, hs, hspos⟩, t, htt, htneg⟩ := exists_off_axis ha ht
    refine ⟨s, t, ?_, hs, htt⟩
    rintro rfl
    linarith

end MagneticBearing.ForceLaw
