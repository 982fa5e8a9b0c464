/-
  MagneticBearing.Proofs.SmallForce — the linear solution finds the small solution of a small force.

  A force is small if `quadratic · |F| ≤ linear² / 2` (`Small`). With `R = |F| / linear` the norm of
  the linear solution, the polishing starts at distance `R` from the origin and a sixth of `|F|` off.
  Each step leaves at most a quarter of the miss, and its length is bounded by the miss, so all steps
  together go less than `2 R / 3` (`Near`, `near_step`). So it stays where the derivative is regular
  (`Near.regular`), and after its steps, or where it stops before, the miss is far under the tolerance
  (`miss_refine`).

  - `candidatesFrom_small`: one of the candidates is then no longer than `2 R`.
  - `solveWith_small`: hence, whatever the roots were, the answer is not empty and its smallest entry
    is the small solution, near the linear one.
-/

import MagneticBearing.Proofs.Candidates

namespace MagneticBearing

namespace ForceLaw

open ComplexConjugate

/-- Forces that the linear part of the law dominates. -/
structure Small (law : ForceLaw ℝ) (target : Cx ℝ) : Prop where
  quadratic_pos : 0 < law.quadratic
  linear_pos : 0 < law.linear
  bound : law.quadratic * ‖target.toComplex‖ ≤ law.linear ^ 2 / 2

/-- The norm of the linear solution. -/
noncomputable def radius (law : ForceLaw ℝ) (target : Cx ℝ) : ℝ := ‖target.toComplex‖ / law.linear

/-- Where the polishing is after `k` steps. -/
structure Near (law : ForceLaw ℝ) (target : Cx ℝ) (k : ℕ) (s : SpaceVector ℝ) : Prop where
  norm_le : ‖s.toComplex‖ ≤ law.radius target * (5 / 3 - 2 / 3 * (1 / 4) ^ k)
  miss_le : law.miss target s ≤ ‖target.toComplex‖ / 6 * (1 / 4) ^ k

variable {law : ForceLaw ℝ} {target s d : Cx ℝ} {k : ℕ}

namespace Small

variable (h : Small law target)

include h

theorem radius_nonneg : 0 ≤ law.radius target := div_nonneg (norm_nonneg _) h.linear_pos.le

theorem linear_mul_radius : law.linear * law.radius target = ‖target.toComplex‖ :=
  mul_div_cancel₀ _ h.linear_pos.ne'

theorem quadratic_mul_radius : law.quadratic * law.radius target ≤ law.linear / 2 := by
  rw [radius, ← mul_div_assoc, div_le_iff₀ h.linear_pos]
  calc law.quadratic * ‖target.toComplex‖ ≤ law.linear ^ 2 / 2 := h.bound
    _ = law.linear / 2 * law.linear := by ring

/-- The quadratic part of the law at a distance of `c` radii. -/
theorem quadratic_term {c : ℝ} (hs : ‖s.toComplex‖ ≤ c * law.radius target) :
    law.quadratic * ‖s.toComplex‖ ^ 2 ≤ c ^ 2 / 2 * ‖target.toComplex‖ := by
  have hR := h.radius_nonneg
  calc law.quadratic * ‖s.toComplex‖ ^ 2 ≤ law.quadratic * (c * law.radius target) ^ 2 := by
        have := h.quadratic_pos.le
        gcongr
    _ = c ^ 2 * (law.quadratic * law.radius target) * law.radius target := by ring
    _ ≤ c ^ 2 * (law.linear / 2) * law.radius target := by
        have := h.quadratic_mul_radius
        gcongr
    _ = c ^ 2 / 2 * (law.linear * law.radius target) := by ring
    _ = c ^ 2 / 2 * ‖target.toComplex‖ := by rw [h.linear_mul_radius]

end Small

namespace Near

variable (h : Small law target) (hs : Near law target k s)

include h hs

theorem norm_le_radius : ‖s.toComplex‖ ≤ 5 / 3 * law.radius target := by
  have hR := h.radius_nonneg
  calc ‖s.toComplex‖ ≤ law.radius target * (5 / 3 - 2 / 3 * (1 / 4) ^ k) := hs.norm_le
    _ ≤ law.radius target * (5 / 3) := by
        gcongr
        have : (0 : ℝ) ≤ 2 / 3 * (1 / 4) ^ k := by positivity
        linarith
    _ = 5 / 3 * law.radius target := by ring

/-- The law rises by four ninths of its linear part at least. -/
theorem slope : 4 / 9 * law.linear ≤ law.linear - 2 * law.quadratic / 3 * ‖s.toComplex‖ := by
  have ha := h.quadratic_pos
  have hq : law.quadratic * ‖s.toComplex‖ ≤ 5 / 6 * law.linear := by
    calc law.quadratic * ‖s.toComplex‖ ≤ law.quadratic * (5 / 3 * law.radius target) := by
          have := norm_le_radius h hs
          gcongr
      _ = 5 / 3 * (law.quadratic * law.radius target) := by ring
      _ ≤ 5 / 3 * (law.linear / 2) := by
          have := h.quadratic_mul_radius
          gcongr
      _ = 5 / 6 * law.linear := by ring
  linarith

/-- No step is refused. -/
theorem regular : law.newtonStep target s ≠ none := by
  have hb := h.linear_pos
  have hslope := slope h hs
  have hq : 0 ≤ 2 * law.quadratic / 3 * ‖s.toComplex‖ := by
    have := h.quadratic_pos
    positivity
  have hj : 4 / 9 * law.linear * law.linear ≤ law.jacobian s := by
    calc 4 / 9 * law.linear * law.linear
        ≤ (law.linear - 2 * law.quadratic / 3 * ‖s.toComplex‖) *
            (law.linear + 2 * law.quadratic / 3 * ‖s.toComplex‖) := by
          apply mul_le_mul hslope (by linarith) hb.le (by linarith)
      _ = law.jacobian s := by rw [jacobian_eq]; ring
  rw [Ne, newtonStep_eq_none_iff, not_le]
  have hsq : 0 < law.linear ^ 2 := by positivity
  calc 1 / 10 ^ 12 * law.linear ^ 2 < 4 / 9 * law.linear * law.linear := by nlinarith
    _ ≤ law.jacobian s := hj
    _ ≤ |law.jacobian s| := le_abs_self _

/-- A step is at most three eighths of the radius, and shrinks with the miss. -/
theorem step_le (hd : law.newtonStep target s = some d) :
    ‖d.toComplex‖ ≤ law.radius target * (3 / 8 * (1 / 4) ^ k) := by
  have hb := h.linear_pos
  have hstep : 4 / 9 * law.linear * ‖d.toComplex‖ ≤ ‖target.toComplex‖ / 6 * (1 / 4) ^ k := by
    calc 4 / 9 * law.linear * ‖d.toComplex‖
        ≤ (law.linear - 2 * law.quadratic / 3 * ‖s.toComplex‖) * ‖d.toComplex‖ := by
          have := slope h hs
          gcongr
      _ ≤ law.miss target s := norm_step_le h.quadratic_pos.le hb hd
      _ ≤ ‖target.toComplex‖ / 6 * (1 / 4) ^ k := hs.miss_le
  rw [← h.linear_mul_radius] at hstep
  refine le_of_mul_le_mul_left ?_ (by positivity : 0 < 4 / 9 * law.linear)
  calc 4 / 9 * law.linear * ‖d.toComplex‖ ≤ law.linear * law.radius target / 6 * (1 / 4) ^ k := hstep
    _ = 4 / 9 * law.linear * (law.radius target * (3 / 8 * (1 / 4) ^ k)) := by ring

end Near

theorem near_start (h : Small law target) : Near law target 0 (Cx.divReal target law.linear) := by
  have hb := h.linear_pos
  have hn : ‖(Cx.divReal target law.linear).toComplex‖ = law.radius target := by
    rw [Cx.toComplex_divReal, norm_div, Complex.norm_real, Real.norm_of_nonneg hb.le]
    rfl
  have hl : (law.linear : ℂ) * (Cx.divReal target law.linear).toComplex = target.toComplex := by
    rw [Cx.toComplex_divReal]
    exact mul_div_cancel₀ _ (Complex.ofReal_ne_zero.mpr hb.ne')
  refine ⟨?_, ?_⟩
  · rw [hn, pow_zero]
    linarith
  · have hterm := h.quadratic_term (s := Cx.divReal target law.linear) (c := 1) (by rw [hn, one_mul])
    rw [miss, onPlane_eq, hl, add_sub_cancel_right, norm_square_term, abs_of_pos h.quadratic_pos, pow_zero]
    linarith

/-- One step: the miss is squared, and that leaves less than a quarter. -/
theorem near_step (h : Small law target) (hs : Near law target k s) (hd : law.newtonStep target s = some d) :
    Near law target (k + 1) (s - d) := by
  have hR := h.radius_nonneg
  have hdle := Near.step_le h hs hd
  have hk : (0 : ℝ) ≤ (1 / 4) ^ k := by positivity
  have hk1 : ((1 : ℝ) / 4) ^ k ≤ 1 := pow_le_one₀ (by norm_num) (by norm_num)
  refine ⟨?_, ?_⟩
  · calc ‖(s - d).toComplex‖ ≤ ‖s.toComplex‖ + ‖d.toComplex‖ := by
          rw [Cx.toComplex_sub]
          exact norm_sub_le _ _
      _ ≤ law.radius target * (5 / 3 - 2 / 3 * (1 / 4) ^ k) + law.radius target * (3 / 8 * (1 / 4) ^ k) :=
          add_le_add hs.norm_le hdle
      _ = law.radius target * (5 / 3 - 7 / 24 * (1 / 4) ^ k) := by ring
      _ ≤ law.radius target * (5 / 3 - 2 / 3 * (1 / 4) ^ (k + 1)) := by
          refine mul_le_mul_of_nonneg_left ?_ hR
          rw [pow_succ]
          linarith
  · have hterm := h.quadratic_term (s := d) (c := 3 / 8 * (1 / 4) ^ k) (by linarith)
    rw [miss_step hd, abs_of_pos h.quadratic_pos, pow_succ]
    calc law.quadratic / 3 * ‖d.toComplex‖ ^ 2 = law.quadratic * ‖d.toComplex‖ ^ 2 / 3 := by ring
      _ ≤ (3 / 8 * (1 / 4) ^ k) ^ 2 / 2 * ‖target.toComplex‖ / 3 := by gcongr
      _ = 3 / 128 * ‖target.toComplex‖ * (1 / 4) ^ k * (1 / 4) ^ k := by ring
      _ ≤ 3 / 128 * ‖target.toComplex‖ * (1 / 4) ^ k * 1 := by gcongr
      _ ≤ ‖target.toComplex‖ / 6 * ((1 / 4) ^ k * (1 / 4)) := by
          have : 0 ≤ ‖target.toComplex‖ * (1 / 4) ^ k := by positivity
          linarith

/-- However many steps are allowed, the run ends near; it took them all, or it has settled. -/
theorem near_run (h : Small law target) (n : ℕ) :
    ∃ j, Near law target j (law.refineFrom target n (Cx.divReal target law.linear)) ∧
      (j = n ∨ law.Settled target (law.refineFrom target n (Cx.divReal target law.linear))) := by
  obtain ⟨j, hj, hend⟩ := refineFrom_induction (fun _ _ _ hs hd => near_step h hs hd) n (near_start h)
  exact ⟨j, hj, hend.imp_left fun e => by omega⟩

/-- Where the run settles the last step was short, and the miss is its square. -/
theorem miss_settled (h : Small law target) (hs : Near law target k s) (hend : law.Settled target s) :
    law.miss target s ≤ 1 / 10 ^ 20 * ‖target.toComplex‖ := by
  rcases hend with hnone | ⟨t, d, hd, rfl, hshort⟩
  · exact absurd hnone (Near.regular h hs)
  · rw [Arith.epsilon_eq] at hshort
    have hle := Near.norm_le_radius h hs
    have hterm := h.quadratic_term (s := d) (c := 1 / 2 ^ 52 * (5 / 3)) (by
      calc ‖d.toComplex‖ ≤ 1 / 2 ^ 52 * ‖(t - d).toComplex‖ := hshort
        _ ≤ 1 / 2 ^ 52 * (5 / 3 * law.radius target) := by gcongr
        _ = 1 / 2 ^ 52 * (5 / 3) * law.radius target := by ring)
    rw [miss_step hd, abs_of_pos h.quadratic_pos]
    calc law.quadratic / 3 * ‖d.toComplex‖ ^ 2 = law.quadratic * ‖d.toComplex‖ ^ 2 / 3 := by ring
      _ ≤ (1 / 2 ^ 52 * (5 / 3)) ^ 2 / 2 * ‖target.toComplex‖ / 3 := by gcongr
      _ = (1 / 2 ^ 52 * (5 / 3)) ^ 2 / 6 * ‖target.toComplex‖ := by ring
      _ ≤ 1 / 10 ^ 20 * ‖target.toComplex‖ := mul_le_mul_of_nonneg_right (by norm_num) (norm_nonneg _)

/-- The steps suffice. -/
theorem miss_refine (h : Small law target) :
    law.miss target (law.refine (Cx.divReal target law.linear) target) ≤ 1 / 10 ^ 20 * ‖target.toComplex‖ := by
  obtain ⟨j, hj, rfl | hend⟩ := near_run h refineSteps
  · calc law.miss target (law.refine (Cx.divReal target law.linear) target)
        ≤ ‖target.toComplex‖ / 6 * (1 / 4) ^ refineSteps := hj.miss_le
      _ = 1 / 6 * (1 / 4) ^ refineSteps * ‖target.toComplex‖ := by ring
      _ ≤ 1 / 10 ^ 20 * ‖target.toComplex‖ :=
          mul_le_mul_of_nonneg_right (by norm_num [refineSteps]) (norm_nonneg _)
  · exact miss_settled h hj hend

theorem reproduces_refine (h : Small law target) :
    law.reproduces (law.refine (Cx.divReal target law.linear) target) target = true := by
  have ha := h.quadratic_pos
  have hb := h.linear_pos
  rw [reproduces_iff]
  calc law.miss target (law.refine (Cx.divReal target law.linear) target) ≤ 1 / 10 ^ 20 * ‖target.toComplex‖ := miss_refine h
    _ ≤ 1 / 10 ^ 9 * ‖target.toComplex‖ := mul_le_mul_of_nonneg_right (by norm_num) (norm_nonneg _)
    _ ≤ 1 / 10 ^ 9 * (‖target.toComplex‖ + law.linear * ‖(law.refine (Cx.divReal target law.linear) target).toComplex‖ +
          law.quadratic * ‖(law.refine (Cx.divReal target law.linear) target).toComplex‖ ^ 2 / 3) := by
        gcongr
        rw [add_assoc]
        exact le_add_of_nonneg_right (by positivity)

/-- Whatever the roots were, one of the candidates is no longer than two radii. -/
theorem candidatesFrom_small (h : Small law target) {form : Formulation} {roots : List ℝ}
    {list : List (SpaceVector ℝ)} (hl : law.candidatesFrom form target roots = some list) :
    ∃ k ∈ list, ‖k.toComplex‖ ≤ 2 * law.radius target := by
  obtain ⟨j, hj, -⟩ := near_run h refineSteps
  obtain ⟨k, hk, hclose⟩ := candidatesFrom_linear hl (reproduces_refine h)
  refine ⟨k, hk, ?_⟩
  calc ‖k.toComplex‖ ≤ 6 / 5 * ‖(law.refine (Cx.divReal target law.linear) target).toComplex‖ :=
        norm_le_of_close hclose
    _ ≤ 6 / 5 * (5 / 3 * law.radius target) :=
        mul_le_mul_of_nonneg_left (Near.norm_le_radius h hj) (by norm_num)
    _ = 2 * law.radius target := by ring

end ForceLaw

namespace Allocator

open ForceLaw (Small)

/-- Whatever the roots were, a small force has a small answer, and the linear solution is why. -/
theorem solveWith_small (a : Allocator ℝ) (form : Formulation) (target : Cx ℝ)
    (ha : 0 < a.bearing.law.quadratic) (hb : 0 < a.bearing.law.linear)
    (hF : a.bearing.law.quadratic * target.norm ≤ a.bearing.law.linear ^ 2 / 2) :
    (∀ list, a.solveWith form target = .ok (some list) →
      list ≠ [] ∧ ∀ c ∈ list, (∀ k ∈ list, c.norm ≤ k.norm) →
        c.norm ≤ 2 * target.norm / a.bearing.law.linear ∧
        (a.bearing.law.ofVector c - target).norm ≤ 4 / 10 ^ 9 * target.norm) ∧
    (∀ n, a.bearing.law.newtonStep target
          (a.bearing.law.refineFrom target n (Cx.divReal target a.bearing.law.linear)) ≠ none ∧
        (a.bearing.law.refineFrom target n (Cx.divReal target a.bearing.law.linear)).norm ≤
          2 * target.norm / a.bearing.law.linear) ∧
    a.bearing.law.reproduces (a.bearing.law.refine (Cx.divReal target a.bearing.law.linear) target) target = true := by
  rw [Cx.norm_eq] at hF
  have h : Small a.bearing.law target := ⟨ha, hb, hF⟩
  have hradius : 2 * target.norm / a.bearing.law.linear = 2 * a.bearing.law.radius target := by
    rw [Cx.norm_eq, mul_div_assoc]
    rfl
  have hR := h.radius_nonneg
  rw [hradius]
  refine ⟨?_, ?_, ForceLaw.reproduces_refine h⟩
  · intro list hl
    obtain ⟨roots, -, hc⟩ := solveWith_ok hl
    obtain ⟨j, hj, -⟩ := ForceLaw.near_run h ForceLaw.refineSteps
    -- The linear solution is in the list, or something that it was merged with.
    obtain ⟨k, hk, hclose⟩ := ForceLaw.candidatesFrom_linear hc.symm (ForceLaw.reproduces_refine h)
    refine ⟨List.ne_nil_of_mem hk, fun c hcl hmin => ?_⟩
    have hn : ‖c.toComplex‖ ≤ 2 * a.bearing.law.radius target := by
      calc ‖c.toComplex‖ ≤ ‖k.toComplex‖ := by
            have := hmin k hk
            rwa [Cx.norm_eq, Cx.norm_eq] at this
        _ ≤ 6 / 5 * ‖(a.bearing.law.refine (Cx.divReal target a.bearing.law.linear) target).toComplex‖ :=
            ForceLaw.norm_le_of_close hclose
        _ ≤ 6 / 5 * (5 / 3 * a.bearing.law.radius target) :=
            mul_le_mul_of_nonneg_left (ForceLaw.Near.norm_le_radius h hj) (by norm_num)
        _ = 2 * a.bearing.law.radius target := by ring
    refine ⟨by rwa [Cx.norm_eq], ?_⟩
    have hterm := h.quadratic_term hn
    have hlin : a.bearing.law.linear * ‖c.toComplex‖ ≤ 2 * ‖target.toComplex‖ := by
      calc a.bearing.law.linear * ‖c.toComplex‖ ≤ a.bearing.law.linear * (2 * a.bearing.law.radius target) :=
            mul_le_mul_of_nonneg_left hn hb.le
        _ = 2 * (a.bearing.law.linear * a.bearing.law.radius target) := by ring
        _ = 2 * ‖target.toComplex‖ := by rw [h.linear_mul_radius]
    have hr := ForceLaw.reproduces_iff.mp (ForceLaw.candidatesFrom_reproduces hc.symm c hcl)
    rw [Cx.norm_eq, Cx.norm_eq, Cx.toComplex_sub, ForceLaw.toComplex_ofVector]
    refine le_trans hr ?_
    linarith [norm_nonneg target.toComplex]
  · intro n
    obtain ⟨j, hj, -⟩ := ForceLaw.near_run h n
    refine ⟨ForceLaw.Near.regular h hj, ?_⟩
    rw [Cx.norm_eq]
    linarith [ForceLaw.Near.norm_le_radius h hj]

/-- A finder that finds nothing leaves the linear solution alone. -/
noncomputable def rootless : Allocator ℝ := ⟨⟨⟨3.0, 2.0⟩, 1, 1, 0, fun _ => false⟩, fun _ => .ok []⟩

theorem solveWith_small_rootless : ∃ (list : List (SpaceVector ℝ)) (c : SpaceVector ℝ),
    rootless.solveWith .imaginaryFirst ⟨3 / 10, 4 / 10⟩ = .ok (some list) ∧ c ∈ list ∧ c.norm ≤ 1 / 2 ∧
      (rootless.bearing.law.ofVector c - ⟨3 / 10, 4 / 10⟩).norm ≤ 2 / 10 ^ 9 := by
  have hn : (⟨3 / 10, 4 / 10⟩ : Cx ℝ).norm = 1 / 2 := by
    show √(3 / 10 * (3 / 10) + 4 / 10 * (4 / 10)) = 1 / 2
    rw [Real.sqrt_eq_iff_mul_self_eq_of_pos (by norm_num)]
    norm_num
  obtain ⟨hlist, -, hr⟩ := solveWith_small rootless .imaginaryFirst ⟨3 / 10, 4 / 10⟩ (by norm_num [rootless])
    (by norm_num [rootless]) (by rw [hn]; norm_num [rootless])
  have hl : rootless.solveWith .imaginaryFirst ⟨3 / 10, 4 / 10⟩ =
      .ok (some [rootless.bearing.law.refine (Cx.divReal ⟨3 / 10, 4 / 10⟩ rootless.bearing.law.linear) ⟨3 / 10, 4 / 10⟩]) := by
    show Except.ok (some (rootless.bearing.law.keep _ [] _)) = _
    simp only [ForceLaw.keep, hr]
    rfl
  obtain ⟨-, hmin⟩ := hlist _ hl
  obtain ⟨h1, h2⟩ := hmin _ (List.mem_singleton_self _) (by simp)
  rw [hn] at h1 h2
  refine ⟨_, _, hl, List.mem_singleton_self _, ?_, ?_⟩
  · refine le_trans h1 ?_
    norm_num [rootless]
  · refine le_trans h2 ?_
    norm_num

end Allocator

end MagneticBearing
