/-
  MagneticBearing.Proofs.Completeness — which solutions of the force equation a request is answered with.

  With a finder that finds the real roots and nothing else (`FindsExactly`) the seeds are the
  solutions outside the guard (`completions_exact`), so a request is answered with these and the
  linear solution, merged (`solve_exact`). The imaginary part first answers with all of them or not at
  all. The real part first leaves out the solutions that the guard of `pair` rejects (`Dropped`), and
  along the axis these are all solutions off it (`dropped_off_axis`).

  - `solve_complete`: every solution is listed up to the tolerance unless it is dropped; there is no
    feasible solution exactly if all are dropped and the linear solution leads nowhere.
  - `infeasible_backward`: which is so for every force against the axis of pole one that is larger
    than `3 linear² / (4 quadratic)` by more than the tolerance.
  - `solve_loses_a_pair`: both on one bearing.
-/

import MagneticBearing.Proofs.Currents
import MagneticBearing.Proofs.Preimages

namespace MagneticBearing

/-- What the finder calls the real roots are the real roots. -/
def Quartic.FindsExactly (find : RootFinder ℝ) : Prop :=
  ∀ c, ∃ roots, Quartic.realRoots find c = .ok roots ∧ ∀ y, y ∈ roots ↔ c.eval y = 0

namespace ForceLaw

variable {law : ForceLaw ℝ} {form : Formulation} {target s : Cx ℝ}

variable (law form) in
/-- The solution's root is left out: the real part is solved for, and it is within the guard. -/
def Dropped (s : SpaceVector ℝ) : Prop := form = .realFirst ∧ law.Guarded .realFirst s.re

/-- The roots complete to the solutions that are not dropped. -/
theorem completions_exact (ha : 0 < law.quadratic) {roots : List ℝ} {seeds : List (SpaceVector ℝ)}
    (hroots : ∀ y, y ∈ roots ↔ (law.quartic form target.re target.im).eval y = 0)
    (h : law.completions form target.im roots = some seeds) (s : SpaceVector ℝ) :
    s ∈ seeds ↔ law.ofVector s = target ∧ ¬ law.Dropped form s := by
  rw [completions_mem h]
  constructor
  · rintro ⟨root, hroot, hp⟩
    refine ⟨force_of_pair ha.ne' ((hroots root).mp hroot) hp, ?_⟩
    rintro ⟨rfl, hd⟩
    obtain ⟨hg, rfl⟩ := (pair_eq_some_iff _).mp hp
    exact hg hd
  · rintro ⟨hs, hd⟩
    have hroot : form.coordinate s ∈ roots := (hroots _).mpr (eval_coordinate ha.ne' hs)
    have hg : ¬ law.Guarded form (form.coordinate s) := by
      cases form with
      | imaginaryFirst =>
        obtain ⟨t, ht⟩ := completions_imaginaryFirst h _ hroot
        exact ((pair_eq_some_iff _).mp ht).1
      | realFirst => exact fun hg => hd ⟨rfl, hg⟩
    exact ⟨_, hroot, pair_coordinate ha.ne' hs hg⟩

/-- For a force along the axis the solutions off it have the real part that the guard is for. -/
theorem dropped_off_axis (ha : 0 < law.quadratic) (ht : target.im = 0) (h : law.ofVector s = target) (hs : s.im ≠ 0) :
    law.Dropped .realFirst s := by
  obtain ⟨hre, -⟩ := (off_axis_iff ha ht hs).mp h
  refine ⟨rfl, guarded_of_singular (singular_realFirst.mpr ?_)⟩
  rw [hre]
  field_simp
  ring

/-- What is listed is a solution that is not dropped, or what the linear solution led to. -/
theorem distinct_exact_mem {seeds : List (SpaceVector ℝ)} {linear k : Cx ℝ}
    (hseeds : ∀ s, s ∈ seeds ↔ law.ofVector s = target ∧ ¬ law.Dropped form s)
    (hk : k ∈ law.distinct target (seeds ++ [linear])) :
    law.ofVector k = target ∧ ¬ law.Dropped form k ∨ k = law.refine linear target ∧ law.reproduces k target = true := by
  obtain ⟨seed, hseed, rfl, hr⟩ := distinct_mem hk
  rcases List.mem_append.mp hseed with hseed | hseed
  · have hs := (hseeds seed).mp hseed
    have hfix : law.refine seed target = seed := refineFrom_exact hs.1 refineSteps
    exact .inl (by rwa [hfix])
  · obtain rfl := List.mem_singleton.mp hseed
    exact .inr ⟨rfl, hr⟩

end ForceLaw

namespace Allocator

open Polynomial

open ForceLaw (close Dropped)

variable {a : Allocator ℝ} {direction magnitude : ℝ}

/-- The linear solution after polishing. -/
noncomputable def fromLinear (a : Allocator ℝ) (f : Cx ℝ) : SpaceVector ℝ :=
  a.bearing.law.refine (Cx.divReal f a.bearing.law.linear) f

/-- The answer is the solutions that are not dropped and the linear one, merged. -/
structure ExactAnswer (a : Allocator ℝ) (direction magnitude : ℝ) (sols : Solutions ℝ) : Prop where
  solved : a.solve direction magnitude = .ok sols
  formulation : sols.formulation = .forDirection direction ∨ sols.formulation = .realFirst
  vectors : ∃ seeds, (∀ s, s ∈ seeds ↔ a.bearing.law.ofVector s = target direction magnitude ∧
      ¬ a.bearing.law.Dropped sols.formulation s) ∧
    sols.vectors = a.bearing.law.distinct (target direction magnitude)
      (seeds ++ [Cx.divReal (target direction magnitude) a.bearing.law.linear])

theorem solve_exact (hfind : Quartic.FindsExactly a.find) (ha : 0 < a.bearing.law.quadratic) (direction : ℝ)
    (hm : 0 < magnitude) : ∃ sols, a.ExactAnswer direction magnitude sols := by
  obtain ⟨sols, hs⟩ := solve_isOk (a := a) (fun c => (hfind c).imp fun _ h => h.1) direction hm.le
  rcases solve_ok hs with ⟨rfl, -⟩ | ⟨-, hform, roots, hr, hc⟩
  · exact absurd hm (lt_irrefl 0)
  obtain ⟨roots', hr', hroots⟩ := hfind (a.bearing.law.quartic sols.formulation (target direction magnitude).re
    (target direction magnitude).im)
  rw [hr] at hr'
  cases hr'
  obtain ⟨seeds, hseeds, hv⟩ := ForceLaw.candidatesFrom_eq hc
  exact ⟨sols, hs, hform, seeds, ForceLaw.completions_exact ha hroots hseeds, hv⟩

namespace ExactAnswer

variable {sols : Solutions ℝ} {s k : SpaceVector ℝ} (h : a.ExactAnswer direction magnitude sols)

include h

theorem covers (ha : 0 < a.bearing.law.quadratic) (hb : 0 < a.bearing.law.linear)
    (hs : a.bearing.law.ofVector s = target direction magnitude) (hd : ¬ a.bearing.law.Dropped sols.formulation s) :
    ∃ k ∈ sols.vectors, close k s = true := by
  obtain ⟨seeds, hseeds, hv⟩ := h.vectors
  rw [hv]
  exact ForceLaw.distinct_covers_solution ha hb (List.mem_append_left _ ((hseeds s).mpr ⟨hs, hd⟩)) hs

theorem mem (hk : k ∈ sols.vectors) : a.bearing.law.ofVector k = target direction magnitude ∧
      ¬ a.bearing.law.Dropped sols.formulation k ∨
    k = a.fromLinear (target direction magnitude) ∧ a.bearing.law.reproduces k (target direction magnitude) = true := by
  obtain ⟨seeds, hseeds, hv⟩ := h.vectors
  rw [hv] at hk
  exact ForceLaw.distinct_exact_mem hseeds hk

theorem realFirst_of_axis (hm : magnitude ≠ 0) (ht : (target direction magnitude).im = 0) :
    sols.formulation = .realFirst := by
  have hform := h.formulation
  rwa [forDirection_of_axis hm ht, or_self] at hform

/-- Along the axis nothing off it is listed. -/
theorem on_axis (ha : 0 < a.bearing.law.quadratic) (hm : magnitude ≠ 0) (ht : (target direction magnitude).im = 0)
    (hk : k ∈ sols.vectors) : k.im = 0 := by
  rcases h.mem hk with ⟨hs, hd⟩ | ⟨rfl, -⟩
  · by_contra hne
    rw [h.realFirst_of_axis hm ht] at hd
    exact hd (ForceLaw.dropped_off_axis ha ht hs hne)
  · apply ForceLaw.refineFrom_on_axis ht
    show (target direction magnitude).im / a.bearing.law.linear = 0
    rw [ht, zero_div]

theorem infeasible_iff (ha : 0 < a.bearing.law.quadratic) (hb : 0 < a.bearing.law.linear) :
    a.controlCurrents direction magnitude .amps false = .error (.noFeasibleSolution direction magnitude) ↔
      (∀ s, a.bearing.law.ofVector s = target direction magnitude → a.bearing.law.Dropped sols.formulation s) ∧
        a.bearing.law.reproduces (a.fromLinear (target direction magnitude)) (target direction magnitude) = false := by
  have hany (s : SpaceVector ℝ) : a.Eligible false s := fun hc => absurd hc Bool.false_ne_true
  rw [controlCurrents_error]
  constructor
  · rintro (he | ⟨-, sols', hs', hno⟩)
    · rw [h.solved] at he
      cases he
    rw [h.solved] at hs'
    cases hs'
    refine ⟨fun s hs => ?_, ?_⟩
    · by_contra hd
      obtain ⟨k, hk, -⟩ := h.covers ha hb hs hd
      exact hno k hk (hany k)
    · rw [Bool.eq_false_iff]
      intro hr
      obtain ⟨seeds, -, hv⟩ := h.vectors
      obtain ⟨k, hk, -⟩ := ForceLaw.distinct_covers (List.mem_append_right seeds (List.mem_singleton_self _)) hr
      exact hno k (by rw [hv]; exact hk) (hany k)
  · rintro ⟨hall, hr⟩
    refine .inr ⟨rfl, sols, h.solved, fun k hk => ?_⟩
    rcases h.mem hk with ⟨hs, hd⟩ | ⟨rfl, hrk⟩
    · exact absurd (hall k hs) hd
    · rw [hr] at hrk
      cases hrk

end ExactAnswer

/-- Every solution is listed unless it is dropped, and where every solution is, there is none to offer. -/
theorem solve_complete (a : Allocator ℝ) (hfind : Quartic.FindsExactly a.find) (ha : 0 < a.bearing.law.quadratic)
    (hb : 0 < a.bearing.law.linear) (direction : ℝ) {magnitude : ℝ} (hm : 0 < magnitude) :
    let law := a.bearing.law
    let f := target direction magnitude
    (∃ s t, s ≠ t ∧ law.ofVector s = f ∧ law.ofVector t = f) ∧
      ∃ sols, a.solve direction magnitude = .ok sols ∧
        (∀ s, law.ofVector s = f → (∃ k ∈ sols.vectors, close k s = true) ∨ law.Dropped sols.formulation s) ∧
        (∀ k ∈ sols.vectors, law.ofVector k = f ∧ ¬ law.Dropped sols.formulation k ∨ k = a.fromLinear f) ∧
        (f.im = 0 → ∀ s, law.ofVector s = f → s.im ≠ 0 →
          law.Dropped sols.formulation s ∧ ∀ k ∈ sols.vectors, |s.im| ≤ (k - s).norm) ∧
        (a.controlCurrents direction magnitude .amps false = .error (.noFeasibleSolution direction magnitude) ↔
          (∀ s, law.ofVector s = f → law.Dropped sols.formulation s) ∧ law.reproduces (a.fromLinear f) f = false) := by
  intro law f
  obtain ⟨sols, h⟩ := solve_exact hfind ha direction hm
  refine ⟨ForceLaw.two_solutions ha hb f, sols, h.solved, ?_, ?_, ?_, h.infeasible_iff ha hb⟩
  · intro s hs
    by_cases hd : law.Dropped sols.formulation s
    · exact .inr hd
    · exact .inl (h.covers ha hb hs hd)
  · intro k hk
    exact (h.mem hk).imp_right And.left
  · intro ht s hs hne
    have hform : sols.formulation = .realFirst := h.realFirst_of_axis hm.ne' ht
    refine ⟨by rw [hform]; exact ForceLaw.dropped_off_axis ha ht hs hne, fun k hk => ?_⟩
    have him : (k - s).toComplex.im = -s.im := by
      show k.im - s.im = -s.im
      rw [h.on_axis ha hm.ne' ht hk, zero_sub]
    calc |s.im| = |(k - s).toComplex.im| := by rw [him, abs_neg]
      _ ≤ ‖(k - s).toComplex‖ := Complex.abs_im_le_norm _
      _ = (k - s).norm := (Cx.norm_eq _).symm

/-- The terms of the law on the axis, against how far its force is above the least one. -/
theorem terms_on_axis {law : ForceLaw ℝ} (ha : 0 < law.quadratic) (hb : 0 < law.linear) (x : ℝ) :
    law.linear * |x| + law.quadratic * |x| ^ 2 / 3 ≤
      3 * (law.quadratic / 3 * x ^ 2 + law.linear * x + 3 * law.linear ^ 2 / (4 * law.quadratic)) +
        5 * (3 * law.linear ^ 2 / (4 * law.quadratic)) := by
  have hq : 0 ≤ law.quadratic * x ^ 2 := by positivity
  rw [sq_abs]
  rcases le_total 0 x with hx | hx
  · have hl : 0 ≤ law.linear * x := by positivity
    have hleast : 0 ≤ 3 * law.linear ^ 2 / (4 * law.quadratic) := by positivity
    rw [abs_of_nonneg hx]
    linarith
  · have hsq : 2 / 3 * (law.quadratic * (x + 3 * law.linear / law.quadratic) ^ 2) =
        2 / 3 * (law.quadratic * x ^ 2) + 4 * (law.linear * x) + 8 * (3 * law.linear ^ 2 / (4 * law.quadratic)) := by
      field_simp
      ring
    have hpos : 0 ≤ law.quadratic * (x + 3 * law.linear / law.quadratic) ^ 2 := by positivity
    rw [abs_of_nonpos hx]
    linarith

/-- Nothing on the axis comes near a force that is below the least one there. -/
theorem not_reproduces_below {law : ForceLaw ℝ} (ha : 0 < law.quadratic) (hb : 0 < law.linear) {s : SpaceVector ℝ}
    (hs : s.im = 0) (hm : (1 + 1 / 10 ^ 8) * (3 * law.linear ^ 2 / (4 * law.quadratic)) ≤ magnitude) :
    law.reproduces s ⟨-magnitude, 0⟩ = false := by
  have hleast : 0 < 3 * law.linear ^ 2 / (4 * law.quadratic) := by positivity
  have hsnorm : ‖s.toComplex‖ = |s.re| := by
    have e : s.toComplex = (s.re : ℂ) := Complex.ext rfl hs
    rw [e, Complex.norm_real, Real.norm_eq_abs]
  have htnorm : ‖(⟨-magnitude, 0⟩ : Cx ℝ).toComplex‖ = magnitude := by
    have e : (⟨-magnitude, 0⟩ : Cx ℝ).toComplex = ((-magnitude : ℝ) : ℂ) := rfl
    rw [e, Complex.norm_real, Real.norm_eq_abs, abs_neg, abs_of_nonneg (by linarith)]
  have hforce : (law.ofVector s).re = law.quadratic / 3 * s.re ^ 2 + law.linear * s.re := by
    rw [ForceLaw.ofVector_re, hs]
    ring
  have hmiss : law.quadratic / 3 * s.re ^ 2 + law.linear * s.re + magnitude ≤ law.miss ⟨-magnitude, 0⟩ s := by
    calc law.quadratic / 3 * s.re ^ 2 + law.linear * s.re + magnitude
        = ((law.ofVector s).toComplex - (⟨-magnitude, 0⟩ : Cx ℝ).toComplex).re := by
          rw [Complex.sub_re, Cx.toComplex_re, Cx.toComplex_re, hforce]
          ring
      _ ≤ law.miss ⟨-magnitude, 0⟩ s := by
          rw [ForceLaw.miss, ← ForceLaw.toComplex_ofVector]
          exact le_trans (le_abs_self _) (Complex.abs_re_le_norm _)
  have habove : 0 ≤ law.quadratic / 3 * s.re ^ 2 + law.linear * s.re + 3 * law.linear ^ 2 / (4 * law.quadratic) := by
    rw [← ForceLaw.least_on_axis ha]
    have : 0 ≤ law.quadratic / 3 * (s.re + 3 * law.linear / (2 * law.quadratic)) ^ 2 := by positivity
    linarith
  rw [Bool.eq_false_iff]
  intro hr
  have hle := ForceLaw.reproduces_iff.mp hr
  rw [hsnorm, htnorm] at hle
  have hterms := terms_on_axis ha hb s.re
  linarith

/-- Against the axis of pole one a large force has no answer, though it has solutions. -/
theorem infeasible_backward (hfind : Quartic.FindsExactly a.find) (ha : 0 < a.bearing.law.quadratic)
    (hb : 0 < a.bearing.law.linear)
    (hm : (1 + 1 / 10 ^ 8) * (3 * a.bearing.law.linear ^ 2 / (4 * a.bearing.law.quadratic)) ≤ magnitude) :
    a.controlCurrents 180 magnitude .amps false = .error (.noFeasibleSolution 180 magnitude) := by
  have hleast : 0 < 3 * a.bearing.law.linear ^ 2 / (4 * a.bearing.law.quadratic) := by positivity
  have hlt : 3 * a.bearing.law.linear ^ 2 / (4 * a.bearing.law.quadratic) < magnitude := by linarith
  have hpos : 0 < magnitude := by linarith
  obtain ⟨sols, h⟩ := solve_exact hfind ha 180 hpos
  have hform : sols.formulation = .realFirst := h.realFirst_of_axis hpos.ne' (by rw [target_backward])
  rw [h.infeasible_iff ha hb, hform, target_backward]
  constructor
  · intro s hs
    -- On the axis no force is as far back.
    have hne : s.im ≠ 0 := by
      intro h0
      have hx := (ForceLaw.on_axis_iff rfl h0).mp hs
      rw [← ForceLaw.least_on_axis ha] at hx
      have : 0 ≤ a.bearing.law.quadratic / 3 * (s.re + 3 * a.bearing.law.linear / (2 * a.bearing.law.quadratic)) ^ 2 := by
        positivity
      simp only at hx
      linarith
    exact ForceLaw.dropped_off_axis ha rfl hs hne
  · apply not_reproduces_below ha hb _ hm
    apply ForceLaw.refineFrom_on_axis rfl
    exact zero_div _

/-! ## One bearing -/

/-- The polynomial of the quartic over the reals. -/
noncomputable def realPoly (c : Quartic ℝ) : ℝ[X] := X ^ 4 + C c.p * X ^ 2 + C c.q * X + C c.r

/-- The finder that is given the roots. -/
noncomputable def exactFinder : RootFinder ℝ := fun c => .ok ((realPoly c).roots.toList.map Cx.ofReal)

theorem exactFinder_findsExactly : Quartic.FindsExactly exactFinder := by
  intro c
  have hp (y : ℝ) : Quartic.realPart? (Cx.ofReal y) = some y := Quartic.realPart?_of_real Exact.zero_eq
  have hne : realPoly c ≠ 0 := by
    intro h0
    have h4 := congrArg (fun f => f.coeff 4) h0
    simp [realPoly] at h4
  refine ⟨(realPoly c).roots.toList, ?_, fun y => ?_⟩
  · show Except.ok (((realPoly c).roots.toList.map Cx.ofReal).filterMap Quartic.realPart?) = _
    rw [List.filterMap_map]
    have e : Quartic.realPart? ∘ Cx.ofReal = (some : ℝ → Option ℝ) := funext hp
    rw [e, List.filterMap_some]
  · rw [Multiset.mem_toList, mem_roots hne, ForceLaw.eval_eq]
    simp [realPoly, IsRoot.def]

/-- The law `conj(z)² + 2 z`. -/
noncomputable def plain : Allocator ℝ := ⟨⟨⟨3.0, 2.0⟩, 1, 1, 0, fun _ => false⟩, exactFinder⟩

theorem solve_complete_forward : Quartic.FindsExactly plain.find ∧
    ∃ sols, plain.solve 0 8 = .ok sols ∧ ∃ k ∈ sols.vectors, close k ⟨2, 0⟩ = true := by
  have hfind : Quartic.FindsExactly plain.find := exactFinder_findsExactly
  refine ⟨hfind, ?_⟩
  obtain ⟨-, sols, hs, hcovers, -⟩ := solve_complete plain hfind (by norm_num [plain]) (by norm_num [plain]) 0
    (by norm_num : (0 : ℝ) < 8)
  have hexact : plain.bearing.law.ofVector ⟨2, 0⟩ = target 0 8 := by
    rw [target_forward, ForceLaw.ofVector_eq_iff]
    norm_num [plain]
  have hg : ¬ plain.bearing.law.Guarded .realFirst 2 := by
    simp only [ForceLaw.Guarded, plain, Quartic.zeroTolerance_eq]
    norm_num
  exact ⟨sols, hs, (hcovers _ hexact).resolve_right fun hd => hg hd.2⟩

/-- Off the axis a force of 2 along it has the solution `1 + i`, and against the axis a force of 3 has
solutions only there. -/
theorem solve_loses_a_pair : Quartic.FindsExactly plain.find ∧
    plain.bearing.law.ofVector ⟨1, 1⟩ = target 0 2 ∧
    (∃ sols, plain.solve 0 2 = .ok sols ∧ ∀ k ∈ sols.vectors, close k ⟨1, 1⟩ = false) ∧
    plain.controlCurrents 180 3 .amps false = .error (.noFeasibleSolution 180 3) := by
  have hfind : Quartic.FindsExactly plain.find := exactFinder_findsExactly
  have ha : 0 < plain.bearing.law.quadratic := by norm_num [plain]
  have hb : 0 < plain.bearing.law.linear := by norm_num [plain]
  refine ⟨hfind, ?_, ?_, infeasible_backward hfind ha hb (by norm_num [plain])⟩
  · rw [target_forward, ForceLaw.ofVector_eq_iff]
    norm_num [plain]
  · obtain ⟨sols, h⟩ := solve_exact hfind ha 0 (by norm_num : (0 : ℝ) < 2)
    refine ⟨sols, h.solved, fun k hk => ?_⟩
    have him : k.im = 0 := h.on_axis ha two_ne_zero (by rw [target_forward]) hk
    have hfar : 1 ≤ ‖k.toComplex - (⟨1, 1⟩ : Cx ℝ).toComplex‖ := by
      have e : (k.toComplex - (⟨1, 1⟩ : Cx ℝ).toComplex).im = -1 := by
        show k.im - 1 = -1
        rw [him, zero_sub]
      have := Complex.abs_im_le_norm (k.toComplex - (⟨1, 1⟩ : Cx ℝ).toComplex)
      rwa [e, abs_neg, abs_one] at this
    have hone : ‖(⟨1, 1⟩ : Cx ℝ).toComplex‖ ≤ 2 := by
      have := Complex.norm_le_abs_re_add_abs_im (⟨1, 1⟩ : Cx ℝ).toComplex
      rw [Cx.toComplex_re, Cx.toComplex_im] at this
      norm_num at this ⊢
      exact this
    have hk2 : ‖k.toComplex‖ ≤ ‖(⟨1, 1⟩ : Cx ℝ).toComplex‖ + ‖k.toComplex - (⟨1, 1⟩ : Cx ℝ).toComplex‖ :=
      norm_le_norm_add_norm_sub' _ _
    rw [Bool.eq_false_iff]
    intro hc
    have hle := ForceLaw.close_iff.mp hc
    rcases max_choice ‖k.toComplex‖ ‖(⟨1, 1⟩ : Cx ℝ).toComplex‖ with hmax | hmax
    · rw [hmax] at hle
      linarith
    · rw [hmax] at hle
      linarith

end Allocator

end MagneticBearing
