/-
  MagneticBearing.Proofs.Currents — which currents a request is answered with, and what they do.

  - `controlCurrents_sound`: the currents answered are those of a candidate that may be used, the
    smallest of these; they sum to zero, and back through the poles they produce the requested
    force, up to the tolerance. There is no feasible solution exactly if no candidate may be used,
    and every other error is the solver's.
-/

import MagneticBearing.Proofs.Candidates
import MagneticBearing.Proofs.Directions
import MagneticBearing.Proofs.Selection

namespace MagneticBearing.Allocator

section Numbers

variable {K : Type} [Scalar K] {a : Allocator K} {direction magnitude : K}

theorem controlCurrents_of_error {e : AllocationError K} (hs : a.solve direction magnitude = .error e) (check : Bool) :
    a.controlCurrents direction magnitude .amps check = .error e := by
  unfold controlCurrents controlExcitations candidates
  rw [hs]
  rfl

theorem controlCurrents_of_solve {sols : Solutions K} (hs : a.solve direction magnitude = .ok sols) (check : Bool) :
    a.controlCurrents direction magnitude .amps check =
      match leastNorm (((sols.vectors.map SpaceVector.toPoles).filter fun e => !(check && a.bearing.saturated e)).map
        (·.scale a.bearing.ampsPerUnit)) with
      | none => .error (.noFeasibleSolution direction magnitude)
      | some i => .ok i := by
  unfold controlCurrents controlExcitations candidates
  rw [hs]
  simp only [bind, Except.bind, pure, Except.pure]
  cases leastNorm (((sols.vectors.map SpaceVector.toPoles).filter fun e => !(check && a.bearing.saturated e)).map
    (·.scale a.bearing.ampsPerUnit)) with
  | none => rfl
  | some i => rfl

theorem mem_usable {check : Bool} {vectors : List (SpaceVector K)} {i : Poles K} :
    i ∈ ((vectors.map SpaceVector.toPoles).filter fun e => !(check && a.bearing.saturated e)).map
        (·.scale a.bearing.ampsPerUnit) ↔
      ∃ s ∈ vectors, (check = true → a.bearing.saturated s.toPoles = false) ∧
        s.toPoles.scale a.bearing.ampsPerUnit = i := by
  have hiff (s : SpaceVector K) : (!(check && a.bearing.saturated s.toPoles)) = true ↔
      (check = true → a.bearing.saturated s.toPoles = false) := by
    cases check <;> simp
  simp only [List.mem_map, List.mem_filter]
  constructor
  · rintro ⟨e, ⟨⟨s, hs, rfl⟩, hf⟩, rfl⟩
    exact ⟨s, hs, (hiff s).mp hf, rfl⟩
  · rintro ⟨s, hs, hf, rfl⟩
    exact ⟨_, ⟨⟨s, hs, rfl⟩, (hiff s).mpr hf⟩, rfl⟩

/-- Currents are answered if a candidate may be used. Otherwise there is no feasible solution. -/
theorem controlCurrents_cases {sols : Solutions K} (hs : a.solve direction magnitude = .ok sols) (check : Bool) :
    (∃ i, a.controlCurrents direction magnitude .amps check = .ok i) ∧
        (∃ s ∈ sols.vectors, check = true → a.bearing.saturated s.toPoles = false) ∨
      a.controlCurrents direction magnitude .amps check = .error (.noFeasibleSolution direction magnitude) ∧
        ∀ s ∈ sols.vectors, check = true ∧ a.bearing.saturated s.toPoles = true := by
  rw [controlCurrents_of_solve hs]
  split
  · rename_i h
    refine .inr ⟨rfl, fun s hmem => ?_⟩
    rw [leastNorm, Scalar.leastBy_eq_none] at h
    by_contra hno
    have hmay : check = true → a.bearing.saturated s.toPoles = false := by simpa using hno
    have := mem_usable.mpr ⟨s, hmem, hmay, rfl⟩
    rw [h] at this
    cases this
  · rename_i i h
    obtain ⟨s, hmem, hmay, -⟩ := mem_usable.mp (Scalar.leastBy_mem h)
    exact .inl ⟨⟨i, rfl⟩, s, hmem, hmay⟩

end Numbers

variable {a : Allocator ℝ} {direction magnitude : ℝ} {check : Bool}

/-- A candidate that may be used: any, or with `check` one that does not saturate the iron. -/
def Eligible (a : Allocator ℝ) (check : Bool) (s : SpaceVector ℝ) : Prop :=
  check = true → a.bearing.saturated s.toPoles = false

/-- What `controlCurrents` chooses from. -/
noncomputable def offered (a : Allocator ℝ) (check : Bool) (vectors : List (SpaceVector ℝ)) : List (Poles ℝ) :=
  ((vectors.map SpaceVector.toPoles).filter fun e => !(check && a.bearing.saturated e)).map
    (·.scale a.bearing.ampsPerUnit)

theorem mem_offered {vectors : List (SpaceVector ℝ)} {i : Poles ℝ} : i ∈ a.offered check vectors ↔
    ∃ s ∈ vectors, a.Eligible check s ∧ s.toPoles.scale a.bearing.ampsPerUnit = i :=
  mem_usable

theorem controlCurrents_eq (a : Allocator ℝ) (direction magnitude : ℝ) (check : Bool) :
    a.controlCurrents direction magnitude .amps check =
      match a.solve direction magnitude with
      | .error e => .error e
      | .ok sols =>
        match leastNorm (a.offered check sols.vectors) with
        | none => .error (.noFeasibleSolution direction magnitude)
        | some i => .ok i := by
  cases hs : a.solve direction magnitude with
  | error e => exact controlCurrents_of_error hs check
  | ok sols =>
    simp only
    rw [controlCurrents_of_solve hs check, ← offered]
    cases leastNorm (a.offered check sols.vectors) <;> rfl

/-- Ampere-turns are the currents times the turns. -/
theorem controlCurrents_ampereTurns (a : Allocator ℝ) (direction magnitude : ℝ) (check : Bool) :
    a.controlCurrents direction magnitude .ampereTurns check =
      (a.controlCurrents direction magnitude .amps check).map (·.scale a.bearing.turns) := by
  rw [controlCurrents_eq]
  unfold controlCurrents controlExcitations candidates
  cases a.solve direction magnitude with
  | error e => rfl
  | ok sols =>
    simp only [bind, Except.bind, pure, Except.pure]
    rw [← offered]
    cases leastNorm (a.offered check sols.vectors) <;> rfl

theorem controlCurrents_ok {i : Poles ℝ} (h : a.controlCurrents direction magnitude .amps check = .ok i) :
    ∃ sols, a.solve direction magnitude = .ok sols ∧
      Scalar.FirstLeast Poles.norm (a.offered check sols.vectors) i := by
  rw [controlCurrents_eq] at h
  split at h
  · cases h
  · rename_i sols hs
    split at h
    · cases h
    · rename_i j hj
      cases h
      exact ⟨sols, hs, Scalar.leastBy_first hj⟩

theorem controlCurrents_error {e : AllocationError ℝ} :
    a.controlCurrents direction magnitude .amps check = .error e ↔
      a.solve direction magnitude = .error e ∨
        e = .noFeasibleSolution direction magnitude ∧
          ∃ sols, a.solve direction magnitude = .ok sols ∧ ∀ s ∈ sols.vectors, ¬ a.Eligible check s := by
  cases hs : a.solve direction magnitude with
  | error e' =>
    rw [controlCurrents_of_error hs]
    simp
  | ok sols =>
    rcases controlCurrents_cases hs check with ⟨⟨i, hi⟩, s, hmem, hmay⟩ | ⟨hnone, hall⟩
    · rw [hi]
      constructor
      · intro h
        cases h
      · rintro (h | ⟨-, sols', h, hno⟩)
        · cases h
        · cases h
          exact absurd hmay (hno s hmem)
    · have hno : ∀ s ∈ sols.vectors, ¬ a.Eligible check s := by
        intro s hmem he
        obtain ⟨hcheck, hsat⟩ := hall s hmem
        exact Bool.false_ne_true ((he hcheck).symm.trans hsat)
      rw [hnone]
      constructor
      · intro h
        cases h
        exact .inr ⟨rfl, sols, rfl, hno⟩
      · rintro (h | ⟨rfl, -⟩)
        · cases h
        · rfl

/-- The currents of a space vector produce its force. -/
theorem ofPoles_currents (law : ForceLaw ℝ) (s : SpaceVector ℝ) {c : ℝ} (hc : c ≠ 0) :
    law.ofPoles ((s.toPoles.scale c).divEach c) = law.ofVector s := by
  rw [Poles.divEach_scale _ hc, ForceLaw.ofPoles_toPoles]

theorem currents_sum (s : SpaceVector ℝ) (c : ℝ) :
    (s.toPoles.scale c).p1 + (s.toPoles.scale c).p2 + (s.toPoles.scale c).p3 = 0 := by
  show s.toPoles.p1 * c + s.toPoles.p2 * c + s.toPoles.p3 * c = 0
  rw [← add_mul, ← add_mul, SpaceVector.toPoles_sum, zero_mul]

theorem currents_norm_le_iff (s t : SpaceVector ℝ) {c : ℝ} (hc : 0 < c) :
    (s.toPoles.scale c).norm ≤ (t.toPoles.scale c).norm ↔ s.norm ≤ t.norm := by
  rw [Poles.scale_norm _ hc.le, Poles.scale_norm _ hc.le, mul_le_mul_iff_right₀ hc, SpaceVector.toPoles_norm_le_iff,
    Cx.norm_eq, Cx.norm_eq]

/-- Whatever finds the roots, the currents answered are sound and the smallest that may be used. -/
theorem controlCurrents_sound (a : Allocator ℝ) (hk : 0 < a.bearing.ampsPerUnit) (direction magnitude : ℝ)
    (check : Bool) :
    (∀ i, a.controlCurrents direction magnitude .amps check = .ok i →
      ∃ sols, a.solve direction magnitude = .ok sols ∧ ∃ s ∈ sols.vectors,
        i = s.toPoles.scale a.bearing.ampsPerUnit ∧ i.p1 + i.p2 + i.p3 = 0 ∧
        (a.bearing.law.ofPoles (i.divEach a.bearing.ampsPerUnit) - target direction magnitude).norm ≤
          1 / 10 ^ 9 * (magnitude + a.bearing.law.linear * s.norm + a.bearing.law.quadratic * s.norm ^ 2 / 3) ∧
        a.Eligible check s ∧
        ∀ t ∈ sols.vectors, a.Eligible check t →
          s.norm ≤ t.norm ∧ i.norm ≤ (t.toPoles.scale a.bearing.ampsPerUnit).norm) ∧
    (∀ d m, a.controlCurrents direction magnitude .amps check = .error (.noFeasibleSolution d m) ↔
      d = direction ∧ m = magnitude ∧ ∃ sols, a.solve direction magnitude = .ok sols ∧
        ∀ s ∈ sols.vectors, ¬ a.Eligible check s) ∧
    (∀ e, (∀ d m, e ≠ .noFeasibleSolution d m) →
      (a.controlCurrents direction magnitude .amps check = .error e ↔ a.solve direction magnitude = .error e)) := by
  refine ⟨?_, ?_, ?_⟩
  · intro i hi
    obtain ⟨sols, hs, hleast⟩ := controlCurrents_ok hi
    obtain ⟨s, hmem, he, rfl⟩ := mem_offered.mp hleast.mem
    have hmin (t : SpaceVector ℝ) (ht : t ∈ sols.vectors) (het : a.Eligible check t) :
        (s.toPoles.scale a.bearing.ampsPerUnit).norm ≤ (t.toPoles.scale a.bearing.ampsPerUnit).norm :=
      hleast.le _ (mem_offered.mpr ⟨t, ht, het, rfl⟩)
    refine ⟨sols, hs, s, hmem, rfl, currents_sum s _, ?_, he, fun t ht het => ⟨?_, hmin t ht het⟩⟩
    · have hm : 0 ≤ magnitude := by
        rcases solve_ok hs with ⟨rfl, -⟩ | ⟨hm, -⟩
        · exact le_refl 0
        · exact hm.le
      have hr := ForceLaw.reproduces_iff.mp (solve_reproduces hs s hmem)
      rw [norm_target hm] at hr
      rw [ofPoles_currents _ _ hk.ne', Cx.norm_eq, Cx.norm_eq, Cx.toComplex_sub, ForceLaw.toComplex_ofVector]
      exact hr
    · exact (currents_norm_le_iff s t hk).mp (hmin t ht het)
  · intro d m
    rw [controlCurrents_error]
    constructor
    · rintro (h | ⟨h, hno⟩)
      · rcases solve_error h with h | ⟨c, h⟩
        · cases h
        · cases h
      · cases h
        exact ⟨rfl, rfl, hno⟩
    · rintro ⟨rfl, rfl, hno⟩
      exact .inr ⟨rfl, hno⟩
  · intro e he
    rw [controlCurrents_error]
    constructor
    · rintro (h | ⟨h, -⟩)
      · exact h
      · exact absurd h (he _ _)
    · exact .inl

/-- Along the axis the force is `x² + 2 x`; the finder knows the root that makes it 8. -/
noncomputable def alongAxis : Allocator ℝ := ⟨⟨⟨3.0, 2.0⟩, 1, 1, 0, fun _ => false⟩, fun _ => .ok [⟨2.0, 0⟩]⟩

theorem alongAxis_roots (c : Quartic ℝ) : Quartic.realRoots alongAxis.find c = .ok [2] := by
  rw [← Exact.two_eq]
  exact Quartic.realRoots_known 2.0 c

theorem alongAxis_solve : ∃ sols, alongAxis.solve 0 8 = .ok sols ∧ ∃ k ∈ sols.vectors, k.norm ≤ 12 / 5 := by
  obtain ⟨sols, hs⟩ := solve_isOk (a := alongAxis) (fun c => ⟨_, alongAxis_roots c⟩) 0 (by norm_num : (0 : ℝ) ≤ 8)
  refine ⟨sols, hs, ?_⟩
  rcases solve_ok hs with ⟨h, -⟩ | ⟨hm, hform, roots, hr, hc⟩
  · norm_num at h
  rw [forDirection_of_axis hm.ne' (by rw [target_forward]), or_self] at hform
  rw [alongAxis_roots] at hr
  cases hr
  rw [hform, target_forward] at hc
  have hexact : alongAxis.bearing.law.ofVector ⟨2, 0⟩ = ⟨8, 0⟩ := by
    rw [ForceLaw.ofVector_eq_iff]
    simp [alongAxis]
    norm_num
  have hg : ¬ alongAxis.bearing.law.Guarded .realFirst 2 := by
    simp only [ForceLaw.Guarded, alongAxis, Quartic.zeroTolerance_eq]
    norm_num
  obtain ⟨k, hk, hclose⟩ := ForceLaw.candidatesFrom_covers hc (by norm_num [alongAxis]) (by norm_num [alongAxis]) hexact
    (List.mem_singleton_self _) hg
  have hn : ‖(⟨2, 0⟩ : Cx ℝ).toComplex‖ = 2 := by
    show ‖((2 : ℝ) : ℂ)‖ = 2
    simp
  have hle := ForceLaw.norm_le_of_close hclose
  rw [hn] at hle
  exact ⟨k, hk, by rw [Cx.norm_eq]; linarith⟩

theorem controlCurrents_sound_along_axis : 0 < alongAxis.bearing.ampsPerUnit ∧
    ∃ (i : Poles ℝ) (s : SpaceVector ℝ), alongAxis.controlCurrents 0 8 .amps true = .ok i ∧
      i = s.toPoles.scale alongAxis.bearing.ampsPerUnit ∧ i.p1 + i.p2 + i.p3 = 0 ∧ s.norm ≤ 12 / 5 := by
  have hk : 0 < alongAxis.bearing.ampsPerUnit := one_pos
  obtain ⟨sols, hs, k, hmem, hnorm⟩ := alongAxis_solve
  obtain ⟨hok, hnone, herr⟩ := controlCurrents_sound alongAxis hk 0 8 true
  refine ⟨hk, ?_⟩
  cases h : alongAxis.controlCurrents 0 8 .amps true with
  | error e =>
    by_cases he : ∃ d m, e = .noFeasibleSolution d m
    · obtain ⟨d, m, rfl⟩ := he
      obtain ⟨-, -, sols', hs', hno⟩ := (hnone d m).mp h
      rw [hs] at hs'
      cases hs'
      exact absurd (fun _ => rfl) (hno k hmem)
    · have := (herr e fun d m hdm => he ⟨d, m, hdm⟩).mp h
      rw [hs] at this
      cases this
  | ok i =>
    obtain ⟨sols', hs', s, -, hi, hsum, -, -, hmin⟩ := hok i h
    rw [hs] at hs'
    cases hs'
    exact ⟨i, s, rfl, hi, hsum, le_trans (hmin k hmem fun _ => rfl).1 hnorm⟩

end MagneticBearing.Allocator
