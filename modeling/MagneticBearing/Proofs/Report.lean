/-
  MagneticBearing.Proofs.Report — the report and the currents select the same candidate.

  The report selects among positions, by the norm of the excitation; the currents are selected among
  scaled excitations, by their own norm. A positive scale keeps the order of the norms, so both
  selections are one (`leastNorm_offered`), and it stands at the position reported (`best_spec`).

  - `report_agrees_with_currents`: a report fails exactly as the solver does. Otherwise it lists the
    space vectors in order, and the candidate it selects is the one whose currents are answered.
-/

import MagneticBearing.Proofs.Currents
import MagneticBearing.Report

namespace MagneticBearing

section Report

variable {K : Type} [Scalar K]

/-- The selected candidate with its position. -/
def Report.best (candidates : List (CandidateReport K)) : Option (CandidateReport K × Nat) :=
  Scalar.leastBy (fun c => c.1.controlNorm) (candidates.zipIdx.filter fun c => !c.1.saturated)

theorem Report.select_eq (candidates : List (CandidateReport K)) :
    Report.select candidates = (Report.best candidates).map (·.2) := rfl

theorem Report.best_spec {candidates : List (CandidateReport K)} {c : CandidateReport K} {i : Nat}
    (h : Report.best candidates = some (c, i)) : candidates[i]? = some c ∧ c.saturated = false := by
  obtain ⟨hm, hs⟩ := List.mem_filter.mp (Scalar.leastBy_mem h)
  exact ⟨List.mem_zipIdx_iff_getElem?.mp hm, by simpa using hs⟩

/-- Filtering the numbered entries is filtering the entries. -/
theorem map_filter_zipIdx {α β : Type} (p : α → Bool) (f : α → β) (l : List α) :
    (l.zipIdx.filter fun c => p c.1).map (fun c => f c.1) = (l.filter p).map f := by
  have h : (l.zipIdx.filter (p ∘ Prod.fst)).map Prod.fst = l.filter p := by
    rw [← List.filter_map, List.zipIdx_map_fst]
  rw [← h, List.map_map]
  rfl

theorem Allocator.report_eq (a : Allocator K) (direction magnitude : K) :
    a.report direction magnitude =
      match a.solve direction magnitude with
      | .error e => .error e
      | .ok sols =>
        .ok ⟨Force.inDirection direction magnitude, sols.formulation, sols.vectors.map a.candidateReport,
          Report.select (sols.vectors.map a.candidateReport)⟩ := by
  unfold report
  cases a.solve direction magnitude <;> rfl

end Report

namespace Allocator

variable {a : Allocator ℝ}

theorem offered_eq (a : Allocator ℝ) (vectors : List (SpaceVector ℝ)) : a.offered true vectors =
    ((vectors.map a.candidateReport).zipIdx.filter fun c => !c.1.saturated).map
      fun c => c.1.control.scale a.bearing.ampsPerUnit := by
  rw [map_filter_zipIdx (fun c : CandidateReport ℝ => !c.saturated) fun c => c.control.scale a.bearing.ampsPerUnit,
    List.filter_map, List.map_map, offered, List.filter_map, List.map_map]
  rfl

/-- The currents are selected among scaled excitations, and the scale does not change the order. -/
theorem leastNorm_offered (hk : 0 < a.bearing.ampsPerUnit) (vectors : List (SpaceVector ℝ)) :
    leastNorm (a.offered true vectors) =
      (Report.best (vectors.map a.candidateReport)).map fun c => c.1.control.scale a.bearing.ampsPerUnit := by
  rw [offered_eq, leastNorm, Scalar.leastBy_map, Report.best]
  congr 1
  refine Scalar.leastBy_congr (fun x y => ?_) _
  rw [Poles.scale_norm _ hk.le, Poles.scale_norm _ hk.le]
  exact decide_eq_decide.mpr (mul_le_mul_iff_right₀ hk)

theorem controlCurrents_best (hk : 0 < a.bearing.ampsPerUnit) {direction magnitude : ℝ} {sols : Solutions ℝ}
    (hs : a.solve direction magnitude = .ok sols) :
    a.controlCurrents direction magnitude .amps true =
      match Report.best (sols.vectors.map a.candidateReport) with
      | none => .error (.noFeasibleSolution direction magnitude)
      | some (c, _) => .ok (c.control.scale a.bearing.ampsPerUnit) := by
  rw [controlCurrents_eq, hs]
  simp only [leastNorm_offered hk]
  cases Report.best (sols.vectors.map a.candidateReport) <;> rfl

/-- The report lists the space vectors of the solver, and selects the candidate whose currents are
answered. -/
theorem report_agrees_with_currents (a : Allocator ℝ) (hk : 0 < a.bearing.ampsPerUnit) (direction magnitude : ℝ) :
    (∀ e, a.report direction magnitude = .error e ↔ a.solve direction magnitude = .error e) ∧
    ∀ sols, a.solve direction magnitude = .ok sols → ∃ rep, a.report direction magnitude = .ok rep ∧
      rep.candidates.map (·.vector) = sols.vectors ∧
      (∀ c ∈ rep.candidates, c.control = c.vector.toPoles ∧ c.totalField = c.control.addEach a.bearing.bias ∧
        c.saturated = a.bearing.saturated c.control) ∧
      (rep.selected = none ↔
        a.controlCurrents direction magnitude .amps true = .error (.noFeasibleSolution direction magnitude)) ∧
      ∀ i, rep.selected = some i → ∃ hi : i < rep.candidates.length, rep.candidates[i].saturated = false ∧
        a.controlCurrents direction magnitude .amps true =
          .ok (rep.candidates[i].control.scale a.bearing.ampsPerUnit) := by
  constructor
  · intro e
    rw [report_eq]
    cases a.solve direction magnitude with
    | error e' => simp
    | ok sols => simp
  intro sols hs
  have hreport := report_eq a direction magnitude
  rw [hs] at hreport
  refine ⟨_, hreport, ?_, ?_, ?_, ?_⟩
  · rw [List.map_map]
    exact List.map_id _
  · intro c hc
    obtain ⟨s, -, rfl⟩ := List.mem_map.mp hc
    exact ⟨rfl, rfl, rfl⟩
  · rw [controlCurrents_best hk hs, Report.select_eq, Option.map_eq_none_iff]
    cases Report.best (sols.vectors.map a.candidateReport) with
    | none => simp
    | some c => simp
  · intro i hi
    rw [Report.select_eq] at hi
    obtain ⟨⟨c, j⟩, hbest, rfl⟩ := Option.map_eq_some_iff.mp hi
    obtain ⟨hget, hsat⟩ := Report.best_spec hbest
    obtain ⟨hlt, hc⟩ := List.getElem?_eq_some_iff.mp hget
    refine ⟨hlt, ?_, ?_⟩
    · rw [hc]
      exact hsat
    · rw [controlCurrents_best hk hs, hbest, hc]

/-- Along the axis a candidate is selected, and it is the one whose currents are answered. -/
theorem report_agrees_with_currents_along_axis : 0 < alongAxis.bearing.ampsPerUnit ∧
    ∃ rep i, alongAxis.report 0 8 = .ok rep ∧ rep.selected = some i ∧ ∃ hi : i < rep.candidates.length,
      rep.candidates[i].saturated = false ∧
      alongAxis.controlCurrents 0 8 .amps true = .ok (rep.candidates[i].control.scale alongAxis.bearing.ampsPerUnit) := by
  have hk : 0 < alongAxis.bearing.ampsPerUnit := one_pos
  obtain ⟨sols, hs, k, hmem, -⟩ := alongAxis_solve
  obtain ⟨rep, hrep, -, -, hnone, hsome⟩ := (report_agrees_with_currents alongAxis hk 0 8).2 sols hs
  cases hsel : rep.selected with
  | none =>
    rcases controlCurrents_error.mp (hnone.mp hsel) with h | ⟨-, sols', hs', hno⟩
    · rw [hs] at h
      cases h
    · rw [hs] at hs'
      cases hs'
      exact absurd (fun _ => rfl) (hno k hmem)
  | some i =>
    obtain ⟨hi, hsat, hok⟩ := hsome i hsel
    exact ⟨hk, rep, i, hrep, hsel, hi, hsat, hok⟩

end Allocator

end MagneticBearing
