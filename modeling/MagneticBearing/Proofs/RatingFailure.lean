/-
  MagneticBearing.Proofs.RatingFailure — how a rating fails.

  Whatever goes wrong underneath, a rating is refused with `ratingSearchFailed` only. The residual never
  fails with that (`residual_ne_ratingSearchFailed`), so the failures of a direction are wrapped just once,
  with that direction and with the number of rounds or of residuals asked for (`maxForce_error`). The search
  of the sector asks for the largest force in a direction; that failure is the search's own, since the
  direction that failed is the last one asked for.

  - `rating_error`: how the three ratings fail on doubles, whatever the bearing, the root finder and the
    direction. A direction that is not finite is refused after one residual (`maxForce_of_not_finite`); the
    last direction of the sector search lies strictly inside the sector.
-/

import MagneticBearing.Bearing.Physical
import MagneticBearing.Proofs.Calls
import MagneticBearing.Proofs.SectorSearch
import MagneticBearing.Quartic.ClosedForm

namespace MagneticBearing

namespace Search

variable {K ε : Type} {f : K → Except ε K} {search : Search K} {n k : Nat}

/-- If the search gives up it reports `n`, and it does not ask for a bracket. -/
inductive Reports (n : Nat) : Search K → Prop
  | found {x : K} : Reports n (.found x)
  | noConvergence : Reports n (.noConvergence n)
  | ask {x : K} {next : K → Search K} : (∀ y, Reports n (next y)) → Reports n (.ask x next)

/-- Such a search fails by giving up, or at the last point asked for. -/
theorem Reports.error {failure : SearchFailure K ε} (h : Reports n search) (hf : (search.trace f).1 = .error failure) :
    failure = .noConvergence n ∨
      ∃ x e, failure = .objective e ∧ f x = .error e ∧ (search.trace f).2.getLast? = some x := by
  induction h with
  | found => cases hf
  | noConvergence =>
    cases hf
    exact .inl rfl
  | @ask p next _ ih =>
    rw [trace_ask] at hf ⊢
    cases hp : f p with
    | error e =>
      rw [hp] at hf
      cases hf
      exact .inr ⟨p, e, rfl, hp, rfl⟩
    | ok y =>
      rw [hp] at hf
      refine (ih y hf).imp_right ?_
      rintro ⟨x, e, he, hx, hlast⟩
      exact ⟨x, e, he, hx, List.getLast?_cons.trans (by rw [hlast]; rfl)⟩

theorem reports_iterate {τ : Type} {round : τ → Round K τ} {limit : Nat}
    (h : ∀ t k, round t = .noConvergence k → k = limit) (t : τ) : Reports limit (iterate round limit n t) := by
  induction n generalizing t with
  | zero => exact .noConvergence
  | succ n ih =>
    rw [iterate]
    cases ht : round t with
    | found x => exact .found
    | noConvergence k =>
      cases h t k ht
      exact .noConvergence
    | ask x next => exact .ask fun y => ih (next y)

theorem reports_secant [Arith K] (x0 : K) (limit : Nat) : Reports limit (secant x0 limit) := by
  rw [Secant.secant_eq]
  refine .ask fun _ => .ask fun _ => reports_iterate (fun t k ht => ?_) _
  unfold Secant.round at ht
  split at ht
  · split at ht <;> cases ht
    rfl
  split at ht
  · cases ht
    rfl
  · split at ht <;> cases ht

theorem reports_minimize [Scalar K] (lower upper : K) : Reports Minimize.budget (minimize lower upper) := by
  rw [Minimize.minimize_eq]
  refine .ask fun _ => reports_iterate (fun t k ht => ?_) _
  unfold Minimize.round at ht
  split at ht <;> cases ht

theorem AsksAtMost.trace_length_le (h : AsksAtMost n search) (f : K → Except ε K) : (search.trace f).2.length ≤ n := by
  have hcalls := h.calls_length_le (fun x (s : Unit) => (f x, s)) ()
  rwa [calls_eq_trace, List.length_map] at hcalls

theorem trace_ask_cons (f : K → Except ε K) (x : K) (next : K → Search K) :
    ∃ rest, ((ask x next).trace f).2 = x :: rest := by
  rw [trace_ask]
  cases f x with
  | error e => exact ⟨[], rfl⟩
  | ok y => exact ⟨_, rfl⟩

/-- An objective that counts its calls. -/
theorem run_counted (f : K → Except ε K) (search : Search K) :
    search.run (fun x n => (f x, n + 1)) 0 = ((search.trace f).1, (search.trace f).2.length) := by
  rw [run_eq_trace f fun _ n => n + 1, List.foldl_const, Nat.succ_iterate, Nat.zero_add]

end Search

section Numbers

variable {K : Type} [Scalar K] {direction magnitude : K} {e : AllocationError K}

theorem checkRequest_error (h : checkRequest direction magnitude = .error e) :
    ∃ p v, e = .invalidParameter p v := by
  unfold checkRequest at h
  split at h
  · cases h
    exact ⟨_, _, rfl⟩
  · split at h
    · cases h
      exact ⟨_, _, rfl⟩
    · cases h

namespace Allocator

variable {a : Allocator K}

/-- A request is refused, or the root finder fails. -/
theorem solve_failure (h : a.solve direction magnitude = .error e) :
    (∃ p v, e = .invalidParameter p v) ∨ ∃ c, e = .degenerateAuxiliary c := by
  have hwith {form : Formulation} {f : Cx K} {e : AllocationError K} (h : a.solveWith form f = .error e) :
      ∃ c, e = .degenerateAuxiliary c := by
    simp only [solveWith] at h
    split at h
    · cases h
      exact ⟨_, rfl⟩
    · cases h
  unfold solve at h
  cases hr : checkRequest direction magnitude with
  | error e' =>
    rw [hr] at h
    cases h
    exact .inl (checkRequest_error hr)
  | ok u =>
    simp only [hr, bind, Except.bind] at h
    split at h
    · cases h
    · split at h
      · rename_i hw
        cases h
        exact .inr (hwith hw)
      · rename_i found hw
        cases found with
        | some vectors => cases h
        | none =>
          simp only at h
          split at h
          · rename_i hw'
            cases h
            exact .inr (hwith hw')
          · cases h

end Allocator

namespace Rating

variable {r : Rating K}

/-- Whatever fails below a rating, it is not a rating. -/
theorem residual_ne_ratingSearchFailed (h : r.residual direction magnitude = .error e) (d : K) (n : Nat) :
    e ≠ .ratingSearchFailed d n := by
  rintro rfl
  unfold residual Allocator.candidates at h
  cases hs : r.allocator.solve direction magnitude with
  | error e =>
    simp only [hs, bind, Except.bind] at h
    cases h
    rcases Allocator.solve_failure hs with ⟨p, v, he⟩ | ⟨c, he⟩
    · cases he
    · cases he
  | ok sols =>
    simp only [hs, bind, Except.bind, pure, Except.pure] at h
    split at h <;> cases h

/-- A direction fails with its own failure, after 1 to 102 rounds or residuals. -/
theorem maxForce_error (h : r.maxForce direction = .error e) :
    ∃ n, e = .ratingSearchFailed direction n ∧ 1 ≤ n ∧ n ≤ 102 := by
  unfold maxForce at h
  simp only [Search.run_counted] at h
  split at h
  · cases h
  · cases hf : ((Search.secant chordSeed chordRounds).trace (r.residual direction)).1 with
    | ok m =>
      rw [hf] at h
      cases h
    | error failure =>
      rw [hf] at h
      cases h
      rcases (Search.reports_secant chordSeed chordRounds).error hf with rfl | ⟨x, e, rfl, he, hlast⟩
      · exact ⟨chordRounds, rfl, by decide, by decide⟩
      · have hasked := (Search.asksAtMost_secant chordSeed chordRounds).trace_length_le (r.residual direction)
        refine ⟨_, ?_, List.length_pos_of_mem (List.mem_of_getLast? hlast), hasked⟩
        cases e with
        | ratingSearchFailed d n => exact absurd rfl (residual_ne_ratingSearchFailed he d n)
        | noFeasibleSolution d m | degenerateAuxiliary c | invalidParameter p v => rfl

/-- A direction that is not finite is refused after one residual. -/
theorem maxForce_of_not_finite (h : Arith.finite direction = false) :
    r.maxForce direction = .error (.ratingSearchFailed direction 1) := by
  have hresidual (m : K) : r.residual direction m = .error (.invalidParameter .direction direction) := by
    have hrequest : checkRequest direction m = .error (.invalidParameter .direction direction) := by
      rw [checkRequest, h]
      rfl
    simp only [residual, Allocator.candidates, Allocator.solve, hrequest, bind, Except.bind]
  unfold maxForce
  simp only [Search.brent, Search.secant, Search.answer, Search.run, hresidual]
  rfl

/-- The search of the sector fails with the last direction that it asked for: it gave up, or that direction failed. -/
theorem weakestDirection_error (h : r.weakestDirection = .error e) :
    ∃ d n, ((Search.minimize sector.1 sector.2).trace r.maxForce).2.getLast? = some d ∧
      e = .ratingSearchFailed d n ∧ (n = 500 ∨ r.maxForce d = .error e) := by
  rw [Search.weakestDirection_trace] at h
  cases hf : ((Search.minimize sector.1 sector.2).trace r.maxForce).1 with
  | ok d =>
    rw [hf] at h
    cases h
  | error failure =>
    rw [hf] at h
    cases h
    rcases (Search.reports_minimize sector.1 sector.2).error hf with rfl | ⟨d, e, rfl, he, hlast⟩
    · obtain ⟨d, hlast⟩ : ∃ d, ((Search.minimize sector.1 sector.2).trace r.maxForce).2.getLast? = some d := by
        obtain ⟨rest, hpoints⟩ := Search.trace_ask_cons r.maxForce
          (Search.Minimize.first sector.1 sector.2)
          fun y => Search.iterate Search.Minimize.round Search.Minimize.budget (Search.Minimize.budget - 1)
            (Search.Minimize.start sector.1 sector.2 y)
        rw [Search.Minimize.minimize_eq, hpoints, List.getLast?_cons]
        exact ⟨_, rfl⟩
      rw [List.getLastD_eq_getLast?, hlast]
      exact ⟨d, _, rfl, rfl, .inl rfl⟩
    · obtain ⟨n, rfl, -⟩ := maxForce_error he
      exact ⟨d, n, hlast, rfl, .inr he⟩

end Rating

end Numbers

namespace Rating

/-- Whatever the bearing, the root finder and the direction: each rating has an answer or is a failed search. The
largest force in a direction fails with that direction, after 1 to 102 steps, and it does so at once where the
direction is not finite; the weakest direction fails with the last one that was asked for, strictly inside the
sector, for which the search gave up or the largest force failed. -/
theorem rating_error (r : Rating Float) :
    (∀ direction, ((∃ m, r.maxForce direction = .ok m) ∨
        ∃ n, r.maxForce direction = .error (.ratingSearchFailed direction n) ∧ 1 ≤ n ∧ n ≤ 102) ∧
      (Arith.finite direction = false → r.maxForce direction = .error (.ratingSearchFailed direction 1))) ∧
    ((∃ d, r.weakestDirection = .ok d) ∨
      ∃ d n, r.weakestDirection = .error (.ratingSearchFailed d n) ∧
        ((Search.minimize sector.1 sector.2).trace r.maxForce).2.getLast? = some d ∧ 0.0 < d ∧ d < 60.0 ∧
        (n = 500 ∨ r.maxForce d = .error (.ratingSearchFailed d n))) ∧
    ((∃ m, r.ratedForce = .ok m) ∨ ∃ d n, r.ratedForce = .error (.ratingSearchFailed d n)) := by
  have hmax (direction : Float) : (∃ m, r.maxForce direction = .ok m) ∨
      ∃ n, r.maxForce direction = .error (.ratingSearchFailed direction n) ∧ 1 ≤ n ∧ n ≤ 102 := by
    cases h : r.maxForce direction with
    | ok m => exact .inl ⟨m, rfl⟩
    | error e =>
      obtain ⟨n, rfl, hn⟩ := maxForce_error h
      exact .inr ⟨n, rfl, hn⟩
  refine ⟨fun direction => ⟨hmax direction, maxForce_of_not_finite⟩, ?_, ?_⟩
  · cases h : r.weakestDirection with
    | ok d => exact .inl ⟨d, rfl⟩
    | error e =>
      obtain ⟨d, n, hlast, rfl, hn⟩ := weakestDirection_error h
      obtain ⟨h0, h60⟩ := Search.Sector.trace_minimize_inside (List.mem_of_getLast? hlast)
      exact .inr ⟨d, n, rfl, hlast, h0, h60, hn⟩
  · unfold ratedForce
    cases h : r.weakestDirection with
    | error e =>
      obtain ⟨d, n, -, rfl, -⟩ := weakestDirection_error h
      exact .inr ⟨d, n, rfl⟩
    | ok d =>
      rcases hmax d with ⟨m, hm⟩ | ⟨n, hn, -⟩
      · exact .inl ⟨m, hm⟩
      · exact .inr ⟨d, n, hn⟩

/-- The prototype has no largest force in a direction that is infinite. -/
theorem rating_error_infinite :
    let r : Rating Float := ⟨(Geometry.prototype : Geometry Float).derive.bearing, Quartic.closedForm⟩
    Arith.finite (1.0 / 0.0 : Float) = false ∧
      r.maxForce (1.0 / 0.0) = .error (.ratingSearchFailed (1.0 / 0.0) 1) := by
  intro r
  have hinfinite : Arith.finite (1.0 / 0.0 : Float) = false := by decide +kernel
  exact ⟨hinfinite, ((rating_error r).1 _).2 hinfinite⟩

end Rating

end MagneticBearing
