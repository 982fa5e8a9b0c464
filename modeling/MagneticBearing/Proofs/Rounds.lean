/-
  MagneticBearing.Proofs.Rounds — searches that go round by round.

  A round either settles the search or asks for one point and goes on from a state that the value there
  leads to (`Round`, `iterate`). `Reached` is a state that rounds come to on an objective, with the points
  asked for on the way; what every round keeps holds of every such state (`Reached.keeps`).

  - `trace_iterate`: how a search ends, and in which state.
  - `mem_trace_iterate`, `found_of_iterate`: each point asked for is one that a reached state asks for, and
    an answer is one that a reached state gives.
  - `run_eq_trace`, `run_counting`: an objective that keeps a state is asked for the points of the trace.
-/

import MagneticBearing.Search

namespace MagneticBearing.Search

variable {K ε σ τ : Type} {f : K → Except ε K}

/-! ## Traces -/

@[simp] theorem trace_found (f : K → Except ε K) (x : K) : (found x).trace f = (.ok x, []) := rfl

@[simp] theorem trace_notBracketed (f : K → Except ε K) (lower upper : K) :
    (notBracketed lower upper).trace f = (.error (.notBracketed lower upper), []) := rfl

@[simp] theorem trace_noConvergence (f : K → Except ε K) (n : Nat) :
    (noConvergence n : Search K).trace f = (.error (.noConvergence n), []) := rfl

/-- Points asked for before make no difference. -/
theorem run_seen (f : K → Except ε K) (search : Search K) (seen : List K) :
    search.run (fun x seen => (f x, seen ++ [x])) seen = ((search.trace f).1, seen ++ (search.trace f).2) := by
  induction search generalizing seen with
  | found x => simp [run]
  | notBracketed lower upper => simp [run]
  | noConvergence n => simp [run]
  | ask x next ih =>
    unfold trace
    simp only [run]
    cases f x with
    | error e => simp
    | ok y =>
      simp only
      rw [ih y, ih y]
      simp

@[simp] theorem trace_ask (f : K → Except ε K) (x : K) (next : K → Search K) : (ask x next).trace f =
    match f x with
    | .ok y => (((next y).trace f).1, x :: ((next y).trace f).2)
    | .error e => (.error (.objective e), [x]) := by
  show (ask x next).run (fun x seen => (f x, seen ++ [x])) [] = _
  rw [run]
  cases f x with
  | error e => rfl
  | ok y =>
    show (next y).run (fun x seen => (f x, seen ++ [x])) [x] = _
    rw [run_seen]
    rfl

theorem run_eq_trace (f : K → Except ε K) (note : K → σ → σ) (search : Search K) (s : σ) :
    search.run (fun x s => (f x, note x s)) s =
      ((search.trace f).1, (search.trace f).2.foldl (fun s x => note x s) s) := by
  induction search generalizing s with
  | found x => rfl
  | notBracketed lower upper => rfl
  | noConvergence n => rfl
  | ask x next ih =>
    rw [run, trace_ask]
    cases f x with
    | error e => rfl
    | ok y => exact ih y (note x s)

theorem answer_eq_trace (f : K → Except ε K) (search : Search K) : search.answer f = (search.trace f).1 := by
  unfold answer
  rw [run_eq_trace f (fun _ s => s)]

theorem foldl_counting (x : K) (n : Nat) (points : List K) :
    points.foldl (fun s x => (x, s.2 + 1)) (x, n) = (points.getLastD x, n + points.length) := by
  induction points generalizing x n with
  | nil => rfl
  | cons y points ih =>
    rw [List.foldl_cons, ih, List.getLastD_cons, List.length_cons, Nat.add_assoc, Nat.add_comm 1]

/-- An objective that keeps its last point and counts its calls. -/
theorem run_counting (f : K → Except ε K) (search : Search K) (x : K) :
    search.run (fun x s => (f x, x, s.2 + 1)) (x, 0) =
      ((search.trace f).1, (search.trace f).2.getLastD x, (search.trace f).2.length) := by
  rw [run_eq_trace f fun x s => (x, s.2 + 1), foldl_counting, Nat.zero_add]

/-! ## Rounds -/

/-- What a round comes to: an answer, giving up, or a point to ask for and where its value leads. -/
inductive Round (K σ : Type) where
  | found (x : K)
  | noConvergence (iterations : Nat)
  | ask (x : K) (next : K → σ)

/-- At most `n` rounds; when they are used up, `limit` is reported. -/
def iterate (round : σ → Round K σ) (limit : Nat) : Nat → σ → Search K
  | 0, _ => .noConvergence limit
  | n + 1, s =>
    match round s with
    | .found x => .found x
    | .noConvergence k => .noConvergence k
    | .ask x next => .ask x fun y => iterate round limit n (next y)

theorem iterate_of_found {round : σ → Round K σ} {limit n : Nat} {s : σ} {x : K} (h : round s = .found x) :
    iterate round limit (n + 1) s = .found x := by
  rw [iterate, h]

theorem iterate_of_ask {round : σ → Round K σ} {limit n : Nat} {s : σ} {x : K} {next : K → σ}
    (h : round s = .ask x next) :
    iterate round limit (n + 1) s = .ask x fun y => iterate round limit n (next y) := by
  rw [iterate, h]

/-- The rounds from `s` ask for these points of `f`, in this order, and come to a state. -/
inductive Reached (round : σ → Round K σ) (f : K → Except ε K) (s : σ) : List K → σ → Prop
  | start : Reached round f s [] s
  | ask {points : List K} {t : σ} {x : K} {next : K → σ} {y : K} : Reached round f s points t →
      round t = .ask x next → f x = .ok y → Reached round f s (points ++ [x]) (next y)

variable {round : σ → Round K σ} {limit n : Nat} {s t : σ} {points : List K} {x y : K} {next : K → σ}

theorem Reached.cons (hs : round s = .ask x next) (hx : f x = .ok y) (h : Reached round f (next y) points t) :
    Reached round f s (x :: points) t := by
  induction h with
  | start => exact Reached.ask .start hs hx
  | ask _ hr hy ih => exact Reached.ask ih hr hy

/-- What every round keeps, as points are added to those asked for before, every reached state has. -/
theorem Reached.keeps {P : List K → σ → Prop} {before asked : List K} (h : Reached round f s asked t)
    (hstart : P before s)
    (hround : ∀ points t x next y, P points t → round t = .ask x next → f x = .ok y → P (points ++ [x]) (next y)) :
    P (before ++ asked) t := by
  induction h with
  | start => rwa [List.append_nil]
  | ask _ hr hy ih =>
    rw [← List.append_assoc]
    exact hround _ _ _ _ _ ih hr hy

/-- Each point was asked for in a state reached before. -/
theorem Reached.asked (h : Reached round f s points t) (hx : x ∈ points) :
    ∃ before u next, Reached round f s before u ∧ round u = .ask x next := by
  induction h with
  | start => cases hx
  | ask h hr _ ih =>
    rcases List.mem_append.mp hx with hx | hx
    · exact ih hx
    · cases List.mem_singleton.mp hx
      exact ⟨_, _, _, h, hr⟩

/-- How a search ends in a state that `points` lead to: its answer, and all that it asked for. -/
inductive Ends (round : σ → Round K σ) (f : K → Except ε K) (limit : Nat) (t : σ) :
    List K → Except (SearchFailure K ε) K → List K → Prop
  | found {points : List K} {x : K} : round t = .found x → Ends round f limit t points (.ok x) points
  | gaveUp {points : List K} {k : Nat} : round t = .noConvergence k →
      Ends round f limit t points (.error (.noConvergence k)) points
  | usedUp {points : List K} : Ends round f limit t points (.error (.noConvergence limit)) points
  | failed {points : List K} {x : K} {next : K → σ} {e : ε} : round t = .ask x next → f x = .error e →
      Ends round f limit t points (.error (.objective e)) (points ++ [x])

theorem Ends.cons {asked : List K} {r : Except (SearchFailure K ε) K} (h : Ends round f limit t points r asked)
    (x : K) : Ends round f limit t (x :: points) r (x :: asked) := by
  cases h with
  | found ht => exact .found ht
  | gaveUp ht => exact .gaveUp ht
  | usedUp => exact .usedUp
  | failed ht he => exact .failed ht he

theorem trace_iterate (round : σ → Round K σ) (f : K → Except ε K) (limit n : Nat) (s : σ) :
    ∃ points t, Reached round f s points t ∧
      Ends round f limit t points ((iterate round limit n s).trace f).1 ((iterate round limit n s).trace f).2 := by
  induction n generalizing s with
  | zero => exact ⟨[], s, .start, .usedUp⟩
  | succ n ih =>
    rw [iterate]
    cases hs : round s with
    | found x => exact ⟨[], s, .start, .found hs⟩
    | noConvergence k => exact ⟨[], s, .start, .gaveUp hs⟩
    | ask x next =>
      simp only [trace_ask]
      cases hx : f x with
      | error e => exact ⟨[], s, .start, .failed hs hx⟩
      | ok y =>
        obtain ⟨points, t, hr, he⟩ := ih (next y)
        exact ⟨x :: points, t, hr.cons hs hx, he.cons x⟩

theorem mem_trace_iterate (h : x ∈ ((iterate round limit n s).trace f).2) :
    ∃ points t next, Reached round f s points t ∧ round t = .ask x next := by
  obtain ⟨points, t, hr, he⟩ := trace_iterate round f limit n s
  generalize ((iterate round limit n s).trace f).1 = r at he
  generalize ((iterate round limit n s).trace f).2 = asked at h he
  cases he with
  | found _ => exact hr.asked h
  | gaveUp _ => exact hr.asked h
  | usedUp => exact hr.asked h
  | failed ht _ =>
    rcases List.mem_append.mp h with h | h
    · exact hr.asked h
    · cases List.mem_singleton.mp h
      exact ⟨points, t, _, hr, ht⟩

/-- An answer is given in a state that all points asked for lead to. -/
theorem found_of_iterate (h : ((iterate round limit n s).trace f).1 = .ok x) :
    ∃ t, Reached round f s ((iterate round limit n s).trace f).2 t ∧ round t = .found x := by
  obtain ⟨points, t, hr, he⟩ := trace_iterate round f limit n s
  rw [h] at he
  generalize ((iterate round limit n s).trace f).2 = asked at he ⊢
  cases he with
  | found ht => exact ⟨t, hr, ht⟩

/-- Rounds do not ask for a bracket. -/
theorem iterate_ne_notBracketed (lower upper : K) :
    ((iterate round limit n s).trace f).1 ≠ .error (.notBracketed lower upper) := by
  obtain ⟨points, t, -, he⟩ := trace_iterate round f limit n s
  intro h
  rw [h] at he
  cases he

end MagneticBearing.Search
