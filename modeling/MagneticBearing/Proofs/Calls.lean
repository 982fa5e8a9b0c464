/-
  MagneticBearing.Proofs.Calls — how often a search calls its objective, and what a failed call does.

  The objective may keep a state, fail, and answer two calls at one point differently. The calls made of it
  are what an objective that writes them down has written at the end (`calls`); writing down changes neither
  the answer nor the state (`run_recorded`).

  A bound on the calls is a fact about the question tree (`AsksAtMost`): a round asks once, so a search that
  goes round by round asks no more often than it has rounds (`asksAtMost_iterate`), whatever it is told.

  - `calls_bounded`: the three searches call at most 102 times, twice more than the rounds allowed, and 500
    times. A failed call is the last one and its error is what the search ends with; no other search ends
    with an objective's error.
-/

import MagneticBearing.Proofs.Brent
import MagneticBearing.Proofs.Minimize
import MagneticBearing.Proofs.Secant
import MagneticBearing.Scalar.Running

namespace MagneticBearing.Search

variable {K ε σ : Type}

/-! ## Calls -/

/-- The objective, with each call and what it answers written down. -/
def recorded (objective : K → σ → Except ε K × σ) (x : K) (s : σ × List (K × Except ε K)) :
    Except ε K × σ × List (K × Except ε K) :=
  ((objective x s.1).1, (objective x s.1).2, s.2 ++ [(x, (objective x s.1).1)])

/-- The calls that a search makes, in order, each with what it answers. -/
def calls (objective : K → σ → Except ε K × σ) (search : Search K) (s : σ) : List (K × Except ε K) :=
  (search.run (recorded objective) (s, [])).2.2

variable {objective : K → σ → Except ε K × σ} {search : Search K} {s : σ} {x : K} {next : K → Search K} {e : ε}
  {k n : Nat}

/-- Writing the calls down changes nothing else, and calls made before make no difference. -/
theorem run_recorded (objective : K → σ → Except ε K × σ) (search : Search K) (s : σ)
    (before : List (K × Except ε K)) : search.run (recorded objective) (s, before) =
      ((search.run objective s).1, (search.run objective s).2, before ++ search.calls objective s) := by
  induction search generalizing s before with
  | found x => simp [run, calls]
  | notBracketed lower upper => simp [run, calls]
  | noConvergence n => simp [run, calls]
  | ask x next ih =>
    unfold calls
    simp only [run, recorded]
    cases objective x s with
    | mk answer t =>
      cases answer with
      | error e => simp
      | ok y =>
        simp only
        rw [ih y, ih y]
        simp

theorem calls_ask (objective : K → σ → Except ε K × σ) (x : K) (next : K → Search K) (s : σ) :
    (ask x next).calls objective s = (x, (objective x s).1) ::
      match objective x s with
      | (.ok y, t) => (next y).calls objective t
      | (.error _, _) => [] := by
  rw [calls]
  simp only [run, recorded]
  cases objective x s with
  | mk answer t =>
    cases answer with
    | error e => rfl
    | ok y =>
      simp only
      rw [run_recorded]
      rfl

/-- An objective without a state is called at the points of the trace. -/
theorem calls_eq_trace (f : K → Except ε K) (search : Search K) (s : σ) :
    search.calls (fun x s => (f x, s)) s = (search.trace f).2.map fun x => (x, f x) := by
  induction search generalizing s with
  | found x => rfl
  | notBracketed lower upper => rfl
  | noConvergence n => rfl
  | ask x next ih =>
    rw [calls_ask, trace_ask]
    cases hx : f x with
    | error e => simp [hx]
    | ok y => simp [hx, ih y s]

/-! ## A failed call -/

/-- A failed call is the last one, and its error is the search's. -/
theorem run_of_failed_call (h : (search.calls objective s)[k]? = some (x, .error e)) :
    (search.calls objective s).length = k + 1 ∧ (search.run objective s).1 = .error (.objective e) := by
  induction search generalizing s k with
  | found x => cases h
  | notBracketed lower upper => cases h
  | noConvergence n => cases h
  | ask p next ih =>
    rw [calls_ask] at h ⊢
    rw [run]
    cases hp : objective p s with
    | mk answer t =>
      rw [hp] at h
      cases answer with
      | error e' =>
        cases k with
        | zero =>
          cases h
          exact ⟨rfl, rfl⟩
        | succ k => cases h
      | ok y =>
        cases k with
        | zero => cases h
        | succ k =>
          obtain ⟨hlength, hrun⟩ := ih y h
          exact ⟨congrArg Nat.succ hlength, hrun⟩

/-- A search ends with an objective's error only if the last call failed with it. -/
theorem failed_call_of_run (h : (search.run objective s).1 = .error (.objective e)) :
    ∃ x, (search.calls objective s).getLast? = some (x, .error e) := by
  induction search generalizing s with
  | found x => cases h
  | notBracketed lower upper => cases h
  | noConvergence n => cases h
  | ask p next ih =>
    rw [run] at h
    rw [calls_ask]
    cases hp : objective p s with
    | mk answer t =>
      rw [hp] at h
      cases answer with
      | error e' =>
        cases h
        exact ⟨p, rfl⟩
      | ok y =>
        obtain ⟨x, hx⟩ := ih y h
        exact ⟨x, (List.getLast?_cons.trans (by rw [hx]; rfl))⟩

/-! ## Bounds -/

/-- At most `n` points are asked for, whatever is answered. -/
inductive AsksAtMost : Nat → Search K → Prop
  | found {n : Nat} {x : K} : AsksAtMost n (.found x)
  | notBracketed {n : Nat} {lower upper : K} : AsksAtMost n (.notBracketed lower upper)
  | noConvergence {n k : Nat} : AsksAtMost n (.noConvergence k)
  | ask {n : Nat} {x : K} {next : K → Search K} : (∀ y, AsksAtMost n (next y)) → AsksAtMost (n + 1) (.ask x next)

theorem AsksAtMost.calls_length_le (h : AsksAtMost n search) (objective : K → σ → Except ε K × σ) (s : σ) :
    (search.calls objective s).length ≤ n := by
  induction h generalizing s with
  | found => exact Nat.zero_le _
  | notBracketed => exact Nat.zero_le _
  | noConvergence => exact Nat.zero_le _
  | @ask n x next _ ih =>
    rw [calls_ask]
    cases objective x s with
    | mk answer t =>
      cases answer with
      | error e => exact Nat.succ_le_succ (Nat.zero_le n)
      | ok y => exact Nat.succ_le_succ (ih y t)

/-- Each round asks once. -/
theorem asksAtMost_iterate {τ : Type} (round : τ → Round K τ) (limit n : Nat) (t : τ) :
    AsksAtMost n (iterate round limit n t) := by
  induction n generalizing t with
  | zero => exact .noConvergence
  | succ n ih =>
    rw [iterate]
    cases round t with
    | found x => exact .found
    | noConvergence k => exact .noConvergence
    | ask x next => exact .ask fun y => ih (next y)

/-- Both ends, and the rounds between them. -/
theorem asksAtMost_brent [Arith K] (a b : K) : AsksAtMost (Brent.rounds + 2) (brent a b) := by
  refine .ask fun fa => .ask fun fb => ?_
  split
  · exact .found
  split
  · exact .found
  split
  · exact .notBracketed
  · rw [Brent.loop_eq_iterate]
    exact asksAtMost_iterate _ _ _ _

/-- The two points of the first chord, and the rounds. -/
theorem asksAtMost_secant [Arith K] (x0 : K) (limit : Nat) : AsksAtMost (limit + 2) (secant x0 limit) := by
  rw [Secant.secant_eq]
  exact .ask fun _ => .ask fun _ => asksAtMost_iterate _ _ _ _

/-- The first point counts. -/
theorem asksAtMost_minimize [Scalar K] (lower upper : K) : AsksAtMost Minimize.budget (minimize lower upper) := by
  rw [Minimize.minimize_eq]
  exact .ask fun _ => asksAtMost_iterate _ _ _ _

/-- Whatever the objective and its state: the search between two ends makes at most 102 calls, the one by chords two
more than its rounds, the one for the least value 500. A failed call is the last one, and the search ends with its
error; no search ends with an objective's error unless its last call failed with it. -/
theorem calls_bounded [Scalar K] (objective : K → σ → Except ε K × σ) (s : σ) :
    (∀ a b, ((brent a b).calls objective s).length ≤ 102) ∧
      (∀ x0 limit, ((secant x0 limit).calls objective s).length ≤ limit + 2) ∧
      (∀ lower upper, ((minimize lower upper).calls objective s).length ≤ 500) ∧
      ∀ search : Search K,
        (∀ k x e, (search.calls objective s)[k]? = some (x, .error e) →
          (search.calls objective s).length = k + 1 ∧ (search.run objective s).1 = .error (.objective e)) ∧
        ∀ e, (search.run objective s).1 = .error (.objective e) →
          ∃ x, (search.calls objective s).getLast? = some (x, .error e) :=
  ⟨fun a b => (asksAtMost_brent a b).calls_length_le objective s,
    fun x0 limit => (asksAtMost_secant x0 limit).calls_length_le objective s,
    fun lower upper => (asksAtMost_minimize lower upper).calls_length_le objective s,
    fun _ => ⟨fun _ _ _ h => run_of_failed_call h, fun _ h => failed_call_of_run h⟩⟩

/-- An objective that counts its calls and fails at the third. -/
def failsThird (x : Float) (count : Nat) : Except String Float × Nat :=
  (if count = 2 then .error "third" else .ok (x - 1.0), count + 1)

/-- The search between 0 and 4 calls at both ends and once more. -/
theorem calls_bounded_third : ((brent 0.0 4.0).calls failsThird 0).length = 3 ∧
    ((brent 0.0 4.0).run failsThird 0).1 = .error (.objective "third") := by
  obtain ⟨-, -, -, hsearch⟩ := calls_bounded failsThird 0
  have hthird : ((brent 0.0 4.0).calls failsThird 0)[2]?.map Prod.snd = some (.error "third") := by decide +kernel
  obtain ⟨⟨x, _⟩, hx, rfl⟩ := Option.map_eq_some_iff.mp hthird
  exact (hsearch _).1 2 x "third" hx

end MagneticBearing.Search
