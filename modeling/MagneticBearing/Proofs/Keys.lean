/-
  MagneticBearing.Proofs.Keys — what keys do to a queue and to whoever runs its entries.

  Every key moves the position first, if it moves it at all, and is held to the list afterwards. On a queue
  whose position is inside it that comes to a few turns (`Turn`), each with the calls that it makes: running an
  entry makes one, with the entry and the position as they were before the key, quitting makes one, and no
  other key makes any. An executor is free to keep a state and to refuse entries, so its calls are counted by
  an executor that only adds them to its state (`Executor.recorded`).

  - `press_turn`: a key is a turn, and its calls are what the executor is asked.
  - `run_inside`, `run_recorded`: where any keys leave the queue, and that recording does not show.
  - `keys_take_turns`: the two over every sequence of keys; successful runs take the entries in order.
-/

import Mathlib.Data.List.Induction
import MagneticBearing.Bench.Queue

namespace MagneticBearing.Bench

variable {K ε σ : Type}

/-! ## Positions -/

namespace Queue

/-- The position is that of an entry, or the first if there are none. -/
def Inside (q : Queue K) : Prop := q.index ≤ q.entries.length - 1

variable {q : Queue K}

@[simp] theorem moveTo_index (q : Queue K) (index : Nat) :
    (q.moveTo index).index = min index (q.entries.length - 1) := rfl

theorem inside_ofList (entries : List (Entry K)) : (ofList entries).Inside := Nat.zero_le _

theorem Inside.moveTo_self (h : q.Inside) : q.moveTo q.index = q := by
  unfold moveTo
  rw [Nat.min_eq_left h]

theorem Inside.moveTo_back (h : q.Inside) : q.moveTo (q.index - 1) = { q with index := q.index - 1 } := by
  have hle : q.index ≤ q.entries.length - 1 := h
  unfold moveTo
  rw [Nat.min_eq_left (by omega)]

theorem Inside.index_lt (h : q.Inside) (hne : q.entries ≠ []) : q.index < q.entries.length := by
  have hle : q.index ≤ q.entries.length - 1 := h
  have hpos := List.length_pos_iff.mpr hne
  omega

theorem Inside.index_zero (h : q.Inside) (hnil : q.entries = []) : q.index = 0 := by
  have hle : q.index ≤ q.entries.length - 1 := h
  rw [hnil] at hle
  simpa using hle

/-- There is an entry to run unless there are none at all. -/
theorem Inside.current_eq_none_iff (h : q.Inside) : q.current? = none ↔ q.entries = [] := by
  have hle : q.index ≤ q.entries.length - 1 := h
  rw [current?, List.getElem?_eq_none_iff, ← List.length_eq_zero_iff]
  omega

end Queue

/-! ## Turns -/

/-- What an executor is asked. -/
inductive Call (K : Type) where
  | execute (entry : Entry K) (index : Nat)
  | quit
  deriving Repr

/-- The same executor, with what it was asked kept beside its state. -/
def Executor.recorded (ex : Executor K ε σ) : Executor K ε (List (Call K) × σ) where
  execute := fun entry index s =>
    let (r, t) := ex.execute entry index s.2
    (r, s.1 ++ [.execute entry index], t)
  quit := fun s => (s.1 ++ [.quit], ex.quit s.2)

/-- What a key does: the calls that it makes, its outcome, and the queue and the executor's state after it. -/
inductive Turn (ex : Executor K ε σ) (q : Queue K) (s : σ) : Key → List (Call K) → Outcome ε × Queue K × σ → Prop
  | help : Turn ex q s .help [] (.help, q, s)
  | other : Turn ex q s .other [] (.invalid, q, s)
  | next : Turn ex q s .next [] (.moved, { q with index := min (q.index + 1) (q.entries.length - 1) }, s)
  | previous : Turn ex q s .previous [] (.moved, { q with index := q.index - 1 }, s)
  | quit : Turn ex q s .quit [.quit] (.quit, q, ex.quit s)
  | nothing : q.entries = [] → Turn ex q s .execute [] (.nothingQueued, q, s)
  | executed (entry : Entry K) (t : σ) : q.entries[q.index]? = some entry →
      ex.execute entry q.index s = (.ok (), t) →
      Turn ex q s .execute [.execute entry q.index]
        (.executed, { q with index := min (q.index + 1) (q.entries.length - 1) }, t)
  | failed (entry : Entry K) (e : ε) (t : σ) : q.entries[q.index]? = some entry →
      ex.execute entry q.index s = (.error e, t) →
      Turn ex q s .execute [.execute entry q.index] (.failed e, q, t)

section Turns

variable {ex : Executor K ε σ} {q : Queue K} {s : σ} {key : Key} {calls : List (Call K)}

/-- No turn touches the entries or leaves the list. -/
theorem Turn.keeps {r : Outcome ε × Queue K × σ} (h : Turn ex q s key calls r) (hq : q.Inside) :
    r.2.1.entries = q.entries ∧ r.2.1.Inside := by
  cases h with
  | help | other | quit | nothing | failed => exact ⟨rfl, hq⟩
  | next | executed => exact ⟨rfl, Nat.min_le_right _ _⟩
  | previous => exact ⟨rfl, Nat.le_trans (Nat.sub_le _ _) hq⟩

/-- A run of an entry that succeeds takes the queue on. -/
theorem Turn.of_executed {q' : Queue K} {t : σ} (h : Turn ex q s key calls (.executed, q', t)) :
    ∃ entry, q.entries[q.index]? = some entry ∧ calls = [.execute entry q.index] ∧
      q'.index = min (q.index + 1) (q.entries.length - 1) := by
  cases h with
  | executed entry _ hc _ => exact ⟨entry, hc, rfl, rfl⟩

end Turns

namespace Queue

variable {q : Queue K}

/-- A key is a turn, and the calls of the turn are what the executor is asked. -/
theorem press_turn (h : q.Inside) (ex : Executor K ε σ) (key : Key) (s : σ) :
    ∃ calls, Turn ex q s key calls (q.press ex key s) ∧ ∀ earlier,
      q.press ex.recorded key (earlier, s) =
        ((q.press ex key s).1, (q.press ex key s).2.1, earlier ++ calls, (q.press ex key s).2.2) := by
  cases key with
  | help =>
    simp only [press, h.moveTo_self]
    exact ⟨[], .help, fun earlier => by simp⟩
  | other =>
    simp only [press, h.moveTo_self]
    exact ⟨[], .other, fun earlier => by simp⟩
  | next => exact ⟨[], .next, fun earlier => by simp [press]⟩
  | previous =>
    simp only [press, h.moveTo_back]
    exact ⟨[], .previous, fun earlier => by simp⟩
  | quit =>
    simp only [press, h.moveTo_self]
    exact ⟨[.quit], .quit, fun earlier => rfl⟩
  | execute =>
    simp only [press, h.moveTo_self]
    cases hc : q.current? with
    | none => exact ⟨[], .nothing (h.current_eq_none_iff.mp hc), fun earlier => by simp⟩
    | some entry =>
      simp only [Executor.recorded]
      rcases hrun : ex.execute entry q.index s with ⟨e | _, t⟩
      · exact ⟨[.execute entry q.index], .failed entry e t hc hrun, fun earlier => by simp only [hrun]⟩
      · exact ⟨[.execute entry q.index], .executed entry t hc hrun, fun earlier => by simp only [hrun]⟩

/-! ## Runs -/

theorem run_concat (q : Queue K) (ex : Executor K ε σ) (keys : List Key) (key : Key) (s : σ) :
    q.run ex (keys ++ [key]) s = ((q.run ex keys s).1.press ex key (q.run ex keys s).2).2 := by
  simp only [run, List.foldl_append, List.foldl_cons, List.foldl_nil]

/-- Whatever keys are pressed, the entries stay and the position is inside them. -/
theorem run_inside (h : q.Inside) (ex : Executor K ε σ) (keys : List Key) (s : σ) :
    (q.run ex keys s).1.entries = q.entries ∧ (q.run ex keys s).1.Inside := by
  induction keys using List.reverseRecOn with
  | nil => exact ⟨rfl, h⟩
  | append_singleton keys key ih =>
    obtain ⟨hentries, hinside⟩ := ih
    obtain ⟨calls, hturn, -⟩ := press_turn hinside ex key (q.run ex keys s).2
    obtain ⟨hsame, hinside'⟩ := hturn.keeps hinside
    rw [run_concat]
    exact ⟨hsame.trans hentries, hinside'⟩

/-- What the executor is asked while these keys are pressed. -/
def calls (q : Queue K) (ex : Executor K ε σ) (keys : List Key) (s : σ) : List (Call K) :=
  (q.run ex.recorded keys ([], s)).2.1

/-- Recording the calls does not show in the queue or in the executor's own state. -/
theorem run_recorded (h : q.Inside) (ex : Executor K ε σ) (keys : List Key) (s : σ) :
    q.run ex.recorded keys ([], s) = ((q.run ex keys s).1, q.calls ex keys s, (q.run ex keys s).2) := by
  induction keys using List.reverseRecOn with
  | nil => rfl
  | append_singleton keys key ih =>
    obtain ⟨-, hinside⟩ := run_inside h ex keys s
    obtain ⟨new, -, hrecorded⟩ := press_turn hinside ex key (q.run ex keys s).2
    unfold calls
    rw [run_concat, run_concat, ih, hrecorded]

/-- One more key is a turn of the queue where the keys before it left it, and its calls come after theirs. -/
theorem run_turn (h : q.Inside) (ex : Executor K ε σ) (keys : List Key) (key : Key) (s : σ) :
    ∃ new outcome, Turn ex (q.run ex keys s).1 (q.run ex keys s).2 key new (outcome, q.run ex (keys ++ [key]) s) ∧
      ((q.run ex keys s).1.press ex key (q.run ex keys s).2).1 = outcome ∧
      q.calls ex (keys ++ [key]) s = q.calls ex keys s ++ new := by
  obtain ⟨-, hinside⟩ := run_inside h ex keys s
  obtain ⟨new, hturn, hrecorded⟩ := press_turn hinside ex key (q.run ex keys s).2
  refine ⟨new, _, ?_, rfl, ?_⟩
  · rw [run_concat]
    exact hturn
  · show (q.run ex.recorded (keys ++ [key]) ([], s)).2.1 = _
    rw [run_concat, run_recorded h, hrecorded]

/-- Entries that are run one after the other are run in their order, as long as each succeeds. -/
theorem calls_in_order (entries : List (Entry K)) (ex : Executor K ε σ) (s : σ) {n : Nat} (hn : n ≤ entries.length)
    (hok : ∀ k < n,
      let (q, t) := (ofList entries).run ex (List.replicate k .execute) s
      (q.press ex .execute t).1 = .executed) :
    ((ofList entries).run ex (List.replicate n .execute) s).1.index = min n (entries.length - 1) ∧
      (ofList entries).calls ex (List.replicate n .execute) s =
        (entries.take n).mapIdx fun i entry => .execute entry i := by
  induction n with
  | zero => exact ⟨(Nat.zero_min _).symm, rfl⟩
  | succ n ih =>
    obtain ⟨hindex, hcalls⟩ := ih (by omega) fun k hk => hok k (by omega)
    obtain ⟨hentries, -⟩ := run_inside (inside_ofList entries) ex (List.replicate n .execute) s
    obtain ⟨new, outcome, hturn, houtcome, hnew⟩ :=
      run_turn (inside_ofList entries) ex (List.replicate n .execute) .execute s
    rw [← List.replicate_succ'] at hturn hnew
    have hexecuted : outcome = .executed := houtcome.symm.trans (hok n (by omega))
    rw [hexecuted] at hturn
    obtain ⟨entry, hentry, hcall, hnext⟩ := hturn.of_executed
    -- Before the key the position is that of the entry that is next, and not yet held back at the end.
    have hat : ((ofList entries).run ex (List.replicate n .execute) s).1.index = n := by omega
    rw [hentries] at hnext hentry
    rw [hat] at hnext hcall hentry
    have hentry : entries[n]? = some entry := hentry
    refine ⟨hnext, ?_⟩
    rw [hnew, hcalls, hcall, List.take_add_one, hentry, Option.toList_some, List.mapIdx_append]
    simp [Nat.min_eq_left (Nat.le_of_succ_le hn)]

/-- Over every list of entries, every executor and every sequence of keys: the entries stay, the position is that of
one of them, and each key is a turn of the queue as the keys before it left it, with the calls of this turn and no
other. As many runs as there are entries, if each succeeds, run the entries in their order, each once. -/
theorem keys_take_turns (entries : List (Entry K)) (ex : Executor K ε σ) (s : σ) :
    let run := fun keys => (ofList entries).run ex keys s
    let calls := fun keys => (ofList entries).calls ex keys s
    (∀ keys, (run keys).1.entries = entries ∧ (entries ≠ [] → (run keys).1.index < entries.length) ∧
      (entries = [] → (run keys).1.index = 0) ∧
      (ofList entries).run ex.recorded keys ([], s) = ((run keys).1, calls keys, (run keys).2)) ∧
    (∀ keys key, ∃ new outcome, Turn ex (run keys).1 (run keys).2 key new (outcome, run (keys ++ [key])) ∧
      ((run keys).1.press ex key (run keys).2).1 = outcome ∧ calls (keys ++ [key]) = calls keys ++ new) ∧
    ((∀ k < entries.length,
        let (q, t) := run (List.replicate k .execute)
        (q.press ex .execute t).1 = .executed) →
      calls (List.replicate entries.length .execute) = entries.mapIdx fun i entry => .execute entry i) := by
  intro run calls
  have hq := inside_ofList entries
  refine ⟨fun keys => ?_, fun keys key => run_turn hq ex keys key s, fun hok => ?_⟩
  · obtain ⟨hentries, hinside⟩ := run_inside hq ex keys s
    have hentries : (run keys).1.entries = entries := hentries
    refine ⟨hentries, fun hne => ?_, fun hnil => ?_, run_recorded hq ex keys s⟩
    · rw [← hentries]
      exact hinside.index_lt (hentries.trans_ne hne)
    · exact hinside.index_zero (hentries.trans hnil)
  · obtain ⟨-, hcalls⟩ := calls_in_order entries ex s (Nat.le_refl _) hok
    rwa [List.take_length] at hcalls

/-- An executor that runs everything and counts it. -/
def counting : Executor K Unit Nat := ⟨fun _ _ runs => (.ok (), runs + 1), id⟩

/-- Two entries are run in their order, and the position stays at the last. -/
theorem keys_take_turns_counting :
    let entries : List (Entry Float) := [⟨.zero, "first"⟩, ⟨.zero, "second"⟩]
    let run := fun keys => (ofList entries).run counting keys 0
    (run [.execute, .execute]).1.index = 1 ∧
      (ofList entries).calls counting [.execute, .execute] 0 =
        [.execute ⟨.zero, "first"⟩ 0, .execute ⟨.zero, "second"⟩ 1] := by
  intro entries run
  obtain ⟨-, -, hcalls⟩ := keys_take_turns entries counting 0
  refine ⟨rfl, hcalls fun k hk => ?_⟩
  have hk : k < 2 := hk
  obtain rfl | rfl : k = 0 ∨ k = 1 := by omega
  · rfl
  · rfl

end Queue

end MagneticBearing.Bench
