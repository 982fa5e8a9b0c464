/-
  MagneticBearing.Proofs.OperatedQueue — what an operator's keys put on the wire, from the first to the last.

  On a calm session each key sends its own commands and nothing else: running a raw entry its text, running a
  force the first two currents in whole microamps if it can be allocated, running a zero entry and quitting the
  three commands of zeroing (`press_calm`). So a run sends these one key after the other, with the queue where
  the earlier keys left it (`run_transcript`).

  - `run_transcript`: the transcript of every run, and where each key takes the queue.
  - `next_moves_on`: not only what was run moves the queue forward.
  - `toWhole_finite`: whole microamps are cut toward zero.
-/

import MagneticBearing.Bearing.CurveFit
import MagneticBearing.Proofs.Exact
import MagneticBearing.Proofs.Keys
import MagneticBearing.Proofs.Transmission
import MagneticBearing.Quartic.ClosedForm

namespace MagneticBearing

/-! ## Whole numbers of doubles -/

namespace Running

open MagneticBearing.Number

/-- The number that a finite double stands for. -/
noncomputable def worth (neg : Bool) (m : Nat) (e : ℤ) : ℝ := (if neg then -1 else 1) * (m * (2 : ℕ) ^ e)

theorem floor_ratio (m : Nat) (e : ℤ) :
    ⌊(m : ℝ) * 2 ^ e⌋ = ((Binary64.ratio m e).1 / (Binary64.ratio m e).2 : ℤ) := by
  unfold Binary64.ratio
  split
  · rename_i he
    obtain ⟨k, rfl⟩ := Int.eq_ofNat_of_zero_le he
    have hreal : (m : ℝ) * 2 ^ (k : ℤ) = ((m * 2 ^ k : ℕ) : ℝ) := by
      push_cast
      rw [zpow_natCast]
    rw [hreal, Int.floor_natCast]
    simp
  · rename_i he
    obtain ⟨k, rfl⟩ := Int.exists_eq_neg_ofNat (Int.le_of_not_le he)
    have hreal : (m : ℝ) * 2 ^ (-(k : ℤ)) = (m : ℝ) / (2 ^ k : ℕ) := by
      rw [zpow_neg, zpow_natCast]
      push_cast
      rfl
    rw [hreal, Int.floor_div_natCast, Int.floor_natCast]
    simp

/-- A finite double is cut toward zero and held to 64 bits. -/
theorem toWhole_finite {x : Float} {neg : Bool} {m : Nat} {e : ℤ} (h : Binary64.decode x = .finite neg m e) :
    toWhole x = max leastWhole (min greatestWhole (Exact.cut (worth neg m e))) := by
  have hsize : 0 ≤ (m : ℝ) * 2 ^ e := by positivity
  have hcut : Exact.cut (worth neg m e) = if neg then -⌊(m : ℝ) * 2 ^ e⌋ else ⌊(m : ℝ) * 2 ^ e⌋ := by
    cases neg with
    | false => simp [worth, Exact.cut, hsize]
    | true =>
      rcases hsize.eq_or_lt with hzero | hpos
      · simp [worth, Exact.cut, ← hzero]
      · have hneg : ¬ 0 ≤ -((m : ℝ) * 2 ^ e) := by linarith
        simp only [worth, Exact.cut, if_true, neg_one_mul, Nat.cast_ofNat, if_neg hneg, Int.ceil_neg]
  rw [hcut, floor_ratio, toWhole, h]

end Running

namespace Bench.Operator

/-! ## What a key does -/

variable (a : Allocator Float)

/-- What running an entry puts on the wire. -/
def entryFrames (entry : Entry Float) : List UInt8 :=
  match entry.instruction with
  | .raw text => Link.frame text
  | .force direction magnitude => forceFrame a direction magnitude
  | .zero => (Drive.zeroing .radial).flatMap Link.frame

/-- An entry succeeds unless it is a force that cannot be allocated. -/
def entrySucceeds (entry : Entry Float) : Bool :=
  match entry.instruction with
  | .force direction magnitude => (a.controlCurrents direction magnitude .amps true).isOk
  | .raw _ | .zero => true

/-- What a key puts on the wire. -/
def keyFrames (q : Queue Float) (key : Key) : List UInt8 :=
  match key with
  | .execute => (q.current?.map (entryFrames a)).getD []
  | .quit => (Drive.zeroing .radial).flatMap Link.frame
  | .help | .next | .previous | .other => []

/-- The queue after a key. -/
def keyQueue (q : Queue Float) (key : Key) : Queue Float :=
  match key with
  | .next => q.moveTo (q.index + 1)
  | .previous => q.moveTo (q.index - 1)
  | .execute => if q.current?.any (entrySucceeds a) then q.moveTo (q.index + 1) else q.moveTo q.index
  | .help | .quit | .other => q.moveTo q.index

/-- What these keys put on the wire, in turn. -/
def transcript (q : Queue Float) : List Key → List UInt8
  | [] => []
  | key :: keys => keyFrames a q key ++ transcript (keyQueue a q key) keys

theorem transmits_execute (entry : Entry Float) (index : Nat) :
    Transmits (execute a entry index) (entryFrames a entry) (fun r => r.isOk = entrySucceeds a entry) := by
  unfold execute entryFrames entrySucceeds
  refine (transmits_notify _).bind fun _ => ?_
  cases entry.instruction with
  | raw text =>
    have hlines := (transmits_command (K := Float) text).bind fun lines => transmits_forM Notice.response lines
    rw [List.append_nil] at hlines
    exact hlines
  | force direction magnitude => exact (transmits_applyForce a direction magnitude).discard
  | zero => exact transmits_zero .radial

variable {a} {s : Session Float}

theorem press_calm (q : Queue Float) (key : Key) (h : s.Calm) :
    (q.press (executor a) key s).2.1 = keyQueue a q key ∧ (q.press (executor a) key s).2.2.Calm ∧
      (q.press (executor a) key s).2.2.port.transmitted = s.port.transmitted ++ keyFrames a q key ∧
      ((q.press (executor a) key s).1 = .executed ↔ key = .execute ∧ q.current?.any (entrySucceeds a) = true) := by
  cases key with
  | help | next | previous | other => exact ⟨rfl, h, (List.append_nil _).symm, by simp [Queue.press]⟩
  | quit =>
    obtain ⟨hcalm, hsent, -⟩ := transmits_quit s h
    exact ⟨rfl, hcalm, hsent, by simp [Queue.press]⟩
  | execute =>
    unfold Queue.press keyQueue keyFrames
    cases q.current? with
    | none => exact ⟨rfl, h, (List.append_nil _).symm, by simp⟩
    | some entry =>
      obtain ⟨hcalm, hsent, hok⟩ := transmits_execute a entry q.index s h
      simp only [executor, Option.any_some, Option.map_some, Option.getD_some]
      rcases hrun : execute a entry q.index s with ⟨_ | _, t⟩
      · rw [hrun] at hcalm hsent hok
        have hfailed : entrySucceeds a entry = false := hok.symm
        exact ⟨by simp [hfailed], hcalm, hsent, by simp [hfailed]⟩
      · rw [hrun] at hcalm hsent hok
        have hsucceeded : entrySucceeds a entry = true := hok.symm
        exact ⟨by simp [hsucceeded], hcalm, hsent, by simp [hsucceeded]⟩

theorem run_calm (q : Queue Float) (keys : List Key) (h : s.Calm) :
    (q.run (executor a) keys s).1 = keys.foldl (keyQueue a) q ∧ (q.run (executor a) keys s).2.Calm ∧
      (q.run (executor a) keys s).2.port.transmitted = s.port.transmitted ++ transcript a q keys := by
  induction keys generalizing q s with
  | nil => exact ⟨rfl, h, (List.append_nil _).symm⟩
  | cons key keys ih =>
    obtain ⟨hqueue, hcalm, hsent, -⟩ := press_calm (a := a) q key h
    obtain ⟨hqueue', hcalm', hsent'⟩ := ih (q.press (executor a) key s).2.1 hcalm
    refine ⟨hqueue'.trans ?_, hcalm', hsent'.trans ?_⟩
    · rw [hqueue]
      rfl
    · rw [hsent, hqueue, List.append_assoc]
      rfl

/-! ## Where the queue is -/

/-- The entries stay, and the position is that of one of them if there is any. -/
structure Placed (entries : List (Entry Float)) (q : Queue Float) : Prop where
  same : q.entries = entries
  inside : q.index ≤ entries.length - 1

variable {entries : List (Entry Float)} {q : Queue Float}

theorem placed_ofList (entries : List (Entry Float)) : Placed entries (Queue.ofList entries) := ⟨rfl, Nat.zero_le _⟩

theorem Placed.within (h : Placed entries q) : q.Inside := by
  unfold Queue.Inside
  rw [h.same]
  exact h.inside

theorem Placed.moveTo (h : Placed entries q) (index : Nat) : Placed entries (q.moveTo index) :=
  ⟨h.same, by rw [← h.same]; exact Nat.min_le_right _ _⟩

theorem Placed.keyQueue (h : Placed entries q) (key : Key) : Placed entries (keyQueue a q key) := by
  unfold Operator.keyQueue
  cases key with
  | help | next | previous | quit | other => exact h.moveTo _
  | execute =>
    simp only
    split
    · exact h.moveTo _
    · exact h.moveTo _

theorem Placed.run (h : Placed entries q) (keys : List Key) : Placed entries (keys.foldl (Operator.keyQueue a) q) := by
  induction keys generalizing q with
  | nil => exact h
  | cons key keys ih => exact ih (h.keyQueue key)

theorem Placed.moveTo_index (h : Placed entries q) (index : Nat) :
    (q.moveTo index).index = min index (entries.length - 1) := by
  rw [Queue.moveTo_index, h.same]

/-- There is an entry to run unless there are none at all. -/
theorem Placed.current_eq_none_iff (h : Placed entries q) : q.current? = none ↔ entries = [] := by
  rw [h.within.current_eq_none_iff, h.same]

/-- The next key and an entry that succeeds take the queue on, the previous key takes it back. -/
theorem Placed.keyQueue_index (h : Placed entries q) (key : Key) :
    let succeeded := key = .execute ∧ q.current?.any (entrySucceeds a) = true
    (key = .next ∨ succeeded → (Operator.keyQueue a q key).index = min (q.index + 1) (entries.length - 1)) ∧
      (key = .previous → (Operator.keyQueue a q key).index = q.index - 1) ∧
      (¬ (key = .next ∨ succeeded) → key ≠ .previous → (Operator.keyQueue a q key).index = q.index) := by
  have hstay : (q.moveTo q.index).index = q.index := congrArg Queue.index h.within.moveTo_self
  cases key with
  | help | quit | other => exact ⟨by simp, by simp, fun _ _ => hstay⟩
  | next => exact ⟨fun _ => h.moveTo_index _, by simp, by simp⟩
  | previous =>
    exact ⟨by simp, fun _ => congrArg Queue.index h.within.moveTo_back, by simp⟩
  | execute =>
    unfold Operator.keyQueue
    cases hany : q.current?.any (entrySucceeds a) with
    | true => exact ⟨fun _ => h.moveTo_index _, by simp, by simp⟩
    | false => exact ⟨by simp, by simp, fun _ _ => hstay⟩

/-! ## Runs -/

/-- Whatever keys are pressed on a calm session, what is transmitted is what each key puts on the wire, one after
the other: running a raw entry its text, running a force the first two currents in whole microamps, cut toward
zero and held to 64 bits, if it can be allocated, running a zero entry and quitting the three commands of
zeroing, anything else nothing. The next key and an entry that succeeded take the queue on, not past its last
entry, and the previous key takes it back, not before its first; nothing else moves it. -/
theorem run_transcript (a : Allocator Float) (entries : List (Entry Float)) {s : Session Float} (h : s.Calm) :
    let run (keys : List Key) := (Queue.ofList entries).run (executor a) keys s
    (∀ keys, (run keys).2.port.transmitted = s.port.transmitted ++ transcript a (Queue.ofList entries) keys ∧
      (run keys).1 = keys.foldl (keyQueue a) (Queue.ofList entries) ∧
      ((run keys).1.current? = none ↔ entries = [])) ∧
    (∀ keys key,
      let q := (run keys).1
      let succeeded := key = .execute ∧ ∃ entry, q.current? = some entry ∧ entrySucceeds a entry = true
      let index := (run (keys ++ [key])).1.index
      ((q.press (executor a) key (run keys).2).1 = .executed ↔ succeeded) ∧
        (key = .next ∨ succeeded → index = min (q.index + 1) (entries.length - 1)) ∧
        (key = .previous → index = q.index - 1) ∧
        (¬ (key = .next ∨ succeeded) → key ≠ .previous → index = q.index)) ∧
    (∀ (x : Float) (neg : Bool) (m : Nat) (e : ℤ), Number.Binary64.decode (x * 1000000.0) = .finite neg m e →
      Drive.micro x = max (-2 ^ 63) (min (2 ^ 63 - 1) (Exact.cut (Running.worth neg m e)))) := by
  intro run
  refine ⟨fun keys => ?_, fun keys key => ?_, fun x neg m e hx => Running.toWhole_finite hx⟩
  · obtain ⟨hqueue, -, hsent⟩ := run_calm (a := a) (Queue.ofList entries) keys h
    refine ⟨hsent, hqueue, ?_⟩
    rw [hqueue]
    exact ((placed_ofList entries).run keys).current_eq_none_iff
  · intro q succeeded index
    obtain ⟨hqueue, hcalm, -⟩ := run_calm (a := a) (Queue.ofList entries) keys h
    have hplaced : Placed entries q := by
      simp only [q, run]
      rw [hqueue]
      exact (placed_ofList entries).run keys
    obtain ⟨hpressed, -, -, hexecuted⟩ := press_calm (a := a) q key hcalm
    have hsucceeded : (key = .execute ∧ q.current?.any (entrySucceeds a) = true) ↔ succeeded := by
      simp only [succeeded, Option.any_eq_true]
    have hindex : index = (keyQueue a q key).index := by
      rw [← hpressed]
      simp only [index, run, Queue.run, List.foldl_append]
      rfl
    have hmoves := hplaced.keyQueue_index (a := a) key
    simp only [hsucceeded] at hmoves
    rw [← hindex] at hmoves
    exact ⟨hexecuted.trans hsucceeded, hmoves⟩

/-- The allocator of the prototype, as it is fitted. -/
def prototype : Allocator Float := ⟨CurveFit.prototype.bearing, Quartic.closedForm⟩

/-- A force that is not a number is refused and stays the entry to run; the queue is taken past it by hand. -/
theorem run_transcript_refused :
    let entries : List (Entry Float) := [⟨.raw "ping", ""⟩, ⟨.force (0.0 / 0.0) 1.0, ""⟩, ⟨.force 30.0 0.0, ""⟩]
    let s := Link.bringing (Link.bytes "pong\r\n" ++ [Link.late])
    let run := (Queue.ofList entries).run (executor prototype) [.execute, .execute, .next, .execute, .quit] s
    s.Calm ∧ run.1.index = 2 ∧ run.2.port.transmitted =
      ["ping", "cramb set_currents 0 0", "cramb set_currents 0 0", "cramb deinit_cc", "cramb pole_volts 0 0 0"].flatMap
        Link.frame := by
  intro entries s run
  have hs : s.Calm := bringing_calm (by decide +kernel)
  obtain ⟨hrun, -⟩ := run_transcript prototype entries hs
  obtain ⟨hsent, hqueue, -⟩ := hrun [.execute, .execute, .next, .execute, .quit]
  refine ⟨hs, (congrArg Queue.index hqueue).trans ?_, hsent.trans ?_⟩
  · decide +kernel
  · decide +kernel

/-- The next key takes the queue on, and nothing was run. -/
theorem next_moves_on :
    let run (keys : List Key) :=
      (Queue.ofList [⟨.zero, "first"⟩, ⟨.zero, "second"⟩]).run (executor prototype) keys (Link.bringing [])
    (Link.bringing []).Calm ∧ (run []).1.index = 0 ∧ (run [.next]).1.index = 1 ∧ .execute ∉ [Key.next] :=
  ⟨bringing_calm (by simp), rfl, rfl, by decide⟩

end Bench.Operator

end MagneticBearing
