/-
  MagneticBearing.Proofs.AnyPort — what an action does on a port at which anything may fail.

  An action of the bench is meant to do some things on the port in turn: write each byte of a command and flush
  it, then read. It ends with the first of them that fails. So what it did is the beginning of what it was meant
  to do, the last thing possibly failed (`Done`), and all of it if there was no error. `Attempts` says so of one
  action, and is put together from the parts of an action (`Attempts.bind`).

  - `attempts_send`, `attempts_command`: what each is meant to do.
  - `send_incoming`: no byte that comes in is lost in sending.
-/

import MagneticBearing.Proofs.Wire

namespace MagneticBearing.Bench

variable {K : Type} {α β : Type}

/-! ## What is done -/

namespace Action

def byte? : Action → Option UInt8
  | .wrote b => some b
  | _ => none

/-- What is on record if it fails. That a read failed is not: it began. -/
def failed : Action → Action
  | .wrote _ => .writeFailed
  | .flushed => .flushFailed
  | a => a

theorem failed_byte? (a : Action) : a.failed.byte? = none := by
  cases a <;> rfl

theorem failed_read {a : Action} (h : a.failed = .read) : a = .read := by
  cases a with
  | read => rfl
  | wrote b | writeFailed | flushed | flushFailed => cases h

end Action

/-- This much was done of what was meant: its beginning, or up to and with an action that failed. -/
inductive Done (acts : List Action) : List Action → Prop
  | begun {did : List Action} : did <+: acts → Done acts did
  | cut {before : List Action} {a : Action} : before ++ [a] <+: acts → Done acts (before ++ [a.failed])

section Done

variable {acts more did : List Action}

theorem Done.all (acts : List Action) : Done acts acts := .begun (List.prefix_refl acts)

theorem Done.append (h : Done acts did) : Done (acts ++ more) did := by
  cases h with
  | begun h => exact .begun (h.trans (List.prefix_append acts more))
  | cut h => exact .cut (h.trans (List.prefix_append acts more))

theorem Done.behind (h : Done more did) : Done (acts ++ more) (acts ++ did) := by
  cases h with
  | begun h => exact .begun ((List.prefix_append_right_inj acts).mpr h)
  | cut h =>
    rw [← List.append_assoc]
    refine .cut ?_
    rw [List.append_assoc]
    exact (List.prefix_append_right_inj acts).mpr h

theorem Done.one (a : Action) : Done [a] [a.failed] := Done.cut (List.prefix_refl ([] ++ [a]))

/-- What failed put nothing on the wire. -/
theorem Done.sent (h : Done acts did) : did.filterMap Action.byte? <+: acts.filterMap Action.byte? := by
  cases h with
  | begun h => exact h.filterMap Action.byte?
  | @cut before a h =>
    have hbefore : before <+: acts := (List.prefix_append before [a]).trans h
    rw [List.filterMap_append, List.filterMap_cons, Action.failed_byte?, List.filterMap_nil, List.append_nil]
    exact hbefore.filterMap Action.byte?

theorem Done.read (h : Done acts did) (hread : .read ∈ did) : .read ∈ acts := by
  cases h with
  | begun h => exact h.subset hread
  | @cut before a h =>
    refine h.subset ?_
    rcases List.mem_append.mp hread with hb | ha
    · exact List.mem_append_left _ hb
    · rw [Action.failed_read (List.mem_singleton.mp ha).symm]
      exact List.mem_append_right _ List.mem_cons_self

end Done

/-- From `s` to `t` this was done on the port. -/
structure Session.Did (s t : Session K) (did : List Action) : Prop where
  settings : t.settings = s.settings
  history : t.port.history = did.reverse ++ s.port.history
  unread : .read ∉ did → t.port.incoming = s.port.incoming

section Did

variable {s t u : Session K} {did more : List Action}

theorem Session.Did.refl (s : Session K) : s.Did s [] := ⟨rfl, rfl, fun _ => rfl⟩

theorem Session.Did.trans (h : s.Did t did) (h' : t.Did u more) : s.Did u (did ++ more) := by
  refine ⟨h'.settings.trans h.settings, ?_, fun hread => ?_⟩
  · rw [h'.history, h.history, List.reverse_append, List.append_assoc]
  · rw [List.mem_append, not_or] at hread
    exact (h'.unread hread.2).trans (h.unread hread.1)

theorem Session.Did.transmitted (h : s.Did t did) :
    t.port.transmitted = s.port.transmitted ++ did.filterMap Action.byte? := by
  unfold Port.transmitted
  rw [h.history, List.reverse_append, List.reverse_reverse, List.filterMap_append]
  rfl

end Did

/-! ## What is meant -/

/-- On `s` the action is meant to do this in turn: all of it is done unless there is an error, and as far as the
error if there is one. -/
def Attempts (x : BenchM K α) (s : Session K) (acts : List Action) : Prop :=
  ∃ did, s.Did (x s).2 did ∧ Done acts did ∧ ((x s).1.isOk = true → did = acts)

section Rules

variable {x : BenchM K α} {f : α → BenchM K β} {s : Session K} {acts more : List Action}

theorem attempts_pure (a : α) (s : Session K) : Attempts (pure a) s [] :=
  ⟨[], .refl s, .all [], fun _ => rfl⟩

theorem attempts_notify (n : Notice K) (s : Session K) : Attempts (BenchM.notify n) s [] :=
  ⟨[], ⟨rfl, rfl, fun _ => rfl⟩, .all [], fun _ => rfl⟩

theorem Attempts.bind (hx : Attempts x s acts)
    (hf : ∀ a t, x s = (.ok a, t) → t.settings = s.settings → Attempts (f a) t more) :
    Attempts (x >>= f) s (acts ++ more) := by
  obtain ⟨did, hdid, hdone, hall⟩ := hx
  unfold Attempts
  rw [BenchM.bind_apply]
  rcases hrun : x s with ⟨e | a, t⟩
  · rw [hrun] at hdid
    exact ⟨did, hdid, hdone.append, fun hok => by cases hok⟩
  · rw [hrun] at hdid hall
    obtain rfl := hall rfl
    obtain ⟨did', hdid', hdone', hall'⟩ := hf a t hrun hdid.settings
    exact ⟨did ++ did', hdid.trans hdid', hdone'.behind, fun hok => by rw [hall' hok]⟩

/-- One thing done on the port, on record as done or as failed. -/
theorem attempts_onPort {f : Port → Except Fault α × Port} {a : Action}
    (hincoming : (f s.port).2.incoming = s.port.incoming)
    (h : ((f s.port).1.isOk = true ∧ (f s.port).2.history = a :: s.port.history) ∨
      ((f s.port).1.isOk = false ∧ (f s.port).2.history = a.failed :: s.port.history)) :
    Attempts (BenchM.onPort f) s [a] := by
  unfold Attempts BenchM.onPort
  rcases hrun : f s.port with ⟨e | x, port⟩
  · rw [hrun] at hincoming h
    obtain ⟨hok, -⟩ | ⟨-, hhistory⟩ := h
    · cases hok
    · exact ⟨[a.failed], ⟨rfl, hhistory, fun _ => hincoming⟩, .one _, fun hok => by cases hok⟩
  · rw [hrun] at hincoming h
    obtain ⟨-, hhistory⟩ | ⟨hok, -⟩ := h
    · exact ⟨[a], ⟨rfl, hhistory, fun _ => hincoming⟩, .all _, fun _ => rfl⟩
    · cases hok

theorem attempts_write (b : UInt8) (s : Session K) : Attempts (BenchM.onPort (·.write b)) s [.wrote b] := by
  refine attempts_onPort ?_ ?_
  · dsimp only [Port.write]
    cases s.port.writeFault s.port.writes <;> rfl
  · dsimp only [Port.write]
    cases s.port.writeFault s.port.writes with
    | none => exact .inl ⟨rfl, rfl⟩
    | some fault => exact .inr ⟨rfl, rfl⟩

theorem attempts_flush (s : Session K) : Attempts (BenchM.onPort Port.flush) s [.flushed] := by
  refine attempts_onPort ?_ ?_
  · dsimp only [Port.flush]
    cases s.port.flushFault s.port.flushes <;> rfl
  · dsimp only [Port.flush]
    cases s.port.flushFault s.port.flushes with
    | none => exact .inl ⟨rfl, rfl⟩
    | some fault => exact .inr ⟨rfl, rfl⟩

theorem attempts_onScript (f : List ReadEvent → Except (LinkError K) α × List ReadEvent) (s : Session K) :
    Attempts (BenchM.onScript f) s [.read] :=
  ⟨[.read], ⟨rfl, rfl, fun hread => absurd List.mem_cons_self hread⟩, .all _, fun _ => rfl⟩

end Rules

namespace Link

/-! ## Commands -/

/-- Every byte is flushed before the next one is written. -/
def writing (bs : List UInt8) : List Action := bs.flatMap fun b => [.wrote b, .flushed]

/-- A command that is written and then read for, unless the link waits for nothing. -/
def exchange (patience : Nat) (text : String) : List Action :=
  writing (frame text) ++ if patience = 0 then [] else [.read]

theorem writing_sent (bs : List UInt8) : (writing bs).filterMap Action.byte? = bs := by
  induction bs with
  | nil => rfl
  | cons b bs ih => exact congrArg (b :: ·) ih

theorem read_not_mem_writing (bs : List UInt8) : .read ∉ writing bs := by
  simp [writing]

theorem exchange_sent (patience : Nat) (text : String) :
    (exchange patience text).filterMap Action.byte? = frame text := by
  unfold exchange
  rw [List.filterMap_append, writing_sent]
  split <;> exact List.append_nil _

theorem attempts_sendBytes (bs : List UInt8) (s : Session K) : Attempts (sendBytes bs) s (writing bs) := by
  induction bs generalizing s with
  | nil => exact attempts_pure () s
  | cons b bs ih =>
    exact (attempts_write b s).bind fun _ t _ _ => (attempts_flush t).bind fun _ u _ _ => ih u

theorem attempts_send (text : String) (s : Session K) : Attempts (send text) s (writing (frame text)) := by
  have hecho (t : Session K) : Attempts (do if (← get).settings.echo then BenchM.notify (.echo text)) t [] := by
    show Attempts (if t.settings.echo then BenchM.notify (.echo text) else pure ()) t []
    split
    · exact attempts_notify _ t
    · exact attempts_pure () t
  rw [← List.append_nil (writing _)]
  exact (attempts_sendBytes (frame text) s).bind fun _ t _ _ => hecho t

theorem attempts_command (text : String) (s : Session K) :
    Attempts (command text) s (exchange s.settings.allowedEmptyReads text) := by
  refine (attempts_send text s).bind fun _ t _ hsettings => ?_
  rw [← hsettings]
  show Attempts (if t.settings.allowedEmptyReads = 0 then pure []
    else BenchM.onScript fun script => onFault (collectLines t.settings.allowedEmptyReads 0 script)) t _
  split
  · exact attempts_pure [] t
  · exact attempts_onScript _ t

/-- Sending reads nothing, also where it fails. -/
theorem send_incoming (text : String) (s : Session K) :
    ((send text : BenchM K Unit) s).2.port.incoming = s.port.incoming := by
  obtain ⟨did, hdid, hdone, -⟩ := attempts_send text s
  exact hdid.unread fun hread => read_not_mem_writing _ (hdone.read hread)

end Link

end MagneticBearing.Bench
