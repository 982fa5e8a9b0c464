/-
  MagneticBearing.Bench.Port — a serial port as the script of what it will do.

  Reads are served one event at a time from `incoming`; when it is used up every read comes back
  empty. Each write of a byte and each flush may fail, by its number. What happened is kept in
  `history`, the latest first, so what was transmitted and in which order is a fact about a run.

  `readLine` reads up to and with the next line feed. An empty read or a time-out ends the line
  early, an interrupted read does not count, any other fault is the answer.

  - `readLine_shorter`: reading a line uses up some of a script that is not empty.
-/

namespace MagneticBearing.Bench

inductive FaultKind where
  | timedOut
  | wouldBlock
  | interrupted
  | brokenPipe
  | other
  deriving DecidableEq, Repr

/-- What the port or the operating system says went wrong. -/
structure Fault where
  kind : FaultKind
  text : String
  deriving DecidableEq, Repr

inductive ReadEvent where
  | byte (b : UInt8)
  | empty
  | fault (f : Fault)
  deriving DecidableEq, Repr

/-- What was done on a port. -/
inductive Action where
  | wrote (b : UInt8)
  | writeFailed
  | flushed
  | flushFailed
  /-- Reading began. -/
  | read
  deriving DecidableEq, Repr

structure Port where
  incoming : List ReadEvent
  /-- How the write of this number fails, counted from zero; none if it succeeds. An interrupted write is made again
  until it succeeds or fails otherwise, so on a board's port that kind does not occur here. -/
  writeFault : Nat → Option Fault
  flushFault : Nat → Option Fault
  writes : Nat
  flushes : Nat
  history : List Action

namespace Port

/-- A port whose writes and flushes succeed. -/
def ofScript (incoming : List ReadEvent) : Port := ⟨incoming, fun _ => none, fun _ => none, 0, 0, []⟩

def write (p : Port) (b : UInt8) : Except Fault Unit × Port :=
  match p.writeFault p.writes with
  | none => (.ok (), { p with writes := p.writes + 1, history := .wrote b :: p.history })
  | some f => (.error f, { p with writes := p.writes + 1, history := .writeFailed :: p.history })

def flush (p : Port) : Except Fault Unit × Port :=
  match p.flushFault p.flushes with
  | none => (.ok (), { p with flushes := p.flushes + 1, history := .flushed :: p.history })
  | some f => (.error f, { p with flushes := p.flushes + 1, history := .flushFailed :: p.history })

/-- The bytes on the wire, in order. -/
def transmitted (p : Port) : List UInt8 :=
  p.history.reverse.filterMap fun a => match a with | .wrote b => some b | _ => none

end Port

/-! ## Lines -/

def newline : UInt8 := 10

/-- A line as it came, its end included, and what is left of the script. -/
def readLine : List ReadEvent → Except Fault (List UInt8) × List ReadEvent
  | [] => (.ok [], [])
  | .empty :: rest => (.ok [], rest)
  | .fault f :: rest =>
    match f.kind with
    | .timedOut | .wouldBlock => (.ok [], rest)
    | .interrupted => readLine rest
    | .brokenPipe | .other => (.error f, rest)
  | .byte b :: rest =>
    if b = newline then (.ok [b], rest)
    else
      match readLine rest with
      | (.ok line, left) => (.ok (b :: line), left)
      | (.error f, left) => (.error f, left)

theorem readLine_length (s : List ReadEvent) : (readLine s).2.length ≤ s.length - 1 := by
  fun_induction readLine s <;> simp_all <;> omega

theorem readLine_shorter {s : List ReadEvent} (h : s ≠ []) : (readLine s).2.length < s.length := by
  have := readLine_length s
  have := List.length_pos_iff.mpr h
  omega

theorem readLine_nil : readLine [] = (.ok [], []) := rfl

end MagneticBearing.Bench
