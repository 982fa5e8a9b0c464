/-
  MagneticBearing.Bench.Queue — a prepared list of instructions, stepped through by keys.

  The position moves by the next and previous keys and after every instruction that succeeded,
  and is held within the list. Who runs the instructions is up to the queue's user: an
  `Executor` has a state of its own and may refuse an entry.
-/

import MagneticBearing.Bench.Session
import MagneticBearing.Text.Layout

namespace MagneticBearing.Bench

/-- An instruction with a note for the operator. -/
structure Entry (K : Type) where
  instruction : Instruction K
  info : String
  deriving Repr

inductive Key where
  | help
  | next
  | previous
  | execute
  | quit
  | other
  deriving DecidableEq, Repr

def Key.ofChar (c : Char) : Key :=
  match c.toLower with
  | 'h' => .help
  | 'n' => .next
  | 'p' => .previous
  | 'e' => .execute
  | 'q' => .quit
  | _ => .other

/-- What a key did. -/
inductive Outcome (ε : Type) where
  | moved
  | help
  | executed
  | failed (error : ε)
  | nothingQueued
  | invalid
  | quit
  deriving Repr

structure Executor (K ε σ : Type) where
  execute : Entry K → Nat → σ → Except ε Unit × σ
  quit : σ → σ

structure Queue (K : Type) where
  entries : List (Entry K)
  index : Nat
  deriving Repr

namespace Queue

variable {K ε σ : Type}

def ofList (entries : List (Entry K)) : Queue K := ⟨entries, 0⟩

def current? (q : Queue K) : Option (Entry K) := q.entries[q.index]?

/-- The queue at a position, or at its end if that is past it. -/
def moveTo (q : Queue K) (index : Nat) : Queue K := { q with index := min index (q.entries.length - 1) }

def press (q : Queue K) (ex : Executor K ε σ) (key : Key) (s : σ) : Outcome ε × Queue K × σ :=
  match key with
  | .help => (.help, q.moveTo q.index, s)
  | .next => (.moved, q.moveTo (q.index + 1), s)
  | .previous => (.moved, q.moveTo (q.index - 1), s)
  | .execute =>
    match q.current? with
    | none => (.nothingQueued, q.moveTo q.index, s)
    | some entry =>
      match ex.execute entry q.index s with
      | (.ok (), s) => (.executed, q.moveTo (q.index + 1), s)
      | (.error e, s) => (.failed e, q.moveTo q.index, s)
  | .quit => (.quit, q.moveTo q.index, ex.quit s)
  | .other => (.invalid, q.moveTo q.index, s)

def run (q : Queue K) (ex : Executor K ε σ) (keys : List Key) (s : σ) : Queue K × σ :=
  keys.foldl (fun acc key => (acc.1.press ex key acc.2).2) (q, s)

/-! ## The operator's view -/

def bannerWidth : Nat := 50

def banner (q : Queue K) : String :=
  if q.index = 0 then Text.centredWith '#' bannerWidth "  START  "
  else if q.index + 1 = q.entries.length then Text.centredWith '#' bannerWidth "  End  "
  else Text.fill '#' bannerWidth

end Queue

end MagneticBearing.Bench
