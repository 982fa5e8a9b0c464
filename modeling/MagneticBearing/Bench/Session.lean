/-
  MagneticBearing.Bench.Session — what the bench tooling keeps while it talks to the board.

  A session is the port, the pacing of the link and the notices given so far. Everything on the
  bench is a `BenchM` action: it goes on from the session it gets, and an error leaves the
  session as it was when the error arose, with whatever was transmitted by then.

  Notices are for the operator. What is logged at the debug level, such as the number of lines of a
  response or a root that was left out, is not among them.
-/

import MagneticBearing.Allocation
import MagneticBearing.Bench.Port

namespace MagneticBearing.Bench

/-- The two groups of coils: three radial phases, one axial. -/
inductive Stage where
  | radial
  | axial
  deriving DecidableEq, Repr

inductive ResponseFault where
  | tooShort (needed found : Nat)
  | notNumber (line : Nat) (text : String)
  deriving DecidableEq, Repr

inductive LinkError (K : Type) where
  | serial (text : String)
  | io (fault : Fault)
  | unexpectedResponse (command : String) (reason : ResponseFault)
  | logIncomplete (index : Nat)
  | invalidInverter (number : Nat) (stage : Stage)
  | allocation (error : AllocationError K)
  deriving Repr

/-- One step of an experiment. -/
inductive Instruction (K : Type) where
  | raw (text : String)
  | force (direction magnitude : K)
  | zero
  deriving Repr

/-- Pacing, echo and patience of the link; delays in microseconds. -/
structure Settings where
  commandDelay : Nat
  charDelay : Nat
  echo : Bool
  /-- Consecutive blank lines that end a response. -/
  allowedEmptyReads : Nat
  deriving DecidableEq, Repr

def Settings.standard : Settings := ⟨500000, 1000, true, 10⟩

/-- What the operator is told while it happens. -/
inductive Notice (K : Type) where
  | echo (command : String)
  | logRead (index samples : Nat)
  | singularAxis (direction : K)
  | forceApplied (direction magnitude : K) (currents : Poles K)
  | started (index : Nat) (instruction : Instruction K)
  | response (line : String)
  | quitFailed (error : LinkError K)
  | dropFailed (error : LinkError K)
  deriving Repr

structure Session (K : Type) where
  port : Port
  settings : Settings
  log : List (Notice K)

abbrev BenchM (K : Type) := ExceptT (LinkError K) (StateM (Session K))

namespace BenchM

variable {K : Type}

def notify (n : Notice K) : BenchM K Unit := modify fun s => { s with log := s.log ++ [n] }

/-- An action of the port alone; its fault is an error of the link. -/
def onPort {α : Type} (f : Port → Except Fault α × Port) : BenchM K α := fun s =>
  match f s.port with
  | (.ok x, port) => (.ok x, { s with port := port })
  | (.error e, port) => (.error (.io e), { s with port := port })

/-- Read from the script; no other action touches it. -/
def onScript {α : Type} (f : List ReadEvent → Except (LinkError K) α × List ReadEvent) : BenchM K α := fun s =>
  let (r, left) := f s.port.incoming
  (r, { s with port := { s.port with incoming := left, history := .read :: s.port.history } })

/-- Go on after an error, with what `handler` does about it. -/
def recover (x : BenchM K Unit) (handler : LinkError K → BenchM K Unit) : BenchM K Unit := fun s =>
  match x s with
  | (.ok (), s) => (.ok (), s)
  | (.error e, s) => handler e s

end BenchM

end MagneticBearing.Bench
