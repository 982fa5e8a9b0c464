/-
  MagneticBearing.Bench.Operator — the queue run on the drive.

  A raw instruction is sent as it stands and its response told to the operator; a force is
  allocated and applied; zero takes the radial stage to its safe state, as quitting does.
-/

import MagneticBearing.Bench.Drive
import MagneticBearing.Bench.Queue

namespace MagneticBearing.Bench.Operator

variable {K : Type} [Scalar K]

def execute (a : Allocator K) (entry : Entry K) (index : Nat) : BenchM K Unit := do
  BenchM.notify (.started index entry.instruction)
  match entry.instruction with
  | .raw text => (← Link.command text).forM fun line => BenchM.notify (.response line)
  | .force direction magnitude =>
    let _ ← Drive.applyForce a direction magnitude
  | .zero => Drive.zero .radial

def quit : BenchM K Unit := BenchM.recover (Drive.zero .radial) fun e => BenchM.notify (.quitFailed e)

def executor (a : Allocator K) : Executor K (LinkError K) (Session K) where
  execute := fun entry index s => execute a entry index s
  quit := fun s => (quit (K := K) s).2

end MagneticBearing.Bench.Operator
