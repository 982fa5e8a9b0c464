/-
  MagneticBearing.Wording — what the library says: errors, notices and instructions in words.

  Numbers stand in texts with their fewest digits (`Decimal.plain`); applied currents have four
  places.
-/

import MagneticBearing.Bench.Operator
import MagneticBearing.Number.Decimal

namespace MagneticBearing

open MagneticBearing.Number.Decimal (plain fixed)

namespace Parameter

def name : Parameter → String
  | .saturationField => "bmax"
  | .biasFraction => "zeta"
  | .poleSpan => "pole_span_deg"
  | .airgap => "airgap"
  | .rotorRadius => "rotor_radius"
  | .laminationLength => "lamination_length"
  | .turns => "turns"
  | .linearFit => "C1"
  | .quadraticFit => "C2"
  | .direction => "direction"
  | .magnitude => "magnitude"

/-- What a value of the parameter has to satisfy. -/
def demand : Parameter → String
  | .biasFraction => "bias fraction must lie in (0, 1)"
  | .poleSpan => "three poles need a span in (0, 120)"
  | .direction => "must be finite"
  | .magnitude => "must be finite and non-negative"
  | _ => "must be positive and finite"

end Parameter

def AllocationError.message : AllocationError Float → String
  | .noFeasibleSolution d m => s!"No feasible excitation for force {plain m} at {plain d}°"
  | .degenerateAuxiliary c =>
    s!"Auxiliary cubic root is zero for p={plain c.p}, q={plain c.q}, r={plain c.r}"
  | .ratingSearchFailed d n => s!"Maximum force search at {plain d}° failed after {n} iterations"
  | .invalidParameter p v => s!"Invalid bearing parameter {p.name}: {p.demand}, got {plain v}"

namespace Bench

def Stage.name : Stage → String
  | .radial => "radial"
  | .axial => "axial"

def ResponseFault.message : ResponseFault → String
  | .tooShort needed found => s!"expected at least {needed} lines, got {found}"
  | .notNumber line text => s!"line {line} is not a number: '{text}'"

def LinkError.message : LinkError Float → String
  | .serial text => s!"Serial port error: {text}"
  | .io f => s!"IO error: {f.text}"
  | .unexpectedResponse command reason => s!"Unexpected response to '{command}': {reason.message}"
  | .logIncomplete index => s!"Log dump of variable {index} ended without the END marker"
  | .invalidInverter number stage => s!"Inverter {number} is not wired to the {stage.name} stage"
  | .allocation e => e.message

def Instruction.text : Instruction Float → String
  | .raw text => text
  | .force d m => s!"force {plain m} N at {plain d}°"
  | .zero => "zero"

inductive Level where
  | info
  | warn
  deriving DecidableEq, Repr

namespace Notice

def level : Notice Float → Level
  | .singularAxis _ | .quitFailed _ | .dropFailed _ => .warn
  | _ => .info

def currentsText (i : Poles Float) : String :=
  ", ".intercalate (i.toList.map (fixed 4))

def text : Notice Float → String
  | .echo command => "\t> " ++ command
  | .logRead index samples => s!"Log variable {index}: {samples} samples"
  | .singularAxis d => s!"Singular back-substitution at {plain d}°, re-solving real axis first"
  | .forceApplied d m i => s!"{plain m} N at {plain d}° -> I = [{currentsText i}] A"
  | .started index instruction => s!"[{index}] {instruction.text}"
  | .response line => "  " ++ line
  | .quitFailed e => s!"Failed to zero bearing on quit: {e.message}"
  | .dropFailed e => s!"Failed to zero radial stage on drop: {e.message}"

end Notice

/-- What the operator is told of a refused entry. -/
def Queue.failureText (index : Nat) (reason : String) : String := s!"Command {index} failed: {reason}"

def Queue.emptyText : String := "Command queue is empty"

def Queue.nothingQueuedText : String := "queue is empty"

end Bench

end MagneticBearing
