/-
  MagneticBearing.Documents — the documents that the program reads: bearing descriptions, lists
  of instructions and reports.

  A description and an instruction are tagged (`model`, `kind`); missing numbers of a description
  have the prototype's values.
-/

import MagneticBearing.Bearing.Description
import MagneticBearing.Bench.Queue
import MagneticBearing.Json.Shape
import MagneticBearing.Report
import MagneticBearing.Scalar.Running

namespace MagneticBearing

open MagneticBearing.Json

/-! ## Bearing descriptions -/

namespace Description

def numberOr (p : Parts) (name : String) (position : Nat) (standard : Float) : Except Defect Float := do
  match ← p.find name position with
  | none => return standard
  | some v => v.toFloat

def physicalOf (p : Parts) : Except Defect (Description Float) := do
  let g : Geometry Float := Geometry.prototype
  p.atMost 8
  let geometry : Geometry Float :=
    { saturationField := ← numberOr p "bmax" 0 g.saturationField
      biasFraction := ← numberOr p "zeta" 1 g.biasFraction
      poleSpan := ← numberOr p "pole_span_deg" 2 g.poleSpan
      airgap := ← numberOr p "airgap" 3 g.airgap
      rotorRadius := ← numberOr p "rotor_radius" 4 g.rotorRadius
      laminationLength := ← numberOr p "lamination_length" 5 g.laminationLength
      turns := ← numberOr p "turns" 6 g.turns }
  match ← p.find "curve_fit" 7 with
  | none => return .physical geometry none
  | some v => return .physical geometry (← v.toPair?)

def curveFitOf (p : Parts) : Except Defect (Description Float) := do
  let b : CurveFit Float := CurveFit.prototype
  p.atMost 3
  return .curveFit (← numberOr p "c1" 0 b.c1) (← numberOr p "c2" 1 b.c2) (← numberOr p "turns" 2 b.turns)

def reader (depth : Nat) : Reader (Description Float) := do
  let (model, parts) ← tagged "model" ["physical", "curve_fit"] depth
  if model == "physical" then physicalOf parts else curveFitOf parts

def ofText (s : String) : Except Defect (Description Float) := document reader s

end Description

/-! ## Instructions -/

namespace Bench

def required (p : Parts) (name : String) (position : Nat) : Except Defect Value := do
  match ← p.find name position with
  | some v => return v
  | none => throw .mismatch

def Instruction.ofParts (kind : String) (p : Parts) : Except Defect (Instruction Float) := do
  if kind == "raw" then
    p.atMost 1
    return .raw (← (← required p "text" 0).toText)
  else if kind == "force" then
    p.atMost 2
    return .force (← (← required p "direction_deg" 0).toFloat) (← (← required p "magnitude" 1).toFloat)
  else
    p.atMost 0
    return .zero

def Instruction.reader (depth : Nat) : Reader (Instruction Float) := do
  let (kind, parts) ← tagged "kind" ["raw", "force", "zero"] depth
  Instruction.ofParts kind parts

namespace Entry

/-- The parts of an entry read so far. -/
structure Partial where
  instruction : Option (Instruction Float)
  info : Option String

def fields : List (Member Partial) :=
  [⟨"command", (·.instruction.isSome),
      fun depth s => do return { s with instruction := some (← Instruction.reader depth) }, false⟩,
    ⟨"info", (·.info.isSome), fun _ s => do return { s with info := some (← string) }, true⟩]

def reader (depth : Nat) : Reader (Entry Float) :=
  record fields ⟨none, none⟩ (fun s => s.instruction.map fun i => ⟨i, s.info.getD ""⟩) depth

def listOfText (s : String) : Except Defect (List (Entry Float)) := document (fun depth => list depth reader) s

end Entry

end Bench

/-! ## Reports -/

namespace Report

def vectorReader (depth : Nat) : Reader (SpaceVector Float) := do
  match ← tuple depth 2 float with
  | [re, im] => return ⟨re, im⟩
  | _ => throw .mismatch

def polesReader (depth : Nat) : Reader (Poles Float) := do
  match ← tuple depth 3 float with
  | [p1, p2, p3] => return ⟨p1, p2, p3⟩
  | _ => throw .mismatch

/-- The parts of a force read so far. -/
structure PartialForce where
  direction : Option Float
  magnitude : Option Float

def forceReader (depth : Nat) : Reader (Force Float) :=
  let fields : List (Member PartialForce) :=
    [⟨"direction_deg", (·.direction.isSome), fun _ s => do return { s with direction := some (← float) }, false⟩,
      ⟨"magnitude", (·.magnitude.isSome), fun _ s => do return { s with magnitude := some (← float) }, false⟩]
  record fields ⟨none, none⟩ (fun s => do return ⟨← s.direction, ← s.magnitude⟩) depth

/-- The parts of a candidate read so far. -/
structure PartialCandidate where
  vector : Option (SpaceVector Float)
  control : Option (Poles Float)
  totalField : Option (Poles Float)
  force : Option (Force Float)
  saturated : Option Bool

def candidateReader (depth : Nat) : Reader (CandidateReport Float) :=
  let fields : List (Member PartialCandidate) :=
    [⟨"space_vector", (·.vector.isSome), fun d s => do return { s with vector := some (← vectorReader d) }, false⟩,
      ⟨"control", (·.control.isSome), fun d s => do return { s with control := some (← polesReader d) }, false⟩,
      ⟨"total_field", (·.totalField.isSome),
        fun d s => do return { s with totalField := some (← polesReader d) }, false⟩,
      ⟨"force", (·.force.isSome), fun d s => do return { s with force := some (← forceReader d) }, false⟩,
      ⟨"saturated", (·.saturated.isSome), fun _ s => do return { s with saturated := some (← bool) }, false⟩]
  record fields ⟨none, none, none, none, none⟩
    (fun s => do return ⟨← s.vector, ← s.control, ← s.totalField, ← s.force, ← s.saturated⟩) depth

/-- The parts of a report read so far; the selection may be given as none. -/
structure PartialReport where
  request : Option (Force Float)
  formulation : Option Formulation
  candidates : Option (List (CandidateReport Float))
  selected : Option (Option Nat)

def formulations : List (String × Formulation) :=
  [("imaginary_first", .imaginaryFirst), ("real_first", .realFirst)]

def reader (depth : Nat) : Reader (Report Float) :=
  let fields : List (Member PartialReport) :=
    [⟨"request", (·.request.isSome), fun d s => do return { s with request := some (← forceReader d) }, false⟩,
      ⟨"formulation", (·.formulation.isSome),
        fun d s => do return { s with formulation := some (← choice formulations d) }, false⟩,
      ⟨"candidates", (·.candidates.isSome),
        fun d s => do return { s with candidates := some (← list d candidateReader) }, false⟩,
      ⟨"selected", (·.selected.isSome), fun _ s => do return { s with selected := some (← optional natural) }, false⟩]
  record fields ⟨none, none, none, none⟩
    (fun s => do return ⟨← s.request, ← s.formulation, ← s.candidates, s.selected.getD none⟩) depth

def ofText (s : String) : Except Defect (Report Float) := document reader s

end Report

end MagneticBearing
