/-
  MagneticBearing.CommandLine.Run — what a command answers, given the files it may read.

  A bearing is read and checked before anything is computed with it. Of several logs the first
  bad one is the answer; the means are given by file name, in the order of the names. No serial
  device can be opened, so what needs the board fails after its files were read.
-/

import MagneticBearing.CommandLine.Command
import MagneticBearing.Documents
import MagneticBearing.Quartic.ClosedForm
import MagneticBearing.Quartic.Companion
import MagneticBearing.Rating
import MagneticBearing.SensorLog
import MagneticBearing.Wording

namespace MagneticBearing.CommandLine

open MagneticBearing.Bench (LinkError)

/-- Why the text of a file cannot be had. -/
inductive FileFault where
  | notFound
  | denied
  | notDirectory
  | isDirectory
  | nameTooLong
  | zeroInName
  | notText
  | other (text : String)
  deriving DecidableEq, Repr

def FileFault.message : FileFault → String
  | .notFound => "No such file or directory (os error 2)"
  | .denied => "Permission denied (os error 13)"
  | .notDirectory => "Not a directory (os error 20)"
  | .isDirectory => "Is a directory (os error 21)"
  | .nameTooLong => "File name too long (os error 36)"
  | .zeroInName => "file name contained an unexpected NUL byte"
  | .notText => "stream did not contain valid UTF-8"
  | .other text => text

/-- The texts of files, by their paths. -/
abbrev Files := String → Except FileFault String

inductive Failure where
  | file (fault : FileFault)
  | json (defect : Json.Defect)
  | allocation (error : AllocationError Float)
  | unrated
  | log (error : SensorLog.LogError)
  | link (error : LinkError Float)

def Failure.message : Failure → String
  | .file fault => "IO error: " ++ fault.message
  | .json _ => "JSON error"
  | .allocation e => e.message
  | .unrated => "rating needs a physical bearing model (\"model\": \"physical\")"
  | .log e => e.message
  | .link e => e.message

inductive Output where
  | currents (request : Force Float) (currents : Poles Float) (ampereTurns : Bool)
  | force (f : Force Float)
  | report (r : Report Float)
  | table (r : Report Float)
  | rating (direction maxForce hexagonBound : Float)
  | params (b : Built Float)
  | averages (means : List (String × List Float))

def readText (files : Files) (path : String) : Except Failure String := (files path).mapError .file

def finder (analytic : Bool) : RootFinder Float := if analytic then Quartic.closedForm else Quartic.companionRoots

namespace Invocation

def built (files : Files) (i : Invocation) : Except Failure (Built Float) := do
  let description ← match i.config with
    | none => pure Description.prototype
    | some path => (Description.ofText (← readText files path)).mapError .json
  description.build.mapError .allocation

def allocator (files : Files) (i : Invocation) : Except Failure (Allocator Float) := do
  return ⟨(← i.built files).bearing, finder i.analytic⟩

def rating (files : Files) (i : Invocation) : Except Failure (Rating Float) := do
  match (← i.built files).rated? with
  | some b => return ⟨b, finder i.analytic⟩
  | none => throw .unrated

end Invocation

/-- Put a value in place by its name; a name given twice stands once, with the later value. -/
def insertByName {α : Type} (name : String) (x : α) : List (String × α) → List (String × α)
  | [] => [(name, x)]
  | (n, y) :: rest =>
    if name < n then (name, x) :: (n, y) :: rest
    else if name = n then (name, x) :: rest
    else (n, y) :: insertByName name x rest

def averageFile (files : Files) (path : String) : Except Failure (List Float) := do
  (SensorLog.average (← readText files path) SensorLog.headerLines).mapError .log

def averageFiles (files : Files) (paths : List String) : Except Failure (List (String × List Float)) :=
  paths.foldlM (fun means path => do return insertByName path (← averageFile files path) means) []

/-- There is no serial device to open. -/
def openPort {α : Type} (name : String) : Except Failure α := .error (.link (.serial name))

def run (files : Files) (i : Invocation) : Except Failure Output := do
  match i.command with
  | .currents direction magnitude ampereTurns check =>
    let a ← i.allocator files
    let unit := if ampereTurns then CurrentUnit.ampereTurns else .amps
    let currents ← (a.controlCurrents direction magnitude unit check).mapError .allocation
    return .currents (Force.inDirection direction magnitude) currents ampereTurns
  | .force i1 i2 i3 =>
    let a ← i.allocator files
    return .force (a.forceFromCurrents ⟨i1, i2, i3⟩)
  | .candidates direction magnitude json =>
    let a ← i.allocator files
    let r ← (a.report direction magnitude).mapError .allocation
    return if json then .report r else .table r
  | .maxForce direction =>
    let r ← i.rating files
    let m ← (r.maxForce direction).mapError .allocation
    return .rating direction m r.bearing.hexagonBound
  | .rated =>
    let r ← i.rating files
    let direction ← r.weakestDirection.mapError .allocation
    let m ← (r.maxForce direction).mapError .allocation
    return .rating direction m r.bearing.hexagonBound
  | .params => return .params (← i.built files)
  | .send port _ => openPort port
  | .queue port file =>
    let _ ← (Bench.Entry.listOfText (← readText files file)).mapError Failure.json
    openPort port
  | .average paths => return .averages (← averageFiles files paths)

end MagneticBearing.CommandLine
