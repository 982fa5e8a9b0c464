/-
  MagneticBearing.SensorLog — mean loads over a force and torque log.

  A log is a header of a fixed number of lines, then rows of a time and six loads. What follows
  a `#` is a comment, and a line that is blank without it is no row. Every row must have seven
  words and its loads must be numbers; the time may be anything. The first row that is not
  so is the error, by its line in the whole file. Lines count from one.
-/

import MagneticBearing.Scalar
import MagneticBearing.Text.Blank

namespace MagneticBearing.SensorLog

open MagneticBearing.Number (Numeral)
open MagneticBearing.Text

inductive LogError where
  | notNumber (line : Nat) (token : String)
  | columnCount (line expected found : Nat)
  | empty (headerLines : Nat)
  deriving DecidableEq, Repr

def LogError.message : LogError → String
  | .notNumber line token => s!"Line {line}: '{token}' is not a number"
  | .columnCount line expected found => s!"Line {line}: expected {expected} columns, found {found}"
  | .empty headerLines => s!"No data rows after the {headerLines}-line header"

def headerLines : Nat := 38

/-- The loads, in the order of their columns. -/
def channels : List String := ["My", "Fz", "Fx", "Fy", "Mx", "Mz"]

/-- The words of a line in front of a comment. -/
def tokens (line : String) : List String :=
  words (String.ofList (line.toList.takeWhile fun c => c != '#'))

variable {K : Type} [Scalar K]

/-- The loads of a row, in the line of this number. -/
def readLoads (line : Nat) : List String → Except LogError (List K)
  | [] => .ok []
  | token :: rest =>
    match Numeral.read? token with
    | none => .error (.notNumber line token)
    | some n => (readLoads line rest).map (Scalar.ofNumeral n :: ·)

/-- The loads of a line, or none if it is no row. -/
def readRow (line : Nat) (text : String) : Except LogError (Option (List K)) :=
  match tokens text with
  | [] => .ok none
  | time :: loads =>
    let found := (time :: loads).length
    if found = channels.length + 1 then (readLoads line loads).map some
    else .error (.columnCount line (channels.length + 1) found)

/-- The rows of the lines, each with its number. -/
def readRows : List (String × Nat) → Except LogError (List (List K))
  | [] => .ok []
  | (text, line) :: rest =>
    match readRow line text with
    | .error e => .error e
    | .ok row => (readRows rest).map (row.toList ++ ·)

def addLoads (sums row : List K) : List K := List.zipWith (· + ·) sums row

/-- The mean of each load over the rows of a log. -/
def average (text : String) (header : Nat) : Except LogError (List K) := do
  let rows ← readRows ((lines text).zipIdx 1 |>.drop header)
  if rows.isEmpty then throw (.empty header)
  let sums := rows.foldl addLoads (channels.map fun _ => 0.0)
  return sums.map (· / Scalar.ofInt rows.length)

end MagneticBearing.SensorLog
