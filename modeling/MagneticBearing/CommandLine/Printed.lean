/-
  MagneticBearing.CommandLine.Printed — the answers of the program as it prints them.

  Reports and ratings are JSON objects; the candidates' table and the bearing parameters are
  plain text. The means of a log stand by channel, in the order of the channels' names.
-/

import MagneticBearing.CommandLine.Run
import MagneticBearing.Json.Writer
import MagneticBearing.Tables

namespace MagneticBearing

open MagneticBearing.Json

def realValue (x : Float) : Value := .number (.real x)

def Poles.toJson (x : Poles Float) : Value := .list (x.toList.map realValue)

def Force.toJson (f : Force Float) : Value :=
  .object [("direction_deg", realValue f.direction), ("magnitude", realValue f.magnitude)]

def Formulation.name : Formulation → String
  | .imaginaryFirst => "imaginary_first"
  | .realFirst => "real_first"

def CandidateReport.toJson (c : CandidateReport Float) : Value :=
  .object [("space_vector", .list [realValue c.vector.re, realValue c.vector.im]),
    ("control", c.control.toJson), ("total_field", c.totalField.toJson), ("force", c.force.toJson),
    ("saturated", .bool c.saturated)]

def Report.toJson (r : Report Float) : Value :=
  .object [("request", r.request.toJson), ("formulation", .text r.formulation.name),
    ("candidates", .list (r.candidates.map CandidateReport.toJson)),
    ("selected", (r.selected.map fun i => Value.number (.whole false i)).getD .null)]

namespace CommandLine.Output

def meansToJson (means : List Float) : Value :=
  .object ((SensorLog.channels.zip means).foldl (fun es c => insertByName c.1 (realValue c.2) es) [])

def printed : Output → String
  | .currents request i ampereTurns =>
    (Value.object [("request", request.toJson), ("currents", i.toJson),
      ("ampere_turns", .bool ampereTurns)]).render 0 ++ "\n"
  | .force f => f.toJson.render 0 ++ "\n"
  | .report r => r.toJson.render 0 ++ "\n"
  | .table r => r.table ++ "\n"
  | .rating direction largest bound =>
    (Value.object [("direction_deg", realValue direction), ("max_force", realValue largest),
      ("hexagon_bound", realValue bound)]).render 0 ++ "\n"
  | .params b => b.table
  | .averages means => (Value.object (means.map fun m => (m.1, meansToJson m.2))).render 0 ++ "\n"

end CommandLine.Output

end MagneticBearing
