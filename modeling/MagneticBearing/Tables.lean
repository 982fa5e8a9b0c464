/-
  MagneticBearing.Tables — bearing parameters and reports set out in columns.

  A parameter row is a label run out with dots, the value with its fewest digits, and the unit.
  A report row is the space vector and the total field to three places, the force magnitude to
  one, and its direction to one with a star after the selected candidate's.
-/

import MagneticBearing.Bearing.Description
import MagneticBearing.Number.Decimal
import MagneticBearing.Report
import MagneticBearing.Scalar.Running
import MagneticBearing.Text.Layout

namespace MagneticBearing

open MagneticBearing.Number.Decimal (plain fixed)
open MagneticBearing.Text

namespace ParameterTable

structure Row where
  label : String
  value : Float
  unit : String

def line (label value unit : String) : String :=
  "     " ++ label ++ "     " ++ leftIn 10 value ++ centredIn 6 unit ++ "\n"

def header : String := line (leftIn 30 "Property:") "Value:" "Units:"

def Row.text (r : Row) : String := line (padRight 30 (r.label ++ "   ") '.') (plain r.value) r.unit

def render (rows : List Row) : String := header ++ String.join (rows.map Row.text)

end ParameterTable

/-- Rounded to six places, a half away from zero. -/
def toSixPlaces (x : Float) : Float := (x * 1000000.0).round / 1000000.0

def Physical.rows (b : Physical Float) : List ParameterTable.Row :=
  [⟨"Bmax", b.saturationField, "T"⟩,
    ⟨"ζ", toSixPlaces b.biasFraction, "-"⟩,
    ⟨"θ₁", toSixPlaces (Direction.toDegrees b.poleSpan), "°"⟩,
    ⟨"Rotor Radius", b.rotorRadius, "m"⟩,
    ⟨"Air Gap", b.airgap, "m"⟩,
    ⟨"Stator Lamination Length", b.laminationLength, "m"⟩,
    ⟨"Number of Turns", b.turns, "-"⟩]

def CurveFit.rows (b : CurveFit Float) : List ParameterTable.Row :=
  [⟨"C1", b.c1, "N/A"⟩, ⟨"C2", b.c2, "N/A²"⟩, ⟨"Number of Turns", b.turns, "-"⟩]

def Built.table : Built Float → String
  | .physical b => ParameterTable.render b.rows
  | .curveFit b => ParameterTable.render b.rows

namespace Report

def columns (cells : List String) (last : String) : String :=
  String.join (cells.map (centredIn 25)) ++ leftIn 25 last ++ "\n"

def candidateLine (c : CandidateReport Float) (selected : Bool) : String :=
  let vector := fixed 3 c.vector.re ++ " + " ++ fixed 3 c.vector.im ++ "j"
  let field := "[" ++ " ".intercalate (c.totalField.toList.map (fixed 3)) ++ "]"
  let mark := if selected then " *" else ""
  columns [vector, field, fixed 1 c.force.magnitude] (fixed 1 c.force.direction ++ mark)

def requestLine (f : Force Float) : String :=
  "Magnitude = " ++ plain f.magnitude ++ ",  α = " ++ plain f.direction

def table (r : Report Float) : String :=
  "\nInput:\n" ++ centredIn 30 (requestLine r.request) ++ "\n\nOutput:\n" ++
    columns ["Space-Vector:", "Total Field:", "Magnitude:"] "α:" ++
    String.join (r.candidates.zipIdx.map fun c => candidateLine c.1 (r.selected == some c.2))

end Report

end MagneticBearing
