/-
  MagneticBearing.Bench.Drive — the command set of the bearing drive.

  The radial stage is three phases under `cramb`, the axial stage single coils under
  `cramb_axial`. The board takes whole millionths and thousandths, cut toward zero and held to 64
  bits. Zeroing a stage takes its current to zero, its regulators off and its voltages to
  zero, in this order; a stage changes its inverter only after it was zeroed. Putting the drive
  away zeroes the radial stage.
-/

import MagneticBearing.Bench.Link

namespace MagneticBearing.Bench.Drive

open MagneticBearing.Number (Numeral)
open MagneticBearing.Text

variable {K : Type} [Scalar K]

def micro (x : K) : Int := Scalar.toWhole (x * 1000000.0)

def milli (x : K) : Int := Scalar.toWhole (x * 1000.0)

/-- A command: the stage, the verb, and whole numbers after it. -/
def order (stage : Stage) (verb : String) (numbers : List Int) : String :=
  let unit := match stage with
    | .radial => "cramb"
    | .axial => "cramb_axial"
  " ".intercalate (unit :: verb :: numbers.map toString)

def issue (stage : Stage) (verb : String) (numbers : List Int) : BenchM K (List String) :=
  Link.command (order stage verb numbers)

/-- The inverters wired to a stage, counted from one as on the board. -/
def wired : Stage → List Nat
  | .radial => [5, 6]
  | .axial => [1, 2, 3, 4]

/-! ## Answers that are numbers -/

/-- The number in a line of a response. -/
def numberIn (command : String) (response : List String) (line : Nat) : Except (LinkError K) K :=
  match response[line]? with
  | none => .error (.unexpectedResponse command (.tooShort (line + 1) response.length))
  | some text =>
    match Numeral.read? (trim text) with
    | none => .error (.unexpectedResponse command (.notNumber line text))
    | some n => .ok (Scalar.ofNumeral n)

/-- The numbers in the lines of a response; its first line echoes the command. -/
def readNumbers (stage : Stage) (verb : String) (lines : List Nat) : BenchM K (List K) := do
  let response ← issue stage verb []
  lines.mapM fun line => (numberIn (order stage verb []) response line : Except (LinkError K) K)

/-! ## Both stages -/

def regulatorsOn (stage : Stage) : BenchM K (List String) := issue stage "init_cc" []

def regulatorsOff (stage : Stage) : BenchM K (List String) := issue stage "deinit_cc" []

/-- The voltage of the bus. -/
def setBus (stage : Stage) (volts : K) : BenchM K (List String) := issue stage "set_vdc" [milli volts]

/-- Regulator gains from coil resistance, inductance and bandwidth. -/
def setGains (stage : Stage) (resistance inductance bandwidth : K) : BenchM K (List String) :=
  issue stage "set_cc_gains" [milli resistance, micro inductance, Scalar.toWhole bandwidth]

/-! ## The radial stage -/

/-- The first two phase currents; the third follows from their zero sum. -/
def setCurrents (i1 i2 : K) : BenchM K (List String) := issue .radial "set_currents" [micro i1, micro i2]

/-- Voltages from the negative rail. -/
def poleVolts (va vb vc : K) : BenchM K (List String) :=
  issue .radial "pole_volts" [micro va, micro vb, micro vc]

/-- Voltages from the middle of the bus. -/
def phaseVolts (va vb vc : K) : BenchM K (List String) :=
  issue .radial "phase_volts" [micro va, micro vb, micro vc]

def readAdc : BenchM K (List K) := readNumbers .radial "read_adc" [1, 2, 3]

def readCurrents : BenchM K (List K) := readNumbers .radial "read_currents" [1, 2, 3]

def resetPwm : BenchM K (List String) := issue .radial "pwm_reset" []

/-! ## The axial stage -/

def axialCurrent (i : K) : BenchM K (List String) := issue .axial "set_current" [micro i]

def axialPoleVolts (va vb : K) : BenchM K (List String) := issue .axial "pole_volts" [micro va, micro vb]

def axialVoltage (v : K) : BenchM K (List String) := issue .axial "set_volts" [micro v]

def axialReadAdc : BenchM K (List K) := readNumbers .axial "read_adc" [1]

def axialReadCurrent : BenchM K (List K) := readNumbers .axial "read_current" [1]

/-! ## Safe states -/

/-- No current, regulators off, no voltage. -/
def zero : Stage → BenchM K Unit
  | .radial => do
    let _ ← setCurrents (0.0 : K) 0.0
    let _ ← regulatorsOff (K := K) .radial
    let _ ← poleVolts (0.0 : K) 0.0 0.0
  | .axial => do
    let _ ← axialCurrent (0.0 : K)
    let _ ← regulatorsOff (K := K) .axial
    let _ ← axialPoleVolts (0.0 : K) 0.0

/-- Move a stage to another inverter, by the number on the board. -/
def setInverter (stage : Stage) (number : Nat) : BenchM K (List String) := do
  zero stage
  if (wired stage).contains number then issue stage "set_inverter" [(number : Int) - 1]
  else throw (.invalidInverter number stage)

/-- What putting the drive away does. -/
def drop : BenchM K Unit := BenchM.recover (zero .radial) fun e => BenchM.notify (.dropFailed e)

/-! ## Forces -/

/-- Command the phase currents that produce a force, and return all three. Nothing is sent for a
force that cannot be allocated. -/
def applyForce (a : Allocator K) (direction magnitude : K) : BenchM K (Poles K) := do
  if a.singular direction magnitude then BenchM.notify (.singularAxis direction)
  match a.controlCurrents direction magnitude .amps true with
  | .error e => throw (.allocation e)
  | .ok i =>
    BenchM.notify (.forceApplied direction magnitude i)
    let _ ← setCurrents i.p1 i.p2
    return i

end MagneticBearing.Bench.Drive
