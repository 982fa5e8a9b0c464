/-
  MagneticBearing.Proofs.Unpowered — what is left switched on when the drive is put away.

  A stage is unpowered by a stream of orders if the last one that sets its current, its regulators or its
  voltage leaves each of them off. Zeroing a stage does that behind any orders (`unpowered_zeroed`), and says
  nothing of the other stage (`unpowered_other`). Putting the drive away zeroes the radial stage alone.

  - `drop_leaves`: after any calls the radial stage is unpowered; the axial stage is if and only if the calls
    had left it so, for instance by zeroing it last.
  - `a_coil_stays_on`: an axial current is still commanded after the drive was put away.
-/

import MagneticBearing.Proofs.Transmission

namespace MagneticBearing.Bench

/-! ## Orders -/

/-- A command of the drive as the board reads it. -/
structure Order where
  stage : Stage
  verb : String
  numbers : List Int
  deriving DecidableEq, Repr

/-- What an order can switch on. -/
inductive Quantity where
  | current
  | regulators
  | voltage
  deriving DecidableEq, Repr

namespace Order

def frame (o : Order) : List UInt8 := Link.frame (Drive.order o.stage o.verb o.numbers)

/-- What the order sets, if it is something that can be on. -/
def sets? (o : Order) : Option Quantity :=
  if o.verb ∈ ["set_currents", "set_current"] then some .current
  else if o.verb ∈ ["init_cc", "deinit_cc"] then some .regulators
  else if o.verb ∈ ["pole_volts", "phase_volts", "set_volts"] then some .voltage
  else none

/-- The order leaves off what it sets: nothing but zeros, and regulators not enabled. -/
def Off (o : Order) : Prop := o.verb ≠ "init_cc" ∧ ∀ n ∈ o.numbers, n = 0

instance (o : Order) : Decidable o.Off := inferInstanceAs (Decidable (_ ∧ ∀ n ∈ o.numbers, n = 0))

end Order

/-- The last order that sets this quantity of a stage. -/
def lastOrder (stage : Stage) (q : Quantity) (stream : List Order) : Option Order :=
  (stream.filter fun o => o.stage = stage ∧ o.sets? = some q).getLast?

/-- Whatever was set of the stage, it was set to off in the end. -/
def Unpowered (stage : Stage) (stream : List Order) : Prop :=
  ∀ q, ∀ o ∈ lastOrder stage q stream, o.Off

theorem lastOrder_append (stage : Stage) (q : Quantity) (earlier later : List Order) :
    lastOrder stage q (earlier ++ later) = (lastOrder stage q later).or (lastOrder stage q earlier) := by
  unfold lastOrder
  rw [List.filter_append, List.getLast?_append]

/-! ## Zeroing -/

/-- The orders that take a stage to its safe state. -/
def zeroOrders : Stage → List Order
  | .radial => [⟨.radial, "set_currents", [0, 0]⟩, ⟨.radial, "deinit_cc", []⟩, ⟨.radial, "pole_volts", [0, 0, 0]⟩]
  | .axial => [⟨.axial, "set_current", [0]⟩, ⟨.axial, "deinit_cc", []⟩, ⟨.axial, "pole_volts", [0, 0]⟩]

theorem zeroOrders_frames (stage : Stage) :
    (zeroOrders stage).flatMap Order.frame = (Drive.zeroing stage).flatMap Link.frame := by
  cases stage <;> rfl

/-- Zeroing sets every quantity of the stage, and to off. -/
theorem lastOrder_zeroOrders (stage : Stage) (q : Quantity) :
    ∃ o, lastOrder stage q (zeroOrders stage) = some o ∧ o.Off := by
  cases stage <;> cases q <;> exact ⟨_, rfl, by decide⟩

theorem lastOrder_other {stage other : Stage} (h : other ≠ stage) (q : Quantity) :
    lastOrder stage q (zeroOrders other) = none := by
  cases stage <;> cases other <;> cases q <;> first | rfl | exact absurd rfl h

theorem unpowered_zeroed (stage : Stage) (earlier : List Order) : Unpowered stage (earlier ++ zeroOrders stage) := by
  intro q o ho
  obtain ⟨last, hlast, hoff⟩ := lastOrder_zeroOrders stage q
  rw [lastOrder_append, hlast, Option.some_or, Option.mem_some_iff] at ho
  exact ho ▸ hoff

theorem unpowered_other {stage other : Stage} (h : other ≠ stage) (earlier : List Order) :
    Unpowered stage (earlier ++ zeroOrders other) ↔ Unpowered stage earlier := by
  unfold Unpowered
  simp only [lastOrder_append, lastOrder_other h, Option.none_or]

/-! ## Calls -/

namespace Drive

/-- A call of the drive's own commands. -/
inductive Call where
  | zero (stage : Stage)
  | regulatorsOn (stage : Stage)
  | regulatorsOff (stage : Stage)
  | setBus (stage : Stage) (volts : Float)
  | setGains (stage : Stage) (resistance inductance bandwidth : Float)
  | setInverter (stage : Stage) (number : Nat)
  | setCurrents (i1 i2 : Float)
  | poleVolts (va vb vc : Float)
  | phaseVolts (va vb vc : Float)
  | readAdc
  | readCurrents
  | resetPwm
  | applyForce (a : Allocator Float) (direction magnitude : Float)
  | axialCurrent (i : Float)
  | axialPoleVolts (va vb : Float)
  | axialVoltage (v : Float)
  | axialReadAdc
  | axialReadCurrent

/-- The session after a call, whatever the call was answered. -/
def Call.perform (c : Call) (s : Session Float) : Session Float :=
  match c with
  | .zero stage => (Drive.zero stage s).2
  | .regulatorsOn stage => (Drive.regulatorsOn stage s).2
  | .regulatorsOff stage => (Drive.regulatorsOff stage s).2
  | .setBus stage volts => (Drive.setBus stage volts s).2
  | .setGains stage resistance inductance bandwidth => (Drive.setGains stage resistance inductance bandwidth s).2
  | .setInverter stage number => (Drive.setInverter stage number s).2
  | .setCurrents i1 i2 => (Drive.setCurrents i1 i2 s).2
  | .poleVolts va vb vc => (Drive.poleVolts va vb vc s).2
  | .phaseVolts va vb vc => (Drive.phaseVolts va vb vc s).2
  | .readAdc => (Drive.readAdc s).2
  | .readCurrents => (Drive.readCurrents s).2
  | .resetPwm => (Drive.resetPwm s).2
  | .applyForce a direction magnitude => (Drive.applyForce a direction magnitude s).2
  | .axialCurrent i => (Drive.axialCurrent i s).2
  | .axialPoleVolts va vb => (Drive.axialPoleVolts va vb s).2
  | .axialVoltage v => (Drive.axialVoltage v s).2
  | .axialReadAdc => (Drive.axialReadAdc s).2
  | .axialReadCurrent => (Drive.axialReadCurrent s).2

/-- What a force orders: its first two currents, if it can be allocated. -/
def forceOrders (a : Allocator Float) (direction magnitude : Float) : List Order :=
  match a.controlCurrents direction magnitude .amps true with
  | .ok i => [⟨.radial, "set_currents", [micro i.p1, micro i.p2]⟩]
  | .error _ => []

/-- What a call orders. -/
def Call.orders : Call → List Order
  | .zero stage => zeroOrders stage
  | .regulatorsOn stage => [⟨stage, "init_cc", []⟩]
  | .regulatorsOff stage => [⟨stage, "deinit_cc", []⟩]
  | .setBus stage volts => [⟨stage, "set_vdc", [milli volts]⟩]
  | .setGains stage resistance inductance bandwidth =>
    [⟨stage, "set_cc_gains", [milli resistance, micro inductance, Scalar.toWhole bandwidth]⟩]
  | .setInverter stage number =>
    zeroOrders stage ++ if (wired stage).contains number then [⟨stage, "set_inverter", [(number : Int) - 1]⟩] else []
  | .setCurrents i1 i2 => [⟨.radial, "set_currents", [micro i1, micro i2]⟩]
  | .poleVolts va vb vc => [⟨.radial, "pole_volts", [micro va, micro vb, micro vc]⟩]
  | .phaseVolts va vb vc => [⟨.radial, "phase_volts", [micro va, micro vb, micro vc]⟩]
  | .readAdc => [⟨.radial, "read_adc", []⟩]
  | .readCurrents => [⟨.radial, "read_currents", []⟩]
  | .resetPwm => [⟨.radial, "pwm_reset", []⟩]
  | .applyForce a direction magnitude => forceOrders a direction magnitude
  | .axialCurrent i => [⟨.axial, "set_current", [micro i]⟩]
  | .axialPoleVolts va vb => [⟨.axial, "pole_volts", [micro va, micro vb]⟩]
  | .axialVoltage v => [⟨.axial, "set_volts", [micro v]⟩]
  | .axialReadAdc => [⟨.axial, "read_adc", []⟩]
  | .axialReadCurrent => [⟨.axial, "read_current", []⟩]

theorem transmits_setInverter (stage : Stage) (number : Nat) :
    Transmits (setInverter stage number : BenchM Float (List String)) ((Call.setInverter stage number).orders.flatMap Order.frame)
      (fun _ => True) := by
  unfold setInverter Call.orders
  rw [List.flatMap_append, zeroOrders_frames]
  refine (transmits_zero stage).bind fun _ => ?_
  split
  · rw [List.flatMap_singleton]
    exact (transmits_issue stage "set_inverter" [(number : Int) - 1]).mono fun _ _ => trivial
  · exact (transmits_throw _).mono fun _ _ => trivial

theorem forceOrders_frames (a : Allocator Float) (direction magnitude : Float) :
    (forceOrders a direction magnitude).flatMap Order.frame = forceFrame a direction magnitude := by
  unfold forceFrame forceOrders
  cases a.controlCurrents direction magnitude .amps true with
  | error e => rfl
  | ok i => simp only [List.flatMap_singleton, Order.frame, order_setCurrents]

/-- A call puts its orders on the wire. -/
theorem perform_calm (c : Call) {s : Session Float} (h : s.Calm) :
    (c.perform s).Calm ∧ (c.perform s).port.transmitted = s.port.transmitted ++ c.orders.flatMap Order.frame := by
  have hof {α : Type} {x : BenchM Float α} {sent : List UInt8} {post : Except (LinkError Float) α → Prop}
      (hx : Transmits x sent post) (hsent : sent = c.orders.flatMap Order.frame) :
      (x s).2.Calm ∧ (x s).2.port.transmitted = s.port.transmitted ++ c.orders.flatMap Order.frame := by
    obtain ⟨hcalm, hwire, -⟩ := hx s h
    exact ⟨hcalm, hsent ▸ hwire⟩
  cases c with
  | zero stage => exact hof (transmits_zero stage) (zeroOrders_frames stage).symm
  | setInverter stage number => exact hof (transmits_setInverter stage number) rfl
  | applyForce a direction magnitude =>
    exact hof (transmits_applyForce a direction magnitude) (forceOrders_frames a direction magnitude).symm
  | readAdc | readCurrents | axialReadAdc | axialReadCurrent =>
    exact hof (transmits_readNumbers _ _ _) (List.flatMap_singleton _ _).symm
  | regulatorsOn stage | regulatorsOff stage | setBus stage volts | setGains stage resistance inductance bandwidth
  | setCurrents i1 i2 | poleVolts va vb vc | phaseVolts va vb vc | resetPwm | axialCurrent i | axialPoleVolts va vb
  | axialVoltage v =>
    exact hof (transmits_issue _ _ _) (List.flatMap_singleton _ _).symm

/-- The session after these calls and after the drive was put away. -/
def putAway (calls : List Call) (s : Session Float) : Session Float := (drop (calls.foldl (fun s c => c.perform s) s)).2

/-- What is ordered by these calls and by putting the drive away. -/
def ordered (calls : List Call) : List Order := calls.flatMap Call.orders ++ zeroOrders .radial

theorem performed_calm (calls : List Call) {s : Session Float} (h : s.Calm) :
    (calls.foldl (fun s c => c.perform s) s).Calm ∧
      (calls.foldl (fun s c => c.perform s) s).port.transmitted =
        s.port.transmitted ++ (calls.flatMap Call.orders).flatMap Order.frame := by
  induction calls generalizing s with
  | nil => exact ⟨h, (List.append_nil _).symm⟩
  | cons c calls ih =>
    obtain ⟨hcalm, hsent⟩ := perform_calm c h
    obtain ⟨hcalm', hsent'⟩ := ih hcalm
    refine ⟨hcalm', hsent'.trans ?_⟩
    rw [hsent, List.flatMap_cons, List.flatMap_append, List.append_assoc]

theorem putAway_transmitted (calls : List Call) {s : Session Float} (h : s.Calm) :
    (putAway calls s).port.transmitted = s.port.transmitted ++ (ordered calls).flatMap Order.frame := by
  obtain ⟨hcalm, hsent⟩ := performed_calm calls h
  obtain ⟨-, hdrop, -⟩ := transmits_drop _ hcalm
  rw [putAway, hdrop, hsent, ordered, List.flatMap_append, zeroOrders_frames, List.append_assoc]

/-- Whatever calls were made, putting the drive away leaves the radial stage unpowered. It says nothing to the
axial stage, which is left unpowered if and only if the calls had left it so; zeroing it last does. -/
theorem drop_leaves (calls : List Call) {s : Session Float} (h : s.Calm) :
    (putAway calls s).port.transmitted = s.port.transmitted ++ (ordered calls).flatMap Order.frame ∧
      Unpowered .radial (ordered calls) ∧
      (Unpowered .axial (ordered calls) ↔ Unpowered .axial (calls.flatMap Call.orders)) ∧
      Unpowered .axial (ordered (calls ++ [.zero .axial])) := by
  have haxial (calls : List Call) : Unpowered .axial (ordered calls) ↔ Unpowered .axial (calls.flatMap Call.orders) :=
    unpowered_other (by decide) _
  refine ⟨putAway_transmitted calls h, unpowered_zeroed .radial _, haxial calls, (haxial _).mpr ?_⟩
  rw [List.flatMap_append, List.flatMap_singleton]
  exact unpowered_zeroed .axial _

/-- Both stages were on, and the axial one was zeroed before the drive was put away. -/
theorem drop_leaves_both_off :
    let calls : List Call := [.regulatorsOn .axial, .axialCurrent 1.5, .regulatorsOn .radial, .setCurrents 0.5 (-0.25),
      .phaseVolts 12.0 0.0 (-12.0), .zero .axial]
    let s := Link.bringing (Link.bytes "ok\r\n" ++ [Link.late])
    s.Calm ∧ Unpowered .radial (ordered calls) ∧ Unpowered .axial (ordered calls) := by
  intro calls s
  have hs : s.Calm := bringing_calm (by decide +kernel)
  exact ⟨hs, (drop_leaves calls hs).2.1, (drop_leaves calls.dropLast hs).2.2.2⟩

/-- One call commands an axial current, and it is still commanded after the drive was put away. -/
theorem a_coil_stays_on :
    let s := Link.bringing []
    s.Calm ∧
      (putAway [.axialCurrent 1.5] s).port.transmitted =
        ["cramb_axial set_current 1500000", "cramb set_currents 0 0", "cramb deinit_cc", "cramb pole_volts 0 0 0"].flatMap
          Link.frame ∧
      lastOrder .axial .current (ordered [.axialCurrent 1.5]) = some ⟨.axial, "set_current", [1500000]⟩ ∧
      ¬ Unpowered .axial (ordered [.axialCurrent 1.5]) := by
  intro s
  have hs : s.Calm := bringing_calm (by simp)
  have hmicro : micro (1.5 : Float) = 1500000 := by decide +kernel
  have hlast : lastOrder .axial .current (ordered [.axialCurrent 1.5]) = some ⟨.axial, "set_current", [1500000]⟩ := by
    rw [← hmicro]
    rfl
  refine ⟨hs, (putAway_transmitted _ hs).trans ?_, hlast, fun h => ?_⟩
  · have hordered : ordered [.axialCurrent 1.5] = ⟨.axial, "set_current", [1500000]⟩ :: zeroOrders .radial := by
      rw [← hmicro]
      rfl
    rw [hordered]
    rfl
  · have hoff := h .current _ hlast
    revert hoff
    decide

end Drive

end MagneticBearing.Bench
