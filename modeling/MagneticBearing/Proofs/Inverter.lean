/-
  MagneticBearing.Proofs.Inverter — no inverter is switched while its stage has power, whatever the port does.

  A stage is zeroed first, and each of the three commands of zeroing waits for its response. A fault in any of
  them, at any byte or in any read, ends the whole action there (`attempts_inTurn`). So the first byte of the
  switch comes behind all three commands and their responses, and comes only for an inverter that is wired to
  the stage.

  - `inTurn_isOk_iff`: commands in turn succeed if each of them is answered.
  - `inverter_switched_unpowered`: what is sent by the end, and with which answer.
-/

import MagneticBearing.Proofs.AnyPort
import MagneticBearing.Proofs.Transmission

namespace MagneticBearing.Bench

variable {K : Type}

namespace Link

/-! ## Commands in turn -/

/-- Each of these commands in turn is answered without a fault. -/
def AllAnswered (texts : List String) (s : Session K) : Prop :=
  ∀ before text behind, texts = before ++ text :: behind → (answerTo text (after before s)).isOk = true

theorem allAnswered_cons {text : String} {texts : List String} {s : Session K} :
    AllAnswered (text :: texts) s ↔ (answerTo text s).isOk = true ∧ AllAnswered texts (after [text] s) := by
  constructor
  · intro h
    refine ⟨h [] text texts rfl, fun before next behind htexts => ?_⟩
    rw [← after_cons]
    exact h (text :: before) next behind (by rw [htexts]; rfl)
  · rintro ⟨hfirst, hrest⟩ before next behind htexts
    cases before with
    | nil =>
      cases htexts
      exact hfirst
    | cons first before =>
      cases htexts
      rw [after_cons]
      exact hrest before next behind rfl

theorem inTurn_isOk_iff (texts : List String) (s : Session K) :
    ((inTurn texts : BenchM K Unit) s).1.isOk = true ↔ AllAnswered texts s := by
  induction texts generalizing s with
  | nil =>
    refine ⟨fun _ before text behind h => ?_, fun _ => rfl⟩
    simp at h
  | cons text texts ih =>
    rw [allAnswered_cons, inTurn_cons, ← ih]
    cases answerTo text s with
    | error e => simp [Except.isOk, Except.toBool]
    | ok lines => simp [Except.isOk, Except.toBool]

theorem attempts_inTurn (texts : List String) (s : Session K) :
    Attempts (inTurn texts) s (texts.flatMap (exchange s.settings.allowedEmptyReads)) := by
  induction texts generalizing s with
  | nil => exact attempts_pure () s
  | cons text texts ih =>
    refine (attempts_command text s).bind fun _ t _ hsettings => ?_
    rw [← hsettings]
    exact ih t

theorem exchanges_sent (patience : Nat) (texts : List String) :
    (texts.flatMap (exchange patience)).filterMap Action.byte? = texts.flatMap frame := by
  induction texts with
  | nil => rfl
  | cons text texts ih =>
    rw [List.flatMap_cons, List.flatMap_cons, List.filterMap_append, exchange_sent, ih]

end Link

/-! ## The switch -/

namespace Drive

open Link

/-- The command that moves a stage to an inverter. The board counts from zero. -/
def switching (stage : Stage) (number : Nat) : String :=
  (match stage with | .radial => "cramb" | .axial => "cramb_axial") ++ " set_inverter " ++ toString (number - 1)

theorem order_switching {stage : Stage} {number : Nat} (h : number ∈ wired stage) :
    order stage "set_inverter" [(number : Int) - 1] = switching stage number := by
  have hpos : number ≠ 0 := by
    rintro rfl
    cases stage <;> simp [wired] at h
  obtain ⟨n, rfl⟩ := Nat.exists_eq_succ_of_ne_zero hpos
  have hpred : ((n.succ : Nat) : Int) - 1 = (n : Int) := by omega
  have hint : toString (n : Int) = toString n := rfl
  rw [hpred]
  cases stage <;> simp [order, switching, hint, ← String.append_assoc]

section Switch

variable {stage : Stage} {number : Nat} {s t : Session Float}

theorem setInverter_error {e : LinkError Float} (h : zero stage s = (.error e, t)) :
    setInverter stage number s = (.error e, t) := by
  simp only [setInverter, BenchM.bind_apply, h]

theorem setInverter_zeroed (h : zero stage s = (.ok (), t)) :
    setInverter stage number s =
      if number ∈ wired stage then command (switching stage number) t
      else (.error (.invalidInverter number stage), t) := by
  simp only [setInverter, BenchM.bind_apply, h, List.contains_iff_mem]
  split
  · rename_i hwired
    rw [issue, order_switching hwired]
  · rfl

/-- What is done on the port comes to an end within the zeroing, or goes on to the switch of a wired inverter. -/
theorem setInverter_did (stage : Stage) (number : Nat) (s : Session Float) :
    let zeroed := (zeroing stage).flatMap (exchange s.settings.allowedEmptyReads)
    let switched := exchange s.settings.allowedEmptyReads (switching stage number)
    ∃ did, s.Did (setInverter stage number s).2 did ∧
      ((setInverter stage number s).1.isOk = true → did = zeroed ++ switched) ∧
      (Done zeroed did ∨
        ∃ more, did = zeroed ++ more ∧ Done switched more ∧ number ∈ wired stage ∧ AllAnswered (zeroing stage) s) := by
  intro zeroed switched
  have hanswered := inTurn_isOk_iff (zeroing stage) s
  obtain ⟨did, hdid, hdone, hall⟩ := attempts_inTurn (zeroing stage) s
  rw [← zero_eq] at hanswered hdid hall
  rcases hzero : zero stage s with ⟨e | _, t⟩
  · rw [hzero] at hdid
    rw [setInverter_error hzero]
    exact ⟨did, hdid, fun hok => (by cases hok), .inl hdone⟩
  · rw [hzero] at hanswered hdid hall
    obtain rfl : did = zeroed := hall rfl
    rw [setInverter_zeroed hzero]
    split
    · rename_i hwired
      obtain ⟨more, hmore, hdone', hall'⟩ := attempts_command (switching stage number) t
      rw [hdid.settings] at hdone' hall'
      refine ⟨zeroed ++ more, hdid.trans hmore, fun hok => by rw [hall' hok], .inr ⟨more, rfl, hdone', hwired, ?_⟩⟩
      exact hanswered.mp rfl
    · exact ⟨zeroed, hdid, fun hok => (by cases hok), .inl hdone⟩

end Switch

/-- Whatever fails on the port, a byte of the switch is sent only behind the three commands of zeroing, sent whole
and each answered, and only for an inverter that is wired to the stage. Any other inverter is refused once the stage
is zeroed, and a zeroing that fails is the answer for every inverter. -/
theorem inverter_switched_unpowered (stage : Stage) (number : Nat) (s : Session Float) :
    let k := s.settings.allowedEmptyReads
    let zeroed := (zeroing stage).flatMap (exchange k)
    let switched := exchange k (switching stage number)
    let z := (zero stage : BenchM Float Unit) s
    let r := (setInverter stage number : BenchM Float (List String)) s
    (∃ did, s.Did r.2 did ∧ (r.1.isOk = true → did = zeroed ++ switched) ∧
      (Done zeroed did ∨
        ∃ more, did = zeroed ++ more ∧ Done switched more ∧ number ∈ wired stage ∧ AllAnswered (zeroing stage) s)) ∧
    (∃ sent, r.2.port.transmitted = s.port.transmitted ++ sent ∧
      (sent <+: (zeroing stage).flatMap frame ∨
        ∃ part, sent = (zeroing stage).flatMap frame ++ part ∧ part <+: frame (switching stage number) ∧
          number ∈ wired stage ∧ AllAnswered (zeroing stage) s)) ∧
    (∃ did, s.Did z.2 did ∧ Done zeroed did) ∧ (z.1.isOk = true ↔ AllAnswered (zeroing stage) s) ∧
    (∀ e, z.1 = .error e → r = (.error e, z.2)) ∧
    (z.1 = .ok () → r =
      if number ∈ wired stage then command (switching stage number) z.2
      else (.error (.invalidInverter number stage), z.2)) := by
  intro k zeroed switched z r
  obtain ⟨did, hdid, hall, hend⟩ := setInverter_did stage number s
  have hsent : zeroed.filterMap Action.byte? = (zeroing stage).flatMap frame := exchanges_sent k (zeroing stage)
  refine ⟨⟨did, hdid, hall, hend⟩, ⟨did.filterMap Action.byte?, hdid.transmitted, ?_⟩, ?_, ?_, ?_, ?_⟩
  · rw [← hsent]
    obtain hdone | ⟨more, rfl, hdone, hwired, hanswered⟩ := hend
    · exact .inl hdone.sent
    · refine .inr ⟨more.filterMap Action.byte?, List.filterMap_append, ?_, hwired, hanswered⟩
      rw [← exchange_sent k]
      exact hdone.sent
  · obtain ⟨zdid, hzdid, hzdone, -⟩ := attempts_inTurn (zeroing stage) s
    rw [← zero_eq] at hzdid
    exact ⟨zdid, hzdid, hzdone⟩
  · rw [← inTurn_isOk_iff, ← zero_eq]
  · intro e he
    exact setInverter_error (Prod.ext he rfl)
  · intro hok
    exact setInverter_zeroed (Prod.ext hok rfl)

/-- A board that says nothing is switched to inverter 5, which is 4 to it. Inverter 7 is not on the stage. -/
theorem inverter_switched_unpowered_silent :
    let s := bringing []
    AllAnswered (zeroing .radial) s ∧
      (setInverter .radial 5 s).2.port.transmitted = (zeroing .radial).flatMap frame ++ frame "cramb set_inverter 4" ∧
      (setInverter .radial 7 s).1 = .error (.invalidInverter 7 .radial) := by
  intro s
  have hs : s.Calm := bringing_calm (by simp)
  obtain ⟨hcalm, -, hok⟩ := transmits_zero .radial s hs
  have hzero : (zero .radial s).1 = .ok () := by
    rcases hz : (zero .radial s).1 with _ | _
    · rw [hz] at hok
      cases hok
    · rfl
  obtain ⟨⟨did, hdid, hall, -⟩, -, -, hanswered, -, hwired⟩ := inverter_switched_unpowered .radial 5 s
  obtain ⟨-, -, -, -, -, hunwired⟩ := inverter_switched_unpowered .radial 7 s
  have hswitched : (setInverter .radial 5 s).1.isOk = true := by
    have hrun := hwired hzero
    rw [if_pos (by decide)] at hrun
    rw [hrun]
    exact (transmits_command _ _ hcalm).2.2
  refine ⟨hanswered.mp hok, ?_, ?_⟩
  · rw [hdid.transmitted, hall hswitched, List.filterMap_append, exchanges_sent, exchange_sent]
    rfl
  · rw [hunwired hzero, if_neg (by decide)]

end Drive

end MagneticBearing.Bench
