/-
  MagneticBearing.Proofs.Building — which descriptions are built, and what a built bearing divides by.

  A description lists its parameters in the order in which they are checked (`Description.parameters`), and each has a
  range that it must be in (`Parameter.admits`). Building checks them one after another and then derives
  (`build_eq`), so it is refused at the first parameter outside its range, and only there
  (`build_refused`, `build_of_admitted`).

  Over the reals the ranges keep every constant of the built bearing positive, through the correction for
  the tooth, the bias and a fit laid over it (`Built.Positive`). So the bearing derived over numbers of which a quotient
  by zero is undefined is defined (`derived_lift`, `bearing_lifts`), and with it all that is
  computed for it.

  - `build_divides`: what is built divides by nothing that is zero, and what might is not built.
-/

import MagneticBearing.Bearing.Description
import MagneticBearing.Proofs.DefinedRoots
import MagneticBearing.Proofs.Fold
import MagneticBearing.Proofs.Overlay
import MagneticBearing.Proofs.Saturation

namespace MagneticBearing

variable {K : Type} [Scalar K]

/-! ## Which descriptions are built -/

/-- Is the value in the range that the parameter must be in? -/
def Parameter.admits (p : Parameter) (x : K) : Bool :=
  match p with
  | .biasFraction => decide (0.0 < x) && decide (x < 1.0)
  | .poleSpan => decide (0.0 < x) && decide (x < 120.0)
  | _ => Arith.finite x && decide (0.0 < x)

namespace Description

/-- The parameters that building checks, in that order. -/
def parameters : Description K → List (Parameter × K)
  | .physical g fit =>
    [(.saturationField, g.saturationField), (.airgap, g.airgap), (.rotorRadius, g.rotorRadius),
      (.laminationLength, g.laminationLength), (.turns, g.turns), (.biasFraction, g.biasFraction),
      (.poleSpan, g.poleSpan)] ++
    match fit with
    | none => []
    | some (c1, c2) => [(.linearFit, c1), (.quadraticFit, c2)]
  | .curveFit c1 c2 turns => [(.linearFit, c1), (.quadraticFit, c2), (.turns, turns)]

/-- What is built where nothing is refused. -/
def derived : Description K → Built K
  | .physical g none => .physical g.derive
  | .physical g (some (c1, c2)) =>
    let b := g.derive
    .physical { b with k1 := c1 * c1 / (4.0 * b.bias * b.bias * c2), k2 := 2.0 * b.bias * c2 / c1 }
  | .curveFit c1 c2 turns => .curveFit ⟨c1, c2, turns⟩

end Description

/-- The error of the first parameter outside its range. -/
def requireAll : List (Parameter × K) → Except (AllocationError K) Unit
  | [] => .ok ()
  | (p, x) :: rest => bif p.admits x then requireAll rest else .error (.invalidParameter p x)

theorem requireAll_admitted {ps : List (Parameter × K)} (h : ∀ r ∈ ps, r.1.admits r.2 = true) :
    requireAll ps = .ok () := by
  induction ps with
  | nil => rfl
  | cons r ps ih =>
    have hrest := ih fun r hr => h r (List.mem_cons_of_mem _ hr)
    simp [requireAll, h r List.mem_cons_self, hrest]

theorem requireAll_refused {before : List (Parameter × K)} {p : Parameter} {x : K} (after : List (Parameter × K))
    (h : ∀ r ∈ before, r.1.admits r.2 = true) (hbad : p.admits x = false) :
    requireAll (before ++ (p, x) :: after) = .error (.invalidParameter p x) := by
  induction before with
  | nil => simp [requireAll, hbad]
  | cons r before ih =>
    have hrest := ih fun r hr => h r (List.mem_cons_of_mem _ hr)
    simp [requireAll, h r List.mem_cons_self, hrest]

theorem requireAll_append (ps qs : List (Parameter × K)) :
    requireAll (ps ++ qs) = (requireAll ps >>= fun _ => requireAll qs) := by
  induction ps with
  | nil => rfl
  | cons r ps ih =>
    simp only [List.cons_append, requireAll, ih]
    cases r.1.admits r.2 with
    | true => rfl
    | false => rfl

theorem Geometry.check_eq (g : Geometry K) : g.check = requireAll (Description.physical g none).parameters := by
  simp only [check, requirePositive, Description.parameters, List.append_nil, requireAll, Parameter.admits]
  -- A value that is refused ends both sides, so only what is admitted goes on to the next.
  generalize (Arith.finite g.saturationField && decide (0.0 < g.saturationField)) = saturationField
  generalize (Arith.finite g.airgap && decide (0.0 < g.airgap)) = airgap
  generalize (Arith.finite g.rotorRadius && decide (0.0 < g.rotorRadius)) = rotorRadius
  generalize (Arith.finite g.laminationLength && decide (0.0 < g.laminationLength)) = laminationLength
  generalize (Arith.finite g.turns && decide (0.0 < g.turns)) = turns
  generalize (decide (0.0 < g.biasFraction) && decide (g.biasFraction < 1.0)) = biasFraction
  generalize (decide (0.0 < g.poleSpan) && decide (g.poleSpan < 120.0)) = poleSpan
  cases saturationField
  · rfl
  cases airgap
  · rfl
  cases rotorRadius
  · rfl
  cases laminationLength
  · rfl
  cases turns
  · rfl
  cases biasFraction
  · rfl
  cases poleSpan
  · rfl
  rfl

theorem Description.build_eq (d : Description K) : d.build = (requireAll d.parameters).map fun _ => d.derived := by
  cases d with
  | physical g fit =>
    cases fit with
    | none =>
      simp only [build, Physical.build, Geometry.check_eq]
      cases requireAll (physical g none).parameters with
      | error e => rfl
      | ok u => rfl
    | some c =>
      obtain ⟨c1, c2⟩ := c
      have happend : (physical g (some (c1, c2))).parameters =
          (physical g none).parameters ++ [(.linearFit, c1), (.quadraticFit, c2)] := rfl
      simp only [build, Physical.build, Geometry.check_eq, happend, requireAll_append]
      cases requireAll (physical g none).parameters with
      | error e => rfl
      | ok u =>
        simp only [Physical.withFit, requirePositive, requireAll, Parameter.admits]
        generalize (Arith.finite c1 && decide (0.0 < c1)) = linear
        generalize (Arith.finite c2 && decide (0.0 < c2)) = quadratic
        cases linear
        · rfl
        cases quadratic
        · rfl
        rfl
  | curveFit c1 c2 turns =>
    simp only [build, CurveFit.build, requirePositive, parameters, requireAll, Parameter.admits]
    generalize (Arith.finite c1 && decide (0.0 < c1)) = linear
    generalize (Arith.finite c2 && decide (0.0 < c2)) = quadratic
    generalize (Arith.finite turns && decide (0.0 < turns)) = turnsIn
    cases linear
    · rfl
    cases quadratic
    · rfl
    cases turnsIn
    · rfl
    rfl

namespace Description

variable {d : Description K}

theorem build_of_admitted (h : ∀ r ∈ d.parameters, r.1.admits r.2 = true) : d.build = .ok d.derived := by
  rw [build_eq, requireAll_admitted h]
  rfl

theorem build_refused {before after : List (Parameter × K)} {p : Parameter} {x : K}
    (hd : d.parameters = before ++ (p, x) :: after) (h : ∀ r ∈ before, r.1.admits r.2 = true)
    (hbad : p.admits x = false) : d.build = .error (.invalidParameter p x) := by
  rw [build_eq, hd, requireAll_refused after h hbad]
  rfl

theorem admitted_or_refused (ps : List (Parameter × K)) :
    (∀ r ∈ ps, r.1.admits r.2 = true) ∨
      ∃ before p x after, ps = before ++ (p, x) :: after ∧ (∀ r ∈ before, r.1.admits r.2 = true) ∧
        p.admits x = false := by
  rcases forall_or_first (fun r : Parameter × K => r.1.admits r.2 = true) ps with
    hall | ⟨before, r, after, hps, hbefore, hr⟩
  · exact .inl hall
  · exact .inr ⟨before, r.1, r.2, after, hps, hbefore, by simpa using hr⟩

theorem admitted_of_build {b : Built K} (h : d.build = .ok b) :
    (∀ r ∈ d.parameters, r.1.admits r.2 = true) ∧ b = d.derived := by
  rcases admitted_or_refused d.parameters with hall | ⟨before, p, x, after, hd, hbefore, hbad⟩
  · rw [build_of_admitted hall] at h
    cases h
    exact ⟨hall, rfl⟩
  · rw [build_refused hd hbefore hbad] at h
    cases h

end Description

/-! ## Positive constants -/

structure Built.Positive (b : Built ℝ) : Prop where
  quadratic : 0 < b.bearing.law.quadratic
  linear : 0 < b.bearing.law.linear
  ampsPerUnit : 0 < b.bearing.ampsPerUnit
  turns : 0 < b.bearing.turns
  rated : ∀ r, b.rated? = some r → 0 < r.bias ∧ r.bias < r.limit ∧ 0 < r.hexagonBound

theorem Physical.Sound.positive {b : Physical ℝ} (h : b.Sound) : (Built.physical b).Positive where
  quadratic := h.k1_pos
  linear := h.linear_pos
  ampsPerUnit := Physical.ampsPerUnit_pos h
  turns := h.turns_pos
  rated := by
    intro r hr
    cases hr
    exact ⟨h.bias_pos, h.bias_lt, Physical.hexagonBound_pos h⟩

theorem Description.build_positive {d : Description ℝ} {b : Built ℝ} (h : d.build = .ok b) : b.Positive := by
  cases d with
  | physical g fit =>
    obtain ⟨p, hp, h⟩ := except_bind_ok.mp h
    have hs := Physical.build_sound hp
    cases fit with
    | none =>
      cases h
      exact hs.positive
    | some c =>
      obtain ⟨p', hp', h⟩ := except_bind_ok.mp h
      cases h
      exact (Physical.withFit_sound hs hp').positive
  | curveFit c1 c2 turns =>
    obtain ⟨p, hp, h⟩ := except_bind_ok.mp h
    cases h
    obtain ⟨h1, h2, h3, rfl⟩ := CurveFit.build_ok.mp hp
    refine ⟨h2, h1, ?_, h3, ?_⟩
    · show (0 : ℝ) < 1.0
      norm_num
    · intro r hr
      cases hr

/-! ## Defined bearings -/

def Geometry.lift {K : Type} (g : Geometry K) : Geometry (Partial K) where
  saturationField := .defined g.saturationField
  biasFraction := .defined g.biasFraction
  poleSpan := .defined g.poleSpan
  airgap := .defined g.airgap
  rotorRadius := .defined g.rotorRadius
  laminationLength := .defined g.laminationLength
  turns := .defined g.turns

def Physical.lift {K : Type} (b : Physical K) : Physical (Partial K) where
  saturationField := .defined b.saturationField
  biasFraction := .defined b.biasFraction
  poleSpan := .defined b.poleSpan
  airgap := .defined b.airgap
  rotorRadius := .defined b.rotorRadius
  laminationLength := .defined b.laminationLength
  turns := .defined b.turns
  bias := .defined b.bias
  k1 := .defined b.k1
  k2 := .defined b.k2

def Description.lift {K : Type} : Description K → Description (Partial K)
  | .physical g fit => .physical g.lift (fit.map fun c => (.defined c.1, .defined c.2))
  | .curveFit c1 c2 turns => .curveFit (.defined c1) (.defined c2) (.defined turns)

def Built.lift {K : Type} : Built K → Built (Partial K)
  | .physical b => .physical b.lift
  | .curveFit b => .curveFit ⟨.defined b.c1, .defined b.c2, .defined b.turns⟩

theorem Geometry.derive_lift {g : Geometry ℝ} (h : g.Valid) : g.lift.derive = g.derive.lift := by
  have h2 : (2.0 : ℝ) ≠ 0 := by norm_num
  have hspan : Direction.toRadians g.poleSpan ≠ 0 := by
    have hdeg := h.poleSpan_mem.1
    have hpi := Real.pi_pos
    show g.poleSpan * (Real.pi / 180.0) ≠ 0
    positivity
  have hmu : 2.0 * (permeability : ℝ) ≠ 0 := mul_ne_zero h2 permeability_pos.ne'
  have hpermeability : (permeability : Partial ℝ) = .defined permeability := rfl
  have hsin (x : ℝ) : Scalar.sin (Partial.defined x) = .defined (Scalar.sin x) := rfl
  simp only [derive, lift, Direction.toRadians_lift, hpermeability, Partial.defined_decimal, Partial.defined_mul,
    Partial.div_of_ne _ h2, hsin, Partial.div_of_ne _ hspan, Partial.div_of_ne _ hmu,
    Partial.div_of_ne _ h.airgap_pos.ne']
  rfl

theorem Description.parameters_lift (d : Description ℝ) :
    d.lift.parameters = d.parameters.map fun r => (r.1, .defined r.2) := by
  cases d with
  | physical g fit =>
    cases fit with
    | none => rfl
    | some c => rfl
  | curveFit c1 c2 turns => rfl

theorem Parameter.admits_lift (p : Parameter) (x : ℝ) : p.admits (Partial.defined x) = p.admits x := by
  cases p <;> rfl

theorem Description.derived_lift {d : Description ℝ} {b : Built ℝ} (h : d.build = .ok b) :
    d.lift.derived = d.derived.lift := by
  cases d with
  | physical g fit =>
    obtain ⟨p, hp, h⟩ := except_bind_ok.mp h
    obtain ⟨hg, rfl⟩ := Physical.valid_of_build hp
    cases fit with
    | none => exact congrArg Built.physical (Geometry.derive_lift hg)
    | some c =>
      obtain ⟨p', hp', -⟩ := except_bind_ok.mp h
      obtain ⟨h1, h2, -⟩ := Physical.withFit_ok.mp hp'
      have hbias := hg.sound.bias_pos
      have hfit : 4.0 * g.derive.bias * g.derive.bias * c.2 ≠ 0 := by positivity
      have hlifted : g.derive.lift.bias = .defined g.derive.bias := rfl
      simp only [lift, derived, Option.map_some, hlifted, Partial.defined_decimal, Partial.defined_mul,
        Partial.div_of_ne _ hfit, Partial.div_of_ne _ h1.ne', Geometry.derive_lift hg]
      rfl
  | curveFit c1 c2 turns => rfl

theorem Description.build_lift {d : Description ℝ} {b : Built ℝ} (h : d.build = .ok b) : d.lift.build = .ok b.lift := by
  obtain ⟨hall, rfl⟩ := admitted_of_build h
  rw [← derived_lift h]
  apply build_of_admitted
  intro r hr
  rw [parameters_lift] at hr
  obtain ⟨q, hq, rfl⟩ := List.mem_map.mp hr
  rw [Parameter.admits_lift]
  exact hall q hq

theorem Poles.peak_lift (x : Poles ℝ) : x.lift.peak = .defined x.peak := by
  simp only [peak, lift, map, Partial.defined_abs, Partial.defined_le, ← apply_ite Partial.defined]

/-- The numbers of a built bearing are defined, its current per field included. -/
theorem Built.bearing_lifts {b : Built ℝ} (h : b.Positive) : Bearing.Lifts b.lift.bearing b.bearing := by
  cases b with
  | curveFit b =>
    exact ⟨rfl, rfl, rfl, rfl, fun _ => rfl⟩
  | physical b =>
    have hk2 : b.k2 ≠ 0 := by
      intro hk2
      have hamps := h.ampsPerUnit
      have hzero : (1.0 : ℝ) / b.k2 = 0 := by rw [hk2, div_zero]
      exact absurd hzero hamps.ne'
    refine ⟨rfl, Partial.div_of_ne _ hk2, rfl, rfl, ?_⟩
    intro e
    have hadd : e.lift.addEach (.defined b.bias) = (e.addEach b.bias).lift := rfl
    show decide (Partial.defined b.saturationField < (e.lift.addEach (.defined b.bias)).peak) = _
    simp only [hadd, Poles.peak_lift, Partial.defined_lt]
    rfl

/-- Nothing that is computed for the bearing is divided by zero: over numbers of which such a quotient is undefined,
the bearing has the same answers to all requests and excitations, and all of them are defined. -/
structure Built.Divides (b : Built ℝ) : Prop where
  bearing : Bearing.Lifts b.lift.bearing b.bearing
  quartic : ∀ form fx fy,
    b.lift.bearing.law.quartic form (.defined fx) (.defined fy) = (b.bearing.law.quartic form fx fy).lift
  pair : ∀ form fy root,
    b.lift.bearing.law.pair form (.defined fy) (.defined root) = (b.bearing.law.pair form fy root).map Cx.lift
  newtonStep : ∀ target s,
    b.lift.bearing.law.newtonStep target.lift s.lift = (b.bearing.law.newtonStep target s).map Cx.lift
  refine : ∀ s target, b.lift.bearing.law.refine s.lift target.lift = (b.bearing.law.refine s target).lift
  seed : ∀ target, Cx.divReal target.lift b.lift.bearing.law.linear = (Cx.divReal target b.bearing.law.linear).lift
  solve : ∀ find' find, Quartic.Lifts find' find → ∀ direction magnitude,
    (⟨b.lift.bearing, find'⟩ : Allocator (Partial ℝ)).solve (.defined direction) (.defined magnitude) =
      answer Solutions.lift ((⟨b.bearing, find⟩ : Allocator ℝ).solve direction magnitude)
  controlCurrents : ∀ find' find, Quartic.Lifts find' find → ∀ direction magnitude unit check,
    (⟨b.lift.bearing, find'⟩ : Allocator (Partial ℝ)).controlCurrents (.defined direction) (.defined magnitude) unit
        check =
      answer Poles.lift ((⟨b.bearing, find⟩ : Allocator ℝ).controlCurrents direction magnitude unit check)
  forceFromCurrents : ∀ find' find currents,
    (⟨b.lift.bearing, find'⟩ : Allocator (Partial ℝ)).forceFromCurrents currents.lift =
      ((⟨b.bearing, find⟩ : Allocator ℝ).forceFromCurrents currents).lift

theorem Built.divides {b : Built ℝ} (h : b.Positive) : b.Divides := by
  have hb := bearing_lifts h
  have ha := h.quadratic.ne'
  have hlinear := h.linear.ne'
  refine ⟨hb, ?_, ?_, ?_, ?_, ?_, ?_, ?_, ?_⟩
  · intro form fx fy
    rw [hb.law, ForceLaw.quartic_lift ha]
  · intro form fy root
    rw [hb.law, ForceLaw.pair_lift ha]
  · intro target s
    rw [hb.law, ForceLaw.newtonStep_lift]
  · intro s target
    rw [hb.law, ForceLaw.refine_lift]
  · intro target
    rw [hb.law]
    exact Cx.divReal_lift target hlinear
  · intro find' find hf direction magnitude
    exact Allocator.solve_lift hb hf ha hlinear direction magnitude
  · intro find' find hf direction magnitude unit check
    exact Allocator.controlCurrents_lift hb hf ha hlinear direction magnitude unit check
  · intro find' find currents
    exact Allocator.forceFromCurrents_lift hb h.ampsPerUnit.ne' currents

/-- Every bearing that is built has positive constants, and over numbers of which a quotient by zero is undefined it
is derived with the same constants and has the same answers: nothing on the way is divided by zero. A description with
a parameter outside its range is not built: the first of these is reported. -/
theorem build_divides :
    (∀ (d : Description ℝ) (b : Built ℝ), d.build = .ok b → b.Positive ∧ d.lift.build = .ok b.lift ∧ b.Divides) ∧
      Quartic.Lifts (Quartic.closedForm (K := Partial ℝ)) (Quartic.closedForm (K := ℝ)) ∧
      ∀ {K : Type} [Scalar K] (d : Description K),
        ((∃ b, d.build = .ok b) ↔ ∀ r ∈ d.parameters, r.1.admits r.2 = true) ∧
          ((∃ r ∈ d.parameters, r.1.admits r.2 = false) →
            ∃ (before after : List (Parameter × K)) (p : Parameter) (x : K),
              d.parameters = before ++ (p, x) :: after ∧ (∀ r ∈ before, r.1.admits r.2 = true) ∧
              p.admits x = false ∧ d.build = .error (.invalidParameter p x)) := by
  refine ⟨?_, Quartic.ClosedForm.closedForm_lifts, ?_⟩
  · intro d b h
    have hpositive := Description.build_positive h
    exact ⟨hpositive, Description.build_lift h, Built.divides hpositive⟩
  · intro K _ d
    refine ⟨⟨?_, ?_⟩, ?_⟩
    · rintro ⟨b, h⟩
      exact (Description.admitted_of_build h).1
    · intro h
      exact ⟨d.derived, Description.build_of_admitted h⟩
    · rintro ⟨r, hr, hbad⟩
      rcases Description.admitted_or_refused d.parameters with hall | ⟨before, p, x, after, hd, hbefore, hrefused⟩
      · rw [hall r hr] at hbad
        cases hbad
      · exact ⟨before, after, p, x, hd, hbefore, hrefused, Description.build_refused hd hbefore hrefused⟩

/-- The prototype's geometry with the prototype's fit over it, and the same geometry without an air gap. -/
theorem build_divides_prototype :
    (∃ b, (Description.physical Geometry.prototype (some (175.677, 48.016)) : Description ℝ).build = .ok b ∧
      b.Positive ∧ b.Divides) ∧
      ∃ p x, (Description.physical { Geometry.prototype with airgap := 0.0 } none : Description ℝ).build =
        .error (.invalidParameter p x) := by
  obtain ⟨hbuilt, -, hrange⟩ := build_divides
  refine ⟨?_, ?_⟩
  · have hvalid := Geometry.prototype_valid
    have hadmitted : ∀ r ∈ (.physical Geometry.prototype (some (175.677, 48.016)) : Description ℝ).parameters,
        r.1.admits r.2 = true := by
      have h120 : (120.0 : ℝ) = 120 := by norm_num
      simp only [Description.parameters, List.cons_append, List.nil_append, List.forall_mem_cons, Parameter.admits,
        Arith.finite_eq, Bool.true_and, Bool.and_eq_true, decide_eq_true_eq, Exact.zero_eq, Exact.one_eq, h120]
      refine ⟨hvalid.saturationField_pos, hvalid.airgap_pos, hvalid.rotorRadius_pos, hvalid.laminationLength_pos,
        hvalid.turns_pos, hvalid.biasFraction_mem, hvalid.poleSpan_mem, ?_, ?_, ?_⟩
      · norm_num
      · norm_num
      · simp
    obtain ⟨b, hb⟩ := (hrange _).1.mpr hadmitted
    obtain ⟨hpositive, -, hdivides⟩ := hbuilt _ _ hb
    exact ⟨b, hb, hpositive, hdivides⟩
  · have hbad : Parameter.airgap.admits (0.0 : ℝ) = false := by
      simp [Parameter.admits]
    obtain ⟨-, -, p, x, -, -, -, h⟩ := (hrange (.physical { Geometry.prototype with airgap := (0.0 : ℝ) } none)).2
      ⟨(.airgap, 0.0), by simp [Description.parameters], hbad⟩
    exact ⟨p, x, h⟩

end MagneticBearing
