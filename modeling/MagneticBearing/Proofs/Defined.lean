/-
  MagneticBearing.Proofs.Defined — where the allocator divides, the divisor is not zero.

  Over numbers of which a quotient by zero is undefined, a formula has the value of before only if nothing that
  enters it is divided by zero. So each function between a request and its currents is taken at lifted
  arguments (`Cx.lift`, `ForceLaw.lift`, …), and its result is the lifted one.

  The quartic and the linear seed divide by a coefficient of the law. Behind the guard of `pair` no root is where
  completing it divides by zero, and behind the guard of a Newton step the determinant is not zero
  (`det_ne_zero`). From there on nothing new is divided by: a polish is its steps (`refineFrom_lift`), the
  completions are those of each root (`completions_lift`), and the distinct candidates are kept seed by
  seed (`keep_lift`, `distinct_lift`). What finds the roots is any function that answers the lifted quartic with the
  lifted roots (`Quartic.Lifts`).

  - `solve_lift`, `controlCurrents_lift`: all of a request.
  - `forceFromCurrents_lift`: the way forward.
-/

import MagneticBearing.Allocation
import MagneticBearing.Proofs.ForceMap
import MagneticBearing.Proofs.OrderedField
import MagneticBearing.Proofs.Selection

namespace MagneticBearing

variable {K : Type}

/-! ## Defined points, laws and answers -/

/-- A point among numbers of which a quotient by zero is undefined. -/
def Cx.lift (z : Cx K) : Cx (Partial K) := ⟨.defined z.re, .defined z.im⟩

def Poles.lift (x : Poles K) : Poles (Partial K) := x.map .defined

def Quartic.lift (c : Quartic K) : Quartic (Partial K) := ⟨.defined c.p, .defined c.q, .defined c.r⟩

def ForceLaw.lift (law : ForceLaw K) : ForceLaw (Partial K) := ⟨.defined law.quadratic, .defined law.linear⟩

def Force.lift (f : Force K) : Force (Partial K) := ⟨.defined f.direction, .defined f.magnitude⟩

def Solutions.lift (s : Solutions K) : Solutions (Partial K) := ⟨s.formulation, s.vectors.map Cx.lift⟩

def AllocationError.lift : AllocationError K → AllocationError (Partial K)
  | .noFeasibleSolution direction magnitude => .noFeasibleSolution (.defined direction) (.defined magnitude)
  | .degenerateAuxiliary quartic => .degenerateAuxiliary quartic.lift
  | .ratingSearchFailed direction iterations => .ratingSearchFailed (.defined direction) iterations
  | .invalidParameter parameter value => .invalidParameter parameter (.defined value)

/-- An answer with its value or its error lifted. -/
def answer {α β : Type} (f : α → β) : Except (AllocationError K) α → Except (AllocationError (Partial K)) β
  | .ok x => .ok (f x)
  | .error e => .error e.lift

/-! ## Without a quotient -/

section Operations

variable [Arith K]

@[simp] theorem Cx.lift_add (z w : Cx K) : z.lift + w.lift = (z + w).lift := rfl
@[simp] theorem Cx.lift_sub (z w : Cx K) : z.lift - w.lift = (z - w).lift := rfl
@[simp] theorem Cx.lift_neg (z : Cx K) : -z.lift = (-z).lift := rfl
@[simp] theorem Cx.lift_mul (z w : Cx K) : z.lift * w.lift = (z * w).lift := rfl
@[simp] theorem Cx.lift_conj (z : Cx K) : z.lift.conj = z.conj.lift := rfl
@[simp] theorem Cx.lift_scale (a : K) (z : Cx K) : Cx.scale (.defined a) z.lift = (Cx.scale a z).lift := rfl
@[simp] theorem Cx.lift_shift (a : K) (z : Cx K) : Cx.shift (.defined a) z.lift = (Cx.shift a z).lift := rfl
@[simp] theorem Cx.lift_finite (z : Cx K) : z.lift.finite = z.finite := rfl

@[simp] theorem Quartic.zeroTolerance_lift : (zeroTolerance : Partial K) = .defined zeroTolerance := rfl
@[simp] theorem Quartic.imaginaryTolerance_lift : (imaginaryTolerance : Partial K) = .defined imaginaryTolerance := rfl
@[simp] theorem Partial.defined_finite (x : K) : Arith.finite (Partial.defined x) = Arith.finite x := rfl

theorem Arith.larger_lift (x y : K) : larger (Partial.defined x) (.defined y) = .defined (larger x y) := by
  simp only [larger, Partial.defined_le, Partial.defined_beq, apply_ite Partial.defined]
  rfl

end Operations

@[simp] theorem Cx.lift_norm [Scalar K] (z : Cx K) : z.lift.norm = .defined z.norm := rfl

theorem Cx.divReal_lift (z : Cx ℝ) {a : ℝ} (h : a ≠ 0) : Cx.divReal z.lift (.defined a) = (Cx.divReal z a).lift := by
  simp only [divReal, lift, Partial.div_of_ne _ h]

namespace ForceLaw

variable {law : ForceLaw ℝ}

theorem quartic_lift (h : law.quadratic ≠ 0) (form : Formulation) (fx fy : ℝ) :
    law.lift.quartic form (.defined fx) (.defined fy) = (law.quartic form fx fy).lift := by
  obtain ⟨a, b⟩ := law
  have ha : a ≠ 0 := h
  have h4 : (4.0 : ℝ) ≠ 0 := by norm_num
  have h1 : 4.0 * a * a ≠ 0 := mul_ne_zero (mul_ne_zero h4 ha) ha
  have h2 : a * a ≠ 0 := mul_ne_zero ha ha
  have h3 : 4.0 * (a * a * a) ≠ 0 := mul_ne_zero h4 (mul_ne_zero h2 ha)
  cases form with
  | imaginaryFirst =>
    simp only [quartic, lift, Quartic.lift, Partial.defined_decimal, Partial.defined_mul, Partial.defined_add,
      Partial.defined_neg, Partial.div_of_ne _ h1, Partial.div_of_ne _ h2]
  | realFirst =>
    simp only [quartic, lift, Quartic.lift, Partial.defined_decimal, Partial.defined_mul, Partial.defined_add,
      Partial.defined_neg, Partial.div_of_ne _ h1, Partial.div_of_ne _ h3]

theorem pair_lift (h : law.quadratic ≠ 0) (form : Formulation) (fy root : ℝ) :
    law.lift.pair form (.defined fy) (.defined root) = (law.pair form fy root).map Cx.lift := by
  have hsingular : ¬ law.Guarded form root → ¬ law.Singular form root := mt guarded_of_singular
  obtain ⟨a, b⟩ := law
  have ha : a ≠ 0 := h
  cases form with
  | imaginaryFirst =>
    simp only [pair, lift, Quartic.zeroTolerance_lift, Partial.defined_abs, Partial.defined_lt]
    split
    · rfl
    · rename_i hz
      have hd : a * root ≠ 0 := mul_ne_zero ha (hsingular hz)
      simp only [Option.map_some, Cx.lift, Partial.defined_decimal, Partial.defined_mul, Partial.defined_sub,
        Partial.div_of_ne _ ha, Partial.div_of_ne _ hd]
  | realFirst =>
    simp only [pair, lift, Quartic.zeroTolerance_lift, Partial.defined_decimal, Partial.defined_abs,
      Partial.defined_mul, Partial.defined_sub, Partial.defined_le]
    split
    · rfl
    · rename_i hz
      simp only [Option.map_some, Cx.lift, Partial.div_of_ne _ (hsingular hz)]

theorem ofVector_lift (law : ForceLaw ℝ) (s : SpaceVector ℝ) : law.lift.ofVector s.lift = (law.ofVector s).lift := by
  have h3 : (3.0 : ℝ) ≠ 0 := by norm_num
  simp only [ofVector, lift, Cx.lift_conj, Cx.lift_mul, Cx.lift_scale, Partial.defined_decimal, Cx.divReal_lift _ h3,
    Cx.lift_add]

/-- The step is refused where the determinant is zero. -/
theorem det_ne_zero {b det : ℝ}
    (h : ¬ (!Arith.finite det || decide (Arith.abs det ≤ Quartic.zeroTolerance * b * b)) = true) : det ≠ 0 := by
  rintro rfl
  apply h
  have hle : Arith.abs (0 : ℝ) ≤ Quartic.zeroTolerance * b * b := by
    show |(0 : ℝ)| ≤ _
    rw [abs_zero, Quartic.zeroTolerance_eq, mul_assoc]
    exact mul_nonneg (by norm_num) (mul_self_nonneg b)
  rw [decide_eq_true hle, Bool.or_true]

theorem newtonStep_lift (law : ForceLaw ℝ) (target s : Cx ℝ) :
    law.lift.newtonStep target.lift s.lift = (law.newtonStep target s).map Cx.lift := by
  have h3 : (3.0 : ℝ) ≠ 0 := by norm_num
  simp only [newtonStep, ofVector_lift, Cx.lift_sub]
  generalize law.ofVector s - target = miss
  simp only [lift, Cx.lift, Partial.defined_decimal, Partial.defined_mul, Partial.defined_add, Partial.defined_sub,
    Partial.defined_neg, Partial.div_of_ne _ h3, Partial.defined_finite, Partial.defined_abs,
    Quartic.zeroTolerance_lift, Partial.defined_le]
  split
  · rfl
  · rename_i hz
    simp only [Option.map_some, Partial.div_of_ne _ (det_ne_zero hz)]
    rfl

theorem epsilon_lift : (Arith.epsilon : Partial ℝ) = .defined Arith.epsilon := by
  simp only [Arith.epsilon, Partial.defined_decimal]
  exact Partial.div_of_ne _ (by norm_num)

/-- No step of a polish divides by zero: one that did would leave an undefined vector, and the polish with it. -/
theorem refineFrom_lift (law : ForceLaw ℝ) (target : Cx ℝ) (steps : Nat) (s : SpaceVector ℝ) :
    law.lift.refineFrom target.lift steps s.lift = (law.refineFrom target steps s).lift := by
  induction steps generalizing s with
  | zero => rfl
  | succ steps ih =>
    simp only [refineFrom, newtonStep_lift]
    cases law.newtonStep target s with
    | none => rfl
    | some d =>
      simp only [Option.map_some, Cx.lift_sub, Cx.lift_norm, Cx.lift_finite, epsilon_lift, Partial.defined_mul,
        Partial.defined_le]
      split
      · rfl
      · exact ih (s - d)

theorem refine_lift (law : ForceLaw ℝ) (s target : Cx ℝ) :
    law.lift.refine s.lift target.lift = (law.refine s target).lift :=
  law.refineFrom_lift target refineSteps s

theorem reproduces_lift (law : ForceLaw ℝ) (s target : Cx ℝ) :
    law.lift.reproduces s.lift target.lift = law.reproduces s target := by
  have h3 : (3.0 : ℝ) ≠ 0 := by norm_num
  simp only [reproduces, ofVector_lift, Cx.lift_sub, Cx.lift_norm]
  simp only [lift, tolerance, Partial.defined_decimal, Partial.defined_mul, Partial.defined_add, Partial.defined_finite,
    Partial.div_of_ne _ h3, Partial.defined_le]
  rfl

theorem close_lift (s t : SpaceVector ℝ) : close s.lift t.lift = close s t := by
  simp only [close, Cx.lift_sub, Cx.lift_norm, Arith.larger_lift, tolerance, Partial.defined_decimal,
    Partial.defined_mul, Partial.defined_le]
  rfl

/-! ## From roots to candidates -/

theorem completions_lift (h : law.quadratic ≠ 0) (form : Formulation) (fy : ℝ) (roots : List ℝ) :
    law.lift.completions form (.defined fy) (roots.map .defined) =
      (law.completions form fy roots).map (List.map Cx.lift) := by
  induction roots with
  | nil => rfl
  | cons root roots ih =>
    simp only [List.map_cons, completions, pair_lift h]
    cases law.pair form fy root with
    | some s =>
      simp only [Option.map_some, ih, Option.map_map]
      rfl
    | none =>
      cases form with
      | imaginaryFirst => rfl
      | realFirst => exact ih

theorem keep_lift (target : Cx ℝ) (known : List (SpaceVector ℝ)) (seed : Cx ℝ) :
    law.lift.keep target.lift (known.map Cx.lift) seed.lift = (law.keep target known seed).map Cx.lift := by
  have hany (u : SpaceVector ℝ) : ((known.map Cx.lift).any fun t => close t u.lift) = known.any fun t => close t u := by
    rw [List.any_map]
    exact congrArg known.any (funext fun t => close_lift t u)
  simp only [keep, refine_lift, reproduces_lift, hany]
  split
  · rfl
  · split
    · rfl
    · rw [List.map_append]
      rfl

theorem distinct_lift (target : Cx ℝ) (seeds : List (Cx ℝ)) :
    law.lift.distinct target.lift (seeds.map Cx.lift) = (law.distinct target seeds).map Cx.lift := by
  show (seeds.map Cx.lift).foldl (law.lift.keep target.lift) ([].map Cx.lift) = _
  rw [List.foldl_map]
  refine List.foldl_hom (List.map Cx.lift) ?_
  intro known seed
  exact keep_lift target known seed

theorem candidatesFrom_lift (ha : law.quadratic ≠ 0) (hb : law.linear ≠ 0) (form : Formulation) (target : Cx ℝ)
    (roots : List ℝ) :
    law.lift.candidatesFrom form target.lift (roots.map .defined) =
      (law.candidatesFrom form target roots).map (List.map Cx.lift) := by
  unfold candidatesFrom
  show (law.lift.completions form (.defined target.im) (roots.map .defined)).map _ = _
  rw [completions_lift ha, Option.map_map, Option.map_map]
  congr 1
  funext seeds
  show law.lift.distinct target.lift (seeds.map Cx.lift ++ [Cx.divReal target.lift (.defined law.linear)]) =
    (law.distinct target (seeds ++ [Cx.divReal target law.linear])).map Cx.lift
  rw [Cx.divReal_lift target hb, ← distinct_lift, List.map_append]
  rfl

end ForceLaw

/-! ## Requests -/

theorem Partial.rem_of_ne (x : ℝ) {y : ℝ} (h : y ≠ 0) :
    Scalar.rem (Partial.defined x) (.defined y) = .defined (Scalar.rem x y) := by
  have hz := mt (Arith.beq_zero_iff y).mp h
  exact if_neg hz

theorem Direction.wrap_lift (deg : ℝ) : wrap (Partial.defined deg) = .defined (wrap deg) := by
  have h360 : (360.0 : ℝ) ≠ 0 := by norm_num
  simp only [wrap, Partial.defined_decimal, Partial.rem_of_ne deg h360, Partial.defined_lt, Partial.defined_add,
    ← apply_ite Partial.defined, Partial.defined_le]

theorem Direction.toRadians_lift (deg : ℝ) : toRadians (Partial.defined deg) = .defined (toRadians deg) := by
  have h180 : (180.0 : ℝ) ≠ 0 := by norm_num
  show Partial.defined deg * (Partial.defined Real.pi / Partial.defined 180.0) = _
  rw [Partial.div_of_ne _ h180]
  rfl

theorem Direction.toDegrees_lift (rad : ℝ) : toDegrees (Partial.defined rad) = .defined (toDegrees rad) := by
  show Partial.defined rad * (Partial.defined 180.0 / Partial.defined Real.pi) = _
  rw [Partial.div_of_ne _ Real.pi_ne_zero]
  rfl

theorem Force.vector_lift (f : Force ℝ) : f.lift.vector = f.vector.lift := by
  simp only [vector, lift, Direction.toRadians_lift]
  rfl

theorem Force.ofVector_lift (v : Cx ℝ) : ofVector v.lift = (ofVector v).lift := by
  have h360 : (360.0 : ℝ) ≠ 0 := by norm_num
  show (⟨Scalar.rem (Direction.toDegrees (.defined v.arg) + .defined 720.0) (.defined 360.0), .defined v.norm⟩ :
    Force (Partial ℝ)) = _
  rw [Direction.toDegrees_lift, Partial.defined_add, Partial.rem_of_ne _ h360]
  rfl

theorem Formulation.forDirection_lift (deg : ℝ) : forDirection (Partial.defined deg) = forDirection deg := by
  simp only [forDirection, Direction.wrap_lift, axisMargin, Partial.defined_decimal, Partial.defined_sub,
    Partial.defined_abs, Partial.defined_lt]
  rfl

theorem SpaceVector.toPoles_lift (s : SpaceVector ℝ) : toPoles s.lift = (toPoles s).lift := by
  have h3 : (3.0 : ℝ) ≠ 0 := by norm_num
  have hroot : Scalar.sqrt (3.0 : ℝ) ≠ 0 := Real.sqrt_ne_zero'.mpr (by norm_num)
  simp only [toPoles, Partial.defined_decimal, Partial.defined_sqrt, Partial.div_of_ne _ h3, Partial.div_of_ne _ hroot]
  rfl

theorem SpaceVector.rotation_lift : (rotation : Cx (Partial ℝ)) = rotation.lift := by
  have h3 : (3.0 : ℝ) ≠ 0 := by norm_num
  show Cx.ofPolar (Partial.defined 1.0) (Partial.defined 2.0 * Partial.defined Real.pi / Partial.defined 3.0) = _
  rw [Partial.defined_mul, Partial.div_of_ne _ h3]
  rfl

theorem SpaceVector.ofPoles_lift (x : Poles ℝ) : ofPoles x.lift = (ofPoles x).lift := by
  simp only [ofPoles, rotation_lift, Poles.lift, Poles.map, Cx.lift_mul, Cx.lift_scale, Cx.lift_shift, Cx.lift_add]

theorem ForceLaw.force_lift (law : ForceLaw ℝ) (e : Poles ℝ) : law.lift.force e.lift = (law.force e).lift := by
  have hsquared : e.lift.squared = e.squared.lift := rfl
  simp only [force, ofPoles, hsquared, SpaceVector.ofPoles_lift, lift, Cx.lift_scale, Cx.lift_add, Force.ofVector_lift]

theorem checkRequest_lift (direction magnitude : ℝ) :
    checkRequest (Partial.defined direction) (.defined magnitude) = answer id (checkRequest direction magnitude) := by
  simp only [checkRequest, Partial.defined_finite, Partial.defined_decimal, Partial.defined_le]
  split
  · rfl
  · split
    · rfl
    · rfl

/-! ## The allocator -/

/-- What was found for a quartic, or that it cannot be found, lifted. -/
def Quartic.found {α β : Type} (f : α → β) :
    Except (DegenerateAuxiliary K) α → Except (DegenerateAuxiliary (Partial K)) β
  | .ok x => .ok (f x)
  | .error e => .error ⟨e.quartic.lift⟩

/-- At a defined quartic `find'` answers as `find` does. -/
def Quartic.Lifts (find' : RootFinder (Partial K)) (find : RootFinder K) : Prop :=
  ∀ c, find' c.lift = found (List.map Cx.lift) (find c)

/-- Over partial numbers, `b'` is the bearing `b`, with all its numbers defined. -/
structure Bearing.Lifts (b' : Bearing (Partial K)) (b : Bearing K) : Prop where
  law : b'.law = b.law.lift
  ampsPerUnit : b'.ampsPerUnit = .defined b.ampsPerUnit
  turns : b'.turns = .defined b.turns
  bias : b'.bias = .defined b.bias
  saturated : ∀ e, b'.saturated e.lift = b.saturated e

theorem Quartic.realRoots_lift {find' : RootFinder (Partial ℝ)} {find : RootFinder ℝ} (h : Lifts find' find)
    (c : Quartic ℝ) : realRoots find' c.lift = found (List.map .defined) (realRoots find c) := by
  have hpart (z : Cx ℝ) : realPart? z.lift = (realPart? z).map .defined := by
    simp only [realPart?, Cx.lift, imaginaryTolerance_lift, Partial.defined_abs, Partial.defined_lt]
    split
    · rfl
    · rfl
  simp only [realRoots, h c]
  cases find c with
  | error e => rfl
  | ok roots =>
    simp only [found, Except.map, List.filterMap_map, List.map_filterMap]
    congr 2
    funext z
    exact hpart z

namespace Allocator

variable {b' : Bearing (Partial ℝ)} {b : Bearing ℝ} {find' : RootFinder (Partial ℝ)} {find : RootFinder ℝ}

theorem target_lift (direction magnitude : ℝ) :
    target (Partial.defined direction) (.defined magnitude) = (target direction magnitude).lift := by
  have hforce : Force.inDirection (Partial.defined direction) (.defined magnitude) =
      (Force.inDirection direction magnitude).lift := by
    simp only [Force.inDirection, Force.lift, Direction.wrap_lift]
  rw [target, hforce, Force.vector_lift]
  rfl

theorem solveWith_lift (hb : b'.Lifts b) (hf : Quartic.Lifts find' find) (hquadratic : b.law.quadratic ≠ 0)
    (hlinear : b.law.linear ≠ 0) (form : Formulation) (f : Cx ℝ) :
    (⟨b', find'⟩ : Allocator (Partial ℝ)).solveWith form f.lift =
      answer (Option.map (List.map Cx.lift)) ((⟨b, find⟩ : Allocator ℝ).solveWith form f) := by
  have hquartic : b.law.lift.quartic form f.lift.re f.lift.im = (b.law.quartic form f.re f.im).lift :=
    ForceLaw.quartic_lift hquadratic form f.re f.im
  simp only [solveWith, hb.law, hquartic, Quartic.realRoots_lift hf]
  cases Quartic.realRoots find (b.law.quartic form f.re f.im) with
  | error e => rfl
  | ok roots =>
    show Except.ok _ = Except.ok _
    rw [ForceLaw.candidatesFrom_lift hquadratic hlinear]

theorem solve_lift (hb : b'.Lifts b) (hf : Quartic.Lifts find' find) (hquadratic : b.law.quadratic ≠ 0)
    (hlinear : b.law.linear ≠ 0) (direction magnitude : ℝ) :
    (⟨b', find'⟩ : Allocator (Partial ℝ)).solve (.defined direction) (.defined magnitude) =
      answer Solutions.lift ((⟨b, find⟩ : Allocator ℝ).solve direction magnitude) := by
  have hsolve := solveWith_lift hb hf hquadratic hlinear
  simp only [solve, checkRequest_lift, Formulation.forDirection_lift, target_lift, hsolve, Partial.defined_decimal,
    Partial.defined_beq]
  cases checkRequest direction magnitude with
  | error e => rfl
  | ok u =>
    show (if magnitude == 0.0 then _ else _) = answer _ (if magnitude == 0.0 then _ else _)
    split
    · rfl
    · cases (⟨b, find⟩ : Allocator ℝ).solveWith (.forDirection direction) (target direction magnitude) with
      | error e => rfl
      | ok found =>
        cases found with
        | some vectors => rfl
        | none =>
          show (_ >>= _) = answer _ (_ >>= _)
          cases (⟨b, find⟩ : Allocator ℝ).solveWith .realFirst (target direction magnitude) with
          | error e => rfl
          | ok found =>
            cases found with
            | some vectors => rfl
            | none => rfl

theorem leastNorm_lift (candidates : List (Poles ℝ)) :
    leastNorm (candidates.map Poles.lift) = (leastNorm candidates).map Poles.lift :=
  Scalar.leastBy_map Poles.lift candidates

theorem controlExcitations_lift (hb : b'.Lifts b) (hf : Quartic.Lifts find' find) (hquadratic : b.law.quadratic ≠ 0)
    (hlinear : b.law.linear ≠ 0) (direction magnitude : ℝ) (check : Bool) :
    (⟨b', find'⟩ : Allocator (Partial ℝ)).controlExcitations (.defined direction) (.defined magnitude) check =
      answer (List.map Poles.lift) ((⟨b, find⟩ : Allocator ℝ).controlExcitations direction magnitude check) := by
  simp only [controlExcitations, candidates, solve_lift hb hf hquadratic hlinear]
  cases (⟨b, find⟩ : Allocator ℝ).solve direction magnitude with
  | error e => rfl
  | ok s =>
    have hpoles : (s.lift.vectors.map SpaceVector.toPoles) = (s.vectors.map SpaceVector.toPoles).map Poles.lift := by
      simp only [Solutions.lift, List.map_map]
      exact List.map_congr_left fun v _ => SpaceVector.toPoles_lift v
    show Except.ok _ = Except.ok _
    rw [hpoles, List.filter_map]
    congr 2
    simp only [Function.comp_def, hb.saturated]

theorem controlCurrents_lift (hb : b'.Lifts b) (hf : Quartic.Lifts find' find) (hquadratic : b.law.quadratic ≠ 0)
    (hlinear : b.law.linear ≠ 0) (direction magnitude : ℝ) (unit : CurrentUnit) (check : Bool) :
    (⟨b', find'⟩ : Allocator (Partial ℝ)).controlCurrents (.defined direction) (.defined magnitude) unit check =
      answer Poles.lift ((⟨b, find⟩ : Allocator ℝ).controlCurrents direction magnitude unit check) := by
  simp only [controlCurrents, controlExcitations_lift hb hf hquadratic hlinear]
  cases (⟨b, find⟩ : Allocator ℝ).controlExcitations direction magnitude check with
  | error e => rfl
  | ok es =>
    have hscale : (es.map Poles.lift).map (·.scale b'.ampsPerUnit) =
        (es.map (·.scale b.ampsPerUnit)).map Poles.lift := by
      simp only [hb.ampsPerUnit, List.map_map]
      rfl
    simp only [answer, bind, Except.bind, hscale, leastNorm_lift, hb.turns]
    cases leastNorm (es.map (·.scale b.ampsPerUnit)) with
    | none => rfl
    | some i =>
      cases unit with
      | amps => rfl
      | ampereTurns => rfl

theorem forceFromCurrents_lift (hb : b'.Lifts b) (hamps : b.ampsPerUnit ≠ 0) (currents : Poles ℝ) :
    (⟨b', find'⟩ : Allocator (Partial ℝ)).forceFromCurrents currents.lift =
      ((⟨b, find⟩ : Allocator ℝ).forceFromCurrents currents).lift := by
  have hdiv : currents.lift.divEach b'.ampsPerUnit = (currents.divEach b.ampsPerUnit).lift := by
    simp only [hb.ampsPerUnit, Poles.divEach, Poles.lift, Poles.map, Partial.div_of_ne _ hamps]
  simp only [forceFromCurrents, force, hdiv, hb.law, ForceLaw.force_lift]

end Allocator

end MagneticBearing
