/-
  MagneticBearing.Allocation — from a requested force to the excitations that produce it.

  The force law is quadratic, so a force has up to four excitations. `solve` finds them: the
  roots of the quartic are completed to space vectors, joined by the linear solution
  `F / linear` as one more seed, polished, checked against the force, and merged where two are
  the same (`distinct`). When the imaginary part is solved for first and a root cannot be
  completed, the whole request is solved for the real part first instead.

  `controlCurrents` then picks the smallest norm among those that may be used: with the
  saturation check, the unsaturated ones.
-/

import MagneticBearing.Bearing

namespace MagneticBearing

inductive CurrentUnit where
  | amps
  | ampereTurns
  deriving DecidableEq, Repr

structure Allocator (K : Type) where
  bearing : Bearing K
  find : RootFinder K

/-- The space vectors that produce a force, and the formulation that found them. -/
structure Solutions (K : Type) where
  formulation : Formulation
  vectors : List (SpaceVector K)
  deriving Repr

variable {K : Type} [Scalar K]

/-- The candidate with the smallest norm, the first of several. -/
def leastNorm (candidates : List (Poles K)) : Option (Poles K) := Scalar.leastBy Poles.norm candidates

def checkRequest (direction magnitude : K) : Except (AllocationError K) Unit :=
  if !Arith.finite direction then .error (.invalidParameter .direction direction)
  else if !(Arith.finite magnitude && 0.0 ≤ magnitude) then .error (.invalidParameter .magnitude magnitude)
  else .ok ()

/-! ## Candidates -/

namespace ForceLaw

/-- The space vectors that the roots complete to; none if a root of the imaginary part cannot be
completed. A root of the real part that cannot is left out. -/
def completions (law : ForceLaw K) (form : Formulation) (fy : K) : List K → Option (List (SpaceVector K))
  | [] => some []
  | root :: roots =>
    match law.pair form fy root, form with
    | some s, _ => (law.completions form fy roots).map (s :: ·)
    | none, .imaginaryFirst => none
    | none, .realFirst => law.completions form fy roots

/-- Are `s` and `t` one solution, up to the tolerance? -/
def close (s t : SpaceVector K) : Bool := (s - t).norm ≤ tolerance * Arith.larger s.norm t.norm

/-- Keep the polished seed if it yields the target and is not known already. -/
def keep (law : ForceLaw K) (target : Cx K) (known : List (SpaceVector K)) (seed : Cx K) : List (SpaceVector K) :=
  let s := law.refine seed target
  if !law.reproduces s target then known
  else if known.any fun k => close k s then known
  else known ++ [s]

def distinct (law : ForceLaw K) (target : Cx K) (seeds : List (Cx K)) : List (SpaceVector K) :=
  seeds.foldl (law.keep target) []

/-- The candidates that a list of roots leads to, whatever found the roots. -/
def candidatesFrom (law : ForceLaw K) (form : Formulation) (target : Cx K) (roots : List K) :
    Option (List (SpaceVector K)) :=
  (law.completions form target.im roots).map fun seeds =>
    law.distinct target (seeds ++ [Cx.divReal target law.linear])

end ForceLaw

namespace Allocator

/-- The candidates of one formulation, or none if a root of it cannot be completed. -/
def solveWith (a : Allocator K) (form : Formulation) (target : Cx K) :
    Except (AllocationError K) (Option (List (SpaceVector K))) :=
  let law := a.bearing.law
  match Quartic.realRoots a.find (law.quartic form target.re target.im) with
  | .error e => .error (.degenerateAuxiliary e.quartic)
  | .ok roots => .ok (law.candidatesFrom form target roots)

def target (direction magnitude : K) : Cx K := (Force.inDirection direction magnitude).vector

/-- Did the formulation that the direction calls for meet a root that it cannot complete? -/
def singular (a : Allocator K) (direction magnitude : K) : Bool :=
  match checkRequest direction magnitude with
  | .error _ => false
  | .ok _ =>
    if magnitude == 0.0 then false
    else
      match a.solveWith (.forDirection direction) (target direction magnitude) with
      | .ok none => true
      | _ => false

/-- All solutions; for no force, the zero vector alone. -/
def solve (a : Allocator K) (direction magnitude : K) : Except (AllocationError K) (Solutions K) := do
  checkRequest direction magnitude
  let preferred := Formulation.forDirection direction
  if magnitude == 0.0 then return ⟨preferred, [Cx.zero]⟩
  let f := target direction magnitude
  match ← a.solveWith preferred f with
  | some vectors => return ⟨preferred, vectors⟩
  | none => return ⟨.realFirst, (← a.solveWith .realFirst f).getD []⟩

def candidates (a : Allocator K) (direction magnitude : K) : Except (AllocationError K) (List (Poles K)) := do
  return (← a.solve direction magnitude).vectors.map SpaceVector.toPoles

/-! ## Selection -/

/-- The excitations that may be used: all, or with `check` the unsaturated ones. -/
def controlExcitations (a : Allocator K) (direction magnitude : K) (check : Bool) :
    Except (AllocationError K) (List (Poles K)) := do
  return (← a.candidates direction magnitude).filter fun e => !(check && a.bearing.saturated e)

def totalFields (a : Allocator K) (direction magnitude : K) (check : Bool) :
    Except (AllocationError K) (List (Poles K)) := do
  return (← a.controlExcitations direction magnitude check).map (·.addEach a.bearing.bias)

def controlCurrents (a : Allocator K) (direction magnitude : K) (unit : CurrentUnit) (check : Bool) :
    Except (AllocationError K) (Poles K) := do
  let currents := (← a.controlExcitations direction magnitude check).map (·.scale a.bearing.ampsPerUnit)
  match leastNorm currents with
  | none => throw (.noFeasibleSolution direction magnitude)
  | some i =>
    match unit with
    | .amps => return i
    | .ampereTurns => return i.scale a.bearing.turns

/-! ## The way forward -/

def force (a : Allocator K) (excitation : Poles K) : Force K := a.bearing.law.force excitation

def forceFromCurrents (a : Allocator K) (currents : Poles K) : Force K :=
  a.force (currents.divEach a.bearing.ampsPerUnit)

end Allocator

end MagneticBearing
