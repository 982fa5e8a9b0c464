/-
  MagneticBearing.Bearing — what the allocator needs to know of a bearing.

  A bearing is a force law over some excitation (the control field, or the current itself), the
  coil current per unit of excitation, the turns of a pole, a fixed bias on every pole, and
  which excitations saturate the iron. A rated bearing also has a largest sustainable field and
  a bound on its force.
-/

import MagneticBearing.ForceLaw

namespace MagneticBearing

structure Bearing (K : Type) where
  law : ForceLaw K
  ampsPerUnit : K
  turns : K
  bias : K
  saturated : Poles K → Bool

structure RatedBearing (K : Type) extends Bearing K where
  /-- The largest field that a pole sustains. -/
  limit : K
  /-- A bound on the force magnitude in every direction. -/
  hexagonBound : K

/-- The largest total field over the poles. -/
def RatedBearing.peakField {K : Type} [Arith K] (b : RatedBearing K) (e : Poles K) : K :=
  (e.addEach b.bias).peak

/-- What a request or a description may get wrong. -/
inductive Parameter where
  | saturationField
  | biasFraction
  | poleSpan
  | airgap
  | rotorRadius
  | laminationLength
  | turns
  | linearFit
  | quadraticFit
  | direction
  | magnitude
  deriving DecidableEq, Repr

inductive AllocationError (K : Type) where
  | noFeasibleSolution (direction magnitude : K)
  | degenerateAuxiliary (quartic : Quartic K)
  | ratingSearchFailed (direction : K) (iterations : Nat)
  | invalidParameter (parameter : Parameter) (value : K)
  deriving Repr

variable {K : Type} [Scalar K]

def requirePositive (parameter : Parameter) (value : K) : Except (AllocationError K) Unit :=
  if Arith.finite value && 0.0 < value then .ok () else .error (.invalidParameter parameter value)

end MagneticBearing
