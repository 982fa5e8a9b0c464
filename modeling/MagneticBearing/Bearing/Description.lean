/-
  MagneticBearing.Bearing.Description — a bearing as it is described on disk, and as it is built.

  A description names its model and gives the numbers of that model, none of them checked.
  `build` checks them in a fixed order, so of two bad numbers the first in that order is the one
  reported: the lengths, limit and turns of a physical bearing come before its bias fraction and
  pole span, and those before the fit that may overlay it.
-/

import MagneticBearing.Bearing.CurveFit
import MagneticBearing.Bearing.Physical

namespace MagneticBearing

inductive Description (K : Type) where
  | physical (geometry : Geometry K) (fit : Option (K × K))
  | curveFit (c1 c2 turns : K)
  deriving Repr

inductive Built (K : Type) where
  | physical (b : Physical K)
  | curveFit (b : CurveFit K)
  deriving Repr

variable {K : Type} [Scalar K]

def Description.prototype : Description K :=
  let b : CurveFit K := CurveFit.prototype
  .curveFit b.c1 b.c2 b.turns

def Description.build : Description K → Except (AllocationError K) (Built K)
  | .physical g fit => do
    let b ← Physical.build g
    match fit with
    | none => return .physical b
    | some (c1, c2) => return .physical (← b.withFit c1 c2)
  | .curveFit c1 c2 turns => do return .curveFit (← CurveFit.build c1 c2 turns)

def Built.bearing : Built K → Bearing K
  | .physical b => b.bearing.toBearing
  | .curveFit b => b.bearing

/-- The bearing with its saturation limit, which only a physical one has. -/
def Built.rated? : Built K → Option (RatedBearing K)
  | .physical b => some b.bearing
  | .curveFit _ => none

end MagneticBearing
