/-
  MagneticBearing.Direction — directions in degrees, and forces given by direction and magnitude.

  A direction matters only modulo a full turn: `wrap` brings it into `[0, 360)`, and everything
  that is computed from a direction goes through `wrap` first.
-/

import MagneticBearing.Cx

namespace MagneticBearing

variable {K : Type} [Scalar K]

namespace Direction

def toRadians (deg : K) : K := deg * (Scalar.pi / 180.0)

def toDegrees (rad : K) : K := rad * (180.0 / Scalar.pi)

/-- The same direction in `[0, 360)`. Close below a full turn rounding may reach it; that is zero. -/
def wrap (deg : K) : K :=
  let r := Scalar.rem deg 360.0
  let w := if r < 0.0 then r + 360.0 else r
  if 360.0 ≤ w then 0.0 else w

end Direction

/-- A force in the radial plane. -/
structure Force (K : Type) where
  direction : K
  magnitude : K
  deriving Repr

namespace Force

def inDirection (direction magnitude : K) : Force K := ⟨Direction.wrap direction, magnitude⟩

/-- The force as `Fx + i Fy`. -/
def vector (f : Force K) : Cx K :=
  let angle := Direction.toRadians f.direction
  ⟨f.magnitude * Scalar.cos angle, f.magnitude * Scalar.sin angle⟩

def ofVector (v : Cx K) : Force K :=
  ⟨Scalar.rem (Direction.toDegrees v.arg + 720.0) 360.0, v.norm⟩

end Force

end MagneticBearing
