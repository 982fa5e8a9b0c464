/-
  MagneticBearing.Bearing.CurveFit — a bearing known by a fit of measured forces.

  The force is `C2 · S(I²) + C1 · S(I)` in the coil currents themselves. Nothing is known of its
  iron, so it never saturates and has no bias.
-/

import MagneticBearing.Bearing

namespace MagneticBearing

structure CurveFit (K : Type) where
  c1 : K
  c2 : K
  turns : K
  deriving Repr

namespace CurveFit

variable {K : Type} [Scalar K]

def prototype : CurveFit K := ⟨175.677, 48.016, 308.0⟩

def build (c1 c2 turns : K) : Except (AllocationError K) (CurveFit K) := do
  requirePositive .linearFit c1
  requirePositive .quadraticFit c2
  requirePositive .turns turns
  return ⟨c1, c2, turns⟩

def bearing (b : CurveFit K) : Bearing K where
  law := ⟨b.c2, b.c1⟩
  ampsPerUnit := 1.0
  turns := b.turns
  bias := 0.0
  saturated := fun _ => false

end CurveFit

end MagneticBearing
