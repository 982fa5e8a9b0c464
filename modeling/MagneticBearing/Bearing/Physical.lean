/-
  MagneticBearing.Bearing.Physical — a bearing known by its geometry.

  The excitation is the control field `Bc` on each pole; the total field is `Bc + B0`. From the
  tooth area with its correction `β = 2 sin(θ/2) / θ` follow the force constant
  `k1 = β · area / (2 μ₀)`, so that `F = k1 · S((Bc + B0)²)`, and the field per ampere
  `k2 = turns · μ₀ / airgap`. A measured fit may replace `k1` and `k2` (`withFit`); the saturation
  field and the bias stay.
-/

import MagneticBearing.Bearing

namespace MagneticBearing

/-- What a physical bearing is built from; lengths in metres, the span in degrees. -/
structure Geometry (K : Type) where
  saturationField : K
  /-- The bias field as a fraction of the saturation field. -/
  biasFraction : K
  poleSpan : K
  airgap : K
  rotorRadius : K
  laminationLength : K
  turns : K
  deriving Repr

structure Physical (K : Type) where
  saturationField : K
  biasFraction : K
  /-- In radians. -/
  poleSpan : K
  airgap : K
  rotorRadius : K
  laminationLength : K
  turns : K
  bias : K
  k1 : K
  k2 : K
  deriving Repr

variable {K : Type} [Scalar K]

/-- The permeability of free space. -/
def permeability : K := Scalar.pi * 4e-7

namespace Geometry

def prototype : Geometry K where
  saturationField := 1.16
  biasFraction := (1.0 + 1.0 / Scalar.sqrt 2.0) / 3.0
  poleSpan := 110.0
  airgap := 0.001
  rotorRadius := 0.0401
  laminationLength := 0.0165
  turns := 1000.0

def check (g : Geometry K) : Except (AllocationError K) Unit := do
  requirePositive .saturationField g.saturationField
  requirePositive .airgap g.airgap
  requirePositive .rotorRadius g.rotorRadius
  requirePositive .laminationLength g.laminationLength
  requirePositive .turns g.turns
  if !(0.0 < g.biasFraction && g.biasFraction < 1.0) then
    throw (.invalidParameter .biasFraction g.biasFraction)
  if !(0.0 < g.poleSpan && g.poleSpan < 120.0) then
    throw (.invalidParameter .poleSpan g.poleSpan)

def derive (g : Geometry K) : Physical K :=
  let span := Direction.toRadians g.poleSpan
  let area := g.rotorRadius * span * g.laminationLength
  let correction := 2.0 * Scalar.sin (span / 2.0) / span
  { saturationField := g.saturationField
    biasFraction := g.biasFraction
    poleSpan := span
    airgap := g.airgap
    rotorRadius := g.rotorRadius
    laminationLength := g.laminationLength
    turns := g.turns
    bias := g.biasFraction * g.saturationField
    k1 := correction * area / (2.0 * permeability)
    k2 := g.turns * permeability / g.airgap }

end Geometry

namespace Physical

def build (g : Geometry K) : Except (AllocationError K) (Physical K) := do
  g.check
  return g.derive

/-- Replace the geometric constants by a measured fit. -/
def withFit (b : Physical K) (c1 c2 : K) : Except (AllocationError K) (Physical K) := do
  requirePositive .linearFit c1
  requirePositive .quadraticFit c2
  return { b with k1 := c1 * c1 / (4.0 * b.bias * b.bias * c2), k2 := 2.0 * b.bias * c2 / c1 }

def bearing (b : Physical K) : RatedBearing K where
  law := ⟨b.k1, 2.0 * b.bias * b.k1⟩
  ampsPerUnit := 1.0 / b.k2
  turns := b.turns
  bias := b.bias
  saturated := fun e => b.saturationField < (e.addEach b.bias).peak
  limit := b.saturationField
  hexagonBound := b.k1 * b.saturationField * b.saturationField

end Physical

end MagneticBearing
