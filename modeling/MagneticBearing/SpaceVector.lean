/-
  MagneticBearing.SpaceVector — three pole quantities as one complex number.

  Currents or fields `x₁, x₂, x₃` on poles a third of a turn apart are encoded as
  `x₁ + a x₂ + a² x₃` with `a` the rotation by a third of a turn. `toPoles` is the way back
  for quantities without a common mode; a common mode is what the encoding loses.
-/

import MagneticBearing.Cx

namespace MagneticBearing

/-- One quantity per pole. -/
structure Poles (K : Type) where
  p1 : K
  p2 : K
  p3 : K
  deriving Repr

abbrev SpaceVector (K : Type) := Cx K

namespace Poles

variable {K : Type}

def map {L : Type} (f : K → L) (x : Poles K) : Poles L := ⟨f x.p1, f x.p2, f x.p3⟩

def toList (x : Poles K) : List K := [x.p1, x.p2, x.p3]

section Field

variable [Arith K]

/-- The same amount added to every pole. -/
def addEach (x : Poles K) (c : K) : Poles K := x.map (· + c)

def scale (x : Poles K) (c : K) : Poles K := x.map (· * c)

def divEach (x : Poles K) (c : K) : Poles K := x.map (· / c)

def squared (x : Poles K) : Poles K := x.map fun e => e * e

def normSq (x : Poles K) : K := x.p1 * x.p1 + x.p2 * x.p2 + x.p3 * x.p3

/-- The largest magnitude over the poles. -/
def peak (x : Poles K) : K :=
  let top (a b : K) : K := if b ≤ a then a else b
  top (top (Arith.abs x.p1) (Arith.abs x.p2)) (Arith.abs x.p3)

end Field

def norm [Scalar K] (x : Poles K) : K := Scalar.sqrt x.normSq

end Poles

namespace SpaceVector

variable {K : Type} [Scalar K]

/-- The rotation by a third of a turn. -/
def rotation : Cx K := Cx.ofPolar 1.0 (2.0 * Scalar.pi / 3.0)

def ofPoles (x : Poles K) : SpaceVector K :=
  let a : Cx K := rotation
  Cx.shift x.p1 (Cx.scale x.p2 a) + Cx.scale x.p3 (a * a)

/-- The pole quantities without common mode that `s` encodes. -/
def toPoles (s : SpaceVector K) : Poles K :=
  let h : K := 1.0 / Scalar.sqrt 3.0
  ⟨2.0 / 3.0 * s.re, -(1.0 / 3.0) * s.re + h * s.im, -(1.0 / 3.0) * s.re - h * s.im⟩

/-- Angle and peak of a balanced set. -/
def angleAndPeak (x : Poles K) : K × K :=
  let s := ofPoles x
  (s.arg, 2.0 / 3.0 * s.norm)

end SpaceVector

end MagneticBearing
