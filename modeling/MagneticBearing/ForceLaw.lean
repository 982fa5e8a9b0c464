/-
  MagneticBearing.ForceLaw — the quadratic force law and its inversion.

  An excitation `e` (a field or a current per pole) produces the radial force
  `F = quadratic · S(e²) + linear · S(e)`, with `S` the space vector. Without a common mode this
  is a map of the plane, `F(s) = quadratic · conj(s)² / 3 + linear · s` (`ForceLaw.ofVector`).

  Its inverse goes through a depressed quartic in one coordinate of `s` (`quartic`), whose roots
  are completed to a whole `s` (`pair`). `imaginaryFirst` divides by the root, which vanishes as
  the force turns onto the axis of pole one, so near that axis `realFirst` is used. A completed
  root is polished by Newton steps (`refine`) and kept if it then yields the force (`reproduces`).
-/

import MagneticBearing.Direction
import MagneticBearing.Quartic
import MagneticBearing.SpaceVector

namespace MagneticBearing

/-- Which coordinate of the space vector the quartic is for. -/
inductive Formulation where
  | imaginaryFirst
  | realFirst
  deriving DecidableEq, Repr

structure ForceLaw (K : Type) where
  quadratic : K
  linear : K
  deriving Repr

variable {K : Type} [Scalar K]

/-- Directions closer than this to the axis of pole one are solved for the real part first. -/
def axisMargin : K := 1.0

def Formulation.forDirection (deg : K) : Formulation :=
  let d := Direction.wrap deg
  let near (axis : K) : Bool := Arith.abs (d - axis) < axisMargin
  if near 0.0 || near 180.0 || near 360.0 then .realFirst else .imaginaryFirst

namespace ForceLaw

/-- Relative miss that a solution may have, and the relative distance under which two are one. -/
def tolerance : K := 1e-9

def refineSteps : Nat := 50

/-- The quartic whose roots are the first coordinates of the solutions. -/
def quartic (law : ForceLaw K) (form : Formulation) (fx fy : K) : Quartic K :=
  let a := law.quadratic
  let b := law.linear
  match form with
  | .imaginaryFirst =>
    ⟨(-27.0 * b * b + 12.0 * a * fx) / (4.0 * a * a),
      9.0 * b * fy / (a * a),
      -(9.0 * fy * fy) / (4.0 * a * a)⟩
  | .realFirst =>
    ⟨-(27.0 * b * b + 12.0 * a * fx) / (4.0 * a * a),
      (27.0 * (b * b * b) + 36.0 * a * b * fx) / (4.0 * (a * a * a)),
      -(27.0 * b * b * fx + 9.0 * a * fy * fy) / (4.0 * (a * a * a))⟩

/-- The space vector with first coordinate `root`; none where completing it divides by zero. -/
def pair (law : ForceLaw K) (form : Formulation) (fy root : K) : Option (SpaceVector K) :=
  let a := law.quadratic
  let b := law.linear
  match form with
  | .imaginaryFirst =>
    if Arith.abs root < Quartic.zeroTolerance then none
    else some ⟨1.5 * (b / a - fy / (a * root)), root⟩
  | .realFirst =>
    let d := 3.0 * b - 2.0 * a * root
    if Arith.abs d ≤ Quartic.zeroTolerance * Arith.abs (3.0 * b) then none
    else some ⟨root, 3.0 * fy / d⟩

/-- The force of an excitation per pole, common mode included. -/
def ofPoles (law : ForceLaw K) (e : Poles K) : Cx K :=
  Cx.scale law.quadratic (SpaceVector.ofPoles e.squared) + Cx.scale law.linear (SpaceVector.ofPoles e)

/-- The force of the excitation without common mode that `s` encodes. -/
def ofVector (law : ForceLaw K) (s : SpaceVector K) : Cx K :=
  Cx.divReal (Cx.scale law.quadratic (s.conj * s.conj)) 3.0 + Cx.scale law.linear s

def force (law : ForceLaw K) (e : Poles K) : Force K := Force.ofVector (law.ofPoles e)

/-! ## Polishing -/

/-- The Newton step toward `target`; none where the derivative is singular. -/
def newtonStep (law : ForceLaw K) (target s : Cx K) : Option (Cx K) :=
  let a := law.quadratic
  let b := law.linear
  let miss := law.ofVector s - target
  let j11 := b + 2.0 * a * s.re / 3.0
  let j22 := b - 2.0 * a * s.re / 3.0
  let j12 := -2.0 * a * s.im / 3.0
  let det := j11 * j22 - j12 * j12
  if !Arith.finite det || Arith.abs det ≤ Quartic.zeroTolerance * b * b then none
  else some ⟨(j22 * miss.re - j12 * miss.im) / det, (j11 * miss.im - j12 * miss.re) / det⟩

def refineFrom (law : ForceLaw K) (target : Cx K) : Nat → SpaceVector K → SpaceVector K
  | 0, s => s
  | steps + 1, s =>
    match law.newtonStep target s with
    | none => s
    | some d =>
      let next := s - d
      if d.norm ≤ Arith.epsilon * next.norm || !next.finite then next else refineFrom law target steps next

def refine (law : ForceLaw K) (s target : Cx K) : SpaceVector K := law.refineFrom target refineSteps s

/-- Does `s` yield `target`, up to the tolerance beside the largest term of the law? -/
def reproduces (law : ForceLaw K) (s target : Cx K) : Bool :=
  let n := s.norm
  let size := target.norm + law.linear * n + law.quadratic * n * n / 3.0
  let miss := (law.ofVector s - target).norm
  Arith.finite miss && miss ≤ tolerance * size

end ForceLaw

end MagneticBearing
