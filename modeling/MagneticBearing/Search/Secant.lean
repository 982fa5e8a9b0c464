/-
  MagneticBearing.Search.Secant — a root from one starting point, without a bracket.

  Each round goes to where the chord through the last two points meets zero, and stops when that
  is next to the last point. Of the two equal formulas for the meeting point the one that
  divides by the larger value is used.
-/

import MagneticBearing.Search

namespace MagneticBearing.Search

variable {K : Type} [Arith K]

namespace Secant

def tolerance : K := 1.48e-8

def offset : K := 1e-4

/-- Where the chord through `(p0, q0)` and `(p1, q1)` meets zero. -/
def meets (p0 q0 p1 q1 : K) : K :=
  if Arith.abs q0 < Arith.abs q1 then (-q0 / q1 * p1 + p0) / (1.0 - q0 / q1)
  else (-q1 / q0 * p0 + p1) / (1.0 - q1 / q0)

def loop (rounds : Nat) : Nat → K → K → K → K → Search K
  | 0, _, _, _, _ => .noConvergence rounds
  | n + 1, p0, q0, p1, q1 =>
    if q1 == q0 then
      if p1 != p0 then .noConvergence rounds else .found ((p1 + p0) / 2.0)
    else
      let p := meets p0 q0 p1 q1
      if !Arith.finite p then .noConvergence rounds
      else if Arith.abs (p - p1) < tolerance then .found p
      else .ask p fun q => loop rounds n p1 q1 p q

/-- The second point, a little away from `x0` on the side away from zero. -/
def second (x0 : K) : K :=
  x0 * (1.0 + offset) + (if 0.0 ≤ x0 then offset else -offset)

end Secant

/-- A root near `x0`, in at most `rounds` rounds. -/
def secant (x0 : K) (rounds : Nat) : Search K :=
  .ask x0 fun q0 =>
    let p1 := Secant.second x0
    .ask p1 fun q1 =>
      if Arith.abs q1 < Arith.abs q0 then Secant.loop rounds rounds p1 q1 x0 q0
      else Secant.loop rounds rounds x0 q0 p1 q1

end MagneticBearing.Search
