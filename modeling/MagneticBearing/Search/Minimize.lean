/-
  MagneticBearing.Search.Minimize — the least value on an interval, by golden section and parabolas.

  `best` is the best point so far, `second` and `third` the next best, and `[a, b]` the bracket
  that the rounds narrow. A round goes to the minimum of the parabola through the three points
  where that stays well inside, else it cuts the larger part in the golden ratio; it never goes
  closer to `best` than the tolerance.
-/

import MagneticBearing.Search

namespace MagneticBearing.Search

variable {K : Type} [Scalar K]

namespace Minimize

def absoluteTolerance : K := 1e-5

/-- Points asked for before giving up. -/
def budget : Nat := 500

/-- The smaller part of the golden section of one. -/
def golden : K := 0.5 * (3.0 - Scalar.sqrt 5.0)

structure Sample (K : Type) where
  x : K
  f : K

structure State (K : Type) where
  a : K
  b : K
  best : Sample K
  second : Sample K
  third : Sample K
  /-- The last step and the one before it. -/
  step : K
  stepBefore : K

def middle (s : State K) : K := 0.5 * (s.a + s.b)

def slack (s : State K) : K := Scalar.sqrt Arith.epsilon * Arith.abs s.best.x + absoluteTolerance / 3.0

/-- Is the bracket still wider than the tolerance around the best point? -/
def wide (s : State K) : Bool :=
  2.0 * slack s - 0.5 * (s.b - s.a) < Arith.abs (s.best.x - middle s)

def unit (x : K) : K := if 0.0 < x then 1.0 else if x < 0.0 then -1.0 else 1.0

/-- A cut of the larger part: the step and the length of that part. -/
def goldenStep (s : State K) : K × K :=
  let part := if middle s ≤ s.best.x then s.a - s.best.x else s.b - s.best.x
  (golden * part, part)

/-- The parabola's step, kept off the ends of the bracket; none where it is too long or leads out. -/
def parabolicStep (s : State K) : Option K :=
  let x := s.best.x
  let r0 := (x - s.second.x) * (s.best.f - s.third.f)
  let q0 := (x - s.third.x) * (s.best.f - s.second.f)
  let p0 := (x - s.third.x) * q0 - (x - s.second.x) * r0
  let q1 := 2.0 * (q0 - r0)
  let p := if 0.0 < q1 then -p0 else p0
  let q := Arith.abs q1
  if Arith.abs p < Arith.abs (0.5 * q * s.stepBefore) && q * (s.a - x) < p && p < q * (s.b - x) then
    let step := p / q
    let y := x + step
    let t := 2.0 * slack s
    some (if y - s.a < t || s.b - y < t then slack s * unit (middle s - x) else step)
  else none

/-- The next step and the length to compare a later one with. -/
def chooseStep (s : State K) : K × K :=
  if slack s < Arith.abs s.stepBefore then
    match parabolicStep s with
    | some step => (step, s.step)
    | none => goldenStep s
  else goldenStep s

def nextPoint (s : State K) (step : K) : K :=
  s.best.x + unit step * Arith.larger (Arith.abs step) (slack s)

/-- Take in the value at a point: a better one becomes the best, a worse one narrows the bracket. -/
def update (s : State K) (y : Sample K) : State K :=
  let x := s.best.x
  if y.f ≤ s.best.f then
    let s := if x ≤ y.x then { s with a := x } else { s with b := x }
    { s with third := s.second, second := s.best, best := y }
  else
    let s := if y.x < x then { s with a := y.x } else { s with b := y.x }
    if y.f ≤ s.second.f || s.second.x == x then { s with third := s.second, second := y }
    else if y.f ≤ s.third.f || s.third.x == x || s.third.x == s.second.x then { s with third := y }
    else s

def loop : Nat → State K → Search K
  | 0, _ => .noConvergence budget
  | n + 1, s =>
    if wide s then
      let (step, before) := chooseStep s
      let x := nextPoint s step
      .ask x fun f => loop n (update { s with step := step, stepBefore := before } ⟨x, f⟩)
    else .found s.best.x

end Minimize

/-- A point of `[lower, upper]` with the least value. -/
def minimize (lower upper : K) : Search K :=
  let x := lower + Minimize.golden * (upper - lower)
  .ask x fun f =>
    let s : Minimize.Sample K := ⟨x, f⟩
    Minimize.loop (Minimize.budget - 1) ⟨lower, upper, s, s, s, 0.0, 0.0⟩

end MagneticBearing.Search
