/-
  MagneticBearing.Search.Brent — a root between two points where the values differ in sign.

  `cur` is the best point so far, `pre` the one before it, and `blk` the point across the root, so
  that `cur` and `blk` always bracket it. Each round asks for one point: by inverse quadratic or
  linear interpolation where that is a small enough step, else by bisection, and never closer
  to `cur` than the tolerance there.
-/

import MagneticBearing.Search

namespace MagneticBearing.Search

variable {K : Type} [Arith K]

namespace Brent

def absoluteTolerance : K := 2e-12

def relativeTolerance : K := 4.0 * Arith.epsilon

def rounds : Nat := 100

/-- A point and the value there. -/
structure Sample (K : Type) where
  x : K
  f : K

structure State (K : Type) where
  pre : Sample K
  cur : Sample K
  blk : Sample K
  /-- The last two steps, the older first. -/
  stepBefore : K
  step : K

/-- If the root lies between the last two points, the older one is across it. -/
def rebracket (s : State K) : State K :=
  if s.pre.f != 0.0 && s.cur.f != 0.0 && !Arith.sameSign s.pre.f s.cur.f then
    let d := s.cur.x - s.pre.x
    { s with blk := s.pre, stepBefore := d, step := d }
  else s

/-- Keep the smaller value as the current one. -/
def keepBest (s : State K) : State K :=
  if Arith.abs s.blk.f < Arith.abs s.cur.f then { s with pre := s.cur, cur := s.blk, blk := s.cur } else s

/-- Half the distance that ends the search at `x`. -/
def slack (x : K) : K := (absoluteTolerance + relativeTolerance * Arith.abs x) / 2.0

/-- The step that interpolation proposes: linear through two points, else inverse quadratic. -/
def interpolated (s : State K) : K :=
  if s.pre.x == s.blk.x then -s.cur.f * (s.cur.x - s.pre.x) / (s.cur.f - s.pre.f)
  else
    let dpre := (s.pre.f - s.cur.f) / (s.pre.x - s.cur.x)
    let dblk := (s.blk.f - s.cur.f) / (s.blk.x - s.cur.x)
    let rise := -s.cur.f * (s.blk.f * dblk - s.pre.f * dpre)
    rise / (dblk * dpre * (s.blk.f - s.pre.f))

def half (s : State K) : K := (s.blk.x - s.cur.x) / 2.0

/-- The last two steps after this round, the older first. -/
def chooseStep (s : State K) : K × K :=
  let d := slack s.cur.x
  let h := half s
  if d < Arith.abs s.stepBefore && Arith.abs s.cur.f < Arith.abs s.pre.f then
    let t := interpolated s
    if 2.0 * Arith.abs t < Arith.smaller (Arith.abs s.stepBefore) (3.0 * Arith.abs h - d) then (s.step, t)
    else (h, h)
  else (h, h)

def nextPoint (s : State K) (step : K) : K :=
  let d := slack s.cur.x
  if d < Arith.abs step then s.cur.x + step
  else s.cur.x + (if 0.0 < half s then d else -d)

def loop : Nat → State K → Search K
  | 0, _ => .noConvergence rounds
  | n + 1, s =>
    let s := keepBest (rebracket s)
    if s.cur.f == 0.0 || Arith.abs (half s) < slack s.cur.x then .found s.cur.x
    else
      let (before, step) := chooseStep s
      let x := nextPoint s step
      .ask x fun f => loop n { s with pre := s.cur, cur := ⟨x, f⟩, stepBefore := before, step := step }

end Brent

/-- A root between `a` and `b`, where the values must differ in sign. -/
def brent (a b : K) : Search K :=
  .ask a fun fa => .ask b fun fb =>
    if fa == 0.0 then .found a
    else if fb == 0.0 then .found b
    else if Arith.sameSign fa fb then .notBracketed a b
    else Brent.loop Brent.rounds ⟨⟨a, fa⟩, ⟨b, fb⟩, ⟨0.0, 0.0⟩, 0.0, 0.0⟩

end MagneticBearing.Search
