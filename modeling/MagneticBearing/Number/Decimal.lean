/-
  MagneticBearing.Number.Decimal — how a running number is written.

  `plain` writes the fewest digits that read back as the same double, the nearest such when
  several do, and never an exponent: `0.0000001`, `1000000000000000000000`. `fixed k` writes `k`
  places of the exact value, a half going to the even digit. Both keep the sign of a zero and
  write `NaN` and `inf`.

  The reals that round to a double `m · 2^e` form an interval around it: half a place up, half
  a place down (a quarter at the foot of a binade), ends included iff `m` is even. `shortest`
  tries 1, 2, … digits and takes the first grid one of whose two points next to the value lies
  in the interval; if any point of a grid does, one of those two does.
-/

import MagneticBearing.Number.Binary64

namespace MagneticBearing.Number.Decimal

open Binary64

/-- Significant digits `digits`, worth `digits · 10^exponent`. -/
structure Digits where
  digits : Nat
  exponent : Int
  deriving DecidableEq, Repr

/-- A value and the ends of its rounding interval, all over one denominator. -/
structure Interval where
  value : Nat
  low : Nat
  high : Nat
  den : Nat
  closed : Bool

/-- The interval of `m · 2^e`, in quarters of the last place. -/
def interval (m : Nat) (e : Int) : Interval :=
  let scale := ratio 1 (e - 2)
  let foot := m = impliedBit ∧ lowest < e
  ⟨4 * m * scale.1, (4 * m - if foot then 1 else 2) * scale.1, (4 * m + 2) * scale.1, scale.2, m % 2 = 0⟩

/-- Does `n · 10^g` round to the value? -/
def Interval.holds (i : Interval) (n : Nat) (g : Int) : Bool :=
  let point := if 0 ≤ g then n * Nat.pow 10 g.toNat * i.den else n * i.den
  let unit := if 0 ≤ g then 1 else Nat.pow 10 (-g).toNat
  if i.closed then i.low * unit ≤ point && point ≤ i.high * unit
  else i.low * unit < point && point < i.high * unit

/-- The point of the grid `10^g` that stands for the value, if one does; of two the nearer, and
the upper of two equally near. -/
def Interval.point? (i : Interval) (g : Int) : Option Nat :=
  let num := if 0 ≤ g then i.value else i.value * Nat.pow 10 (-g).toNat
  let den := if 0 ≤ g then i.den * Nat.pow 10 g.toNat else i.den
  let down := num / den
  let up := down + 1
  match i.holds down g && down ≠ 0, i.holds up g with
  | true, true => some (if 2 * (num % den) < den then down else up)
  | true, false => some down
  | false, true => some up
  | false, false => none

/-- The decimal exponent of the leading digit of `num / den`. -/
def leading (num den : Nat) : Int :=
  let guess : Int := (digitCount num : Int) - digitCount den
  let reached := if 0 ≤ guess then Nat.pow 10 guess.toNat * den ≤ num else den ≤ num * Nat.pow 10 (-guess).toNat
  if reached then guess else guess - 1

def firstPoint (i : Interval) (top : Int) : Nat → Nat → Digits
  | 0, _ => ⟨0, 0⟩
  | tries + 1, places =>
    let g := top - places
    match i.point? g with
    | some n => ⟨n, g⟩
    | none => firstPoint i top tries (places + 1)

/-- Seventeen digits always suffice. -/
def shortest (m : Nat) (e : Int) : Digits :=
  let i := interval m e
  firstPoint i (leading i.value i.den) 18 0

/-! ## Texts -/

def digitChars (n : Nat) : List Char := Nat.toDigits 10 n

def zeros (n : Nat) : List Char := List.replicate n '0'

def signed (neg : Bool) (cs : List Char) : String := String.ofList (if neg then '-' :: cs else cs)

/-- `n · 10^g` written out in full. -/
def positional (n : Nat) (g : Int) : List Char :=
  let ds := digitChars n
  if 0 ≤ g then ds ++ zeros g.toNat
  else
    let places := (-g).toNat
    if places < ds.length then ds.take (ds.length - places) ++ '.' :: ds.drop (ds.length - places)
    else '0' :: '.' :: (zeros (places - ds.length) ++ ds)

/-- The digits of a numeral without zeros at its end. -/
def trimmed : Nat → Digits → Digits
  | 0, d => d
  | fuel + 1, d => if d.digits % 10 = 0 ∧ d.digits ≠ 0 then trimmed fuel ⟨d.digits / 10, d.exponent + 1⟩ else d

def shortestOf (m : Nat) (e : Int) : Digits := trimmed 400 (shortest m e)

def plain (x : Float) : String :=
  match decode x with
  | .nan => "NaN"
  | .infinite neg => signed neg ['i', 'n', 'f']
  | .finite neg m e =>
    if m = 0 then signed neg ['0']
    else
      let d := shortestOf m e
      signed neg (positional d.digits d.exponent)

/-- `x` with `places` digits after the point. -/
def fixed (places : Nat) (x : Float) : String :=
  match decode x with
  | .nan => "NaN"
  | .infinite neg => signed neg ['i', 'n', 'f']
  | .finite neg m e =>
    let r := ratio m e
    let ds := digitChars (roundDiv (r.1 * Nat.pow 10 places) r.2)
    let padded := zeros (places + 1 - ds.length) ++ ds
    let whole := padded.take (padded.length - places)
    let fraction := padded.drop (padded.length - places)
    signed neg (if places = 0 then whole else whole ++ '.' :: fraction)

end MagneticBearing.Number.Decimal
