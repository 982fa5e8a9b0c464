/-
  MagneticBearing.Scalar.Running — doubles as the numbers that the library runs on.

  `hypot` keeps its last place: beside the root of the sum of squares it adds a first-order
  correction from the rounding of that root, and it scales by a power of two where a square
  would leave the range.
-/

import MagneticBearing.Number.CubeRoot
import MagneticBearing.Scalar

namespace MagneticBearing.Running

open MagneticBearing.Number

def isNumber (x : Float) : Bool := x == x

def finite (x : Float) : Bool := x - x == 0.0

def negative (x : Float) : Bool := x.toBits.toNat / Nat.pow 2 63 == 1

/-- `2^e`, where a double has it with a whole mantissa. -/
def powerOfTwo (e : Int) : Float := Float.ofBits (UInt64.ofNat (Binary64.encode Binary64.impliedBit (e - 52)))

/-- `√(x² + y²)` for `0 ≤ y ≤ x` whose squares stay in range. -/
def hypotOrdered (x y : Float) : Float :=
  let h := Float.sqrt (x * x + y * y)
  let miss :=
    if h ≤ 2.0 * y then
      let d := h - y
      x * (2.0 * d - x) + (d - 2.0 * (x - y)) * d
    else
      let d := h - x
      2.0 * d * (x - 2.0 * y) + ((4.0 * d - y) * y + d * d)
  h - miss / (2.0 * h)

def hypot (x y : Float) : Float :=
  if !finite x || !finite y then
    if isNumber x && !finite x || isNumber y && !finite y then 1.0 / 0.0 else x + y
  else
    let big := max x.abs y.abs
    let small := min x.abs y.abs
    if powerOfTwo 511 < big then
      if small ≤ big * powerOfTwo (-54) then big + small
      else hypotOrdered (big * powerOfTwo (-600)) (small * powerOfTwo (-600)) * powerOfTwo 600
    else if small < powerOfTwo (-459) then
      if small * powerOfTwo 54 ≤ big then big + small
      else hypotOrdered (big * powerOfTwo 600) (small * powerOfTwo 600) * powerOfTwo (-600)
    else if small ≤ big * powerOfTwo (-54) then big + small
    else hypotOrdered big small

/-- Minus zero comes before zero, and what is not a number comes last, whatever its sign. -/
def notAfter (a b : Float) : Bool :=
  if !isNumber b then true
  else if !isNumber a then false
  else a < b || (a == b && (negative a || !negative b))

def leastWhole : Int := -9223372036854775808

def greatestWhole : Int := 9223372036854775807

def ofInt (n : Int) : Float := Binary64.nearest (n < 0) n.natAbs 1

/-- What is before the point, held to 64 bits; nothing for what is not a number. -/
def toWhole (x : Float) : Int :=
  match Binary64.decode x with
  | .nan => 0
  | .infinite neg => if neg then leastWhole else greatestWhole
  | .finite neg m e =>
    let r := Binary64.ratio m e
    let whole : Int := r.1 / r.2
    max leastWhole (min greatestWhole (if neg then -whole else whole))

instance doubles : Scalar Float where
  decLT := inferInstance
  decLE := inferInstance
  abs := Float.abs
  negative := negative
  finite := finite
  pi := 3.141592653589793
  sqrt := Float.sqrt
  cbrt := Binary64.cubeRoot
  pow := Float.pow
  sin := Float.sin
  cos := Float.cos
  atan2 := Float.atan2
  hypot := hypot
  rem := Binary64.remainder
  notAfter := notAfter
  ofInt := ofInt
  ofNumeral := Numeral.toFloat
  toWhole := toWhole

end MagneticBearing.Running
