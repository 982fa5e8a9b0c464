/-
  MagneticBearing.Scalar — the numbers that every formula of the library is written over.

  The force law, its inverse, the searches, the rating and the drive's integer units are stated
  once, over any type `K` of numbers. `Float` runs (`MagneticBearing.Scalar.Running`); an exact
  field can stand in its place, and then the extra questions of a rounded format (`finite`,
  the sign of a zero, the order of what is not a number) have their plain answers.

  - `Arith`: field operations, order and decimal constants; enough for the searches.
  - `Scalar`: roots, trigonometry, remainders and the ways in and out of whole numbers.
-/

import MagneticBearing.Number.Numeral

namespace MagneticBearing

open MagneticBearing.Number (Numeral)

class Arith (K : Type) extends Add K, Sub K, Mul K, Div K, Neg K, LT K, LE K, BEq K, OfScientific K where
  decLT : DecidableLT K
  decLE : DecidableLE K
  abs : K → K
  /-- The sign, which a zero of a rounded format carries too. -/
  negative : K → Bool
  finite : K → Bool

attribute [reducible, instance] Arith.decLT Arith.decLE

-- A type that has these of its own keeps them: the class only speaks for a `K` that is not known.
attribute [instance(50)] Arith.toAdd Arith.toSub Arith.toMul Arith.toDiv Arith.toNeg Arith.toLT Arith.toLE
  Arith.toBEq Arith.toOfScientific

class Scalar (K : Type) extends Arith K where
  pi : K
  sqrt : K → K
  cbrt : K → K
  pow : K → K → K
  sin : K → K
  cos : K → K
  /-- The angle of the point `(x, y)`, ordinate first. -/
  atan2 : K → K → K
  hypot : K → K → K
  /-- What is left of the quotient cut toward zero; it has the dividend's sign. -/
  rem : K → K → K
  /-- The total order that selections use: what is not a number comes last. -/
  notAfter : K → K → Bool
  ofInt : Int → K
  ofNumeral : Numeral → K
  /-- Cut toward zero and clamped to 64 bits. -/
  toWhole : K → Int

namespace Arith

variable {K : Type} [Arith K]

/-- The spacing of doubles at one, `2^-52`. -/
def epsilon : K := 1.0 / 4503599627370496.0

/-- The larger of two numbers; against what is not a number, the number. -/
def larger (a b : K) : K := if a ≤ b then b else if a == a then a else b

def smaller (a b : K) : K := if b ≤ a then b else if a == a then a else b

/-- Both are numbers and have the same sign. -/
def sameSign (a b : K) : Bool := a == a && b == b && negative a == negative b

end Arith

namespace Scalar

variable {K : Type} [Scalar K]

/-- The first of the smallest under `key`. -/
def leastBy {α : Type} (key : α → K) : List α → Option α
  | [] => none
  | x :: xs => some (xs.foldl (fun best y => if notAfter (key best) (key y) then best else y) x)

/-- The last of the largest under `key`. -/
def greatestBy {α : Type} (key : α → K) : List α → Option α
  | [] => none
  | x :: xs => some (xs.foldl (fun best y => if notAfter (key best) (key y) then y else best) x)

end Scalar

end MagneticBearing
