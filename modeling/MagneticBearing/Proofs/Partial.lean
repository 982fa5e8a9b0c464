/-
  MagneticBearing.Proofs.Partial — numbers among which a quotient by zero is undefined.

  What is computed from an undefined number is undefined too, and no comparison with one holds. A formula
  of the library, taken over these numbers, therefore says of itself whether it divides by zero: its value
  at defined numbers is the defined one of before only if every quotient that enters it has a divisor
  other than zero.
-/

import MagneticBearing.Scalar

namespace MagneticBearing

open MagneticBearing.Number (Numeral)

inductive Partial (K : Type) where
  | undefined
  | defined (x : K)

namespace Partial

variable {K : Type}

def map (g : K → K) : Partial K → Partial K
  | .undefined => .undefined
  | .defined x => .defined (g x)

def map₂ (g : K → K → K) : Partial K → Partial K → Partial K
  | .defined x, .defined y => .defined (g x y)
  | _, _ => .undefined

/-- Both are defined and stand in the relation. -/
def Both (r : K → K → Prop) : Partial K → Partial K → Prop
  | .defined x, .defined y => r x y
  | _, _ => False

instance (r : K → K → Prop) [DecidableRel r] (x y : Partial K) : Decidable (Both r x y) :=
  match x, y with
  | .defined x, .defined y => inferInstanceAs (Decidable (r x y))
  | .undefined, _ => .isFalse id
  | .defined _, .undefined => .isFalse id

/-- Both are defined and pass the test. -/
def both (r : K → K → Bool) : Partial K → Partial K → Bool
  | .defined x, .defined y => r x y
  | _, _ => false

def test (r : K → Bool) : Partial K → Bool
  | .undefined => false
  | .defined x => r x

section Operations

variable [Arith K]

/-- What there is only for a second number other than zero. -/
def guarded (g : K → K → K) : Partial K → Partial K → Partial K
  | .defined x, .defined y => if y == 0.0 then .undefined else .defined (g x y)
  | _, _ => .undefined

instance arith : Arith (Partial K) where
  add := map₂ (· + ·)
  sub := map₂ (· - ·)
  mul := map₂ (· * ·)
  div := guarded (· / ·)
  neg := map (- ·)
  lt := Both (· < ·)
  le := Both (· ≤ ·)
  beq := both (· == ·)
  ofScientific m s e := .defined (OfScientific.ofScientific m s e)
  decLT x y := inferInstanceAs (Decidable (Both (· < ·) x y))
  decLE x y := inferInstanceAs (Decidable (Both (· ≤ ·) x y))
  abs := map Arith.abs
  negative := test Arith.negative
  finite := test Arith.finite

@[simp] theorem defined_add (x y : K) : Partial.defined x + Partial.defined y = .defined (x + y) := rfl
@[simp] theorem defined_sub (x y : K) : Partial.defined x - Partial.defined y = .defined (x - y) := rfl
@[simp] theorem defined_mul (x y : K) : Partial.defined x * Partial.defined y = .defined (x * y) := rfl
@[simp] theorem defined_neg (x : K) : -Partial.defined x = .defined (-x) := rfl
@[simp] theorem defined_lt (x y : K) : Partial.defined x < Partial.defined y ↔ x < y := Iff.rfl
@[simp] theorem defined_le (x y : K) : Partial.defined x ≤ Partial.defined y ↔ x ≤ y := Iff.rfl
@[simp] theorem defined_beq (x y : K) : (Partial.defined x == Partial.defined y) = (x == y) := rfl
@[simp] theorem defined_abs (x : K) : Arith.abs (Partial.defined x) = .defined (Arith.abs x) := rfl

@[simp] theorem defined_decimal (m : Nat) (s : Bool) (e : Nat) :
    (OfScientific.ofScientific m s e : Partial K) = .defined (OfScientific.ofScientific m s e) := rfl

theorem defined_div (x : K) {y : K} (h : (y == 0.0) = false) :
    Partial.defined x / Partial.defined y = .defined (x / y) := by
  show (if y == 0.0 then Partial.undefined else .defined (x / y)) = _
  rw [h]
  rfl

end Operations

instance scalar [Scalar K] : Scalar (Partial K) where
  pi := .defined Scalar.pi
  sqrt := map Scalar.sqrt
  cbrt := map Scalar.cbrt
  pow := map₂ Scalar.pow
  sin := map Scalar.sin
  cos := map Scalar.cos
  atan2 := map₂ Scalar.atan2
  hypot := map₂ Scalar.hypot
  rem := guarded Scalar.rem
  notAfter x y :=
    match x, y with
    | _, .undefined => true
    | .undefined, .defined _ => false
    | .defined x, .defined y => Scalar.notAfter x y
  ofInt n := .defined (Scalar.ofInt n)
  ofNumeral n := .defined (Scalar.ofNumeral n)
  toWhole
    | .undefined => 0
    | .defined x => Scalar.toWhole x

@[simp] theorem defined_sqrt [Scalar K] (x : K) : Scalar.sqrt (Partial.defined x) = .defined (Scalar.sqrt x) := rfl

end Partial

end MagneticBearing
