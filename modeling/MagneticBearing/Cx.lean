/-
  MagneticBearing.Cx — complex numbers over the library's numbers.

  Products and quotients are the textbook ones in the textbook order, so that rounding is
  the same wherever they are used. Roots and angles are principal ones; on the negative axis
  the sign of a zero imaginary part chooses the side, as it does for a rounded format.
-/

import MagneticBearing.Scalar

namespace MagneticBearing

structure Cx (K : Type) where
  re : K
  im : K
  deriving Repr

namespace Cx

variable {K : Type}

section Field

variable [Arith K]

def ofReal (x : K) : Cx K := ⟨x, 0.0⟩

def zero : Cx K := ofReal 0.0

def conj (z : Cx K) : Cx K := ⟨z.re, -z.im⟩

def normSq (z : Cx K) : K := z.re * z.re + z.im * z.im

def finite (z : Cx K) : Bool := Arith.finite z.re && Arith.finite z.im

instance : Add (Cx K) := ⟨fun z w => ⟨z.re + w.re, z.im + w.im⟩⟩

instance : Sub (Cx K) := ⟨fun z w => ⟨z.re - w.re, z.im - w.im⟩⟩

instance : Neg (Cx K) := ⟨fun z => ⟨-z.re, -z.im⟩⟩

instance : Mul (Cx K) := ⟨fun z w => ⟨z.re * w.re - z.im * w.im, z.re * w.im + z.im * w.re⟩⟩

/-- A number times a complex number. -/
def scale (a : K) (z : Cx K) : Cx K := ⟨a * z.re, a * z.im⟩

/-- A number added to a complex number. -/
def shift (a : K) (z : Cx K) : Cx K := ⟨a + z.re, z.im⟩

def divReal (z : Cx K) (a : K) : Cx K := ⟨z.re / a, z.im / a⟩

/-- A number divided by a complex number. -/
def under (a : K) (z : Cx K) : Cx K :=
  let n := z.normSq
  ⟨a * z.re / n, 0.0 - a * z.im / n⟩

end Field

section Polar

variable [Scalar K]

def norm (z : Cx K) : K := Scalar.hypot z.re z.im

def arg (z : Cx K) : K := Scalar.atan2 z.im z.re

def ofPolar (r angle : K) : Cx K := ⟨r * Scalar.cos angle, r * Scalar.sin angle⟩

/-- The principal square root. -/
def sqrt (z : Cx K) : Cx K :=
  if z.im == 0.0 then
    if Arith.negative z.re then
      let y := Scalar.sqrt (-z.re)
      ⟨0.0, if Arith.negative z.im then -y else y⟩
    else ⟨Scalar.sqrt z.re, z.im⟩
  else if z.re == 0.0 then
    let x := Scalar.sqrt (Arith.abs z.im / 2.0)
    ⟨x, if Arith.negative z.im then -x else x⟩
  else ofPolar (Scalar.sqrt z.norm) (z.arg / 2.0)

/-- The principal cube root. -/
def cbrt (z : Cx K) : Cx K := ofPolar (Scalar.cbrt z.norm) (z.arg / 3.0)

end Polar

end Cx

end MagneticBearing
