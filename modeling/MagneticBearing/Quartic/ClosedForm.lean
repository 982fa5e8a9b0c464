/-
  MagneticBearing.Quartic.ClosedForm — the roots of a depressed quartic by radicals.

  The resolvent `8 m³ + 8 p m² + (2 p² - 8 r) m - q² = 0` is solved by Cardano's formula: with
  `d₁ = -16 p² - 192 r` and `d₂ = 128 p³ + 1728 q² - 4608 p r`, its discriminant is
  `4 d₁³ + d₂²`, and `c` is the real cube root of `d₂ + √disc` or, where `disc` is negative, the
  principal one of `d₂ + i √(-disc)`. From the resolvent root `m` of the largest magnitude the
  quartic splits into two quadratics. A zero `c` or `m` is an error, not a division by zero.
-/

import MagneticBearing.Quartic

namespace MagneticBearing.Quartic

variable {K : Type} [Scalar K]

namespace ClosedForm

/-- `d₁` and `d₂`. -/
def cubicTerms (c : Quartic K) : K × K :=
  (-16.0 * c.p * c.p - 192.0 * c.r, 128.0 * (c.p * c.p * c.p) + 1728.0 * c.q * c.q - 4608.0 * c.p * c.r)

def discriminant (d1 d2 : K) : K := 4.0 * (d1 * d1 * d1) + d2 * d2

/-- The cube root that Cardano's formula is written in. -/
def radical (d1 d2 : K) : Cx K :=
  let disc := discriminant d1 d2
  if 0.0 ≤ disc then Cx.ofReal (Scalar.cbrt (d2 + Scalar.sqrt disc))
  else Cx.cbrt ⟨d2, Scalar.sqrt (-disc)⟩

/-- The three roots of the resolvent. -/
def auxiliaryRoots (c : Quartic K) : Except (DegenerateAuxiliary K) (List (Cx K)) :=
  let (d1, d2) := cubicTerms c
  let u := radical d1 d2
  if u.norm < zeroTolerance then .error ⟨c⟩
  else
    let t1 := Cx.ofReal (c.p / 3.0)
    let t2 := Cx.under d1 (Cx.scale (12.0 * Scalar.pow 2.0 (2.0 / 3.0)) u)
    let t3 := Cx.divReal u (24.0 * Scalar.cbrt 2.0)
    let a : Cx K := ⟨1.0, Scalar.sqrt 3.0⟩
    let b : Cx K := ⟨1.0, -Scalar.sqrt 3.0⟩
    .ok [-t1 - t2 + t3,
      -t1 + Cx.divReal (a * t2) 2.0 - Cx.divReal (b * t3) 2.0,
      -t1 + Cx.divReal (b * t2) 2.0 - Cx.divReal (a * t3) 2.0]

def auxiliaryRoot (c : Quartic K) : Except (DegenerateAuxiliary K) (Cx K) := do
  let ms ← auxiliaryRoots c
  let m := (Scalar.greatestBy Cx.norm ms).getD Cx.zero
  if m.norm < zeroTolerance then .error ⟨c⟩ else .ok m

/-- The roots of the two quadratics that `m` splits the quartic into. -/
def fromAuxiliary (c : Quartic K) (m : Cx K) : List (Cx K) :=
  let t1 := Cx.sqrt (Cx.scale 2.0 m)
  let t2 := Cx.shift (2.0 * c.p) (Cx.scale 2.0 m)
  let t3 := Cx.scale c.q (Cx.sqrt (Cx.under 2.0 m))
  let plus := Cx.sqrt (-(t2 + t3))
  let minus := Cx.sqrt (-(t2 - t3))
  [Cx.divReal (t1 + plus) 2.0, Cx.divReal (t1 - plus) 2.0,
    Cx.divReal (-t1 + minus) 2.0, Cx.divReal (-t1 - minus) 2.0]

end ClosedForm

def closedForm : RootFinder K := fun c => (ClosedForm.auxiliaryRoot c).map (ClosedForm.fromAuxiliary c)

end MagneticBearing.Quartic
