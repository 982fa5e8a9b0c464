/-
  MagneticBearing.Quartic — depressed quartics `y⁴ + p y² + q y + r` and what finds their roots.

  A root finder gives complex roots, or says why it cannot; `realRoots` keeps those whose
  imaginary part is negligible. Two finders run: the closed form (`Quartic.ClosedForm`) and
  the eigenvalues of the companion matrix (`Quartic.Companion`). Nothing that uses roots
  depends on which one gave them.
-/

import MagneticBearing.Cx

namespace MagneticBearing

structure Quartic (K : Type) where
  p : K
  q : K
  r : K
  deriving Repr

/-- The closed form divides by an auxiliary root of the quartic, and that root is zero. -/
structure DegenerateAuxiliary (K : Type) where
  quartic : Quartic K
  deriving Repr

abbrev RootFinder (K : Type) := Quartic K → Except (DegenerateAuxiliary K) (List (Cx K))

namespace Quartic

variable {K : Type} [Arith K]

def eval (c : Quartic K) (y : K) : K :=
  let y2 := y * y
  y2 * y2 + c.p * y2 + c.q * y + c.r

/-- Roots with an imaginary part below this count as real. -/
def imaginaryTolerance : K := 1e-8

/-- Below this magnitude a root counts as zero. -/
def zeroTolerance : K := 1e-12

def realPart? (z : Cx K) : Option K := if Arith.abs z.im < imaginaryTolerance then some z.re else none

def realRoots (find : RootFinder K) (c : Quartic K) : Except (DegenerateAuxiliary K) (List K) :=
  (find c).map fun roots => roots.filterMap realPart?

end Quartic

end MagneticBearing
