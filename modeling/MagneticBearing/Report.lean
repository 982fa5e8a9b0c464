/-
  MagneticBearing.Report — all candidates for one requested force, with what each produces.

  The selected candidate is the unsaturated one with the smallest norm, the first of several; it
  is the one whose currents `Allocator.controlCurrents` returns.
-/

import MagneticBearing.Allocation

namespace MagneticBearing

structure CandidateReport (K : Type) where
  vector : SpaceVector K
  control : Poles K
  totalField : Poles K
  force : Force K
  saturated : Bool
  deriving Repr

structure Report (K : Type) where
  request : Force K
  formulation : Formulation
  candidates : List (CandidateReport K)
  selected : Option Nat
  deriving Repr

variable {K : Type} [Scalar K]

def CandidateReport.controlNorm (c : CandidateReport K) : K := c.control.norm

/-- The position of the unsaturated candidate with the smallest norm. -/
def Report.select (candidates : List (CandidateReport K)) : Option Nat :=
  let usable := candidates.zipIdx.filter fun c => !c.1.saturated
  (Scalar.leastBy (fun c : CandidateReport K × Nat => c.1.controlNorm) usable).map (·.2)

namespace Allocator

def candidateReport (a : Allocator K) (s : SpaceVector K) : CandidateReport K :=
  let e := SpaceVector.toPoles s
  ⟨s, e, e.addEach a.bearing.bias, a.force e, a.bearing.saturated e⟩

def report (a : Allocator K) (direction magnitude : K) : Except (AllocationError K) (Report K) := do
  let found ← a.solve direction magnitude
  let candidates := found.vectors.map a.candidateReport
  return ⟨Force.inDirection direction magnitude, found.formulation, candidates, Report.select candidates⟩

end Allocator

end MagneticBearing
