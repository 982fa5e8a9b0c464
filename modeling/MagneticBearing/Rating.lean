/-
  MagneticBearing.Rating — how much force a bearing can deliver before its iron saturates.

  `residual` is the peak field of the least saturated candidate over the limit: negative while
  some candidate stays below it. `maxForce` is where the residual changes sign, searched up to a
  little past the hexagon bound and, should that bracket fail, from one newton by chords. By
  symmetry one sixth of a turn stands for all directions; `ratedForce` is the smallest maximum
  there. Every failed search is a `ratingSearchFailed`; one that a search inside reported keeps
  its own direction.
-/

import MagneticBearing.Allocation
import MagneticBearing.Search.Brent
import MagneticBearing.Search.Minimize
import MagneticBearing.Search.Secant

namespace MagneticBearing

structure Rating (K : Type) where
  bearing : RatedBearing K
  find : RootFinder K

namespace Rating

variable {K : Type} [Scalar K]

def lowestForce : K := 0.1

def boundFactor : K := 1.1

def chordSeed : K := 1.0

def chordRounds : Nat := 100

/-- The directions that stand for all. -/
def sector : K × K := (0.0, 60.0)

def allocator (r : Rating K) : Allocator K := ⟨r.bearing.toBearing, r.find⟩

def residual (r : Rating K) (direction magnitude : K) : Except (AllocationError K) K := do
  let peaks := (← r.allocator.candidates direction magnitude).map r.bearing.peakField
  match Scalar.leastBy id peaks with
  | some peak => return peak - r.bearing.limit
  | none => throw (.noFeasibleSolution direction magnitude)

/-- How a failed search is reported, after `asked` questions. -/
def searchError (direction : K) (asked : Nat) : SearchFailure K (AllocationError K) → AllocationError K
  | .objective (.ratingSearchFailed d n) => .ratingSearchFailed d n
  | .objective _ => .ratingSearchFailed direction asked
  | .noConvergence n => .ratingSearchFailed direction n
  | .notBracketed _ _ => .ratingSearchFailed direction asked

/-- The largest force in a direction before every candidate saturates. -/
def maxForce (r : Rating K) (direction : K) : Except (AllocationError K) K :=
  let upper := boundFactor * r.bearing.hexagonBound
  match (Search.brent lowestForce upper).answer (r.residual direction) with
  | .ok m => .ok m
  | .error _ =>
    match (Search.secant chordSeed chordRounds).run (fun m n => (r.residual direction m, n + 1)) 0 with
    | (.ok m, _) => .ok m
    | (.error e, asked) => .error (searchError direction asked e)

/-- The direction of the sector with the smallest maximum force. -/
def weakestDirection (r : Rating K) : Except (AllocationError K) K :=
  let ask (direction : K) (s : K × Nat) := (r.maxForce direction, direction, s.2 + 1)
  match (Search.minimize sector.1 sector.2).run ask (sector.1, 0) with
  | (.ok d, _) => .ok d
  | (.error e, last, asked) => .error (searchError last asked e)

/-- The force that the bearing delivers in every direction. -/
def ratedForce (r : Rating K) : Except (AllocationError K) K := do r.maxForce (← r.weakestDirection)

end Rating

end MagneticBearing
