/-
  MagneticBearing.Search — searches over one number, apart from what they search on.

  A search is a question tree: it either stops, or asks for the value at a point and goes on with
  what it is told. `run` answers the questions with an objective that may carry a state and may
  fail; the first failure ends the search. So how often and where a search looks is a fact about
  the tree, whatever the objective.
-/

import MagneticBearing.Scalar

namespace MagneticBearing

inductive Search (K : Type) where
  | found (x : K)
  | notBracketed (lower upper : K)
  | noConvergence (iterations : Nat)
  | ask (x : K) (next : K → Search K)

inductive SearchFailure (K ε : Type) where
  | notBracketed (lower upper : K)
  | noConvergence (iterations : Nat)
  | objective (error : ε)
  deriving Repr

namespace Search

variable {K ε σ : Type}

def run (objective : K → σ → Except ε K × σ) : Search K → σ → Except (SearchFailure K ε) K × σ
  | .found x, s => (.ok x, s)
  | .notBracketed lower upper, s => (.error (.notBracketed lower upper), s)
  | .noConvergence n, s => (.error (.noConvergence n), s)
  | .ask x next, s =>
    match objective x s with
    | (.ok y, s) => (next y).run objective s
    | (.error e, s) => (.error (.objective e), s)

/-- The answer on an objective without a state, with the points asked for, in order. -/
def trace (objective : K → Except ε K) (search : Search K) : Except (SearchFailure K ε) K × List K :=
  search.run (fun x seen => (objective x, seen ++ [x])) []

def answer (objective : K → Except ε K) (search : Search K) : Except (SearchFailure K ε) K :=
  (search.run (fun x (_ : Unit) => (objective x, ())) ()).1

end Search

end MagneticBearing
