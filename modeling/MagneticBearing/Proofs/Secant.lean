/-
  MagneticBearing.Proofs.Secant — the search by chords answers where a chord meets zero.

  Both formulas for the meeting point are the same quotient (`next_eq`). The two points begin apart
  (`second_apart`), and each next point is at least the tolerance away from the last one, so they stay
  distinct. The first chord ends at the point with the larger value, which may be the seed; but from there
  it meets zero at least half its length away (`far_of_larger`), so no answer comes before a third point.

  - `drawn_of_runs`: the two points of every round were asked for, and are distinct.
  - `secant_meets_chord`: no quotient is by zero, and an answer is where the chord through two points asked
    for meets zero, within the tolerance of the last one; a line is answered by its root, with three
    points.
-/

import MagneticBearing.Proofs.OrderedField
import MagneticBearing.Proofs.Rounds
import MagneticBearing.Search.Secant

-- `ExactArith` is what makes the two instances on `K` agree.
set_option linter.overlappingInstances false

namespace MagneticBearing.Search

variable {K ε : Type}

namespace Secant

/-- The last two points and their values. -/
structure State (K : Type) where
  p0 : K
  q0 : K
  p1 : K
  q1 : K

/-! ## A round as a whole -/

section Rounds

variable [Arith K]

/-- The point that the round goes to. -/
def next (s : State K) : K := meets s.p0 s.q0 s.p1 s.q1

/-- The chord is level. -/
def level (s : State K) : Bool := s.q1 == s.q0

def round (limit : ℕ) (s : State K) : Round K (State K) :=
  if level s then
    if s.p1 != s.p0 then .noConvergence limit else .found ((s.p1 + s.p0) / 2.0)
  else if !Arith.finite (next s) then .noConvergence limit
  else if Arith.abs (next s - s.p1) < tolerance then .found (next s)
  else .ask (next s) fun q => ⟨s.p1, s.q1, next s, q⟩

/-- The state that the rounds begin with: the larger value comes second. -/
def start (x0 q0 q1 : K) : State K :=
  if Arith.abs q1 < Arith.abs q0 then ⟨second x0, q1, x0, q0⟩ else ⟨x0, q0, second x0, q1⟩

theorem loop_eq_iterate (limit n : ℕ) (s : State K) :
    loop limit n s.p0 s.q0 s.p1 s.q1 = iterate (round limit) limit n s := by
  induction n generalizing s with
  | zero => rfl
  | succ n ih =>
    rw [iterate, round]
    by_cases hlevel : level s = true
    · rw [if_pos hlevel]
      refine (if_pos hlevel).trans ?_
      split <;> rfl
    rw [if_neg hlevel]
    refine (if_neg hlevel).trans ?_
    by_cases hinfinite : (!Arith.finite (next s)) = true
    · rw [if_pos hinfinite]
      exact if_pos hinfinite
    rw [if_neg hinfinite]
    refine (if_neg hinfinite).trans ?_
    by_cases hclose : Arith.abs (next s - s.p1) < tolerance
    · rw [if_pos hclose]
      exact if_pos hclose
    rw [if_neg hclose]
    refine (if_neg hclose).trans ?_
    exact congrArg _ (funext fun q => ih ⟨s.p1, s.q1, next s, q⟩)

theorem secant_eq (x0 : K) (rounds : ℕ) : secant x0 rounds =
    .ask x0 fun q0 => .ask (second x0) fun q1 => iterate (round rounds) rounds rounds (start x0 q0 q1) := by
  have hrounds (q0 q1 : K) : (if Arith.abs q1 < Arith.abs q0 then loop rounds rounds (second x0) q1 x0 q0
      else loop rounds rounds x0 q0 (second x0) q1) = iterate (round rounds) rounds rounds (start x0 q0 q1) := by
    unfold start
    split
    · exact loop_eq_iterate rounds rounds ⟨second x0, q1, x0, q0⟩
    · exact loop_eq_iterate rounds rounds ⟨x0, q0, second x0, q1⟩
  exact congrArg _ (funext fun q0 => congrArg _ (funext fun q1 => hrounds q0 q1))

/-- The state among numbers of which a quotient by zero is undefined. -/
def State.lift (s : State K) : State (Partial K) := ⟨.defined s.p0, .defined s.q0, .defined s.p1, .defined s.q1⟩

end Rounds

/-! ## Where a chord meets zero -/

section Chords

variable [Field K]

/-- The chord through the two points. -/
def chord (s : State K) (x : K) : K := s.q0 + (s.q1 - s.q0) / (s.p1 - s.p0) * (x - s.p0)

/-- Where it meets zero. -/
def crossing (s : State K) : K := (s.p0 * s.q1 - s.p1 * s.q0) / (s.q1 - s.q0)

theorem chord_eq_zero_iff {s : State K} (hp : s.p0 ≠ s.p1) (hq : s.q0 ≠ s.q1) (x : K) :
    chord s x = 0 ↔ x = crossing s := by
  have hp' : s.p1 - s.p0 ≠ 0 := sub_ne_zero.mpr hp.symm
  have hq' : s.q1 - s.q0 ≠ 0 := sub_ne_zero.mpr hq.symm
  rw [crossing, eq_div_iff hq', chord]
  constructor
  · intro h
    field_simp at h
    linear_combination h
  · intro h
    field_simp
    linear_combination h

theorem one_sub_div_ne_zero {x y : K} (hy : y ≠ 0) (hxy : x ≠ y) : 1 - x / y ≠ 0 := by
  rw [one_sub_div hy]
  exact div_ne_zero (sub_ne_zero.mpr hxy.symm) hy

theorem formula_first {p0 q0 p1 q1 : K} (h1 : q1 ≠ 0) (hq : q0 ≠ q1) :
    (-q0 / q1 * p1 + p0) / (1 - q0 / q1) = (p0 * q1 - p1 * q0) / (q1 - q0) := by
  rw [div_eq_div_iff (one_sub_div_ne_zero h1 hq) (sub_ne_zero.mpr hq.symm)]
  field_simp
  ring

theorem formula_second {p0 q0 p1 q1 : K} (h0 : q0 ≠ 0) (hq : q0 ≠ q1) :
    (-q1 / q0 * p0 + p1) / (1 - q1 / q0) = (p0 * q1 - p1 * q0) / (q1 - q0) := by
  rw [formula_first h0 hq.symm, ← neg_div_neg_eq]
  congr 1 <;> ring

variable [LinearOrder K] [IsStrictOrderedRing K] {s : State K}

/-- The value that a formula is chosen to divide by. -/
theorem larger_ne_zero (hq : s.q0 ≠ s.q1) : |s.q0| < |s.q1| ∧ s.q1 ≠ 0 ∨ ¬ |s.q0| < |s.q1| ∧ s.q0 ≠ 0 := by
  rcases lt_or_ge |s.q0| |s.q1| with hlt | hle
  · exact .inl ⟨hlt, abs_pos.mp ((abs_nonneg _).trans_lt hlt)⟩
  · refine .inr ⟨not_lt.mpr hle, fun h0 => hq ?_⟩
    rw [h0, abs_zero] at hle
    rw [h0, abs_nonpos_iff.mp hle]

/-- From the point with the larger value, the chord meets zero at least half its length away. -/
theorem far_of_larger (hq : s.q0 ≠ s.q1) (hle : |s.q0| ≤ |s.q1|) : |s.p1 - s.p0| ≤ 2 * |crossing s - s.p1| := by
  have hd : s.q1 - s.q0 ≠ 0 := sub_ne_zero.mpr hq.symm
  have e : (crossing s - s.p1) * (s.q1 - s.q0) = -(s.q1 * (s.p1 - s.p0)) := by
    rw [crossing, sub_mul, div_mul_cancel₀ _ hd]
    ring
  have habs : |crossing s - s.p1| * |s.q1 - s.q0| = |s.q1| * |s.p1 - s.p0| := by
    rw [← abs_mul, e, abs_neg, abs_mul]
  have hsum : |s.q1 - s.q0| ≤ 2 * |s.q1| := by
    have := abs_sub s.q1 s.q0
    linarith
  have hpos : 0 < |s.q1| := by
    have := abs_pos.mpr hd
    linarith
  refine le_of_mul_le_mul_left ?_ hpos
  calc |s.q1| * |s.p1 - s.p0| = |crossing s - s.p1| * |s.q1 - s.q0| := habs.symm
    _ ≤ |crossing s - s.p1| * (2 * |s.q1|) := mul_le_mul_of_nonneg_left hsum (abs_nonneg _)
    _ = |s.q1| * (2 * |crossing s - s.p1|) := by ring

end Chords

/-! ## The formulas, on exact numbers -/

section Formulas

variable [Field K] [LinearOrder K] [Arith K] [ExactArith K] {limit : ℕ} {s : State K}

theorem level_iff (s : State K) : level s = true ↔ s.q0 = s.q1 := by
  rw [level, Arith.beq_iff]
  exact eq_comm

theorem round_of_eq (hp : s.p0 ≠ s.p1) (hq : s.q0 = s.q1) : round limit s = .noConvergence limit := by
  rw [round, if_pos ((level_iff s).mpr hq), if_pos]
  simp only [bne, Bool.not_eq_true', ← Bool.not_eq_true, Arith.beq_iff]
  exact hp.symm

variable [IsStrictOrderedRing K]

theorem tolerance_eq : (tolerance : K) = 148 / 10 ^ 10 := by
  simp only [tolerance, Arith.operations]
  norm_num

theorem tolerance_pos : 0 < (tolerance : K) := by
  rw [tolerance_eq]
  positivity

theorem next_eq (hq : s.q0 ≠ s.q1) : next s = crossing s := by
  simp only [next, meets, crossing, Arith.operations, Arith.decimals]
  rcases larger_ne_zero hq with ⟨hlt, h1⟩ | ⟨hle, h0⟩
  · rw [if_pos hlt]
    exact formula_first h1 hq
  · rw [if_neg hle]
    exact formula_second h0 hq

/-- No quotient of the formula is by zero. -/
theorem next_defined (hq : s.q0 ≠ s.q1) : next s.lift = .defined (next s) := by
  simp only [next, meets, State.lift, Partial.defined_abs, Partial.defined_lt, Partial.defined_neg,
    Partial.defined_decimal, Arith.operations, Arith.decimals]
  rcases larger_ne_zero hq with ⟨hlt, h1⟩ | ⟨hle, h0⟩
  · rw [if_pos hlt, if_pos hlt, Partial.div_of_ne _ h1, Partial.div_of_ne _ h1]
    simp only [Partial.defined_sub, Partial.defined_mul, Partial.defined_add, Arith.operations]
    exact Partial.div_of_ne _ (one_sub_div_ne_zero h1 hq)
  · rw [if_neg hle, if_neg hle, Partial.div_of_ne _ h0, Partial.div_of_ne _ h0]
    simp only [Partial.defined_sub, Partial.defined_mul, Partial.defined_add, Arith.operations]
    exact Partial.div_of_ne _ (one_sub_div_ne_zero h0 hq.symm)

theorem round_of_ne (hq : s.q0 ≠ s.q1) : round limit s =
    if |crossing s - s.p1| < tolerance then .found (crossing s)
    else .ask (crossing s) fun q => ⟨s.p1, s.q1, crossing s, q⟩ := by
  rw [round, if_neg (mt (level_iff s).mp hq), next_eq hq]
  simp only [Arith.finite_eq, Arith.operations]
  rfl

theorem found_of_round {x : K} (hp : s.p0 ≠ s.p1) (h : round limit s = .found x) :
    s.q0 ≠ s.q1 ∧ x = crossing s ∧ |x - s.p1| < tolerance := by
  by_cases hq : s.q0 = s.q1
  · rw [round_of_eq hp hq] at h
    cases h
  · rw [round_of_ne hq] at h
    split at h
    · cases h
      exact ⟨hq, rfl, ‹_›⟩
    · cases h

theorem ask_of_round {x : K} {g : K → State K} (hp : s.p0 ≠ s.p1) (h : round limit s = .ask x g) :
    s.q0 ≠ s.q1 ∧ x = crossing s ∧ tolerance ≤ |x - s.p1| ∧ g = fun q => ⟨s.p1, s.q1, x, q⟩ := by
  by_cases hq : s.q0 = s.q1
  · rw [round_of_eq hp hq] at h
    cases h
  · rw [round_of_ne hq] at h
    split at h
    · cases h
    · cases h
      exact ⟨hq, rfl, not_lt.mp ‹_›, rfl⟩

theorem second_apart (x0 : K) : 1 / 10 ^ 4 ≤ |second x0 - x0| := by
  have e : second x0 - x0 = x0 / 10 ^ 4 + if 0 ≤ x0 then 1 / 10 ^ 4 else -(1 / 10 ^ 4) := by
    have hoffset : (1e-4 : K) = 1 / 10 ^ 4 := by norm_num
    simp only [second, offset, Arith.operations, Arith.decimals, hoffset]
    ring
  rw [e]
  split
  · rename_i h
    have : 0 ≤ x0 / 10 ^ 4 := by positivity
    exact (le_add_of_nonneg_left this).trans (le_abs_self _)
  · rename_i h
    have : x0 / 10 ^ 4 ≤ 0 := div_nonpos_of_nonpos_of_nonneg (not_le.mp h).le (by positivity)
    rw [abs_of_nonpos (by linarith)]
    linarith

end Formulas

/-! ## Invariants -/

section Invariant

variable [Field K] [LinearOrder K] {f : K → Except ε K} {points : List K} {s : State K}

/-- The two points are distinct and were asked for, the second one last; only the first chord may end at the point
asked for before, but then with the larger value, and far from the other. -/
structure Drawn (f : K → Except ε K) (points : List K) (s : State K) : Prop where
  distinct : s.p0 ≠ s.p1
  mem0 : s.p0 ∈ points
  mem1 : s.p1 ∈ points
  value0 : f s.p0 = .ok s.q0
  value1 : f s.p1 = .ok s.q1
  last : points.getLast? = some s.p1 ∨ |s.q0| ≤ |s.q1| ∧ 1 / 10 ^ 4 ≤ |s.p1 - s.p0|

variable [IsStrictOrderedRing K] [Arith K] [ExactArith K] {limit : ℕ}

theorem far_of_long (hq : s.q0 ≠ s.q1) (h : |s.q0| ≤ |s.q1| ∧ 1 / 10 ^ 4 ≤ |s.p1 - s.p0|) :
    tolerance ≤ |crossing s - s.p1| := by
  have hfar := far_of_larger hq h.1
  rw [tolerance_eq]
  linarith [h.2]

/-- An answer lies next to the point asked for last. -/
theorem Drawn.last_of_near (h : Drawn f points s) (hq : s.q0 ≠ s.q1) (hnear : |crossing s - s.p1| < tolerance) :
    points.getLast? = some s.p1 :=
  h.last.resolve_right fun hlong => absurd (far_of_long hq hlong) (not_le.mpr hnear)

theorem start_long (x0 q0 q1 : K) : |(start x0 q0 q1).q0| ≤ |(start x0 q0 q1).q1| ∧
    1 / 10 ^ 4 ≤ |(start x0 q0 q1).p1 - (start x0 q0 q1).p0| := by
  unfold start
  simp only [Arith.operations]
  split
  · rename_i hlt
    rw [abs_sub_comm]
    exact ⟨hlt.le, second_apart x0⟩
  · rename_i hle
    exact ⟨not_lt.mp hle, second_apart x0⟩

theorem drawn_start {x0 q0 q1 : K} (h0 : f x0 = .ok q0) (h1 : f (second x0) = .ok q1) :
    Drawn f [x0, second x0] (start x0 q0 q1) := by
  have hapart : second x0 ≠ x0 := sub_ne_zero.mp (abs_pos.mp (lt_of_lt_of_le (by positivity) (second_apart x0)))
  have hmem0 : x0 ∈ [x0, second x0] := List.mem_cons_self
  have hmem1 : second x0 ∈ [x0, second x0] := List.mem_cons_of_mem x0 (List.mem_singleton_self _)
  have hlong := start_long x0 q0 q1
  have hcases : start x0 q0 q1 = ⟨second x0, q1, x0, q0⟩ ∨ start x0 q0 q1 = ⟨x0, q0, second x0, q1⟩ :=
    ite_eq_or_eq _ _ _
  rcases hcases with e | e
  · rw [e] at hlong ⊢
    exact ⟨hapart, hmem1, hmem0, h1, h0, .inr hlong⟩
  · rw [e] at hlong ⊢
    exact ⟨hapart.symm, hmem0, hmem1, h0, h1, .inr hlong⟩

theorem drawn_advance {x y : K} (h : Drawn f points s) (hfar : tolerance ≤ |x - s.p1|) (hy : f x = .ok y) :
    Drawn f (points ++ [x]) ⟨s.p1, s.q1, x, y⟩ := by
  have hapart : x ≠ s.p1 := sub_ne_zero.mp (abs_pos.mp (tolerance_pos.trans_le hfar))
  exact ⟨hapart.symm, List.mem_append_left [x] h.mem1, List.mem_concat_self, h.value1, hy, .inl List.getLast?_concat⟩

theorem drawn_of_reached {t : State K} (h0 : Drawn f points s) {asked : List K}
    (h : Reached (round limit) f s asked t) : Drawn f (points ++ asked) t := by
  refine h.keeps h0 fun points t x next y ht hr hy => ?_
  obtain ⟨-, -, hfar, rfl⟩ := ask_of_round ht.distinct hr
  exact drawn_advance ht hfar hy

end Invariant

/-! ## A run -/

section Run

variable [Arith K] {f : K → Except ε K} {x0 x : K} {limit : ℕ} {points : List K} {s : State K}

/-- The states that the rounds of the search begin with, each with the points asked for before. -/
def Runs (f : K → Except ε K) (x0 : K) (limit : ℕ) (points : List K) (s : State K) : Prop :=
  ∃ q0 q1 asked, f x0 = .ok q0 ∧ f (second x0) = .ok q1 ∧ Reached (round limit) f (start x0 q0 q1) asked s ∧
    points = [x0, second x0] ++ asked

theorem found_of_secant (h : ((secant x0 limit).trace f).1 = .ok x) :
    ∃ s, Runs f x0 limit ((secant x0 limit).trace f).2 s ∧ round limit s = .found x := by
  rw [secant_eq, trace_ask] at h ⊢
  cases h0 : f x0 with
  | error e =>
    rw [h0] at h
    cases h
  | ok q0 =>
    rw [h0] at h
    simp only [trace_ask] at h ⊢
    cases h1 : f (second x0) with
    | error e =>
      rw [h1] at h
      cases h
    | ok q1 =>
      rw [h1] at h
      obtain ⟨s, hs, hr⟩ := found_of_iterate h
      exact ⟨s, ⟨q0, q1, _, h0, h1, hs, rfl⟩, hr⟩

end Run

section Line

variable [Field K] {m c : K} {s : State K}

theorem crossing_line (hm : m ≠ 0) (hp : s.p0 ≠ s.p1) (h0 : s.q0 = m * s.p0 + c) (h1 : s.q1 = m * s.p1 + c) :
    s.q0 ≠ s.q1 ∧ crossing s = -c / m := by
  have hp' : s.p1 - s.p0 ≠ 0 := sub_ne_zero.mpr hp.symm
  have hd : s.q1 - s.q0 = m * (s.p1 - s.p0) := by
    rw [h0, h1]
    ring
  have hd' : s.q1 - s.q0 ≠ 0 := by
    rw [hd]
    exact mul_ne_zero hm hp'
  refine ⟨(sub_ne_zero.mp hd').symm, ?_⟩
  rw [crossing, div_eq_div_iff hd' hm, hd, h0, h1]
  ring

end Line

end Secant

variable [Field K] [LinearOrder K] [IsStrictOrderedRing K] [Arith K] [ExactArith K] {limit : ℕ}

theorem drawn_of_runs {f : K → Except ε K} {x0 : K} {points : List K} {s : Secant.State K}
    (h : Secant.Runs f x0 limit points s) : Secant.Drawn f points s := by
  obtain ⟨q0, q1, asked, h0, h1, hs, rfl⟩ := h
  exact Secant.drawn_of_reached (Secant.drawn_start h0 h1) hs

/-- The chord through two points of a line is the line: its root is the third point, and the answer. -/
theorem trace_secant_line {m : K} (c : K) (hm : m ≠ 0) (x0 : K) (hlimit : 2 ≤ limit) :
    (secant x0 limit).trace (fun x => (.ok (m * x + c) : Except ε K)) =
      (.ok (-c / m), [x0, Secant.second x0, -c / m]) := by
  obtain ⟨n, rfl⟩ := Nat.exists_eq_add_of_le' hlimit
  have hdrawn : Secant.Drawn (fun x => (.ok (m * x + c) : Except ε K)) [x0, Secant.second x0]
      (Secant.start x0 (m * x0 + c) (m * Secant.second x0 + c)) := Secant.drawn_start rfl rfl
  have hlong := Secant.start_long x0 (m * x0 + c) (m * Secant.second x0 + c)
  rw [Secant.secant_eq]
  simp only [trace_ask]
  generalize Secant.start x0 (m * x0 + c) (m * Secant.second x0 + c) = s at hdrawn hlong ⊢
  have hq0 := (Except.ok.inj hdrawn.value0).symm
  have hq1 := (Except.ok.inj hdrawn.value1).symm
  obtain ⟨hq, hroot⟩ := Secant.crossing_line hm hdrawn.distinct hq0 hq1
  have hfar := Secant.far_of_long hq hlong
  have hask : Secant.round (n + 2) s = _ := Secant.round_of_ne hq
  rw [if_neg (not_lt.mpr hfar), hroot] at hask
  rw [hroot] at hfar
  have hdrawn' := Secant.drawn_advance hdrawn hfar rfl
  obtain ⟨hq', hroot'⟩ := Secant.crossing_line hm hdrawn'.distinct hq1 rfl
  have hfound : Secant.round (n + 2) _ = _ := Secant.round_of_ne hq'
  rw [hroot', sub_self, abs_zero, if_pos Secant.tolerance_pos] at hfound
  rw [iterate_of_ask hask]
  simp only [trace_ask]
  rw [iterate_of_found hfound]
  rfl

/-- Whatever the objective: the two points of every round are distinct, so the search gives up where their values are
equal; else no quotient is by zero, and both formulas give where the chord through the points meets zero. An answer is
where the chord through two points asked for meets zero, their values being different, and is closer than the tolerance
to the last one. A line that is not level is answered by its root, with three points. -/
theorem secant_meets_chord (f : K → Except ε K) (x0 : K) (limit : ℕ) :
    (∀ points s, Secant.Runs f x0 limit points s →
      s.p0 ≠ s.p1 ∧ f s.p0 = .ok s.q0 ∧ f s.p1 = .ok s.q1 ∧
      (s.q0 = s.q1 → Secant.round limit s = .noConvergence limit) ∧ (s.q0 ≠ s.q1 →
        Secant.next s.lift = .defined (Secant.next s) ∧ (∀ x, Secant.chord s x = 0 ↔ x = Secant.next s) ∧
        (s.q1 ≠ 0 → (-s.q0 / s.q1 * s.p1 + s.p0) / (1 - s.q0 / s.q1) = Secant.next s) ∧
        (s.q0 ≠ 0 → (-s.q1 / s.q0 * s.p0 + s.p1) / (1 - s.q1 / s.q0) = Secant.next s))) ∧
      (∀ x, ((secant x0 limit).trace f).1 = .ok x → ∃ s : Secant.State K,
        s.p0 ∈ ((secant x0 limit).trace f).2 ∧ f s.p0 = .ok s.q0 ∧
        s.p1 ∈ ((secant x0 limit).trace f).2 ∧ f s.p1 = .ok s.q1 ∧
        s.p0 ≠ s.p1 ∧ s.q0 ≠ s.q1 ∧ Secant.chord s x = 0 ∧
        ((secant x0 limit).trace f).2.getLast? = some s.p1 ∧ |x - s.p1| < 148 / 10 ^ 10) ∧
      ∀ m c : K, m ≠ 0 → 2 ≤ limit → ∃ x, m * x + c = 0 ∧
        (secant x0 limit).trace (fun x => (.ok (m * x + c) : Except ε K)) = (.ok x, [x0, Secant.second x0, x]) := by
  refine ⟨fun points s hs => ?_, fun x hx => ?_, fun m c hm hlimit => ?_⟩
  · have h := drawn_of_runs hs
    refine ⟨h.distinct, h.value0, h.value1, Secant.round_of_eq h.distinct, fun hq => ?_⟩
    refine ⟨Secant.next_defined hq, fun x => ?_, fun h1 => ?_, fun h0 => ?_⟩
    · rw [Secant.next_eq hq]
      exact Secant.chord_eq_zero_iff h.distinct hq x
    · rw [Secant.next_eq hq]
      exact Secant.formula_first h1 hq
    · rw [Secant.next_eq hq]
      exact Secant.formula_second h0 hq
  · obtain ⟨s, hs, hfound⟩ := Secant.found_of_secant hx
    have h := drawn_of_runs hs
    obtain ⟨hq, rfl, hnear⟩ := Secant.found_of_round h.distinct hfound
    have hlast := h.last_of_near hq hnear
    have hmeets := (Secant.chord_eq_zero_iff h.distinct hq _).mpr rfl
    rw [Secant.tolerance_eq] at hnear
    exact ⟨s, h.mem0, h.value0, h.mem1, h.value1, h.distinct, hq, hmeets, hlast, hnear⟩
  · refine ⟨-c / m, ?_, trace_secant_line c hm x0 hlimit⟩
    rw [mul_div_cancel₀ _ hm, neg_add_cancel]

/-- The line through 1, from the seed 0. -/
theorem secant_meets_chord_line : (1 : ℝ) ≠ 0 ∧
    (secant (0 : ℝ) 2).trace (fun x => (.ok (1 * x + -1) : Except Unit ℝ)) = (.ok 1, [0, Secant.second 0, 1]) ∧
    ∃ s : Secant.State ℝ, s.p0 ≠ s.p1 ∧ Secant.chord s 1 = 0 ∧ |1 - s.p1| < 148 / 10 ^ 10 := by
  obtain ⟨-, hchord, hline⟩ := secant_meets_chord (fun x => (.ok (1 * x + -1) : Except Unit ℝ)) 0 2
  obtain ⟨x, hroot, htrace⟩ := hline 1 (-1) one_ne_zero le_rfl
  obtain rfl : x = 1 := by linarith
  obtain ⟨s, -, -, -, -, hp, -, hmeets, -, hnear⟩ := hchord 1 (congrArg Prod.fst htrace)
  exact ⟨one_ne_zero, htrace, s, hp, hmeets, hnear⟩

end MagneticBearing.Search
