/-
  MagneticBearing.Proofs.Minimize — the search for the least value stays in its bracket.

  While the bracket is wide, it has room for two least steps on the longer side of the best point
  (`room_left`, `room_right`). A golden cut goes there, and a parabola's step either does or keeps as far
  from both ends (`fits_golden`, `fits_parabolic`); so the next point lies strictly between the best one
  and an end (`next_inside`). What its value does to the bracket is one of four cases
  (`advance_narrows`), whichever of the other points are replaced; which point becomes which end
  does not depend on the numbers (`update_moves`).

  - `narrowed_of_runs`: in every round the bracket lies around the best of the points asked for.
  - `minimize_stays_inside`: no point asked for is an end or outside, no quotient is by zero, an answer is
    the best of the points asked for, and the bracket ends within twice the tolerance of it.
  - `minimize_finds_minimum`: the bracket keeps the valley of a function that has one, round by round.
  The objective is arbitrary for the first two, the numbers any ordered field with roots.
-/

import MagneticBearing.Proofs.OrderedField
import MagneticBearing.Proofs.Rounds
import MagneticBearing.Rating

-- `ExactArith` is what makes the two instances on `K` agree.
set_option linter.overlappingInstances false

namespace MagneticBearing.Search

variable {K ε : Type}

namespace Minimize

/-! ## A round as a whole -/

section Rounds

variable [Scalar K]

/-- The point that the round asks for. -/
def next (s : State K) : K := nextPoint s (chooseStep s).1

/-- The state after the round, with the value at the point asked for. -/
def advance (s : State K) (y : K) : State K :=
  update { s with step := (chooseStep s).1, stepBefore := (chooseStep s).2 } ⟨next s, y⟩

def round (s : State K) : Round K (State K) :=
  if wide s then .ask (next s) (advance s) else .found s.best.x

/-- The first point. -/
def first (lower upper : K) : K := lower + golden * (upper - lower)

/-- The state that the rounds begin with. -/
def start (lower upper y : K) : State K :=
  ⟨lower, upper, ⟨first lower upper, y⟩, ⟨first lower upper, y⟩, ⟨first lower upper, y⟩, 0.0, 0.0⟩

theorem loop_eq_iterate (n : ℕ) (s : State K) : loop n s = iterate round budget n s := by
  induction n generalizing s with
  | zero => rfl
  | succ n ih =>
    by_cases h : wide s = true
    · have hr : round s = .ask (next s) (advance s) := if_pos h
      rw [iterate, hr]
      refine (if_pos h).trans ?_
      exact congrArg _ (funext fun y => ih (advance s y))
    · have hr : round s = .found s.best.x := if_neg h
      rw [iterate, hr]
      exact if_neg h

theorem minimize_eq (lower upper : K) : minimize lower upper =
    .ask (first lower upper) fun y => iterate round budget (budget - 1) (start lower upper y) :=
  congrArg _ (funext fun y => loop_eq_iterate (budget - 1) (start lower upper y))

theorem chooseStep_cases (s : State K) :
    (chooseStep s).1 = (goldenStep s).1 ∨ parabolicStep s = some (chooseStep s).1 := by
  unfold chooseStep
  split
  · split
    · exact .inr ‹_›
    · exact .inl rfl
  · exact .inl rfl

/-- What the value at a point makes of the bracket and the best point, whichever of the other points are replaced. -/
inductive Moves (a b : K) (best y : Sample K) : K → K → Sample K → Prop
  | betterRight : y.f ≤ best.f → best.x ≤ y.x → Moves a b best y best.x b y
  | betterLeft : y.f ≤ best.f → ¬ best.x ≤ y.x → Moves a b best y a best.x y
  | worseLeft : ¬ y.f ≤ best.f → y.x < best.x → Moves a b best y y.x b best
  | worseRight : ¬ y.f ≤ best.f → ¬ y.x < best.x → Moves a b best y a y.x best

theorem update_moves (s : State K) (y : Sample K) :
    Moves s.a s.b s.best y (update s y).a (update s y).b (update s y).best := by
  unfold update
  by_cases hbetter : y.f ≤ s.best.f
  · simp only [if_pos hbetter]
    split
    · exact .betterRight hbetter ‹_›
    · exact .betterLeft hbetter ‹_›
  · simp only [if_neg hbetter]
    by_cases hleft : y.x < s.best.x
    · simp only [if_pos hleft]
      split
      · exact .worseLeft hbetter hleft
      · split <;> exact .worseLeft hbetter hleft
    · simp only [if_neg hleft]
      split
      · exact .worseRight hbetter hleft
      · split <;> exact .worseRight hbetter hleft

def Sample.lift (p : Sample K) : Sample (Partial K) := ⟨.defined p.x, .defined p.f⟩

/-- The state among numbers of which a quotient by zero is undefined. -/
def State.lift (s : State K) : State (Partial K) :=
  ⟨.defined s.a, .defined s.b, s.best.lift, s.second.lift, s.third.lift, .defined s.step, .defined s.stepBefore⟩

end Rounds

/-! ## The formulas, on exact numbers -/

section Formulas

variable [Field K] [LinearOrder K] [IsStrictOrderedRing K] [Scalar K] [ExactArith K] {s : State K} {x y step : K}

theorem slack_eq (s : State K) : slack s = Scalar.sqrt Arith.epsilon * |s.best.x| + 1 / 10 ^ 5 / 3 := by
  simp only [slack, absoluteTolerance, Arith.operations]
  norm_num

theorem middle_eq (s : State K) : middle s = (s.a + s.b) / 2 := by
  simp only [middle, Arith.operations, Arith.decimals]
  ring

theorem golden_eq : (golden : K) = (3 - Scalar.sqrt 5) / 2 := by
  simp only [golden, Arith.operations, Arith.decimals]
  ring

theorem unit_of_nonneg (h : 0 ≤ x) : unit x = 1 := by
  simp only [unit, Arith.operations, Arith.decimals]
  split
  · rfl
  · exact if_neg (not_lt.mpr h)

theorem unit_of_neg (h : x < 0) : unit x = -1 := by
  simp only [unit, Arith.operations, Arith.decimals]
  rw [if_neg h.asymm, if_pos h]

theorem nextPoint_of_nonneg (h : 0 ≤ step) : nextPoint s step = s.best.x + max step (slack s) := by
  simp only [nextPoint, Arith.operations, unit_of_nonneg h, Arith.larger_eq, abs_of_nonneg h, one_mul]

theorem nextPoint_of_neg (h : step < 0) : nextPoint s step = s.best.x - max (-step) (slack s) := by
  simp only [nextPoint, Arith.operations, unit_of_neg h, Arith.larger_eq, abs_of_neg h]
  ring

/-- The bracket is wide if one of its parts is longer than twice the tolerance. -/
theorem wide_iff (s : State K) : wide s = true ↔ 2 * slack s < s.best.x - s.a ∨ 2 * slack s < s.b - s.best.x := by
  simp only [wide, decide_eq_true_eq, Arith.operations, Arith.decimals, middle_eq, lt_abs]
  constructor
  · rintro (h | h)
    · exact .inl (by linarith)
    · exact .inr (by linarith)
  · rintro (h | h)
    · exact .inl (by linarith)
    · exact .inr (by linarith)

/-- The bracket is narrow if neither part is longer than twice the tolerance. -/
theorem not_wide_iff (s : State K) :
    ¬ wide s = true ↔ s.best.x - s.a ≤ 2 * slack s ∧ s.b - s.best.x ≤ 2 * slack s := by
  rw [wide_iff, not_or, not_lt, not_lt]

theorem goldenStep_cases (s : State K) :
    (s.a + s.b) / 2 ≤ s.best.x ∧ goldenStep s = (golden * (s.a - s.best.x), s.a - s.best.x) ∨
      s.best.x < (s.a + s.b) / 2 ∧ goldenStep s = (golden * (s.b - s.best.x), s.b - s.best.x) := by
  simp only [goldenStep, Arith.operations, middle_eq]
  rcases le_or_gt ((s.a + s.b) / 2) s.best.x with h | h
  · exact .inl ⟨h, by simp only [if_pos h]⟩
  · exact .inr ⟨h, by simp only [if_neg (not_le.mpr h)]⟩

end Formulas

/-! ## The parabola's step -/

section Fraction

variable [Scalar K]

/-- Numerator and denominator of the step to where the parabola is least. -/
def fraction (s : State K) : K × K :=
  let x := s.best.x
  let r0 := (x - s.second.x) * (s.best.f - s.third.f)
  let q0 := (x - s.third.x) * (s.best.f - s.second.f)
  let p0 := (x - s.third.x) * q0 - (x - s.second.x) * r0
  let q1 := 2.0 * (q0 - r0)
  (if 0.0 < q1 then -p0 else p0, Arith.abs q1)

/-- The step is shorter than half of the one before the last, and leads into the bracket. -/
def accepted (s : State K) : Bool :=
  Arith.abs (fraction s).1 < Arith.abs (0.5 * (fraction s).2 * s.stepBefore) &&
      (fraction s).2 * (s.a - s.best.x) < (fraction s).1 && (fraction s).1 < (fraction s).2 * (s.b - s.best.x)

/-- Such a step ends closer to an end of the bracket than twice the tolerance. -/
def cramped (s : State K) (step : K) : Bool :=
  s.best.x + step - s.a < 2.0 * slack s || s.b - (s.best.x + step) < 2.0 * slack s

theorem parabolicStep_eq (s : State K) : parabolicStep s =
    if accepted s then
      some (if cramped s ((fraction s).1 / (fraction s).2) then slack s * unit (middle s - s.best.x)
        else (fraction s).1 / (fraction s).2)
    else none := rfl

end Fraction

section Parabola

variable [Field K] [LinearOrder K] [IsStrictOrderedRing K] [Scalar K] [ExactArith K] {s : State K} {x y step : K}

/-- Only a parabola that has a least value is accepted. -/
theorem denominator_ne_zero (h : accepted s = true) : (fraction s).2 ≠ 0 := by
  intro h0
  simp only [accepted, Bool.and_eq_true, decide_eq_true_eq, Arith.operations, h0, mul_zero, zero_mul, abs_zero] at h
  exact absurd h.1.1 (not_lt.mpr (abs_nonneg _))

theorem not_cramped (h : ¬ cramped s step = true) :
    2 * slack s ≤ s.best.x + step - s.a ∧ 2 * slack s ≤ s.b - (s.best.x + step) := by
  simpa only [cramped, Bool.or_eq_true, decide_eq_true_eq, not_or, not_lt, Arith.operations, Arith.decimals] using h

theorem parabolicStep_cases (h : parabolicStep s = some step) :
    step = slack s * unit (middle s - s.best.x) ∨
      2 * slack s ≤ s.best.x + step - s.a ∧ 2 * slack s ≤ s.b - (s.best.x + step) := by
  rw [parabolicStep_eq] at h
  split at h
  · cases h
    split
    · exact .inl (by simp only [Arith.operations])
    · exact .inr (not_cramped ‹_›)
  · cases h

end Parabola

/-! ## Divisors -/

section Lifted

variable [Scalar K]

theorem fraction_defined (s : State K) : fraction s.lift = (.defined (fraction s).1, .defined (fraction s).2) := by
  unfold fraction
  simp only [State.lift, Sample.lift, Partial.defined_sub, Partial.defined_mul, Partial.defined_neg,
    Partial.defined_abs, Partial.defined_decimal, Partial.defined_lt]
  split <;> rfl

theorem unit_defined (x : K) : unit (Partial.defined x) = .defined (unit x) := by
  simp only [unit, Partial.defined_decimal, Partial.defined_lt]
  split
  · rfl
  · split <;> rfl

theorem middle_defined (s : State K) : middle s.lift = .defined (middle s) := by
  simp only [middle, State.lift, Partial.defined_add, Partial.defined_mul, Partial.defined_decimal]

theorem accepted_defined (s : State K) : accepted s.lift = accepted s := by
  unfold accepted
  rw [fraction_defined]
  simp only [State.lift, Sample.lift, Partial.defined_sub, Partial.defined_mul, Partial.defined_abs,
    Partial.defined_decimal, Partial.defined_lt]

end Lifted

section Divisors

variable [Field K] [LinearOrder K] [IsStrictOrderedRing K] [Scalar K] [ExactArith K]

/-- No quotient of the round is by zero: over numbers where such a one is undefined, its lengths are defined and the
same. -/
structure Divides (s : State K) : Prop where
  slack_defined : slack s.lift = .defined (slack s)
  parabolicStep_defined : parabolicStep s.lift = (parabolicStep s).map .defined

theorem slack_defined (s : State K) : slack s.lift = .defined (slack s) := by
  simp only [slack, absoluteTolerance, Arith.epsilon, State.lift, Sample.lift, Partial.defined_abs,
    Partial.defined_decimal, Arith.operations]
  rw [Partial.div_of_ne _ (by norm_num), Partial.div_of_ne _ (by norm_num)]
  simp only [Partial.defined_sqrt, Partial.defined_mul, Partial.defined_add, Arith.operations]

theorem cramped_defined (s : State K) (step : K) : cramped s.lift (.defined step) = cramped s step := by
  unfold cramped
  rw [slack_defined]
  simp only [State.lift, Sample.lift, Partial.defined_add, Partial.defined_sub, Partial.defined_mul,
    Partial.defined_decimal, Partial.defined_lt]

theorem parabolicStep_defined (s : State K) : parabolicStep s.lift = (parabolicStep s).map .defined := by
  rw [parabolicStep_eq, parabolicStep_eq, accepted_defined]
  split
  · rename_i h
    rw [fraction_defined, Partial.div_of_ne _ (denominator_ne_zero h), cramped_defined, slack_defined, middle_defined]
    simp only [State.lift, Sample.lift, Partial.defined_sub, unit_defined, Partial.defined_mul, Arith.operations]
    split <;> rfl
  · rfl

theorem divides (s : State K) : Divides s := ⟨slack_defined s, parabolicStep_defined s⟩

end Divisors

/-! ## Where a round looks -/

section Steps

variable [Field K] [LinearOrder K] [IsStrictOrderedRing K] [Scalar K] [ExactArith K] [ExactRoots K] {s : State K}
  {step : K}

theorem slack_pos (s : State K) : 0 < slack s := by
  rw [slack_eq, sqrt_epsilon]
  positivity

theorem golden_pos : 0 < (golden : K) := by
  rw [golden_eq]
  linarith [(sqrt_five_bounds (K := K)).2]

theorem golden_lt_one : (golden : K) < 1 := by
  rw [golden_eq]
  linarith [(sqrt_five_bounds (K := K)).1]

omit [ExactRoots K] in
/-- A wide bracket has room on the longer side of the best point. -/
theorem room_left (h : wide s = true) (hm : (s.a + s.b) / 2 ≤ s.best.x) : 2 * slack s < s.best.x - s.a := by
  rcases (wide_iff s).mp h with h | h
  · exact h
  · linarith

omit [ExactRoots K] in
theorem room_right (h : wide s = true) (hm : s.best.x ≤ (s.a + s.b) / 2) : 2 * slack s < s.b - s.best.x := by
  rcases (wide_iff s).mp h with h | h
  · linarith
  · exact h

/-- The step stays inside the bracket, and so does the least step in its direction. -/
structure Fits (s : State K) (step : K) : Prop where
  right : 0 ≤ step → s.best.x + step < s.b ∧ s.best.x + slack s < s.b
  left : step < 0 → s.a < s.best.x + step ∧ s.a < s.best.x - slack s

theorem fits_golden (h : wide s = true) : Fits s (goldenStep s).1 := by
  have hslack := slack_pos s
  have hpos := golden_pos (K := K)
  have hrest : 0 < 1 - (golden : K) := sub_pos.mpr golden_lt_one
  rcases goldenStep_cases s with ⟨hm, e⟩ | ⟨hm, e⟩
  · have hroom := room_left h hm
    have hneg : golden * (s.a - s.best.x) < 0 := mul_neg_of_pos_of_neg hpos (by linarith)
    have hkept : 0 < (1 - golden) * (s.best.x - s.a) := mul_pos hrest (by linarith)
    rw [e]
    exact ⟨fun h0 => absurd h0 (not_le.mpr hneg), fun _ => ⟨by linarith, by linarith⟩⟩
  · have hroom := room_right h hm.le
    have hstep : 0 < golden * (s.b - s.best.x) := mul_pos hpos (by linarith)
    have hkept : 0 < (1 - golden) * (s.b - s.best.x) := mul_pos hrest (by linarith)
    rw [e]
    exact ⟨fun _ => ⟨by linarith, by linarith⟩, fun h0 => absurd h0 hstep.asymm⟩

theorem fits_parabolic (h : wide s = true) (hs : parabolicStep s = some step) : Fits s step := by
  have hslack := slack_pos s
  rcases parabolicStep_cases hs with e | ⟨hleft, hright⟩
  · -- Too close to an end, the step is the least one toward the middle: the longer side.
    rw [middle_eq] at e
    rcases le_or_gt s.best.x ((s.a + s.b) / 2) with hm | hm
    · have hroom := room_right h hm
      rw [unit_of_nonneg (sub_nonneg.mpr hm), mul_one] at e
      rw [e]
      exact ⟨fun _ => ⟨by linarith, by linarith⟩, fun h0 => absurd h0 hslack.asymm⟩
    · have hroom := room_left h hm.le
      rw [unit_of_neg (sub_neg.mpr hm), mul_neg_one] at e
      rw [e]
      exact ⟨fun h0 => absurd h0 (not_le.mpr (neg_neg_of_pos hslack)), fun _ => ⟨by linarith, by linarith⟩⟩
  · exact ⟨fun _ => ⟨by linarith, by linarith⟩, fun _ => ⟨by linarith, by linarith⟩⟩

/-- The point asked for lies strictly between the best one and an end of the bracket. -/
theorem next_inside (h : wide s = true) :
    s.a < next s ∧ next s < s.best.x ∨ s.best.x < next s ∧ next s < s.b := by
  have hslack := slack_pos s
  have hfits : Fits s (chooseStep s).1 := by
    rcases chooseStep_cases s with e | e
    · rw [e]
      exact fits_golden h
    · exact fits_parabolic h e
  rcases lt_or_ge (chooseStep s).1 0 with hneg | hpos
  · obtain ⟨hstep, hleast⟩ := hfits.left hneg
    have hmoves : 0 < max (-(chooseStep s).1) (slack s) := lt_max_of_lt_right hslack
    have hstays : max (-(chooseStep s).1) (slack s) < s.best.x - s.a := max_lt (by linarith) (by linarith)
    rw [next, nextPoint_of_neg hneg]
    exact .inl ⟨by linarith, by linarith⟩
  · obtain ⟨hstep, hleast⟩ := hfits.right hpos
    have hmoves : 0 < max (chooseStep s).1 (slack s) := lt_max_of_lt_right hslack
    have hstays : max (chooseStep s).1 (slack s) < s.b - s.best.x := max_lt (by linarith) (by linarith)
    rw [next, nextPoint_of_nonneg hpos]
    exact .inr ⟨by linarith, by linarith⟩

/-- A first cut shorter than the least step is replaced by that. -/
theorem next_of_short (hfirst : s.stepBefore = 0) (hright : s.best.x < (s.a + s.b) / 2) (hb : s.best.x ≤ s.b)
    (hshort : golden * (s.b - s.best.x) ≤ slack s) : next s = s.best.x + slack s := by
  have hgolden : chooseStep s = goldenStep s := by
    refine if_neg ?_
    simp only [Arith.operations, hfirst, abs_zero, not_lt]
    exact (slack_pos s).le
  have hstep : (chooseStep s).1 = golden * (s.b - s.best.x) := by
    rw [hgolden]
    rcases goldenStep_cases s with ⟨hm, -⟩ | ⟨-, e⟩
    · exact absurd hm (not_le.mpr hright)
    · rw [e]
  have hpos : 0 ≤ golden * (s.b - s.best.x) := mul_nonneg golden_pos.le (sub_nonneg.mpr hb)
  rw [next, hstep, nextPoint_of_nonneg hpos, max_eq_right hshort]

end Steps

/-! ## Invariants -/

section Update

variable [Field K] [LinearOrder K] [Scalar K] [ExactArith K] {f : K → Except ε K} {lower upper : K} {points : List K}
  {s : State K}

/-- What the value at a point strictly inside makes of the bracket and the best point. -/
inductive Narrows (a b : K) (best y : Sample K) : K → K → Sample K → Prop
  | betterRight : y.f ≤ best.f → best.x < y.x → y.x < b → Narrows a b best y best.x b y
  | betterLeft : y.f ≤ best.f → a < y.x → y.x < best.x → Narrows a b best y a best.x y
  | worseLeft : best.f < y.f → a < y.x → y.x < best.x → Narrows a b best y y.x b best
  | worseRight : best.f < y.f → best.x < y.x → y.x < b → Narrows a b best y a y.x best

theorem update_narrows (s : State K) (y : Sample K)
    (hin : s.a < y.x ∧ y.x < s.best.x ∨ s.best.x < y.x ∧ y.x < s.b) :
    Narrows s.a s.b s.best y (update s y).a (update s y).b (update s y).best := by
  have hmoves := update_moves s y
  generalize update s y = t at hmoves ⊢
  obtain ⟨a, b, best, second, third, step, stepBefore⟩ := t
  cases hmoves with
  | betterRight hle hx =>
    simp only [Arith.operations] at hle hx
    rcases hin with ⟨-, hr⟩ | ⟨hl, hr⟩
    · exact absurd hx (not_le.mpr hr)
    · exact .betterRight hle hl hr
  | betterLeft hle hx =>
    simp only [Arith.operations] at hle hx
    rcases hin with ⟨hl, hr⟩ | ⟨hl, -⟩
    · exact .betterLeft hle hl hr
    · exact absurd hl.le hx
  | worseLeft hlt hx =>
    simp only [Arith.operations] at hlt hx
    rcases hin with ⟨hl, hr⟩ | ⟨hl, -⟩
    · exact .worseLeft (not_le.mp hlt) hl hr
    · exact absurd hx hl.asymm
  | worseRight hlt hx =>
    simp only [Arith.operations] at hlt hx
    rcases hin with ⟨-, hr⟩ | ⟨hl, hr⟩
    · exact absurd hr hx
    · exact .worseRight (not_le.mp hlt) hl hr

/-- The bracket lies between the ends, around the best of the points asked for. -/
structure Narrowed (f : K → Except ε K) (lower upper : K) (points : List K) (s : State K) : Prop where
  lower_le : lower ≤ s.a
  a_lt : s.a < s.best.x
  lt_b : s.best.x < s.b
  le_upper : s.b ≤ upper
  mem : s.best.x ∈ points
  value : f s.best.x = .ok s.best.f
  least : ∀ x ∈ points, ∃ y, f x = .ok y ∧ s.best.f ≤ y

end Update

section Invariant

variable [Field K] [LinearOrder K] [IsStrictOrderedRing K] [Scalar K] [ExactArith K] [ExactRoots K]
  {f : K → Except ε K} {lower upper : K} {points : List K} {s : State K} {y : K}

theorem advance_narrows (h : wide s = true) (y : K) :
    Narrows s.a s.b s.best ⟨next s, y⟩ (advance s y).a (advance s y).b (advance s y).best :=
  update_narrows { s with step := (chooseStep s).1, stepBefore := (chooseStep s).2 } ⟨next s, y⟩ (next_inside h)

/-- Where the next point is to the right and worse, and neither side of it is wide, the search is over. -/
theorem found_of_worse_right (h : wide s = true) (hright : s.best.x < next s) (hworse : s.best.f < y)
    (hl : s.best.x - s.a ≤ 2 * slack s) (hr : next s - s.best.x ≤ 2 * slack s) :
    round (advance s y) = .found s.best.x := by
  have hnarrows := advance_narrows h y
  generalize advance s y = t at hnarrows ⊢
  obtain ⟨a, b, best, second, third, step, stepBefore⟩ := t
  cases hnarrows with
  | betterRight hle => exact absurd hle (not_le.mpr hworse)
  | betterLeft hle => exact absurd hle (not_le.mpr hworse)
  | worseLeft _ _ hleft => exact absurd hleft (not_lt.mpr hright.le)
  | worseRight =>
    have hnarrow : ¬ wide ⟨s.a, next s, s.best, second, third, step, stepBefore⟩ = true := by
      rw [slack_eq] at hl hr
      rw [not_wide_iff, slack_eq]
      exact ⟨hl, hr⟩
    exact if_neg hnarrow

theorem Narrowed.next_between (h : Narrowed f lower upper points s) (hw : wide s = true) :
    lower < next s ∧ next s < upper := by
  have ha := h.lower_le
  have hb := h.le_upper
  have hax := h.a_lt
  have hxb := h.lt_b
  rcases next_inside hw with ⟨hl, hr⟩ | ⟨hl, hr⟩
  · exact ⟨by linarith, by linarith⟩
  · exact ⟨by linarith, by linarith⟩

theorem narrowed_advance (h : Narrowed f lower upper points s) (hw : wide s = true) (hy : f (next s) = .ok y) :
    Narrowed f lower upper (points ++ [next s]) (advance s y) := by
  have ha := h.lower_le
  have hb := h.le_upper
  have hax := h.a_lt
  have hxb := h.lt_b
  have hleast (w : K) (hbest : w ≤ s.best.f) (hwy : w ≤ y) :
      ∀ x ∈ points ++ [next s], ∃ v, f x = .ok v ∧ w ≤ v := by
    intro x hx
    rcases List.mem_append.mp hx with hx | hx
    · obtain ⟨v, hv, hle⟩ := h.least x hx
      exact ⟨v, hv, hbest.trans hle⟩
    · rw [List.mem_singleton.mp hx]
      exact ⟨y, hy, hwy⟩
  have hlast : next s ∈ points ++ [next s] := List.mem_concat_self
  have hold : s.best.x ∈ points ++ [next s] := List.mem_append_left [next s] h.mem
  have hnarrows := advance_narrows hw y
  generalize advance s y = t at hnarrows ⊢
  obtain ⟨a, b, best, second, third, step, stepBefore⟩ := t
  cases hnarrows with
  | betterRight hle hl hr => exact ⟨ha.trans hax.le, hl, hr, hb, hlast, hy, hleast _ hle le_rfl⟩
  | betterLeft hle hl hr => exact ⟨ha, hl, hr, hxb.le.trans hb, hlast, hy, hleast _ hle le_rfl⟩
  | worseLeft hlt hl hr => exact ⟨ha.trans hl.le, hr, hxb, hb, hold, h.value, hleast _ le_rfl hlt.le⟩
  | worseRight hlt hl hr => exact ⟨ha, hax, hl, hr.le.trans hb, hold, h.value, hleast _ le_rfl hlt.le⟩

/-- The first point cuts the interval. -/
theorem first_between (hlt : lower < upper) : lower < first lower upper ∧ first lower upper < upper := by
  have hlength : 0 < upper - lower := sub_pos.mpr hlt
  have hcut : 0 < golden * (upper - lower) := mul_pos golden_pos hlength
  have hrest : 0 < (1 - golden) * (upper - lower) := mul_pos (sub_pos.mpr golden_lt_one) hlength
  simp only [first, Arith.operations]
  exact ⟨by linarith, by linarith⟩

theorem narrowed_start (hlt : lower < upper) (hy : f (first lower upper) = .ok y) :
    Narrowed f lower upper [first lower upper] (start lower upper y) := by
  obtain ⟨hl, hr⟩ := first_between hlt
  refine ⟨le_rfl, hl, hr, le_rfl, List.mem_singleton_self _, hy, fun x hx => ?_⟩
  rw [List.mem_singleton.mp hx]
  exact ⟨y, hy, le_rfl⟩

end Invariant

/-! ## A run -/

section Run

variable [Scalar K] {f : K → Except ε K} {lower upper : K} {points : List K} {s : State K} {x y : K}

theorem found_of_round (h : round s = .found x) : s.best.x = x ∧ ¬ wide s = true := by
  unfold round at h
  split at h
  · cases h
  · cases h
    exact ⟨rfl, ‹_›⟩

theorem ask_of_round {g : K → State K} (h : round s = .ask x g) : wide s = true ∧ next s = x ∧ advance s = g := by
  unfold round at h
  split at h
  · cases h
    exact ⟨‹_›, rfl, rfl⟩
  · cases h

/-- The states that the rounds of the search begin with, each with the points asked for before. -/
def Runs (f : K → Except ε K) (lower upper : K) (points : List K) (s : State K) : Prop :=
  ∃ y asked, f (first lower upper) = .ok y ∧ Reached round f (start lower upper y) asked s ∧
    points = first lower upper :: asked

/-- What the first point and every round keep, every state of a run has. -/
theorem runs_induction {P : List K → State K → Prop} (h : Runs f lower upper points s)
    (hstart : ∀ y, f (first lower upper) = .ok y → P [first lower upper] (start lower upper y))
    (hround : ∀ points s y, P points s → wide s = true → f (next s) = .ok y → P (points ++ [next s]) (advance s y)) :
    P points s := by
  obtain ⟨y, asked, hy, hs, rfl⟩ := h
  refine hs.keeps (hstart y hy) fun points t x next y ht hr hy => ?_
  obtain ⟨hw, rfl, rfl⟩ := ask_of_round hr
  exact hround points t y ht hw hy

theorem mem_trace_minimize (h : x ∈ ((minimize lower upper).trace f).2) :
    x = first lower upper ∨ ∃ points s, Runs f lower upper points s ∧ wide s = true ∧ x = next s := by
  rw [minimize_eq, trace_ask] at h
  cases hy : f (first lower upper) with
  | error e =>
    rw [hy] at h
    exact .inl (List.mem_singleton.mp h)
  | ok y =>
    rw [hy] at h
    rcases List.mem_cons.mp h with h | h
    · exact .inl h
    · obtain ⟨asked, s, g, hs, hr⟩ := mem_trace_iterate h
      obtain ⟨hw, hx, -⟩ := ask_of_round hr
      exact .inr ⟨_, s, ⟨y, asked, hy, hs, rfl⟩, hw, hx.symm⟩

theorem found_of_minimize (h : ((minimize lower upper).trace f).1 = .ok x) :
    ∃ s, Runs f lower upper ((minimize lower upper).trace f).2 s ∧ s.best.x = x ∧ ¬ wide s = true := by
  rw [minimize_eq, trace_ask] at h ⊢
  cases hy : f (first lower upper) with
  | error e =>
    rw [hy] at h
    cases h
  | ok y =>
    rw [hy] at h
    obtain ⟨s, hs, hr⟩ := found_of_iterate h
    obtain ⟨hx, hw⟩ := found_of_round hr
    exact ⟨s, ⟨y, _, hy, hs, rfl⟩, hx, hw⟩

end Run

end Minimize

/-- The weakest direction is the answer of the search on the sector; a failed one is reported with its last point. -/
theorem weakestDirection_trace [Scalar K] (r : Rating K) : r.weakestDirection =
    ((minimize Rating.sector.1 Rating.sector.2).trace r.maxForce).1.mapError
      (Rating.searchError (((minimize Rating.sector.1 Rating.sector.2).trace r.maxForce).2.getLastD Rating.sector.1)
        ((minimize Rating.sector.1 Rating.sector.2).trace r.maxForce).2.length) := by
  unfold Rating.weakestDirection
  simp only [run_counting]
  cases ((minimize Rating.sector.1 Rating.sector.2).trace r.maxForce).1 <;> rfl

/-! ## The least of the points asked for -/

section Safety

variable [Field K] [LinearOrder K] [IsStrictOrderedRing K] [Scalar K] [ExactArith K]

theorem sector_eq : (Rating.sector : K × K) = (0, 60) := by
  simp only [Rating.sector, Arith.operations, Prod.mk.injEq]
  norm_num

theorem weakestDirection_eq (r : Rating K) : r.weakestDirection =
    ((minimize 0 60).trace r.maxForce).1.mapError
      (Rating.searchError (((minimize 0 60).trace r.maxForce).2.getLastD 0)
        ((minimize 0 60).trace r.maxForce).2.length) := by
  rw [weakestDirection_trace, sector_eq]

variable [ExactRoots K] {f : K → Except ε K} {lower upper x : K} {points : List K} {s : Minimize.State K}

theorem narrowed_of_runs (hlt : lower < upper) (h : Minimize.Runs f lower upper points s) :
    Minimize.Narrowed f lower upper points s :=
  Minimize.runs_induction h (fun _ hy => Minimize.narrowed_start hlt hy)
    fun _ _ _ hs hw hy => Minimize.narrowed_advance hs hw hy

theorem trace_minimize_between (hlt : lower < upper) (hx : x ∈ ((minimize lower upper).trace f).2) :
    lower < x ∧ x < upper := by
  rcases Minimize.mem_trace_minimize hx with rfl | ⟨points, s, hs, hw, rfl⟩
  · exact Minimize.first_between hlt
  · exact (narrowed_of_runs hlt hs).next_between hw

/-- The first point of twelve millionths, and how long the first cut of what is right of it would be. -/
theorem first_bounds : (3 / 10 ^ 6 ≤ Minimize.first 0 (12 / 10 ^ 6 : K) ∧ Minimize.first 0 (12 / 10 ^ 6 : K) ≤ 48 / 10 ^ 7) ∧
    Minimize.golden * (12 / 10 ^ 6 - Minimize.first 0 (12 / 10 ^ 6 : K)) ≤ 3 / 10 ^ 6 := by
  obtain ⟨hlow, hhigh⟩ := sqrt_five_bounds (K := K)
  have hsquare : 0 ≤ 12 / 10 ^ 6 * ((Minimize.golden : K) - 1 / 2) ^ 2 := by positivity
  simp only [Minimize.first, Arith.operations]
  refine ⟨?_, by linarith⟩
  rw [Minimize.golden_eq]
  exact ⟨by linarith, by linarith⟩

/-- Twelve millionths are wide around their first point. Where the least step to the right finds a larger value, what is
left is narrow. -/
theorem trace_minimize_once {y y' : K} :
    let first : K := Minimize.first 0 (12 / 10 ^ 6)
    let second := first + (1 / 2 ^ 26 * first + 1 / 10 ^ 5 / 3)
    f first = .ok y → f second = .ok y' → y < y' →
      (minimize 0 (12 / 10 ^ 6)).trace f = (.ok first, [first, second]) := by
  intro first second hy hy' hlt
  obtain ⟨⟨hlow, hhigh⟩, hcut⟩ : (3 / 10 ^ 6 ≤ first ∧ first ≤ 48 / 10 ^ 7) ∧
      Minimize.golden * (12 / 10 ^ 6 - first) ≤ 3 / 10 ^ 6 := first_bounds
  have hsecond : second = first + (1 / 2 ^ 26 * first + 1 / 10 ^ 5 / 3) := rfl
  generalize hs : Minimize.start 0 (12 / 10 ^ 6) y = s
  obtain ⟨hx, hvalue, ha, hb, hstep⟩ : s.best.x = first ∧ s.best.f = y ∧ s.a = 0 ∧ s.b = 12 / 10 ^ 6 ∧ s.stepBefore = 0 := by
    rw [← hs]
    refine ⟨rfl, rfl, rfl, rfl, ?_⟩
    simp only [Minimize.start, Arith.operations, Arith.decimals]
  have hslack : Minimize.slack s = 1 / 2 ^ 26 * first + 1 / 10 ^ 5 / 3 := by
    rw [Minimize.slack_eq, sqrt_epsilon, hx, abs_of_nonneg (by linarith)]
  have hw : Minimize.wide s = true := by
    rw [Minimize.wide_iff, hslack, hx, hb]
    exact .inr (by linarith)
  have hnext : Minimize.next s = second := by
    have hshort : Minimize.golden * (s.b - s.best.x) ≤ Minimize.slack s := by
      rw [hslack, hx, hb]
      linarith
    rw [Minimize.next_of_short hstep (by linarith) (by linarith) hshort, hx, hslack]
  have hask : Minimize.round s = .ask second (Minimize.advance s) := by
    rw [← hnext]
    exact if_pos hw
  have hfound : Minimize.round (Minimize.advance s y') = .found first := by
    rw [← hx]
    refine Minimize.found_of_worse_right hw ?_ (hvalue.trans_lt hlt) ?_ ?_
    · rw [hnext, hx]
      linarith
    · rw [hslack, hx, ha]
      linarith
    · rw [hslack, hnext, hx]
      linarith
  have hrun : (iterate Minimize.round Minimize.budget (Minimize.budget - 1) s).trace f = (.ok first, [second]) := by
    rw [Minimize.budget, iterate_of_ask hask, trace_ask, hy']
    simp only [iterate_of_found hfound, trace_found]
  rw [← hs] at hrun
  have hy0 : f (Minimize.first 0 (12 / 10 ^ 6)) = .ok y := hy
  rw [Minimize.minimize_eq, trace_ask, hy0]
  simp only [hrun, first]

/-- Whatever the objective: every point asked for lies strictly between the ends, and no quotient is by zero. An answer
was asked for and no point asked for has a smaller value; the bracket that the search ends with lies around it, no
farther off than twice the tolerance. So the weakest direction asks for directions strictly inside the sector only. -/
theorem minimize_stays_inside (hlt : lower < upper) (f : K → Except ε K) :
    (∀ x ∈ ((minimize lower upper).trace f).2, lower < x ∧ x < upper) ∧
      (∀ s : Minimize.State K, Minimize.Divides s) ∧
      (∀ x, ((minimize lower upper).trace f).1 = .ok x →
        x ∈ ((minimize lower upper).trace f).2 ∧
          (∃ y, f x = .ok y ∧ ∀ x' ∈ ((minimize lower upper).trace f).2, ∃ y', f x' = .ok y' ∧ y ≤ y') ∧
          ∃ s, Minimize.Runs f lower upper ((minimize lower upper).trace f).2 s ∧ Minimize.round s = .found x ∧
            lower ≤ s.a ∧ s.a < x ∧ x < s.b ∧ s.b ≤ upper ∧
            x - s.a ≤ 2 * (Scalar.sqrt Arith.epsilon * |x| + 1 / 10 ^ 5 / 3) ∧
            s.b - x ≤ 2 * (Scalar.sqrt Arith.epsilon * |x| + 1 / 10 ^ 5 / 3)) ∧
      ∀ r : Rating K, (∀ d ∈ ((minimize 0 60).trace r.maxForce).2, 0 < d ∧ d < 60) ∧
        r.weakestDirection = ((minimize 0 60).trace r.maxForce).1.mapError
          (Rating.searchError (((minimize 0 60).trace r.maxForce).2.getLastD 0)
            ((minimize 0 60).trace r.maxForce).2.length) := by
  refine ⟨fun x hx => trace_minimize_between hlt hx, Minimize.divides, fun x hx => ?_, fun r => ⟨fun d hd => ?_, ?_⟩⟩
  · obtain ⟨s, hs, rfl, hw⟩ := Minimize.found_of_minimize hx
    have h := narrowed_of_runs hlt hs
    have hround : Minimize.round s = .found s.best.x := if_neg hw
    rw [Minimize.not_wide_iff, Minimize.slack_eq] at hw
    exact ⟨h.mem, ⟨s.best.f, h.value, h.least⟩, s, hs, hround, h.lower_le, h.a_lt, h.lt_b, h.le_upper, hw.1, hw.2⟩
  · exact trace_minimize_between (by norm_num) hd
  · exact weakestDirection_eq r

/-- A rising objective on twelve millionths: the second point is worse, and the first is the answer. -/
theorem minimize_stays_inside_rising :
    let first : ℝ := Minimize.first 0 (12 / 10 ^ 6)
    let second := first + (1 / 2 ^ 26 * first + 1 / 10 ^ 5 / 3)
    let run := (minimize 0 (12 / 10 ^ 6)).trace fun x => (.ok x : Except Unit ℝ)
    (0 : ℝ) < 12 / 10 ^ 6 ∧ run = (.ok first, [first, second]) ∧ (0 < first ∧ first < 12 / 10 ^ 6) ∧
      (0 < second ∧ second < 12 / 10 ^ 6) ∧
      ∃ s : Minimize.State ℝ, Minimize.round s = .found first ∧ 0 ≤ s.a ∧ s.a < first ∧ first < s.b ∧ s.b ≤ 12 / 10 ^ 6 ∧
        s.b - first ≤ 2 * (Scalar.sqrt Arith.epsilon * |first| + 1 / 10 ^ 5 / 3) := by
  intro first second run
  have hlt : (0 : ℝ) < 12 / 10 ^ 6 := by norm_num
  obtain ⟨hinside, -, hanswer, -⟩ := minimize_stays_inside hlt (fun x => (.ok x : Except Unit ℝ))
  have hfirst : 0 < first := (Minimize.first_between hlt).1
  have hrun : run = (.ok first, [first, second]) :=
    trace_minimize_once rfl rfl (lt_add_of_pos_right first (by positivity))
  have hpoints : ((minimize 0 (12 / 10 ^ 6)).trace fun x => (.ok x : Except Unit ℝ)).2 = [first, second] :=
    congrArg Prod.snd hrun
  rw [hpoints] at hinside
  obtain ⟨-, -, s, -, hs, ha, hl, hr, hb, -, hright⟩ := hanswer first (congrArg Prod.fst hrun)
  exact ⟨hlt, hrun, hinside first (by simp), hinside second (by simp), s, hs, ha, hl, hr, hb, hright⟩

end Safety

/-! ## The minimum of a function with one valley -/

/-- `f` falls until `m` and rises from there. -/
structure Unimodal [Preorder K] (f : K → K) (lower upper m : K) : Prop where
  mem : m ∈ Set.Icc lower upper
  falls : StrictAntiOn f (Set.Icc lower m)
  rises : StrictMonoOn f (Set.Icc m upper)

section Valley

variable [LinearOrder K] {f : K → K} {lower upper m x y : K}

/-- Where the right one of two points is no higher, the valley is not left of both. -/
theorem Unimodal.le_of_ge (h : Unimodal f lower upper m) (hy : y ≤ upper) (hxy : x < y) (hle : f y ≤ f x) : x ≤ m := by
  by_contra hlt
  have hmx := (not_le.mp hlt).le
  exact absurd (h.rises ⟨hmx, hxy.le.trans hy⟩ ⟨hmx.trans hxy.le, hy⟩ hxy) (not_lt.mpr hle)

theorem Unimodal.ge_of_le (h : Unimodal f lower upper m) (hx : lower ≤ x) (hxy : x < y) (hle : f x ≤ f y) : m ≤ y := by
  by_contra hlt
  have hym := (not_le.mp hlt).le
  exact absurd (h.falls ⟨hx, hxy.le.trans hym⟩ ⟨hx.trans hxy.le, hym⟩ hxy) (not_lt.mpr hle)

end Valley

section Minimum

variable [Field K] [LinearOrder K] [IsStrictOrderedRing K] [Scalar K] [ExactArith K] [ExactRoots K] {f : K → K}
  {lower upper m : K} {points : List K} {s : Minimize.State K}

/-- The valley stays in the bracket, whichever end is moved. -/
theorem Unimodal.mem_advance (h : Unimodal f lower upper m)
    (hs : Minimize.Narrowed (fun x => (.ok (f x) : Except ε K)) lower upper points s) (hw : Minimize.wide s = true)
    (hm : m ∈ Set.Icc s.a s.b) :
    m ∈ Set.Icc (Minimize.advance s (f (Minimize.next s))).a (Minimize.advance s (f (Minimize.next s))).b := by
  have ha := hs.lower_le
  have hb := hs.le_upper
  have hax := hs.a_lt
  have hxb := hs.lt_b
  have hvalue : f s.best.x = s.best.f := Except.ok.inj hs.value
  have hnarrows := Minimize.advance_narrows hw (f (Minimize.next s))
  generalize Minimize.advance s (f (Minimize.next s)) = t at hnarrows ⊢
  obtain ⟨a, b, best, second, third, step, stepBefore⟩ := t
  cases hnarrows with
  | betterRight hle hl hr => exact ⟨h.le_of_ge (hr.le.trans hb) hl (hle.trans_eq hvalue.symm), hm.2⟩
  | betterLeft hle hl hr => exact ⟨hm.1, h.ge_of_le (ha.trans hl.le) hr (hle.trans_eq hvalue.symm)⟩
  | worseLeft hlt hl hr => exact ⟨h.le_of_ge (hxb.le.trans hb) hr (hvalue.trans_le hlt.le), hm.2⟩
  | worseRight hlt hl hr => exact ⟨hm.1, h.ge_of_le (ha.trans hax.le) hl (hvalue.trans_le hlt.le)⟩

theorem Unimodal.mem_of_runs (h : Unimodal f lower upper m) (hlt : lower < upper)
    (hs : Minimize.Runs (fun x => (.ok (f x) : Except ε K)) lower upper points s) : m ∈ Set.Icc s.a s.b := by
  refine (Minimize.runs_induction (P := fun points s =>
    Minimize.Narrowed (fun x => (.ok (f x) : Except ε K)) lower upper points s ∧ m ∈ Set.Icc s.a s.b) hs ?_ ?_).2
  · exact fun y hy => ⟨Minimize.narrowed_start hlt hy, h.mem⟩
  · rintro points s y ⟨hn, hm⟩ hw hy
    cases hy
    exact ⟨Minimize.narrowed_advance hn hw rfl, h.mem_advance hn hw hm⟩

/-- A function with one valley. The search asks for a first point and goes round by round, and the valley is in the
bracket that every round begins with. An answer is given in such a round, and is no farther from the valley than twice
the tolerance. -/
theorem minimize_finds_minimum (hlt : lower < upper) (h : Unimodal f lower upper m) :
    (minimize lower upper = .ask (Minimize.first lower upper) fun y =>
      iterate Minimize.round Minimize.budget (Minimize.budget - 1) (Minimize.start lower upper y)) ∧
    (∀ x ∈ ((minimize lower upper).trace fun x => (.ok (f x) : Except ε K)).2, x = Minimize.first lower upper ∨
      ∃ points s, Minimize.Runs (fun x => (.ok (f x) : Except ε K)) lower upper points s ∧
        Minimize.round s = .ask x (Minimize.advance s)) ∧
    (∀ points s, Minimize.Runs (fun x => (.ok (f x) : Except ε K)) lower upper points s → s.a ≤ m ∧ m ≤ s.b) ∧
      ∀ x, ((minimize lower upper).trace fun x => (.ok (f x) : Except ε K)).1 = .ok x →
        (∃ s, Minimize.Runs (fun x => (.ok (f x) : Except ε K)) lower upper
          ((minimize lower upper).trace fun x => (.ok (f x) : Except ε K)).2 s ∧ Minimize.round s = .found x) ∧
        |x - m| ≤ 2 * (Scalar.sqrt Arith.epsilon * |x| + 1 / 10 ^ 5 / 3) := by
  refine ⟨Minimize.minimize_eq lower upper, fun x hx => ?_, fun points s hs => h.mem_of_runs hlt hs, fun x hx => ?_⟩
  · refine (Minimize.mem_trace_minimize hx).imp_right ?_
    rintro ⟨points, s, hs, hw, rfl⟩
    exact ⟨points, s, hs, if_pos hw⟩
  · obtain ⟨s, hs, rfl, hw⟩ := Minimize.found_of_minimize hx
    obtain ⟨ha, hb⟩ := h.mem_of_runs hlt hs
    refine ⟨⟨s, hs, if_neg hw⟩, ?_⟩
    rw [Minimize.not_wide_iff, Minimize.slack_eq] at hw
    rw [abs_le]
    exact ⟨by linarith, by linarith⟩

/-- The least value of a rising function is at the lower end. -/
theorem minimize_finds_minimum_rising :
    let first : ℝ := Minimize.first 0 (12 / 10 ^ 6)
    let second := first + (1 / 2 ^ 26 * first + 1 / 10 ^ 5 / 3)
    (0 : ℝ) < 12 / 10 ^ 6 ∧ Unimodal (fun x : ℝ => x) 0 (12 / 10 ^ 6) 0 ∧
      ((minimize 0 (12 / 10 ^ 6)).trace fun x => (.ok x : Except Unit ℝ)) = (.ok first, [first, second]) ∧
      |first - 0| ≤ 2 * (Scalar.sqrt Arith.epsilon * |first| + 1 / 10 ^ 5 / 3) := by
  intro first second
  have hlt : (0 : ℝ) < 12 / 10 ^ 6 := by norm_num
  have hvalley : Unimodal (fun x : ℝ => x) 0 (12 / 10 ^ 6) 0 := by
    refine ⟨⟨le_rfl, hlt.le⟩, fun x hx y hy hxy => ?_, fun x _ y _ hxy => hxy⟩
    exact absurd hxy (not_lt.mpr (hy.2.trans hx.1))
  have hfirst : 0 < first := (Minimize.first_between hlt).1
  have hrun : ((minimize 0 (12 / 10 ^ 6)).trace fun x => (.ok x : Except Unit ℝ)) = (.ok first, [first, second]) :=
    trace_minimize_once rfl rfl (lt_add_of_pos_right first (by positivity))
  obtain ⟨-, -, -, hanswer⟩ := minimize_finds_minimum (ε := Unit) hlt hvalley
  exact ⟨hlt, hvalley, hrun, (hanswer first (congrArg Prod.fst hrun)).2⟩

end Minimum

end MagneticBearing.Search
