/-
  MagneticBearing.Proofs.Brent — the bracketed search keeps its bracket.

  A state enters a round with a sign change between its last two points, or between the last one and
  the point across, the two before lying on either side of the last (`Entry`). Once reordered it has
  the smaller value at `cur` and the opposite sign at `blk` (`Bracket`, `bracket_of_entry`).
  Interpolation then points toward `blk` (`interpolated_toward`), whichever formula is used, and no
  step goes as far as `blk`; so the next point lies strictly between the two (`next_between`), and the
  round leaves a state that enters the next one (`entry_of_bracket`).

  - `entry_of_reached`: so does every state that the rounds come to, with points that were asked for.
  - `brent_keeps_bracket`: no point asked for leaves the bracket and no quotient is by zero; the search
    is refused exactly if both ends have values of one sign, and an answer was asked for and is a zero or
    has a value of the other sign, not smaller, within the tolerance.
  Nothing is assumed of the objective, and of the numbers only that they are an ordered field.
-/

import MagneticBearing.Proofs.OrderedField
import MagneticBearing.Proofs.Rounds
import MagneticBearing.Search.Brent

-- `ExactArith` is what makes the two instances on `K` agree.
set_option linter.overlappingInstances false

namespace MagneticBearing.Search

variable {K ε : Type} {f : K → Except ε K} {a b : K}

namespace Brent

/-! ## A round as a whole -/

section Rounds

variable [Arith K]

/-- The state that a round works with. -/
def ordered (s : State K) : State K := keepBest (rebracket s)

/-- The point that the round asks for. -/
def next (s : State K) : K := nextPoint s (chooseStep s).2

/-- The state after the round, with the value at the point asked for. -/
def advance (s : State K) (y : K) : State K :=
  { s with pre := s.cur, cur := ⟨next s, y⟩, stepBefore := (chooseStep s).1, step := (chooseStep s).2 }

/-- The search ends here. -/
def settled (s : State K) : Bool := s.cur.f == 0.0 || Arith.abs (half s) < slack s.cur.x

def round (s : State K) : Round K (State K) :=
  if settled (ordered s) then .found (ordered s).cur.x else .ask (next (ordered s)) (advance (ordered s))

/-- The state that the rounds begin with. -/
def start (a fa b fb : K) : State K := ⟨⟨a, fa⟩, ⟨b, fb⟩, ⟨0.0, 0.0⟩, 0.0, 0.0⟩

theorem loop_eq_iterate (n : ℕ) (s : State K) : loop n s = iterate round rounds n s := by
  induction n generalizing s with
  | zero => rfl
  | succ n ih =>
    by_cases h : settled (ordered s) = true
    · have hr : round s = .found (ordered s).cur.x := if_pos h
      rw [iterate, hr]
      exact if_pos h
    · have hr : round s = .ask (next (ordered s)) (advance (ordered s)) := if_neg h
      rw [iterate, hr]
      refine (if_neg h).trans ?_
      exact congrArg _ (funext fun y => ih (advance (ordered s) y))

def Sample.lift (p : Sample K) : Sample (Partial K) := ⟨.defined p.x, .defined p.f⟩

/-- The state among numbers of which a quotient by zero is undefined. -/
def State.lift (s : State K) : State (Partial K) :=
  ⟨s.pre.lift, s.cur.lift, s.blk.lift, .defined s.stepBefore, .defined s.step⟩

end Rounds

/-! ## The formulas, on exact numbers -/

variable [Field K] [LinearOrder K]

section Formulas

variable [Arith K] [ExactArith K]

theorem keepBest_eq (s : State K) : keepBest s =
    if |s.blk.f| < |s.cur.f| then { s with pre := s.cur, cur := s.blk, blk := s.cur } else s := by
  simp only [keepBest, Arith.operations]

theorem interpolated_eq (s : State K) : interpolated s =
    if s.pre.x = s.blk.x then -s.cur.f * (s.cur.x - s.pre.x) / (s.cur.f - s.pre.f)
    else
      -s.cur.f * (s.blk.f * ((s.blk.f - s.cur.f) / (s.blk.x - s.cur.x)) -
          s.pre.f * ((s.pre.f - s.cur.f) / (s.pre.x - s.cur.x))) /
        ((s.blk.f - s.cur.f) / (s.blk.x - s.cur.x) * ((s.pre.f - s.cur.f) / (s.pre.x - s.cur.x)) *
          (s.blk.f - s.pre.f)) := by
  simp only [interpolated, Arith.beq_iff, Arith.operations]

variable [IsStrictOrderedRing K]

theorem slack_eq (x : K) : slack x = (2 / 10 ^ 12 + 4 * Arith.epsilon * |x|) / 2 := by
  simp only [slack, absoluteTolerance, relativeTolerance, Arith.operations]
  norm_num

theorem slack_pos (x : K) : 0 < slack x := by
  rw [slack_eq, Arith.epsilon_value]
  positivity

theorem half_eq (s : State K) : half s = (s.blk.x - s.cur.x) / 2 := by
  simp only [half, Arith.operations, Arith.decimals]

theorem rebracket_eq (s : State K) : rebracket s =
    if s.pre.f * s.cur.f < 0 then
      { s with blk := s.pre, stepBefore := s.cur.x - s.pre.x, step := s.cur.x - s.pre.x }
    else s := by
  have hcrosses : s.pre.f * s.cur.f < 0 ↔
      s.pre.f ≠ 0 ∧ s.cur.f ≠ 0 ∧ ¬ Arith.sameSign s.pre.f s.cur.f = true := by
    constructor
    · intro h
      have hp := left_ne_zero_of_mul h.ne
      have hc := right_ne_zero_of_mul h.ne
      exact ⟨hp, hc, fun hs => absurd ((Arith.sameSign_iff hp hc).mp hs) h.asymm⟩
    · intro h
      obtain ⟨hp, hc, hs⟩ := h
      rw [Arith.sameSign_iff hp hc, not_lt] at hs
      exact lt_of_le_of_ne hs (mul_ne_zero hp hc)
  simp only [rebracket, bne, Bool.and_eq_true, Bool.not_eq_true', ← Bool.not_eq_true, Arith.operations,
    Arith.decimals, Arith.beq_iff, hcrosses, and_assoc, ne_eq]

theorem chooseStep_cases (s : State K) : chooseStep s = (half s, half s) ∨
    |s.cur.f| < |s.pre.f| ∧ 2 * |interpolated s| < 3 * |half s| - slack s.cur.x ∧
      chooseStep s = (s.step, interpolated s) := by
  simp only [chooseStep, Bool.and_eq_true, decide_eq_true_eq, Arith.operations, Arith.decimals]
  split
  · rename_i htries
    split
    · rename_i hshort
      exact .inr ⟨htries.2, lt_of_lt_of_le hshort (Arith.smaller_le_right _ _), rfl⟩
    · exact .inl rfl
  · exact .inl rfl

theorem nextPoint_eq (s : State K) (step : K) : nextPoint s step =
    if slack s.cur.x < |step| then s.cur.x + step
    else s.cur.x + if 0 < half s then slack s.cur.x else -slack s.cur.x := by
  simp only [nextPoint, Arith.operations, Arith.decimals]

theorem settled_iff (s : State K) : settled s = true ↔ s.cur.f = 0 ∨ |half s| < slack s.cur.x := by
  simp only [settled, Bool.or_eq_true, decide_eq_true_eq, Arith.operations, Arith.decimals, Arith.beq_iff]

theorem found_of_round {s : State K} {x : K} (h : round s = .found x) :
    (ordered s).cur.x = x ∧ ((ordered s).cur.f = 0 ∨ |half (ordered s)| < slack (ordered s).cur.x) := by
  unfold round at h
  split at h
  · rename_i hs
    cases h
    exact ⟨rfl, (settled_iff _).mp hs⟩
  · cases h

theorem ask_of_round {s : State K} {x : K} {g : K → State K} (h : round s = .ask x g) :
    (ordered s).cur.f ≠ 0 ∧ slack (ordered s).cur.x ≤ |half (ordered s)| ∧ next (ordered s) = x ∧
      advance (ordered s) = g := by
  unfold round at h
  split at h
  · cases h
  · rename_i hs
    cases h
    rw [settled_iff, not_or, not_lt] at hs
    exact ⟨hs.1, hs.2, rfl, rfl⟩

end Formulas

/-! ## Where interpolation points -/

section Interpolation

variable [IsStrictOrderedRing K]

/-- The chord of two values of opposite sign meets zero between them. -/
theorem secant_toward {c d x y : K} (h : c * d < 0) (hxy : x ≠ y) : 0 < -c * (x - y) / (c - d) * (y - x) := by
  have hc : c ≠ 0 := left_ne_zero_of_mul h.ne
  have hcd : 0 < c * (c - d) := by
    have := sq_pos_of_ne_zero hc
    linarith
  have hne : c - d ≠ 0 := right_ne_zero_of_mul hcd.ne'
  have e : -c * (x - y) / (c - d) * (y - x) = c * (c - d) * (y - x) ^ 2 / (c - d) ^ 2 := by
    field_simp
    ring
  rw [e]
  have := sub_ne_zero.mpr hxy.symm
  positivity

/-- The inverse parabola through two values of one sign, the smaller in the middle, and one of the other
sign meets zero on the side of the latter. -/
theorem parabola_toward {p c d u v : K} (hpc : 0 < p * c) (hcd : c * d < 0) (hlt : |c| < |p|) (huv : u * v < 0) :
    0 < -c * (d * ((d - c) / v) - p * ((p - c) / u)) / ((d - c) / v * ((p - c) / u) * (d - p)) * v := by
  have hc : c ≠ 0 := left_ne_zero_of_mul hcd.ne
  have hu : u ≠ 0 := left_ne_zero_of_mul huv.ne
  have hv : v ≠ 0 := right_ne_zero_of_mul huv.ne
  have hc2 : 0 < c ^ 2 := sq_pos_of_ne_zero hc
  have hpp : p * c < p ^ 2 := by
    rw [← abs_of_pos hpc, abs_mul, ← sq_abs p, sq]
    exact mul_lt_mul_of_pos_left hlt ((abs_nonneg c).trans_lt hlt)
  -- Each difference, by its sign beside `c`.
  have h1 : (d - c) * c < 0 := by linarith
  have h2 : 0 < (p - c) * c := by
    have : c ^ 2 < p * c := by
      rw [← abs_of_pos hpc, abs_mul, ← sq_abs c, sq]
      exact mul_lt_mul_of_pos_right hlt (abs_pos.mpr hc)
    linarith
  have h3 : (d - p) * c < 0 := by linarith
  have hdc : d - c ≠ 0 := left_ne_zero_of_mul h1.ne
  have hpc' : p - c ≠ 0 := left_ne_zero_of_mul h2.ne'
  have hdp : d - p ≠ 0 := left_ne_zero_of_mul h3.ne
  have e : -c * (d * ((d - c) / v) - p * ((p - c) / u)) / ((d - c) / v * ((p - c) / u) * (d - p)) * v =
      ((p * (p - c)) * v ^ 2 + (d * (d - c)) * -(u * v)) * c ^ 4 /
        (((d - c) * c) * ((p - c) * c) * ((d - p) * c)) := by
    field_simp
    ring
  have hnum : 0 < (p * (p - c)) * v ^ 2 + (d * (d - c)) * -(u * v) := by
    have hp : 0 < p * (p - c) := by linarith
    have hd : 0 < d * (d - c) := by
      have := sq_nonneg d
      have hd0 : d ≠ 0 := right_ne_zero_of_mul hcd.ne
      have := sq_pos_of_ne_zero hd0
      linarith
    have := neg_pos.mpr huv
    positivity
  have hden : 0 < ((d - c) * c) * ((p - c) * c) * ((d - p) * c) :=
    mul_pos_of_neg_of_neg (mul_neg_of_neg_of_pos h1 h2) h3
  rw [e]
  positivity

end Interpolation

/-! ## Invariants -/

/-- How a round is entered, its samples being of a kind. Until there was a sign change the point across means
nothing. -/
structure Entry (P : Sample K → Prop) (s : State K) : Prop where
  pre : P s.pre
  cur : P s.cur
  change : s.cur.f = 0 ∨ s.pre.f * s.cur.f < 0 ∨
    0 < s.pre.f * s.cur.f ∧ s.cur.f * s.blk.f < 0 ∧ (s.pre.x - s.cur.x) * (s.blk.x - s.cur.x) < 0 ∧ P s.blk

/-- Within a round, once the state is reordered. -/
structure Bracket (P : Sample K → Prop) (s : State K) : Prop where
  cur : P s.cur
  blk : P s.blk
  opposite : s.cur.f * s.blk.f < 0
  least : |s.cur.f| ≤ |s.blk.f|
  pre : s.pre = s.blk ∨ 0 < s.pre.f * s.cur.f ∧ (s.pre.x - s.cur.x) * (s.blk.x - s.cur.x) < 0

variable {P Q : Sample K → Prop} {s : State K}

theorem Entry.mono (h : Entry P s) (hPQ : ∀ p, P p → Q p) : Entry Q s where
  pre := hPQ _ h.pre
  cur := hPQ _ h.cur
  change := by
    rcases h.change with h0 | hopp | ⟨hsame, hopp, hbetween, hblk⟩
    · exact .inl h0
    · exact .inr (.inl hopp)
    · exact .inr (.inr ⟨hsame, hopp, hbetween, hPQ _ hblk⟩)

/-- A sample of the objective at a point asked for, between the ends. -/
structure Asked (f : K → Except ε K) (a b : K) (points : List K) (p : Sample K) : Prop where
  mem : p.x ∈ points
  value : f p.x = .ok p.f
  between : p.x ∈ Set.uIcc a b

variable [Arith K]

/-- The ends differ in sign. -/
theorem entry_of_ends {fa fb : K} (ha : f a = .ok fa) (hb : f b = .ok fb) (h : fa * fb < 0) :
    Entry (Asked f a b [a, b]) (start a fa b fb) where
  pre := ⟨by simp [start], ha, Set.left_mem_uIcc⟩
  cur := ⟨by simp [start], hb, Set.right_mem_uIcc⟩
  change := .inr (.inl h)

variable [ExactArith K]

/-- Reordering a state whose current point and point across differ in sign. -/
theorem keepBest_bracket (hcur : P s.cur) (hblk : P s.blk) (h : s.cur.f * s.blk.f < 0)
    (hpre : s.pre = s.blk ∨ 0 < s.pre.f * s.cur.f ∧ (s.pre.x - s.cur.x) * (s.blk.x - s.cur.x) < 0) :
    Bracket P (keepBest s) := by
  rw [keepBest_eq]
  split
  · rename_i hlt
    exact ⟨hblk, hcur, by rwa [mul_comm], hlt.le, .inl rfl⟩
  · rename_i hle
    exact ⟨hcur, hblk, h, not_lt.mp hle, hpre⟩

variable [IsStrictOrderedRing K]

/-- A zero is kept as the current point, and ends the search. -/
theorem ordered_of_zero (h : s.cur.f = 0) : ordered s = s := by
  have hr : rebracket s = s := by
    rw [rebracket_eq, h, mul_zero]
    exact if_neg (lt_irrefl 0)
  unfold ordered
  rw [hr, keepBest_eq, h, abs_zero]
  exact if_neg (not_lt.mpr (abs_nonneg _))

theorem bracket_of_entry (h : Entry P s) :
    (ordered s).cur.f = 0 ∧ P (ordered s).cur ∨ Bracket P (ordered s) := by
  rcases h.change with h0 | hopp | ⟨hsame, hopp, hbetween, hblk⟩
  · rw [ordered_of_zero h0]
    exact .inl ⟨h0, h.cur⟩
  · unfold ordered
    rw [rebracket_eq, if_pos hopp]
    exact .inr (keepBest_bracket h.cur h.pre (by rwa [mul_comm]) (.inl rfl))
  · unfold ordered
    rw [rebracket_eq, if_neg (not_lt.mpr hsame.le)]
    exact .inr (keepBest_bracket h.cur hblk hopp (.inr ⟨hsame, hbetween⟩))

/-! ## One round -/

omit [Arith K] [ExactArith K] in
theorem ne_of_between {x y z : K} (h : (x - z) * (y - z) < 0) : x ≠ y := by
  intro e
  rw [e] at h
  exact absurd h (not_lt.mpr (mul_self_nonneg _))

theorem interpolated_toward (h : Bracket P s) (hx : s.cur.x ≠ s.blk.x) (hlt : |s.cur.f| < |s.pre.f|) :
    0 < interpolated s * (s.blk.x - s.cur.x) := by
  rw [interpolated_eq]
  rcases h.pre with hpre | ⟨hsame, hbetween⟩
  · rw [hpre, if_pos rfl]
    exact secant_toward h.opposite hx
  · rw [if_neg (ne_of_between hbetween)]
    exact parabola_toward hsame h.opposite hlt hbetween

/-- The step chosen goes toward the point across, and not as far. -/
theorem chooseStep_toward (h : Bracket P s) (hwide : slack s.cur.x ≤ |half s|) :
    0 < (chooseStep s).2 * half s ∧ |(chooseStep s).2| < 2 * |half s| := by
  have hd := slack_pos s.cur.x
  have habs : 0 < |half s| := lt_of_lt_of_le hd hwide
  have hh : half s ≠ 0 := abs_pos.mp habs
  rcases chooseStep_cases s with e | ⟨hlt, hshort, e⟩
  · rw [e]
    exact ⟨mul_self_pos.mpr hh, by linarith⟩
  · rw [e]
    refine ⟨?_, by linarith⟩
    have hx : s.cur.x ≠ s.blk.x := by
      intro hx
      rw [half_eq, hx, sub_self, zero_div] at hh
      exact hh rfl
    have htoward := interpolated_toward h hx hlt
    show 0 < interpolated s * half s
    rw [half_eq]
    linarith

theorem next_between (h : Bracket P s) (hwide : slack s.cur.x ≤ |half s|) :
    (s.cur.x - next s) * (s.blk.x - next s) < 0 := by
  obtain ⟨hpos, hlt⟩ := chooseStep_toward h hwide
  have hd := slack_pos s.cur.x
  have hblk : s.blk.x = s.cur.x + 2 * half s := by
    rw [half_eq]
    ring
  -- A move toward the point across, and not as far, ends between.
  have hmove {step : K} (h0 : 0 < step * half s) (h1 : |step| < 2 * |half s|) :
      (s.cur.x - (s.cur.x + step)) * (s.blk.x - (s.cur.x + step)) < 0 := by
    have h2 : step * step < 2 * (step * half s) := by
      calc step * step = |step| * |step| := (abs_mul_abs_self step).symm
        _ < |step| * (2 * |half s|) := mul_lt_mul_of_pos_left h1 (abs_pos.mpr (left_ne_zero_of_mul h0.ne'))
        _ = 2 * (step * half s) := by rw [← abs_of_pos h0, abs_mul]; ring
    rw [hblk]
    linarith
  unfold next
  rw [nextPoint_eq]
  split
  · exact hmove hpos hlt
  · split
    · rename_i hh
      have hhalf : |half s| = half s := abs_of_pos hh
      rw [hhalf] at hwide
      exact hmove (mul_pos hd hh) (by rw [abs_of_pos hd, hhalf]; linarith)
    · rename_i hh
      have hhalf : |half s| = -half s := abs_of_nonpos (not_lt.mp hh)
      rw [hhalf] at hwide
      exact hmove (mul_pos_of_neg_of_neg (by linarith) (by linarith)) (by rw [abs_neg, abs_of_pos hd, hhalf]; linarith)

/-- So it is between the ends, if these two are. -/
theorem next_mem (h : Bracket P s) (hwide : slack s.cur.x ≤ |half s|) (hP : ∀ p, P p → p.x ∈ Set.uIcc a b) :
    next s ∈ Set.uIcc a b := by
  refine Set.uIcc_subset_uIcc (hP _ h.cur) (hP _ h.blk) ?_
  rw [Set.mem_uIcc]
  rcases mul_neg_iff.mp (next_between h hwide) with ⟨h1, h2⟩ | ⟨h1, h2⟩
  · exact .inr ⟨by linarith, by linarith⟩
  · exact .inl ⟨by linarith, by linarith⟩

theorem entry_of_bracket (h : Bracket P s) (hwide : slack s.cur.x ≤ |half s|) {y : K} (hy : P ⟨next s, y⟩) :
    Entry P (advance s y) := by
  refine ⟨h.cur, hy, ?_⟩
  have hcur : s.cur.f ≠ 0 := left_ne_zero_of_mul h.opposite.ne
  rcases lt_trichotomy (s.cur.f * y) 0 with hneg | hzero | hpos
  · exact .inr (.inl hneg)
  · exact .inl ((mul_eq_zero.mp hzero).resolve_left hcur)
  · refine .inr (.inr ⟨hpos, ?_, next_between h hwide, h.blk⟩)
    show y * s.blk.f < 0
    have hc2 : 0 < s.cur.f ^ 2 := sq_pos_of_ne_zero hcur
    have hprod : s.cur.f ^ 2 * (y * s.blk.f) < 0 := by
      have := mul_neg_of_pos_of_neg hpos h.opposite
      linarith
    exact neg_of_mul_neg_right hprod hc2.le

/-- A point whose value decides: zero, or close to a point with a value of the other sign, not smaller. -/
inductive Decides (P : Sample K → Prop) (p : Sample K) : Prop
  | zero : p.f = 0 → Decides P p
  | near {q : Sample K} : P q → p.f * q.f < 0 → |p.f| ≤ |q.f| →
      |p.x - q.x| < 2 / 10 ^ 12 + 4 * Arith.epsilon * |p.x| → Decides P p

theorem decides_of_bracket (h : Bracket P s) (hnarrow : |half s| < slack s.cur.x) : Decides P s.cur := by
  refine .near h.blk h.opposite h.least ?_
  have e : |s.cur.x - s.blk.x| = 2 * |half s| := by
    rw [half_eq, abs_div, abs_two, abs_sub_comm]
    ring
  rw [slack_eq] at hnarrow
  rw [e]
  linarith

theorem decides_of_found (h : Entry P s) {x : K} (hr : round s = .found x) :
    ∃ p, P p ∧ p.x = x ∧ Decides P p := by
  obtain ⟨hx, hstop⟩ := found_of_round hr
  rcases bracket_of_entry h with ⟨hz, hcur⟩ | hb
  · exact ⟨(ordered s).cur, hcur, hx, .zero hz⟩
  · have hnarrow := hstop.resolve_left (left_ne_zero_of_mul hb.opposite.ne)
    exact ⟨(ordered s).cur, hb.cur, hx, decides_of_bracket hb hnarrow⟩

theorem bracket_of_ask (h : Entry P s) {x : K} {g : K → State K} (hr : round s = .ask x g) : Bracket P (ordered s) :=
  (bracket_of_entry h).resolve_left fun h0 => (ask_of_round hr).1 h0.1

/-! ## Divisors -/

/-- No quotient of the round is by zero: over numbers where such a one is undefined, each of its lengths is defined
and the same. -/
structure Divides (s : State K) : Prop where
  slack_defined : slack (Partial.defined s.cur.x) = .defined (slack s.cur.x)
  half_defined : half s.lift = .defined (half s)
  interpolated_defined : ¬ settled s = true → slack s.cur.x < |s.stepBefore| → |s.cur.f| < |s.pre.f| →
    interpolated s.lift = .defined (interpolated s)

theorem interpolated_defined (h : Bracket P s) (hlt : |s.cur.f| < |s.pre.f|) :
    interpolated s.lift = .defined (interpolated s) := by
  have hpc : s.pre.f - s.cur.f ≠ 0 := sub_ne_zero.mpr fun e => absurd hlt (by rw [e]; exact lt_irrefl _)
  have hcp : s.cur.f - s.pre.f ≠ 0 := sub_ne_zero.mpr (sub_ne_zero.mp hpc).symm
  simp only [interpolated, State.lift, Sample.lift, Partial.defined_beq, Partial.defined_neg, Partial.defined_sub,
    Partial.defined_mul, Arith.operations, Arith.beq_iff]
  rcases h.pre with hpre | ⟨hsame, hbetween⟩
  · rw [hpre, if_pos rfl, if_pos rfl, ← hpre]
    exact Partial.div_of_ne _ hcp
  · have hx : s.pre.x - s.cur.x ≠ 0 := left_ne_zero_of_mul hbetween.ne
    have hb : s.blk.x - s.cur.x ≠ 0 := right_ne_zero_of_mul hbetween.ne
    have hbc : s.blk.f - s.cur.f ≠ 0 :=
      sub_ne_zero.mpr fun e => absurd h.opposite (by rw [e]; exact not_lt.mpr (mul_self_nonneg _))
    have hbp : s.blk.f - s.pre.f ≠ 0 := by
      intro e
      rw [← sub_eq_zero.mp e, mul_comm] at hsame
      exact absurd h.opposite hsame.asymm
    rw [if_neg (ne_of_between hbetween), if_neg (ne_of_between hbetween), Partial.div_of_ne _ hx,
      Partial.div_of_ne _ hb]
    simp only [Partial.defined_sub, Partial.defined_mul, Arith.operations]
    exact Partial.div_of_ne _ (mul_ne_zero (mul_ne_zero (div_ne_zero hbc hb) (div_ne_zero hpc hx)) hbp)

theorem half_defined (s : State K) : half s.lift = .defined (half s) := by
  simp only [half, State.lift, Sample.lift, Partial.defined_sub, Partial.defined_decimal, Arith.operations]
  exact Partial.div_of_ne _ (by norm_num)

theorem slack_defined (x : K) : slack (Partial.defined x) = .defined (slack x) := by
  simp only [slack, absoluteTolerance, relativeTolerance, Arith.epsilon, Partial.defined_abs, Partial.defined_decimal,
    Arith.operations]
  rw [Partial.div_of_ne _ (by norm_num)]
  simp only [Partial.defined_mul, Partial.defined_add, Arith.operations]
  exact Partial.div_of_ne _ (by norm_num)

theorem divides_of_entry (h : Entry P s) : Divides (ordered s) where
  slack_defined := slack_defined _
  half_defined := half_defined _
  interpolated_defined hgo _ hlt := by
    rw [settled_iff, not_or] at hgo
    exact interpolated_defined ((bracket_of_entry h).resolve_left fun h0 => hgo.1 h0.1) hlt

/-! ## A run -/

/-- What a round keeps, every state of a run has. -/
theorem entry_of_reached {points : List K} {t : State K} (h0 : Entry (Asked f a b [a, b]) s)
    (h : Reached round f s points t) : Entry (Asked f a b (a :: b :: points)) t := by
  refine h.keeps (P := fun points t => Entry (Asked f a b points) t) h0 fun points t x g y ht hr hy => ?_
  have hold : Entry (Asked f a b (points ++ [x])) t :=
    ht.mono fun p hp => ⟨List.mem_append_left [x] hp.mem, hp.value, hp.between⟩
  have hb := bracket_of_ask hold hr
  obtain ⟨-, hwide, rfl, rfl⟩ := ask_of_round hr
  exact entry_of_bracket hb hwide ⟨List.mem_concat_self, hy, next_mem hb hwide fun p hp => hp.between⟩

/-- How a search goes, by the values at the ends: its answer and the points asked for. -/
inductive Course (f : K → Except ε K) (a b : K) : Except (SearchFailure K ε) K → List K → Prop
  | firstFails {e : ε} : f a = .error e → Course f a b (.error (.objective e)) [a]
  | secondFails {fa : K} {e : ε} : f a = .ok fa → f b = .error e → Course f a b (.error (.objective e)) [a, b]
  | firstZero : f a = .ok 0 → Course f a b (.ok a) [a, b]
  | secondZero : f b = .ok 0 → Course f a b (.ok b) [a, b]
  | oneSign {fa fb : K} : f a = .ok fa → f b = .ok fb → 0 < fa * fb →
      Course f a b (.error (.notBracketed a b)) [a, b]
  | rounds {fa fb : K} : f a = .ok fa → f b = .ok fb → fa * fb < 0 →
      Course f a b ((iterate round Brent.rounds Brent.rounds (start a fa b fb)).trace f).1
        (a :: b :: ((iterate round Brent.rounds Brent.rounds (start a fa b fb)).trace f).2)

theorem course (f : K → Except ε K) (a b : K) : Course f a b ((brent a b).trace f).1 ((brent a b).trace f).2 := by
  unfold brent
  rw [trace_ask]
  cases ha : f a with
  | error e => exact .firstFails ha
  | ok fa =>
    simp only [trace_ask]
    cases hb : f b with
    | error e => exact .secondFails ha hb
    | ok fb =>
      simp only [Arith.beq_zero_iff]
      by_cases hfa : fa = 0
      · rw [if_pos hfa]
        exact .firstZero (by rw [ha, hfa])
      rw [if_neg hfa]
      by_cases hfb : fb = 0
      · rw [if_pos hfb]
        exact .secondZero (by rw [hb, hfb])
      rw [if_neg hfb]
      simp only [Arith.sameSign_iff hfa hfb]
      by_cases hsame : 0 < fa * fb
      · rw [if_pos hsame]
        exact .oneSign ha hb hsame
      · rw [if_neg hsame, loop_eq_iterate]
        exact .rounds ha hb (lt_of_le_of_ne (not_lt.mp hsame) (mul_ne_zero hfa hfb))

/-- An answer was asked for, and decides. -/
theorem brent_decides {m : K} (h : ((brent a b).trace f).1 = .ok m) :
    ∃ p, Asked f a b ((brent a b).trace f).2 p ∧ p.x = m ∧ Decides (Asked f a b ((brent a b).trace f).2) p := by
  have hcourse := course f a b
  rw [h] at hcourse
  generalize hr : Except.ok m = r at hcourse
  generalize ((brent a b).trace f).2 = points at hcourse ⊢
  cases hcourse with
  | firstFails _ => cases hr
  | secondFails _ _ => cases hr
  | firstZero ha =>
    cases hr
    exact ⟨⟨a, 0⟩, ⟨by simp, ha, Set.left_mem_uIcc⟩, rfl, .zero rfl⟩
  | secondZero hb =>
    cases hr
    exact ⟨⟨b, 0⟩, ⟨by simp, hb, Set.right_mem_uIcc⟩, rfl, .zero rfl⟩
  | oneSign _ _ _ => cases hr
  | rounds ha hb hopp =>
    obtain ⟨t, ht, hfound⟩ := found_of_iterate hr.symm
    exact decides_of_found (entry_of_reached (entry_of_ends ha hb hopp) ht) hfound

theorem trace_mem_uIcc {x : K} (h : x ∈ ((brent a b).trace f).2) : x ∈ Set.uIcc a b := by
  have hends (h : x ∈ [a, b]) : x ∈ Set.uIcc a b := by
    rcases List.mem_pair.mp h with rfl | rfl
    · exact Set.left_mem_uIcc
    · exact Set.right_mem_uIcc
  have hcourse := course f a b
  generalize ((brent a b).trace f).1 = r at hcourse
  generalize ((brent a b).trace f).2 = points at hcourse h
  cases hcourse with
  | firstFails _ =>
    cases List.mem_singleton.mp h
    exact Set.left_mem_uIcc
  | secondFails _ _ => exact hends h
  | firstZero _ => exact hends h
  | secondZero _ => exact hends h
  | oneSign _ _ _ => exact hends h
  | rounds ha hb hopp =>
    rcases List.mem_cons.mp h with rfl | h
    · exact Set.left_mem_uIcc
    rcases List.mem_cons.mp h with rfl | h
    · exact Set.right_mem_uIcc
    obtain ⟨points, t, g, ht, hask⟩ := mem_trace_iterate h
    have hb := bracket_of_ask (entry_of_reached (entry_of_ends ha hb hopp) ht) hask
    obtain ⟨-, hwide, rfl, -⟩ := ask_of_round hask
    exact next_mem hb hwide fun p hp => hp.between

/-- What an answer is worth: a zero, or a point next to one with a value of the other sign. -/
structure Located (f : K → Except ε K) (a b m : K) : Prop where
  mem : m ∈ Set.uIcc a b
  value : ∃ y, f m = .ok y ∧ (y = 0 ∨ ∃ x z, f x = .ok z ∧ x ∈ Set.uIcc a b ∧ y * z < 0 ∧ |y| ≤ |z| ∧
    |m - x| < 2 / 10 ^ 12 + 4 * Arith.epsilon * |m|)

end Brent

variable [Field K] [LinearOrder K] [IsStrictOrderedRing K] [Arith K] [ExactArith K]

theorem brent_located {m : K} (h : (brent a b).answer f = .ok m) : Brent.Located f a b m := by
  rw [answer_eq_trace] at h
  obtain ⟨p, hp, rfl, hdecides⟩ := Brent.brent_decides h
  refine ⟨hp.between, p.f, hp.value, ?_⟩
  cases hdecides with
  | zero hz => exact .inl hz
  | near hq hopp hle hnear => exact .inr ⟨_, _, hq.value, hq.between, hopp, hle, hnear⟩

theorem brent_notBracketed_iff {lower upper : K} :
    (brent a b).answer f = .error (.notBracketed lower upper) ↔
      (∃ fa fb, f a = .ok fa ∧ f b = .ok fb ∧ 0 < fa * fb) ∧ lower = a ∧ upper = b := by
  rw [answer_eq_trace]
  have hcourse := Brent.course f a b
  generalize ((brent a b).trace f).2 = points at hcourse
  constructor
  · intro h
    rw [h] at hcourse
    generalize hr : Except.error (SearchFailure.notBracketed lower upper) = r at hcourse
    cases hcourse with
    | firstFails _ => cases hr
    | secondFails _ _ => cases hr
    | firstZero _ => cases hr
    | secondZero _ => cases hr
    | oneSign ha hb hsame =>
      cases hr
      exact ⟨⟨_, _, ha, hb, hsame⟩, rfl, rfl⟩
    | rounds _ _ _ => exact absurd hr.symm (iterate_ne_notBracketed lower upper)
  · rintro ⟨⟨fa, fb, ha, hb, hsame⟩, rfl, rfl⟩
    generalize ((brent lower upper).trace f).1 = r at hcourse ⊢
    cases hcourse with
    | firstFails h => rw [ha] at h; cases h
    | secondFails _ h => rw [hb] at h; cases h
    | firstZero h =>
      rw [ha] at h
      cases h
      rw [zero_mul] at hsame
      exact absurd hsame (lt_irrefl 0)
    | secondZero h =>
      rw [hb] at h
      cases h
      rw [mul_zero] at hsame
      exact absurd hsame (lt_irrefl 0)
    | oneSign _ _ _ => rfl
    | rounds h h' hopp =>
      rw [ha] at h
      rw [hb] at h'
      cases h
      cases h'
      exact absurd hopp hsame.asymm

/-- The states that the rounds of the search begin with, each with the points asked for in rounds before it. -/
def Brent.Runs (f : K → Except ε K) (a b : K) (points : List K) (s : Brent.State K) : Prop :=
  ∃ fa fb, f a = .ok fa ∧ f b = .ok fb ∧ fa * fb < 0 ∧ Reached Brent.round f (Brent.start a fa b fb) points s

/-- Whatever the objective: every point asked for lies between the ends, and no quotient is by zero. The search is
refused exactly if the ends have values of one sign. An answer was asked for; its value is zero, or some point asked
for, closer than the tolerance, has a value of the other sign that is not smaller. -/
theorem brent_keeps_bracket (f : K → Except ε K) (a b : K) :
    (∀ x ∈ ((brent a b).trace f).2, x ∈ Set.uIcc a b) ∧
      (∀ points s, Brent.Runs f a b points s → Brent.Divides (Brent.ordered s)) ∧
      ((∃ lower upper, ((brent a b).trace f).1 = .error (.notBracketed lower upper)) ↔
        ∃ fa fb, f a = .ok fa ∧ f b = .ok fb ∧ 0 < fa * fb) ∧
      ∀ x, ((brent a b).trace f).1 = .ok x → x ∈ ((brent a b).trace f).2 ∧ ∃ y, f x = .ok y ∧
        (y = 0 ∨ ∃ x' ∈ ((brent a b).trace f).2, ∃ y', x' ∈ Set.uIcc a b ∧ f x' = .ok y' ∧ y * y' < 0 ∧
          |y| ≤ |y'| ∧ |x - x'| < 2 / 10 ^ 12 + 4 * Arith.epsilon * |x|) := by
  refine ⟨fun x hx => Brent.trace_mem_uIcc hx, ?_, ?_, ?_⟩
  · rintro points s ⟨fa, fb, ha, hb, hopp, hs⟩
    exact Brent.divides_of_entry (Brent.entry_of_reached (Brent.entry_of_ends ha hb hopp) hs)
  · rw [← answer_eq_trace]
    constructor
    · rintro ⟨lower, upper, h⟩
      exact (brent_notBracketed_iff.mp h).1
    · intro h
      exact ⟨a, b, brent_notBracketed_iff.mpr ⟨h, rfl, rfl⟩⟩
  · intro x hx
    obtain ⟨p, hp, rfl, hdecides⟩ := Brent.brent_decides hx
    refine ⟨hp.mem, p.f, hp.value, ?_⟩
    cases hdecides with
    | zero hz => exact .inl hz
    | near hq hopp hle hnear => exact .inr ⟨_, hq.mem, _, hq.between, hq.value, hopp, hle, hnear⟩

open Brent in
/-- The line through 1 on the interval from 0 to 2: the first round halves it and finds the root. -/
theorem brent_keeps_bracket_line :
    (brent (0 : ℝ) 2).trace (fun x => (.ok (x - 1) : Except Unit ℝ)) = (.ok 1, [0, 2, 1]) ∧
      (∀ x ∈ [0, 2, (1 : ℝ)], x ∈ Set.uIcc 0 (2 : ℝ)) ∧
      Divides (ordered (start (0 : ℝ) (0 - 1) 2 (2 - 1))) := by
  have hordered : ordered (start (0 : ℝ) (0 - 1) 2 (2 - 1)) = ⟨⟨0, -1⟩, ⟨2, 1⟩, ⟨0, -1⟩, 2, 2⟩ := by
    unfold ordered start
    rw [rebracket_eq, keepBest_eq]
    norm_num
  have hslack : slack (2 : ℝ) < 1 := by
    rw [slack_eq, Arith.epsilon_value]
    norm_num
  have hhalf : half (⟨⟨0, -1⟩, ⟨2, 1⟩, ⟨0, -1⟩, 2, 2⟩ : State ℝ) = -1 := by
    rw [half_eq]
    norm_num
  have hnext : next (⟨⟨0, -1⟩, ⟨2, 1⟩, ⟨0, -1⟩, 2, 2⟩ : State ℝ) = 1 := by
    unfold next
    rcases chooseStep_cases (⟨⟨0, -1⟩, ⟨2, 1⟩, ⟨0, -1⟩, 2, 2⟩ : State ℝ) with e | ⟨hlt, -, -⟩
    · rw [e, nextPoint_eq, hhalf, if_pos (by simpa using hslack)]
      norm_num
    · norm_num at hlt
  have hround : Brent.round (start (0 : ℝ) (0 - 1) 2 (2 - 1)) = .ask 1 (advance ⟨⟨0, -1⟩, ⟨2, 1⟩, ⟨0, -1⟩, 2, 2⟩) := by
    unfold Brent.round
    rw [hordered, hnext, if_neg]
    rw [settled_iff, hhalf, abs_neg, abs_one, not_or, not_lt]
    exact ⟨one_ne_zero, hslack.le⟩
  have hlast : Brent.round (advance (⟨⟨0, -1⟩, ⟨2, 1⟩, ⟨0, -1⟩, 2, 2⟩ : State ℝ) (1 - 1)) = .found 1 := by
    have hz : (advance (⟨⟨0, -1⟩, ⟨2, 1⟩, ⟨0, -1⟩, 2, 2⟩ : State ℝ) (1 - 1)).cur.f = 0 := sub_self 1
    unfold Brent.round
    rw [ordered_of_zero hz, if_pos ((settled_iff _).mpr (.inl hz))]
    exact congrArg Round.found hnext
  have htrace : (brent (0 : ℝ) 2).trace (fun x => (.ok (x - 1) : Except Unit ℝ)) = (.ok 1, [0, 2, 1]) := by
    have h1 : (0 : ℝ) - 1 ≠ 0 := by norm_num
    have h2 : (2 : ℝ) - 1 ≠ 0 := by norm_num
    have hrounds : (iterate Brent.round rounds rounds (start (0 : ℝ) (0 - 1) 2 (2 - 1))).trace
        (fun x => (.ok (x - 1) : Except Unit ℝ)) = (.ok 1, [1]) := by
      show (iterate Brent.round rounds (98 + 1 + 1) _).trace _ = _
      rw [iterate, hround]
      simp only [trace_ask]
      rw [iterate, hlast]
      rfl
    unfold brent
    simp only [trace_ask, Arith.beq_zero_iff, if_neg h1, if_neg h2, Arith.sameSign_iff h1 h2, loop_eq_iterate]
    rw [if_neg (by norm_num)]
    exact congrArg (fun r => (r.1, 0 :: 2 :: r.2)) hrounds
  obtain ⟨hmem, hdivides, -⟩ := brent_keeps_bracket (fun x => (.ok (x - 1) : Except Unit ℝ)) 0 2
  rw [htrace] at hmem
  exact ⟨htrace, hmem, hdivides [] _ ⟨_, _, rfl, rfl, by norm_num, .start⟩⟩

end MagneticBearing.Search
