/-
  MagneticBearing.Proofs.SectorSearch — on doubles, too, the search of the sector stays strictly inside it.

  The search keeps the best point strictly between the ends of its bracket, and the bracket between 0 and 60
  (`Bracketed`). There every length that a round computes is off by a few units of `10^-13`
  (`Proofs.Accuracy`), while no step is shorter than the tolerance, and that is more than `9 · 10^-7`
  (`slack_bounds`). So the argument for exact numbers has room for the rounding: a wide bracket has room for
  two least steps on the longer side of the best point, up to `3 · 10^-12` (`room_left`, `room_right`); a
  golden cut goes there and a parabola's step keeps off both ends (`fits_golden`, `fits_parabolic`).

  The values at the points may be anything, infinite or not a number: they only decide which branch is
  taken. A parabola's step may be infinite, but it is a number (`parabola_isNumber`), so the comparison with
  the ends sees it.

  - `trace_minimize_inside`: every direction that is asked for lies strictly between 0 and 60.
-/

import MagneticBearing.Proofs.Accuracy
import MagneticBearing.Proofs.Minimize

namespace MagneticBearing.Search.Sector

open Running Minimize

/-! ## Constants -/

theorem value_sixty : IsFinite 60.0 ∧ value 60.0 = 60 := by
  have hview : view 60.0 = .finite .positive (15 * 2 ^ 49) (-47) (by positivity) := by rfl
  obtain ⟨hf, hv⟩ := value_literal hview (by norm_num)
  exact ⟨hf, hv.trans (by norm_num)⟩

theorem golden_bounds : IsFinite golden ∧ 3 / 8 < value golden ∧ value golden < 1 / 2 := by
  have hview : view 0.375 = .finite .positive (3 * 2 ^ 51) (-54) (by positivity) := by rfl
  obtain ⟨hf, hv⟩ := value_literal hview (by norm_num)
  have hlow : (0.375 : Float) < golden := by decide +kernel
  have hhigh : (golden : Float) < 0.5 := by decide +kernel
  obtain ⟨hg, h1, h2⟩ := value_between hf value_half.1 hlow hhigh
  rw [hv] at h1
  rw [value_half.2] at h2
  norm_num at h1
  exact ⟨hg, h1, h2⟩

/-- The share of the best point in the tolerance. -/
theorem share_bounds : IsFinite (Scalar.sqrt Arith.epsilon) ∧ 0 < value (Scalar.sqrt Arith.epsilon) ∧
    value (Scalar.sqrt Arith.epsilon) < 1 := by
  have hlow : (0.0 : Float) < Scalar.sqrt Arith.epsilon := by decide +kernel
  have hhigh : (Scalar.sqrt Arith.epsilon : Float) < 1.0 := by decide +kernel
  have h := value_between value_zero.1 value_one.1 hlow hhigh
  rwa [value_zero.2, value_one.2] at h

/-- The rest of the tolerance. -/
theorem rest_bounds : IsFinite (absoluteTolerance / 3.0) ∧ 9 / 10 ^ 7 < value (absoluteTolerance / 3.0) ∧
    value (absoluteTolerance / 3.0) < 1 := by
  have hview : view 9.5367431640625e-7 = .finite .positive (2 ^ 52) (-72) (by positivity) := by rfl
  obtain ⟨hf, hv⟩ := value_literal hview (by norm_num)
  have hlow : (9.5367431640625e-7 : Float) < absoluteTolerance / 3.0 := by decide +kernel
  have hhigh : (absoluteTolerance / 3.0 : Float) < 1.0 := by decide +kernel
  obtain ⟨hr, h1, h2⟩ := value_between hf value_one.1 hlow hhigh
  rw [hv] at h1
  rw [value_one.2] at h2
  exact ⟨hr, lt_trans (by norm_num) h1, h2⟩

/-! ## The bracket -/

/-- The best point lies strictly between the ends of the bracket, which lies in the sector. -/
structure Bracketed (a b x : Float) : Prop where
  finite_a : IsFinite a
  finite_x : IsFinite x
  finite_b : IsFinite b
  nonneg : 0 ≤ value a
  a_lt : value a < value x
  lt_b : value x < value b
  le_sixty : value b ≤ 60

variable {s : State Float} {step : Float} (h : Bracketed s.a s.b s.best.x)

include h

theorem slack_bounds : IsFinite (slack s) ∧ 8 / 10 ^ 7 < value (slack s) ∧ value (slack s) < 62 := by
  obtain ⟨-, hx, -, ha, hax, hxb, hb⟩ := h
  obtain ⟨hr, hr0, hr1⟩ := share_bounds
  obtain ⟨hc, hc0, hc1⟩ := rest_bounds
  obtain ⟨hxa, hva⟩ := value_abs hx
  rw [abs_of_nonneg (by linarith)] at hva
  have hslack : slack s = Scalar.sqrt Arith.epsilon * s.best.x.abs + absoluteTolerance / 3.0 := rfl
  have hlow : 0 ≤ value (Scalar.sqrt Arith.epsilon) * value s.best.x.abs := mul_nonneg hr0.le (by linarith)
  have hhigh : value (Scalar.sqrt Arith.epsilon) * value s.best.x.abs ≤ 60 := by
    calc value (Scalar.sqrt Arith.epsilon) * value s.best.x.abs ≤ 1 * value s.best.x.abs :=
          mul_le_mul_of_nonneg_right hr1.le (by linarith)
      _ ≤ 60 := by linarith
  obtain ⟨hm, hm0, hm1⟩ := near_mul hr hxa (by linarith) (by linarith)
  obtain ⟨hs, hs0, hs1⟩ := near_add hm hc (by linarith) (by linarith)
  rw [hslack]
  exact ⟨hs, by linarith, by linarith⟩

theorem middle_near : IsFinite (middle s) ∧ (value s.a + value s.b) / 2 - 2 / 10 ^ 13 ≤ value (middle s) ∧
    value (middle s) ≤ (value s.a + value s.b) / 2 + 2 / 10 ^ 13 := by
  obtain ⟨hfa, -, hfb, ha, hax, hxb, hb⟩ := h
  obtain ⟨hhalf, hv⟩ := value_half
  have hmiddle : middle s = 0.5 * (s.a + s.b) := rfl
  obtain ⟨hsum, hs0, hs1⟩ := near_add hfa hfb (by linarith) (by linarith)
  obtain ⟨hm, hm0, hm1⟩ := near_mul hhalf hsum (by rw [hv]; linarith) (by rw [hv]; linarith)
  rw [hv] at hm0 hm1
  rw [hmiddle]
  exact ⟨hm, by linarith, by linarith⟩

/-- One part of a wide bracket is longer than twice the tolerance, but for the rounding. -/
theorem wide_room (hw : wide s = true) : 2 * value (slack s) - 2 / 10 ^ 12 < value s.best.x - value s.a ∨
    2 * value (slack s) - 2 / 10 ^ 12 < value s.b - value s.best.x := by
  obtain ⟨hs, hs0, hs1⟩ := slack_bounds h
  obtain ⟨hm, hm0, hm1⟩ := middle_near h
  obtain ⟨hfa, hfx, hfb, ha, hax, hxb, hb⟩ := h
  obtain ⟨htwo, hv2⟩ := value_two
  obtain ⟨hhalf, hvh⟩ := value_half
  have hwide : 2.0 * slack s - 0.5 * (s.b - s.a) < (s.best.x - middle s).abs := of_decide_eq_true hw
  obtain ⟨hd, hd0, hd1⟩ := near_mul htwo hs (by rw [hv2]; linarith) (by rw [hv2]; linarith)
  obtain ⟨hl, hl0, hl1⟩ := near_sub hfb hfa (by linarith) (by linarith)
  obtain ⟨hp, hp0, hp1⟩ := near_mul hhalf hl (by rw [hvh]; linarith) (by rw [hvh]; linarith)
  rw [hv2] at hd0 hd1
  rw [hvh] at hp0 hp1
  obtain ⟨hr, hr0, hr1⟩ := near_sub hd hp (by linarith) (by linarith)
  obtain ⟨ho, ho0, ho1⟩ := near_sub hfx hm (by linarith) (by linarith)
  obtain ⟨hoa, hov⟩ := value_abs ho
  rw [lt_iff_value hr hoa, hov] at hwide
  rcases lt_abs.mp hwide with hright | hleft
  · exact .inl (by linarith)
  · exact .inr (by linarith)

/-- Where the best point is right of the middle, the left part is the longer one, but for the rounding. -/
theorem room_left (hw : wide s = true) (hm : value (middle s) ≤ value s.best.x + 1 / 10 ^ 13) :
    2 * value (slack s) - 3 / 10 ^ 12 < value s.best.x - value s.a := by
  obtain ⟨-, hm0, -⟩ := middle_near h
  rcases wide_room h hw with hroom | hroom
  · linarith
  · linarith

theorem room_right (hw : wide s = true) (hm : value s.best.x ≤ value (middle s) + 1 / 10 ^ 13) :
    2 * value (slack s) - 3 / 10 ^ 12 < value s.b - value s.best.x := by
  obtain ⟨-, -, hm1⟩ := middle_near h
  rcases wide_room h hw with hroom | hroom
  · linarith
  · linarith

omit h in
theorem unit_of_finite {v : Float} (hv : IsFinite v) :
    0 ≤ value v ∧ IsFinite (unit v) ∧ value (unit v) = 1 ∨ value v < 0 ∧ IsFinite (unit v) ∧ value (unit v) = -1 := by
  have hpos : (0.0 : Float) < v ↔ 0 < value v := by rw [lt_iff_value value_zero.1 hv, value_zero.2]
  have hneg : v < (0.0 : Float) ↔ value v < 0 := by rw [lt_iff_value hv value_zero.1, value_zero.2]
  have hunit : unit v = if (0.0 : Float) < v then 1.0 else if v < (0.0 : Float) then -1.0 else 1.0 := rfl
  rw [hunit]
  simp only [hpos, hneg]
  rcases lt_trichotomy (value v) 0 with hlt | heq | hgt
  · rw [if_neg hlt.asymm, if_pos hlt]
    exact .inr ⟨hlt, value_neg_one⟩
  · rw [if_neg heq.not_gt, if_neg heq.not_lt]
    exact .inl ⟨heq.ge, value_one⟩
  · rw [if_pos hgt]
    exact .inl ⟨hgt.le, value_one⟩

omit h in
theorem value_larger {v w : Float} (hv : IsFinite v) (hw : IsFinite w) :
    IsFinite (Arith.larger v w) ∧ value (Arith.larger v w) = max (value v) (value w) := by
  have hlarger : Arith.larger v w = if v ≤ w then w else if v == v then v else w := rfl
  rw [hlarger]
  simp only [le_iff_value hv hw, (beq_iff_key hv.isNumber hv.isNumber).mpr rfl, if_true]
  rcases le_or_gt (value v) (value w) with hle | hlt
  · rw [if_pos hle, max_eq_right hle]
    exact ⟨hw, rfl⟩
  · rw [if_neg (not_le.mpr hlt), max_eq_left hlt.le]
    exact ⟨hv, rfl⟩

/-- The point that a step leads to: no closer than the tolerance, on the side that the step has. -/
theorem nextPoint_near (hstep : IsFinite step) (hlow : -70 ≤ value step) (hhigh : value step ≤ 70) :
    IsFinite (nextPoint s step) ∧
      (0 ≤ value step ∧ value s.best.x + max (value step) (value (slack s)) - 2 / 10 ^ 13 ≤ value (nextPoint s step) ∧
          value (nextPoint s step) ≤ value s.best.x + max (value step) (value (slack s)) + 2 / 10 ^ 13 ∨
        value step < 0 ∧ value s.best.x - max (-value step) (value (slack s)) - 2 / 10 ^ 13 ≤ value (nextPoint s step) ∧
          value (nextPoint s step) ≤ value s.best.x - max (-value step) (value (slack s)) + 2 / 10 ^ 13) := by
  obtain ⟨hs, hs0, hs1⟩ := slack_bounds h
  obtain ⟨-, hfx, -, ha, hax, hxb, hb⟩ := h
  obtain ⟨hfabs, hvabs⟩ := value_abs hstep
  obtain ⟨hl, hlv⟩ := value_larger hfabs hs
  have hnext : nextPoint s step = s.best.x + unit step * Arith.larger step.abs (slack s) := rfl
  rw [hvabs] at hlv
  rw [hnext]
  rcases unit_of_finite hstep with ⟨hsign, hu, huv⟩ | ⟨hsign, hu, huv⟩
  · rw [abs_of_nonneg hsign] at hlv
    have hlong : max (value step) (value (slack s)) ≤ 70 := max_le hhigh (by linarith)
    have hpos : value (slack s) ≤ max (value step) (value (slack s)) := le_max_right _ _
    obtain ⟨hp, hp0, hp1⟩ := near_mul hu hl (by rw [huv]; linarith) (by rw [huv]; linarith)
    rw [huv, one_mul, hlv] at hp0 hp1
    obtain ⟨hn, hn0, hn1⟩ := near_add hfx hp (by linarith) (by linarith)
    exact ⟨hn, .inl ⟨hsign, by linarith, by linarith⟩⟩
  · rw [abs_of_neg hsign] at hlv
    have hlong : max (-value step) (value (slack s)) ≤ 70 := max_le (by linarith) (by linarith)
    have hpos : value (slack s) ≤ max (-value step) (value (slack s)) := le_max_right _ _
    obtain ⟨hp, hp0, hp1⟩ := near_mul hu hl (by rw [huv]; linarith) (by rw [huv]; linarith)
    rw [huv, neg_one_mul, hlv] at hp0 hp1
    obtain ⟨hn, hn0, hn1⟩ := near_add hfx hp (by linarith) (by linarith)
    exact ⟨hn, .inr ⟨hsign, by linarith, by linarith⟩⟩

/-! ## Where a round looks -/

omit h

/-- The step stays inside the bracket, and so does the least step in its direction, whatever the rounding. -/
structure Fits (s : State Float) (step : Float) : Prop where
  finite : IsFinite step
  low : -70 ≤ value step
  high : value step ≤ 70
  right : 0 ≤ value step → value s.best.x + value step + 1 / 10 ^ 12 < value s.b ∧
    value s.best.x + value (slack s) + 1 / 10 ^ 12 < value s.b
  left : value step < 0 → value s.a + 1 / 10 ^ 12 < value s.best.x + value step ∧
    value s.a + 1 / 10 ^ 12 < value s.best.x - value (slack s)

/-- Strictly between the best point and an end. -/
def Inside (a b x y : Float) : Prop := value a < value y ∧ value y < value x ∨ value x < value y ∧ value y < value b

include h

theorem Fits.inside (hf : Fits s step) :
    IsFinite (nextPoint s step) ∧ Inside s.a s.b s.best.x (nextPoint s step) := by
  obtain ⟨-, hs0, -⟩ := slack_bounds h
  obtain ⟨hn, hnear⟩ := nextPoint_near h hf.finite hf.low hf.high
  refine ⟨hn, ?_⟩
  rcases hnear with ⟨hsign, hlow, hhigh⟩ | ⟨hsign, hlow, hhigh⟩
  · obtain ⟨hstep, hleast⟩ := hf.right hsign
    have hmoves : value (slack s) ≤ max (value step) (value (slack s)) := le_max_right _ _
    have hstays : max (value step) (value (slack s)) < value s.b - value s.best.x - 1 / 10 ^ 12 :=
      max_lt (by linarith) (by linarith)
    exact .inr ⟨by linarith, by linarith⟩
  · obtain ⟨hstep, hleast⟩ := hf.left hsign
    have hmoves : value (slack s) ≤ max (-value step) (value (slack s)) := le_max_right _ _
    have hstays : max (-value step) (value (slack s)) < value s.best.x - value s.a - 1 / 10 ^ 12 :=
      max_lt (by linarith) (by linarith)
    exact .inl ⟨by linarith, by linarith⟩

theorem fits_golden (hw : wide s = true) : Fits s (goldenStep s).1 := by
  obtain ⟨-, hs0, -⟩ := slack_bounds h
  obtain ⟨hm, -, -⟩ := middle_near h
  obtain ⟨hg, hg0, hg1⟩ := golden_bounds
  have hgolden : (goldenStep s).1 = golden * if middle s ≤ s.best.x then s.a - s.best.x else s.b - s.best.x := rfl
  rw [hgolden]
  by_cases hside : middle s ≤ s.best.x
  · have hroom := room_left h hw (by linarith [(le_iff_value hm h.finite_x).mp hside])
    obtain ⟨hfa, hfx, -, ha, hax, hxb, hb⟩ := h
    obtain ⟨hp, hp0, hp1⟩ := near_sub hfa hfx (by linarith) (by linarith)
    have hlong : 1 / 2 * value (s.a - s.best.x) ≤ value golden * value (s.a - s.best.x) :=
      mul_le_mul_of_nonpos_right hg1.le (by linarith)
    have hshort : value golden * value (s.a - s.best.x) ≤ 3 / 8 * value (s.a - s.best.x) :=
      mul_le_mul_of_nonpos_right hg0.le (by linarith)
    obtain ⟨ht, ht0, ht1⟩ := near_mul hg hp (by linarith) (by linarith)
    rw [if_pos hside]
    exact ⟨ht, by linarith, by linarith, fun hsign => by linarith, fun _ => ⟨by linarith, by linarith⟩⟩
  · have hright : value s.best.x ≤ value (middle s) := by
      rw [le_iff_value hm h.finite_x] at hside
      exact (not_le.mp hside).le
    have hroom := room_right h hw (by linarith)
    obtain ⟨-, hfx, hfb, ha, hax, hxb, hb⟩ := h
    obtain ⟨hp, hp0, hp1⟩ := near_sub hfb hfx (by linarith) (by linarith)
    have hlong : value golden * value (s.b - s.best.x) ≤ 1 / 2 * value (s.b - s.best.x) :=
      mul_le_mul_of_nonneg_right hg1.le (by linarith)
    have hshort : 3 / 8 * value (s.b - s.best.x) ≤ value golden * value (s.b - s.best.x) :=
      mul_le_mul_of_nonneg_right hg0.le (by linarith)
    obtain ⟨ht, ht0, ht1⟩ := near_mul hg hp (by linarith) (by linarith)
    rw [if_neg hside]
    exact ⟨ht, by linarith, by linarith, fun _ => ⟨by linarith, by linarith⟩, fun hsign => by linarith⟩

/-- The least step toward the middle, which is on the longer side. -/
theorem fits_least (hw : wide s = true) : Fits s (slack s * unit (middle s - s.best.x)) := by
  obtain ⟨hs, hs0, hs1⟩ := slack_bounds h
  obtain ⟨hm, hm0, hm1⟩ := middle_near h
  have hroom_left := room_left h hw
  have hroom_right := room_right h hw
  obtain ⟨-, hfx, -, ha, hax, hxb, hb⟩ := h
  obtain ⟨hd, hd0, hd1⟩ := near_sub hm hfx (by linarith) (by linarith)
  rcases unit_of_finite hd with ⟨hsign, hu, huv⟩ | ⟨hsign, hu, huv⟩
  · have hroom := hroom_right (by linarith)
    obtain ⟨ht, ht0, ht1⟩ := near_mul hs hu (by rw [huv]; linarith) (by rw [huv]; linarith)
    rw [huv, mul_one] at ht0 ht1
    exact ⟨ht, by linarith, by linarith, fun _ => ⟨by linarith, by linarith⟩, fun hneg => by linarith⟩
  · have hroom := hroom_left (by linarith)
    obtain ⟨ht, ht0, ht1⟩ := near_mul hs hu (by rw [huv]; linarith) (by rw [huv]; linarith)
    rw [huv, mul_neg_one] at ht0 ht1
    exact ⟨ht, by linarith, by linarith, fun hpos => by linarith, fun _ => ⟨by linarith, by linarith⟩⟩

omit h in
/-- An accepted parabola's step is a number, whatever the values at its points. -/
theorem parabola_isNumber (ha : accepted s = true) : IsNumber ((fraction s).1 / (fraction s).2) := by
  simp only [accepted, Bool.and_eq_true, decide_eq_true_eq] at ha
  obtain ⟨⟨hshort, hlead⟩, -⟩ := ha
  have hlt : (fraction s).1.abs < (0.5 * (fraction s).2 * s.stepBefore).abs := hshort
  have hq : IsNumber (fraction s).2 := (isNumber_of_mul (isNumber_of_lt hlead).1).1
  have hp := isFinite_of_abs_lt hlt
  refine isNumber_div hp.isNumber hq (.inl hp) fun h0 => ?_
  have hzero : key (0.5 * (fraction s).2 * s.stepBefore) = 0 := key_mul_of_zero (.inl (key_mul_of_zero (.inr h0)))
  obtain ⟨hl, hr⟩ := isNumber_of_lt hlt
  rw [lt_iff_key hl hr, key_abs, key_abs, hzero, abs_zero] at hlt
  exact absurd hlt (not_lt.mpr (abs_nonneg _))

/-- A step that is not cramped keeps twice the tolerance from both ends. -/
theorem fits_of_not_cramped (hn : IsNumber step) (hc : ¬ cramped s step = true) : Fits s step := by
  obtain ⟨hs, hs0, hs1⟩ := slack_bounds h
  obtain ⟨hfa, hfx, hfb, ha, hax, hxb, hb⟩ := h
  obtain ⟨htwo, hv2⟩ := value_two
  obtain ⟨ht, ht0, ht1⟩ := near_mul htwo hs (by rw [hv2]; linarith) (by rw [hv2]; linarith)
  rw [hv2] at ht0 ht1
  simp only [cramped, Bool.or_eq_true, decide_eq_true_eq, not_or] at hc
  have hleft : ¬ s.best.x + step - s.a < 2.0 * slack s := hc.1
  have hright : ¬ s.b - (s.best.x + step) < 2.0 * slack s := hc.2
  have hy : IsNumber (s.best.x + step) := isNumber_add_right hfx hn
  have htpos : (0.0 : Float) < 2.0 * slack s := by
    rw [lt_iff_value value_zero.1 ht, value_zero.2]
    linarith
  -- The point may be infinite, so first its side of either end, by the signs of the differences.
  have hafter : s.a < s.best.x + step := by
    rw [← zero_lt_sub_iff hy hfa]
    exact lt_of_lt_of_not_lt htpos (sub_key hy hfa).1 hleft
  have hbefore : s.best.x + step < s.b := by
    rw [← zero_lt_sub_right_iff hfb hy]
    exact lt_of_lt_of_not_lt htpos (sub_key_right hfb hy).1 hright
  obtain ⟨hfy, hya, hyb⟩ := value_between hfa hfb hafter hbefore
  obtain ⟨hstep, hy0, hy1⟩ := near_of_add hfy (by linarith) (by linarith)
  obtain ⟨hda, hda0, hda1⟩ := near_sub hfy hfa (by linarith) (by linarith)
  obtain ⟨hdb, hdb0, hdb1⟩ := near_sub hfb hfy (by linarith) (by linarith)
  rw [lt_iff_value hda ht, not_lt] at hleft
  rw [lt_iff_value hdb ht, not_lt] at hright
  exact ⟨(isFinite_of_add hfy).2, by linarith, by linarith, fun _ => ⟨by linarith, by linarith⟩,
    fun _ => ⟨by linarith, by linarith⟩⟩

theorem fits_parabolic (hw : wide s = true) (hp : parabolicStep s = some step) : Fits s step := by
  rw [parabolicStep_eq] at hp
  split at hp
  · rename_i ha
    cases hp
    split
    · exact fits_least h hw
    · exact fits_of_not_cramped h (parabola_isNumber ha) ‹_›
  · cases hp

/-- The point asked for lies strictly between the best one and an end of the bracket. -/
theorem next_inside (hw : wide s = true) : IsFinite (next s) ∧ Inside s.a s.b s.best.x (next s) := by
  refine Fits.inside h ?_
  rcases chooseStep_cases s with e | e
  · rw [e]
    exact fits_golden h hw
  · exact fits_parabolic h hw e

/-! ## A run -/

theorem bracketed_advance (hw : wide s = true) (y : Float) :
    Bracketed (advance s y).a (advance s y).b (advance s y).best.x := by
  obtain ⟨hy, hin⟩ := next_inside h hw
  have hmoves := update_moves { s with step := (chooseStep s).1, stepBefore := (chooseStep s).2 } ⟨next s, y⟩
  obtain ⟨hfa, hfx, hfb, ha, hax, hxb, hb⟩ := h
  have hadvance : advance s y = update { s with step := (chooseStep s).1, stepBefore := (chooseStep s).2 } ⟨next s, y⟩ := rfl
  rw [← hadvance] at hmoves
  generalize advance s y = t at hmoves ⊢
  obtain ⟨a, b, best, second, third, step, stepBefore⟩ := t
  cases hmoves with
  | betterRight _ hx =>
    have hx' : value s.best.x ≤ value (next s) := (le_iff_value hfx hy).mp hx
    rcases hin with ⟨-, hr⟩ | ⟨hl, hr⟩
    · exact absurd hx' (not_le.mpr hr)
    · exact ⟨hfx, hy, hfb, ha.trans hax.le, hl, hr, hb⟩
  | betterLeft _ hx =>
    have hx' : value (next s) < value s.best.x := not_le.mp (mt (le_iff_value hfx hy).mpr hx)
    rcases hin with ⟨hl, hr⟩ | ⟨hl, -⟩
    · exact ⟨hfa, hy, hfx, ha, hl, hr, hxb.le.trans hb⟩
    · exact absurd hx' hl.asymm
  | worseLeft _ hx =>
    have hx' : value (next s) < value s.best.x := (lt_iff_value hy hfx).mp hx
    rcases hin with ⟨hl, hr⟩ | ⟨hl, -⟩
    · exact ⟨hy, hfx, hfb, ha.trans hl.le, hr, hxb, hb⟩
    · exact absurd hx' hl.asymm
  | worseRight _ hx =>
    have hx' : value s.best.x ≤ value (next s) := not_lt.mp (mt (lt_iff_value hy hfx).mpr hx)
    rcases hin with ⟨-, hr⟩ | ⟨hl, hr⟩
    · exact absurd hx' (not_le.mpr hr)
    · exact ⟨hfa, hfx, hy, ha, hax, hl, hr.le.trans hb⟩

omit h

variable {ε : Type} {f : Float → Except ε Float} {points : List Float} {x : Float}

/-- The first direction, evaluated. -/
theorem first_inside : (0.0 : Float) < first 0.0 60.0 ∧ first 0.0 60.0 < (60.0 : Float) := by decide +kernel

theorem bracketed_start (y : Float) :
    Bracketed (start 0.0 60.0 y).a (start 0.0 60.0 y).b (start 0.0 60.0 y).best.x := by
  obtain ⟨hf, h0, h60⟩ := value_between value_zero.1 value_sixty.1 first_inside.1 first_inside.2
  exact ⟨value_zero.1, hf, value_sixty.1, value_zero.2.ge, h0, h60, value_sixty.2.le⟩

theorem bracketed_of_runs (h : Runs f 0.0 60.0 points s) : Bracketed s.a s.b s.best.x :=
  runs_induction h (fun y _ => bracketed_start y)
    fun _ _ y hs hw _ => bracketed_advance hs hw y

theorem trace_minimize_inside (hx : x ∈ ((minimize Rating.sector.1 Rating.sector.2).trace f).2) :
    0.0 < x ∧ x < 60.0 := by
  rcases mem_trace_minimize hx with rfl | ⟨points, s, hs, hw, rfl⟩
  · exact first_inside
  · have h := bracketed_of_runs hs
    obtain ⟨hn, hin⟩ := next_inside h hw
    rw [lt_iff_value value_zero.1 hn, lt_iff_value hn value_sixty.1, value_zero.2, value_sixty.2]
    have ha := h.nonneg
    have hax := h.a_lt
    have hxb := h.lt_b
    have hb := h.le_sixty
    rcases hin with ⟨hl, hr⟩ | ⟨hl, hr⟩
    · exact ⟨by linarith, by linarith⟩
    · exact ⟨by linarith, by linarith⟩

end MagneticBearing.Search.Sector
