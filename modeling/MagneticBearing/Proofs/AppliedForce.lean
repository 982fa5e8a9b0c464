/-
  MagneticBearing.Proofs.AppliedForce — a force is one command or none, and what the command says of the currents.

  The allocation comes before anything is sent. Where it fails, the port is left as it was, and the only notice
  is the allocator's own, that it solves for the real part first (`warnings`). Otherwise one command follows,
  whatever the port does to it. It carries the first two currents in whole millionths, cut toward zero; the third
  follows from their sum, and so takes the error of both.

  - `micro_inMillionths`: a current that fits into 64 bits keeps its sign and loses less than a millionth.
  - `force_applied`: what is sent, what is answered, and how near the three phases are to the currents.
  - `a_refused_force_warns`: a force that cannot be allocated, and a notice all the same.
-/

import MagneticBearing.Bearing.Description
import MagneticBearing.Proofs.AnyPort
import MagneticBearing.Proofs.Fold
import MagneticBearing.Proofs.Transmission
import MagneticBearing.Proofs.UpwardForce

namespace MagneticBearing.Bench.Drive

section Notices

variable {K : Type}

/-- The session after these notices. -/
def told (s : Session K) (notices : List (Notice K)) : Session K := { s with log := s.log ++ notices }

variable [Scalar K] {a : Allocator K} {direction magnitude : K} {s : Session K}

/-- What the allocator warns of. -/
def warnings (a : Allocator K) (direction magnitude : K) : List (Notice K) :=
  if a.singular direction magnitude then [.singularAxis direction] else []

/-- The first two currents in whole millionths. -/
def currentsText (i : Poles K) : String :=
  "cramb set_currents " ++ toString (micro i.p1) ++ " " ++ toString (micro i.p2)

/-- The warning comes first, if at all. -/
theorem warned_first {α : Type} (x : BenchM K α) :
    (do
      if a.singular direction magnitude then BenchM.notify (.singularAxis direction)
      x) s = x (told s (warnings a direction magnitude)) := by
  unfold warnings
  split
  · rfl
  · rw [told, List.append_nil]

theorem applyForce_refused {e : AllocationError K} (h : a.controlCurrents direction magnitude .amps true = .error e) :
    applyForce a direction magnitude s = (.error (.allocation e), told s (warnings a direction magnitude)) := by
  unfold applyForce
  rw [h]
  exact warned_first _

theorem setCurrents_eq (i : Poles K) :
    setCurrents i.p1 i.p2 = (Link.command (currentsText i) : BenchM K (List String)) := by
  unfold setCurrents issue currentsText
  rw [order_setCurrents]

theorem applyForce_allocated {i : Poles K} (h : a.controlCurrents direction magnitude .amps true = .ok i) :
    let before := told s (warnings a direction magnitude ++ [.forceApplied direction magnitude i])
    let answered := (Link.command (currentsText i) : BenchM K (List String)) before
    applyForce a direction magnitude s = (answered.1.map fun _ => i, answered.2) := by
  intro before answered
  have hfirst : applyForce a direction magnitude s =
      (do
        BenchM.notify (.forceApplied direction magnitude i)
        let _ ← Link.command (currentsText i)
        return i : BenchM K (Poles K)) (told s (warnings a direction magnitude)) := by
    unfold applyForce
    rw [h, ← setCurrents_eq]
    exact warned_first _
  have hnotified : BenchM.notify (.forceApplied direction magnitude i) (told s (warnings a direction magnitude)) =
      (.ok (), before) := by
    simp only [before, told, ← List.append_assoc]
    rfl
  rw [hfirst, BenchM.bind_apply, hnotified]
  simp only [BenchM.bind_apply]
  rcases hrun : (Link.command (currentsText i) : BenchM K (List String)) before with ⟨e | lines, t⟩
  · simp only [answered, hrun]
    rfl
  · simp only [answered, hrun]
    rfl

end Notices

/-! ## Whole millionths -/

/-- `m` counts the millionths of `x`: less than one is missing, and none has the wrong sign. -/
structure InMillionths (x : ℝ) (m : Int) : Prop where
  near : |(m : ℝ) - 10 ^ 6 * x| < 1
  nonneg : 0 ≤ x → 0 ≤ m
  nonpos : x ≤ 0 → m ≤ 0

theorem cut_near (x : ℝ) : |(Exact.cut x : ℝ) - x| < 1 := by
  rcases le_or_gt 0 x with hx | hx
  · rw [Direction.cut_of_nonneg hx, abs_sub_comm, Int.self_sub_floor, abs_of_nonneg (Int.fract_nonneg x)]
    exact Int.fract_lt_one x
  · have hle := Int.le_ceil x
    have hlt := Int.ceil_lt_add_one x
    rw [Direction.cut_of_neg hx, abs_of_nonneg (by linarith)]
    linarith

theorem cut_nonneg {x : ℝ} (h : 0 ≤ x) : 0 ≤ Exact.cut x := by
  rw [Direction.cut_of_nonneg h]
  exact Int.floor_nonneg.mpr h

theorem cut_nonpos {x : ℝ} (h : x ≤ 0) : Exact.cut x ≤ 0 := by
  rcases h.lt_or_eq with h | rfl
  · rw [Direction.cut_of_neg h]
    exact Int.ceil_le.mpr (by exact_mod_cast h.le)
  · rw [Direction.cut_of_nonneg (le_refl 0), Int.floor_zero]

/-- What is cut stays in 64 bits if it was in them. -/
theorem toWhole_of_lt {x : ℝ} (h : |x| < 2 ^ 63) : Scalar.toWhole x = Exact.cut x := by
  obtain ⟨hlow, hhigh⟩ := abs_lt.mp h
  have hcut : -9223372036854775808 ≤ Exact.cut x ∧ Exact.cut x ≤ 9223372036854775807 := by
    rcases le_or_gt 0 x with hx | hx
    · have hpos := cut_nonneg hx
      have hlt : Exact.cut x < 9223372036854775808 := by
        rw [Direction.cut_of_nonneg hx, Int.floor_lt]
        norm_num at hhigh ⊢
        exact hhigh
      omega
    · have hneg := cut_nonpos hx.le
      have hlt : -9223372036854775808 ≤ Exact.cut x := by
        rw [Direction.cut_of_neg hx]
        have hle : (-9223372036854775808 : ℝ) ≤ ⌈x⌉ := by
          norm_num at hlow
          exact hlow.le.trans (Int.le_ceil x)
        exact_mod_cast hle
      omega
  show max (-9223372036854775808) (min 9223372036854775807 (Exact.cut x)) = Exact.cut x
  omega

theorem micro_inMillionths {x : ℝ} (h : |10 ^ 6 * x| < 2 ^ 63) : InMillionths x (micro x) := by
  have hmicro : micro x = Exact.cut (10 ^ 6 * x) := by
    rw [← toWhole_of_lt h, mul_comm, micro]
    congr 2
    norm_num
  rw [hmicro]
  refine ⟨cut_near _, fun hx => cut_nonneg (by positivity), fun hx => cut_nonpos ?_⟩
  exact mul_nonpos_of_nonneg_of_nonpos (by positivity) hx

/-- The third phase is what makes the sum zero, so it is as far off as the other two together. -/
theorem third_phase {i : Poles ℝ} {m n : Int} (hsum : i.p1 + i.p2 + i.p3 = 0) (hm : InMillionths i.p1 m)
    (hn : InMillionths i.p2 n) : |((-(m + n) : Int) : ℝ) - 10 ^ 6 * i.p3| < 2 := by
  have hsplit : ((-(m + n) : Int) : ℝ) - 10 ^ 6 * i.p3 = -((m - 10 ^ 6 * i.p1) + (n - 10 ^ 6 * i.p2)) := by
    have hthird : i.p3 = -(i.p1 + i.p2) := by linarith
    rw [hthird]
    push_cast
    ring
  calc |((-(m + n) : Int) : ℝ) - 10 ^ 6 * i.p3| = |(m - 10 ^ 6 * i.p1) + (n - 10 ^ 6 * i.p2)| := by rw [hsplit, abs_neg]
    _ ≤ |(m : ℝ) - 10 ^ 6 * i.p1| + |(n : ℝ) - 10 ^ 6 * i.p2| := abs_add_le _ _
    _ < 2 := by linarith [hm.near, hn.near]

theorem controlCurrents_sum {a : Allocator ℝ} {direction magnitude : ℝ} {check : Bool} {i : Poles ℝ}
    (h : a.controlCurrents direction magnitude .amps check = .ok i) : i.p1 + i.p2 + i.p3 = 0 := by
  obtain ⟨sols, -, hleast⟩ := Allocator.controlCurrents_ok h
  obtain ⟨v, -, -, rfl⟩ := Allocator.mem_offered.mp hleast.mem
  exact Allocator.currents_sum v _

/-! ## Forces -/

open Link in
/-- A force that cannot be allocated leaves the port alone, and the only notice is the allocator's warning. Any other
is one command, whatever fails on the port, and is answered with its currents. Over the reals the command has the
first two of them in whole millionths, and the third phase is within two of them. -/
theorem force_applied {K : Type} [Scalar K] (a : Allocator K) (direction magnitude : K) (s : Session K) :
    let r := (applyForce a direction magnitude : BenchM K (Poles K)) s
    (a.singular direction magnitude = true ↔
      checkRequest direction magnitude = .ok () ∧ (magnitude == 0.0) = false ∧
        Formulation.forDirection direction = .imaginaryFirst ∧
        a.solveWith .imaginaryFirst (Allocator.target direction magnitude) = .ok none) ∧
    (∀ e, a.controlCurrents direction magnitude .amps true = .error e →
      r = (.error (.allocation e), told s (warnings a direction magnitude))) ∧
    (∀ i, a.controlCurrents direction magnitude .amps true = .ok i →
      let before := told s (warnings a direction magnitude ++ [.forceApplied direction magnitude i])
      let answered := (command (currentsText i) : BenchM K (List String)) before
      let sent := exchange s.settings.allowedEmptyReads (currentsText i)
      r = (answered.1.map fun _ => i, answered.2) ∧
        ∃ did, s.Did r.2 did ∧ Done sent did ∧ (r.1.isOk = true → r.1 = .ok i ∧ did = sent)) ∧
    ∀ (b : Allocator ℝ) (direction magnitude : ℝ) (i : Poles ℝ),
      b.controlCurrents direction magnitude .amps true = .ok i → |10 ^ 6 * i.p1| < 2 ^ 63 → |10 ^ 6 * i.p2| < 2 ^ 63 →
        InMillionths i.p1 (micro i.p1) ∧ InMillionths i.p2 (micro i.p2) ∧
          |((-(micro i.p1 + micro i.p2) : Int) : ℝ) - 10 ^ 6 * i.p3| < 2 := by
  intro r
  refine ⟨a.singular_iff, fun e he => applyForce_refused he, fun i hi => ?_, fun b direction magnitude i hi h1 h2 => ?_⟩
  · intro before answered sent
    have hrun : r = (answered.1.map fun _ => i, answered.2) := applyForce_allocated hi
    obtain ⟨did, hdid, hdone, hall⟩ := attempts_command (currentsText i) before
    refine ⟨hrun, did, ?_, hdone, fun hok => ?_⟩
    · rw [hrun]
      exact ⟨hdid.settings, hdid.history, hdid.unread⟩
    · rw [hrun] at hok ⊢
      cases hans : answered.1 with
      | error e =>
        rw [hans] at hok
        cases hok
      | ok lines => exact ⟨rfl, hall (congrArg Except.isOk hans)⟩
  · have hm := micro_inMillionths h1
    have hn := micro_inMillionths h2
    exact ⟨hm, hn, third_phase (controlCurrents_sum hi) hm hn⟩

/-- A force of 8 along the axis takes less than two amperes in each of the first two phases. -/
theorem alongAxis_allocated :
    ∃ i, Allocator.alongAxis.controlCurrents 0 8 .amps true = .ok i ∧ |i.p1| ≤ 2 ∧ |i.p2| ≤ 2 := by
  obtain ⟨sols, hsols, k, hk, hnorm⟩ := Allocator.alongAxis_solve
  obtain ⟨⟨i, hi⟩, -⟩ | ⟨-, hall⟩ := Allocator.controlCurrents_cases hsols true
  · obtain ⟨sols', hsols', hleast⟩ := Allocator.controlCurrents_ok hi
    obtain rfl : sols = sols' := Except.ok.inj (hsols.symm.trans hsols')
    obtain ⟨v, -, -, rfl⟩ := Allocator.mem_offered.mp hleast.mem
    have hunsaturated : Allocator.alongAxis.Eligible true k := fun _ => rfl
    have hle := hleast.le _ (Allocator.mem_offered.mpr ⟨k, hk, hunsaturated, rfl⟩)
    have hv : v.norm ≤ 12 / 5 := ((Allocator.currents_norm_le_iff v k one_pos).mp hle).trans hnorm
    rw [Cx.norm_eq] at hv
    obtain ⟨h1, h2, -⟩ := SpaceVector.abs_toPoles_le v
    have hone (x : ℝ) : x * Allocator.alongAxis.bearing.ampsPerUnit = x := mul_one x
    refine ⟨_, hi, ?_, ?_⟩
    · show |v.toPoles.p1 * Allocator.alongAxis.bearing.ampsPerUnit| ≤ 2
      rw [hone]
      linarith
    · show |v.toPoles.p2 * Allocator.alongAxis.bearing.ampsPerUnit| ≤ 2
      rw [hone]
      linarith
  · obtain ⟨-, hsaturated⟩ := hall k hk
    cases hsaturated

/-- It is sent whole over a port on which nothing fails. -/
theorem force_applied_along_axis :
    let s : Session ℝ := ⟨.ofScript [], .standard, []⟩
    let r := (applyForce Allocator.alongAxis 0 8 : BenchM ℝ (Poles ℝ)) s
    ∃ i, Allocator.alongAxis.controlCurrents 0 8 .amps true = .ok i ∧
      s.Did r.2 (Link.exchange 10 (currentsText i)) ∧ r.1 = .ok i ∧
      InMillionths i.p1 (micro i.p1) ∧ InMillionths i.p2 (micro i.p2) ∧
      |((-(micro i.p1 + micro i.p2) : Int) : ℝ) - 10 ^ 6 * i.p3| < 2 := by
  intro s r
  obtain ⟨i, hi, h1, h2⟩ := alongAxis_allocated
  have hbound (x : ℝ) (hx : |x| ≤ 2) : |10 ^ 6 * x| < 2 ^ 63 := by
    rw [abs_mul, abs_of_pos (by positivity)]
    linarith
  obtain ⟨-, -, hallocated, hphases⟩ := force_applied Allocator.alongAxis 0 8 s
  obtain ⟨hrun, did, hdid, -, hall⟩ := hallocated i hi
  have hok : r.1.isOk = true := by
    have hcalm : s.Calm := ⟨Port.ofScript_sound [], fun e he => by cases he⟩
    refine (transmits_applyForce Allocator.alongAxis 0 8 s hcalm).2.2.trans ?_
    rw [hi]
    rfl
  obtain ⟨hr, rfl⟩ := hall hok
  exact ⟨i, hi, hdid, hr, hphases Allocator.alongAxis 0 8 i hi (hbound _ h1) (hbound _ h2)⟩

/-! ## A notice in spite of a refusal -/

/-- A bearing that sustains a millionth of a tesla, of which the bias leaves one ten millionth. -/
noncomputable def crampedGeometry : Geometry ℝ :=
  { Geometry.prototype with saturationField := 1e-6, biasFraction := 0.9999999 }

noncomputable def cramped : Description ℝ := .physical crampedGeometry (some (1.9999998e-5, 1.0))

theorem crampedGeometry_valid : crampedGeometry.Valid := by
  obtain ⟨-, hgap, hradius, hlength, hturns, -, hspan⟩ := Geometry.prototype_valid
  refine ⟨?_, hgap, hradius, hlength, hturns, ?_, hspan⟩
  · show (0 : ℝ) < 1e-6
    norm_num
  · show (0 : ℝ) < 0.9999999 ∧ (0.9999999 : ℝ) < 1
    norm_num

theorem cramped_built : ∃ b : Physical ℝ, cramped.build = .ok (.physical b) ∧ b.Sound ∧
    b.saturationField = 1 / 10 ^ 6 ∧ b.bias = 9999999 / 10 ^ 13 ∧ b.k1 = 100 := by
  have hbias : crampedGeometry.derive.bias = 9999999 / 10 ^ 13 := by
    show 0.9999999 * 1e-6 = (9999999 / 10 ^ 13 : ℝ)
    norm_num
  obtain ⟨b, hb⟩ := crampedGeometry.derive.withFit_isOk (by norm_num : (0 : ℝ) < 1.9999998e-5)
    (by norm_num : (0 : ℝ) < 1.0)
  have hbuilt : cramped.build = .ok (.physical b) := by
    unfold cramped Description.build
    simp only [Physical.build_of_valid crampedGeometry_valid, bind, Except.bind, hb, pure, Except.pure]
  have hsound := Physical.withFit_sound crampedGeometry_valid.sound hb
  obtain ⟨-, -, rfl⟩ := Physical.withFit_ok.mp hb
  refine ⟨_, hbuilt, hsound, ?_, hbias, ?_⟩
  · show (1e-6 : ℝ) = 1 / 10 ^ 6
    norm_num
  · show 1.9999998e-5 * 1.9999998e-5 / (4.0 * crampedGeometry.derive.bias * crampedGeometry.derive.bias * 1.0) =
      (100 : ℝ)
    rw [hbias]
    norm_num

/-- Solved for its imaginary part first, a force straight up has a root that counts as zero there; and no field that
yields it fits into what the bias leaves. So the allocator warns before it refuses. -/
theorem a_refused_force_warns : ∃ b : Physical ℝ, cramped.build = .ok (.physical b) ∧
    let a : Allocator ℝ := ⟨b.bearing.toBearing, Quartic.closedForm⟩
    let s : Session ℝ := ⟨.ofScript [], .standard, []⟩
    let r := (applyForce a 90 (3 / 10 ^ 16) : BenchM ℝ (Poles ℝ)) s
    a.controlCurrents 90 (3 / 10 ^ 16) .amps true = .error (.noFeasibleSolution 90 (3 / 10 ^ 16)) ∧
      r.1 = .error (.allocation (.noFeasibleSolution 90 (3 / 10 ^ 16))) ∧ r.2.log = [.singularAxis 90] ∧
      r.2.log ≠ s.log := by
  obtain ⟨b, hbuilt, hb, hlimit, hbias, hk1⟩ := cramped_built
  refine ⟨b, hbuilt, ?_⟩
  intro a s r
  have hquad : b.bearing.law.quadratic = 100 := hk1
  have hlin : b.bearing.law.linear = 19999998 / 10 ^ 11 := by
    show 2.0 * b.bias * b.k1 = _
    rw [hbias, hk1]
    norm_num
  obtain ⟨hsingular, vectors, hsolve⟩ := Allocator.upward_solved_twice b.bearing.toBearing hb.k1_pos
    hb.linear_pos (by norm_num : (0 : ℝ) < 3 / 10 ^ 16) (by rw [hquad, hlin]; norm_num)
    (by rw [hquad, hlin]; norm_num) (by rw [hlin]; norm_num)
  have hrefused : a.controlCurrents 90 (3 / 10 ^ 16) .amps true = .error (.noFeasibleSolution 90 (3 / 10 ^ 16)) := by
    refine Allocator.controlCurrents_error.mpr (.inr ⟨rfl, _, hsolve, fun v hv heligible => ?_⟩)
    have hsaturated : b.bearing.saturated v.toPoles = true := by
      refine Physical.saturated_of_beyond_headroom hb (Allocator.solve_reproduces hsolve v hv) ?_
      rw [Allocator.norm_target (by norm_num), hquad, hlin, hlimit, hbias]
      norm_num
    exact Bool.false_ne_true ((heligible rfl).symm.trans hsaturated)
  have hr : r = (.error (.allocation (.noFeasibleSolution 90 (3 / 10 ^ 16))), told s [.singularAxis 90]) := by
    have hwarn : warnings a 90 (3 / 10 ^ 16) = [.singularAxis 90] := if_pos hsingular
    rw [← hwarn]
    exact applyForce_refused hrefused
  refine ⟨hrefused, ?_, ?_, ?_⟩
  · rw [hr]
  · rw [hr]
    rfl
  · rw [hr]
    exact List.cons_ne_nil _ _

end MagneticBearing.Bench.Drive
