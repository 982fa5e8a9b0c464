/-
  MagneticBearing.Proofs.UpwardForce — a small force straight up is solved twice.

  Straight up the real part of the force is zero. Then the quartics of the two formulations have one
  discriminant, and it is negative for a force of at most `linear² / (2 quadratic)` (`upward_discriminant_neg`).
  So the closed form answers both, as long as their coefficients do not count as zero (`upward_closedForm`).

  The quartic of the imaginary part has a root between zero and `force / (3 linear)` (`exists_small_root`). The
  closed form finds it, and it cannot be completed once it counts as zero.

  - `upward_solved_twice`: so below `3 · 10⁻¹² · linear` every such force is given up for its real part, which
    has an answer.
-/

import MagneticBearing.Proofs.Directions
import MagneticBearing.Proofs.ImaginaryFirst
import MagneticBearing.Proofs.Merging

namespace MagneticBearing

namespace ForceLaw

open Quartic

variable {law : ForceLaw ℝ} {m : ℝ}

/-! ## The two quartics -/

theorem upward_imaginaryFirst (law : ForceLaw ℝ) (m : ℝ) : law.quartic .imaginaryFirst 0 m =
    ⟨-(27 * law.linear ^ 2 / (4 * law.quadratic ^ 2)), 9 * law.linear * m / law.quadratic ^ 2,
      -(9 * m ^ 2 / (4 * law.quadratic ^ 2))⟩ := by
  simp only [quartic, Exact.decimal, Quartic.mk.injEq]
  refine ⟨?_, ?_, ?_⟩ <;> ring

theorem upward_realFirst (ha : 0 < law.quadratic) (m : ℝ) : law.quartic .realFirst 0 m =
    ⟨-(27 * law.linear ^ 2 / (4 * law.quadratic ^ 2)), 27 * law.linear ^ 3 / (4 * law.quadratic ^ 3),
      -(9 * m ^ 2 / (4 * law.quadratic ^ 2))⟩ := by
  simp only [quartic, Exact.decimal, Quartic.mk.injEq]
  refine ⟨?_, ?_, ?_⟩
  · ring
  · ring
  · field_simp
    ring

/-- The second terms differ in sign only. -/
theorem upward_cubicTerms (ha : 0 < law.quadratic) (form : Formulation) :
    let p := 27 * law.linear ^ 2 / (4 * law.quadratic ^ 2)
    let r := 9 * m ^ 2 / (4 * law.quadratic ^ 2)
    let c := law.quartic form 0 m
    c.p = -p ∧ (ClosedForm.cubicTerms c).1 = -16 * p ^ 2 + 192 * r ∧
      (ClosedForm.cubicTerms c).2 ^ 2 = (128 * p ^ 3 - 4608 * p * r) ^ 2 := by
  intro p r c
  cases form with
  | imaginaryFirst =>
    have hc : c = ⟨-p, 9 * law.linear * m / law.quadratic ^ 2, -r⟩ := upward_imaginaryFirst law m
    rw [hc, ClosedForm.cubicTerms_eq]
    refine ⟨rfl, by ring, ?_⟩
    simp only [p, r]
    field_simp
    ring
  | realFirst =>
    have hc : c = ⟨-p, 27 * law.linear ^ 3 / (4 * law.quadratic ^ 3), -r⟩ := upward_realFirst ha m
    rw [hc, ClosedForm.cubicTerms_eq]
    refine ⟨rfl, by ring, ?_⟩
    simp only [p, r]
    field_simp
    ring

section Small

variable (ha : 0 < law.quadratic) (hm : 0 < m) (hsmall : 2 * law.quadratic * m ≤ law.linear ^ 2)

include ha hm hsmall

/-- For a small force the square of `p` outweighs `r`. -/
theorem upward_r_le : 30 * (9 * m ^ 2 / (4 * law.quadratic ^ 2)) ≤ (27 * law.linear ^ 2 / (4 * law.quadratic ^ 2)) ^ 2 := by
  have hsq : (2 * law.quadratic * m) ^ 2 ≤ (law.linear ^ 2) ^ 2 := pow_le_pow_left₀ (by positivity) hsmall 2
  calc 30 * (9 * m ^ 2 / (4 * law.quadratic ^ 2)) = 270 * (2 * law.quadratic * m) ^ 2 / (4 * law.quadratic ^ 2) ^ 2 := by
        field_simp
        ring
    _ ≤ (27 * law.linear ^ 2) ^ 2 / (4 * law.quadratic ^ 2) ^ 2 := by
        gcongr
        linarith [sq_nonneg (law.linear ^ 2)]
    _ = (27 * law.linear ^ 2 / (4 * law.quadratic ^ 2)) ^ 2 := by rw [div_pow]

theorem upward_discriminant_neg (form : Formulation) :
    ClosedForm.discriminant (ClosedForm.cubicTerms (law.quartic form 0 m)).1
      (ClosedForm.cubicTerms (law.quartic form 0 m)).2 < 0 := by
  obtain ⟨-, h1, h2⟩ := upward_cubicTerms (m := m) ha form
  rw [ClosedForm.discriminant_eq, h1, h2]
  have hle := upward_r_le ha hm hsmall
  have hr : 0 < 9 * m ^ 2 / (4 * law.quadratic ^ 2) := by positivity
  generalize 9 * m ^ 2 / (4 * law.quadratic ^ 2) = r at hle hr ⊢
  generalize 27 * law.linear ^ 2 / (4 * law.quadratic ^ 2) = p at hle ⊢
  have hsplit : 4 * (-16 * p ^ 2 + 192 * r) ^ 3 + (128 * p ^ 3 - 4608 * p * r) ^ 2 =
      -589824 * r * ((p ^ 2) ^ 2 - 24 * (p ^ 2 * r) - 48 * (r * r)) := by ring
  have h24 : p ^ 2 * (30 * r) ≤ p ^ 2 * p ^ 2 := by gcongr
  have h48 : (30 * r) * (30 * r) ≤ p ^ 2 * p ^ 2 := by gcongr
  have hpos : 0 < (p ^ 2) ^ 2 - 24 * (p ^ 2 * r) - 48 * (r * r) := by
    have : 0 < r * r := by positivity
    linarith
  rw [hsplit]
  have := mul_pos hr hpos
  linarith

/-- The closed form answers both quartics. -/
theorem upward_closedForm (hp : 3 / 10 ^ 12 ≤ 27 * law.linear ^ 2 / (4 * law.quadratic ^ 2)) (form : Formulation) :
    ∃ zs, closedForm (law.quartic form 0 m) = .ok zs := by
  obtain ⟨hcp, h1, -⟩ := upward_cubicTerms (m := m) ha form
  have hle := upward_r_le ha hm hsmall
  have hsq : (3 / 10 ^ 12) ^ 2 ≤ (27 * law.linear ^ 2 / (4 * law.quadratic ^ 2)) ^ 2 := by gcongr
  obtain ⟨root, hroot⟩ := ClosedForm.auxiliaryRoot_isOk_of_neg (upward_discriminant_neg ha hm hsmall form)
    (by rw [h1]; linarith) (by rw [hcp, abs_neg, abs_of_nonneg (by positivity)]; exact hp)
  exact ⟨_, closedForm_isOk hroot⟩

end Small

/-- Between zero and a third of the linear solution there is a root. -/
theorem exists_small_root (ha : 0 < law.quadratic) (hb : 0 < law.linear) (hm : 0 < m) :
    ∃ y ∈ Set.Icc 0 (m / (3 * law.linear)), (law.quartic .imaginaryFirst 0 m).eval y = 0 := by
  have hcont : ContinuousOn (law.quartic .imaginaryFirst 0 m).eval (Set.Icc 0 (m / (3 * law.linear))) := by
    have heval : (law.quartic .imaginaryFirst 0 m).eval = fun y => _ := funext (eval_eq _)
    rw [heval]
    fun_prop
  have hlow : (law.quartic .imaginaryFirst 0 m).eval 0 ≤ 0 := by
    rw [eval_eq]
    have := imaginaryFirst_r_neg ha 0 hm.ne'
    linarith
  -- At the end the other terms cancel, and the fourth power is left.
  have hhigh : 0 ≤ (law.quartic .imaginaryFirst 0 m).eval (m / (3 * law.linear)) := by
    have heval : (law.quartic .imaginaryFirst 0 m).eval (m / (3 * law.linear)) = (m / (3 * law.linear)) ^ 4 := by
      rw [eval_eq, upward_imaginaryFirst]
      field_simp
      ring
    rw [heval]
    positivity
  exact intermediate_value_Icc (by positivity) hcont ⟨hlow, hhigh⟩

end ForceLaw

namespace Allocator

open Quartic

variable {magnitude : ℝ}

theorem solveWith_isOk {a : Allocator ℝ} {form : Formulation} {target : Cx ℝ} {zs : List (Cx ℝ)}
    (h : a.find (a.bearing.law.quartic form target.re target.im) = .ok zs) : ∃ found, a.solveWith form target = .ok found := by
  simp only [solveWith, realRoots, h]
  exact ⟨_, rfl⟩

/-- A force straight up whose small root counts as zero is given up for its real part, and answered there. -/
theorem upward_solved_twice (bearing : Bearing ℝ) (ha : 0 < bearing.law.quadratic) (hb : 0 < bearing.law.linear)
    (hm : 0 < magnitude) (hsmall : 2 * bearing.law.quadratic * magnitude ≤ bearing.law.linear ^ 2)
    (hp : 3 / 10 ^ 12 ≤ 27 * bearing.law.linear ^ 2 / (4 * bearing.law.quadratic ^ 2))
    (hzero : magnitude < 3 / 10 ^ 12 * bearing.law.linear) :
    (Allocator.mk bearing closedForm).singular 90 magnitude = true ∧
      ∃ vectors, (Allocator.mk bearing closedForm).solve 90 magnitude = .ok ⟨.realFirst, vectors⟩ := by
  have hreq : checkRequest 90 magnitude = .ok () := by rw [checkRequest_eq, if_pos hm.le]
  have hne : (magnitude == 0.0) = false := Bool.eq_false_iff.mpr (mt (Exact.beq_zero_iff magnitude).mp hm.ne')
  have hnone : (Allocator.mk bearing closedForm).solveWith .imaginaryFirst (target 90 magnitude) = .ok none := by
    rw [target_upward]
    obtain ⟨zs, hz⟩ := ForceLaw.upward_closedForm ha hm hsmall hp .imaginaryFirst
    obtain ⟨xs, hxs, hall⟩ := closedForm_realRoots (ForceLaw.imaginaryFirst_r_neg ha 0 hm.ne') hz
    obtain ⟨y, ⟨hy0, hy1⟩, hroot⟩ := ForceLaw.exists_small_root ha hb hm
    have hguarded : bearing.law.Guarded .imaginaryFirst y := by
      show |y| < zeroTolerance
      rw [zeroTolerance_eq, abs_of_nonneg hy0]
      refine hy1.trans_lt ((div_lt_iff₀ (by positivity)).mpr ?_)
      linarith
    exact solveWith_imaginaryFirst_none _ hxs (hall y hroot) (ForceLaw.pair_of_guarded magnitude hguarded)
  refine ⟨(singular_iff _).mpr ⟨hreq, hne, Formulation.forDirection_upward, hnone⟩, ?_⟩
  rcases solve_of_none _ hreq hne (by rw [Formulation.forDirection_upward]; exact hnone) with
    ⟨vectors, -, hsolve⟩ | ⟨e, herror, -⟩
  · exact ⟨vectors, hsolve⟩
  · obtain ⟨zs, hz⟩ := ForceLaw.upward_closedForm ha hm hsmall hp .realFirst
    have hanswer : ∃ found, (Allocator.mk bearing closedForm).solveWith .realFirst ⟨0, magnitude⟩ = .ok found :=
      solveWith_isOk hz
    obtain ⟨found, hfound⟩ := hanswer
    rw [target_upward, hfound] at herror
    cases herror

end Allocator

end MagneticBearing
