/-
  MagneticBearing.Proofs.ImaginaryFirst — the quartic of the imaginary part, whichever finder solves it.

  Off the axis its constant term is negative (`imaginaryFirst_r_neg`). That alone keeps the resolvent
  below zero on the whole negative axis (`resolvent_neg`), so the cut of the principal roots, where the
  closed form goes wrong, is never met (`not_onCut`); and it puts a root on either side of zero
  (`Splits.exists_both_sides`).

  - `imaginaryFirst_finders_agree`: unless the closed form reports a degenerate auxiliary root, its
    answers are the roots with multiplicity, a positive and a negative one among them, and an exact
    finder leads to the same real roots and the same seeds, in some order.
-/

import MagneticBearing.Proofs.Candidates
import MagneticBearing.Proofs.ClosedForm
import MagneticBearing.Proofs.Preimages

namespace MagneticBearing

namespace Quartic

open Polynomial

variable {c : Quartic ℝ} {zs : List (Cx ℝ)}

/-! ## Roots in a list -/

theorem poly_eval_real (c : Quartic ℝ) (y : ℝ) : c.poly.eval (y : ℂ) = (c.eval y : ℂ) := by
  rw [ForceLaw.eval_eq]
  simp [poly]

theorem poly_ne_zero (c : Quartic ℝ) : c.poly ≠ 0 := by
  intro h
  have h4 := congrArg (fun f => f.coeff 4) h
  simp [poly] at h4

/-- A list that splits the quartic holds each real root. -/
theorem Splits.real_mem (h : Splits c zs) {y : ℝ} (hy : c.eval y = 0) : (⟨y, 0⟩ : Cx ℝ) ∈ zs := by
  have hroot : (y : ℂ) ∈ c.poly.roots := by
    rw [mem_roots c.poly_ne_zero, IsRoot.def, poly_eval_real, hy, Complex.ofReal_zero]
  rw [h.roots_eq, Multiset.mem_coe, List.mem_map] at hroot
  obtain ⟨z, hz, he⟩ := hroot
  have e : z = ⟨y, 0⟩ := Cx.toComplex_inj.mp he
  rwa [← e]

theorem realRoots_mem {find : RootFinder ℝ} {xs : List ℝ} (hf : find c = .ok zs) (hx : realRoots find c = .ok xs)
    {y : ℝ} (hy : (⟨y, 0⟩ : Cx ℝ) ∈ zs) : y ∈ xs := by
  unfold realRoots at hx
  rw [hf] at hx
  cases hx
  exact List.mem_filterMap.mpr ⟨_, hy, realPart?_of_real rfl⟩

/-! ## A negative constant term -/

/-- The roots have a negative product, so they lie on both sides of zero. -/
theorem Splits.exists_both_sides (h : Splits c zs) (hr : c.r < 0) :
    (∃ y, 0 < y ∧ (⟨y, 0⟩ : Cx ℝ) ∈ zs) ∧ ∃ y, y < 0 ∧ (⟨y, 0⟩ : Cx ℝ) ∈ zs := by
  constructor
  · obtain ⟨y, hy, hroot⟩ := ForceLaw.exists_pos_root c.p c.q hr
    exact ⟨y, hy, h.real_mem (by rw [ForceLaw.eval_eq]; exact hroot)⟩
  · -- A positive root of the mirror quartic is the opposite of a negative one.
    obtain ⟨y, hy, hroot⟩ := ForceLaw.exists_pos_root c.p (-c.q) hr
    refine ⟨-y, neg_lt_zero.mpr hy, h.real_mem ?_⟩
    rw [ForceLaw.eval_eq]
    linear_combination hroot

theorem resolvent_real (c : Quartic ℝ) (x : ℝ) :
    resolvent c x = ((2 * x * (2 * x + c.p) ^ 2 - 8 * c.r * x - c.q ^ 2 : ℝ) : ℂ) := by
  unfold resolvent
  push_cast
  ring

/-- Left of zero every term of the resolvent is negative. -/
theorem resolvent_neg (hr : c.r < 0) {x : ℝ} (hx : x < 0) :
    2 * x * (2 * x + c.p) ^ 2 - 8 * c.r * x - c.q ^ 2 < 0 := by
  have h1 : 2 * x * (2 * x + c.p) ^ 2 ≤ 0 := mul_nonpos_of_nonpos_of_nonneg (by linarith) (sq_nonneg _)
  have h2 : 0 < c.r * x := mul_pos_of_neg_of_neg hr hx
  have h3 : 0 ≤ c.q ^ 2 := sq_nonneg _
  linarith

theorem not_onCut (hr : c.r < 0) {m : Cx ℝ} (h : resolvent c m.toComplex = 0) : ¬ m.OnCut := by
  rintro ⟨hre, him⟩
  have e : m.toComplex = (m.re : ℂ) := Complex.ext rfl him
  rw [e, resolvent_real, Complex.ofReal_eq_zero] at h
  exact (resolvent_neg hr hre).ne h

/-- The closed form misses no real root of a quartic with a negative constant term. -/
theorem closedForm_realRoots (hr : c.r < 0) (hz : closedForm c = .ok zs) :
    ∃ xs, realRoots closedForm c = .ok xs ∧ ∀ y, c.eval y = 0 → y ∈ xs := by
  obtain ⟨m, hm, rfl⟩ := closedForm_ok hz
  obtain ⟨hres, -, h0⟩ := ClosedForm.auxiliaryRoot_spec hm
  have hs : Splits c (ClosedForm.fromAuxiliary c m) := fromAuxiliary_splits h0 hres (not_onCut hr hres)
  obtain ⟨xs, hx, -⟩ := hs.realRoots hz
  exact ⟨xs, hx, fun y hy => realRoots_mem hz hx (hs.real_mem hy)⟩

/-! ## Failure -/

theorem ClosedForm.auxiliaryRoots_error {e : DegenerateAuxiliary ℝ} (h : auxiliaryRoots c = .error e) : e = ⟨c⟩ := by
  unfold auxiliaryRoots at h
  simp only at h
  split at h
  · cases h
    rfl
  · cases h

theorem ClosedForm.auxiliaryRoot_error {e : DegenerateAuxiliary ℝ} (h : auxiliaryRoot c = .error e) : e = ⟨c⟩ := by
  cases hms : auxiliaryRoots c with
  | error e' =>
    unfold auxiliaryRoot at h
    rw [hms] at h
    cases h
    exact auxiliaryRoots_error hms
  | ok ms =>
    obtain ⟨m, -, -, hm⟩ := auxiliaryRoot_eq hms
    rw [hm] at h
    split at h
    · cases h
      rfl
    · cases h

theorem closedForm_error {e : DegenerateAuxiliary ℝ} (h : closedForm c = .error e) : e = ⟨c⟩ := by
  cases hm : ClosedForm.auxiliaryRoot c with
  | error e' =>
    unfold closedForm at h
    rw [hm] at h
    cases h
    exact ClosedForm.auxiliaryRoot_error hm
  | ok m =>
    rw [closedForm_isOk hm] at h
    cases h

end Quartic

namespace ForceLaw

open Quartic

section Completions

variable {K : Type} [Scalar K] {law : ForceLaw K} {fy : K} {xs ys : List K}

theorem completions_eq_filterMap (h : ∀ root ∈ xs, ∃ s, law.pair .imaginaryFirst fy root = some s) :
    law.completions .imaginaryFirst fy xs = some (xs.filterMap (law.pair .imaginaryFirst fy)) := by
  induction xs with
  | nil => rfl
  | cons root roots ih =>
    obtain ⟨s, hs⟩ := h root List.mem_cons_self
    rw [completions_of_some hs, ih fun r hr => h r (List.mem_cons_of_mem _ hr), List.filterMap_cons_some hs]
    rfl

/-- The order of the roots matters only for the order of the seeds. -/
theorem completions_perm (hp : xs.Perm ys) :
    Option.Rel List.Perm (law.completions .imaginaryFirst fy xs) (law.completions .imaginaryFirst fy ys) := by
  by_cases h : ∀ root ∈ xs, ∃ s, law.pair .imaginaryFirst fy root = some s
  · rw [completions_eq_filterMap h, completions_eq_filterMap fun root hr => h root (hp.mem_iff.mpr hr)]
    exact .some (hp.filterMap _)
  · have hx : law.completions .imaginaryFirst fy xs = none :=
      Option.eq_none_iff_forall_ne_some.mpr fun _ hs => h (completions_imaginaryFirst hs)
    have hy : law.completions .imaginaryFirst fy ys = none :=
      Option.eq_none_iff_forall_ne_some.mpr fun _ hs =>
        h fun root hr => completions_imaginaryFirst hs root (hp.mem_iff.mp hr)
    rw [hx, hy]
    exact .none

end Completions

variable (law : ForceLaw ℝ)

/-- On the quartic of the imaginary part the closed form is right whenever it answers, and there is a
root on either side of zero; so every exact finder gives the allocator what the closed form gives it. -/
theorem imaginaryFirst_finders_agree (ha : 0 < law.quadratic) {fx fy : ℝ} (hy : fy ≠ 0) {c : Quartic ℝ}
    (hc : law.quartic .imaginaryFirst fx fy = c) :
    c.r < 0 ∧
      (∀ m, ClosedForm.auxiliaryRoot c = .ok m →
        resolvent c m.toComplex = 0 ∧ (∀ x : ℂ, resolvent c x = 0 → ‖x‖ ≤ ‖m.toComplex‖) ∧ ¬ m.OnCut) ∧
      (closedForm c = .error ⟨c⟩ ∨
        ∃ zs xs, closedForm c = .ok zs ∧ Splits c zs ∧
          (∃ y, 0 < y ∧ (⟨y, 0⟩ : Cx ℝ) ∈ zs) ∧ (∃ y, y < 0 ∧ (⟨y, 0⟩ : Cx ℝ) ∈ zs) ∧
          realRoots closedForm c = .ok xs ∧ (∃ y ∈ xs, 0 < y) ∧ (∃ y ∈ xs, y < 0) ∧
          ∀ (find : RootFinder ℝ) (ws : List (Cx ℝ)), find c = .ok ws → Splits c ws →
            ∃ ys, realRoots find c = .ok ys ∧ ys.Perm xs ∧
              Option.Rel List.Perm (law.completions .imaginaryFirst fy ys)
                (law.completions .imaginaryFirst fy xs)) := by
  have hr : c.r < 0 := by
    rw [← hc]
    exact imaginaryFirst_r_neg ha fx hy
  refine ⟨hr, ?_, ?_⟩
  · intro m hm
    obtain ⟨hres, hmax, -⟩ := ClosedForm.auxiliaryRoot_spec hm
    exact ⟨hres, hmax, not_onCut hr hres⟩
  cases hz : closedForm c with
  | error e =>
    rw [closedForm_error hz]
    exact .inl rfl
  | ok zs =>
    obtain ⟨m, hm, rfl⟩ := closedForm_ok hz
    obtain ⟨hres, -, h0⟩ := ClosedForm.auxiliaryRoot_spec hm
    have hs : Splits c (ClosedForm.fromAuxiliary c m) := fromAuxiliary_splits h0 hres (not_onCut hr hres)
    obtain ⟨hpos, hneg⟩ := hs.exists_both_sides hr
    obtain ⟨xs, hx, hparts⟩ := hs.realRoots hz
    refine .inr ⟨_, xs, rfl, hs, hpos, hneg, hx, ?_, ?_, ?_⟩
    · obtain ⟨y, hy0, hmem⟩ := hpos
      exact ⟨y, realRoots_mem hz hx hmem, hy0⟩
    · obtain ⟨y, hy0, hmem⟩ := hneg
      exact ⟨y, realRoots_mem hz hx hmem, hy0⟩
    · intro find ws hf hw
      obtain ⟨ys, hys, hparts'⟩ := hw.realRoots hf
      have hperm : ys.Perm xs := Multiset.coe_eq_coe.mp (hparts'.trans hparts.symm)
      exact ⟨ys, hys, hperm, completions_perm hperm⟩

/-- With the quadratic coefficient 3/2 and the linear one 1, a force of `3/2 + i` leads to `y⁴ + 4 y - 1`; its
resolvent `8 m³ + 8 m - 16` has the root 1. -/
theorem imaginaryFirst_finders_agree_plain : ∃ (zs : List (Cx ℝ)) (xs : List ℝ),
    closedForm (⟨0, 4, -1⟩ : Quartic ℝ) = .ok zs ∧ Splits ⟨0, 4, -1⟩ zs ∧
    realRoots closedForm ⟨0, 4, -1⟩ = .ok xs ∧ (∃ y ∈ xs, 0 < y) ∧ ∃ y ∈ xs, y < 0 := by
  have hc : (⟨3 / 2, 1⟩ : ForceLaw ℝ).quartic .imaginaryFirst (3 / 2) 1 = ⟨0, 4, -1⟩ := by
    simp only [quartic, Exact.decimal, Quartic.mk.injEq]
    norm_num
  obtain ⟨-, -, h⟩ := imaginaryFirst_finders_agree ⟨3 / 2, 1⟩ (by norm_num) one_ne_zero hc
  have hu : 1 ≤ ‖(ClosedForm.radical (ClosedForm.cubicTerms ⟨0, 4, -1⟩).1 (ClosedForm.cubicTerms ⟨0, 4, -1⟩).2).toComplex‖ := by
    rw [ClosedForm.cubicTerms_eq]
    exact ClosedForm.one_le_radical (by norm_num)
  have hx : Quartic.resolvent ⟨0, 4, -1⟩ 1 = 0 := by
    simp only [Quartic.resolvent]
    norm_num
  obtain ⟨m, hm⟩ := ClosedForm.auxiliaryRoot_isOk (hu.trans' (by norm_num)) hx (by norm_num)
  rcases h with h | ⟨zs, xs, hz, hs, -, -, hxs, hpos, hneg, -⟩
  · rw [closedForm_isOk hm] at h
    cases h
  · exact ⟨zs, xs, hz, hs, hxs, hpos, hneg⟩

end ForceLaw

end MagneticBearing
