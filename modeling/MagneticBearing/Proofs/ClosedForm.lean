/-
  MagneticBearing.Proofs.ClosedForm — the quartic that the closed form solves.

  With a root `m` of the resolvent, `y⁴ + p y² + q y + r` is the difference of the squares of
  `y² + p/2 + m` and `√(2m) y - q √(2/m) / 4`, provided that the two roots of `m` have the product
  2 (`ferrari`). They have it unless `m` is negative (`OnCut`): then the product is -2, and what is
  split is the mirror quartic, with `-q` for `q` (`fromAuxiliary_splits`).

  - `closedForm_splits_iff`: the answers are the roots, with multiplicity, unless the resolvent root
    of the largest norm is negative and `q` is not zero. The real roots are then those of every
    root finder that is exact.
  - `closedForm_mirrors`: `y⁴ + 25 y² + 54 y + 28` has the double root -1, and the answer is 1.
-/

import MagneticBearing.Proofs.Resolvent

namespace MagneticBearing.Quartic

open Polynomial

/-- The quartic as a polynomial. -/
noncomputable def poly (c : Quartic ℝ) : ℂ[X] := X ^ 4 + C (c.p : ℂ) * X ^ 2 + C (c.q : ℂ) * X + C (c.r : ℂ)

/-- `zs` are the roots, each as often as it is one. -/
def Splits (c : Quartic ℝ) (zs : List (Cx ℝ)) : Prop := (zs.map fun z => X - C z.toComplex).prod = c.poly

/-- The quartic whose roots are the opposites. -/
def mirror (c : Quartic ℝ) : Quartic ℝ := ⟨c.p, -c.q, c.r⟩

/-- The real parts of the roots that count as real. -/
noncomputable def realParts (c : Quartic ℝ) : Multiset ℝ :=
  (c.poly.roots.filter fun z => |z.im| < imaginaryTolerance).map Complex.re

/-! ## Lists of roots -/

theorem Splits.roots_eq {c : Quartic ℝ} {zs : List (Cx ℝ)} (h : Splits c zs) :
    c.poly.roots = ((zs.map Cx.toComplex : List ℂ) : Multiset ℂ) := by
  have e : (zs.map fun z => X - C z.toComplex).prod =
      (((zs.map Cx.toComplex : List ℂ) : Multiset ℂ).map fun a => X - C a).prod := by
    simp [Multiset.map_coe, Function.comp_def]
  rw [← h, e, roots_multiset_prod_X_sub_C]

theorem realParts_of_roots (zs : List (Cx ℝ)) :
    ((zs.filterMap realPart? : List ℝ) : Multiset ℝ) =
      ((((zs.map Cx.toComplex : List ℂ) : Multiset ℂ)).filter fun z => |z.im| < imaginaryTolerance).map Complex.re := by
  induction zs with
  | nil => rfl
  | cons z zs ih =>
    have hz : realPart? z = if |z.im| < imaginaryTolerance then some z.re else none := rfl
    rw [List.filterMap_cons, hz, List.map_cons, ← Multiset.cons_coe]
    by_cases h : |z.im| < imaginaryTolerance
    · rw [if_pos h, Multiset.filter_cons_of_pos _ (by exact h), Multiset.map_cons, ← ih]
      rfl
    · rw [if_neg h, Multiset.filter_cons_of_neg _ (by exact h), ← ih]

/-- A finder that splits a quartic gives its real parts. -/
theorem Splits.realRoots {c d : Quartic ℝ} {find : RootFinder ℝ} {zs : List (Cx ℝ)} (hf : find c = .ok zs)
    (h : Splits d zs) : ∃ xs, realRoots find c = .ok xs ∧ (xs : Multiset ℝ) = d.realParts := by
  refine ⟨zs.filterMap realPart?, ?_, ?_⟩
  · unfold Quartic.realRoots
    rw [hf]
    rfl
  · rw [realParts, h.roots_eq, realParts_of_roots]

theorem poly_inj {c d : Quartic ℝ} (h : c.poly = d.poly) : c.q = d.q := by
  have h1 := congrArg (fun f => f.coeff 1) h
  simpa [poly, coeff_X, coeff_C] using h1

theorem mirror_splits_iff {c : Quartic ℝ} {zs : List (Cx ℝ)} (h : Splits c.mirror zs) :
    Splits c zs ↔ c.q = 0 := by
  constructor
  · intro hc
    have hq := poly_inj (hc.symm.trans h)
    simp only [mirror] at hq
    linarith
  · intro hq
    have e : c.mirror = c := by
      obtain ⟨p, q, r⟩ := c
      simp only at hq
      subst hq
      simp [mirror]
    rwa [e] at h

/-! ## The two quadratics -/

/-- The product of the four values, for roots `t` of `2 m` and `w` of `2 / m` with `t w = 2 s`. -/
theorem ferrari {p q r m t w s plus minus : ℂ} (hm : m ≠ 0) (ht : t ^ 2 = 2 * m) (hw : w ^ 2 = 2 / m)
    (htw : t * w = 2 * s) (hplus : plus ^ 2 = -(2 * p + 2 * m + q * w)) (hminus : minus ^ 2 = -(2 * p + 2 * m - q * w))
    (hr : 8 * m ^ 3 + 8 * p * m ^ 2 + (2 * p ^ 2 - 8 * r) * m - q ^ 2 = 0) (y : ℂ) :
    (y - (t + plus) / 2) * (y - (t - plus) / 2) * ((y - (-t + minus) / 2) * (y - (-t - minus) / 2)) =
      y ^ 4 + p * y ^ 2 + s * q * y + r := by
  have h1 : (y - (t + plus) / 2) * (y - (t - plus) / 2) = y ^ 2 + p / 2 + m - (t * y - q * w / 4) := by
    linear_combination (1 / 4) * ht - (1 / 4) * hplus
  have h2 : (y - (-t + minus) / 2) * (y - (-t - minus) / 2) = y ^ 2 + p / 2 + m + (t * y - q * w / 4) := by
    linear_combination (1 / 4) * ht - (1 / 4) * hminus
  have hr' : r = (p / 2 + m) ^ 2 - q ^ 2 / (8 * m) := by
    field_simp
    linear_combination -4 * hr
  have hw' : q ^ 2 * w ^ 2 = 2 * q ^ 2 / m := by rw [hw]; ring
  rw [h1, h2, hr']
  linear_combination (-y ^ 2) * ht + (1 / 2) * q * y * htw - (1 / 16) * hw'

/-- What the two quadratics of `m` give is the quartic with `s q` for `q`, where `2 s` is the product
of the roots of `2 m` and `2 / m`. -/
theorem fromAuxiliary_prod {c : Quartic ℝ} {m : Cx ℝ} {s : ℝ} (hm : m.toComplex ≠ 0)
    (hr : resolvent c m.toComplex = 0)
    (hs : (Cx.scale 2 m).sqrt.toComplex * (Cx.under 2 m).sqrt.toComplex = 2 * s) :
    Splits ⟨c.p, s * c.q, c.r⟩ (ClosedForm.fromAuxiliary c m) := by
  have ht : (Cx.scale 2 m).sqrt.toComplex ^ 2 = 2 * m.toComplex := by
    rw [Cx.sqrt_sq, Cx.toComplex_scale, Complex.ofReal_ofNat]
  have hw : (Cx.under 2 m).sqrt.toComplex ^ 2 = 2 / m.toComplex := by
    rw [Cx.sqrt_sq, Cx.toComplex_under, Complex.ofReal_ofNat]
  unfold Splits ClosedForm.fromAuxiliary
  simp only [Exact.two_eq, List.map_cons, List.map_nil, List.prod_cons, List.prod_nil, mul_one, Cx.toComplex_divReal,
    Cx.toComplex_add, Cx.toComplex_sub, Cx.toComplex_neg, Complex.ofReal_ofNat]
  generalize hplus : Cx.toComplex (Cx.sqrt (-(Cx.shift (2 * c.p) (Cx.scale 2 m) + Cx.scale c.q (Cx.under 2 m).sqrt))) = plus
  generalize hminus : Cx.toComplex (Cx.sqrt (-(Cx.shift (2 * c.p) (Cx.scale 2 m) - Cx.scale c.q (Cx.under 2 m).sqrt))) = minus
  have hp : plus ^ 2 = -(2 * c.p + 2 * m.toComplex + c.q * (Cx.under 2 m).sqrt.toComplex) := by
    rw [← hplus, Cx.sqrt_sq]
    simp
  have hq : minus ^ 2 = -(2 * c.p + 2 * m.toComplex - c.q * (Cx.under 2 m).sqrt.toComplex) := by
    rw [← hminus, Cx.sqrt_sq]
    simp
  apply Polynomial.funext
  intro y
  have hf := ferrari (p := c.p) (q := c.q) (r := c.r) hm ht hw hs hp hq hr y
  simp only [poly, eval_mul, eval_sub, eval_add, eval_X, eval_C, eval_pow, Complex.ofReal_mul]
  rw [← hf]
  ring

theorem fromAuxiliary_splits {c : Quartic ℝ} {m : Cx ℝ} (hm : m.toComplex ≠ 0) (hr : resolvent c m.toComplex = 0)
    (h : ¬ m.OnCut) : Splits c (ClosedForm.fromAuxiliary c m) := by
  have e := fromAuxiliary_prod (s := 1) hm hr (by rw [Cx.sqrt_mul_sqrt_under_off hm h]; norm_num)
  rwa [one_mul] at e

theorem fromAuxiliary_mirrors {c : Quartic ℝ} {m : Cx ℝ} (hm : m.toComplex ≠ 0) (hr : resolvent c m.toComplex = 0)
    (h : m.OnCut) : Splits c.mirror (ClosedForm.fromAuxiliary c m) := by
  have e := fromAuxiliary_prod (s := -1) hm hr (by rw [Cx.sqrt_mul_sqrt_under_on hm h]; norm_num)
  rwa [neg_one_mul] at e

theorem closedForm_ok {c : Quartic ℝ} {zs : List (Cx ℝ)} (h : closedForm c = .ok zs) :
    ∃ m, ClosedForm.auxiliaryRoot c = .ok m ∧ zs = ClosedForm.fromAuxiliary c m := by
  unfold closedForm at h
  cases hm : ClosedForm.auxiliaryRoot c with
  | error e => rw [hm] at h; cases h
  | ok m =>
    rw [hm] at h
    cases h
    exact ⟨m, rfl, rfl⟩

theorem closedForm_isOk {c : Quartic ℝ} {m : Cx ℝ} (h : ClosedForm.auxiliaryRoot c = .ok m) :
    closedForm c = .ok (ClosedForm.fromAuxiliary c m) := by
  unfold closedForm
  rw [h]
  rfl

/-! ## What the closed form answers -/

/-- The answers of the closed form are the roots of the quartic unless the resolvent root of the
largest norm is negative and `q` is not zero; then they are those of the mirror quartic. Where they
are the roots, the real ones are the same as of any finder that is exact. -/
theorem closedForm_splits_iff {c : Quartic ℝ} {zs : List (Cx ℝ)} (h : closedForm c = .ok zs) :
    ∃ m, ClosedForm.auxiliaryRoot c = .ok m ∧ resolvent c m.toComplex = 0 ∧
      (∀ x : ℂ, resolvent c x = 0 → ‖x‖ ≤ ‖m.toComplex‖) ∧
      (Splits c zs ↔ ¬ (m.OnCut ∧ c.q ≠ 0)) ∧
      (m.OnCut → Splits c.mirror zs ∧
        ∃ xs, realRoots closedForm c = .ok xs ∧ (xs : Multiset ℝ) = c.mirror.realParts) ∧
      (¬ (m.OnCut ∧ c.q ≠ 0) → ∃ xs, realRoots closedForm c = .ok xs ∧ (xs : Multiset ℝ) = c.realParts ∧
        ∀ (find : RootFinder ℝ) (ws : List (Cx ℝ)), find c = .ok ws → Splits c ws →
          ∃ ys, realRoots find c = .ok ys ∧ ys.Perm xs) := by
  obtain ⟨m, hm, rfl⟩ := closedForm_ok h
  obtain ⟨hr, hmax, h0⟩ := ClosedForm.auxiliaryRoot_spec hm
  have hiff : Splits c (ClosedForm.fromAuxiliary c m) ↔ ¬ (m.OnCut ∧ c.q ≠ 0) := by
    by_cases hc : m.OnCut
    · rw [mirror_splits_iff (fromAuxiliary_mirrors h0 hr hc)]
      simp [hc]
    · simp [hc, fromAuxiliary_splits h0 hr hc]
  refine ⟨m, hm, hr, hmax, hiff, fun hc => ?_, fun hc => ?_⟩
  · have hs := fromAuxiliary_mirrors h0 hr hc
    exact ⟨hs, hs.realRoots h⟩
  · obtain ⟨xs, hxs, hp⟩ := (hiff.mpr hc).realRoots h
    refine ⟨xs, hxs, hp, fun find ws hf hw => ?_⟩
    obtain ⟨ys, hys, hp'⟩ := hw.realRoots hf
    exact ⟨ys, hys, Multiset.coe_eq_coe.mp (hp'.trans hp.symm)⟩

/-- `y⁴ + 2 y` is split: its resolvent `8 m³ - 4` has no negative root. -/
theorem closedForm_splits_plain : ∃ zs, closedForm ⟨0, 2, 0⟩ = .ok zs ∧ Splits ⟨0, 2, 0⟩ zs := by
  have hu : 1 ≤ ‖(ClosedForm.radical (ClosedForm.cubicTerms ⟨0, 2, 0⟩).1 (ClosedForm.cubicTerms ⟨0, 2, 0⟩).2).toComplex‖ := by
    rw [ClosedForm.cubicTerms_eq]
    exact ClosedForm.one_le_radical (by norm_num)
  have hx : resolvent ⟨0, 2, 0⟩ ((Exact.cbrt (1 / 2) : ℝ) : ℂ) = 0 := by
    have e : ((Exact.cbrt (1 / 2) : ℝ) : ℂ) ^ 3 = 1 / 2 := by
      rw [← Complex.ofReal_pow, Exact.cbrt_cube]
      norm_num
    simp only [resolvent, e]
    norm_num
  have hn : 1 / 10 ^ 12 ≤ ‖((Exact.cbrt (1 / 2) : ℝ) : ℂ)‖ := by
    by_contra hlt
    have h3 : ‖((Exact.cbrt (1 / 2) : ℝ) : ℂ)‖ ^ 3 < (1 / 10 ^ 12) ^ 3 :=
      pow_lt_pow_left₀ (not_le.mp hlt) (norm_nonneg _) three_ne_zero
    rw [← norm_pow, ← Complex.ofReal_pow, Exact.cbrt_cube, Complex.norm_real] at h3
    norm_num at h3
  obtain ⟨m, hm⟩ := ClosedForm.auxiliaryRoot_isOk (hu.trans' (by norm_num)) hx hn
  have hz := closedForm_isOk hm
  obtain ⟨m', -, hr, -, hiff, -⟩ := closedForm_splits_iff hz
  refine ⟨_, hz, hiff.mpr fun hc => ?_⟩
  obtain ⟨⟨hre, him⟩, -⟩ := hc
  have e : m'.toComplex = (m'.re : ℂ) := Complex.ext rfl him
  have hr' : 8 * (m'.re : ℂ) ^ 3 - 4 = 0 := by
    rw [← hr, e]
    simp only [resolvent]
    push_cast
    ring
  have h8 : 8 * m'.re ^ 3 - 4 = 0 := by exact_mod_cast hr'
  linarith [Odd.pow_neg (by decide : Odd 3) hre]

/-- Of `y⁴ + 25 y² + 54 y + 28 = (y + 1)² (y² - 2 y + 28)` the closed form answers the roots of the
mirror quartic, 1 twice and -1 ± i √27. -/
theorem closedForm_mirrors : ∃ zs, closedForm ⟨25, 54, 28⟩ = .ok zs ∧ ¬ Splits ⟨25, 54, 28⟩ zs := by
  have hu : 1 ≤ ‖(ClosedForm.radical (ClosedForm.cubicTerms ⟨25, 54, 28⟩).1
      (ClosedForm.cubicTerms ⟨25, 54, 28⟩).2).toComplex‖ := by
    rw [ClosedForm.cubicTerms_eq]
    exact ClosedForm.one_le_radical (by norm_num)
  have hsplit : ∀ x : ℂ, resolvent ⟨25, 54, 28⟩ x = 8 * ((x - 2) * (x + 27 / 2) ^ 2) := by
    intro x
    simp only [resolvent]
    push_cast
    ring
  have hdouble : resolvent ⟨25, 54, 28⟩ (-(27 / 2)) = 0 := by
    rw [hsplit]
    norm_num
  have hsize : ‖(-(27 / 2) : ℂ)‖ = 27 / 2 := by
    rw [norm_neg, norm_div, Complex.norm_ofNat, Complex.norm_ofNat]
  obtain ⟨m, hm⟩ := ClosedForm.auxiliaryRoot_isOk (hu.trans' (by norm_num)) hdouble (by rw [hsize]; norm_num)
  obtain ⟨hr, hmax, h0⟩ := ClosedForm.auxiliaryRoot_spec hm
  have hn := hmax _ hdouble
  rw [hsize] at hn
  have he : m.toComplex = -(27 / 2) := by
    rw [hsplit] at hr
    rcases mul_eq_zero.mp hr with h | h
    · norm_num at h
    rcases mul_eq_zero.mp h with h | h
    · rw [sub_eq_zero.mp h, Complex.norm_ofNat] at hn
      norm_num at hn
    · exact eq_neg_of_add_eq_zero_left (pow_eq_zero_iff two_ne_zero |>.mp h)
  have hcut : m.OnCut := by
    refine ⟨?_, ?_⟩
    · have := congrArg Complex.re he
      norm_num at this
      linarith
    · have := congrArg Complex.im he
      norm_num at this
      exact this
  refine ⟨_, closedForm_isOk hm, ?_⟩
  rw [mirror_splits_iff (fromAuxiliary_mirrors h0 hr hcut)]
  norm_num

end MagneticBearing.Quartic
