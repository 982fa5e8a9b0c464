/-
  MagneticBearing.Proofs.Resolvent — the auxiliary roots solve the resolvent.

  The resolvent of `y⁴ + p y² + q y + r` is `8 m³ + 8 p m² + (2 p² - 8 r) m - q²`. Cardano's
  radical `u` satisfies `(u³ - d₂)² = 4 d₁³ + d₂²` whichever way its cube root was taken
  (`radical_cube`), and that alone makes the three values that are built from it the three roots
  (`auxiliaryRoots_factor`). The one that is used has the largest norm of the three
  (`auxiliaryRoot_spec`).

  - `auxiliaryRoots_are_roots`: which cube root is taken, when there are roots, and that the resolvent is the
    product of their factors.
-/

import MagneticBearing.Proofs.Selection
import MagneticBearing.Quartic.ClosedForm

namespace MagneticBearing.Quartic

/-- The resolvent of a quartic. -/
def resolvent (c : Quartic ℝ) (m : ℂ) : ℂ :=
  8 * m ^ 3 + 8 * c.p * m ^ 2 + (2 * c.p ^ 2 - 8 * c.r) * m - c.q ^ 2

namespace ClosedForm

/-! ## Cardano's formula -/

theorem cubicTerms_eq (c : Quartic ℝ) : cubicTerms c =
    (-16 * c.p ^ 2 - 192 * c.r, 128 * c.p ^ 3 + 1728 * c.q ^ 2 - 4608 * c.p * c.r) := by
  simp only [cubicTerms, Exact.decimal]
  refine Prod.ext ?_ ?_ <;> ring

theorem discriminant_eq (d1 d2 : ℝ) : discriminant d1 d2 = 4 * d1 ^ 3 + d2 ^ 2 := by
  simp only [discriminant, Exact.decimal]
  ring

theorem radical_of_nonneg {d1 d2 : ℝ} (h : 0 ≤ discriminant d1 d2) :
    radical d1 d2 = Cx.ofReal (Exact.cbrt (d2 + √(discriminant d1 d2))) := by
  unfold radical
  rw [Exact.zero_eq]
  exact if_pos h

theorem radical_of_neg {d1 d2 : ℝ} (h : discriminant d1 d2 < 0) :
    radical d1 d2 = Cx.cbrt ⟨d2, √(-discriminant d1 d2)⟩ := by
  unfold radical
  rw [Exact.zero_eq]
  exact if_neg (not_le.mpr h)

theorem radical_cube (d1 d2 : ℝ) :
    ((radical d1 d2).toComplex ^ 3 - d2) ^ 2 = ((4 * d1 ^ 3 + d2 ^ 2 : ℝ) : ℂ) := by
  rw [← discriminant_eq]
  rcases le_or_gt 0 (discriminant d1 d2) with h | h
  · rw [radical_of_nonneg h, Cx.toComplex_ofReal, ← Complex.ofReal_pow, Exact.cbrt_cube, Complex.ofReal_add,
      add_sub_cancel_left, ← Complex.ofReal_pow, Real.sq_sqrt h]
  · have hs : √(-discriminant d1 d2) ^ 2 = -discriminant d1 d2 := Real.sq_sqrt (by linarith)
    have e : (⟨d2, √(-discriminant d1 d2)⟩ : ℂ) - d2 = √(-discriminant d1 d2) * Complex.I := by
      apply Complex.ext <;> simp
    rw [radical_of_neg h, Cx.cbrt_cube, Cx.toComplex_mk, e, mul_pow, Complex.I_sq, ← Complex.ofReal_pow, hs]
    push_cast
    ring

theorem one_le_radical {d1 d2 : ℝ} (h2 : 1 ≤ d2) : 1 ≤ ‖(radical d1 d2).toComplex‖ := by
  -- Either way the cube has the real part `d₂` or more.
  have hcube : 1 ≤ ‖(radical d1 d2).toComplex ^ 3‖ := by
    rcases le_or_gt 0 (discriminant d1 d2) with h | h
    · have := Real.sqrt_nonneg (discriminant d1 d2)
      rw [radical_of_nonneg h, Cx.toComplex_ofReal, ← Complex.ofReal_pow, Exact.cbrt_cube, Complex.norm_real,
        Real.norm_eq_abs]
      exact le_abs.mpr (.inl (by linarith))
    · rw [radical_of_neg h, Cx.cbrt_cube, Cx.toComplex_mk]
      exact h2.trans ((le_abs_self d2).trans (Complex.abs_re_le_norm ⟨d2, _⟩))
  rw [norm_pow] at hcube
  by_contra hlt
  exact absurd (pow_lt_one₀ (norm_nonneg _) (not_le.mp hlt) three_ne_zero) (not_lt.mpr hcube)

/-- Where the discriminant is negative, the size of the radical is that of `d₁` alone. -/
theorem norm_radical_of_neg {d1 d2 : ℝ} (h : discriminant d1 d2 < 0) :
    ‖(radical d1 d2).toComplex‖ ^ 6 = 4 * (-d1) ^ 3 := by
  have hs : √(-discriminant d1 d2) * √(-discriminant d1 d2) = -discriminant d1 d2 := Real.mul_self_sqrt (by linarith)
  calc ‖(radical d1 d2).toComplex‖ ^ 6 = ‖(radical d1 d2).toComplex ^ 3‖ ^ 2 := by rw [norm_pow, ← pow_mul]
    _ = d2 * d2 + √(-discriminant d1 d2) * √(-discriminant d1 d2) := by
        rw [radical_of_neg h, Cx.cbrt_cube, Cx.toComplex_mk, Complex.sq_norm, Complex.normSq_mk]
    _ = 4 * (-d1) ^ 3 := by
        rw [hs, discriminant_eq]
        ring

theorem le_radical_of_neg {d1 d2 k : ℝ} (h : discriminant d1 d2 < 0) (hk : k ^ 2 ≤ -d1) :
    k ≤ ‖(radical d1 d2).toComplex‖ := by
  have hcubes : (k ^ 2) ^ 3 ≤ (-d1) ^ 3 := pow_le_pow_left₀ (sq_nonneg k) hk 3
  have hnonneg : 0 ≤ (k ^ 2) ^ 3 := by positivity
  refine le_of_pow_le_pow_left₀ (n := 6) (by decide) (norm_nonneg _) ?_
  calc k ^ 6 = (k ^ 2) ^ 3 := by ring
    _ ≤ 4 * (-d1) ^ 3 := by linarith
    _ = ‖(radical d1 d2).toComplex‖ ^ 6 := (norm_radical_of_neg h).symm

/-- The second and third term of Cardano's formula, for the radical `u`. -/
structure Terms (d1 d2 : ℝ) (t2 t3 : ℂ) : Prop where
  product : t2 * t3 = d1 / 576
  cubes : t3 ^ 3 - t2 ^ 3 = d2 / 13824

/-- Any `u` with `(u³ - d₂)² = 4 d₁³ + d₂²` gives Cardano's terms; `k` is the cube root of two. -/
theorem terms_of_radical {d1 d2 : ℝ} {u k : ℂ} (hk : k ^ 3 = 2) (hu : u ≠ 0)
    (h : (u ^ 3 - d2) ^ 2 = ((4 * d1 ^ 3 + d2 ^ 2 : ℝ) : ℂ)) :
    Terms d1 d2 (d1 / (12 * k ^ 2 * u)) (u / (24 * k)) := by
  have hk0 : k ≠ 0 := by
    rintro rfl
    norm_num at hk
  have hu6 : u ^ 6 - 4 * (d1 : ℂ) ^ 3 = 2 * d2 * u ^ 3 := by
    push_cast at h
    linear_combination h
  refine ⟨?_, ?_⟩
  · have e : (d1 : ℂ) / (12 * k ^ 2 * u) * (u / (24 * k)) = d1 / (288 * k ^ 3) := by
      field_simp
      ring
    rw [e, hk]
    norm_num
  · have e : (u / (24 * k)) ^ 3 - ((d1 : ℂ) / (12 * k ^ 2 * u)) ^ 3 =
        u ^ 3 / (13824 * k ^ 3) - d1 ^ 3 / (1728 * (k ^ 3) ^ 2 * u ^ 3) := by
      field_simp
      ring
    have e2 : u ^ 3 / (13824 * 2) - (d1 : ℂ) ^ 3 / (1728 * 2 ^ 2 * u ^ 3) =
        (u ^ 6 - 4 * d1 ^ 3) / (27648 * u ^ 3) := by
      field_simp
      ring
    rw [e, hk, e2, hu6]
    field_simp
    ring

/-- With `w² = -3`, the three combinations of the terms are the roots of the resolvent. -/
theorem Terms.factor {c : Quartic ℝ} {t2 t3 w : ℂ} (hw : w ^ 2 = -3)
    (h : Terms (-16 * c.p ^ 2 - 192 * c.r) (128 * c.p ^ 3 + 1728 * c.q ^ 2 - 4608 * c.p * c.r) t2 t3) (x : ℂ) :
    8 * (x - (-(c.p / 3) - t2 + t3)) * (x - (-(c.p / 3) + (1 + w) * t2 / 2 - (1 - w) * t3 / 2)) *
      (x - (-(c.p / 3) + (1 - w) * t2 / 2 - (1 + w) * t3 / 2)) = resolvent c x := by
  have hp := h.product
  have hc := h.cubes
  push_cast at hp hc
  have cube : (x - (-(c.p / 3) - t2 + t3)) * (x - (-(c.p / 3) + (1 + w) * t2 / 2 - (1 - w) * t3 / 2)) *
      (x - (-(c.p / 3) + (1 - w) * t2 / 2 - (1 + w) * t3 / 2)) =
      (x + c.p / 3) ^ 3 + 3 * (t2 * t3) * (x + c.p / 3) - (t3 ^ 3 - t2 ^ 3) := by
    linear_combination (-(1 / 4) * (t2 + t3) ^ 2 * (x + c.p / 3) - (1 / 4) * (t2 - t3) * (t2 + t3) ^ 2) * hw
  calc 8 * (x - (-(c.p / 3) - t2 + t3)) * (x - (-(c.p / 3) + (1 + w) * t2 / 2 - (1 - w) * t3 / 2)) *
        (x - (-(c.p / 3) + (1 - w) * t2 / 2 - (1 + w) * t3 / 2))
      = 8 * ((x + c.p / 3) ^ 3 + 3 * (t2 * t3) * (x + c.p / 3) - (t3 ^ 3 - t2 ^ 3)) := by rw [← cube]; ring
    _ = resolvent c x := by rw [hp, hc, resolvent]; ring

/-! ## The three values -/

theorem cbrt_two_cube : ((Exact.cbrt 2 : ℝ) : ℂ) ^ 3 = 2 := by
  rw [← Complex.ofReal_pow, Exact.cbrt_cube]
  norm_num

theorem pow_two_thirds : (2 : ℝ) ^ (2 / 3 : ℝ) = Exact.cbrt 2 ^ 2 := by
  rw [Exact.cbrt_of_nonneg (by norm_num), ← Real.rpow_natCast, ← Real.rpow_mul (by norm_num)]
  norm_num

theorem sqrt_three_sq : ((√3 : ℂ) * Complex.I) ^ 2 = -3 := by
  rw [mul_pow, Complex.I_sq, ← Complex.ofReal_pow, Real.sq_sqrt (by norm_num)]
  norm_num

/-- The values are refused only for a radical that counts as zero; else they are built from it. -/
theorem auxiliaryRoots_ok {c : Quartic ℝ} {ms : List (Cx ℝ)} (h : auxiliaryRoots c = .ok ms) :
    ∃ m1 m2 m3 : Cx ℝ, ms = [m1, m2, m3] ∧
      let u := (radical (cubicTerms c).1 (cubicTerms c).2).toComplex
      let t2 := ((cubicTerms c).1 : ℂ) / (12 * (Exact.cbrt 2 : ℂ) ^ 2 * u)
      let t3 := u / (24 * (Exact.cbrt 2 : ℂ))
      let w := (√3 : ℂ) * Complex.I
      1 / 10 ^ 12 ≤ ‖u‖ ∧ m1.toComplex = -(c.p / 3) - t2 + t3 ∧
        m2.toComplex = -(c.p / 3) + (1 + w) * t2 / 2 - (1 - w) * t3 / 2 ∧
        m3.toComplex = -(c.p / 3) + (1 - w) * t2 / 2 - (1 + w) * t3 / 2 := by
  have h12 : (12.0 : ℝ) = 12 := by norm_num
  have h24 : (24.0 : ℝ) = 24 := by norm_num
  have hpow : Scalar.pow (2 : ℝ) (2 / 3) = Exact.cbrt 2 ^ 2 := pow_two_thirds
  have ha : (⟨1, √3⟩ : ℂ) = 1 + √3 * Complex.I := by apply Complex.ext <;> simp
  have hb : (⟨1, -√3⟩ : ℂ) = 1 - √3 * Complex.I := by apply Complex.ext <;> simp
  unfold auxiliaryRoots at h
  simp only [Exact.one_eq, Exact.two_eq, Exact.three_eq, h12, h24, hpow, zeroTolerance_eq, Cx.norm_eq] at h
  split at h
  · cases h
  · rename_i hu
    injection h with h
    refine ⟨_, _, _, h.symm, not_lt.mp hu, ?_, ?_, ?_⟩
    · simp only [Cx.toComplex_add, Cx.toComplex_sub, Cx.toComplex_neg, Cx.toComplex_ofReal, Cx.toComplex_under,
        Cx.toComplex_scale, Cx.toComplex_divReal]
      push_cast
      rfl
    · simp only [Cx.toComplex_add, Cx.toComplex_sub, Cx.toComplex_neg, Cx.toComplex_ofReal, Cx.toComplex_under,
        Cx.toComplex_scale, Cx.toComplex_divReal, Cx.toComplex_mul, Cx.toComplex_mk]
      push_cast
      rw [← ha, ← hb]
      rfl
    · simp only [Cx.toComplex_add, Cx.toComplex_sub, Cx.toComplex_neg, Cx.toComplex_ofReal, Cx.toComplex_under,
        Cx.toComplex_scale, Cx.toComplex_divReal, Cx.toComplex_mul, Cx.toComplex_mk]
      push_cast
      rw [← ha, ← hb]
      rfl

/-- The three values are the roots of the resolvent, with multiplicity. -/
theorem auxiliaryRoots_split {c : Quartic ℝ} {ms : List (Cx ℝ)} (h : auxiliaryRoots c = .ok ms) :
    ∃ m1 m2 m3 : Cx ℝ, ms = [m1, m2, m3] ∧
      ∀ x : ℂ, 8 * (x - m1.toComplex) * (x - m2.toComplex) * (x - m3.toComplex) = resolvent c x := by
  obtain ⟨m1, m2, m3, rfl, hu, e1, e2, e3⟩ := auxiliaryRoots_ok h
  refine ⟨m1, m2, m3, rfl, fun x => ?_⟩
  have hu0 : (radical (cubicTerms c).1 (cubicTerms c).2).toComplex ≠ 0 := by
    intro e
    rw [e, norm_zero] at hu
    norm_num at hu
  have ht := terms_of_radical cbrt_two_cube hu0 (radical_cube (cubicTerms c).1 (cubicTerms c).2)
  rw [cubicTerms_eq] at ht e1 e2 e3
  rw [e1, e2, e3]
  exact ht.factor sqrt_three_sq x

theorem resolvent_eq_zero_iff {c : Quartic ℝ} {ms : List (Cx ℝ)} (h : auxiliaryRoots c = .ok ms) (x : ℂ) :
    resolvent c x = 0 ↔ ∃ m ∈ ms, m.toComplex = x := by
  obtain ⟨m1, m2, m3, rfl, hx⟩ := auxiliaryRoots_split h
  rw [← hx, mul_eq_zero, mul_eq_zero, mul_eq_zero, sub_eq_zero, sub_eq_zero, sub_eq_zero]
  simp [eq_comm, or_assoc]

theorem auxiliaryRoots_isOk {c : Quartic ℝ}
    (hu : 1 / 10 ^ 12 ≤ ‖(radical (cubicTerms c).1 (cubicTerms c).2).toComplex‖) :
    ∃ ms, auxiliaryRoots c = .ok ms := by
  unfold auxiliaryRoots
  simp only [Cx.norm_eq, zeroTolerance_eq]
  rw [if_neg (not_lt.mpr hu)]
  exact ⟨_, rfl⟩

/-- The choice among the three values, before it is compared with zero. -/
theorem auxiliaryRoot_eq {c : Quartic ℝ} {ms : List (Cx ℝ)} (h : auxiliaryRoots c = .ok ms) :
    ∃ m ∈ ms, (∀ x ∈ ms, ‖x.toComplex‖ ≤ ‖m.toComplex‖) ∧
      auxiliaryRoot c = if ‖m.toComplex‖ < 1 / 10 ^ 12 then .error ⟨c⟩ else .ok m := by
  obtain ⟨m1, m2, m3, rfl, -⟩ := auxiliaryRoots_split h
  obtain ⟨m, hm⟩ : ∃ m, Scalar.greatestBy Cx.norm [m1, m2, m3] = some m := ⟨_, rfl⟩
  refine ⟨m, Scalar.greatestBy_mem hm, fun x hx => ?_, ?_⟩
  · rw [← Cx.norm_eq, ← Cx.norm_eq]
    exact Scalar.le_greatestBy hm x hx
  · unfold auxiliaryRoot
    simp only [h, bind, Except.bind, hm, Option.getD_some, Cx.norm_eq, zeroTolerance_eq]

/-- The root that is used solves the resolvent, has the largest norm of the three and does not count
as zero. -/
theorem auxiliaryRoot_spec {c : Quartic ℝ} {m : Cx ℝ} (h : auxiliaryRoot c = .ok m) :
    resolvent c m.toComplex = 0 ∧ (∀ x : ℂ, resolvent c x = 0 → ‖x‖ ≤ ‖m.toComplex‖) ∧ m.toComplex ≠ 0 := by
  cases hms : auxiliaryRoots c with
  | error e =>
    unfold auxiliaryRoot at h
    rw [hms] at h
    cases h
  | ok ms =>
    obtain ⟨g, hg, hmax, e⟩ := auxiliaryRoot_eq hms
    rw [h] at e
    split at e
    · cases e
    · rename_i hz
      cases e
      refine ⟨(resolvent_eq_zero_iff hms _).mpr ⟨m, hg, rfl⟩, fun x hx => ?_, fun e => hz ?_⟩
      · obtain ⟨y, hy, rfl⟩ := (resolvent_eq_zero_iff hms x).mp hx
        exact hmax y hy
      · rw [e, norm_zero]
        norm_num

theorem auxiliaryRoot_isOk {c : Quartic ℝ}
    (hu : 1 / 10 ^ 12 ≤ ‖(radical (cubicTerms c).1 (cubicTerms c).2).toComplex‖)
    {x : ℂ} (hx : resolvent c x = 0) (hn : 1 / 10 ^ 12 ≤ ‖x‖) : ∃ m, auxiliaryRoot c = .ok m := by
  obtain ⟨ms, hms⟩ := auxiliaryRoots_isOk hu
  obtain ⟨g, -, hmax, e⟩ := auxiliaryRoot_eq hms
  obtain ⟨y, hy, rfl⟩ := (resolvent_eq_zero_iff hms x).mp hx
  exact ⟨g, by rw [e, if_neg (not_lt.mpr (hn.trans (hmax y hy)))]⟩

/-- The auxiliary roots sum to `-p`, so one of them has a third of it. -/
theorem exists_third_of_sum {c : Quartic ℝ} {ms : List (Cx ℝ)} (h : auxiliaryRoots c = .ok ms) :
    ∃ m ∈ ms, |c.p| / 3 ≤ ‖m.toComplex‖ := by
  obtain ⟨m1, m2, m3, rfl, -, e1, e2, e3⟩ := auxiliaryRoots_ok h
  have hsum : m1.toComplex + m2.toComplex + m3.toComplex = -(c.p : ℂ) := by
    rw [e1, e2, e3]
    ring
  have hle : |c.p| ≤ ‖m1.toComplex‖ + ‖m2.toComplex‖ + ‖m3.toComplex‖ := by
    rw [← Real.norm_eq_abs, ← Complex.norm_real, ← norm_neg, ← hsum]
    exact norm_add₃_le
  by_contra hall
  push Not at hall
  have h1 := hall m1 (by simp)
  have h2 := hall m2 (by simp)
  have h3 := hall m3 (by simp)
  linarith

/-- A negative discriminant and coefficients that do not count as zero are enough for an auxiliary root. -/
theorem auxiliaryRoot_isOk_of_neg {c : Quartic ℝ} (h : discriminant (cubicTerms c).1 (cubicTerms c).2 < 0)
    (hd1 : (1 / 10 ^ 12) ^ 2 ≤ -(cubicTerms c).1) (hp : 3 / 10 ^ 12 ≤ |c.p|) : ∃ m, auxiliaryRoot c = .ok m := by
  have hu := le_radical_of_neg h hd1
  obtain ⟨ms, hms⟩ := auxiliaryRoots_isOk hu
  obtain ⟨m, hm, hle⟩ := exists_third_of_sum hms
  exact auxiliaryRoot_isOk hu ((resolvent_eq_zero_iff hms _).mpr ⟨m, hm, rfl⟩) (by linarith)

/-! ## As polynomials -/

/-- A negative discriminant takes the cube root of a number above the real axis, and the principal one lies in the first
sixth of a turn. -/
theorem arg_radical {d1 d2 : ℝ} (h : discriminant d1 d2 < 0) :
    0 < (radical d1 d2).toComplex.arg ∧ (radical d1 d2).toComplex.arg < Real.pi / 3 := by
  have him : 0 < √(-discriminant d1 d2) := Real.sqrt_pos.mpr (by linarith)
  have hz : (⟨d2, √(-discriminant d1 d2)⟩ : ℂ) ≠ 0 := fun h0 => him.ne' (congrArg Complex.im h0)
  have hlow : 0 < Complex.arg ⟨d2, √(-discriminant d1 d2)⟩ := by
    refine lt_of_le_of_ne (Complex.arg_nonneg_iff.mpr him.le) fun h0 => ?_
    exact him.ne' (Complex.arg_eq_zero_iff.mp h0.symm).2
  have hhigh : Complex.arg ⟨d2, √(-discriminant d1 d2)⟩ < Real.pi := by
    refine lt_of_le_of_ne (Complex.arg_le_pi _) fun h0 => ?_
    exact him.ne' (Complex.arg_eq_pi_iff.mp h0).2
  rw [radical_of_neg h, Cx.arg_cbrt (z := ⟨d2, _⟩) hz, Cx.toComplex_mk]
  exact ⟨div_pos hlow three_pos, div_lt_div_of_pos_right hhigh three_pos⟩

theorem auxiliaryRoots_degenerate {c : Quartic ℝ}
    (hu : ‖(radical (cubicTerms c).1 (cubicTerms c).2).toComplex‖ < 1 / 10 ^ 12) : auxiliaryRoots c = .error ⟨c⟩ := by
  unfold auxiliaryRoots
  simp only [Cx.norm_eq, zeroTolerance_eq]
  exact if_pos hu

open Polynomial in
/-- Cardano's formula over the complex numbers. Its radical is the real cube root of `d₂ + √disc` where the discriminant
is not negative, and otherwise the principal one of `d₂ + i √(-disc)`. It is refused if it counts as zero; if not, the
three values are the roots of the resolvent, each as often as it is one. -/
theorem auxiliaryRoots_are_roots (c : Quartic ℝ) :
    let d2 := (cubicTerms c).2
    let disc := discriminant (cubicTerms c).1 d2
    let u := radical (cubicTerms c).1 d2
    (0 ≤ disc → u.im = 0 ∧ u.re ^ 3 = d2 + √disc) ∧
    (disc < 0 → u.toComplex ^ 3 = ⟨d2, √(-disc)⟩ ∧ 0 < u.arg ∧ u.arg < Real.pi / 3) ∧
    (u.norm < zeroTolerance → auxiliaryRoots c = .error ⟨c⟩) ∧
    (zeroTolerance ≤ u.norm → ∃ ms, auxiliaryRoots c = .ok ms) ∧
    ∀ ms, auxiliaryRoots c = .ok ms → ∃ m1 m2 m3 : Cx ℝ, ms = [m1, m2, m3] ∧
      C 8 * (X - C m1.toComplex) * (X - C m2.toComplex) * (X - C m3.toComplex) =
        C 8 * X ^ 3 + C (8 * (c.p : ℂ)) * X ^ 2 + C (2 * (c.p : ℂ) ^ 2 - 8 * c.r) * X - C ((c.q : ℂ) ^ 2) := by
  intro d2 disc u
  refine ⟨fun h => ?_, fun h => ?_, fun h => ?_, fun h => ?_, fun ms h => ?_⟩
  · have hu : u = Cx.ofReal (Exact.cbrt (d2 + √disc)) := radical_of_nonneg h
    rw [hu]
    exact ⟨Exact.zero_eq, Exact.cbrt_cube _⟩
  · refine ⟨?_, arg_radical h⟩
    have hu : u = Cx.cbrt ⟨d2, √(-disc)⟩ := radical_of_neg h
    rw [hu]
    exact Cx.cbrt_cube _
  · rw [Cx.norm_eq, zeroTolerance_eq] at h
    exact auxiliaryRoots_degenerate h
  · rw [Cx.norm_eq, zeroTolerance_eq] at h
    exact auxiliaryRoots_isOk h
  · obtain ⟨m1, m2, m3, rfl, hsplit⟩ := auxiliaryRoots_split h
    refine ⟨m1, m2, m3, rfl, Polynomial.funext fun x => ?_⟩
    simp only [eval_add, eval_sub, eval_mul, eval_pow, eval_X, eval_C]
    exact hsplit x

open Polynomial in
/-- The resolvent of `y⁴ - 5 y² + 4` has three real roots, and Cardano's formula finds them through complex numbers. -/
theorem auxiliaryRoots_are_roots_real :
    discriminant (cubicTerms ⟨-5, 0, 4⟩).1 (cubicTerms (⟨-5, 0, 4⟩ : Quartic ℝ)).2 < 0 ∧
      ∃ m1 m2 m3 : Cx ℝ, auxiliaryRoots ⟨-5, 0, 4⟩ = .ok [m1, m2, m3] ∧
        ({m1.toComplex, m2.toComplex, m3.toComplex} : Multiset ℂ) = {0, 1 / 2, 9 / 2} := by
  obtain ⟨-, -, -, hok, hroots⟩ := auxiliaryRoots_are_roots ⟨-5, 0, 4⟩
  have hu : zeroTolerance ≤ (radical (cubicTerms ⟨-5, 0, 4⟩).1 (cubicTerms (⟨-5, 0, 4⟩ : Quartic ℝ)).2).norm := by
    rw [zeroTolerance_eq, Cx.norm_eq, cubicTerms_eq]
    exact le_trans (by norm_num) (one_le_radical (by norm_num))
  obtain ⟨ms, hms⟩ := hok hu
  obtain ⟨m1, m2, m3, rfl, hpoly⟩ := hroots ms hms
  refine ⟨?_, m1, m2, m3, hms, ?_⟩
  · rw [discriminant_eq, cubicTerms_eq]
    norm_num
  · have hsame : C 8 * (X - C m1.toComplex) * (X - C m2.toComplex) * (X - C m3.toComplex) =
        C 8 * (X - C (0 : ℂ)) * (X - C (1 / 2)) * (X - C (9 / 2)) := by
      rw [hpoly]
      apply Polynomial.funext
      intro x
      simp only [eval_add, eval_sub, eval_mul, eval_pow, eval_X, eval_C]
      push_cast
      ring
    have hlist (a b d : ℂ) : (C 8 * (X - C a) * (X - C b) * (X - C d)).roots = {a, b, d} := by
      have hprod : C 8 * (X - C a) * (X - C b) * (X - C d) =
          C 8 * (({a, b, d} : Multiset ℂ).map fun z => X - C z).prod := by
        simp [mul_assoc]
      rw [hprod, roots_C_mul _ (by norm_num), roots_multiset_prod_X_sub_C]
    rw [← hlist, hsame, hlist]

end ClosedForm

end MagneticBearing.Quartic
