/-
  MagneticBearing.Proofs.Scaling — force laws that differ by their units.

  Two laws are similar (`Similar`) if the one yields `k` times the force of the other at `c` times the
  excitation. The tolerances of polishing and of the check are relative, the one to the square of the
  linear coefficient, the others to lengths, forces and terms of the law. So a polishing step scales with
  the excitation (`newtonStep_scale`), by induction on its steps a run does (`refine_scale`), and the check
  does not notice (`reproduces_scale`). The guard against a vanishing imaginary part is the one that is
  not relative; where it agrees for the roots, a whole request scales (`candidatesFrom_scale`,
  `solve_scale`).

  A physical bearing in another iron is such a pair: the bias follows the saturation field, the constants
  of the geometry stay (`Rescaled`).

  - `saturationField_scales`: with `k` times the saturation field everything is as before at `k` times the
    fields and `k²` times the forces, the largest deliverable force among it.
-/

import MagneticBearing.Proofs.Deliverable

namespace MagneticBearing

open ComplexConjugate

/-! ## Scaled vectors -/

namespace Cx

variable {c : ℝ}

theorem scale_sub (c : ℝ) (s t : Cx ℝ) : scale c (s - t) = scale c s - scale c t := by
  rw [← toComplex_inj]
  simp only [toComplex_sub, toComplex_scale]
  ring

theorem scale_one (s : Cx ℝ) : scale 1 s = s := by
  rw [← toComplex_inj, toComplex_scale, Complex.ofReal_one, one_mul]

theorem norm_scale (hc : 0 ≤ c) (s : Cx ℝ) : ‖(scale c s).toComplex‖ = c * ‖s.toComplex‖ := by
  rw [toComplex_scale, norm_mul, Complex.norm_real, Real.norm_of_nonneg hc]

theorem scale_bijective (hc : c ≠ 0) : Function.Bijective (scale c) := by
  have hcc : (c : ℂ) ≠ 0 := Complex.ofReal_ne_zero.mpr hc
  constructor
  · intro s t h
    have he := congrArg toComplex h
    rw [toComplex_scale, toComplex_scale] at he
    exact toComplex_inj.mp (mul_left_cancel₀ hcc he)
  · intro t
    refine ⟨scale c⁻¹ t, ?_⟩
    rw [← toComplex_inj, toComplex_scale, toComplex_scale, Complex.ofReal_inv, mul_inv_cancel_left₀ hcc]

end Cx

theorem SpaceVector.toPoles_scale (c : ℝ) (s : SpaceVector ℝ) : toPoles (Cx.scale c s) = (toPoles s).scale c := by
  rw [toPoles_eq, toPoles_eq]
  simp only [Cx.scale, Poles.scale, Poles.map, Poles.mk.injEq]
  refine ⟨by ring, by ring, by ring⟩

/-! ## Similar laws -/

namespace ForceLaw

/-- The law `law'` yields `k` times the force of `law` at `c` times the excitation. -/
structure Similar (law law' : ForceLaw ℝ) (c k : ℝ) : Prop where
  length_pos : 0 < c
  force_pos : 0 < k
  quadratic_eq : law'.quadratic * c ^ 2 = k * law.quadratic
  linear_eq : law'.linear * c = k * law.linear

namespace Similar

variable {law law' : ForceLaw ℝ} {c k : ℝ} (h : Similar law law' c k) (s target : Cx ℝ)

include h

theorem ofVector_scale : law'.ofVector (Cx.scale c s) = Cx.scale k (law.ofVector s) := by
  have hq : (law'.quadratic : ℂ) * c ^ 2 = k * law.quadratic := by exact_mod_cast h.quadratic_eq
  have hl : (law'.linear : ℂ) * c = k * law.linear := by exact_mod_cast h.linear_eq
  rw [← Cx.toComplex_inj, toComplex_ofVector, Cx.toComplex_scale, Cx.toComplex_scale, toComplex_ofVector,
    onPlane_eq, onPlane_eq, map_mul, Complex.conj_ofReal]
  linear_combination (conj s.toComplex ^ 2 / 3) * hq + s.toComplex * hl

/-- The solutions for `k` times a force are `c` times the solutions. -/
theorem ofVector_scale_iff : law'.ofVector (Cx.scale c s) = Cx.scale k target ↔ law.ofVector s = target := by
  rw [h.ofVector_scale]
  exact (Cx.scale_bijective h.force_pos.ne').injective.eq_iff

theorem ofPoles_scale (e : Poles ℝ) : law'.ofPoles (e.scale c) = Cx.scale k (law.ofPoles e) := by
  have hq := h.quadratic_eq
  have hl := h.linear_eq
  rw [← Cx.toComplex_inj]
  unfold ofPoles
  simp only [SpaceVector.ofPoles_eq, Poles.squared, Poles.scale, Poles.map]
  apply Complex.ext
  · simp
    linear_combination (e.p1 * e.p1 - (e.p2 * e.p2 + e.p3 * e.p3) / 2) * hq + (e.p1 - (e.p2 + e.p3) / 2) * hl
  · simp
    linear_combination √3 / 2 * (e.p2 * e.p2 - e.p3 * e.p3) * hq + √3 / 2 * (e.p2 - e.p3) * hl

/-! ### Polishing -/

theorem quadratic_div : law'.quadratic = k * law.quadratic / c ^ 2 := by
  rw [eq_div_iff (pow_ne_zero 2 h.length_pos.ne'), h.quadratic_eq]

theorem linear_div : law'.linear = k * law.linear / c := by
  rw [eq_div_iff h.length_pos.ne', h.linear_eq]

theorem jacobian_scale : law'.jacobian (Cx.scale c s) = (k / c) ^ 2 * law.jacobian s := by
  have hc := h.length_pos.ne'
  rw [jacobian_eq, jacobian_eq, Cx.norm_scale h.length_pos.le, h.quadratic_div, h.linear_div]
  field_simp

theorem newtonStep_scale : law'.newtonStep (Cx.scale k target) (Cx.scale c s) =
    (law.newtonStep target s).map (Cx.scale c) := by
  have hc := h.length_pos
  have hk := h.force_pos
  refine newtonStep_map ?_ fun d d' hd hd' => ?_
  · have hpos : 0 < (k / c) ^ 2 := by positivity
    have e : 1 / 10 ^ 12 * (k * law.linear / c) ^ 2 = (k / c) ^ 2 * (1 / 10 ^ 12 * law.linear ^ 2) := by ring
    rw [newtonStep_eq_none_iff, newtonStep_eq_none_iff, h.jacobian_scale, h.linear_div, abs_mul, abs_of_pos hpos, e,
      mul_le_mul_iff_right₀ hpos]
  · have hc' : (c : ℂ) ≠ 0 := Complex.ofReal_ne_zero.mpr hc.ne'
    have hk' : (k : ℂ) ≠ 0 := Complex.ofReal_ne_zero.mpr hk.ne'
    rw [← Cx.toComplex_inj, Cx.toComplex_scale, newtonStep_toComplex hd, newtonStep_toComplex hd', h.jacobian_scale,
      h.ofVector_scale, ← Cx.scale_sub, h.quadratic_div, h.linear_div]
    simp only [Cx.toComplex_scale, map_mul, Complex.conj_ofReal]
    push_cast
    field_simp

theorem refine_scale : law'.refine (Cx.scale c s) (Cx.scale k target) = Cx.scale c (law.refine s target) :=
  refineFrom_map h.length_pos (Cx.scale_sub c) (Cx.norm_scale h.length_pos.le) (fun t => h.newtonStep_scale t target)
    refineSteps s

theorem miss_scale : law'.miss (Cx.scale k target) (Cx.scale c s) = k * law.miss target s := by
  unfold miss
  rw [← toComplex_ofVector, ← Cx.toComplex_sub, h.ofVector_scale, ← Cx.scale_sub, Cx.norm_scale h.force_pos.le,
    Cx.toComplex_sub, toComplex_ofVector]

/-- The terms that the tolerance scales with are forces too. -/
theorem reproduces_scale : law'.reproduces (Cx.scale c s) (Cx.scale k target) = law.reproduces s target := by
  have hc := h.length_pos
  have e : 1 / 10 ^ 9 * (k * ‖target.toComplex‖ + k * law.linear / c * (c * ‖s.toComplex‖) +
      k * law.quadratic / c ^ 2 * (c * ‖s.toComplex‖) ^ 2 / 3) =
      k * (1 / 10 ^ 9 * (‖target.toComplex‖ + law.linear * ‖s.toComplex‖ + law.quadratic * ‖s.toComplex‖ ^ 2 / 3)) := by
    field_simp
  rw [Bool.eq_iff_iff, reproduces_iff, reproduces_iff, h.miss_scale, Cx.norm_scale hc.le, Cx.norm_scale h.force_pos.le,
    h.quadratic_div, h.linear_div, e, mul_le_mul_iff_right₀ h.force_pos]

/-! ### Candidates -/

theorem divReal_scale : Cx.divReal (Cx.scale k target) law'.linear = Cx.scale c (Cx.divReal target law.linear) := by
  have hc : (c : ℂ) ≠ 0 := Complex.ofReal_ne_zero.mpr h.length_pos.ne'
  have hk : (k : ℂ) ≠ 0 := Complex.ofReal_ne_zero.mpr h.force_pos.ne'
  rw [← Cx.toComplex_inj, h.linear_div]
  simp only [Cx.toComplex_divReal, Cx.toComplex_scale]
  push_cast
  field_simp

/-- The roots of the quartics are lengths, in either formulation. -/
theorem eval_scale (ha : law.quadratic ≠ 0) (form : Formulation) (fx fy root : ℝ) :
    (law'.quartic form (k * fx) (k * fy)).eval (c * root) = c ^ 4 * (law.quartic form fx fy).eval root := by
  have hc := h.length_pos.ne'
  have hk := h.force_pos.ne'
  cases form with
  | imaginaryFirst =>
    simp only [eval_eq, quartic, Exact.decimal]
    rw [h.quadratic_div, h.linear_div]
    field_simp
  | realFirst =>
    simp only [eval_eq, quartic, Exact.decimal]
    rw [h.quadratic_div, h.linear_div]
    field_simp

/-- What completing a root of the real part divides by. -/
theorem divisor_scale (root : ℝ) : 3 * law'.linear - 2 * law'.quadratic * (c * root) =
    k / c * (3 * law.linear - 2 * law.quadratic * root) := by
  have hc := h.length_pos.ne'
  rw [h.quadratic_div, h.linear_div]
  field_simp

theorem completion_scale (form : Formulation) (fy root : ℝ) :
    law'.completion form (k * fy) (c * root) = Cx.scale c (law.completion form fy root) := by
  have hc := h.length_pos.ne'
  have hk := h.force_pos.ne'
  cases form with
  | imaginaryFirst =>
    rw [completion_imaginaryFirst, completion_imaginaryFirst, h.quadratic_div, h.linear_div]
    simp only [Cx.scale, Cx.mk.injEq, and_true]
    field_simp
  | realFirst =>
    rw [completion_realFirst, completion_realFirst, h.divisor_scale]
    simp only [Cx.scale, Cx.mk.injEq, true_and]
    field_simp

/-- The guard of the real part is relative, that of the imaginary part is not. -/
theorem guarded_scale {form : Formulation} {root : ℝ}
    (hg : form = .imaginaryFirst → (|c * root| < Quartic.zeroTolerance ↔ |root| < Quartic.zeroTolerance)) :
    law'.Guarded form (c * root) ↔ law.Guarded form root := by
  cases form with
  | imaginaryFirst => exact hg rfl
  | realFirst =>
    have hpos : 0 < k / c := div_pos h.force_pos h.length_pos
    have e : 3 * law'.linear = k / c * (3 * law.linear) := by
      rw [h.linear_div]
      ring
    simp only [Guarded, Exact.two_eq, Exact.three_eq]
    rw [h.divisor_scale, e, abs_mul, abs_mul (k / c), abs_of_pos hpos, mul_left_comm, mul_le_mul_iff_right₀ hpos]

variable {form : Formulation}

theorem pair_scale {root : ℝ} (hg : law'.Guarded form (c * root) ↔ law.Guarded form root) (fy : ℝ) :
    law'.pair form (k * fy) (c * root) = (law.pair form fy root).map (Cx.scale c) := by
  by_cases hr : law.Guarded form root
  · rw [pair_of_guarded _ hr, pair_of_guarded _ (hg.mpr hr)]
    rfl
  · rw [pair_of_not_guarded _ hr, pair_of_not_guarded _ (mt hg.mp hr), h.completion_scale]
    rfl

theorem completions_scale {roots : List ℝ} (hg : ∀ root ∈ roots, law'.Guarded form (c * root) ↔ law.Guarded form root)
    (fy : ℝ) : law'.completions form (k * fy) (roots.map (c * ·)) =
      (law.completions form fy roots).map (List.map (Cx.scale c)) := by
  induction roots with
  | nil => rfl
  | cons root roots ih =>
    have hp := h.pair_scale (hg root List.mem_cons_self) fy
    have hrest := ih fun r hr => hg r (List.mem_cons_of_mem _ hr)
    rw [List.map_cons]
    cases hr : law.pair form fy root with
    | some t =>
      rw [hr] at hp
      rw [completions_of_some hr, completions_of_some hp, hrest, Option.map_map, Option.map_map]
      rfl
    | none =>
      rw [hr] at hp
      rw [completions_of_none hr, completions_of_none hp]
      cases form with
      | imaginaryFirst => rfl
      | realFirst => exact hrest

theorem keep_scale (known : List (SpaceVector ℝ)) (seed : Cx ℝ) :
    law'.keep (Cx.scale k target) (known.map (Cx.scale c)) (Cx.scale c seed) =
      (law.keep target known seed).map (Cx.scale c) := by
  have hc := h.length_pos
  have hclose (t u : Cx ℝ) : close (Cx.scale c t) (Cx.scale c u) = close t u := by
    rw [Bool.eq_iff_iff, close_iff, close_iff, ← Cx.toComplex_sub, ← Cx.scale_sub, Cx.norm_scale hc.le,
      Cx.norm_scale hc.le, Cx.norm_scale hc.le, ← mul_max_of_nonneg _ _ hc.le, mul_left_comm, mul_le_mul_iff_right₀ hc,
      Cx.toComplex_sub]
  have hany (u : Cx ℝ) : ((known.map (Cx.scale c)).any fun t => close t (Cx.scale c u)) =
      known.any fun t => close t u := by
    rw [List.any_map]
    exact congrArg known.any (funext fun t => hclose t u)
  simp only [keep, h.refine_scale, h.reproduces_scale, hany]
  split
  · rfl
  · split
    · rfl
    · rw [List.map_append]
      rfl

theorem distinct_scale (seeds : List (Cx ℝ)) :
    law'.distinct (Cx.scale k target) (seeds.map (Cx.scale c)) = (law.distinct target seeds).map (Cx.scale c) := by
  -- Each step looks at what is known, so the induction on the seeds is for any list of known ones.
  have hfold (known : List (SpaceVector ℝ)) :
      (seeds.map (Cx.scale c)).foldl (law'.keep (Cx.scale k target)) (known.map (Cx.scale c)) =
        (seeds.foldl (law.keep target) known).map (Cx.scale c) := by
    induction seeds generalizing known with
    | nil => rfl
    | cons seed seeds ih =>
      rw [List.map_cons, List.foldl_cons, List.foldl_cons, h.keep_scale]
      exact ih _
  exact hfold []

/-- The candidates that `c` times the roots lead to are `c` times the candidates. -/
theorem candidatesFrom_scale {roots : List ℝ}
    (hg : ∀ root ∈ roots, law'.Guarded form (c * root) ↔ law.Guarded form root) :
    law'.candidatesFrom form (Cx.scale k target) (roots.map (c * ·)) =
      (law.candidatesFrom form target roots).map (List.map (Cx.scale c)) := by
  unfold candidatesFrom
  show (law'.completions form (k * target.im) (roots.map (c * ·))).map _ = _
  rw [h.completions_scale hg, Option.map_map, Option.map_map]
  congr 1
  funext seeds
  show law'.distinct _ (seeds.map (Cx.scale c) ++ [Cx.divReal (Cx.scale k target) law'.linear]) =
    (law.distinct target (seeds ++ [Cx.divReal target law.linear])).map (Cx.scale c)
  rw [h.divReal_scale, ← h.distinct_scale, List.map_append]
  rfl

end Similar

end ForceLaw

/-! ## Requests -/

namespace Allocator

theorem target_scale (k direction magnitude : ℝ) :
    target direction (k * magnitude) = Cx.scale k (target direction magnitude) := by
  rw [target_eq_scale, target_eq_scale direction magnitude, ← Cx.toComplex_inj]
  simp only [Cx.toComplex_scale, Complex.ofReal_mul, mul_assoc]

variable {a a' : Allocator ℝ} {c k : ℝ} {direction magnitude : ℝ}

/-- What `a'` finds as roots for the target `f'` is `c` times what `a` finds for `f`, and an imaginary part that the
one takes for zero the other does too. -/
def RootsScale (a a' : Allocator ℝ) (c : ℝ) (f f' : Cx ℝ) : Prop :=
  ∀ form roots, Quartic.realRoots a.find (a.bearing.law.quartic form f.re f.im) = .ok roots →
    Quartic.realRoots a'.find (a'.bearing.law.quartic form f'.re f'.im) = .ok (roots.map (c * ·)) ∧
      (form = .imaginaryFirst →
        ∀ root ∈ roots, |c * root| < Quartic.zeroTolerance ↔ |root| < Quartic.zeroTolerance)

theorem solveWith_scale (h : a.bearing.law.Similar a'.bearing.law c k) {f : Cx ℝ}
    (hroots : RootsScale a a' c f (Cx.scale k f)) {form : Formulation} {found : Option (List (SpaceVector ℝ))}
    (hs : a.solveWith form f = .ok found) :
    a'.solveWith form (Cx.scale k f) = .ok (found.map (List.map (Cx.scale c))) := by
  obtain ⟨roots, hr, rfl⟩ := solveWith_ok hs
  obtain ⟨hr', hg⟩ := hroots form roots hr
  have hguard (root : ℝ) (hmem : root ∈ roots) := h.guarded_scale fun hform => hg hform root hmem
  unfold solveWith
  simp only [hr', h.candidatesFrom_scale f hguard]

/-- For `k` times the magnitude the answer is `c` times the answer. -/
theorem solve_scale (h : a.bearing.law.Similar a'.bearing.law c k)
    (hroots : RootsScale a a' c (target direction magnitude) (target direction (k * magnitude))) {sols : Solutions ℝ}
    (hs : a.solve direction magnitude = .ok sols) :
    a'.solve direction (k * magnitude) = .ok ⟨sols.formulation, sols.vectors.map (Cx.scale c)⟩ := by
  have hk := h.force_pos
  have hzero : Cx.scale c Cx.zero = (Cx.zero : Cx ℝ) := by
    rw [← Cx.toComplex_inj, Cx.toComplex_scale, Cx.toComplex_zero, mul_zero]
  rw [target_scale] at hroots
  rw [solve_eq] at hs ⊢
  simp only [target_scale, mul_nonneg_iff_of_pos_left hk, mul_eq_zero_iff_left hk.ne']
  split at hs
  · rename_i hm
    rw [if_pos hm]
    split at hs
    · rename_i hz
      cases hs
      rw [if_pos hz, List.map_singleton, hzero]
    · rename_i hz
      rw [if_neg hz]
      split at hs
      · cases hs
      · rename_i hw
        cases hs
        rw [solveWith_scale h hroots hw]
        rfl
      · rename_i hw
        rw [solveWith_scale h hroots hw]
        split at hs
        · cases hs
        · rename_i found hw'
          cases hs
          rw [Option.map_none, solveWith_scale h hroots hw']
          cases found with
          | none => rfl
          | some vectors => rfl
  · cases hs

end Allocator

/-! ## Another iron -/

namespace Physical

/-- The same bearing in an iron that saturates at `k` times the field. -/
structure Rescaled (b b' : Physical ℝ) (k : ℝ) : Prop where
  scale_pos : 0 < k
  saturationField_eq : b'.saturationField = k * b.saturationField
  bias_eq : b'.bias = k * b.bias
  k1_eq : b'.k1 = b.k1

namespace Rescaled

variable {b b' : Physical ℝ} {k : ℝ} (h : Rescaled b b' k)

include h

theorem similar : b.bearing.law.Similar b'.bearing.law k (k ^ 2) := by
  refine ⟨h.scale_pos, pow_pos h.scale_pos 2, ?_, ?_⟩
  · show b'.k1 * k ^ 2 = k ^ 2 * b.k1
    rw [h.k1_eq, mul_comm]
  · show 2.0 * b'.bias * b'.k1 * k = k ^ 2 * (2.0 * b.bias * b.k1)
    rw [h.bias_eq, h.k1_eq, Exact.two_eq]
    ring

theorem saturated_scale (e : Poles ℝ) : b'.bearing.saturated (e.scale k) = b.bearing.saturated e := by
  have hk := h.scale_pos
  have e' : (e.scale k).addEach b'.bias = (e.addEach b.bias).scale k := by
    rw [h.bias_eq]
    simp only [Poles.addEach, Poles.scale, Poles.map, Poles.mk.injEq]
    refine ⟨by ring, by ring, by ring⟩
  show decide (b'.saturationField < ((e.scale k).addEach b'.bias).peak) = decide (b.saturationField < (e.addEach b.bias).peak)
  rw [e', Poles.peak_scale, abs_of_pos hk, h.saturationField_eq, decide_eq_decide, mul_lt_mul_iff_right₀ hk]

theorem hexagonBound_eq : b'.bearing.hexagonBound = k ^ 2 * b.bearing.hexagonBound := by
  show b'.k1 * b'.saturationField * b'.saturationField = k ^ 2 * (b.k1 * b.saturationField * b.saturationField)
  rw [h.k1_eq, h.saturationField_eq]
  ring

/-- The unsaturated solutions for `k²` times a force are `k` times the unsaturated solutions. -/
theorem mem_deliverable_scale (d m : ℝ) : k ^ 2 * m ∈ b'.bearing.deliverable d ↔ m ∈ b.bearing.deliverable d := by
  have hsolution (s : SpaceVector ℝ) : b'.bearing.law.ofVector (Cx.scale k s) = Allocator.target d (k ^ 2 * m) ↔
      b.bearing.law.ofVector s = Allocator.target d m := by
    rw [Allocator.target_scale]
    exact h.similar.ofVector_scale_iff s _
  have hsaturated (s : SpaceVector ℝ) : b'.bearing.saturated (SpaceVector.toPoles (Cx.scale k s)) =
      b.bearing.saturated s.toPoles := by
    rw [SpaceVector.toPoles_scale]
    exact h.saturated_scale s.toPoles
  refine and_congr (mul_nonneg_iff_of_pos_left h.similar.force_pos) ?_
  rw [(Cx.scale_bijective h.scale_pos.ne').surjective.exists]
  exact exists_congr fun s => and_congr (hsolution s) (by rw [hsaturated])

theorem isGreatest_scale {d M : ℝ} (hM : IsGreatest (b.bearing.deliverable d) M) :
    IsGreatest (b'.bearing.deliverable d) (k ^ 2 * M) := by
  have hk := h.similar.force_pos
  refine ⟨(h.mem_deliverable_scale d M).mpr hM.1, fun m hm => ?_⟩
  have e : m = k ^ 2 * (m / k ^ 2) := (mul_div_cancel₀ m hk.ne').symm
  rw [e, h.mem_deliverable_scale] at hm
  rw [e]
  exact mul_le_mul_of_nonneg_left (hM.2 hm) hk.le

end Rescaled

/-- The bias is a share of the saturation field; the constants of the geometry do not depend on it. -/
theorem rescaled_derive (g : Geometry ℝ) {k : ℝ} (hk : 0 < k) :
    Rescaled g.derive ({ g with saturationField := k * g.saturationField } : Geometry ℝ).derive k :=
  ⟨hk, rfl, mul_left_comm _ _ _, rfl⟩

/-- A bearing built with `k` times the saturation field has the same force law at `k` times the fields and `k²` times
the forces: polishing scales, the check and the saturation of an excitation stay as they are. So the deliverable
magnitudes scale by `k²`, and with less saturation field the largest of them is strictly smaller. -/
theorem saturationField_scales {g : Geometry ℝ} {b : Physical ℝ} {k : ℝ} (hb : Physical.build g = .ok b) (hk : 0 < k) :
    ∃ b', Physical.build { g with saturationField := k * g.saturationField } = .ok b' ∧
      (∀ s, b'.bearing.law.ofVector (Cx.scale k s) = Cx.scale (k ^ 2) (b.bearing.law.ofVector s)) ∧
      (∀ e, b'.bearing.law.ofPoles (e.scale k) = Cx.scale (k ^ 2) (b.bearing.law.ofPoles e)) ∧
      (∀ s target, b'.bearing.law.refine (Cx.scale k s) (Cx.scale (k ^ 2) target) =
          Cx.scale k (b.bearing.law.refine s target) ∧
        b'.bearing.law.reproduces (Cx.scale k s) (Cx.scale (k ^ 2) target) = b.bearing.law.reproduces s target) ∧
      (∀ e, b'.bearing.saturated (e.scale k) = b.bearing.saturated e) ∧
      b'.bearing.hexagonBound = k ^ 2 * b.bearing.hexagonBound ∧
      ∀ direction, (∀ m, m ∈ b.bearing.deliverable direction ↔ k ^ 2 * m ∈ b'.bearing.deliverable direction) ∧
        ∃ M, 0 < M ∧ IsGreatest (b.bearing.deliverable direction) M ∧
          IsGreatest (b'.bearing.deliverable direction) (k ^ 2 * M) ∧ (k < 1 → k ^ 2 * M < M) := by
  obtain ⟨hg, rfl⟩ := valid_of_build hb
  have hg' : ({ g with saturationField := k * g.saturationField } : Geometry ℝ).Valid :=
    { hg with saturationField_pos := mul_pos hk hg.saturationField_pos }
  have h := rescaled_derive g hk
  refine ⟨_, build_of_valid hg', h.similar.ofVector_scale, h.similar.ofPoles_scale, ?_, h.saturated_scale,
    h.hexagonBound_eq, ?_⟩
  · intro s target
    exact ⟨h.similar.refine_scale s target, h.similar.reproduces_scale s target⟩
  · intro d
    obtain ⟨M, hpos, hM⟩ := exists_isGreatest hg.sound d
    refine ⟨fun m => (h.mem_deliverable_scale d m).symm, M, hpos, hM, h.isGreatest_scale hM, ?_⟩
    intro hlt
    exact mul_lt_of_lt_one_left hpos (pow_lt_one₀ hk.le hlt two_ne_zero)

/-- Nine tenths of the prototype's saturation field: 81 hundredths of its largest force. -/
theorem saturationField_scales_prototype : ∃ b b' : Physical ℝ, Physical.build Geometry.prototype = .ok b ∧
    Physical.build { Geometry.prototype with saturationField := 9 / 10 * (Geometry.prototype : Geometry ℝ).saturationField } =
      .ok b' ∧
    b'.bearing.hexagonBound = (9 / 10) ^ 2 * b.bearing.hexagonBound ∧
    ∃ M, 0 < M ∧ IsGreatest (b.bearing.deliverable 15) M ∧ IsGreatest (b'.bearing.deliverable 15) ((9 / 10) ^ 2 * M) ∧
      (9 / 10) ^ 2 * M < M := by
  have hbuild : Physical.build Geometry.prototype = .ok (Geometry.prototype : Geometry ℝ).derive :=
    build_of_valid Geometry.prototype_valid
  obtain ⟨b', hb', -, -, -, -, hbound, hdel⟩ := saturationField_scales hbuild (by norm_num : (0 : ℝ) < 9 / 10)
  obtain ⟨-, M, hpos, hM, hM', hlt⟩ := hdel 15
  exact ⟨_, b', hbuild, hb', hbound, M, hpos, hM, hM', hlt (by norm_num)⟩

end Physical

end MagneticBearing
