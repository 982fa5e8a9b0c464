/-
  MagneticBearing.Proofs.Deliverable — the forces that a bearing delivers without saturating.

  By symmetry the directions between pole one and the next axis stand for all (`exists_in_sector`). For
  such a direction the fields are ordered as the force's own poles are (`eq_along`), so pole one has the
  largest. Its control field `p` then determines the rest: the half difference of the other two solves a
  quadratic (`spread`, `spread_unique`). This makes the solutions that matter a curve, `along`, which starts
  at no field with no force and has the peak field `p` plus the bias (`peakField_along`).

  Up to a control field as large as the bias the curve stays inside the fold circle. There no two of its
  points have one force, and the force's magnitude is continuous, so it grows (`strictMonoOn_magnitude`).

  - `exists_isGreatest`: whatever the bias, there is a largest deliverable magnitude, since the unsaturated
    fields are compact.
  - `deliverable_interval`: with a bias of at least half the saturation field the deliverable magnitudes are
    an interval from zero to a largest one, where the exact residual changes sign and nowhere else. So where
    the bracketed search of the rating finds a change of sign, it found the largest.
-/

import MagneticBearing.Proofs.Fold
import MagneticBearing.Proofs.RatingSearch
import MagneticBearing.Proofs.Symmetry

namespace MagneticBearing

/-! ## Deliverable forces -/

namespace RatedBearing

variable (b : RatedBearing ℝ)

/-- The magnitudes that some unsaturated space vector yields exactly. -/
def deliverable (direction : ℝ) : Set ℝ :=
  {m | 0 ≤ m ∧ ∃ s : SpaceVector ℝ, b.law.ofVector s = Allocator.target direction m ∧ b.saturated s.toPoles = false}

/-- How far the least peak field of all exact solutions is above the limit. -/
noncomputable def exactResidual (direction magnitude : ℝ) : ℝ := sInf (b.peakFields direction magnitude) - b.limit

end RatedBearing

namespace Physical

variable {b : Physical ℝ} {e : Poles ℝ} {d m p : ℝ}

theorem mem_deliverable_iff : m ∈ b.bearing.deliverable d ↔
    0 ≤ m ∧ ∃ p ∈ b.bearing.peakFields d m, p ≤ b.saturationField := by
  refine and_congr_right fun _ => ?_
  constructor
  · rintro ⟨s, hs, hsat⟩
    exact ⟨_, ⟨s, hs, rfl⟩, unsaturated_iff_peakField.mp hsat⟩
  · rintro ⟨_, ⟨s, hs, rfl⟩, hle⟩
    exact ⟨s, hs, unsaturated_iff_peakField.mpr hle⟩

end Physical

/-! ## Directions next to pole one -/

/-- Between the axis of pole one and the axis a sixth of a turn on. -/
structure InSector (u : Cx ℝ) : Prop where
  re_pos : 0 < u.re
  im_nonneg : 0 ≤ u.im
  im_le : u.im ≤ √3 * u.re

namespace Allocator

theorem target_eq_scale (d m : ℝ) : target d m = Cx.scale m (target d 1) := by
  rw [← Cx.toComplex_inj, Cx.toComplex_scale, toComplex_target, toComplex_target, Complex.ofReal_one, one_mul]

theorem inSector_target {d : ℝ} (hd : d ∈ Set.Icc (0 : ℝ) 60) : InSector (target d 1) := by
  have hpi := Real.pi_pos
  have h0 : 0 ≤ d * Real.pi / 180 := by
    have := hd.1
    positivity
  have h60 : d * Real.pi / 180 ≤ Real.pi / 3 := by
    have := mul_le_mul_of_nonneg_right hd.2 hpi.le
    linarith
  have hre : (target d 1).re = Real.cos (d * Real.pi / 180) := by
    rw [← Cx.toComplex_re, toComplex_target, Complex.ofReal_one, one_mul, Complex.exp_ofReal_mul_I_re]
  have him : (target d 1).im = Real.sin (d * Real.pi / 180) := by
    rw [← Cx.toComplex_im, toComplex_target, Complex.ofReal_one, one_mul, Complex.exp_ofReal_mul_I_im]
  refine ⟨?_, ?_, ?_⟩
  · rw [hre]
    exact Real.cos_pos_of_mem_Ioo ⟨by linarith, by linarith⟩
  · rw [him]
    exact Real.sin_nonneg_of_nonneg_of_le_pi h0 (by linarith)
  · -- What is left to a sixth of a turn has a sine too.
    have hrest : 0 ≤ Real.sin (Real.pi / 3 - d * Real.pi / 180) :=
      Real.sin_nonneg_of_nonneg_of_le_pi (by linarith) (by linarith)
    rw [Real.sin_sub, Real.sin_pi_div_three, Real.cos_pi_div_three] at hrest
    rw [hre, him]
    linarith

end Allocator

namespace SpaceVector

/-- The space vector with the field `p` in pole one and the half difference `w` between the others. -/
noncomputable def ofFields (p w : ℝ) : SpaceVector ℝ := ⟨1.5 * p, √3.0 * w⟩

theorem ofFields_eq (p w : ℝ) : ofFields p w = ⟨3 / 2 * p, √3 * w⟩ := by
  have h15 : (1.5 : ℝ) = 3 / 2 := by norm_num
  simp only [ofFields, h15, Exact.three_eq]

theorem toPoles_ofFields (p w : ℝ) : (ofFields p w).toPoles = ⟨p, -(p / 2) + w, -(p / 2) - w⟩ := by
  have h3 : √3 ≠ (0 : ℝ) := by positivity
  have e : √3 * w / √3 = w := mul_div_cancel_left₀ w h3
  rw [ofFields_eq, toPoles_eq]
  simp only [e, Poles.mk.injEq]
  refine ⟨by ring, by ring, by ring⟩

theorem exists_ofFields (s : SpaceVector ℝ) : ∃ w, s = ofFields s.toPoles.p1 w := by
  have h3 : √3 ≠ (0 : ℝ) := by positivity
  refine ⟨s.im / √3, ?_⟩
  rw [ofFields_eq, toPoles_eq, ← Cx.toComplex_inj]
  apply Complex.ext
  · show s.re = 3 / 2 * (2 / 3 * s.re)
    ring
  · exact (mul_div_cancel₀ s.im h3).symm

/-- With its largest field in pole one a space vector is no longer than three times that. -/
theorem norm_ofFields_le {p w : ℝ} (h0 : 0 ≤ w) (hw : w ≤ 3 / 2 * p) : ‖(ofFields p w).toComplex‖ ≤ 3 * p := by
  apply norm_le_of_toPoles_le
  · rw [toPoles_ofFields]
  · rw [toPoles_ofFields]
    linarith
  · rw [toPoles_ofFields]
    linarith

end SpaceVector

/-! ## The curve of solutions -/

/-- The positive root of a quadratic, written without a division by its leading coefficient. -/
theorem quadratic_root_iff {a n s w : ℝ} (ha : 0 < a) (hn : 0 ≤ n) (hs : 0 ≤ s) (hw : 0 ≤ w) :
    s * w ^ 2 + a * w = n * s ↔ w = 2 * n * s / (a + √(a ^ 2 + 4 * s ^ 2 * n)) := by
  have hdisc : 0 ≤ a ^ 2 + 4 * s ^ 2 * n := by positivity
  have hd : 0 < a + √(a ^ 2 + 4 * s ^ 2 * n) := by positivity
  have hsq := Real.sq_sqrt hdisc
  have hroot := Real.sqrt_nonneg (a ^ 2 + 4 * s ^ 2 * n)
  rw [eq_div_iff hd.ne']
  generalize √(a ^ 2 + 4 * s ^ 2 * n) = r at hd hsq hroot
  constructor
  · intro h
    have hr : r = 2 * s * w + a := by
      refine (sq_eq_sq₀ hroot (by positivity)).mp ?_
      linear_combination hsq - 4 * s * h
    rw [hr]
    linear_combination 2 * h
  · intro h
    -- The square root is linear in the root.
    have hr : 2 * s * w = r - a := by
      refine mul_right_cancel₀ hd.ne' ?_
      linear_combination 2 * s * h - hsq
    linear_combination (1 / 2) * h + (w / 2) * hr

namespace Physical

variable (b : Physical ℝ) (u : Cx ℝ)

/-- The force along pole one with the field `p` there and equal fields in the others, per `k1`. -/
noncomputable def pull (p : ℝ) : ℝ := 0.75 * p ^ 2 + 3.0 * b.bias * p

/-- The half difference of the other fields that turns the force into the direction of `u`. -/
noncomputable def spread (p : ℝ) : ℝ :=
  2.0 * b.pull p * u.im / (√3.0 * (2.0 * b.bias - p) * u.re +
    √((√3.0 * (2.0 * b.bias - p) * u.re) ^ 2 + 4.0 * u.im ^ 2 * b.pull p))

/-- The solution in the direction of `u` with the control field `p` in pole one. -/
noncomputable def along (p : ℝ) : SpaceVector ℝ := SpaceVector.ofFields p (b.spread u p)

/-- The magnitude of its force. -/
noncomputable def magnitude (p : ℝ) : ℝ := b.k1 * (b.pull p - b.spread u p ^ 2) / u.re

theorem pull_eq (p : ℝ) : b.pull p = 3 / 4 * p ^ 2 + 3 * b.bias * p := by
  have h75 : (0.75 : ℝ) = 3 / 4 := by norm_num
  simp only [pull, h75, Exact.three_eq]

theorem spread_eq (p : ℝ) : b.spread u p = 2 * b.pull p * u.im / (√3 * (2 * b.bias - p) * u.re +
    √((√3 * (2 * b.bias - p) * u.re) ^ 2 + 4 * u.im ^ 2 * b.pull p)) := by
  have h4 : (4.0 : ℝ) = 4 := by norm_num
  simp only [spread, h4, Exact.two_eq, Exact.three_eq]

theorem force_ofFields (p w : ℝ) : b.bearing.law.ofVector (SpaceVector.ofFields p w) =
    ⟨b.k1 * (b.pull p - w ^ 2), b.k1 * (√3 * w * (2 * b.bias - p))⟩ := by
  have h3 : √3 * √3 = (3 : ℝ) := Real.mul_self_sqrt (by norm_num)
  rw [ForceLaw.ofVector_eq_iff, SpaceVector.ofFields_eq, pull_eq]
  show b.k1 / 3 * ((3 / 2 * p) ^ 2 - (√3 * w) ^ 2) + 2.0 * b.bias * b.k1 * (3 / 2 * p) = _ ∧
    √3 * w * (2.0 * b.bias * b.k1 - 2 * b.k1 / 3 * (3 / 2 * p)) = _
  rw [Exact.two_eq]
  constructor
  · linear_combination (-b.k1 / 3 * w ^ 2) * h3
  · ring

theorem magnitude_zero (b : Physical ℝ) (u : Cx ℝ) : b.magnitude u 0 = 0 := by
  have hpull : b.pull 0 = 0 := by
    rw [pull_eq]
    ring
  unfold magnitude
  rw [spread_eq, hpull]
  simp

variable {b u} {p w m : ℝ} (hb : b.Sound) (hu : InSector u)

include hb

theorem pull_nonneg (h0 : 0 ≤ p) : 0 ≤ b.pull p := by
  have := hb.bias_pos.le
  rw [pull_eq]
  positivity

include hu

/-- The force has the direction of `u` for one half difference only. -/
theorem spread_unique (h0 : 0 ≤ p) (hp : p < 2 * b.bias) (hw : 0 ≤ w) :
    √3 * w * (2 * b.bias - p) * u.re = (b.pull p - w ^ 2) * u.im ↔ w = b.spread u p := by
  have hre := hu.re_pos
  have ha : 0 < √3 * (2 * b.bias - p) * u.re := by
    have : 0 < 2 * b.bias - p := by linarith
    positivity
  rw [spread_eq, ← quadratic_root_iff ha (pull_nonneg hb h0) hu.im_nonneg hw]
  constructor <;> intro h <;> linear_combination h

theorem spread_nonneg (h0 : 0 ≤ p) (hp : p < 2 * b.bias) : 0 ≤ b.spread u p := by
  have hre := hu.re_pos
  have him := hu.im_nonneg
  have hpull := pull_nonneg hb h0
  have ha : 0 < √3 * (2 * b.bias - p) * u.re := by
    have : 0 < 2 * b.bias - p := by linarith
    positivity
  rw [spread_eq]
  positivity

theorem spread_spec (h0 : 0 ≤ p) (hp : p < 2 * b.bias) :
    √3 * b.spread u p * (2 * b.bias - p) * u.re = (b.pull p - b.spread u p ^ 2) * u.im :=
  (spread_unique hb hu h0 hp (spread_nonneg hb hu h0 hp)).mpr rfl

/-- Pole one keeps the largest field. -/
theorem spread_le (h0 : 0 ≤ p) (hp : p < 2 * b.bias) : b.spread u p ≤ 3 / 2 * p := by
  have hspec := spread_spec hb hu h0 hp
  have hre := hu.re_pos
  have hgap : 0 < 2 * b.bias - p := by linarith
  rw [pull_eq] at hspec
  generalize b.spread u p = w at hspec
  by_contra hlt
  have hsq : (3 / 2 * p) ^ 2 < w ^ 2 := by
    have := not_le.mp hlt
    gcongr
  have hle : 3 / 4 * p ^ 2 + 3 * b.bias * p - w ^ 2 ≤ 3 / 2 * p * (2 * b.bias - p) := by linarith
  refine absurd hspec (ne_of_gt ?_)
  calc (3 / 4 * p ^ 2 + 3 * b.bias * p - w ^ 2) * u.im ≤ 3 / 2 * p * (2 * b.bias - p) * u.im :=
        mul_le_mul_of_nonneg_right hle hu.im_nonneg
    _ ≤ 3 / 2 * p * (2 * b.bias - p) * (√3 * u.re) := by
        have := hu.im_le
        gcongr
    _ = √3 * (3 / 2 * p) * (2 * b.bias - p) * u.re := by ring
    _ < √3 * w * (2 * b.bias - p) * u.re := by
        have := not_le.mp hlt
        gcongr

theorem force_along (h0 : 0 ≤ p) (hp : p < 2 * b.bias) :
    b.bearing.law.ofVector (b.along u p) = Cx.scale (b.magnitude u p) u := by
  have hspec := spread_spec hb hu h0 hp
  have hre := hu.re_pos.ne'
  unfold along magnitude
  rw [force_ofFields]
  show (⟨_, _⟩ : Cx ℝ) = ⟨_, _⟩
  rw [Cx.mk.injEq]
  constructor
  · field_simp
  · field_simp
    linear_combination b.k1 * hspec

theorem le_magnitude (h0 : 0 ≤ p) (hp : p < 2 * b.bias) :
    3 / 2 * b.k1 * p * (2 * b.bias - p) ≤ b.magnitude u p * u.re := by
  have hk := hb.k1_pos.le
  have hsq : b.spread u p ^ 2 ≤ (3 / 2 * p) ^ 2 := by
    have h1 := spread_nonneg hb hu h0 hp
    have h2 := spread_le hb hu h0 hp
    gcongr
  have hre := hu.re_pos.ne'
  have e : b.magnitude u p * u.re = b.k1 * (b.pull p - b.spread u p ^ 2) := by
    unfold magnitude
    field_simp
  rw [e, pull_eq]
  calc 3 / 2 * b.k1 * p * (2 * b.bias - p) = b.k1 * (3 / 4 * p ^ 2 + 3 * b.bias * p - (3 / 2 * p) ^ 2) := by ring
    _ ≤ b.k1 * (3 / 4 * p ^ 2 + 3 * b.bias * p - b.spread u p ^ 2) := by gcongr

/-- The largest total field on the curve is that of pole one. -/
theorem peakField_along (h0 : 0 ≤ p) (hp : p < 2 * b.bias) : b.bearing.peakField (b.along u p).toPoles = p + b.bias := by
  have h1 := spread_nonneg hb hu h0 hp
  have h2 := spread_le hb hu h0 hp
  have hbias := hb.bias_pos
  unfold along RatedBearing.peakField
  rw [SpaceVector.toPoles_ofFields, Poles.peak_eq]
  show max (max |p + b.bias| |-(p / 2) + b.spread u p + b.bias|) |-(p / 2) - b.spread u p + b.bias| = _
  rw [abs_of_nonneg (by positivity : 0 ≤ p + b.bias), max_eq_left, max_eq_left]
  · exact abs_le.mpr ⟨by linarith, by linarith⟩
  · rw [max_eq_left]
    · exact abs_le.mpr ⟨by linarith, by linarith⟩
    · exact abs_le.mpr ⟨by linarith, by linarith⟩

section Order

variable (hm : 0 ≤ m) (h : b.bearing.law.ofVector (SpaceVector.ofFields p w) = Cx.scale m u)

include hm h

/-- Pole two has no less field than pole three, as it has no less of the force. -/
theorem spread_nonneg_of_force (hp : p < 2 * b.bias) : 0 ≤ w := by
  have hk := hb.k1_pos
  have hgap : 0 < 2 * b.bias - p := by linarith
  have hpos : 0 < b.k1 * √3 * (2 * b.bias - p) := by positivity
  rw [force_ofFields] at h
  obtain ⟨-, him⟩ := Cx.mk.inj h
  have e : b.k1 * √3 * (2 * b.bias - p) * w = m * u.im := by linear_combination him
  rw [← mul_nonneg_iff_of_pos_left hpos, e]
  exact mul_nonneg hm hu.im_nonneg

/-- Pole one has no less field than pole two. -/
theorem spread_le_of_force (hp : -(p / 2) - w < 2 * b.bias) : w ≤ 3 / 2 * p := by
  have hk := hb.k1_pos
  have hgap : 0 < 2 * b.bias + p / 2 + w := by linarith
  have hpos : 0 < √3 * b.k1 * (2 * b.bias + p / 2 + w) := by positivity
  rw [force_ofFields, pull_eq] at h
  obtain ⟨hre, him⟩ := Cx.mk.inj h
  have e : √3 * b.k1 * (2 * b.bias + p / 2 + w) * (3 / 2 * p - w) = m * (√3 * u.re - u.im) := by
    linear_combination √3 * hre - him
  rw [← sub_nonneg, ← mul_nonneg_iff_of_pos_left hpos, e]
  exact mul_nonneg hm (sub_nonneg.mpr hu.im_le)

end Order

/-- A solution in the direction of `u` is on the curve, unless a field of it is above twice the bias. -/
theorem eq_along {s : SpaceVector ℝ} (hm : 0 ≤ m) (h : b.bearing.law.ofVector s = Cx.scale m u)
    (h1 : s.toPoles.p1 < 2 * b.bias) (h3 : s.toPoles.p3 < 2 * b.bias) :
    0 ≤ s.toPoles.p1 ∧ s = b.along u s.toPoles.p1 ∧ m = b.magnitude u s.toPoles.p1 := by
  obtain ⟨w, hs⟩ := SpaceVector.exists_ofFields s
  generalize s.toPoles.p1 = p at hs h1
  subst hs
  rw [SpaceVector.toPoles_ofFields] at h3
  have hw := spread_nonneg_of_force hb hu hm h h1
  have hwp := spread_le_of_force hb hu hm h h3
  have h0 : 0 ≤ p := by linarith
  rw [force_ofFields] at h
  obtain ⟨hre, him⟩ := Cx.mk.inj h
  have hspread : w = b.spread u p := by
    rw [← spread_unique hb hu h0 h1 hw]
    refine mul_left_cancel₀ hb.k1_pos.ne' ?_
    linear_combination u.re * him - u.im * hre
  subst hspread
  refine ⟨h0, rfl, ?_⟩
  have hure := hu.re_pos.ne'
  unfold magnitude
  rw [hre]
  field_simp

theorem magnitude_pos (h0 : 0 < p) (hp : p < 2 * b.bias) : 0 < b.magnitude u p := by
  have hle := le_magnitude hb hu h0.le hp
  have hk := hb.k1_pos
  have hgap : 0 < 2 * b.bias - p := by linarith
  exact pos_of_mul_pos_left (lt_of_lt_of_le (by positivity) hle) hu.re_pos.le

omit hb in
theorem continuousOn_spread : ContinuousOn (b.spread u) (Set.Ico 0 (2 * b.bias)) := by
  have hre := hu.re_pos
  have hpull : Continuous b.pull := by
    have e : b.pull = fun p => 3 / 4 * p ^ 2 + 3 * b.bias * p := funext b.pull_eq
    rw [e]
    fun_prop
  have e : b.spread u = fun p => 2 * b.pull p * u.im / (√3 * (2 * b.bias - p) * u.re +
      √((√3 * (2 * b.bias - p) * u.re) ^ 2 + 4 * u.im ^ 2 * b.pull p)) := funext (b.spread_eq u)
  rw [e]
  refine ContinuousOn.div (by fun_prop) (by fun_prop) fun p hp => ?_
  have hgap : 0 < 2 * b.bias - p := by linarith [hp.2]
  positivity

theorem continuousOn_magnitude : ContinuousOn (b.magnitude u) (Set.Icc 0 b.bias) := by
  have hbias := hb.bias_pos
  have hspread : ContinuousOn (b.spread u) (Set.Icc 0 b.bias) :=
    (continuousOn_spread hu).mono fun p hp => ⟨hp.1, by linarith [hp.2]⟩
  have e : b.magnitude u = fun p => b.k1 * (3 / 4 * p ^ 2 + 3 * b.bias * p - b.spread u p ^ 2) / u.re := by
    funext p
    rw [← pull_eq]
    rfl
  rw [e]
  fun_prop

/-- Inside the fold circle no two points of the curve have one force. -/
theorem injOn_magnitude : Set.InjOn (b.magnitude u) (Set.Icc 0 b.bias) := by
  have hbias := hb.bias_pos
  have hinside {p : ℝ} (hp : p ∈ Set.Icc 0 b.bias) : ‖(b.along u p).toComplex‖ ≤ b.bearing.law.foldRadius := by
    have hp2 : p < 2 * b.bias := by linarith [hp.2]
    have hle := SpaceVector.norm_ofFields_le (spread_nonneg hb hu hp.1 hp2) (spread_le hb hu hp.1 hp2)
    rw [foldRadius_eq hb]
    exact hle.trans (by linarith [hp.2])
  intro p hp q hq h
  have hforce : b.bearing.law.ofVector (b.along u p) = b.bearing.law.ofVector (b.along u q) := by
    rw [force_along hb hu hp.1 (by linarith [hp.2]), force_along hb hu hq.1 (by linarith [hq.2]), h]
  have heq : b.along u p = b.along u q :=
    ForceLaw.eq_of_same_force hb.k1_pos hb.linear_pos hforce (hinside hp) (hinside hq)
  have hp1 := congrArg (fun s => (SpaceVector.toPoles s).p1) heq
  unfold along at hp1
  simp only [SpaceVector.toPoles_ofFields] at hp1
  exact hp1

theorem strictMonoOn_magnitude : StrictMonoOn (b.magnitude u) (Set.Icc 0 b.bias) := by
  have hbias := hb.bias_pos
  refine (continuousOn_magnitude hb hu).strictMonoOn_of_injOn_Icc hbias.le ?_ (injOn_magnitude hb hu)
  rw [magnitude_zero]
  exact (magnitude_pos hb hu hbias (by linarith)).le

end Physical

/-! ## The largest deliverable force -/

theorem RatedBearing.exactResidual_eq {b : RatedBearing ℝ} {d m p : ℝ} (h : IsLeast (b.peakFields d m) p) :
    b.exactResidual d m = p - b.limit := by
  unfold exactResidual
  rw [h.csInf_eq]

namespace Physical

variable {b : Physical ℝ} {d m p : ℝ}

section Sector

variable (hb : b.Sound) (hz : 1 / 2 ≤ b.biasFraction) (hu : InSector (Allocator.target d 1))

include hb hz hu

/-- An unsaturated solution is on the curve, with no more field than the bias leaves. -/
theorem along_of_unsaturated {s : SpaceVector ℝ} (hm : 0 ≤ m)
    (hs : b.bearing.law.ofVector s = Allocator.target d m) (hsat : b.bearing.saturated s.toPoles = false) :
    ∃ p ∈ Set.Icc 0 (b.saturationField - b.bias), s = b.along (Allocator.target d 1) p ∧
      m = b.magnitude (Allocator.target d 1) p := by
  have hbias := hb.bias_pos
  have hroom := headroom_le_bias hb hz
  obtain ⟨h1, -, h3⟩ := unsaturated_iff.mp hsat
  have hp1 := (le_abs_self _).trans h1
  have hp3 := (le_abs_self _).trans h3
  rw [Allocator.target_eq_scale] at hs
  obtain ⟨h0, hs, hm⟩ := eq_along hb hu hm hs (by linarith) (by linarith)
  exact ⟨_, ⟨h0, by linarith⟩, hs, hm⟩

variable (hp : p ∈ Set.Icc 0 (b.saturationField - b.bias))

include hp

theorem mem_peakFields_along :
    p + b.bias ∈ b.bearing.peakFields d (b.magnitude (Allocator.target d 1) p) := by
  have hp2 : p < 2 * b.bias := by linarith [hp.2, headroom_le_bias hb hz, hb.bias_pos]
  exact ⟨_, (force_along hb hu hp.1 hp2).trans (Allocator.target_eq_scale d _).symm, peakField_along hb hu hp.1 hp2⟩

/-- No other solution has less peak field: it would be unsaturated, and so on the curve too. -/
theorem isLeast_peakFields_along :
    IsLeast (b.bearing.peakFields d (b.magnitude (Allocator.target d 1) p)) (p + b.bias) := by
  have hroom := headroom_le_bias hb hz
  refine ⟨mem_peakFields_along hb hz hu hp, ?_⟩
  rintro _ ⟨t, ht, rfl⟩
  show p + b.bias ≤ b.bearing.peakField t.toPoles
  by_contra hlt
  have hm : 0 ≤ b.magnitude (Allocator.target d 1) p := by
    rw [← magnitude_zero b (Allocator.target d 1)]
    exact (strictMonoOn_magnitude hb hu).monotoneOn ⟨le_refl 0, hb.bias_pos.le⟩ ⟨hp.1, hp.2.trans hroom⟩ hp.1
  have hsat : b.bearing.saturated t.toPoles = false := by
    rw [unsaturated_iff_peakField]
    linarith [hp.2, not_le.mp hlt]
  obtain ⟨q, hq, rfl, hmq⟩ := along_of_unsaturated hb hz hu hm ht hsat
  have hpq : p = q := injOn_magnitude hb hu ⟨hp.1, hp.2.trans hroom⟩ ⟨hq.1, hq.2.trans hroom⟩ hmq
  rw [peakField_along hb hu hq.1 (by linarith [hq.2, hb.bias_pos]), hpq] at hlt
  exact hlt (le_refl _)

omit hp

/-- The deliverable magnitudes are those on the curve, up to where pole one saturates. -/
theorem deliverable_sector : b.bearing.deliverable d =
    Set.Icc 0 (b.magnitude (Allocator.target d 1) (b.saturationField - b.bias)) := by
  have hroom := headroom_le_bias hb hz
  have hpos : 0 ≤ b.saturationField - b.bias := sub_nonneg.mpr hb.bias_lt.le
  ext m
  constructor
  · rintro ⟨hm, s, hs, hsat⟩
    obtain ⟨p, hp, -, rfl⟩ := along_of_unsaturated hb hz hu hm hs hsat
    exact ⟨hm, (strictMonoOn_magnitude hb hu).monotoneOn ⟨hp.1, hp.2.trans hroom⟩ ⟨hpos, hroom⟩ hp.2⟩
  · intro hm
    have hcont := (continuousOn_magnitude hb hu).mono (Set.Icc_subset_Icc_right hroom)
    have hivt := intermediate_value_Icc hpos hcont
    rw [magnitude_zero] at hivt
    obtain ⟨p, hp, rfl⟩ := hivt hm
    exact mem_deliverable_iff.mpr ⟨hm.1, p + b.bias, mem_peakFields_along hb hz hu hp, by linarith [hp.2]⟩

/-- The residual is negative below the largest deliverable magnitude, zero there and positive above. -/
theorem sign_exactResidual_sector (hm : 0 ≤ m) : SignType.sign (b.bearing.exactResidual d m) =
    SignType.sign (m - b.magnitude (Allocator.target d 1) (b.saturationField - b.bias)) := by
  have hroom := headroom_le_bias hb hz
  have hpos : 0 ≤ b.saturationField - b.bias := sub_nonneg.mpr hb.bias_lt.le
  rcases le_or_gt m (b.magnitude (Allocator.target d 1) (b.saturationField - b.bias)) with hle | hgt
  · have hmem : m ∈ b.bearing.deliverable d := by
      rw [deliverable_sector hb hz hu]
      exact ⟨hm, hle⟩
    obtain ⟨-, s, hs, hsat⟩ := hmem
    obtain ⟨p, hp, -, rfl⟩ := along_of_unsaturated hb hz hu hm hs hsat
    rw [RatedBearing.exactResidual_eq (isLeast_peakFields_along hb hz hu hp)]
    show SignType.sign (p + b.bias - b.saturationField) = _
    rcases hp.2.lt_or_eq with hlt | heq
    · have hmono := strictMonoOn_magnitude hb hu ⟨hp.1, hp.2.trans hroom⟩ ⟨hpos, hroom⟩ hlt
      rw [sign_neg (by linarith), sign_neg (by linarith)]
    · rw [← heq, sub_self, sign_zero, sign_eq_zero_iff]
      linarith
  · obtain ⟨p, hleast⟩ := RatedBearing.exists_least_peakField (b := b.bearing) hb.k1_pos hb.linear_pos d m
    have habove : b.bearing.limit < p := by
      by_contra hlt
      have hmem : m ∈ b.bearing.deliverable d := mem_deliverable_iff.mpr ⟨hm, p, hleast.1, not_lt.mp hlt⟩
      rw [deliverable_sector hb hz hu] at hmem
      exact absurd hmem.2 (not_le.mpr hgt)
    rw [RatedBearing.exactResidual_eq hleast, sign_pos (sub_pos.mpr habove), sign_pos (sub_pos.mpr hgt)]

end Sector

/-- Every direction has a largest deliverable magnitude, where the residual changes sign. -/
theorem exists_largest (hb : b.Sound) (hz : 1 / 2 ≤ b.biasFraction) (d : ℝ) :
    ∃ M, 0 < M ∧ b.bearing.deliverable d = Set.Icc 0 M ∧
      ∀ m, 0 ≤ m → SignType.sign (b.bearing.exactResidual d m) = SignType.sign (m - M) := by
  obtain ⟨d', hd', hsame⟩ := b.bearing.exists_in_sector d
  have hu := Allocator.inSector_target hd'
  have hdel : b.bearing.deliverable d = b.bearing.deliverable d' := by
    ext m
    rw [mem_deliverable_iff, mem_deliverable_iff, hsame]
  refine ⟨b.magnitude (Allocator.target d' 1) (b.saturationField - b.bias), ?_, ?_, ?_⟩
  · exact magnitude_pos hb hu (sub_pos.mpr hb.bias_lt) (by linarith [headroom_le_bias hb hz, hb.bias_pos])
  · rw [hdel, deliverable_sector hb hz hu]
  · intro m hm
    unfold RatedBearing.exactResidual
    rw [hsame]
    exact sign_exactResidual_sector hb hz hu hm

theorem le_hexagonBound (hb : b.Sound) (hm : m ∈ b.bearing.deliverable d) : m ≤ b.bearing.hexagonBound := by
  obtain ⟨h0, s, hs, hsat⟩ := hm
  have hle := norm_force_le hb hsat
  rwa [ForceLaw.ofPoles_toPoles, hs, Allocator.norm_target h0] at hle

theorem isCompact_unsaturated (b : Physical ℝ) :
    IsCompact {z : ℂ | b.bearing.saturated (SpaceVector.toPoles ⟨z.re, z.im⟩) = false} := by
  refine (isCompact_closedBall 0 (2 * b.saturationField)).of_isClosed_subset ?_ fun z hz => ?_
  · have hclosed {f : ℂ → ℝ} (hf : Continuous f) : IsClosed {z | |f z + b.bias| ≤ b.saturationField} :=
      isClosed_le (hf.add continuous_const).abs continuous_const
    have hre := Complex.continuous_re
    have him := Complex.continuous_im
    simp only [unsaturated_iff, SpaceVector.toPoles_eq]
    exact (hclosed (f := fun z => 2 / 3 * z.re) (by fun_prop)).inter
      ((hclosed (f := fun z => -(1 / 3) * z.re + z.im / √3) (by fun_prop)).inter
        (hclosed (f := fun z => -(1 / 3) * z.re - z.im / √3) (by fun_prop)))
  · rw [mem_closedBall_zero_iff]
    exact norm_le_of_unsaturated hz

/-- The unsaturated space vectors are compact, and so are the forces that they yield. -/
theorem isClosed_deliverable (b : Physical ℝ) (d : ℝ) : IsClosed (b.bearing.deliverable d) := by
  have hforce : Continuous b.bearing.law.onPlane := by
    rw [funext b.bearing.law.onPlane_eq]
    have := Complex.continuous_conj
    fun_prop
  have htarget : Continuous fun m => (Allocator.target d m).toComplex := by
    rw [funext (Allocator.toComplex_target d)]
    fun_prop
  have e : b.bearing.deliverable d = Set.Ici 0 ∩ Set.preimage (fun m => (Allocator.target d m).toComplex)
      (b.bearing.law.onPlane '' {z | b.bearing.saturated (SpaceVector.toPoles ⟨z.re, z.im⟩) = false}) := by
    ext m
    refine and_congr_right fun _ => ?_
    constructor
    · rintro ⟨s, hs, hsat⟩
      refine ⟨s.toComplex, hsat, ?_⟩
      rw [← ForceLaw.toComplex_ofVector, hs]
    · rintro ⟨z, hsat, hz⟩
      exact ⟨⟨z.re, z.im⟩, Cx.toComplex_inj.mp hz, hsat⟩
  rw [e]
  exact isClosed_Ici.inter (((isCompact_unsaturated b).image hforce).isClosed.preimage htarget)

/-- Every bias leaves room for some force in every direction, so there is a largest deliverable one. -/
theorem exists_isGreatest (hb : b.Sound) (d : ℝ) : ∃ M, 0 < M ∧ IsGreatest (b.bearing.deliverable d) M := by
  have hbias := hb.bias_pos
  have hroom := sub_pos.mpr hb.bias_lt
  obtain ⟨d', hd', hsame⟩ := b.bearing.exists_in_sector d
  have hu := Allocator.inSector_target hd'
  -- Half the bias, or what the bias leaves: a point on the curve either way.
  obtain ⟨p, hp, hp2, hpB⟩ : ∃ p, 0 < p ∧ p < 2 * b.bias ∧ p + b.bias ≤ b.saturationField := by
    refine ⟨min b.bias (b.saturationField - b.bias), lt_min hbias hroom, ?_, ?_⟩
    · linarith [min_le_left b.bias (b.saturationField - b.bias)]
    · linarith [min_le_right b.bias (b.saturationField - b.bias)]
  have hpos := magnitude_pos hb hu hp hp2
  have hmem : b.magnitude (Allocator.target d' 1) p ∈ b.bearing.deliverable d := by
    rw [mem_deliverable_iff, hsame]
    refine ⟨hpos.le, p + b.bias, ⟨b.along (Allocator.target d' 1) p, ?_, peakField_along hb hu hp.le hp2⟩, hpB⟩
    exact (force_along hb hu hp.le hp2).trans (Allocator.target_eq_scale d' _).symm
  have hbound : BddAbove (b.bearing.deliverable d) := ⟨b.bearing.hexagonBound, fun m hm => le_hexagonBound hb hm⟩
  refine ⟨sSup (b.bearing.deliverable d), lt_of_lt_of_le hpos (le_csSup hbound hmem), ?_⟩
  exact (isClosed_deliverable b d).isGreatest_csSup ⟨_, hmem⟩ hbound

end Physical

/-- A point between two others is nearer to each than they are to each other. -/
theorem abs_sub_le_of_between {m x M : ℝ} (h : (m - M) * (x - M) < 0) : |m - M| ≤ |m - x| := by
  rcases mul_neg_iff.mp h with ⟨h1, h2⟩ | ⟨h1, h2⟩
  · rw [abs_of_pos h1, abs_of_pos (by linarith)]
    linarith
  · rw [abs_of_neg h1, abs_of_neg (by linarith)]
    linarith

/-- Where the objective has one change of sign, but for an uncertainty `δ`, the search answers next to it. -/
theorem Search.Brent.Located.near {ε : Type} {f : ℝ → Except ε ℝ} {a b m M δ : ℝ} (ha : 0 < a) (hb : 0 < b)
    (hδ : 0 ≤ δ) (hsign : ∀ x y, 0 ≤ x → δ < |x - M| → f x = .ok y → SignType.sign y = SignType.sign (x - M))
    (h : Located f a b m) : |m - M| < δ + (2 / 10 ^ 12 + 4 * Arith.epsilon * m) := by
  have hpos {x : ℝ} (hx : x ∈ Set.uIcc a b) : 0 < x := lt_of_lt_of_le (lt_min ha hb) hx.1
  obtain ⟨hmem, y, hy, hvalue⟩ := h
  have hm := hpos hmem
  have hslack : 0 < 2 / 10 ^ 12 + 4 * Arith.epsilon * m := by
    rw [Arith.epsilon_eq]
    positivity
  by_cases hfar : δ < |m - M|
  · have hsy := hsign m y hm.le hfar hy
    rcases hvalue with rfl | ⟨x, z, hz, hx, hopp, -, hnear⟩
    · rw [sign_zero, eq_comm, sign_eq_zero_iff] at hsy
      rw [hsy, abs_zero]
      positivity
    · rw [abs_of_pos hm] at hnear
      by_cases hfar' : δ < |x - M|
      · have hsz := hsign x z (hpos hx).le hfar' hz
        have hbetween : (m - M) * (x - M) < 0 := by
          rw [← sign_eq_neg_one_iff, sign_mul, ← hsy, ← hsz, ← sign_mul, sign_eq_neg_one_iff]
          exact hopp
        linarith [abs_sub_le_of_between hbetween]
      · linarith [abs_sub_le m x M, not_lt.mp hfar']
  · linarith [not_lt.mp hfar]

namespace Physical

variable {b : Physical ℝ}

/-- With a bias of at least half the saturation field, the magnitudes that are deliverable in a direction are all
from zero to a largest one, which the hexagon bound bounds. The exact residual changes sign there and nowhere else.
So the bracketed search answers with the largest, up to its own tolerance, if what it sees has the sign of the exact
residual. It may differ within some distance of the largest, and then the answer is off by that much more. -/
theorem deliverable_interval (hb : b.Made) (hz : 1 / 2 ≤ b.biasFraction) (direction : ℝ) :
    ∃ M, 0 < M ∧ M ≤ b.bearing.hexagonBound ∧ b.bearing.deliverable direction = Set.Icc 0 M ∧
      (∀ m, 0 ≤ m → SignType.sign (b.bearing.exactResidual direction m) = SignType.sign (m - M)) ∧
      (∀ (find : RootFinder ℝ) (δ : ℝ), 0 ≤ δ →
        (∀ m y, 0 ≤ m → δ < |m - M| → (Rating.mk b.bearing find).residual direction m = .ok y →
          SignType.sign y = SignType.sign (b.bearing.exactResidual direction m)) →
        ∀ m, (Rating.mk b.bearing find).bracketed direction = .ok m →
          (Rating.mk b.bearing find).maxForce direction = .ok m ∧
            |m - M| < δ + (2 / 10 ^ 12 + 4 * Arith.epsilon * m)) ∧
      ∀ m, (Search.brent Rating.lowestForce (Rating.boundFactor * b.bearing.hexagonBound)).answer
          (fun x => (.ok (b.bearing.exactResidual direction x) : Except (AllocationError ℝ) ℝ)) = .ok m →
        |m - M| < 2 / 10 ^ 12 + 4 * Arith.epsilon * m := by
  have hs := hb.sound
  obtain ⟨M, hpos, hdel, hsign⟩ := exists_largest hs hz direction
  have hmem : M ∈ b.bearing.deliverable direction := by
    rw [hdel]
    exact ⟨hpos.le, le_refl M⟩
  have hlow : (0 : ℝ) < Rating.lowestForce := by
    rw [Rating.lowestForce_eq]
    norm_num
  have hhigh : 0 < Rating.boundFactor * b.bearing.hexagonBound := by
    rw [Rating.boundFactor_eq]
    have := hexagonBound_pos hs
    positivity
  refine ⟨M, hpos, le_hexagonBound hs hmem, hdel, hsign, ?_, ?_⟩
  · intro find δ hδ hagrees m hm
    refine ⟨Rating.maxForce_of_bracketed hm, ?_⟩
    refine Search.Brent.Located.near hlow hhigh hδ (fun x y hx hfar hy => ?_) (Search.brent_located hm)
    rw [hagrees x y hx hfar hy, hsign x hx]
  · intro m hm
    have hnear : |m - M| < 0 + (2 / 10 ^ 12 + 4 * Arith.epsilon * m) := by
      refine Search.Brent.Located.near hlow hhigh (le_refl 0) (fun x y hx _ hy => ?_) (Search.brent_located hm)
      cases hy
      exact hsign x hx
    rwa [zero_add] at hnear

/-- The prototype with a fit: a direction between two poles, half its largest force and twice that. -/
theorem deliverable_interval_fit : ∃ b : Physical ℝ, (Geometry.prototype : Geometry ℝ).derive.withFit 1 1 = .ok b ∧
    1 / 2 ≤ b.biasFraction ∧ ∃ M, 0 < M ∧ M / 2 ∈ b.bearing.deliverable 50 ∧ 2 * M ∉ b.bearing.deliverable 50 ∧
      b.bearing.exactResidual 50 (M / 2) < 0 ∧ b.bearing.exactResidual 50 M = 0 ∧
      0 < b.bearing.exactResidual 50 (2 * M) := by
  obtain ⟨b, hfit, hmade, ⟨hhalf, -⟩, -⟩ := fitted_prototype
  obtain ⟨M, hpos, -, hdel, hsign, -⟩ := deliverable_interval hmade hhalf 50
  refine ⟨b, hfit, hhalf, M, hpos, ?_, ?_, ?_, ?_, ?_⟩
  · rw [hdel]
    exact ⟨by linarith, by linarith⟩
  · rw [hdel]
    exact fun h => absurd h.2 (by linarith)
  · rw [← sign_eq_neg_one_iff, hsign _ (by linarith), sign_eq_neg_one_iff]
    linarith
  · rw [← sign_eq_zero_iff, hsign _ hpos.le, sub_self, sign_zero]
  · rw [← sign_eq_one_iff, hsign _ (by linarith), sign_eq_one_iff]
    linarith

end Physical

end MagneticBearing
