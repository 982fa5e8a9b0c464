/-
  MagneticBearing.Proofs.RatingSearch — the search for the largest force has its bracket.

  Let `H` be the hexagon bound and `ζ` the bias fraction. A bearing with `ζ² H ≥ 0.05` takes the lowest
  force of the search for a small one (`lowest_small`), so some candidate there is small, and with
  `ζ (1 - ζ) H ≥ 0.07` its poles stay below the limit (`lowest_unsaturated`): the residual is negative.
  The upper end is past the hexagon bound, where it is positive. So the two ends differ in sign.

  - `maxForce_bracketed`: the bracketed search of `maxForce` is never refused for want of a bracket, and
    what it answers lies next to a change of sign, hence hardly above the hexagon bound.
-/

import MagneticBearing.Proofs.Brent
import MagneticBearing.Proofs.Fold

namespace MagneticBearing

namespace Rating

variable {r : Rating ℝ} {direction magnitude m : ℝ}

theorem lowestForce_eq : (lowestForce : ℝ) = 1 / 10 := by
  show (0.1 : ℝ) = _
  norm_num

theorem boundFactor_eq : (boundFactor : ℝ) = 11 / 10 := by
  show (1.1 : ℝ) = _
  norm_num

/-- The first of the two searches for the largest force. -/
noncomputable def bracketed (r : Rating ℝ) (direction : ℝ) : Except (SearchFailure ℝ (AllocationError ℝ)) ℝ :=
  (Search.brent lowestForce (boundFactor * r.bearing.hexagonBound)).answer (r.residual direction)

/-- Its answer is the largest force; the second search is not tried. -/
theorem maxForce_of_bracketed (h : r.bracketed direction = .ok m) : r.maxForce direction = .ok m := by
  unfold bracketed at h
  unfold maxForce
  simp only [h]

end Rating

namespace Physical

variable {b : Physical ℝ} {find : RootFinder ℝ} {direction m x y z : ℝ}

/-! ## The lower end -/

section Lower

variable (hb : b.Sound) (hbias : 5 / 100 ≤ b.biasFraction ^ 2 * b.bearing.hexagonBound)

include hb hbias

theorem lowest_small : ForceLaw.Small b.bearing.law (Allocator.target direction Rating.lowestForce) where
  quadratic_pos := hb.k1_pos
  linear_pos := hb.linear_pos
  bound := by
    have hk := hb.k1_pos
    have hH : b.bearing.hexagonBound = b.k1 * b.saturationField * b.saturationField := rfl
    rw [hH] at hbias
    rw [Rating.lowestForce_eq, Allocator.norm_target (by norm_num)]
    calc b.k1 * (1 / 10) = 2 * b.k1 * (5 / 100) := by ring
      _ ≤ 2 * b.k1 * (b.biasFraction ^ 2 * (b.k1 * b.saturationField * b.saturationField)) := by gcongr
      _ = (2.0 * b.bias * b.k1) ^ 2 / 2 := by
          rw [hb.bias_eq, Exact.two_eq]
          ring

variable (hroom : 7 / 100 ≤ b.biasFraction * (1 - b.biasFraction) * b.bearing.hexagonBound)

include hroom

/-- What is no longer than two radii leaves the field of the bias some room. -/
theorem peakField_lt_of_short {s : SpaceVector ℝ}
    (hs : ‖s.toComplex‖ ≤ 2 * b.bearing.law.radius (Allocator.target direction Rating.lowestForce)) :
    b.bearing.peakField s.toPoles < b.saturationField := by
  have hsmall : ForceLaw.Small b.bearing.law (Allocator.target direction Rating.lowestForce) := lowest_small hb hbias
  have hlinear := hb.linear_pos
  have hradius : b.bearing.law.linear * b.bearing.law.radius (Allocator.target direction Rating.lowestForce) =
      1 / 10 := by
    rw [hsmall.linear_mul_radius, Rating.lowestForce_eq, Allocator.norm_target (by norm_num)]
  have hroom' : 14 / 100 ≤ b.bearing.law.linear * (b.saturationField - b.bias) := by
    calc (14 : ℝ) / 100 = 2 * (7 / 100) := by norm_num
      _ ≤ 2 * (b.biasFraction * (1 - b.biasFraction) * b.bearing.hexagonBound) := by gcongr
      _ = 2.0 * b.bias * b.k1 * (b.saturationField - b.bias) := by
          rw [hb.bias_eq, Exact.two_eq]
          show 2 * (_ * _ * (b.k1 * b.saturationField * b.saturationField)) = _
          ring
  have hshort : 2 / 3 * ‖s.toComplex‖ < b.saturationField - b.bias := by
    refine lt_of_mul_lt_mul_left ?_ hlinear.le
    calc b.bearing.law.linear * (2 / 3 * ‖s.toComplex‖)
        ≤ b.bearing.law.linear *
            (2 / 3 * (2 * b.bearing.law.radius (Allocator.target direction Rating.lowestForce))) := by
          have := hlinear.le
          gcongr
      _ = 4 / 3 * (1 / 10) := by
          rw [← hradius]
          ring
      _ < 14 / 100 := by norm_num
      _ ≤ b.bearing.law.linear * (b.saturationField - b.bias) := hroom'
  linarith [peakField_le hb s]

/-- At the lowest force some candidate leaves every pole below the limit, whatever found the roots. -/
theorem lowest_unsaturated {sols : Solutions ℝ}
    (h : (Rating.mk b.bearing find).allocator.solve direction Rating.lowestForce = .ok sols) :
    ∃ s ∈ sols.vectors, b.bearing.peakField s.toPoles < b.saturationField := by
  rcases Allocator.solve_ok h with ⟨hz, -⟩ | ⟨-, -, roots, -, hc⟩
  · rw [Rating.lowestForce_eq] at hz
    norm_num at hz
  · obtain ⟨s, hs, hshort⟩ := ForceLaw.candidatesFrom_small (lowest_small hb hbias) hc
    exact ⟨s, hs, peakField_lt_of_short hb hbias hroom hshort⟩

theorem residual_lowest {sols : Solutions ℝ}
    (h : (Rating.mk b.bearing find).allocator.solve direction Rating.lowestForce = .ok sols) :
    ∃ y, (Rating.mk b.bearing find).residual direction Rating.lowestForce = .ok y ∧ y < 0 := by
  obtain ⟨s, hs, hlt⟩ := lowest_unsaturated hb hbias hroom h
  obtain ⟨y, hy, hle⟩ := Rating.residual_of_mem h hs
  exact ⟨y, hy, lt_of_le_of_lt hle (sub_neg.mpr hlt)⟩

theorem residual_lowest_neg (h : (Rating.mk b.bearing find).residual direction Rating.lowestForce = .ok y) :
    y < 0 := by
  obtain ⟨sols, hs, -⟩ := Rating.residual_ok h
  obtain ⟨y', hy', hneg⟩ := residual_lowest hb hbias hroom hs
  rw [h] at hy'
  cases hy'
  exact hneg

end Lower

/-! ## The bracket -/

section Bracket

variable (hb : b.Sound)

include hb

theorem residual_highest_pos
    (h : (Rating.mk b.bearing find).residual direction (Rating.boundFactor * b.bearing.hexagonBound) = .ok y) :
    0 < y := by
  have hH := hexagonBound_pos hb
  refine residual_pos_of_above hb ?_ h
  rw [Rating.boundFactor_eq]
  linarith

/-- No residual that is not positive belongs to a force above the bound. -/
theorem magnitude_le (h : (Rating.mk b.bearing find).residual direction m = .ok y) (hy : y ≤ 0) :
    m ≤ (1 + 1 / 10 ^ 8) * b.bearing.hexagonBound :=
  not_lt.mp fun hm => absurd (residual_pos_of_above hb hm h) (not_lt.mpr hy)

/-- The share of the bias and the rest is a quarter at most. -/
theorem hexagonBound_ge (hroom : 7 / 100 ≤ b.biasFraction * (1 - b.biasFraction) * b.bearing.hexagonBound) :
    28 / 100 ≤ b.bearing.hexagonBound := by
  have hH := hexagonBound_pos hb
  have hquarter : b.biasFraction * (1 - b.biasFraction) ≤ 1 / 4 := by
    linarith [sq_nonneg (2 * b.biasFraction - 1)]
  have := mul_le_mul_of_nonneg_right hquarter hH.le
  linarith

/-- Next to a change of sign the force is below the bound, but for the tolerances. -/
theorem located_le (hH : 28 / 100 ≤ b.bearing.hexagonBound)
    (h : Search.Brent.Located ((Rating.mk b.bearing find).residual direction) (1 / 10)
      (11 / 10 * b.bearing.hexagonBound) m) :
    1 / 10 ≤ m ∧ m ≤ (1 + 2 / 10 ^ 8) * b.bearing.hexagonBound := by
  obtain ⟨hmem, y, hy, hvalue⟩ := h
  rw [Set.uIcc_of_le (by linarith)] at hmem
  refine ⟨hmem.1, ?_⟩
  rcases hvalue with rfl | ⟨x, z, hz, -, hopp, -, hnear⟩
  · have := magnitude_le hb hy (le_refl 0)
    linarith
  rcases mul_neg_iff.mp hopp with ⟨-, hneg⟩ | ⟨hneg, -⟩
  · -- The point next to it is below, so this one is above by the tolerance at most.
    have hx := magnitude_le hb hz hneg.le
    have hdist := (abs_lt.mp hnear).2
    rw [Arith.epsilon_eq, abs_of_pos (by linarith [hmem.1])] at hdist
    linarith [hmem.2]
  · have := magnitude_le hb hy hneg.le
    linarith

end Bracket

/-- The two ends of the search differ in sign, so it is never refused for want of a bracket. Its answer is the
largest force, between the lowest one and the hexagon bound, and next to it the residual changes sign. -/
theorem maxForce_bracketed (hb : b.Made) (hbias : 5 / 100 ≤ b.biasFraction ^ 2 * b.bearing.hexagonBound)
    (hroom : 7 / 100 ≤ b.biasFraction * (1 - b.biasFraction) * b.bearing.hexagonBound)
    (find : RootFinder ℝ) (direction : ℝ) :
    (∀ y, (Rating.mk b.bearing find).residual direction (1 / 10) = .ok y → y < 0) ∧
      (∀ y, (Rating.mk b.bearing find).residual direction (11 / 10 * b.bearing.hexagonBound) = .ok y → 0 < y) ∧
      (∀ lower upper, (Rating.mk b.bearing find).bracketed direction ≠ .error (.notBracketed lower upper)) ∧
      ∀ m, (Rating.mk b.bearing find).bracketed direction = .ok m →
        (Rating.mk b.bearing find).maxForce direction = .ok m ∧
          1 / 10 ≤ m ∧ m ≤ (1 + 2 / 10 ^ 8) * b.bearing.hexagonBound ∧
          ∃ y, (Rating.mk b.bearing find).residual direction m = .ok y ∧
            (y = 0 ∨ ∃ x z, |m - x| < 2 / 10 ^ 12 + 4 * Arith.epsilon * m ∧
              (Rating.mk b.bearing find).residual direction x = .ok z ∧ y * z < 0) := by
  have hs := hb.sound
  have hlow (y : ℝ) (h : (Rating.mk b.bearing find).residual direction (1 / 10) = .ok y) : y < 0 := by
    rw [← Rating.lowestForce_eq] at h
    exact residual_lowest_neg hs hbias hroom h
  have hhigh (y : ℝ)
      (h : (Rating.mk b.bearing find).residual direction (11 / 10 * b.bearing.hexagonBound) = .ok y) : 0 < y := by
    rw [← Rating.boundFactor_eq] at h
    exact residual_highest_pos hs h
  refine ⟨hlow, hhigh, ?_, ?_⟩
  · intro lower upper h
    unfold Rating.bracketed at h
    rw [Rating.lowestForce_eq, Rating.boundFactor_eq] at h
    obtain ⟨⟨fa, fb, hfa, hfb, hsame⟩, -, -⟩ := Search.brent_notBracketed_iff.mp h
    exact absurd (mul_neg_of_neg_of_pos (hlow fa hfa) (hhigh fb hfb)) (not_lt.mpr hsame.le)
  · intro m hm
    have hmax := Rating.maxForce_of_bracketed hm
    unfold Rating.bracketed at hm
    rw [Rating.lowestForce_eq, Rating.boundFactor_eq] at hm
    have hl := Search.brent_located hm
    obtain ⟨hge, hle⟩ := located_le hs (hexagonBound_ge hs hroom) hl
    obtain ⟨-, y, hy, hvalue⟩ := hl
    refine ⟨hmax, hge, hle, y, hy, hvalue.imp_right ?_⟩
    rintro ⟨x, z, hz, -, hopp, -, hnear⟩
    rw [abs_of_pos (by linarith : 0 < m)] at hnear
    exact ⟨x, z, hnear, hz, hopp⟩

/-- With an exact finder there is a residual toward pole one, up to the bound and more. -/
theorem residual_forward (hb : b.Sound) (hz : 1 / 2 ≤ b.biasFraction) (hfind : Quartic.FindsExactly find) (hm : 0 < m)
    (hle : m ≤ 4 / 3 * b.bearing.hexagonBound) : ∃ y, (Rating.mk b.bearing find).residual 0 m = .ok y := by
  obtain ⟨sols, h, s, -, hforce, hd⟩ := solve_forward hb hz hfind hm hle
  obtain ⟨k, hk, -⟩ := h.covers hb.k1_pos hb.linear_pos hforce hd
  obtain ⟨y, hy, -⟩ := Rating.residual_of_mem (r := ⟨b.bearing, find⟩) h.solved hk
  exact ⟨y, hy⟩

/-- The prototype with a fit of equal parts, and a finder that is exact: toward pole one there is a residual at
either end, negative at the lower and positive at the upper one, and the search has its bracket. -/
theorem maxForce_bracketed_fit : ∃ b : Physical ℝ, (Geometry.prototype : Geometry ℝ).derive.withFit 1 1 = .ok b ∧
    (∃ y, (Rating.mk b.bearing Allocator.exactFinder).residual 0 (1 / 10) = .ok y ∧ y < 0) ∧
    (∃ y, (Rating.mk b.bearing Allocator.exactFinder).residual 0 (11 / 10 * b.bearing.hexagonBound) = .ok y ∧ 0 < y) ∧
    ∀ lower upper, (Rating.mk b.bearing Allocator.exactFinder).bracketed 0 ≠ .error (.notBracketed lower upper) := by
  obtain ⟨b, hfit, hmade, ⟨hhalf, hthirds⟩, hbound⟩ := fitted_prototype
  have hH := hexagonBound_pos hmade.sound
  have hbias : 5 / 100 ≤ b.biasFraction ^ 2 * b.bearing.hexagonBound := by
    rw [hbound]
    norm_num
  -- The rest is at least half of the bias.
  have hroom : 7 / 100 ≤ b.biasFraction * (1 - b.biasFraction) * b.bearing.hexagonBound := by
    calc (7 : ℝ) / 100 ≤ 1 / 2 * (b.biasFraction ^ 2 * b.bearing.hexagonBound) := by
          rw [hbound]
          norm_num
      _ = b.biasFraction * (1 / 2 * b.biasFraction) * b.bearing.hexagonBound := by ring
      _ ≤ b.biasFraction * (1 - b.biasFraction) * b.bearing.hexagonBound := by
          gcongr
          linarith
  obtain ⟨hlow, hhigh, hbracket, -⟩ := maxForce_bracketed hmade hbias hroom Allocator.exactFinder 0
  have hresidual {m : ℝ} (hm : 0 < m) (hle : m ≤ 4 / 3 * b.bearing.hexagonBound) :
      ∃ y, (Rating.mk b.bearing Allocator.exactFinder).residual 0 m = .ok y :=
    residual_forward hmade.sound hhalf Allocator.exactFinder_findsExactly hm hle
  obtain ⟨y, hy⟩ := hresidual (by norm_num : (0 : ℝ) < 1 / 10) (by linarith [hexagonBound_ge hmade.sound hroom])
  obtain ⟨z, hz⟩ := hresidual (by positivity) (by linarith : 11 / 10 * b.bearing.hexagonBound ≤ _)
  exact ⟨b, hfit, ⟨y, hy, hlow y hy⟩, ⟨z, hz, hhigh z hz⟩, hbracket⟩

end Physical

end MagneticBearing
