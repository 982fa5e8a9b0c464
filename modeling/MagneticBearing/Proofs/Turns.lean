/-
  MagneticBearing.Proofs.Turns — requests whose directions differ by whole turns.

  A request uses its direction in two places, and each wraps it for itself: the formulation is chosen by the wrapped
  direction (`forDirection_congr`), and the target points along it (`target_congr`). Over the reals no direction is
  refused, so directions that wrap to the same make the same request (`solve_congr`).

  - `directions_in_turns`: so a direction counts modulo a full turn, and the margin about the axis has no gap where
    directions wrap around.
-/

import MagneticBearing.Proofs.Candidates
import MagneticBearing.Proofs.Directions

namespace MagneticBearing

section Wrapped

variable {K : Type} [Scalar K] {d d' : K}

theorem Formulation.forDirection_congr (h : Direction.wrap d = Direction.wrap d') :
    forDirection d = forDirection d' := by
  unfold forDirection
  rw [h]

theorem Allocator.target_congr (h : Direction.wrap d = Direction.wrap d') (magnitude : K) :
    target d magnitude = target d' magnitude := by
  unfold target Force.inDirection
  rw [h]

end Wrapped

theorem Allocator.solve_congr (a : Allocator ℝ) {d d' : ℝ} (h : Direction.wrap d = Direction.wrap d') (magnitude : ℝ) :
    a.solve d magnitude = a.solve d' magnitude := by
  rw [solve_eq, solve_eq, Formulation.forDirection_congr h, target_congr h]

/-- A direction counts modulo a full turn. Wrapping takes whole turns off it until it lies in the first. The real part
is solved for first exactly within a degree of a half turn, whichever half turn that is. And with any number of turns
added a request has the same answer: the formulation and the candidates in their order, or the failure. -/
theorem directions_in_turns :
    (∀ d : ℝ, 0 ≤ Direction.wrap d ∧ Direction.wrap d < 360 ∧ ∃ n : ℤ, d = Direction.wrap d + 360 * n) ∧
    (∀ d : ℝ, Formulation.forDirection d = .realFirst ↔ ∃ k : ℤ, |d - 180 * k| < 1) ∧
    ∀ (a : Allocator ℝ) (d magnitude : ℝ) (k : ℤ), a.solve (d + 360 * k) magnitude = a.solve d magnitude := by
  refine ⟨fun d => ⟨Direction.wrap_nonneg d, Direction.wrap_lt d, ⌊d / 360⌋, ?_⟩,
    Formulation.forDirection_eq_realFirst_iff, fun a d magnitude k => ?_⟩
  · rw [Direction.wrap_eq_sub, sub_add_cancel]
  · exact a.solve_congr (Direction.wrap_add_turns d k) magnitude

end MagneticBearing
