/-
  MagneticBearing.Proofs.PoleForce — what the force law says of the poles.

  A pole is drawn with the square of its total field, so a bearing yields the space vector of the squared fields
  (`Physical.ofPoles_fields`). A space vector stands for three poles without a common mode, and the law in the plane
  is what these yield (`ForceLaw.ofPoles_toPoles`). A force is reported by its direction and magnitude, from which
  its vector comes back (`Force.vector_ofVector`).

  - `law_of_squared_fields`: so the law that is inverted is the one that is reported, and both mean the fields.
-/

import MagneticBearing.Proofs.Directions
import MagneticBearing.Proofs.Physical

namespace MagneticBearing

namespace Force

/-- The direction counts from zero to a full turn. -/
theorem direction_ofVector (v : Cx ℝ) :
    (ofVector v).direction = 360 * Int.fract ((v.toComplex.arg * (180 / Real.pi) + 720) / 360) := by
  have h360 : (360.0 : ℝ) = 360 := by norm_num
  have hpi := Real.pi_pos
  have hlow : -180 ≤ v.toComplex.arg * (180 / Real.pi) := by
    have harg := Complex.neg_pi_lt_arg v.toComplex
    rw [mul_div_assoc', le_div_iff₀ hpi]
    linarith
  have hnonneg : 0 ≤ (v.toComplex.arg * (180 / Real.pi) + 720) / 360 := by
    apply div_nonneg
    · linarith
    · norm_num
  have hrem : (ofVector v).direction = v.toComplex.arg * (180 / Real.pi) + 720 -
      360 * Exact.cut ((v.toComplex.arg * (180 / Real.pi) + 720) / 360) := by
    show v.toComplex.arg * (180.0 / Real.pi) + 720.0 -
      360.0 * (Exact.cut ((v.toComplex.arg * (180.0 / Real.pi) + 720.0) / 360.0) : ℝ) = _
    norm_num
  rw [hrem, Direction.cut_of_nonneg hnonneg, ← Int.self_sub_floor]
  ring

theorem magnitude_ofVector (v : Cx ℝ) : (ofVector v).magnitude = ‖v.toComplex‖ := Cx.norm_eq v

/-- Direction and magnitude are those of the vector. -/
theorem vector_ofVector (v : Cx ℝ) : (ofVector v).vector = v := by
  have hpi := Real.pi_ne_zero
  have hpolar : (ofVector v).vector = Cx.ofPolar v.norm (Direction.toRadians (ofVector v).direction) := rfl
  -- The direction is that of the argument, up to whole turns.
  have hturns : Direction.toRadians (ofVector v).direction = v.toComplex.arg +
      (2 - ⌊(v.toComplex.arg * (180 / Real.pi) + 720) / 360⌋) * (2 * Real.pi) := by
    show (ofVector v).direction * (Real.pi / 180.0) = _
    rw [direction_ofVector, ← Int.self_sub_floor]
    simp only [Exact.decimal]
    field_simp
    ring
  have hexp : Complex.exp ((Direction.toRadians (ofVector v).direction : ℝ) * Complex.I) =
      Complex.exp (v.toComplex.arg * Complex.I) := by
    rw [hturns, Complex.exp_eq_exp_iff_exists_int]
    refine ⟨2 - ⌊(v.toComplex.arg * (180 / Real.pi) + 720) / 360⌋, ?_⟩
    push_cast
    ring
  rw [← Cx.toComplex_inj, hpolar, Cx.toComplex_ofPolar, Cx.norm_eq, hexp, Complex.norm_mul_exp_arg_mul_I]

end Force

/-- Over every bearing known by its geometry, with a fit laid over it or not, any excitation of the poles, common mode
included, yields `k1` times the space vector of the squared total fields. Under every law the poles that a space vector
stands for yield the force that the plane has for it, and that is the force that is reported for them. -/
theorem law_of_squared_fields :
    (∀ (b : Physical ℝ) (e : Poles ℝ),
      b.bearing.law.ofPoles e = Cx.scale b.k1 (SpaceVector.ofPoles (e.map fun x => (x + b.bias) * (x + b.bias)))) ∧
    (∀ (law : ForceLaw ℝ) (s : SpaceVector ℝ), law.ofVector s = law.ofPoles s.toPoles) ∧
    ∀ (a : Allocator ℝ) (s : SpaceVector ℝ), (a.force s.toPoles).vector = a.bearing.law.ofVector s ∧
      (a.force s.toPoles).magnitude = ‖(a.bearing.law.ofVector s).toComplex‖ ∧
      0 ≤ (a.force s.toPoles).direction ∧ (a.force s.toPoles).direction < 360 := by
  refine ⟨fun b e => Physical.ofPoles_fields b e, fun law s => (law.ofPoles_toPoles s).symm, fun a s => ?_⟩
  have hreported : a.force s.toPoles = Force.ofVector (a.bearing.law.ofVector s) := by
    rw [← ForceLaw.ofPoles_toPoles]
    rfl
  rw [hreported, Force.vector_ofVector, Force.magnitude_ofVector, Force.direction_ofVector]
  refine ⟨rfl, rfl, ?_, ?_⟩
  · exact mul_nonneg (by norm_num) (Int.fract_nonneg _)
  · linarith [Int.fract_lt_one (((a.bearing.law.ofVector s).toComplex.arg * (180 / Real.pi) + 720) / 360)]

end MagneticBearing
