/-
  MagneticBearing.Proofs.Symmetry — the symmetries of three poles.

  The poles look the same after a third of a turn, and in the mirror that swaps poles two and three.
  `Symmetry` acts on space vectors and targets (`vector`), on the poles (`poles`) and on directions
  (`direction`). The square in the force law is a square of conjugates; both symmetries pass through it
  (`onComplex_conj_mul`), the first because the conjugate of a third of a turn is its square. So the law
  commutes with them (`ofVector_vector`), and with it a polishing step (`newtonStep_vector`), a whole run
  by induction on its steps (`refineFrom_vector`), and the check (`reproduces_vector`). On the poles they
  only change the order (`toPoles_vector`), which no norm and no peak depends on (`norm_poles`,
  `peak_poles`).

  - `sector_stands_for_all`: all of this, and hence what the exact solutions of a request reach as peak
    fields, the smallest among them, is fixed by the directions of the rating's sector.
-/

import MagneticBearing.Bearing.CurveFit
import MagneticBearing.Proofs.ImaginaryFirst
import MagneticBearing.Proofs.Directions
import MagneticBearing.Proofs.Physical
import MagneticBearing.Rating

namespace MagneticBearing

open ComplexConjugate

/-- A third of a turn, and the mirror in the axis of pole one. -/
inductive Symmetry where
  | turn
  | mirror
  deriving DecidableEq, Repr

namespace Symmetry

noncomputable def vector : Symmetry → Cx ℝ → Cx ℝ
  | .turn, s => SpaceVector.rotation * s
  | .mirror, s => s.conj

def poles : Symmetry → Poles ℝ → Poles ℝ
  | .turn, x => ⟨x.p3, x.p1, x.p2⟩
  | .mirror, x => ⟨x.p1, x.p3, x.p2⟩

noncomputable def direction : Symmetry → ℝ → ℝ
  | .turn, d => d + 120.0
  | .mirror, d => -d

/-- The symmetry as an isometry of the plane. -/
noncomputable def onComplex : Symmetry → ℂ ≃ₗᵢ[ℝ] ℂ
  | .turn => rotation (Circle.exp (2.0 * Real.pi / 3.0))
  | .mirror => Complex.conjLIE

variable (g : Symmetry)

/-! ## On the plane -/

@[simp] theorem toComplex_vector (s : Cx ℝ) : (g.vector s).toComplex = g.onComplex s.toComplex := by
  cases g with
  | turn =>
    have h : (SpaceVector.rotation : Cx ℝ).toComplex = Complex.exp ((2.0 * Real.pi / 3.0 : ℝ) * Complex.I) := by
      unfold SpaceVector.rotation
      rw [Cx.toComplex_ofPolar, Exact.one_eq, Complex.ofReal_one, one_mul]
      rfl
    simp only [vector, onComplex, rotation_apply, Circle.coe_exp, Cx.toComplex_mul, h]
  | mirror => rfl

theorem vector_bijective : Function.Bijective g.vector := by
  constructor
  · intro s t h
    have he := congrArg Cx.toComplex h
    rw [toComplex_vector, toComplex_vector] at he
    exact Cx.toComplex_inj.mp (g.onComplex.injective he)
  · intro t
    obtain ⟨z, hz⟩ := g.onComplex.surjective t.toComplex
    refine ⟨⟨z.re, z.im⟩, ?_⟩
    rw [← Cx.toComplex_inj, toComplex_vector, ← hz]
    rfl

theorem vector_sub (s t : Cx ℝ) : g.vector (s - t) = g.vector s - g.vector t := by
  rw [← Cx.toComplex_inj]
  simp

theorem onComplex_real_mul (r : ℝ) (z : ℂ) : g.onComplex (r * z) = r * g.onComplex z := by
  rw [← Complex.real_smul, map_smul, Complex.real_smul]

/-- Three thirds of a turn are none, so the inverse of one third is two thirds. -/
theorem conj_third_sq : conj (Circle.exp (2.0 * Real.pi / 3.0) : ℂ) * conj (Circle.exp (2.0 * Real.pi / 3.0) : ℂ) =
    Circle.exp (2.0 * Real.pi / 3.0) := by
  have hcube : (Circle.exp (2.0 * Real.pi / 3.0) : ℂ) ^ 3 = 1 := by
    rw [Circle.coe_exp, ← Complex.exp_nat_mul, Exact.two_eq, Exact.three_eq, ← Complex.exp_two_pi_mul_I]
    congr 1
    push_cast
    ring
  have hinv : conj (Circle.exp (2.0 * Real.pi / 3.0) : ℂ) * Circle.exp (2.0 * Real.pi / 3.0) = 1 := by
    rw [← Circle.coe_inv_eq_conj, ← Circle.coe_mul, inv_mul_cancel, Circle.coe_one]
  generalize (Circle.exp (2.0 * Real.pi / 3.0) : ℂ) = c at hcube hinv
  calc conj c * conj c = conj c * conj c * c ^ 3 := by rw [hcube, mul_one]
    _ = (conj c * c) * (conj c * c) * c := by ring
    _ = c := by rw [hinv, one_mul, one_mul]

theorem onComplex_conj_mul (z w : ℂ) :
    conj (g.onComplex z) * conj (g.onComplex w) = g.onComplex (conj z * conj w) := by
  cases g with
  | turn =>
    simp only [onComplex, rotation_apply, map_mul]
    rw [mul_mul_mul_comm, conj_third_sq]
  | mirror => exact (map_mul _ _ _).symm

end Symmetry

/-! ## The force law -/

namespace ForceLaw

variable (g : Symmetry) (law : ForceLaw ℝ) (target s : Cx ℝ)

theorem onPlane_symmetry (z : ℂ) : law.onPlane (g.onComplex z) = g.onComplex (law.onPlane z) := by
  have h3 : (law.quadratic / 3 : ℂ) = (law.quadratic / 3 : ℝ) := by push_cast; rfl
  rw [onPlane_eq, onPlane_eq, sq, sq, g.onComplex_conj_mul, h3, map_add, g.onComplex_real_mul, g.onComplex_real_mul]

theorem ofVector_vector : law.ofVector (g.vector s) = g.vector (law.ofVector s) := by
  rw [← Cx.toComplex_inj, toComplex_ofVector, Symmetry.toComplex_vector, Symmetry.toComplex_vector, toComplex_ofVector,
    onPlane_symmetry]

theorem jacobian_vector : law.jacobian (g.vector s) = law.jacobian s := by
  rw [jacobian_eq, jacobian_eq, Symmetry.toComplex_vector, LinearIsometryEquiv.norm_map]

theorem miss_vector : law.miss (g.vector target) (g.vector s) = law.miss target s := by
  unfold miss
  rw [Symmetry.toComplex_vector, Symmetry.toComplex_vector, onPlane_symmetry, ← map_sub, LinearIsometryEquiv.norm_map]

/-- A step from the image of a vector is the image of the step. -/
theorem newtonStep_vector :
    law.newtonStep (g.vector target) (g.vector s) = (law.newtonStep target s).map g.vector := by
  refine newtonStep_map ?_ fun d d' hd hd' => ?_
  · rw [newtonStep_eq_none_iff, newtonStep_eq_none_iff, jacobian_vector]
  · rw [← Cx.toComplex_inj, g.toComplex_vector]
    calc d'.toComplex = (1 / law.jacobian s : ℝ) * (law.linear * g.onComplex (law.ofVector s - target).toComplex -
          (2 * law.quadratic / 3 : ℝ) *
            (conj (g.onComplex s.toComplex) * conj (g.onComplex (law.ofVector s - target).toComplex))) := by
          rw [newtonStep_toComplex hd', jacobian_vector, ofVector_vector, ← g.vector_sub, g.toComplex_vector,
            g.toComplex_vector]
      _ = g.onComplex d.toComplex := by
          rw [newtonStep_toComplex hd, g.onComplex_conj_mul, g.onComplex_real_mul, map_sub, g.onComplex_real_mul,
            g.onComplex_real_mul]

theorem refineFrom_vector (n : ℕ) :
    law.refineFrom (g.vector target) n (g.vector s) = g.vector (law.refineFrom target n s) := by
  have hnorm (s : Cx ℝ) : ‖(g.vector s).toComplex‖ = 1 * ‖s.toComplex‖ := by
    rw [g.toComplex_vector, LinearIsometryEquiv.norm_map, one_mul]
  exact refineFrom_map one_pos g.vector_sub hnorm (law.newtonStep_vector g target) n s

theorem reproduces_vector : law.reproduces (g.vector s) (g.vector target) = law.reproduces s target := by
  rw [Bool.eq_iff_iff, reproduces_iff, reproduces_iff, miss_vector, Symmetry.toComplex_vector,
    Symmetry.toComplex_vector, LinearIsometryEquiv.norm_map, LinearIsometryEquiv.norm_map]

end ForceLaw

/-! ## The poles -/

namespace Symmetry

variable (g : Symmetry)

theorem toPoles_vector (s : SpaceVector ℝ) : SpaceVector.toPoles (g.vector s) = g.poles s.toPoles := by
  cases g with
  | turn =>
    have h3 : √3 * √3 = (3 : ℝ) := Real.mul_self_sqrt (by norm_num)
    have hne : √3 ≠ (0 : ℝ) := by positivity
    have hv : vector .turn s = ⟨-1 / 2 * s.re - √3 / 2 * s.im, -1 / 2 * s.im + √3 / 2 * s.re⟩ := by
      unfold vector
      rw [SpaceVector.rotation_eq]
      rfl
    rw [hv, SpaceVector.toPoles_eq, SpaceVector.toPoles_eq]
    simp only [poles, Poles.mk.injEq]
    refine ⟨?_, ?_, ?_⟩
    · field_simp
      linear_combination (-s.im) * h3
    · field_simp
      linear_combination s.im * h3
    · field_simp
      linear_combination s.im * h3
  | mirror =>
    rw [SpaceVector.toPoles_eq, SpaceVector.toPoles_eq]
    simp only [vector, poles, Cx.conj, Poles.mk.injEq]
    refine ⟨trivial, ?_, ?_⟩
    · ring
    · ring

theorem norm_poles (x : Poles ℝ) : (g.poles x).norm = x.norm := by
  have h : (g.poles x).normSq = x.normSq := by
    cases g with
    | turn =>
      show x.p3 * x.p3 + x.p1 * x.p1 + x.p2 * x.p2 = x.p1 * x.p1 + x.p2 * x.p2 + x.p3 * x.p3
      ring
    | mirror =>
      show x.p1 * x.p1 + x.p3 * x.p3 + x.p2 * x.p2 = x.p1 * x.p1 + x.p2 * x.p2 + x.p3 * x.p3
      ring
  show √(g.poles x).normSq = √x.normSq
  rw [h]

theorem peak_poles (x : Poles ℝ) : (g.poles x).peak = x.peak := by
  rw [Poles.peak_eq, Poles.peak_eq]
  cases g with
  | turn => exact (max_assoc _ _ _).trans (max_comm _ _)
  | mirror => exact max_right_comm _ _ _

/-- The bias is the same on every pole. -/
theorem peakField_poles (b : RatedBearing ℝ) (e : Poles ℝ) : b.peakField (g.poles e) = b.peakField e := by
  have h : (g.poles e).addEach b.bias = g.poles (e.addEach b.bias) := by
    cases g with
    | turn => rfl
    | mirror => rfl
  unfold RatedBearing.peakField
  rw [h, peak_poles]

theorem saturated_poles (b : Physical ℝ) (e : Poles ℝ) : b.bearing.saturated (g.poles e) = b.bearing.saturated e := by
  show decide (b.saturationField < b.bearing.peakField (g.poles e)) = decide (b.saturationField < b.bearing.peakField e)
  rw [peakField_poles]

/-! ## Requests -/

theorem target_direction (d m : ℝ) : Allocator.target (g.direction d) m = g.vector (Allocator.target d m) := by
  rw [← Cx.toComplex_inj, toComplex_vector, Allocator.toComplex_target, Allocator.toComplex_target,
    onComplex_real_mul]
  congr 1
  cases g with
  | turn =>
    have h120 : (120.0 : ℝ) = 120 := by norm_num
    simp only [direction, onComplex, rotation_apply, Circle.coe_exp, Exact.two_eq, Exact.three_eq, h120]
    rw [← Complex.exp_add]
    congr 1
    push_cast
    ring
  | mirror =>
    simp only [direction, onComplex, Complex.conjLIE_apply, ← Complex.exp_conj, map_mul, Complex.conj_ofReal,
      Complex.conj_I]
    congr 1
    push_cast
    ring

end Symmetry

namespace RatedBearing

variable (b : RatedBearing ℝ)

/-- The peak fields of all space vectors that yield exactly the requested force. -/
def peakFields (direction magnitude : ℝ) : Set ℝ :=
  (fun s : SpaceVector ℝ => b.peakField s.toPoles) '' {s | b.law.ofVector s = Allocator.target direction magnitude}

/-- The solutions of the image of a request are the images of the solutions. -/
theorem peakFields_symmetry (g : Symmetry) (d m : ℝ) : b.peakFields (g.direction d) m = b.peakFields d m := by
  have hpeak (s : SpaceVector ℝ) : b.peakField (SpaceVector.toPoles (g.vector s)) = b.peakField s.toPoles := by
    rw [g.toPoles_vector, g.peakField_poles]
  have hsolution (s : SpaceVector ℝ) : b.law.ofVector (g.vector s) = Allocator.target (g.direction d) m ↔
      b.law.ofVector s = Allocator.target d m := by
    rw [ForceLaw.ofVector_vector, g.target_direction]
    exact g.vector_bijective.injective.eq_iff
  ext p
  constructor
  · rintro ⟨t, ht, rfl⟩
    obtain ⟨s, rfl⟩ := g.vector_bijective.surjective t
    exact ⟨s, (hsolution s).mp ht, (hpeak s).symm⟩
  · rintro ⟨s, hs, rfl⟩
    exact ⟨g.vector s, (hsolution s).mpr hs, hpeak s⟩

theorem peakFields_turn (d : ℝ) : b.peakFields (d + 120) = b.peakFields d := by
  have h120 : (120.0 : ℝ) = 120 := by norm_num
  funext m
  rw [← h120]
  exact b.peakFields_symmetry .turn d m

theorem peakFields_mirror (d : ℝ) : b.peakFields (-d) = b.peakFields d := by
  funext m
  exact b.peakFields_symmetry .mirror d m

/-- Turned into the first third, and mirrored if past the middle of it. -/
theorem exists_in_sector (d : ℝ) : ∃ d' ∈ Set.Icc (0 : ℝ) 60, b.peakFields d = b.peakFields d' := by
  have hperiodic : Function.Periodic b.peakFields 120 := b.peakFields_turn
  obtain ⟨d1, ⟨h0, h1⟩, he⟩ := hperiodic.exists_mem_Ico₀ (by norm_num) d
  rcases le_or_gt d1 60 with h60 | h60
  · exact ⟨d1, ⟨h0, h60⟩, he⟩
  · refine ⟨-d1 + 120, ⟨by linarith, by linarith⟩, ?_⟩
    rw [he, peakFields_turn, peakFields_mirror]

end RatedBearing

/-! ## The smallest -/

theorem Quartic.zeros_finite (c : Quartic ℝ) : {y : ℝ | c.eval y = 0}.Finite := by
  have hroots : {z : ℂ | z ∈ c.poly.roots.toFinset}.Finite := c.poly.roots.toFinset.finite_toSet
  refine (hroots.preimage Complex.ofReal_injective.injOn).subset fun y hy => ?_
  have hy0 : c.eval y = 0 := hy
  show (y : ℂ) ∈ c.poly.roots.toFinset
  rw [Multiset.mem_toFinset, Polynomial.mem_roots c.poly_ne_zero, Polynomial.IsRoot.def, poly_eval_real, hy0,
    Complex.ofReal_zero]

/-- Both coordinates of a solution are roots of a quartic. -/
theorem ForceLaw.solutions_finite {law : ForceLaw ℝ} (ha : law.quadratic ≠ 0) (target : Cx ℝ) :
    {s : SpaceVector ℝ | law.ofVector s = target}.Finite := by
  have hre := (law.quartic .realFirst target.re target.im).zeros_finite
  have him := (law.quartic .imaginaryFirst target.re target.im).zeros_finite
  have hinj : Function.Injective fun s : Cx ℝ => (s.re, s.im) := by
    intro s t h
    obtain ⟨h1, h2⟩ := Prod.mk.inj h
    exact Cx.toComplex_inj.mp (Complex.ext h1 h2)
  refine ((hre.prod him).preimage hinj.injOn).subset fun s hs => ?_
  have hx : (law.quartic .realFirst target.re target.im).eval (Formulation.realFirst.coordinate s) = 0 :=
    eval_coordinate ha hs
  have hy : (law.quartic .imaginaryFirst target.re target.im).eval (Formulation.imaginaryFirst.coordinate s) = 0 :=
    eval_coordinate ha hs
  exact ⟨hx, hy⟩

/-- Whatever is asked to be small, among the solutions of a force there is a smallest. -/
theorem ForceLaw.exists_least_solution {law : ForceLaw ℝ} (ha : 0 < law.quadratic) (hb : 0 < law.linear)
    (target : Cx ℝ) (size : SpaceVector ℝ → ℝ) :
    ∃ s, law.ofVector s = target ∧ ∀ t, law.ofVector t = target → size s ≤ size t := by
  obtain ⟨t, -, -, ht, -⟩ := ForceLaw.two_solutions ha hb target
  exact Set.exists_min_image _ size (ForceLaw.solutions_finite ha.ne' target) ⟨t, ht⟩

/-- There always is a smallest peak field. -/
theorem RatedBearing.exists_least_peakField {b : RatedBearing ℝ} (ha : 0 < b.law.quadratic) (hb : 0 < b.law.linear)
    (d m : ℝ) : ∃ p, IsLeast (b.peakFields d m) p := by
  obtain ⟨s, hs, hle⟩ := ForceLaw.exists_least_solution ha hb (Allocator.target d m)
    fun s => b.peakField s.toPoles
  refine ⟨b.peakField s.toPoles, ⟨s, hs, rfl⟩, ?_⟩
  rintro _ ⟨s', hs', rfl⟩
  exact hle s' hs'

/-- The sector that the rating searches stands for all directions. Both symmetries commute with the force law,
with the polishing and with the check, and reorder the poles, which no norm, peak field or saturation notices.
So a third of a turn and the mirror leave the peak fields of the exact solutions as they are, with the smallest
among them, and every direction has those of one in the sector. -/
theorem Rating.sector_stands_for_all :
    (∀ (g : Symmetry) (law : ForceLaw ℝ) (s target : Cx ℝ),
      law.ofVector (g.vector s) = g.vector (law.ofVector s) ∧
        law.refine (g.vector s) (g.vector target) = g.vector (law.refine s target) ∧
        law.reproduces (g.vector s) (g.vector target) = law.reproduces s target) ∧
      (∀ (g : Symmetry) (s : SpaceVector ℝ), SpaceVector.toPoles (g.vector s) = g.poles s.toPoles) ∧
      (∀ (g : Symmetry) (e : Poles ℝ), (g.poles e).norm = e.norm ∧
        (∀ b : RatedBearing ℝ, b.peakField (g.poles e) = b.peakField e) ∧
        (∀ b : Physical ℝ, b.bearing.saturated (g.poles e) = b.bearing.saturated e) ∧
        ∀ b : CurveFit ℝ, b.bearing.saturated (g.poles e) = b.bearing.saturated e) ∧
      ∀ b : RatedBearing ℝ,
        (∀ d m, b.peakFields (d + 120) m = b.peakFields d m ∧ b.peakFields (-d) m = b.peakFields d m) ∧
        (∀ d, ∃ d' ∈ Set.Icc (sector : ℝ × ℝ).1 (sector : ℝ × ℝ).2, ∀ m, b.peakFields d m = b.peakFields d' m) ∧
        (0 < b.law.quadratic → 0 < b.law.linear → ∀ d m, ∃ p, IsLeast (b.peakFields d m) p) := by
  have hsector : Set.Icc (sector : ℝ × ℝ).1 (sector : ℝ × ℝ).2 = Set.Icc 0 60 := by
    have h60 : (60.0 : ℝ) = 60 := by norm_num
    show Set.Icc (0.0 : ℝ) 60.0 = _
    rw [Exact.zero_eq, h60]
  refine ⟨?_, fun g s => g.toPoles_vector s, ?_, ?_⟩
  · intro g law s target
    exact ⟨law.ofVector_vector g s, law.refineFrom_vector g target s ForceLaw.refineSteps,
      law.reproduces_vector g target s⟩
  · intro g e
    exact ⟨g.norm_poles e, fun b => g.peakField_poles b e, fun b => g.saturated_poles b e, fun b => rfl⟩
  · intro b
    refine ⟨?_, ?_, ?_⟩
    · intro d m
      rw [b.peakFields_turn, b.peakFields_mirror]
      exact ⟨rfl, rfl⟩
    · intro d
      obtain ⟨d', hd', he⟩ := b.exists_in_sector d
      rw [hsector]
      exact ⟨d', hd', fun m => congrFun he m⟩
    · intro ha hb d m
      exact RatedBearing.exists_least_peakField ha hb d m

/-- On the prototype, one smallest peak field for 100 newtons in three directions. -/
theorem Rating.sector_stands_for_all_prototype : ∃ p,
    IsLeast ((Geometry.prototype : Geometry ℝ).derive.bearing.peakFields 50 100) p ∧
      IsLeast ((Geometry.prototype : Geometry ℝ).derive.bearing.peakFields (50 + 120) 100) p ∧
      IsLeast ((Geometry.prototype : Geometry ℝ).derive.bearing.peakFields (-50) 100) p := by
  have hs : (Geometry.prototype : Geometry ℝ).derive.Sound := Geometry.prototype_valid.sound
  obtain ⟨-, -, -, hall⟩ := sector_stands_for_all
  obtain ⟨hsame, -, hleast⟩ := hall (Geometry.prototype : Geometry ℝ).derive.bearing
  obtain ⟨p, hp⟩ := hleast hs.k1_pos hs.linear_pos 50 100
  obtain ⟨hturn, hmirror⟩ := hsame 50 100
  rw [hturn, hmirror]
  exact ⟨p, hp, hp, hp⟩

end MagneticBearing
