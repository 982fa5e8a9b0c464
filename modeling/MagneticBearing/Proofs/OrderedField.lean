/-
  MagneticBearing.Proofs.OrderedField — any ordered field as the numbers of the library.

  `ExactArith K` says that what the library computes on `K` is what the ordered field `K` has: its
  operations and its order, no sign for zero, every number finite. `ExactRoots K` says that the root of a
  square is the base that is not negative, and that roots keep the order. Both hold of the reals. The
  comparisons and constants of the library then mean what they say.
-/

import MagneticBearing.Proofs.Exact
import MagneticBearing.Proofs.Partial

-- `ExactArith` is what makes the two instances on `K` agree.
set_option linter.overlappingInstances false

namespace MagneticBearing

/-- The operations and the order of a field. -/
@[reducible] def Exact.arith (K : Type) [Field K] [LinearOrder K] : Arith K where
  decLT := inferInstance
  decLE := inferInstance
  beq x y := decide (x = y)
  abs x := |x|
  negative x := decide (x < 0)
  finite _ := true

/-- The library computes on `K` as the field does. -/
class ExactArith (K : Type) [Field K] [LinearOrder K] [A : Arith K] : Prop where
  arith_eq (K) : A = Exact.arith K

/-- Squares have their roots, and roots are in the order of what they are roots of. -/
class ExactRoots (K : Type) [Field K] [LinearOrder K] [Scalar K] : Prop where
  sqrt_mul_self {x : K} : 0 ≤ x → Scalar.sqrt (x * x) = x
  sqrt_le_sqrt {x y : K} : 0 ≤ x → x ≤ y → Scalar.sqrt x ≤ Scalar.sqrt y

instance : ExactArith ℝ := ⟨rfl⟩

instance : ExactRoots ℝ := ⟨Real.sqrt_mul_self, fun _ => Real.sqrt_le_sqrt⟩

variable {K : Type} [Field K] [LinearOrder K]

namespace Arith

section Comparisons

variable [Arith K] [ExactArith K]

/-- Each operation is the field's. -/
theorem operations :
    (∀ x y : K, @HAdd.hAdd K K K (@instHAdd K toAdd) x y = x + y) ∧
      (∀ x y : K, @HSub.hSub K K K (@instHSub K toSub) x y = x - y) ∧
      (∀ x y : K, @HMul.hMul K K K (@instHMul K toMul) x y = x * y) ∧
      (∀ x y : K, @HDiv.hDiv K K K (@instHDiv K toDiv) x y = x / y) ∧
      (∀ x : K, @Neg.neg K toNeg x = -x) ∧
      (∀ x : K, Arith.abs x = |x|) ∧
      (∀ x y : K, @LT.lt K toLT x y ↔ x < y) ∧
      (∀ x y : K, @LE.le K toLE x y ↔ x ≤ y) ∧
      ∀ m s e, @OfScientific.ofScientific K toOfScientific m s e = OfScientific.ofScientific m s e := by
  rw [ExactArith.arith_eq K]
  exact ⟨fun _ _ => rfl, fun _ _ => rfl, fun _ _ => rfl, fun _ _ => rfl, fun _ => rfl, fun _ => rfl,
    fun _ _ => Iff.rfl, fun _ _ => Iff.rfl, fun _ _ _ => rfl⟩

theorem beq_iff (x y : K) : (@BEq.beq K toBEq x y) = true ↔ x = y := by
  rw [ExactArith.arith_eq K]
  exact decide_eq_true_iff

theorem finite_eq (x : K) : finite x = true := by
  rw [ExactArith.arith_eq K]
  rfl

theorem smaller_le_right (x y : K) : smaller x y ≤ y := by
  simp only [smaller, operations, if_pos ((beq_iff x x).mpr rfl)]
  split
  · exact le_refl y
  · exact (not_le.mp ‹_›).le

theorem larger_eq (x y : K) : larger x y = max x y := by
  simp only [larger, operations, if_pos ((beq_iff x x).mpr rfl), max_def]

variable [IsStrictOrderedRing K]

omit [Arith K] [ExactArith K] in
theorem decimals : (0.0 : K) = 0 ∧ (1.0 : K) = 1 ∧ (2.0 : K) = 2 ∧ (3.0 : K) = 3 ∧ (4.0 : K) = 4 ∧ (5.0 : K) = 5 ∧
    (0.5 : K) = 1 / 2 := by
  norm_num

theorem beq_zero_iff (x : K) :
    (@BEq.beq K toBEq x (@OfScientific.ofScientific K toOfScientific 0 true 1)) = true ↔ x = 0 := by
  simp only [beq_iff, operations, decimals]

theorem sameSign_iff {x y : K} (hx : x ≠ 0) (hy : y ≠ 0) : sameSign x y = true ↔ 0 < x * y := by
  have hself (z : K) : (@BEq.beq K toBEq z z) = true := (beq_iff z z).mpr rfl
  have hneg (z : K) : negative z = decide (z < 0) := by
    rw [ExactArith.arith_eq K]
    rfl
  simp only [sameSign, hself, hneg, Bool.true_and, beq_iff_eq, decide_eq_decide]
  rcases lt_or_gt_of_ne hx with hx | hx
  · rw [iff_true_left hx, ← neg_mul_neg, mul_pos_iff_of_pos_left (neg_pos.mpr hx), neg_pos]
  · rw [iff_false_left (not_lt.mpr hx.le), mul_pos_iff_of_pos_left hx, not_lt]
    exact ⟨fun h => lt_of_le_of_ne h (Ne.symm hy), le_of_lt⟩

theorem epsilon_value : (epsilon : K) = 1 / 2 ^ 52 := by
  unfold epsilon
  rw [ExactArith.arith_eq K]
  norm_num

end Comparisons

end Arith

/-- A quotient by a number other than zero is defined. -/
theorem Partial.div_of_ne [IsStrictOrderedRing K] [Arith K] [ExactArith K] (x : K) {y : K} (h : y ≠ 0) :
    Partial.defined x / Partial.defined y = .defined (x / y) := by
  have hz := mt (Arith.beq_zero_iff y).mp h
  rw [Partial.defined_div x (Bool.eq_false_iff.mpr hz)]
  simp only [Arith.operations]

variable [IsStrictOrderedRing K] [Scalar K] [ExactRoots K]

theorem sqrt_five_bounds : (11 / 5 : K) ≤ Scalar.sqrt 5 ∧ Scalar.sqrt (5 : K) ≤ 5 / 2 := by
  constructor
  · calc (11 / 5 : K) = Scalar.sqrt (11 / 5 * (11 / 5)) := (ExactRoots.sqrt_mul_self (by norm_num)).symm
      _ ≤ Scalar.sqrt 5 := ExactRoots.sqrt_le_sqrt (by norm_num) (by norm_num)
  · calc Scalar.sqrt (5 : K) ≤ Scalar.sqrt (5 / 2 * (5 / 2)) := ExactRoots.sqrt_le_sqrt (by norm_num) (by norm_num)
      _ = 5 / 2 := ExactRoots.sqrt_mul_self (by norm_num)

theorem sqrt_epsilon [ExactArith K] :
    Scalar.sqrt (Arith.epsilon : K) = 1 / 2 ^ 26 := by
  have h : (Arith.epsilon : K) = 1 / 2 ^ 26 * (1 / 2 ^ 26) := by
    rw [Arith.epsilon_value]
    norm_num
  rw [h, ExactRoots.sqrt_mul_self (by positivity)]

end MagneticBearing
