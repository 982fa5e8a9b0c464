/-
  MagneticBearing.Proofs.Rounding — how a double is rounded and stored.

  A double is seen as a sign, a mantissa and an exponent, or as an infinity, a zero or not a number. An
  operation rounds its result to a mantissa of 53 places, and `settle` stores it: a number whose exponent
  is too large becomes infinite. Every double has a rank, the integer by which it is a multiple of the
  smallest positive one.

  - `compare_rank`: numbers compare as their ranks do.
  - `roundWithAccuracy_pos`: at the exponents that doubles have nothing is rounded to zero, and
    `settle_sign`: what is stored has the sign of what was rounded.
  - `roundWithAccuracy_le`: what a double bounds is rounded to no larger exponent.
  - `settle_canonical`: what has the form of a double is stored as it is.
-/

import Mathlib
import MagneticBearing.Scalar.Running

namespace MagneticBearing.Running

open Float.Model (Format UnpackedFloat totalExponent)
open Float.Model.UnpackedFloat (Sign ExtendedMantissa Accuracy roundWithAccuracy)

def settle (v : UnpackedFloat) : UnpackedFloat := UnpackedFloat.unpack .binary64 (UnpackedFloat.pack .binary64 v)

/-! ## Ranks -/

/-- What is stored has a whole mantissa, or the least exponent. -/
def Canonical : UnpackedFloat → Prop
  | .finite _ m e _ => m < 2 ^ 53 ∧ -1074 ≤ e ∧ e ≤ 971 ∧ (2 ^ 52 ≤ m ∨ e = -1074)
  | _ => True

theorem exponentBias_eq : Format.binary64.exponentBias = 1023 := by decide

theorem implicit_bit (m : BitVec 52) : (1#1 ++ m).toNat = 2 ^ 52 + m.toNat := by
  rw [BitVec.toNat_append, ← Nat.shiftLeft_add_eq_or_of_lt m.isLt]
  rfl

theorem unpack_canonical (b : BitVec Format.binary64.numBits) : Canonical (UnpackedFloat.unpack .binary64 b) := by
  have hm : (UnpackedFloat.unpackMantissa b).toNat < 2 ^ 52 := (UnpackedFloat.unpackMantissa b).isLt
  have he : (UnpackedFloat.unpackExponent b).toNat < 2 ^ 11 := (UnpackedFloat.unpackExponent b).isLt
  have htop (h : UnpackedFloat.unpackExponent b ≠ -1#_) : (UnpackedFloat.unpackExponent b).toNat ≠ 2 ^ 11 - 1 :=
    fun heq => h (BitVec.eq_of_toNat_eq (heq.trans (by decide)))
  have hlow (h : UnpackedFloat.unpackExponent b ≠ 0#_) : (UnpackedFloat.unpackExponent b).toNat ≠ 0 :=
    fun heq => h (BitVec.eq_of_toNat_eq (heq.trans (by decide)))
  unfold UnpackedFloat.unpack
  simp only [exponentBias_eq]
  split
  · split <;> trivial
  · rename_i hE
    replace hE := htop hE
    split
    · rename_i hzero
      split
      · trivial
      · simp only [hzero]
        exact ⟨by omega, by decide, by decide, .inr (by decide)⟩
    · rename_i hzero
      replace hzero := hlow hzero
      have hmant : (1#1 ++ UnpackedFloat.unpackMantissa b).toNat = _ := implicit_bit (UnpackedFloat.unpackMantissa b)
      refine ⟨?_, ?_, ?_, .inl ?_⟩
      · rw [hmant]
        omega
      · show -1074 ≤ ((UnpackedFloat.unpackExponent b).toNat : Int) - (1023 + 52)
        omega
      · show ((UnpackedFloat.unpackExponent b).toNat : Int) - (1023 + 52) ≤ 971
        omega
      · rw [hmant]
        omega

/-- How many times the smallest positive double a mantissa is at this exponent. -/
def magnitude (m : Nat) (e : ℤ) : Nat := m * 2 ^ (e + 1074).toNat

/-- The magnitude of infinity, as if the exponents went on. -/
def top : Nat := 2 ^ 2098

def rank : UnpackedFloat → ℤ
  | .notANumber => 0
  | .infinity s => s.apply top
  | .zero _ => 0
  | .finite s m e _ => s.apply (magnitude m e)

theorem top_pos : 0 < top := by
  unfold top
  positivity

theorem magnitude_pos {m : Nat} (e : ℤ) (hm : 0 < m) : 0 < magnitude m e := Nat.mul_pos hm (Nat.two_pow_pos _)

theorem magnitude_lt_top {m : Nat} {e : ℤ} (hm : m < 2 ^ 53) (he : e ≤ 971) : magnitude m e < top := by
  calc m * 2 ^ (e + 1074).toNat < 2 ^ 53 * 2 ^ (e + 1074).toNat := Nat.mul_lt_mul_of_pos_right hm (Nat.two_pow_pos _)
    _ = 2 ^ (53 + (e + 1074).toNat) := (pow_add _ _ _).symm
    _ ≤ top := by
        unfold top
        gcongr
        · norm_num
        · omega

/-- The larger exponent belongs to the larger number, if its mantissa is whole. -/
theorem magnitude_lt {m m' : Nat} {e e' : ℤ} (hm : m < 2 ^ 53) (he : -1074 ≤ e) (hm' : 2 ^ 52 ≤ m' ∨ e' = -1074)
    (h : e < e') : magnitude m e < magnitude m' e' := by
  have hwhole : 2 ^ 52 ≤ m' := hm'.resolve_right (by omega)
  calc m * 2 ^ (e + 1074).toNat < 2 ^ 53 * 2 ^ (e + 1074).toNat := Nat.mul_lt_mul_of_pos_right hm (Nat.two_pow_pos _)
    _ = 2 ^ 52 * 2 ^ ((e + 1074).toNat + 1) := by ring
    _ ≤ m' * 2 ^ (e' + 1074).toNat := Nat.mul_le_mul hwhole (Nat.pow_le_pow_right (by norm_num) (by omega))

theorem compare_magnitude {m m' : Nat} {e e' : ℤ} {hm : 0 < m} {hm' : 0 < m'} {s s' : Sign}
    (h : Canonical (.finite s m e hm)) (h' : Canonical (.finite s' m' e' hm')) :
    (compare e e').then (compare m m') = compare (magnitude m e : ℤ) (magnitude m' e') := by
  obtain ⟨hlt, hle, -, hwhole⟩ := h
  obtain ⟨hlt', hle', -, hwhole'⟩ := h'
  rcases lt_trichotomy e e' with he | rfl | he
  · have hmag := magnitude_lt hlt hle hwhole' he
    rw [compare_lt_iff_lt.mpr he, compare_lt_iff_lt.mpr (Int.ofNat_lt.mpr hmag)]
    rfl
  · rw [compare_eq_iff_eq.mpr rfl]
    rcases lt_trichotomy m m' with hmm | rfl | hmm
    · have hmag : magnitude m e < magnitude m' e := Nat.mul_lt_mul_of_pos_right hmm (Nat.two_pow_pos _)
      rw [compare_lt_iff_lt.mpr hmm, compare_lt_iff_lt.mpr (Int.ofNat_lt.mpr hmag)]
      rfl
    · rw [compare_eq_iff_eq.mpr rfl, compare_eq_iff_eq.mpr rfl]
      rfl
    · have hmag : magnitude m' e < magnitude m e := Nat.mul_lt_mul_of_pos_right hmm (Nat.two_pow_pos _)
      rw [compare_gt_iff_gt.mpr hmm, compare_gt_iff_gt.mpr (Int.ofNat_lt.mpr hmag)]
      rfl
  · have hmag := magnitude_lt hlt' hle' hwhole he
    rw [compare_gt_iff_gt.mpr he, compare_gt_iff_gt.mpr (Int.ofNat_lt.mpr hmag)]
    rfl

theorem compare_neg_neg (a b : ℤ) : compare (-a) (-b) = (compare a b).swap := by
  rcases lt_trichotomy a b with h | rfl | h
  · rw [compare_lt_iff_lt.mpr h, compare_gt_iff_gt.mpr (neg_lt_neg h)]
    rfl
  · simp
  · rw [compare_gt_iff_gt.mpr h, compare_lt_iff_lt.mpr (neg_lt_neg h)]
    rfl

theorem rank_bounds {v : UnpackedFloat} (hv : Canonical v) (hf : v.isFinite = true) : -top < rank v ∧ rank v < top := by
  have htop := top_pos
  cases v with
  | notANumber | infinity s => cases hf
  | zero s =>
    show -(top : ℤ) < 0 ∧ 0 < (top : ℤ)
    omega
  | finite s m e hm =>
    have hlt := magnitude_lt_top hv.1 hv.2.2.1
    cases s <;> simp only [rank, Sign.apply] <;> omega

theorem some_lt {a b : ℤ} (h : a < b) : some Ordering.lt = some (compare a b) := by
  rw [compare_lt_iff_lt.mpr h]

theorem some_gt {a b : ℤ} (h : b < a) : some Ordering.gt = some (compare a b) := by
  rw [compare_gt_iff_gt.mpr h]

theorem some_eq {a b : ℤ} (h : a = b) : some Ordering.eq = some (compare a b) := by
  rw [compare_eq_iff_eq.mpr h]

/-- Numbers compare as their ranks do. -/
theorem compare_rank {a b : UnpackedFloat} (ha : Canonical a) (hb : Canonical b) (hna : a ≠ .notANumber)
    (hnb : b ≠ .notANumber) : a.compare b = some (compare (rank a) (rank b)) := by
  have htop := top_pos
  cases a with
  | notANumber => exact absurd rfl hna
  | infinity s =>
    cases b with
    | notANumber => exact absurd rfl hnb
    | infinity s' =>
      cases s <;> cases s'
      · exact some_eq rfl
      · exact some_lt (by simp only [rank, Sign.apply]; omega)
      · exact some_gt (by simp only [rank, Sign.apply]; omega)
      · exact some_eq rfl
    | zero _ | finite _ _ _ _ =>
      obtain ⟨hlow, hhigh⟩ := rank_bounds hb rfl
      cases s
      · exact some_lt hlow
      · exact some_gt hhigh
  | zero s =>
    cases b with
    | notANumber => exact absurd rfl hnb
    | infinity s' =>
      cases s'
      · exact some_gt (by simp only [rank, Sign.apply]; omega)
      · exact some_lt (by simp only [rank, Sign.apply]; omega)
    | zero s' => exact some_eq rfl
    | finite s' m' e' hm' =>
      have hpos := magnitude_pos e' hm'
      cases s'
      · exact some_gt (by simp only [rank, Sign.apply]; omega)
      · exact some_lt (by simp only [rank, Sign.apply]; omega)
  | finite s m e hm =>
    have hpos := magnitude_pos e hm
    obtain ⟨hlow, hhigh⟩ := rank_bounds ha rfl
    cases b with
    | notANumber => exact absurd rfl hnb
    | infinity s' =>
      cases s' <;> cases s
      · exact some_gt hlow
      · exact some_gt hlow
      · exact some_lt hhigh
      · exact some_lt hhigh
    | zero s' =>
      cases s
      · exact some_lt (by simp only [rank, Sign.apply]; omega)
      · exact some_gt (by simp only [rank, Sign.apply]; omega)
    | finite s' m' e' hm' =>
      have hpos' := magnitude_pos e' hm'
      have hmag := compare_magnitude ha hb
      cases s <;> cases s'
      · exact congrArg some ((congrArg Ordering.swap hmag).trans (compare_neg_neg _ _).symm)
      · exact some_lt (by simp only [rank, Sign.apply]; omega)
      · exact some_gt (by simp only [rank, Sign.apply]; omega)
      · exact congrArg some hmag

/-! ## Rounding -/

/-- How many places a mantissa has at this exponent that a double has no room for. -/
def excess (m : Nat) (e : ℤ) : Nat := (max (m.log2 + 1 + e - 53) (-1074) - e).toNat

theorem targetExponent_eq (t : ℤ) : Format.binary64.targetExponent t = max (t - 53) (-1074) := by
  have hmin : Format.binary64.minExponent = -1074 := by decide
  rw [Format.targetExponent, hmin]
  rfl

theorem excess_eq (m : Nat) (e : ℤ) :
    (Format.binary64.targetExponent (totalExponent m e) - e).toNat = excess m e := by
  rw [targetExponent_eq]
  rfl

theorem shift_mantissa (em : ExtendedMantissa) (n : Nat) : (em >>> n).mantissa = em.mantissa / 2 ^ n := by
  induction n with
  | zero => simp [HShiftRight.hShiftRight, Nat.repeat]
  | succ n ih =>
    show (em >>> n).mantissa / 2 = _
    rw [ih, Nat.div_div_eq_div_mul, Nat.pow_succ]

/-- Zeros are dropped without a trace. -/
theorem shift_exact (k n : Nat) : (ExtendedMantissa.mk (k * 2 ^ n) false false) >>> n = ExtendedMantissa.mk k false false := by
  induction n generalizing k with
  | zero => simp [HShiftRight.hShiftRight, Nat.repeat]
  | succ n ih =>
    have hk : k * 2 ^ (n + 1) = 2 * k * 2 ^ n := by ring
    show ExtendedMantissa.shiftRightOne ((ExtendedMantissa.mk (k * 2 ^ (n + 1)) false false) >>> n) = _
    rw [hk, ih]
    simp [ExtendedMantissa.shiftRightOne]

/-- Rounding keeps the mantissa or takes the next one. -/
theorem roundedMantissa_bounds (em : ExtendedMantissa) :
    em.mantissa ≤ em.roundedMantissa ∧ em.roundedMantissa ≤ em.mantissa + 1 := by
  obtain ⟨m, _ | _, _ | _⟩ := em <;>
    simp only [ExtendedMantissa.roundedMantissa, ExtendedMantissa.accuracy, Accuracy.roundToNearestEven] <;> omega

def rounded (m : Nat) (e : ℤ) : Nat := ((ExtendedMantissa.mk m false false) >>> excess m e).roundedMantissa

theorem rounded_bounds (m : Nat) (e : ℤ) : m / 2 ^ excess m e ≤ rounded m e ∧ rounded m e ≤ m / 2 ^ excess m e + 1 := by
  have := roundedMantissa_bounds ((ExtendedMantissa.mk m false false) >>> excess m e)
  rwa [shift_mantissa] at this

/-- Rounding does not pass a mantissa that needs none. -/
theorem rounded_le {m k : Nat} {e : ℤ} (h : m ≤ k * 2 ^ excess m e) : rounded m e ≤ k := by
  rcases Nat.eq_or_lt_of_le h with heq | hlt
  · unfold rounded
    generalize excess m e = n at *
    subst heq
    rw [shift_exact]
    exact Nat.le_refl _
  · have hdiv : m / 2 ^ excess m e < k := (Nat.div_lt_iff_lt_mul (Nat.two_pow_pos _)).mpr hlt
    exact le_trans (rounded_bounds m e).2 hdiv

/-- A mantissa that got one place longer by rounding is shifted once more. -/
theorem roundWithAccuracy_eq (s : Sign) (m : Nat) (e : ℤ) : roundWithAccuracy .binary64 s m e .exact =
    (let r := rounded m e
     let e' := e + excess m e
     if h : r / 2 ^ excess r e' = 0 then .zero s
     else .finite s (r / 2 ^ excess r e') (e' + excess r e') (Nat.pos_of_ne_zero h)) := by
  unfold roundWithAccuracy UnpackedFloat.shiftToTargetExponent UnpackedFloat.shiftToExponent
  simp only [excess_eq, ExtendedMantissa.ofMantissaAndAccuracy, shift_mantissa]
  rfl

theorem shifted_lt (m : Nat) (e : ℤ) : m / 2 ^ excess m e < 2 ^ 53 := by
  rw [Nat.div_lt_iff_lt_mul (Nat.two_pow_pos _), ← pow_add]
  calc m < 2 ^ (m.log2 + 1) := Nat.lt_log2_self
    _ ≤ 2 ^ (53 + excess m e) := Nat.pow_le_pow_right (by norm_num) (by unfold excess; omega)

theorem shifted_pos {m : Nat} {e : ℤ} (hm : 0 < m) (he : -1074 ≤ e) : 0 < m / 2 ^ excess m e := by
  refine Nat.div_pos ?_ (Nat.two_pow_pos _)
  calc 2 ^ excess m e ≤ 2 ^ m.log2 := Nat.pow_le_pow_right (by norm_num) (by unfold excess; omega)
    _ ≤ m := Nat.log2_self_le hm.ne'

/-- What rounding gives: a mantissa of at most 53 places at an exponent that doubles have, or a larger one. -/
def Rounded : UnpackedFloat → Prop
  | .finite _ m e _ => m < 2 ^ 53 ∧ -1074 ≤ e
  | _ => True

theorem Canonical.rounded {v : UnpackedFloat} (h : Canonical v) : Rounded v := by
  cases v with
  | finite s m e hm => exact ⟨h.1, h.2.1⟩
  | notANumber | infinity s | zero s => trivial

theorem roundWithAccuracy_rounded (s : Sign) (m : Nat) (e : ℤ) : Rounded (roundWithAccuracy .binary64 s m e .exact) := by
  rw [roundWithAccuracy_eq]
  simp only
  split
  · trivial
  · refine ⟨shifted_lt _ _, ?_⟩
    generalize e + (excess m e : ℤ) = e'
    unfold excess
    omega

theorem roundWithAccuracy_isFinite (s : Sign) (m : Nat) (e : ℤ) :
    (roundWithAccuracy .binary64 s m e .exact).isFinite = true := by
  rw [roundWithAccuracy_eq]
  simp only
  split <;> rfl

/-- At the exponents that doubles have no mantissa is rounded to zero. -/
theorem roundWithAccuracy_pos (s : Sign) {m : Nat} {e : ℤ} (hm : 0 < m) (he : -1074 ≤ e) :
    ∃ m' e' h, roundWithAccuracy .binary64 s m e .exact = .finite s m' e' h := by
  have hr : 0 < rounded m e := lt_of_lt_of_le (shifted_pos hm he) (rounded_bounds m e).1
  have hpos := shifted_pos (e := e + excess m e) hr (by omega)
  rw [roundWithAccuracy_eq]
  simp only [dif_neg hpos.ne']
  exact ⟨_, _, hpos, rfl⟩

/-- A number that a double bounds has room at the exponent of this double. -/
theorem add_excess_le {m k : Nat} {e e₀ : ℤ} (hk : k < 2 ^ 53) (he₀ : -1074 ≤ e₀) (he : e ≤ e₀)
    (hle : m ≤ k * 2 ^ (e₀ - e).toNat) : e + excess m e ≤ e₀ := by
  have hlog : m.log2 < 53 + (e₀ - e).toNat := by
    rcases Nat.eq_zero_or_pos m with rfl | hm
    · simp
    · rw [Nat.log2_lt hm.ne', pow_add]
      exact lt_of_le_of_lt hle (Nat.mul_lt_mul_of_pos_right hk (Nat.two_pow_pos _))
  unfold excess
  omega

theorem roundWithAccuracy_le {s s' : Sign} {m k m' : Nat} {e e₀ e' : ℤ} {h : 0 < m'} (hk : k < 2 ^ 53)
    (he₀ : -1074 ≤ e₀) (he : e ≤ e₀) (hle : m ≤ k * 2 ^ (e₀ - e).toNat)
    (hround : roundWithAccuracy .binary64 s m e .exact = .finite s' m' e' h) : e' ≤ e₀ := by
  have hfirst := add_excess_le hk he₀ he hle
  have hrounded : rounded m e ≤ k * 2 ^ (e₀ - (e + excess m e)).toNat := by
    refine rounded_le ?_
    rw [mul_assoc, ← pow_add]
    convert hle using 3
    omega
  have hsecond := add_excess_le hk he₀ hfirst hrounded
  rw [roundWithAccuracy_eq] at hround
  simp only at hround
  split at hround
  · cases hround
  · cases hround
    exact hsecond

/-! ## Storing -/

theorem settle_infinity (s : Sign) : settle (.infinity s) = .infinity s := by
  cases s <;> rfl

theorem settle_zero (s : Sign) : settle (.zero s) = .zero s := by
  cases s <;> rfl

theorem unpackSign_packComponents (f : Format) (s : Sign) (e : BitVec f.exponentBits)
    (m : BitVec f.mantissaBitsWithoutImplicit) :
    UnpackedFloat.unpackSign (UnpackedFloat.packComponents f s e m) = s.toBitVec := by
  apply BitVec.eq_of_getLsbD_eq
  intro i hi
  obtain rfl : i = 0 := by omega
  simp [UnpackedFloat.unpackSign, UnpackedFloat.packComponents, BitVec.getLsbD_append, BitVec.getElem_append]

theorem ofBitVec_toBitVec (s : Sign) : Sign.ofBitVec s.toBitVec = s := by
  cases s <;> rfl

theorem finite_congr {s : Sign} {m m' : Nat} {e e' : ℤ} {h : 0 < m} {h' : 0 < m'} (hm : m = m') (he : e = e') :
    UnpackedFloat.finite s m e h = .finite s m' e' h' := by
  subst hm he
  rfl

theorem unpack_normal (s : Sign) {e : BitVec 11} (m : BitVec 52) (h1 : e ≠ -1#_) (h0 : e ≠ 0#_) :
    UnpackedFloat.unpack .binary64 (UnpackedFloat.packComponents .binary64 s e m) =
      .finite s (2 ^ 52 + m.toNat) (e.toNat - 1075) (by positivity) := by
  unfold UnpackedFloat.unpack
  simp only [UnpackedFloat.unpackMantissa_packComponents, UnpackedFloat.unpackExponent_packComponents,
    unpackSign_packComponents, ofBitVec_toBitVec]
  rw [if_neg h1, if_neg h0]
  exact finite_congr (implicit_bit m) (by rw [exponentBias_eq]; rfl)

theorem unpack_subnormal (s : Sign) {m : BitVec 52} (hm : 0 < m.toNat) :
    UnpackedFloat.unpack .binary64 (UnpackedFloat.packComponents .binary64 s 0#11 m) =
      .finite s m.toNat (-1074) hm := by
  have hne : m ≠ 0#_ := by
    rintro rfl
    exact absurd hm (by decide)
  unfold UnpackedFloat.unpack
  simp only [UnpackedFloat.unpackMantissa_packComponents, UnpackedFloat.unpackExponent_packComponents,
    unpackSign_packComponents, ofBitVec_toBitVec]
  rw [if_neg (by decide), if_pos trivial, dif_neg hne]
  exact finite_congr rfl (by rw [exponentBias_eq]; rfl)

theorem unpack_packComponents (s : Sign) {e : BitVec 11} {m : BitVec 52} (he : e ≠ -1#_) :
    (∃ m' e' h, UnpackedFloat.unpack .binary64 (UnpackedFloat.packComponents .binary64 s e m) = .finite s m' e' h) ∨
      e = 0#_ ∧ m = 0#_ := by
  by_cases h0 : e = 0#_
  · subst h0
    rcases Nat.eq_zero_or_pos m.toNat with hm | hm
    · exact .inr ⟨rfl, BitVec.eq_of_toNat_eq hm⟩
    · exact .inl ⟨_, _, hm, unpack_subnormal s hm⟩
  · exact .inl ⟨_, _, _, unpack_normal s m he h0⟩

/-- A finite number is stored as one of its sign, unless its exponent is too large. -/
theorem settle_finite {s : Sign} {m : Nat} {e : ℤ} {hm : 0 < m} (h : Rounded (.finite s m e hm)) :
    971 < e ∧ settle (.finite s m e hm) = .infinity s ∨ ∃ m' e' h, settle (.finite s m e hm) = .finite s m' e' h := by
  obtain ⟨hlt, hle⟩ := h
  unfold settle UnpackedFloat.pack
  simp only [exponentBias_eq]
  split
  · rename_i hbig
    refine .inl ⟨?_, settle_infinity s⟩
    replace hbig : 2 ^ 11 ≤ (e + 1023 + 52).toNat + 1 := hbig
    omega
  · rename_i hbig
    replace hbig : ¬ 2 ^ 11 ≤ (e + 1023 + 52).toNat + 1 := hbig
    have hbits : (BitVec.ofNat 11 (e + 1023 + 52).toNat).toNat = (e + 1075).toNat := by
      rw [BitVec.toNat_ofNat, Nat.mod_eq_of_lt (by omega)]
      omega
    split
    · have hne : BitVec.ofNat 11 (e + 1023 + 52).toNat ≠ -1#_ := by
        intro h
        have : (e + 1075).toNat = 2 ^ 11 - 1 := hbits.symm.trans (congrArg BitVec.toNat h)
        omega
      rcases unpack_packComponents s (m := BitVec.ofNat 52 m) hne with h | ⟨h, -⟩
      · exact .inr h
      · have : (e + 1075).toNat = 0 := hbits.symm.trans (congrArg BitVec.toNat h)
        omega
    · rename_i hlog
      replace hlog : ¬ m.log2 + 1 = 53 := hlog
      have hshort : m < 2 ^ 52 := by
        have hlog' := (Nat.log2_lt hm.ne').mpr hlt
        exact (Nat.log2_lt hm.ne').mp (by omega)
      rcases unpack_packComponents s (e := 0#11) (m := BitVec.ofNat 52 m) (by decide) with h | ⟨-, h⟩
      · exact .inr h
      · have := congrArg BitVec.toNat h
        rw [BitVec.toNat_ofNat, Nat.mod_eq_of_lt hshort] at this
        exact absurd this hm.ne'

/-- What has the form of a stored number is stored as it is. -/
theorem settle_canonical {v : UnpackedFloat} (h : Canonical v) : settle v = v := by
  cases v with
  | notANumber => exact UnpackedFloat.unpack_packedNaN
  | infinity s => exact settle_infinity s
  | zero s => exact settle_zero s
  | finite s m e hm =>
    obtain ⟨hlt, hle, hmax, hwhole⟩ := h
    unfold settle UnpackedFloat.pack
    simp only [exponentBias_eq]
    split
    · rename_i hbig
      replace hbig : 2 ^ 11 ≤ (e + 1023 + 52).toNat + 1 := hbig
      omega
    · have hbits : (BitVec.ofNat 11 (e + 1023 + 52).toNat).toNat = (e + 1075).toNat := by
        rw [BitVec.toNat_ofNat, Nat.mod_eq_of_lt (by omega)]
        omega
      have hplaces : (BitVec.ofNat 52 m).toNat = m % 2 ^ 52 := BitVec.toNat_ofNat m 52
      split
      · rename_i hlog
        replace hlog : m.log2 + 1 = 53 := hlog
        have hlow : 2 ^ 52 ≤ m := (Nat.le_log2 hm.ne').mp (by omega)
        have h1 : BitVec.ofNat 11 (e + 1023 + 52).toNat ≠ -1#_ := by
          intro h
          have : (e + 1075).toNat = 2 ^ 11 - 1 := hbits.symm.trans (congrArg BitVec.toNat h)
          omega
        have h0 : BitVec.ofNat 11 (e + 1023 + 52).toNat ≠ 0#_ := by
          intro h
          have : (e + 1075).toNat = 0 := hbits.symm.trans (congrArg BitVec.toNat h)
          omega
        refine (unpack_normal s _ h1 h0).trans (finite_congr ?_ ?_)
        · rw [hplaces]
          omega
        · rw [hbits]
          omega
      · rename_i hlog
        replace hlog : ¬ m.log2 + 1 = 53 := hlog
        have hshort : m < 2 ^ 52 := by
          have hlog' := (Nat.log2_lt hm.ne').mpr hlt
          exact (Nat.log2_lt hm.ne').mp (by omega)
        rw [Nat.mod_eq_of_lt hshort] at hplaces
        refine (unpack_subnormal s (by omega)).trans (finite_congr hplaces ?_)
        omega

theorem sign_apply (s : Sign) {n : Nat} (h : 0 < n) : (s.apply n).sign = s.apply 1 := by
  cases s
  · exact Int.sign_eq_neg_one_of_neg (by show -(n : ℤ) < 0; omega)
  · exact Int.sign_eq_one_of_pos (by show 0 < (n : ℤ); omega)

/-- A number is stored as a number of its sign. -/
theorem settle_sign {v : UnpackedFloat} (h : Rounded v) (hn : v ≠ .notANumber) :
    settle v ≠ .notANumber ∧ (rank (settle v)).sign = (rank v).sign := by
  cases v with
  | notANumber => exact absurd rfl hn
  | infinity s =>
    rw [settle_infinity]
    exact ⟨hn, rfl⟩
  | zero s =>
    rw [settle_zero]
    exact ⟨hn, rfl⟩
  | finite s m e hm =>
    have hsign := sign_apply s (magnitude_pos e hm)
    rcases settle_finite h with ⟨-, h⟩ | ⟨m', e', hm', h⟩
    · rw [h]
      exact ⟨by simp, (sign_apply s top_pos).trans hsign.symm⟩
    · rw [h]
      exact ⟨by simp, (sign_apply s (magnitude_pos e' hm')).trans hsign.symm⟩

theorem settle_isFinite {s : Sign} {m : Nat} {e : ℤ} {hm : 0 < m} (h : Rounded (.finite s m e hm)) (he : e ≤ 971) :
    (settle (.finite s m e hm)).isFinite = true := by
  rcases settle_finite h with ⟨h, -⟩ | ⟨m', e', hm', h⟩
  · omega
  · rw [h]
    rfl

theorem isFinite_of_settle {v : UnpackedFloat} (h : (settle v).isFinite = true) : v.isFinite = true := by
  cases v with
  | notANumber => cases h
  | infinity s =>
    rw [settle_infinity] at h
    cases h
  | zero s | finite s m e hm => rfl

/-- Whatever is rounded in whatever way, and whatever is stored, is a number if it was one. -/
theorem settle_ne_notANumber {v : UnpackedFloat} (h : v ≠ .notANumber) : settle v ≠ .notANumber := by
  have hunpack (s : Sign) {e : BitVec 11} (m : BitVec 52) (he : e ≠ -1#_) :
      UnpackedFloat.unpack .binary64 (UnpackedFloat.packComponents .binary64 s e m) ≠ .notANumber := by
    unfold UnpackedFloat.unpack
    simp only [UnpackedFloat.unpackExponent_packComponents]
    rw [if_neg he]
    split
    · split <;> simp
    · simp
  cases v with
  | notANumber => exact absurd rfl h
  | infinity s => rwa [settle_infinity]
  | zero s => rwa [settle_zero]
  | finite s m e hm =>
    unfold settle UnpackedFloat.pack
    simp only [exponentBias_eq]
    split
    · exact (settle_infinity s).trans_ne (by simp)
    · rename_i hbig
      replace hbig : ¬ 2 ^ 11 ≤ (e + 1023 + 52).toNat + 1 := hbig
      split
      · refine hunpack s _ fun heq => ?_
        have hbits := congrArg BitVec.toNat heq
        replace hbits : (e + 1023 + 52).toNat % 2 ^ 11 = 2 ^ 11 - 1 := hbits
        omega
      · exact hunpack s _ (by decide)

theorem roundWithAccuracy_ne_notANumber (s : Sign) (m : Nat) (e : ℤ) (acc : Accuracy) :
    roundWithAccuracy .binary64 s m e acc ≠ .notANumber := by
  unfold roundWithAccuracy
  simp only
  split <;> simp

end MagneticBearing.Running
