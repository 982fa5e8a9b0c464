/-
  MagneticBearing.Proofs.Accuracy — how far a double is from what it was rounded from.

  A finite double stands for a rational number, `value`. A sum, difference or product of finite doubles is
  the exact one but for one unit in the last of its 53 places, or for the smallest double (`Rounds`): the
  mantissa is the exact one cut to its places or the next one (`cut_places`), and a carry out of the last
  place loses nothing (`carried`). What is rounded has the form that doubles have, so it is stored as it is
  unless it is too large to be stored at all (`Rounds.settles`).

  - `near_add`, `near_sub`, `near_mul`: up to 200 the three operations are finite and exact up to `10^-13`.
  - `near_of_add`: so is a sum that comes out finite and no larger.
-/

import MagneticBearing.Proofs.Doubles

namespace MagneticBearing.Running

open Float.Model (Format UnpackedFloat totalExponent)
open Float.Model.UnpackedFloat (Sign ExtendedMantissa Accuracy roundWithAccuracy)

/-! ## What a number stands for -/

/-- The form of a stored number, but for an exponent that may be too large. -/
def Whole : UnpackedFloat → Prop
  | .finite _ m e _ => m < 2 ^ 53 ∧ -1074 ≤ e ∧ (2 ^ 52 ≤ m ∨ e = -1074)
  | _ => True

theorem Canonical.whole {v : UnpackedFloat} (h : Canonical v) : Whole v := by
  cases v with
  | finite s m e hm => exact ⟨h.1, h.2.1, h.2.2.2⟩
  | notANumber | infinity s | zero s => trivial

/-- The rank counts the smallest double. -/
def amount (v : UnpackedFloat) : ℚ := rank v / 2 ^ 1074

/-- One, with the sign. -/
def signed (s : Sign) : ℚ := s.apply 1

theorem signed_positive : signed .positive = 1 := by norm_num [signed, Sign.apply]

theorem signed_negative : signed .negative = -1 := by norm_num [signed, Sign.apply]

theorem abs_signed (s : Sign) : |signed s| = 1 := by
  cases s
  · rw [signed_negative, abs_neg, abs_one]
  · rw [signed_positive, abs_one]

theorem signed_mul (s s' : Sign) : signed (s * s') = signed s * signed s' := by
  have hprod (t : Sign) (h : s * s' = t) : signed (s * s') = signed t := congrArg signed h
  cases s with
  | negative =>
    cases s' with
    | negative => rw [hprod .positive rfl, signed_negative, signed_positive, neg_mul_neg, one_mul]
    | positive => rw [hprod .negative rfl, signed_negative, signed_positive, mul_one]
  | positive =>
    cases s' with
    | negative => rw [hprod .negative rfl, signed_negative, signed_positive, one_mul]
    | positive => rw [hprod .positive rfl, signed_positive, one_mul]

theorem apply_eq_signed (s : Sign) (n : Nat) : ((s.apply n : ℤ) : ℚ) = signed s * n := by
  cases s <;> simp [signed, Sign.apply]

theorem magnitude_eq (m : Nat) {e : ℤ} (he : -1074 ≤ e) : (magnitude m e : ℚ) / 2 ^ 1074 = m * 2 ^ e := by
  have hsplit : (2 : ℚ) ^ e * 2 ^ 1074 = 2 ^ (e + 1074).toNat := by
    rw [← zpow_natCast, ← zpow_natCast, ← zpow_add₀ two_ne_zero]
    congr 1
    omega
  rw [magnitude, div_eq_iff (by positivity), mul_assoc, hsplit]
  push_cast
  rfl

theorem amount_finite (s : Sign) {m : Nat} {e : ℤ} (hm : 0 < m) (he : -1074 ≤ e) :
    amount (.finite s m e hm) = signed s * (m * 2 ^ e) := by
  rw [amount, rank, apply_eq_signed, mul_div_assoc, magnitude_eq m he]

/-- A mantissa moved up, for a smaller exponent. -/
theorem shiftLeft_value (m k : Nat) (e : ℤ) : ((m <<< k : Nat) : ℚ) * 2 ^ (e - k) = m * 2 ^ e := by
  rw [Nat.shiftLeft_eq, zpow_sub₀ two_ne_zero, zpow_natCast]
  push_cast
  field_simp

theorem amount_neg (v : UnpackedFloat) : amount v.neg = -amount v := by
  rw [amount, amount, rank_neg, Int.cast_neg, neg_div]

theorem amount_zero (s : Sign) : amount (.zero s) = 0 := by
  rw [amount, rank, Int.cast_zero, zero_div]

/-! ## One rounding -/

/-- The smallest positive double. -/
def least : ℚ := 1 / 2 ^ 1074

theorem least_pos : 0 < least := by
  unfold least
  positivity

theorem least_le : least ≤ 1 / 10 ^ 20 :=
  one_div_le_one_div_of_le (by positivity)
    ((by norm_num : (10 : ℚ) ^ 20 ≤ 2 ^ 100).trans (pow_le_pow_right₀ one_le_two (by norm_num)))

/-- The exponent at which a number is rounded. -/
theorem add_excess (m : Nat) (e : ℤ) :
    excess m e = 0 ∨ e + excess m e = m.log2 + e - 52 ∨ e + excess m e = -1074 := by
  unfold excess
  omega

theorem le_add_excess (m : Nat) (e : ℤ) : -1074 ≤ e + excess m e := by
  unfold excess
  omega

/-- The last place that is kept is a share of `2^-52` of the number, or the smallest double. -/
theorem last_place_le {m : Nat} {e : ℤ} (hm : 0 < m) (h : excess m e ≠ 0) :
    (2 : ℚ) ^ (e + excess m e) ≤ m * 2 ^ e / 2 ^ 52 + least := by
  have hnonneg : (0 : ℚ) ≤ m * 2 ^ e / 2 ^ 52 := by positivity
  rcases (add_excess m e).resolve_left h with he | he
  · have hlog : (2 : ℚ) ^ m.log2 ≤ m := by exact_mod_cast Nat.log2_self_le hm.ne'
    rw [he]
    calc (2 : ℚ) ^ (m.log2 + e - 52) = 2 ^ m.log2 * 2 ^ e / 2 ^ 52 := by
          rw [zpow_sub₀ two_ne_zero, zpow_add₀ two_ne_zero, zpow_natCast]
          norm_num
      _ ≤ m * 2 ^ e / 2 ^ 52 := by gcongr
      _ ≤ m * 2 ^ e / 2 ^ 52 + least := le_add_of_nonneg_right least_pos.le
  · rw [he]
    refine le_add_of_nonneg_of_le hnonneg (le_of_eq ?_)
    rw [least, zpow_neg, one_div]
    norm_num

/-- A mantissa after its first rounding: it is shifted once more if it got one place longer. -/
def reshift (s : Sign) (r : Nat) (e : ℤ) : UnpackedFloat :=
  if h : r / 2 ^ excess r e = 0 then .zero s
  else .finite s (r / 2 ^ excess r e) (e + excess r e) (Nat.pos_of_ne_zero h)

/-- What a mantissa of any accuracy is rounded to: it is cut to its places, or the next one is taken. -/
theorem roundWithAccuracy_reshift (s : Sign) (m : Nat) (e : ℤ) (acc : Accuracy) :
    ∃ r, m / 2 ^ excess m e ≤ r ∧ r ≤ m / 2 ^ excess m e + 1 ∧
      roundWithAccuracy .binary64 s m e acc = reshift s r (e + excess m e) := by
  have hm : (ExtendedMantissa.ofMantissaAndAccuracy m acc).mantissa = m := by
    rcases acc with _ | _ | _ | _ <;> rfl
  obtain ⟨h1, h2⟩ := roundedMantissa_bounds ((ExtendedMantissa.ofMantissaAndAccuracy m acc) >>> excess m e)
  rw [shift_mantissa, hm] at h1 h2
  refine ⟨_, h1, h2, ?_⟩
  unfold roundWithAccuracy UnpackedFloat.shiftToTargetExponent UnpackedFloat.shiftToExponent
  simp only [excess_eq, ExtendedMantissa.ofMantissaAndAccuracy, shift_mantissa]
  rfl

theorem excess_of_lt {r : Nat} {e : ℤ} (hr : r < 2 ^ 53) (he : -1074 ≤ e) : excess r e = 0 := by
  have hlog : r.log2 < 53 := by
    rcases Nat.eq_zero_or_pos r with rfl | hpos
    · decide
    · exact (Nat.log2_lt hpos.ne').mpr hr
  unfold excess
  omega

theorem excess_carry {e : ℤ} (he : -1074 ≤ e) : excess (2 ^ 53) e = 1 := by
  unfold excess
  rw [Nat.log2_two_pow]
  omega

section Reshift

variable (s : Sign) {r : Nat} {e : ℤ} (hr : r ≤ 2 ^ 53) (he : -1074 ≤ e)

include hr he

/-- A mantissa that got one place longer by rounding ends in a zero. -/
theorem carried : r / 2 ^ excess r e * 2 ^ excess r e = r := by
  rcases Nat.lt_or_eq_of_le hr with hlt | rfl
  · rw [excess_of_lt hlt he, pow_zero, Nat.div_one, mul_one]
  · rw [excess_carry he]
    norm_num

theorem amount_reshift : amount (reshift s r e) = signed s * (r * 2 ^ e) := by
  have hr' : ((r / 2 ^ excess r e : Nat) : ℚ) * 2 ^ excess r e = r := by exact_mod_cast carried hr he
  unfold reshift
  split
  · rename_i h
    rw [h, Nat.cast_zero, zero_mul] at hr'
    rw [amount_zero, ← hr', zero_mul, mul_zero]
  · rw [amount_finite s _ (by omega), zpow_add₀ two_ne_zero, zpow_natCast]
    linear_combination (signed s * 2 ^ e) * hr'

theorem reshift_whole (hfull : 2 ^ 52 ≤ r ∨ e = -1074) : Whole (reshift s r e) := by
  unfold reshift
  split
  · trivial
  · rcases Nat.lt_or_eq_of_le hr with hlt | rfl
    · simp only [excess_of_lt hlt he, pow_zero, Nat.div_one]
      exact ⟨hlt, by omega, hfull.imp_right fun h => by omega⟩
    · simp only [excess_carry he]
      exact ⟨by norm_num, by omega, .inl (by norm_num)⟩

end Reshift

theorem reshift_isFinite (s : Sign) (r : Nat) (e : ℤ) : (reshift s r e).isFinite = true := by
  unfold reshift
  split <;> rfl

/-- What `t` is rounded to, before it is stored. -/
structure Rounds (v : UnpackedFloat) (t : ℚ) : Prop where
  finite : v.isFinite = true
  whole : Whole v
  error : |amount v - t| ≤ |t| / 2 ^ 52 + least

theorem rounds_exact {v : UnpackedFloat} (h : Canonical v) (hf : v.isFinite = true) : Rounds v (amount v) := by
  refine ⟨hf, h.whole, ?_⟩
  rw [sub_self, abs_zero]
  exact add_nonneg (by positivity) least_pos.le

section Cut

variable {m r : Nat} {e : ℤ} (h1 : m / 2 ^ excess m e ≤ r) (h2 : r ≤ m / 2 ^ excess m e + 1)

include h1 h2

/-- The mantissa is the exact one but for one in its last place. -/
theorem cut_places : |(r : ℚ) * 2 ^ excess m e - m| ≤ 2 ^ excess m e := by
  generalize excess m e = n at h1 h2 ⊢
  have hlow : m / 2 ^ n * 2 ^ n ≤ m := Nat.div_mul_le_self m _
  have hhigh : m < (m / 2 ^ n + 1) * 2 ^ n := by
    rw [mul_comm]
    exact Nat.lt_mul_div_succ m (Nat.two_pow_pos n)
  have hr1 := Nat.mul_le_mul_right (2 ^ n) h1
  have hr2 := Nat.mul_le_mul_right (2 ^ n) h2
  have hbelow : m ≤ r * 2 ^ n + 2 ^ n := by linarith
  have habove : r * 2 ^ n ≤ m + 2 ^ n := by linarith
  have hbelow' : (m : ℚ) ≤ r * 2 ^ n + 2 ^ n := by exact_mod_cast hbelow
  have habove' : (r : ℚ) * 2 ^ n ≤ m + 2 ^ n := by exact_mod_cast habove
  rw [abs_le]
  exact ⟨by linarith, by linarith⟩

/-- Where nothing is cut off, the mantissa is the exact one or has all its places. -/
theorem cut_error (hm : 0 < m) (hkept : excess m e = 0 → r = m ∨ 2 ^ 52 ≤ m) :
    |(r : ℚ) * 2 ^ (e + excess m e) - m * 2 ^ e| ≤ m * 2 ^ e / 2 ^ 52 + least := by
  have hpow : (0 : ℚ) < 2 ^ e := by positivity
  have hplaces : |(r : ℚ) * 2 ^ (e + excess m e) - m * 2 ^ e| ≤ 2 ^ (e + excess m e) := by
    calc |(r : ℚ) * 2 ^ (e + excess m e) - m * 2 ^ e| = |(r : ℚ) * 2 ^ excess m e - m| * 2 ^ e := by
          rw [← abs_of_pos hpow, ← abs_mul, abs_of_pos hpow, zpow_add₀ two_ne_zero, zpow_natCast]
          congr 1
          ring
      _ ≤ 2 ^ excess m e * 2 ^ e := mul_le_mul_of_nonneg_right (cut_places h1 h2) hpow.le
      _ = 2 ^ (e + excess m e) := by rw [zpow_add₀ two_ne_zero, zpow_natCast, mul_comm]
  by_cases h : excess m e = 0
  · rcases hkept h with rfl | hfull
    · rw [h, Nat.cast_zero, add_zero, sub_self, abs_zero]
      exact add_nonneg (by positivity) least_pos.le
    · have hfull' : (2 : ℚ) ^ 52 ≤ m := by exact_mod_cast hfull
      rw [h, Nat.cast_zero, add_zero] at hplaces ⊢
      calc |(r : ℚ) * 2 ^ e - m * 2 ^ e| ≤ 2 ^ e := hplaces
        _ = 2 ^ 52 * 2 ^ e / 2 ^ 52 := by field_simp
        _ ≤ m * 2 ^ e / 2 ^ 52 := by gcongr
        _ ≤ m * 2 ^ e / 2 ^ 52 + least := le_add_of_nonneg_right least_pos.le
  · exact hplaces.trans (last_place_le hm h)

/-- The mantissa fills its places if it did before, or the exponent is the least one. -/
theorem cut_full (hfull : 2 ^ 52 ≤ m ∨ e ≤ -1074) : 2 ^ 52 ≤ r ∨ e + excess m e = -1074 := by
  have he := le_add_excess m e
  by_cases h : excess m e = 0
  · rw [h, pow_zero, Nat.div_one] at h1
    rw [h] at he ⊢
    exact hfull.imp h1.trans' fun hle => by omega
  · refine ((add_excess m e).resolve_left h).imp_left fun hlog => h1.trans' ?_
    have hm : m ≠ 0 := by
      rintro rfl
      rw [Nat.log2_zero] at hlog
      omega
    rw [Nat.le_div_iff_mul_le (Nat.two_pow_pos _), ← pow_add]
    calc 2 ^ (52 + excess m e) = 2 ^ m.log2 := by congr 1; omega
      _ ≤ m := Nat.log2_self_le hm

theorem rounds_reshift (s : Sign) (hm : 0 < m) (hfull : 2 ^ 52 ≤ m ∨ e ≤ -1074)
    (hkept : excess m e = 0 → r = m ∨ 2 ^ 52 ≤ m) : Rounds (reshift s r (e + excess m e)) (signed s * (m * 2 ^ e)) := by
  have hr : r ≤ 2 ^ 53 := h2.trans (shifted_lt m e)
  have he := le_add_excess m e
  refine ⟨reshift_isFinite _ _ _, reshift_whole s hr he (cut_full h1 h2 hfull), ?_⟩
  have hnonneg : (0 : ℚ) ≤ m * 2 ^ e := by positivity
  rw [amount_reshift s hr he, ← mul_sub, abs_mul, abs_mul, abs_signed, one_mul, one_mul, abs_of_nonneg hnonneg]
  exact cut_error h1 h2 hm hkept

end Cut

theorem rounds_roundWithAccuracy (s : Sign) {m : Nat} {e : ℤ} (hm : 0 < m) (hfull : 2 ^ 52 ≤ m ∨ e ≤ -1074) :
    Rounds (roundWithAccuracy .binary64 s m e .exact) (signed s * (m * 2 ^ e)) := by
  obtain ⟨h1, h2⟩ := rounded_bounds m e
  rw [roundWithAccuracy_eq]
  refine rounds_reshift h1 h2 s hm hfull fun h => .inl ?_
  rw [h, pow_zero, Nat.div_one] at h1
  exact le_antisymm (rounded_le (by rw [h]; omega)) h1

/-- What was cut off before makes no difference where the mantissa is whole. -/
theorem rounds_inexact (s : Sign) {m : Nat} (e : ℤ) (acc : Accuracy) (hfull : 2 ^ 52 ≤ m) :
    Rounds (roundWithAccuracy .binary64 s m e acc) (signed s * (m * 2 ^ e)) := by
  obtain ⟨r, h1, h2, heq⟩ := roundWithAccuracy_reshift s m e acc
  rw [heq]
  exact rounds_reshift h1 h2 s ((Nat.two_pow_pos 52).trans_le hfull) (.inl hfull) fun _ => .inr hfull

/-- A mantissa is brought to all its places first. -/
theorem rounds_round (s : Sign) {m : Nat} (e : ℤ) (hm : 0 < m) :
    Rounds (UnpackedFloat.round .binary64 s m e) (signed s * (m * 2 ^ e)) := by
  have ht := targetExponent_eq (totalExponent m e)
  have htotal : totalExponent m e = m.log2 + 1 + e := rfl
  rw [htotal] at ht
  show Rounds (roundWithAccuracy .binary64 s (m <<< (e - Format.binary64.targetExponent (totalExponent m e)).toNat)
    (e - ((e - Format.binary64.targetExponent (totalExponent m e)).toNat : ℤ)) .exact) _
  rw [htotal, ht]
  generalize hk : (e - max ((m.log2 : ℤ) + 1 + e - 53) (-1074)).toNat = k
  have hfull : 2 ^ 52 ≤ m <<< k ∨ e - (k : ℤ) ≤ -1074 := by
    by_cases hlow : e - (k : ℤ) ≤ -1074
    · exact .inr hlow
    · refine .inl ?_
      calc 2 ^ 52 ≤ 2 ^ (m.log2 + k) := Nat.pow_le_pow_right (by norm_num) (by omega)
        _ = 2 ^ m.log2 * 2 ^ k := pow_add _ _ _
        _ ≤ m * 2 ^ k := Nat.mul_le_mul_right _ (Nat.log2_self_le hm.ne')
        _ = m <<< k := (Nat.shiftLeft_eq m k).symm
  have hpos : 0 < m <<< k := by
    rw [Nat.shiftLeft_eq]
    positivity
  rw [← shiftLeft_value m k e]
  exact rounds_roundWithAccuracy s hpos hfull

theorem rounds_normalize (d e : ℤ) : Rounds (UnpackedFloat.normalize .binary64 d e .positive) (d * 2 ^ e) := by
  unfold UnpackedFloat.normalize
  rcases lt_trichotomy d 0 with h | rfl | h
  · have hd : (d : ℚ) * 2 ^ e = signed .negative * ((-d).toNat * 2 ^ e) := by
      have hcast : (((-d).toNat : ℕ) : ℚ) = -d := by
        rw [← Int.cast_natCast, Int.toNat_of_nonneg (by omega), Int.cast_neg]
      rw [hcast]
      simp [signed, Sign.apply]
    rw [compare_lt_iff_lt.mpr h, hd]
    exact rounds_round .negative e (by omega)
  · have h0 := rounds_exact (v := .zero .positive) trivial rfl
    rwa [amount_zero, ← zero_mul ((2 : ℚ) ^ e), ← Int.cast_zero] at h0
  · have hd : (d : ℚ) * 2 ^ e = signed .positive * (d.toNat * 2 ^ e) := by
      have hcast : ((d.toNat : ℕ) : ℚ) = d := by
        rw [← Int.cast_natCast, Int.toNat_of_nonneg (by omega)]
      rw [hcast]
      simp [signed, Sign.apply]
    rw [compare_gt_iff_gt.mpr h, hd]
    exact rounds_round .positive e (by omega)

section Parts

variable {a b : UnpackedFloat} (ha : Canonical a) (hb : Canonical b) (hfa : a.isFinite = true) (hfb : b.isFinite = true)

include ha hb hfa hfb

theorem rounds_add : Rounds (UnpackedFloat.add .binary64 a b) (amount a + amount b) := by
  cases a with
  | notANumber | infinity s => cases hfa
  | zero s =>
    cases b with
    | notANumber | infinity s' => cases hfb
    | zero s' =>
      have hadd : ∃ t, UnpackedFloat.add .binary64 (.zero s) (.zero s') = .zero t := by
        cases s <;> cases s' <;> exact ⟨_, rfl⟩
      obtain ⟨t, hadd⟩ := hadd
      rw [hadd, amount_zero, amount_zero, add_zero, ← amount_zero t]
      exact rounds_exact trivial rfl
    | finite s' m' e' hm' =>
      rw [amount_zero, zero_add]
      exact rounds_exact hb rfl
  | finite s m e hm =>
    cases b with
    | notANumber | infinity s' => cases hfb
    | zero s' =>
      rw [amount_zero, add_zero]
      exact rounds_exact ha rfl
    | finite s' m' e' hm' =>
      have hsum : amount (.finite s m e hm) + amount (.finite s' m' e' hm') =
          (s.apply (m <<< (e - min e e').toNat : Nat) + s'.apply (m' <<< (e' - min e e').toNat : Nat) : ℤ) *
            2 ^ min e e' := by
        have hm1 := shiftLeft_value m (e - min e e').toNat e
        have hm2 := shiftLeft_value m' (e' - min e e').toNat e'
        have he1 : e - ((e - min e e').toNat : ℤ) = min e e' := by omega
        have he2 : e' - ((e' - min e e').toNat : ℤ) = min e e' := by omega
        rw [he1] at hm1
        rw [he2] at hm2
        rw [amount_finite s hm ha.2.1, amount_finite s' hm' hb.2.1, Int.cast_add, apply_eq_signed, apply_eq_signed,
          ← hm1, ← hm2]
        ring
      rw [hsum]
      exact rounds_normalize _ _

theorem rounds_mul : Rounds (UnpackedFloat.mul .binary64 a b) (amount a * amount b) := by
  cases a with
  | notANumber | infinity s => cases hfa
  | zero s =>
    cases b with
    | notANumber | infinity s' => cases hfb
    | zero s' | finite s' m' e' hm' =>
      rw [amount_zero, zero_mul, ← amount_zero (s * s')]
      exact rounds_exact trivial rfl
  | finite s m e hm =>
    cases b with
    | notANumber | infinity s' => cases hfb
    | zero s' =>
      rw [amount_zero, mul_zero, ← amount_zero (s * s')]
      exact rounds_exact trivial rfl
    | finite s' m' e' hm' =>
      have hprod : amount (.finite s m e hm) * amount (.finite s' m' e' hm') =
          signed (s * s') * ((m * m' : Nat) * 2 ^ (e + e')) := by
        rw [amount_finite s hm ha.2.1, amount_finite s' hm' hb.2.1, signed_mul, zpow_add₀ two_ne_zero]
        push_cast
        ring
      rw [hprod]
      refine rounds_roundWithAccuracy _ (Nat.mul_pos hm hm') ?_
      -- Only two numbers of the least exponent may both fall short of a whole mantissa.
      rcases ha.2.2.2 with hfull | he
      · exact .inl (hfull.trans (Nat.le_mul_of_pos_right m hm'))
      · rcases hb.2.2.2 with hfull | he'
        · exact .inl (hfull.trans (Nat.le_mul_of_pos_left m' hm))
        · exact .inr (by omega)

end Parts

theorem settle_large {s : Sign} {m : Nat} {e : ℤ} (hm : 0 < m) (he : 971 < e) :
    settle (.finite s m e hm) = .infinity s := by
  have hbig : 2 ^ Format.binary64.exponentBits ≤
      (e + (Format.binary64.exponentBias : Nat) + (Format.binary64.mantissaBitsWithoutImplicit : Nat)).toNat + 1 := by
    rw [exponentBias_eq]
    show 2 ^ 11 ≤ (e + 1023 + 52).toNat + 1
    omega
  rw [settle, UnpackedFloat.pack]
  simp only [if_pos hbig]
  exact settle_infinity s

/-- With an exponent that is too large it is beyond every double. -/
theorem Whole.large {s : Sign} {m : Nat} {e : ℤ} {hm : 0 < m} (h : Whole (.finite s m e hm)) (he : 971 < e) :
    2 ^ 1024 ≤ |amount (.finite s m e hm)| := by
  obtain ⟨-, hle, hfull⟩ := h
  have hm52 : (2 : ℚ) ^ 52 ≤ m := by exact_mod_cast hfull.resolve_right (by omega)
  have hpow : (2 : ℚ) ^ 972 ≤ 2 ^ e := by
    rw [← zpow_natCast]
    exact zpow_le_zpow_right₀ one_le_two (by omega)
  rw [amount_finite s hm hle, abs_mul, abs_signed, one_mul, abs_of_nonneg (by positivity)]
  calc (2 : ℚ) ^ 1024 = 2 ^ 52 * 2 ^ 972 := pow_add 2 52 972
    _ ≤ m * 2 ^ e := mul_le_mul hm52 hpow (by positivity) (by positivity)

/-- A number that is not too large is rounded to one that is not. -/
theorem Rounds.abs_lt {v : UnpackedFloat} {t : ℚ} (h : Rounds v t) (ht : |t| ≤ 15 * 2 ^ 1020) : |amount v| < 2 ^ 1024 := by
  have hnear := (abs_sub_abs_le_abs_sub (amount v) t).trans h.error
  have hleast := least_le
  have hone : (1 : ℚ) ≤ 2 ^ 1020 := one_le_pow₀ one_le_two
  have hsplit : (2 : ℚ) ^ 1024 = 2 ^ 4 * 2 ^ 1020 := pow_add 2 4 1020
  rw [hsplit]
  generalize (2 : ℚ) ^ 1020 = room at ht hone ⊢
  linarith

/-- What is not too large is stored as it was rounded. -/
theorem Rounds.settles {v : UnpackedFloat} {t : ℚ} (h : Rounds v t)
    (hs : (settle v).isFinite = true ∨ |t| ≤ 15 * 2 ^ 1020) :
    (settle v).isFinite = true ∧ |amount (settle v) - t| ≤ |t| / 2 ^ 52 + least := by
  have hcanonical : Canonical v := by
    cases v with
    | notANumber | infinity s | zero s => trivial
    | finite s m e hm =>
      refine ⟨h.whole.1, h.whole.2.1, not_lt.mp fun hlarge => ?_, h.whole.2.2⟩
      rcases hs with hs | hs
      · rw [settle_large hm hlarge] at hs
        cases hs
      · exact absurd (h.whole.large hlarge) (not_le.mpr (h.abs_lt hs))
  rw [settle_canonical hcanonical]
  exact ⟨h.finite, h.error⟩

/-! ## Doubles -/

/-- What a finite double stands for. -/
def value (x : Float) : ℚ := amount (view x)

/-- A finite double next to a number. -/
structure Near (x : Float) (t : ℚ) : Prop where
  finite : IsFinite x
  low : t - 1 / 10 ^ 13 ≤ value x
  high : value x ≤ t + 1 / 10 ^ 13

variable {x y : Float}

theorem value_eq (x : Float) : value x = key x / 2 ^ 1074 := rfl

theorem lt_iff_value (hx : IsFinite x) (hy : IsFinite y) : x < y ↔ value x < value y := by
  rw [lt_iff_key hx.isNumber hy.isNumber, value_eq, value_eq, div_lt_div_iff_of_pos_right (by positivity), Int.cast_lt]

theorem le_iff_value (hx : IsFinite x) (hy : IsFinite y) : x ≤ y ↔ value x ≤ value y := by
  rw [le_iff_key hx.isNumber hy.isNumber, value_eq, value_eq, div_le_div_iff_of_pos_right (by positivity), Int.cast_le]

theorem value_zero : IsFinite 0.0 ∧ value 0.0 = 0 := ⟨isFinite_zero, amount_zero _⟩

/-- What is a positive double is read off its parts. -/
theorem value_literal {m : Nat} {e : ℤ} {hm : 0 < m} (h : view x = .finite .positive m e hm) (he : -1074 ≤ e) :
    IsFinite x ∧ value x = m * 2 ^ e := by
  refine ⟨?_, ?_⟩
  · rw [IsFinite, h]
    rfl
  · rw [value, h, amount_finite _ hm he, signed_positive, one_mul]

theorem value_half : IsFinite 0.5 ∧ value 0.5 = 1 / 2 := by
  have hview : view 0.5 = .finite .positive (2 ^ 52) (-53) (by positivity) := by rfl
  obtain ⟨hf, hv⟩ := value_literal hview (by norm_num)
  exact ⟨hf, hv.trans (by norm_num)⟩

theorem value_one : IsFinite 1.0 ∧ value 1.0 = 1 := by
  have hview : view 1.0 = .finite .positive (2 ^ 52) (-52) (by positivity) := by rfl
  obtain ⟨hf, hv⟩ := value_literal hview (by norm_num)
  exact ⟨hf, hv.trans (by norm_num)⟩

theorem value_neg_one : IsFinite (-1.0) ∧ value (-1.0) = -1 := by
  have hview : view (-1.0) = (view 1.0).neg := by rfl
  refine ⟨isFinite_neg_one, ?_⟩
  rw [value, hview, amount_neg]
  exact congrArg Neg.neg value_one.2

theorem value_two : IsFinite 2.0 ∧ value 2.0 = 2 := by
  have hview : view 2.0 = .finite .positive (2 ^ 52) (-51) (by positivity) := by rfl
  obtain ⟨hf, hv⟩ := value_literal hview (by norm_num)
  exact ⟨hf, hv.trans (by norm_num)⟩

/-- What lies strictly between finite doubles is one. -/
theorem value_between {z : Float} (hx : IsFinite x) (hz : IsFinite z) (h1 : x < y) (h2 : y < z) :
    IsFinite y ∧ value x < value y ∧ value y < value z := by
  have hy := (isNumber_of_lt h1).2
  have hlow := (lt_iff_key hx.isNumber hy).mp h1
  have hhigh := (lt_iff_key hy hz.isNumber).mp h2
  have hf : IsFinite y := isFinite_of_key hy (hx.key_bounds.1.trans hlow) (hhigh.trans hz.key_bounds.2)
  exact ⟨hf, (lt_iff_value hx hf).mp h1, (lt_iff_value hf hz).mp h2⟩

theorem value_abs (hx : IsFinite x) : IsFinite x.abs ∧ value x.abs = |value x| := by
  refine ⟨?_, ?_⟩
  · rw [IsFinite, view_abs]
    unfold IsFinite at hx
    cases hv : view x <;> rw [hv] at hx <;> cases hx <;> rfl
  · rw [value_eq, value_eq, key_abs, Int.cast_abs, abs_div, abs_of_pos (by positivity : (0 : ℚ) < 2 ^ 1074)]

/-- Up to 200 one rounding costs little. -/
theorem near_of_rounds {t : ℚ} {v : UnpackedFloat} (hx : view x = settle v) (h : Rounds v t) (hlow : -200 ≤ t)
    (hhigh : t ≤ 200) : Near x t := by
  have ht : |t| ≤ 200 := abs_le.mpr ⟨hlow, hhigh⟩
  have hroom : |t| ≤ 15 * 2 ^ 1020 := by
    calc |t| ≤ 15 * 2 ^ 4 := by linarith
      _ ≤ 15 * 2 ^ 1020 := by gcongr <;> norm_num
  obtain ⟨hf, herror⟩ := h.settles (.inr hroom)
  have hleast := least_le
  obtain ⟨h1, h2⟩ := abs_le.mp (herror.trans (by linarith : |t| / 2 ^ 52 + least ≤ 1 / 10 ^ 13))
  rw [← hx] at hf h1 h2
  exact ⟨hf, by unfold value; linarith, by unfold value; linarith⟩

theorem near_add (hx : IsFinite x) (hy : IsFinite y) (hlow : -200 ≤ value x + value y)
    (hhigh : value x + value y ≤ 200) : Near (x + y) (value x + value y) :=
  near_of_rounds rfl (rounds_add (view_canonical x) (view_canonical y) hx hy) hlow hhigh

theorem near_mul (hx : IsFinite x) (hy : IsFinite y) (hlow : -200 ≤ value x * value y)
    (hhigh : value x * value y ≤ 200) : Near (x * y) (value x * value y) :=
  near_of_rounds rfl (rounds_mul (view_canonical x) (view_canonical y) hx hy) hlow hhigh

theorem rounds_sub (hx : IsFinite x) (hy : IsFinite y) :
    Rounds (UnpackedFloat.sub .binary64 (view x) (view y)) (value x - value y) := by
  rw [sub_eq, sub_eq_add_neg, value, value, ← amount_neg]
  exact rounds_add (view_canonical x) (view_canonical y).neg hx ((isFinite_neg _).trans hy)

theorem near_sub (hx : IsFinite x) (hy : IsFinite y) (hlow : -200 ≤ value x - value y)
    (hhigh : value x - value y ≤ 200) : Near (x - y) (value x - value y) :=
  near_of_rounds rfl (rounds_sub hx hy) hlow hhigh

/-- A sum that comes out finite and not large was not large. -/
theorem near_of_add (h : IsFinite (x + y)) (hlow : -199 ≤ value (x + y)) (hhigh : value (x + y) ≤ 199) :
    Near (x + y) (value x + value y) := by
  obtain ⟨hx, hy⟩ := isFinite_of_add h
  obtain ⟨-, herror⟩ := (rounds_add (view_canonical x) (view_canonical y) hx hy).settles (.inl h)
  have hleast := least_le
  have hsmall : |value (x + y)| ≤ 199 := abs_le.mpr ⟨hlow, hhigh⟩
  have hapart := abs_sub_abs_le_abs_sub (value x + value y) (value (x + y))
  have hle : |value x + value y| - |value (x + y)| ≤ |value x + value y| / 2 ^ 52 + least := by
    rw [abs_sub_comm] at hapart
    exact hapart.trans herror
  obtain ⟨h1, h2⟩ := abs_le.mp (by linarith : |value x + value y| ≤ 200)
  exact near_add hx hy h1 h2

end MagneticBearing.Running
