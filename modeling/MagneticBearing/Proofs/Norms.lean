/-
  MagneticBearing.Proofs.Norms — the norm of a vector of numbers is a number.

  Only two opposite infinities have a sum that is no number, and `hypotOrdered` adds terms of either sign.
  But the squares of its sides are below a quarter of the range (`side_spec`) and the root of their sum is
  hardly longer than the sides (`sqrt_near`, `Sides.root_near`). So in each branch all terms but one are
  finite (`isNumber_missed_short`, `isNumber_missed_long`). Sides that are too long or too short for that
  come into range by the power of two that `hypot` multiplies them with (`long_scaled`, `short_scaled`).

  - `isNumber_hypot`: the norm of numbers is a number, whether they are finite or not.
  - `ForceLaw.isFinite_of_reproduces`: what yields a force is finite.
-/

import MagneticBearing.ForceLaw
import MagneticBearing.Proofs.Accuracy

namespace MagneticBearing.Running

open Float.Model (Format UnpackedFloat totalExponent)
open Float.Model.UnpackedFloat (Sign Accuracy roundWithAccuracy)

/-! ## Square roots -/

/-- A root is cut at an exponent at which it has all its places. -/
theorem sqrt_of_finite {m : Nat} {e : ℤ} (hm : 0 < m) (he : -1074 ≤ e) (hlow : -1000 ≤ m.log2 + e) :
    ∃ (root : Nat) (e' : ℤ) (acc : Accuracy), UnpackedFloat.sqrt .binary64 (.finite .positive m e hm) =
        roundWithAccuracy .binary64 .positive root e' acc ∧
      2 ^ 52 ≤ root ∧ -600 ≤ e' ∧ ((root : ℚ) * 2 ^ e') ^ 2 ≤ m * 2 ^ e := by
  have htotal : totalExponent m e = m.log2 + 1 + e := rfl
  have ht := targetExponent_eq ((totalExponent m e + 1).ediv 2)
  have hcore : ∃ acc, UnpackedFloat.sqrt .binary64 (.finite .positive m e hm) = roundWithAccuracy .binary64 .positive
      (m <<< (e - 2 * min (e.ediv 2) (Format.binary64.targetExponent ((totalExponent m e + 1).ediv 2))).toNat).sqrt
      (min (e.ediv 2) (Format.binary64.targetExponent ((totalExponent m e + 1).ediv 2))) acc := ⟨_, rfl⟩
  generalize hcut : min (e.ediv 2) (Format.binary64.targetExponent ((totalExponent m e + 1).ediv 2)) = e' at hcore
  rw [ht, htotal] at hcut
  have hdiv : e.ediv 2 = e / 2 := rfl
  have hdiv' : ((m.log2 : ℤ) + 1 + e + 1).ediv 2 = (m.log2 + 1 + e + 1) / 2 := rfl
  rw [hdiv, hdiv'] at hcut
  have hshift : (((e - 2 * e').toNat : ℕ) : ℤ) = e - 2 * e' := Int.toNat_of_nonneg (by omega)
  obtain ⟨acc, hcore⟩ := hcore
  refine ⟨_, e', acc, hcore, ?_, by omega, ?_⟩
  · rw [Nat.le_sqrt, Nat.shiftLeft_eq]
    calc 2 ^ 52 * 2 ^ 52 = 2 ^ 104 := by norm_num
      _ ≤ 2 ^ (m.log2 + (e - 2 * e').toNat) := Nat.pow_le_pow_right (by norm_num) (by omega)
      _ = 2 ^ m.log2 * 2 ^ (e - 2 * e').toNat := pow_add _ _ _
      _ ≤ m * 2 ^ (e - 2 * e').toNat := Nat.mul_le_mul_right _ (Nat.log2_self_le hm.ne')
  · have hsq : (((m <<< (e - 2 * e').toNat).sqrt : ℕ) : ℚ) ^ 2 ≤ (m <<< (e - 2 * e').toNat : ℕ) := by
      exact_mod_cast Nat.sqrt_le' _
    have hback := shiftLeft_value m (e - 2 * e').toNat e
    rw [hshift, sub_sub_cancel] at hback
    have hpow : ((2 : ℚ) ^ e') ^ 2 = 2 ^ (2 * e') := by
      rw [mul_comm, zpow_mul]
      rfl
    rw [mul_pow, hpow, ← hback]
    gcongr

theorem least_le_pow {k : ℕ} (h : k ≤ 1064) : 1000 * least ≤ 1 / 2 ^ k := by
  have hsplit : (2 : ℚ) ^ 1074 = 2 ^ 10 * 2 ^ 1064 := pow_add 2 10 1064
  calc 1000 * least ≤ 2 ^ 10 * least := mul_le_mul_of_nonneg_right (by norm_num) least_pos.le
    _ = 1 / 2 ^ 1064 := by
      rw [least, hsplit]
      field_simp
    _ ≤ 1 / 2 ^ k := one_div_le_one_div_of_le (by positivity) (pow_le_pow_right₀ one_le_two h)

theorem view_of_pos {x : Float} (hx : IsFinite x) (h : 0 < value x) :
    ∃ m e hm, view x = .finite .positive m e hm := by
  have hcanonical := view_canonical x
  unfold IsFinite at hx
  unfold value at h
  cases hv : view x with
  | notANumber | infinity s =>
    rw [hv] at hx
    cases hx
  | zero s =>
    rw [hv, amount_zero] at h
    exact absurd h (lt_irrefl _)
  | finite s m e hm =>
    cases s with
    | positive => exact ⟨m, e, hm, rfl⟩
    | negative =>
      rw [hv] at hcanonical h
      rw [amount_finite .negative hm hcanonical.2.1, signed_negative] at h
      have : (0 : ℚ) < m * 2 ^ e := by positivity
      linarith

/-- The place of the leading digit. -/
theorem log2_ge {m : Nat} {e : ℤ} {k : ℕ} (h : (1 : ℚ) / 2 ^ k ≤ m * 2 ^ e) : -(k : ℤ) ≤ m.log2 + e := by
  have hm : (m : ℚ) < 2 ^ (m.log2 + 1) := by exact_mod_cast Nat.lt_log2_self
  have hlt : (2 : ℚ) ^ (-(k : ℤ)) < 2 ^ ((m.log2 : ℤ) + 1 + e) := by
    calc (2 : ℚ) ^ (-(k : ℤ)) = 1 / 2 ^ k := by rw [zpow_neg, zpow_natCast, one_div]
      _ ≤ m * 2 ^ e := h
      _ < 2 ^ (m.log2 + 1) * 2 ^ e := by gcongr
      _ = 2 ^ ((m.log2 : ℤ) + 1 + e) := by
        rw [zpow_add₀ two_ne_zero, ← zpow_natCast]
        norm_cast
  have := (zpow_lt_zpow_iff_right₀ one_lt_two).mp hlt
  omega

theorem value_le_top {x : Float} (hx : IsFinite x) (h : 0 < value x) : value x ≤ 2 ^ 1024 := by
  obtain ⟨m, e, hm, hv⟩ := view_of_pos hx h
  have hcanonical := view_canonical x
  rw [hv] at hcanonical
  obtain ⟨hm53, he, he971, -⟩ := hcanonical
  have hm53' : (m : ℚ) ≤ 2 ^ 53 := by exact_mod_cast hm53.le
  calc value x = m * 2 ^ e := (value_literal hv he).2
    _ ≤ 2 ^ 53 * 2 ^ (971 : ℤ) := mul_le_mul hm53' (zpow_le_zpow_right₀ one_le_two he971) (by positivity) (by positivity)
    _ = 2 ^ 1024 := by rw [zpow_ofNat, ← pow_add]

/-- The root of a number that is not too small is positive, and its square is hardly more than the number. -/
theorem sqrt_near {t : Float} (ht : IsFinite t) (hlow : 1 / 2 ^ 1000 ≤ value t) :
    IsFinite t.sqrt ∧ 0 < value t.sqrt ∧ value t.sqrt ^ 2 ≤ 101 / 100 * value t := by
  have hpos : 0 < value t := lt_of_lt_of_le (by positivity) hlow
  have htop := value_le_top ht hpos
  obtain ⟨m, e, hm, hv⟩ := view_of_pos ht hpos
  have hview : view t.sqrt = settle (UnpackedFloat.sqrt .binary64 (.finite .positive m e hm)) := by
    rw [← hv]
    rfl
  have he : -1074 ≤ e := by
    have hcanonical := view_canonical t
    rw [hv] at hcanonical
    exact hcanonical.2.1
  rw [(value_literal hv he).2] at hlow htop ⊢
  obtain ⟨root, e', acc, hsqrt, hfull, he', hsq⟩ := sqrt_of_finite hm he (log2_ge hlow)
  have hr := rounds_inexact .positive e' acc hfull
  rw [signed_positive, one_mul] at hr
  have hroot : (1 : ℚ) ≤ root := by exact_mod_cast (Nat.one_le_two_pow).trans hfull
  have hsmall : 1000 * least ≤ root * 2 ^ e' := by
    calc 1000 * least ≤ 1 / 2 ^ 600 := least_le_pow (by norm_num)
      _ = 1 * 2 ^ (-600 : ℤ) := by rw [zpow_neg, zpow_ofNat, one_mul, one_div]
      _ ≤ root * 2 ^ e' := mul_le_mul hroot (zpow_le_zpow_right₀ one_le_two he') (by positivity) (by positivity)
  have hlarge : root * 2 ^ e' ≤ (2 : ℚ) ^ 512 := by
    refine (sq_le_sq₀ (by positivity) (by positivity)).mp (hsq.trans (htop.trans_eq ?_))
    rw [← pow_mul]
  generalize (root : ℚ) * 2 ^ e' = r at hr hsq hsmall hlarge
  have hleast := least_pos
  have habs : |r| = r := abs_of_nonneg (by linarith)
  have hroom : |r| ≤ 15 * 2 ^ 1020 := by
    rw [habs]
    exact hlarge.trans ((pow_le_pow_right₀ one_le_two (by norm_num)).trans
      (le_mul_of_one_le_left (by positivity) (by norm_num)))
  obtain ⟨hf, herror⟩ := hr.settles (.inr hroom)
  rw [habs] at herror
  rw [← hsqrt, ← hview] at hf herror
  obtain ⟨h1, h2⟩ := abs_le.mp (herror.trans (by linarith : r / 2 ^ 52 + least ≤ r / 500))
  have hle : value t.sqrt ≤ 501 / 500 * r := by
    unfold value
    linarith
  have hpos : 0 < value t.sqrt := by
    unfold value
    linarith
  refine ⟨hf, hpos, ?_⟩
  calc value t.sqrt ^ 2 ≤ (501 / 500 * r) ^ 2 := pow_le_pow_left₀ hpos.le hle 2
    _ ≤ 101 / 100 * r ^ 2 := by nlinarith [sq_nonneg r]
    _ ≤ 101 / 100 * (m * 2 ^ e) := by gcongr

/-! ## Sides whose squares stay in range -/

/-- The longest side that is squared as it is. -/
def side : ℚ := 2 ^ 511

/-- The square of a side is below the range of a double by a factor of four. -/
theorem side_spec : 1 ≤ side ∧ 2 * side ≤ side * side ∧ 15 / 4 * (side * side) = 15 * 2 ^ 1020 := by
  have h1 : (1 : ℚ) ≤ side := one_le_pow₀ one_le_two
  have h2 : (2 : ℚ) ≤ side := le_self_pow₀ one_le_two (by norm_num)
  have hsq : side * side = 4 * 2 ^ 1020 := by
    rw [side, ← pow_add]
    exact pow_add 2 2 1020
  refine ⟨h1, mul_le_mul_of_nonneg_right h2 (by linarith), ?_⟩
  rw [hsq, ← mul_assoc]
  norm_num only

theorem side_quarter : side / 4 = 2 ^ (509 : ℤ) := by
  rw [zpow_ofNat, side, div_eq_iff four_ne_zero]
  exact pow_add 2 509 2

/-- A finite double of bounded magnitude. -/
structure Within (x : Float) (b : ℚ) : Prop where
  finite : IsFinite x
  bound : |value x| ≤ b

variable {x y h : Float} {b c : ℚ}

theorem mul_error (hx : IsFinite x) (hy : IsFinite y) (h : |value x * value y| ≤ 15 / 4 * (side * side)) :
    IsFinite (x * y) ∧ |value (x * y) - value x * value y| ≤ |value x * value y| / 2 ^ 52 + least := by
  rw [side_spec.2.2] at h
  exact (rounds_mul (view_canonical x) (view_canonical y) hx hy).settles (.inr h)

theorem add_error (hx : IsFinite x) (hy : IsFinite y) (h : |value x + value y| ≤ 15 / 4 * (side * side)) :
    IsFinite (x + y) ∧ |value (x + y) - (value x + value y)| ≤ |value x + value y| / 2 ^ 52 + least := by
  rw [side_spec.2.2] at h
  exact (rounds_add (view_canonical x) (view_canonical y) hx hy).settles (.inr h)

/-- One rounding costs less than a thousandth of a bound. -/
theorem within_of_rounds {t : ℚ} {v : UnpackedFloat} (hx : view x = settle v) (hr : Rounds v t) (ht : |t| ≤ b)
    (h1 : 1 ≤ b) (hroom : b ≤ 15 / 4 * (side * side)) : Within x (1001 / 1000 * b) := by
  rw [side_spec.2.2] at hroom
  obtain ⟨hf, herror⟩ := hr.settles (.inr (ht.trans hroom))
  rw [← hx] at hf herror
  have hleast := least_le
  have hapart := abs_sub_abs_le_abs_sub (value x) t
  exact ⟨hf, by linarith only [hapart.trans herror, ht, h1, hleast]⟩

theorem within_sub (hx : IsFinite x) (hy : IsFinite y) (h : |value x - value y| ≤ b) (h1 : 1 ≤ b)
    (hroom : b ≤ 15 / 4 * (side * side)) : Within (x - y) (1001 / 1000 * b) :=
  within_of_rounds rfl (rounds_sub hx hy) h h1 hroom

theorem Within.add (hx : Within x b) (hy : Within y c) (h1 : 1 ≤ b + c) (hroom : b + c ≤ 15 / 4 * (side * side)) :
    Within (x + y) (1001 / 1000 * (b + c)) :=
  within_of_rounds rfl (rounds_add (view_canonical x) (view_canonical y) hx.finite hy.finite)
    ((abs_add_le _ _).trans (add_le_add hx.bound hy.bound)) h1 hroom

theorem Within.sub (hx : Within x b) (hy : Within y c) (h1 : 1 ≤ b + c) (hroom : b + c ≤ 15 / 4 * (side * side)) :
    Within (x - y) (1001 / 1000 * (b + c)) :=
  within_sub hx.finite hy.finite ((abs_sub _ _).trans (add_le_add hx.bound hy.bound)) h1 hroom

theorem Within.mul (hx : Within x b) (hy : Within y c) (h1 : 1 ≤ b * c) (hroom : b * c ≤ 15 / 4 * (side * side)) :
    Within (x * y) (1001 / 1000 * (b * c)) :=
  within_of_rounds rfl (rounds_mul (view_canonical x) (view_canonical y) hx.finite hy.finite)
    ((abs_mul _ _).trans_le (mul_le_mul hx.bound hy.bound (abs_nonneg _) ((abs_nonneg _).trans hx.bound))) h1 hroom

theorem within_two : Within 2.0 2 := ⟨value_two.1, (congrArg abs value_two.2).trans_le (by norm_num)⟩

theorem within_four : Within 4.0 4 := by
  have hview : view 4.0 = .finite .positive (2 ^ 52) (-50) (by positivity) := by rfl
  obtain ⟨hf, hv⟩ := value_literal hview (by norm_num)
  refine ⟨hf, ?_⟩
  rw [hv]
  norm_num

/-- The sides that `hypotOrdered` is made for. The one after need not be shorter, if both are short enough. -/
structure Sides (x y : Float) : Prop where
  long_finite : IsFinite x
  short_finite : IsFinite y
  long_ge : 1 / 2 ^ 480 ≤ value x
  long_le : value x ≤ side
  short_le : |value y| ≤ side
  ordered : |value x - 2 * value y| ≤ side

section Missed

variable (s : Sides x y) (hh : IsFinite h) (h0 : 0 ≤ value h)

include s

theorem Sides.long_pos : 0 < value x := lt_of_lt_of_le (by positivity) s.long_ge

theorem Sides.long_within : Within x side := ⟨s.long_finite, (abs_of_pos s.long_pos).trans_le s.long_le⟩

theorem Sides.short_within : Within y side := ⟨s.short_finite, s.short_le⟩

theorem Sides.twice_near : IsFinite (2.0 * y) ∧ |value (2.0 * y) - 2 * value y| ≤ side / 500 := by
  obtain ⟨h1, h2, -⟩ := side_spec
  have hle : |value 2.0 * value y| ≤ 2 * side := by
    rw [abs_mul]
    exact mul_le_mul within_two.bound s.short_le (abs_nonneg _) (by norm_num)
  obtain ⟨hf, herror⟩ := mul_error value_two.1 s.short_finite (hle.trans (by linarith))
  rw [value_two.2] at herror hle
  exact ⟨hf, herror.trans (by linarith [least_le])⟩

include hh h0

/-- What the root misses, where it is at most twice the shorter side. -/
theorem isNumber_missed_short (hle : h ≤ 2.0 * y) :
    IsNumber (x * (2.0 * (h - y) - x) + (h - y - 2.0 * (x - y)) * (h - y)) := by
  obtain ⟨h1, h2, -⟩ := side_spec
  obtain ⟨hf2, htwice⟩ := s.twice_near
  obtain ⟨-, htwice⟩ := abs_le.mp htwice
  have hroot := (le_iff_value hh hf2).mp hle
  obtain ⟨hy, hy'⟩ := abs_le.mp s.short_le
  have hd : Within (h - y) (1001 / 1000 * (251 / 250 * side)) :=
    within_sub hh s.short_finite (abs_le.mpr ⟨by linarith, by linarith⟩) (by linarith) (by linarith)
  have hx := s.long_within
  have hfirst := hx.mul ((within_two.mul hd (by linarith) (by linarith)).sub hx (by linarith) (by linarith))
    (by linarith) (by linarith)
  have hsecond := hd.sub (within_two.mul (hx.sub s.short_within (by linarith) (by linarith)) (by linarith) (by linarith))
    (by linarith) (by linarith)
  exact isNumber_add_right hfirst.finite (isNumber_mul_finite hsecond.finite hd.finite)

/-- What the root misses otherwise. -/
theorem isNumber_missed_long (hle : value h ≤ 3 / 2 * side) :
    IsNumber (2.0 * (h - x) * (x - 2.0 * y) + ((4.0 * (h - x) - y) * y + (h - x) * (h - x))) := by
  obtain ⟨h1, h2, -⟩ := side_spec
  obtain ⟨hf2, htwice⟩ := s.twice_near
  obtain ⟨htwice, htwice'⟩ := abs_le.mp htwice
  obtain ⟨hordered, hordered'⟩ := abs_le.mp s.ordered
  have hx0 := s.long_pos
  have hx := s.long_le
  have hd : Within (h - x) (1001 / 1000 * (3 / 2 * side)) :=
    within_sub hh s.long_finite (abs_le.mpr ⟨by linarith, by linarith⟩) (by linarith) (by linarith)
  have hapart : Within (x - 2.0 * y) (1001 / 1000 * (251 / 250 * side)) :=
    within_sub s.long_finite hf2 (abs_le.mpr ⟨by linarith, by linarith⟩) (by linarith) (by linarith)
  have hfirst := (within_two.mul hd (by linarith) (by linarith)).mul hapart (by linarith) (by linarith)
  have hsquare := hd.mul hd (by linarith) (by linarith)
  have hfour := (within_four.mul hd (by linarith) (by linarith)).sub s.short_within (by linarith) (by linarith)
  have hrest := isNumber_mul_finite hfour.finite s.short_finite
  exact isNumber_add_right hfirst.finite (isNumber_add hrest hsquare.finite)

end Missed

theorem least_le_value (hx : IsFinite x) (h : 0 < value x) : least ≤ value x := by
  obtain ⟨m, e, hm, hv⟩ := view_of_pos hx h
  have hrank : (1 : ℚ) ≤ rank (view x) := by
    rw [hv]
    exact_mod_cast Int.toNat_le.mp (magnitude_pos e hm)
  exact div_le_div_of_nonneg_right hrank (by positivity)

theorem value_eq_zero_iff : value x = 0 ↔ key x = 0 := by
  rw [value_eq, div_eq_zero_iff, Int.cast_eq_zero]
  exact or_iff_left (by positivity)

section Ordered

variable (s : Sides x y)

include s

/-- The sum of the squares is in range, and not as small as numbers of few places. -/
theorem Sides.squares : IsFinite (x * x + y * y) ∧ 1 / 2 ^ 1000 ≤ value (x * x + y * y) ∧
    value (x * x + y * y) ≤ 21 / 10 * (side * side) := by
  obtain ⟨h1, h2, -⟩ := side_spec
  have hx2 : value x * value x ≤ side * side := mul_self_le_mul_self s.long_pos.le s.long_le
  have hy2 : value y * value y ≤ side * side := by
    rw [← abs_mul_abs_self]
    exact mul_self_le_mul_self (abs_nonneg _) s.short_le
  have hx0 : 0 ≤ value x * value x := mul_self_nonneg _
  have hy0 : 0 ≤ value y * value y := mul_self_nonneg _
  have hlow : 1 / 2 ^ 960 ≤ value x * value x := by
    have hsplit : (1 : ℚ) / 2 ^ 960 = 1 / 2 ^ 480 * (1 / 2 ^ 480) := by
      rw [div_mul_div_comm, one_mul, ← pow_add]
    rw [hsplit]
    exact mul_self_le_mul_self (by positivity) s.long_ge
  have hsmall : (1000 : ℚ) * (1 / 2 ^ 1000) ≤ 1 / 2 ^ 960 := by
    have hsplit : (2 : ℚ) ^ 1000 = 2 ^ 40 * 2 ^ 960 := pow_add 2 40 960
    rw [hsplit, mul_one_div, div_le_div_iff₀ (by positivity) (by positivity), one_mul]
    exact mul_le_mul_of_nonneg_right (by norm_num) (by positivity)
  have hleast := (least_le_pow (k := 1000) (by norm_num)).trans' (by linarith [least_pos] : least ≤ 1000 * least)
  generalize (1 : ℚ) / 2 ^ 1000 = tiny at hsmall hleast ⊢
  generalize (1 : ℚ) / 2 ^ 960 = small at hsmall hlow
  obtain ⟨hfx, hex⟩ := mul_error s.long_finite s.long_finite ((abs_of_nonneg hx0).trans_le (by linarith))
  obtain ⟨hfy, hey⟩ := mul_error s.short_finite s.short_finite ((abs_of_nonneg hy0).trans_le (by linarith))
  rw [abs_of_nonneg hx0] at hex
  rw [abs_of_nonneg hy0] at hey
  obtain ⟨hex1, hex2⟩ := abs_le.mp hex
  obtain ⟨hey1, hey2⟩ := abs_le.mp hey
  have hpos : 0 ≤ value (x * x) + value (y * y) := by linarith
  obtain ⟨hf, het⟩ := add_error hfx hfy ((abs_of_nonneg hpos).trans_le (by linarith))
  rw [abs_of_nonneg hpos] at het
  obtain ⟨het1, het2⟩ := abs_le.mp het
  exact ⟨hf, by linarith, by linarith⟩

/-- Their root is hardly longer than the sides. -/
theorem Sides.root_near : IsFinite (x * x + y * y).sqrt ∧ 0 < value (x * x + y * y).sqrt ∧
    value (x * x + y * y).sqrt ≤ 3 / 2 * side := by
  have h1 := side_spec.1
  obtain ⟨hf, hlow, hhigh⟩ := s.squares
  obtain ⟨hroot, hpos, hsq⟩ := sqrt_near hf hlow
  refine ⟨hroot, hpos, (sq_le_sq₀ hpos.le (by linarith)).mp ?_⟩
  linarith [mul_self_nonneg side]

theorem isNumber_hypotOrdered : IsNumber (hypotOrdered x y) := by
  obtain ⟨hf, h0, hle⟩ := s.root_near
  have hdouble : IsFinite (2.0 * (x * x + y * y).sqrt) ∧ key (2.0 * (x * x + y * y).sqrt) ≠ 0 := by
    obtain ⟨h1, h2, -⟩ := side_spec
    have htwo : 0 ≤ 2 * value (x * x + y * y).sqrt := by linarith
    have hleast := least_le_value hf h0
    obtain ⟨hf2, herror⟩ := mul_error value_two.1 hf (by
      rw [value_two.2, abs_of_nonneg htwo]
      linarith)
    rw [value_two.2, abs_of_nonneg htwo] at herror
    have hpos : 0 < value (2.0 * (x * x + y * y).sqrt) := by linarith [(abs_le.mp herror).1, least_pos]
    exact ⟨hf2, mt value_eq_zero_iff.mpr hpos.ne'⟩
  have hmiss : IsNumber (if (x * x + y * y).sqrt ≤ 2.0 * y then
      x * (2.0 * ((x * x + y * y).sqrt - y) - x) +
        ((x * x + y * y).sqrt - y - 2.0 * (x - y)) * ((x * x + y * y).sqrt - y)
      else 2.0 * ((x * x + y * y).sqrt - x) * (x - 2.0 * y) +
        ((4.0 * ((x * x + y * y).sqrt - x) - y) * y + ((x * x + y * y).sqrt - x) * ((x * x + y * y).sqrt - x))) := by
    split
    · exact isNumber_missed_short s hf h0.le ‹_›
    · exact isNumber_missed_long s hf h0.le hle
  exact (sub_key_right hf (isNumber_div hmiss hdouble.1.isNumber (.inr hdouble.1) hdouble.2)).1

end Ordered

/-! ## Scaling -/

theorem value_powerOfTwo {e : ℤ} (h : view (powerOfTwo e) = .finite .positive (2 ^ 52) (e - 52) (by positivity))
    (he : -1022 ≤ e) : IsFinite (powerOfTwo e) ∧ value (powerOfTwo e) = 2 ^ e := by
  obtain ⟨hf, hv⟩ := value_literal h (by omega)
  refine ⟨hf, hv.trans ?_⟩
  rw [Nat.cast_pow, Nat.cast_ofNat, ← zpow_natCast, ← zpow_add₀ two_ne_zero]
  congr 1
  omega

section Sorted

variable {big small power : Float} (hb : IsFinite big) (hs : IsFinite small) (h0 : 0 ≤ value small)
  (hle : value small ≤ value big)

include hb hs h0 hle

/-- Sides brought into range by a factor. -/
theorem sides_of_scaled (hp : IsFinite power) (hp0 : 0 < value power) (hlow : 1 / 2 ^ 479 ≤ value big * value power)
    (hhigh : value big * value power ≤ side / 4) : Sides (big * power) (small * power) := by
  obtain ⟨h1, h2, -⟩ := side_spec
  have hshort0 : 0 ≤ value small * value power := mul_nonneg h0 hp0.le
  have hshort : value small * value power ≤ value big * value power := mul_le_mul_of_nonneg_right hle hp0.le
  have hlong0 := hshort0.trans hshort
  obtain ⟨hfb, heb⟩ := mul_error hb hp ((abs_of_nonneg hlong0).trans_le (by linarith))
  obtain ⟨hfs, hes⟩ := mul_error hs hp ((abs_of_nonneg hshort0).trans_le (by linarith))
  rw [abs_of_nonneg hlong0] at heb
  rw [abs_of_nonneg hshort0] at hes
  obtain ⟨heb1, heb2⟩ := abs_le.mp heb
  obtain ⟨hes1, hes2⟩ := abs_le.mp hes
  have hleast := least_le
  have hleast0 := least_pos
  have hhalf : (1 : ℚ) / 2 ^ 480 = 1 / 2 ^ 479 / 2 := by rw [div_div, ← pow_succ]
  have htiny := least_le_pow (k := 479) (by norm_num)
  refine ⟨hfb, hfs, ?_, by linarith, abs_le.mpr ⟨by linarith, by linarith⟩, abs_le.mpr ⟨by linarith, by linarith⟩⟩
  rw [hhalf]
  generalize (1 : ℚ) / 2 ^ 479 = low at hlow htiny
  linarith

/-- Sides that are in range as they are. -/
theorem sides_of_range (hlow : 1 / 2 ^ 480 ≤ value small) (hhigh : value big ≤ side) : Sides big small :=
  ⟨hb, hs, hlow.trans hle, hhigh, abs_le.mpr ⟨by linarith, by linarith⟩, abs_le.mpr ⟨by linarith, by linarith⟩⟩

omit hs h0 hle in
/-- Long sides are made shorter. -/
theorem long_scaled (hlong : side < value big) :
    1 / 2 ^ 479 ≤ value big * 2 ^ (-600 : ℤ) ∧ value big * 2 ^ (-600 : ℤ) ≤ side / 4 := by
  have htop := value_le_top hb ((zero_lt_one.trans_le side_spec.1).trans hlong)
  constructor
  · calc (1 : ℚ) / 2 ^ 479 = 2 ^ (-479 : ℤ) := by rw [zpow_neg, zpow_ofNat, one_div]
      _ ≤ 2 ^ (-89 : ℤ) := zpow_le_zpow_right₀ one_le_two (by norm_num)
      _ = side * 2 ^ (-600 : ℤ) := by rw [side, ← zpow_natCast, ← zpow_add₀ two_ne_zero]; rfl
      _ ≤ value big * 2 ^ (-600 : ℤ) := by gcongr
  · calc value big * 2 ^ (-600 : ℤ) ≤ 2 ^ 1024 * 2 ^ (-600 : ℤ) := by gcongr
      _ = 2 ^ (424 : ℤ) := by rw [← zpow_natCast, ← zpow_add₀ two_ne_zero]; rfl
      _ ≤ 2 ^ (509 : ℤ) := zpow_le_zpow_right₀ one_le_two (by norm_num)
      _ = side / 4 := side_quarter.symm

omit hb h0 in
/-- Short sides are made longer. -/
theorem short_scaled (hpos : 0 < value small) (hshort : value small < 2 ^ (-459 : ℤ))
    (hclose : value big ≤ 2 ^ (55 : ℤ) * value small) :
    1 / 2 ^ 479 ≤ value big * 2 ^ (600 : ℤ) ∧ value big * 2 ^ (600 : ℤ) ≤ side / 4 := by
  have hleast := (least_le_value hs hpos).trans hle
  constructor
  · calc (1 : ℚ) / 2 ^ 479 = 2 ^ (-479 : ℤ) := by rw [zpow_neg, zpow_ofNat, one_div]
      _ ≤ 2 ^ (-474 : ℤ) := zpow_le_zpow_right₀ one_le_two (by norm_num)
      _ = 2 ^ (-1074 : ℤ) * 2 ^ (600 : ℤ) := by rw [← zpow_add₀ two_ne_zero]; rfl
      _ = least * 2 ^ (600 : ℤ) := by rw [least, zpow_neg, zpow_ofNat, one_div]
      _ ≤ value big * 2 ^ (600 : ℤ) := by gcongr
  · calc value big * 2 ^ (600 : ℤ) ≤ 2 ^ (55 : ℤ) * 2 ^ (-459 : ℤ) * 2 ^ (600 : ℤ) := by
          refine mul_le_mul_of_nonneg_right (hclose.trans ?_) (by positivity)
          exact mul_le_mul_of_nonneg_left hshort.le (by positivity)
      _ = 2 ^ (196 : ℤ) := by rw [← zpow_add₀ two_ne_zero, ← zpow_add₀ two_ne_zero]; rfl
      _ ≤ 2 ^ (509 : ℤ) := zpow_le_zpow_right₀ one_le_two (by norm_num)
      _ = side / 4 := side_quarter.symm

/-- A side that is scaled is not too short beside the other. -/
theorem close_of_not_le (hshort : value small < 2 ^ (-459 : ℤ)) (h : ¬ small * powerOfTwo 54 ≤ big) :
    0 < value small ∧ value big ≤ 2 ^ (55 : ℤ) * value small := by
  obtain ⟨hp, hv⟩ : IsFinite (powerOfTwo 54) ∧ value (powerOfTwo 54) = 2 ^ (54 : ℤ) := value_powerOfTwo rfl (by norm_num)
  have hproduct : 0 ≤ value small * 2 ^ (54 : ℤ) := by positivity
  have hone : value small * 2 ^ (54 : ℤ) ≤ 1 := by
    calc value small * 2 ^ (54 : ℤ) ≤ 2 ^ (-459 : ℤ) * 2 ^ (54 : ℤ) := by gcongr
      _ = 2 ^ (-405 : ℤ) := by rw [← zpow_add₀ two_ne_zero]; rfl
      _ ≤ 1 := zpow_le_one_of_nonpos₀ one_le_two (by norm_num)
  obtain ⟨h1, h2, -⟩ := side_spec
  obtain ⟨hf, herror⟩ := mul_error hs hp (by
    rw [hv, abs_of_nonneg hproduct]
    linarith)
  rw [le_iff_value hf hb, not_le] at h
  rw [hv, abs_of_nonneg hproduct] at herror
  have hpos : 0 < value small := by
    refine lt_of_le_of_ne h0 fun hzero => ?_
    have hkey := key_mul_of_zero (y := powerOfTwo 54) (.inl (value_eq_zero_iff.mp hzero.symm))
    rw [value_eq_zero_iff.mpr hkey] at h
    exact not_lt.mpr (h0.trans hle) h
  have hleast := least_le_value hs hpos
  refine ⟨hpos, h.le.trans ?_⟩
  have hhigh := (abs_le.mp herror).2
  norm_num at hhigh ⊢
  linarith

/-- Each branch of `hypot` answers with a number. -/
theorem isNumber_sorted : IsNumber (
    if powerOfTwo 511 < big then
      if small ≤ big * powerOfTwo (-54) then big + small
      else hypotOrdered (big * powerOfTwo (-600)) (small * powerOfTwo (-600)) * powerOfTwo 600
    else if small < powerOfTwo (-459) then
      if small * powerOfTwo 54 ≤ big then big + small
      else hypotOrdered (big * powerOfTwo 600) (small * powerOfTwo 600) * powerOfTwo (-600)
    else if small ≤ big * powerOfTwo (-54) then big + small
    else hypotOrdered big small) := by
  obtain ⟨hf511, hv511⟩ : IsFinite (powerOfTwo 511) ∧ value (powerOfTwo 511) = 2 ^ (511 : ℤ) :=
    value_powerOfTwo rfl (by norm_num)
  obtain ⟨hf459, hv459⟩ : IsFinite (powerOfTwo (-459)) ∧ value (powerOfTwo (-459)) = 2 ^ (-459 : ℤ) :=
    value_powerOfTwo rfl (by norm_num)
  obtain ⟨hfup, hvup⟩ : IsFinite (powerOfTwo 600) ∧ value (powerOfTwo 600) = 2 ^ (600 : ℤ) :=
    value_powerOfTwo rfl (by norm_num)
  obtain ⟨hfdown, hvdown⟩ : IsFinite (powerOfTwo (-600)) ∧ value (powerOfTwo (-600)) = 2 ^ (-600 : ℤ) :=
    value_powerOfTwo rfl (by norm_num)
  have hlong_iff : powerOfTwo 511 < big ↔ side < value big := by
    rw [lt_iff_value hf511 hb, hv511]
    exact Iff.of_eq (congrArg (· < value big) (zpow_ofNat _ _))
  have hshort_iff : small < powerOfTwo (-459) ↔ value small < 2 ^ (-459 : ℤ) := by
    rw [lt_iff_value hs hf459, hv459]
  have hback {r power : Float} (hr : IsNumber r) (hp : IsFinite power) (h0 : 0 < value power) : IsNumber (r * power) :=
    isNumber_mul hr hp.isNumber (.inr (mt value_eq_zero_iff.mpr h0.ne')) (.inl hp)
  have hup0 : 0 < value (powerOfTwo 600) := by
    rw [hvup]
    positivity
  have hdown0 : 0 < value (powerOfTwo (-600)) := by
    rw [hvdown]
    positivity
  have hsum := isNumber_add hb.isNumber hs
  split
  · rename_i hlong
    split
    · exact hsum
    · obtain ⟨hlow, hhigh⟩ := long_scaled hb (hlong_iff.mp hlong)
      rw [← hvdown] at hlow hhigh
      exact hback (isNumber_hypotOrdered (sides_of_scaled hb hs h0 hle hfdown hdown0 hlow hhigh)) hfup hup0
  · rename_i hlong
    split
    · rename_i hshort
      rw [hshort_iff] at hshort
      split
      · exact hsum
      · rename_i hfar
        obtain ⟨hpos, hclose⟩ := close_of_not_le hb hs h0 hle hshort hfar
        obtain ⟨hlow, hhigh⟩ := short_scaled hs hle hpos hshort hclose
        rw [← hvup] at hlow hhigh
        exact hback (isNumber_hypotOrdered (sides_of_scaled hb hs h0 hle hfup hup0 hlow hhigh)) hfdown hdown0
    · rename_i hshort
      split
      · exact hsum
      · have hlow : (1 : ℚ) / 2 ^ 480 ≤ 2 ^ (-459 : ℤ) := by
          rw [one_div, ← zpow_ofNat, ← zpow_neg]
          exact zpow_le_zpow_right₀ one_le_two (by norm_num)
        rw [hlong_iff] at hlong
        rw [hshort_iff] at hshort
        exact isNumber_hypotOrdered (sides_of_range hb hs h0 hle (hlow.trans (not_lt.mp hshort)) (not_lt.mp hlong))

end Sorted

/-- The norm of numbers is a number, whether they are finite or not. -/
theorem isNumber_hypot (hx : IsNumber x) (hy : IsNumber y) : IsNumber (hypot x y) := by
  by_cases hxy : (!finite x || !finite y) = true
  · have hinf : (isNumber x && !finite x || isNumber y && !finite y) = true := by
      rw [isNumber_iff.mpr hx, isNumber_iff.mpr hy, Bool.true_and, Bool.true_and]
      exact hxy
    rw [hypot, if_pos hxy, if_pos hinf]
    exact fun hn => by cases hn
  · rw [hypot, if_neg hxy]
    simp only [Bool.or_eq_true, Bool.not_eq_true', not_or, Bool.not_eq_false] at hxy
    obtain ⟨hfx, hvx⟩ := value_abs (finite_iff.mp hxy.1)
    obtain ⟨hfy, hvy⟩ := value_abs (finite_iff.mp hxy.2)
    obtain ⟨hb, hs, h0, hle⟩ : IsFinite (max x.abs y.abs) ∧ IsFinite (min x.abs y.abs) ∧
        0 ≤ value (min x.abs y.abs) ∧ value (min x.abs y.abs) ≤ value (max x.abs y.abs) := by
      have hmax : max x.abs y.abs = if x.abs ≤ y.abs then y.abs else x.abs := rfl
      have hmin : min x.abs y.abs = if x.abs ≤ y.abs then x.abs else y.abs := rfl
      rw [hmax, hmin]
      by_cases h : x.abs ≤ y.abs
      · rw [if_pos h, if_pos h]
        exact ⟨hfy, hfx, hvx.symm ▸ abs_nonneg _, (le_iff_value hfx hfy).mp h⟩
      · rw [if_neg h, if_neg h]
        rw [le_iff_value hfx hfy, not_le] at h
        exact ⟨hfx, hfy, hvy.symm ▸ abs_nonneg _, h.le⟩
    exact isNumber_sorted hb hs h0 hle

end MagneticBearing.Running

namespace MagneticBearing

open Running

/-! ## Vectors -/

/-- What passed the check against the force is finite. -/
theorem ForceLaw.isFinite_of_reproduces {law : ForceLaw Float} {s : SpaceVector Float} {target : Cx Float}
    (h : law.reproduces s target = true) : IsFinite s.re ∧ IsFinite s.im := by
  have hmiss : IsFinite (law.ofVector s - target).norm := finite_iff.mp (Bool.and_eq_true_iff.mp h).1
  obtain ⟨hre, him⟩ := isFinite_of_hypot hmiss
  -- Each coordinate of the force has a multiple of that coordinate as its last term.
  have hre' := (isFinite_of_add (isFinite_of_sub hre).1).2
  have him' := (isFinite_of_add (isFinite_of_sub him).1).2
  exact ⟨(isFinite_of_mul hre').2, (isFinite_of_mul him').2⟩

theorem Cx.isNumber_norm {z : Cx Float} (hre : IsNumber z.re) (him : IsNumber z.im) : IsNumber z.norm :=
  isNumber_hypot hre him

end MagneticBearing
