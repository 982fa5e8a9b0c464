/-
  MagneticBearing.Proofs.Doubles — doubles as the numbers of the library.

  Sums, differences and products work on what a double is seen as (`view`), and store what comes out.

  - `sub_key`: the difference of a number and a finite one has the sign of the difference of the ranks, so
    it tells which is larger (`sub_le_zero_iff`, `zero_lt_sub_iff`).
  - `isFinite_mul`: a factor of magnitude at most one keeps a finite number finite.
  - `isNumber_add_right`, `isNumber_mul`, `isNumber_div`: what may be infinite still is a number.
  - `isFinite_of_add`, `isFinite_of_mul`, `isFinite_of_hypot`: what is finite was made of finite parts.
  - `leastBy_least`: among numbers, what is selected is a smallest one.
-/

import MagneticBearing.Proofs.Rounding

namespace MagneticBearing.Running

open Float.Model (Format UnpackedFloat)
open Float.Model.UnpackedFloat (Sign roundWithAccuracy)

/-! ## Sums -/

/-- A sum of mantissas is rounded to a number of its sign. -/
theorem normalize_sign {d e : ℤ} (he : -1074 ≤ e) :
    Rounded (UnpackedFloat.normalize .binary64 d e .positive) ∧
      UnpackedFloat.normalize .binary64 d e .positive ≠ .notANumber ∧
      (rank (UnpackedFloat.normalize .binary64 d e .positive)).sign = d.sign := by
  have hround (s : Sign) {m : Nat} (hm : 0 < m) : Rounded (UnpackedFloat.round .binary64 s m e) ∧
      ∃ m' e' h, UnpackedFloat.round .binary64 s m e = .finite s m' e' h := by
    refine ⟨roundWithAccuracy_rounded s _ _, roundWithAccuracy_pos s ?_ ?_⟩
    · rw [Nat.shiftLeft_eq]
      positivity
    · show -1074 ≤ e - ((e - Format.binary64.targetExponent (Float.Model.totalExponent m e)).toNat : ℤ)
      rw [targetExponent_eq]
      omega
  unfold UnpackedFloat.normalize
  rcases lt_trichotomy d 0 with h | rfl | h
  · obtain ⟨hr, m', e', hm', heq⟩ := hround .negative (m := (-d).toNat) (by omega)
    rw [compare_lt_iff_lt.mpr h]
    simp only [heq] at hr ⊢
    exact ⟨hr, by simp, (sign_apply .negative (magnitude_pos e' hm')).trans (Int.sign_eq_neg_one_of_neg h).symm⟩
  · exact ⟨trivial, by simp, rfl⟩
  · obtain ⟨hr, m', e', hm', heq⟩ := hround .positive (m := d.toNat) (by omega)
    rw [compare_gt_iff_gt.mpr h]
    simp only [heq] at hr ⊢
    exact ⟨hr, by simp, (sign_apply .positive (magnitude_pos e' hm')).trans (Int.sign_eq_one_of_pos h).symm⟩

/-- A mantissa brought to a smaller exponent. -/
theorem apply_shiftLeft (s : Sign) (m : Nat) {e e₀ : ℤ} (he₀ : -1074 ≤ e₀) (he : e₀ ≤ e) :
    s.apply (m <<< (e - e₀).toNat : Nat) * 2 ^ (e₀ + 1074).toNat = s.apply (magnitude m e) := by
  have hm : m <<< (e - e₀).toNat * 2 ^ (e₀ + 1074).toNat = magnitude m e := by
    rw [Nat.shiftLeft_eq, mul_assoc, ← pow_add, magnitude]
    congr 2
    omega
  have hcast : ((m <<< (e - e₀).toNat : Nat) : ℤ) * 2 ^ (e₀ + 1074).toNat = magnitude m e := by exact_mod_cast hm
  cases s
  · exact (neg_mul _ _).trans (congrArg Neg.neg hcast)
  · exact hcast

theorem sign_mul_pow (d : ℤ) (k : Nat) : (d * 2 ^ k).sign = d.sign := by
  rw [Int.sign_mul, Int.sign_eq_one_of_pos (by positivity : (0 : ℤ) < 2 ^ k), mul_one]

section Parts

variable {a b : UnpackedFloat}

/-- The sum of a number and a finite one has the sign that their ranks say. -/
theorem add_sign (ha : Canonical a) (hb : Canonical b) (hna : a ≠ .notANumber) (hfb : b.isFinite = true) :
    Rounded (UnpackedFloat.add .binary64 a b) ∧ UnpackedFloat.add .binary64 a b ≠ .notANumber ∧
      (rank (UnpackedFloat.add .binary64 a b)).sign = (rank a + rank b).sign := by
  cases a with
  | notANumber => exact absurd rfl hna
  | infinity s =>
    have hadd : UnpackedFloat.add .binary64 (.infinity s) b = .infinity s := by
      cases b with
      | notANumber | infinity s' => cases hfb
      | zero s' | finite s' m' e' hm' => rfl
    obtain ⟨hlow, hhigh⟩ := rank_bounds hb hfb
    rw [hadd]
    refine ⟨trivial, hna, ?_⟩
    cases s
    · have hneg : -(top : ℤ) + rank b < 0 := by omega
      exact (sign_apply .negative top_pos).trans (Int.sign_eq_neg_one_of_neg hneg).symm
    · have hpos : 0 < (top : ℤ) + rank b := by omega
      exact (sign_apply .positive top_pos).trans (Int.sign_eq_one_of_pos hpos).symm
  | zero s =>
    cases b with
    | notANumber | infinity s' => cases hfb
    | zero s' =>
      have hadd : ∃ t, UnpackedFloat.add .binary64 (.zero s) (.zero s') = .zero t := by
        cases s <;> cases s' <;> exact ⟨_, rfl⟩
      obtain ⟨t, hadd⟩ := hadd
      rw [hadd]
      exact ⟨trivial, by simp, rfl⟩
    | finite s' m' e' hm' => exact ⟨hb.rounded, by simp [UnpackedFloat.add], congrArg Int.sign (zero_add _).symm⟩
  | finite s m e hm =>
    cases b with
    | notANumber | infinity s' => cases hfb
    | zero s' => exact ⟨ha.rounded, hna, congrArg Int.sign (add_zero _).symm⟩
    | finite s' m' e' hm' =>
      have he := le_min ha.2.1 hb.2.1
      obtain ⟨hr, hn, hsign⟩ := normalize_sign
        (d := s.apply (m <<< (e - min e e').toNat : Nat) + s'.apply (m' <<< (e' - min e e').toNat : Nat)) he
      refine ⟨hr, hn, hsign.trans ?_⟩
      rw [← sign_mul_pow _ (min e e' + 1074).toNat, add_mul, apply_shiftLeft s m he (min_le_left _ _),
        apply_shiftLeft s' m' he (min_le_right _ _)]
      rfl

theorem finite_of_add (h : (UnpackedFloat.add .binary64 a b).isFinite = true) : a.isFinite = true ∧ b.isFinite = true := by
  cases a with
  | notANumber => cases h
  | infinity s =>
    cases b with
    | notANumber => cases h
    | infinity s' => cases s <;> cases s' <;> cases h
    | zero s' | finite s' m' e' hm' => cases h
  | zero s | finite s m e hm =>
    cases b with
    | notANumber | infinity s' => cases h
    | zero s' | finite s' m' e' hm' => exact ⟨rfl, rfl⟩

theorem add_commutes (a b : UnpackedFloat) : UnpackedFloat.add .binary64 a b = UnpackedFloat.add .binary64 b a := by
  cases a with
  | notANumber => cases b <;> rfl
  | infinity s =>
    cases b with
    | infinity s' => cases s <;> cases s' <;> rfl
    | notANumber | zero s' | finite s' m' e' hm' => rfl
  | zero s =>
    cases b with
    | zero s' => cases s <;> cases s' <;> rfl
    | notANumber | infinity s' | finite s' m' e' hm' => rfl
  | finite s m e hm =>
    cases b with
    | finite s' m' e' hm' => simp only [UnpackedFloat.add, min_comm e' e, add_comm]
    | notANumber | infinity s' | zero s' => rfl

/-! ## Differences -/

theorem apply_neg (s : Sign) (n : ℤ) : (-s).apply n = -s.apply n := by
  cases s
  · exact (neg_neg n).symm
  · rfl

theorem sub_eq (a b : UnpackedFloat) : UnpackedFloat.sub .binary64 a b = UnpackedFloat.add .binary64 a b.neg := by
  cases a with
  | notANumber | infinity s | zero s => cases b <;> rfl
  | finite s m e hm =>
    cases b with
    | notANumber | infinity s' | zero s' => rfl
    | finite s' m' e' hm' =>
      unfold UnpackedFloat.sub UnpackedFloat.neg UnpackedFloat.add
      simp only [apply_neg, sub_eq_add_neg]

theorem Canonical.neg (h : Canonical a) : Canonical a.neg := by
  cases a <;> exact h

theorem rank_neg (a : UnpackedFloat) : rank a.neg = -rank a := by
  cases a with
  | notANumber | zero s => rfl
  | infinity s | finite s m e hm => exact apply_neg s _

theorem isFinite_neg (a : UnpackedFloat) : a.neg.isFinite = a.isFinite := by
  cases a <;> rfl

theorem neg_ne_notANumber (h : a ≠ .notANumber) : a.neg ≠ .notANumber := by
  cases a with
  | notANumber => exact absurd rfl h
  | infinity s | zero s | finite s m e hm => simp [UnpackedFloat.neg]

/-! ## Products -/

theorem finite_of_mul (h : (UnpackedFloat.mul .binary64 a b).isFinite = true) : a.isFinite = true ∧ b.isFinite = true := by
  cases a with
  | notANumber => cases h
  | infinity s => cases b <;> cases h
  | zero s | finite s m e hm =>
    cases b with
    | notANumber | infinity s' => cases h
    | zero s' | finite s' m' e' hm' => exact ⟨rfl, rfl⟩

/-- The rank of one. -/
def one : Nat := 2 ^ 1074

theorem magnitude_le_one {m : Nat} {e : ℤ} (hm : 0 < m) (he : -1074 ≤ e) (h : magnitude m e ≤ one) :
    e ≤ 0 ∧ m ≤ 2 ^ (-e).toNat := by
  have hexp : e ≤ 0 := by
    by_contra hpos
    have hlt : one < 2 ^ (e + 1074).toNat := by
      unfold one
      gcongr
      · norm_num
      · omega
    exact absurd h (not_le.mpr (lt_of_lt_of_le hlt (Nat.le_mul_of_pos_left _ hm)))
  have hsplit : one = 2 ^ (-e).toNat * 2 ^ (e + 1074).toNat := by
    rw [one, ← pow_add]
    congr 1
    omega
  rw [hsplit] at h
  exact ⟨hexp, Nat.le_of_mul_le_mul_right h (Nat.two_pow_pos _)⟩

/-- A factor of magnitude at most one keeps a finite number finite. -/
theorem mul_settles (ha : Canonical a) (hb : Canonical b) (hna : a ≠ .notANumber) (hlow : -one ≤ rank a)
    (hhigh : rank a ≤ one) (hfb : b.isFinite = true) : (settle (UnpackedFloat.mul .binary64 a b)).isFinite = true := by
  cases a with
  | notANumber => exact absurd rfl hna
  | infinity s =>
    have htop : one < top := by
      unfold one top
      gcongr <;> norm_num
    cases s <;> simp only [rank, Sign.apply] at hlow hhigh <;> omega
  | zero s =>
    cases b with
    | notANumber | infinity s' => cases hfb
    | zero s' | finite s' k e₀ hk =>
      rw [UnpackedFloat.mul, settle_zero]
      rfl
  | finite s m e hm =>
    cases b with
    | notANumber | infinity s' => cases hfb
    | zero s' =>
      rw [UnpackedFloat.mul, settle_zero]
      rfl
    | finite s' k e₀ hk =>
      have hone : magnitude m e ≤ one := by
        cases s <;> simp only [rank, Sign.apply] at hlow hhigh <;> omega
      obtain ⟨he, hle⟩ := magnitude_le_one hm ha.2.1 hone
      have hprod : m * k ≤ k * 2 ^ (e₀ - (e + e₀)).toNat := by
        rw [mul_comm, show e₀ - (e + e₀) = -e by omega]
        exact Nat.mul_le_mul_left k hle
      have hr := roundWithAccuracy_rounded (s * s') (m * k) (e + e₀)
      have hf := roundWithAccuracy_isFinite (s * s') (m * k) (e + e₀)
      rw [UnpackedFloat.mul]
      cases hround : roundWithAccuracy .binary64 (s * s') (m * k) (e + e₀) .exact with
      | notANumber | infinity t =>
        rw [hround] at hf
        cases hf
      | zero t =>
        rw [settle_zero]
        rfl
      | finite t m' e' hm' =>
        rw [hround] at hr
        have hle' := roundWithAccuracy_le hb.1 hb.2.1 (by omega) hprod hround
        exact settle_isFinite hr (hle'.trans hb.2.2.1)

end Parts

/-! ## Doubles -/

def view (x : Float) : UnpackedFloat := x.toModel.unpack

def IsNumber (x : Float) : Prop := view x ≠ .notANumber

def IsFinite (x : Float) : Prop := (view x).isFinite = true

def key (x : Float) : ℤ := rank (view x)

variable {x y c : Float}

theorem view_canonical (x : Float) : Canonical (view x) := unpack_canonical _

theorem view_sub (x y : Float) : view (x - y) = settle (UnpackedFloat.sub .binary64 (view x) (view y)) := rfl

theorem IsFinite.isNumber (h : IsFinite x) : IsNumber x := by
  intro hn
  rw [IsFinite, hn] at h
  cases h

theorem isFinite_zero : IsFinite 0.0 := rfl

theorem isFinite_neg_one : IsFinite (-1.0) := rfl

theorem key_zero : key 0.0 = 0 := rfl

/-! ### Order -/

theorem lt_iff : x < y ↔ (view x).compare (view y) = some .lt := by
  show decide (x.toModel < y.toModel) = true ↔ _
  rw [decide_eq_true_iff]
  show (view x).lt (view y) = true ↔ _
  simp [UnpackedFloat.lt]

theorem le_iff : x ≤ y ↔ ∃ o, (view x).compare (view y) = some o ∧ o.isLE = true := by
  show decide (x.toModel ≤ y.toModel) = true ↔ _
  rw [decide_eq_true_iff]
  show (view x).le (view y) = true ↔ _
  simp [UnpackedFloat.le, Option.any_eq_true]

theorem beq_iff : (x == y) = true ↔ (view x).compare (view y) = some .eq := by
  show (view x).beq (view y) = true ↔ _
  simp [UnpackedFloat.beq]

/-- What compares is a number. -/
theorem isNumber_of_compare {o : Ordering} (h : (view x).compare (view y) = some o) : IsNumber x ∧ IsNumber y := by
  constructor
  · intro hx
    rw [hx] at h
    cases h
  · intro hy
    rw [hy] at h
    cases hv : view x <;> rw [hv] at h <;> cases h

theorem isNumber_of_le (h : x ≤ y) : IsNumber x ∧ IsNumber y := by
  obtain ⟨o, ho, -⟩ := le_iff.mp h
  exact isNumber_of_compare ho

theorem isNumber_of_lt (h : x < y) : IsNumber x ∧ IsNumber y := isNumber_of_compare (lt_iff.mp h)

theorem compare_key (hx : IsNumber x) (hy : IsNumber y) : (view x).compare (view y) = some (compare (key x) (key y)) :=
  compare_rank (view_canonical x) (view_canonical y) hx hy

theorem lt_iff_key (hx : IsNumber x) (hy : IsNumber y) : x < y ↔ key x < key y := by
  rw [lt_iff, compare_key hx hy, Option.some_inj, compare_lt_iff_lt]

theorem beq_iff_key (hx : IsNumber x) (hy : IsNumber y) : (x == y) = true ↔ key x = key y := by
  rw [beq_iff, compare_key hx hy, Option.some_inj, compare_eq_iff_eq]

theorem le_iff_key (hx : IsNumber x) (hy : IsNumber y) : x ≤ y ↔ key x ≤ key y := by
  rw [le_iff, compare_key hx hy]
  simp [Ordering.isLE_iff_ne_gt, compare_gt_iff_gt]

theorem not_le_iff (hx : IsNumber x) (hy : IsNumber y) : ¬ x ≤ y ↔ y < x := by
  rw [le_iff_key hx hy, lt_iff_key hy hx, not_le]

theorem isNumber_iff : isNumber x = true ↔ IsNumber x := by
  constructor
  · intro h
    exact (isNumber_of_compare (beq_iff.mp h)).1
  · intro h
    exact (beq_iff_key h h).mpr rfl

/-! ### Arithmetic -/

theorem isNumber_add (hx : IsNumber x) (hy : IsFinite y) : IsNumber (x + y) := by
  obtain ⟨hr, hn, -⟩ := add_sign (view_canonical x) (view_canonical y) hx hy
  exact (settle_sign hr hn).1

/-- A difference has the sign of the difference of the ranks. -/
theorem sub_key (hx : IsNumber x) (hy : IsFinite y) : IsNumber (x - y) ∧ (key (x - y)).sign = (key x - key y).sign := by
  obtain ⟨hr, hn, hsign⟩ := add_sign (view_canonical x) (view_canonical y).neg hx ((isFinite_neg _).trans hy)
  rw [← sub_eq, rank_neg, ← sub_eq_add_neg] at hsign
  rw [← sub_eq] at hr hn
  obtain ⟨hn', hsign'⟩ := settle_sign hr hn
  exact ⟨hn', hsign'.trans hsign⟩

theorem sub_le_zero_iff (hx : IsNumber x) (hy : IsFinite y) : x - y ≤ 0.0 ↔ x ≤ y := by
  obtain ⟨hn, hsign⟩ := sub_key hx hy
  rw [le_iff_key hn isFinite_zero.isNumber, le_iff_key hx hy.isNumber, key_zero, ← sub_nonpos (a := key x),
    ← Int.sign_nonpos_iff, hsign, Int.sign_nonpos_iff]

theorem zero_lt_sub_iff (hx : IsNumber x) (hy : IsFinite y) : 0.0 < x - y ↔ y < x := by
  obtain ⟨hn, hsign⟩ := sub_key hx hy
  rw [lt_iff_key isFinite_zero.isNumber hn, lt_iff_key hy.isNumber hx, key_zero, ← sub_pos (a := key x),
    ← Int.sign_pos_iff, hsign, Int.sign_pos_iff]

theorem magnitude_one : magnitude (2 ^ 52) (-52) = one := by
  have he : 52 + (-52 + 1074 : ℤ).toNat = 1074 := by decide
  rw [magnitude, one, ← pow_add, he]

theorem key_one : key 1.0 = one := by
  have hview : view 1.0 = .finite .positive (2 ^ 52) (-52) (Nat.two_pow_pos 52) := by rfl
  rw [key, hview, ← magnitude_one]
  rfl

theorem key_neg_one : key (-1.0) = -one := by
  have hview : view (-1.0) = .finite .negative (2 ^ 52) (-52) (Nat.two_pow_pos 52) := by rfl
  rw [key, hview, ← magnitude_one]
  rfl

theorem isFinite_mul (hlow : -1.0 ≤ c) (hhigh : c ≤ 1.0) (hx : IsFinite x) : IsFinite (c * x) := by
  obtain ⟨hone, hc⟩ := isNumber_of_le hlow
  rw [le_iff_key hone hc, key_neg_one] at hlow
  rw [le_iff_key hc (isNumber_of_le hhigh).2, key_one] at hhigh
  exact mul_settles (view_canonical c) (view_canonical x) hc hlow hhigh hx

/-- A fraction of a finite number is finite. -/
theorem isFinite_fraction (hlow : 0.0 < c) (hhigh : c < 1.0) (hx : IsFinite x) : IsFinite (c * x) := by
  obtain ⟨hc, hone⟩ := isNumber_of_lt hhigh
  rw [lt_iff_key isFinite_zero.isNumber hc, key_zero] at hlow
  have hneg : -1.0 ≤ c := by
    rw [le_iff_key isFinite_neg_one.isNumber hc, key_neg_one]
    omega
  rw [lt_iff_key hc hone] at hhigh
  exact isFinite_mul hneg ((le_iff_key hc hone).mpr hhigh.le) hx

theorem view_abs (x : Float) : view x.abs = (view x).abs := by
  have hc : Canonical (view x).abs := by
    have hx := view_canonical x
    cases hv : view x with
    | notANumber | infinity s | zero s => trivial
    | finite s m e hm =>
      rw [hv] at hx
      exact hx
  exact settle_canonical hc

theorem isNumber_abs (hx : IsNumber x) : IsNumber x.abs := by
  unfold IsNumber at hx ⊢
  rw [view_abs]
  cases hv : view x with
  | notANumber => exact absurd hv hx
  | infinity s | zero s | finite s m e hm => simp [UnpackedFloat.abs]

theorem key_abs (x : Float) : key x.abs = |key x| := by
  have habs (s : Sign) (n : Nat) : (n : ℤ) = |s.apply n| := by
    cases s
    · exact ((abs_neg _).trans (Nat.abs_cast n)).symm
    · exact (Nat.abs_cast n).symm
  rw [key, key, view_abs]
  cases view x with
  | notANumber | zero s => rfl
  | infinity s => exact habs s top
  | finite s m e hm => exact habs s (magnitude m e)

/-! ### Numbers that may be infinite -/

theorem isNumber_add_right (hx : IsFinite x) (hy : IsNumber y) : IsNumber (x + y) := by
  obtain ⟨hr, hn, -⟩ := add_sign (view_canonical y) (view_canonical x) hy hx
  rw [add_commutes] at hr hn
  exact (settle_sign hr hn).1

theorem sub_key_right (hx : IsFinite x) (hy : IsNumber y) :
    IsNumber (x - y) ∧ (key (x - y)).sign = (key x - key y).sign := by
  obtain ⟨hr, hn, hsign⟩ := add_sign (view_canonical y).neg (view_canonical x) (neg_ne_notANumber hy) hx
  rw [add_commutes, ← sub_eq] at hr hn hsign
  rw [rank_neg, neg_add_eq_sub] at hsign
  obtain ⟨hn', hsign'⟩ := settle_sign hr hn
  exact ⟨hn', hsign'.trans hsign⟩

theorem zero_lt_sub_right_iff (hx : IsFinite x) (hy : IsNumber y) : 0.0 < x - y ↔ y < x := by
  obtain ⟨hn, hsign⟩ := sub_key_right hx hy
  rw [lt_iff_key isFinite_zero.isNumber hn, lt_iff_key hy hx.isNumber, key_zero, ← sub_pos (a := key x),
    ← Int.sign_pos_iff, hsign, Int.sign_pos_iff]

theorem lt_of_lt_of_not_lt {z : Float} (h : x < y) (hz : IsNumber z) (h' : ¬ z < y) : x < z := by
  obtain ⟨hx, hy⟩ := isNumber_of_lt h
  rw [lt_iff_key hx hy] at h
  rw [lt_iff_key hz hy, not_lt] at h'
  exact (lt_iff_key hx hz).mpr (h.trans_le h')

/-- Only zero and what is not a number have the key zero. -/
theorem view_of_key_eq_zero (h : key x = 0) : view x = .notANumber ∨ ∃ s, view x = .zero s := by
  have htop := top_pos
  unfold key at h
  cases hv : view x with
  | notANumber => exact .inl rfl
  | zero s => exact .inr ⟨s, rfl⟩
  | infinity s =>
    rw [hv] at h
    cases s <;> simp only [rank, Float.Model.UnpackedFloat.Sign.apply] at h <;> omega
  | finite s m e hm =>
    have hpos := magnitude_pos e hm
    rw [hv] at h
    cases s <;> simp only [rank, Float.Model.UnpackedFloat.Sign.apply] at h <;> omega

/-- A product with zero is zero or not a number. -/
theorem key_mul_of_zero (h : key x = 0 ∨ key y = 0) : key (x * y) = 0 := by
  have hview : view (x * y) = settle (UnpackedFloat.mul .binary64 (view x) (view y)) := rfl
  have hnan : rank (settle .notANumber) = 0 := congrArg rank UnpackedFloat.unpack_packedNaN
  have hzero (s : Sign) : rank (settle (.zero s)) = 0 := congrArg rank (settle_zero s)
  rw [key, hview]
  rcases h with h | h
  · rcases view_of_key_eq_zero h with hx | ⟨s, hx⟩
    · rw [hx]
      exact hnan
    · rw [hx]
      cases view y with
      | notANumber | infinity s' => exact hnan
      | zero s' | finite s' m e hm => exact hzero _
  · rcases view_of_key_eq_zero h with hy | ⟨s, hy⟩
    · rw [hy]
      cases view x <;> exact hnan
    · rw [hy]
      cases view x with
      | notANumber | infinity s' => exact hnan
      | zero s' | finite s' m e hm => exact hzero _

theorem isNumber_of_mul (h : IsNumber (x * y)) : IsNumber x ∧ IsNumber y := by
  have hview : view (x * y) = settle (UnpackedFloat.mul .binary64 (view x) (view y)) := rfl
  unfold IsNumber at h ⊢
  rw [hview] at h
  constructor
  · intro hx
    rw [hx] at h
    exact h UnpackedFloat.unpack_packedNaN
  · intro hy
    rw [hy] at h
    refine h ?_
    cases view x <;> exact UnpackedFloat.unpack_packedNaN

theorem isNumber_of_abs (h : IsNumber x.abs) : IsNumber x := by
  unfold IsNumber at h ⊢
  rw [view_abs] at h
  intro hx
  rw [hx] at h
  exact h rfl

/-- A number strictly between two keys of finite ones is finite. -/
theorem isFinite_of_key (hx : IsNumber x) (hlow : -top < key x) (hhigh : key x < top) : IsFinite x := by
  unfold IsNumber at hx
  unfold IsFinite
  unfold key at hlow hhigh
  cases hv : view x with
  | notANumber => exact absurd hv hx
  | infinity s =>
    rw [hv] at hlow hhigh
    cases s
    · exact absurd hlow (lt_irrefl _)
    · exact absurd hhigh (lt_irrefl _)
  | zero s | finite s m e hm => rfl

theorem IsFinite.key_bounds (h : IsFinite x) : -top < key x ∧ key x < top := rank_bounds (view_canonical x) h

theorem key_le_top (x : Float) : key x ≤ top := by
  have htop := top_pos
  cases hv : view x with
  | notANumber | zero s =>
    rw [key, hv]
    exact Int.natCast_nonneg top
  | infinity s =>
    rw [key, hv]
    cases s
    · show -(top : ℤ) ≤ top
      omega
    · exact le_refl _
  | finite s m e hm =>
    have hf : IsFinite x := by
      rw [IsFinite, hv]
      rfl
    exact hf.key_bounds.2.le

theorem isFinite_of_abs_lt (h : x.abs < y) : IsFinite x := by
  obtain ⟨hx, hy⟩ := isNumber_of_lt h
  rw [lt_iff_key hx hy, key_abs] at h
  have hlt := abs_lt.mp (h.trans_le (key_le_top y))
  exact isFinite_of_key (isNumber_of_abs hx) hlt.1 hlt.2

theorem ne_zero_of_key (h : key x ≠ 0) (s : Sign) : view x ≠ .zero s := by
  intro hx
  rw [key, hx] at h
  exact h rfl

theorem not_infinity_of_isFinite (h : IsFinite x) (s : Sign) : view x ≠ .infinity s := by
  intro hx
  rw [IsFinite, hx] at h
  cases h

/-- Only an infinity times zero is no number. -/
theorem isNumber_mul (hx : IsNumber x) (hy : IsNumber y) (h1 : IsFinite x ∨ key y ≠ 0) (h2 : IsFinite y ∨ key x ≠ 0) :
    IsNumber (x * y) := by
  have hview : view (x * y) = settle (UnpackedFloat.mul .binary64 (view x) (view y)) := rfl
  have h1 (s t : Sign) : view x = .infinity s → view y ≠ .zero t := fun hi =>
    ne_zero_of_key (h1.resolve_left fun hf => not_infinity_of_isFinite hf s hi) t
  have h2 (s t : Sign) : view y = .infinity s → view x ≠ .zero t := fun hi =>
    ne_zero_of_key (h2.resolve_left fun hf => not_infinity_of_isFinite hf s hi) t
  unfold IsNumber at hx hy ⊢
  rw [hview]
  generalize view x = v at hx h1 h2
  generalize view y = w at hy h1 h2
  refine settle_ne_notANumber ?_
  cases v with
  | notANumber => exact absurd rfl hx
  | infinity s =>
    cases w with
    | notANumber => exact absurd rfl hy
    | zero s' => exact absurd rfl (h1 s s' rfl)
    | infinity s' | finite s' m e hm => simp [UnpackedFloat.mul]
  | zero s =>
    cases w with
    | notANumber => exact absurd rfl hy
    | infinity s' => exact absurd rfl (h2 s' s rfl)
    | zero s' | finite s' m e hm => simp [UnpackedFloat.mul]
  | finite s m e hm =>
    cases w with
    | notANumber => exact absurd rfl hy
    | infinity s' | zero s' => simp [UnpackedFloat.mul]
    | finite s' m' e' hm' => exact roundWithAccuracy_ne_notANumber _ _ _ _

theorem isNumber_mul_finite (hx : IsFinite x) (hy : IsFinite y) : IsNumber (x * y) :=
  isNumber_mul hx.isNumber hy.isNumber (.inl hx) (.inl hy)

/-- A quotient by a number that is not zero is a number, unless both are infinite. -/
theorem isNumber_div (hx : IsNumber x) (hy : IsNumber y) (hf : IsFinite x ∨ IsFinite y) (h0 : key y ≠ 0) :
    IsNumber (x / y) := by
  have hview : view (x / y) = settle (UnpackedFloat.div .binary64 (view x) (view y)) := rfl
  have hz := ne_zero_of_key h0
  unfold IsNumber at hx hy ⊢
  unfold IsFinite at hf
  rw [hview]
  generalize view x = v at hx hf
  generalize view y = w at hy hz hf
  refine settle_ne_notANumber ?_
  cases w with
  | notANumber => exact absurd rfl hy
  | zero s => exact absurd rfl (hz s)
  | infinity s =>
    cases v with
    | notANumber => exact absurd rfl hx
    | infinity s' => rcases hf with hf | hf <;> cases hf
    | zero s' | finite s' m' e' hm' => simp [UnpackedFloat.div]
  | finite s m e hm =>
    cases v with
    | notANumber => exact absurd rfl hx
    | infinity s' | zero s' => simp [UnpackedFloat.div]
    | finite s' m' e' hm' => exact roundWithAccuracy_ne_notANumber _ _ _ _

/-- A sum is finite only if its parts are. -/
theorem isFinite_of_add (h : IsFinite (x + y)) : IsFinite x ∧ IsFinite y := finite_of_add (isFinite_of_settle h)

theorem isFinite_of_sub (h : IsFinite (x - y)) : IsFinite x ∧ IsFinite y := by
  have hsub := isFinite_of_settle h
  rw [sub_eq] at hsub
  obtain ⟨hx, hy⟩ := finite_of_add hsub
  exact ⟨hx, (isFinite_neg _).symm.trans hy⟩

theorem isFinite_of_mul (h : IsFinite (x * y)) : IsFinite x ∧ IsFinite y := finite_of_mul (isFinite_of_settle h)

theorem finite_iff : finite x = true ↔ IsFinite x := by
  constructor
  · intro h
    have hn : IsNumber (x - x) := (isNumber_of_compare (beq_iff.mp h)).1
    rw [IsNumber, view_sub] at hn
    rw [IsFinite]
    cases hv : view x with
    | notANumber =>
      rw [hv] at hn
      exact absurd rfl hn
    | infinity s =>
      rw [hv] at hn
      cases s <;> exact absurd rfl hn
    | zero s | finite s m e hm => rfl
  · intro h
    obtain ⟨hn, hsign⟩ := sub_key h.isNumber h
    rw [sub_self, Int.sign_zero, Int.sign_eq_zero_iff_zero] at hsign
    exact (beq_iff_key hn isFinite_zero.isNumber).mpr hsign

theorem isFinite_of_hypot (h : IsFinite (hypot x y)) : IsFinite x ∧ IsFinite y := by
  by_cases hxy : (!finite x || !finite y) = true
  · rw [hypot, if_pos hxy] at h
    split at h
    · have hinf : ¬ IsFinite (1.0 / 0.0) := Bool.false_ne_true
      exact absurd h hinf
    · exact isFinite_of_add h
  · simp only [Bool.or_eq_true, Bool.not_eq_true', not_or, Bool.not_eq_false] at hxy
    exact ⟨finite_iff.mp hxy.1, finite_iff.mp hxy.2⟩

/-! ### Selection -/

theorem notAfter_le (hx : IsNumber x) (hy : IsNumber y) :
    (notAfter x y = true → x ≤ y) ∧ (¬ notAfter x y = true → y ≤ x) := by
  unfold notAfter
  rw [isNumber_iff.mpr hx, isNumber_iff.mpr hy]
  simp only [Bool.not_true, Bool.false_eq_true, if_false, Bool.or_eq_true, Bool.and_eq_true, decide_eq_true_eq,
    lt_iff_key hx hy, beq_iff_key hx hy, le_iff_key hx hy, le_iff_key hy hx]
  constructor
  · rintro (h | ⟨h, -⟩)
    · exact h.le
    · exact h.le
  · intro h
    exact le_of_not_gt fun hlt => h (.inl hlt)

theorem le_trans_key {z : Float} (h : x ≤ y) (h' : y ≤ z) : x ≤ z := by
  obtain ⟨hx, hy⟩ := isNumber_of_le h
  have hz := (isNumber_of_le h').2
  rw [le_iff_key hx hy] at h
  rw [le_iff_key hy hz] at h'
  exact (le_iff_key hx hz).mpr (h.trans h')

/-- What is selected among numbers is a smallest one. -/
theorem leastBy_least {xs : List Float} {m : Float} (hn : ∀ x ∈ xs, IsNumber x)
    (h : Scalar.leastBy id xs = some m) : ∀ x ∈ xs, m ≤ x := by
  have hfold (l : List Float) (b : Float) (hl : ∀ x ∈ b :: l, IsNumber x) :
      ∀ x ∈ b :: l, l.foldl (fun best y => if notAfter best y then best else y) b ≤ x := by
    induction l generalizing b with
    | nil =>
      intro x hx
      rw [List.mem_singleton.mp hx, List.foldl_nil]
      exact (le_iff_key (hl b List.mem_cons_self) (hl b List.mem_cons_self)).mpr le_rfl
    | cons y l ih =>
      have hb := hl b List.mem_cons_self
      have hy := hl y (List.mem_cons_of_mem _ List.mem_cons_self)
      have hrest : ∀ x ∈ l, IsNumber x := fun x hx => hl x (List.mem_cons_of_mem _ (List.mem_cons_of_mem _ hx))
      obtain ⟨hkeep, htake⟩ := notAfter_le hb hy
      intro x hx
      rw [List.foldl_cons]
      split
      · rename_i hafter
        have hle := ih b (List.forall_mem_cons.mpr ⟨hb, hrest⟩)
        rcases List.mem_cons.mp hx with rfl | hx
        · exact hle _ List.mem_cons_self
        · rcases List.mem_cons.mp hx with rfl | hx
          · exact le_trans_key (hle b List.mem_cons_self) (hkeep hafter)
          · exact hle x (List.mem_cons_of_mem _ hx)
      · rename_i hafter
        have hle := ih y (List.forall_mem_cons.mpr ⟨hy, hrest⟩)
        rcases List.mem_cons.mp hx with rfl | hx
        · exact le_trans_key (hle y List.mem_cons_self) (htake hafter)
        · exact hle x hx
  cases xs with
  | nil => cases h
  | cons b l =>
    cases h
    exact hfold l b hn

end MagneticBearing.Running
