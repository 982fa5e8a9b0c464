/-
  MagneticBearing.Number.CubeRoot — the double nearest to a cube root.

  The mantissa is moved up until the whole part of its cube root has more digits than a double, so the one
  question left for rounding is whether anything was cut off. `rootHalves` answers it in its last place: it
  lies among the wholes as the root does (`rootHalves_lt_iff`, `lt_rootHalves_iff`).

  - `wholeRoot_spec`: the whole part of a cube root, found three binary digits of the number at a time.
  - `roundDiv_rootHalves`: on a grid of wholes the halves are rounded as the root itself.
-/

import MagneticBearing.Number.Binary64

namespace MagneticBearing.Number

def cube (k : Nat) : Nat := k * k * k

theorem cube_lt_cube {j k : Nat} (h : j < k) : cube j < cube k :=
  Nat.mul_lt_mul'' (Nat.mul_lt_mul'' h h) h

theorem cube_lt_cube_iff {j k : Nat} : cube j < cube k ↔ j < k := by
  refine ⟨fun h => Nat.not_le.mp fun hle => ?_, cube_lt_cube⟩
  rcases Nat.lt_or_eq_of_le hle with hlt | rfl
  · exact Nat.lt_asymm h (cube_lt_cube hlt)
  · exact Nat.lt_irrefl _ h

theorem cube_double (k : Nat) : cube (2 * k) = 8 * cube k := by
  simp only [cube, Nat.mul_assoc, Nat.mul_left_comm k 2]
  omega

/-- The whole part of the cube root of a number that has `digits` groups of three binary digits. -/
def rootDigits : Nat → Nat → Nat
  | 0, _ => 0
  | digits + 1, n =>
    let r := 2 * rootDigits digits (n / 8)
    if cube (r + 1) ≤ n then r + 1 else r

/-- The whole part of the cube root. -/
def wholeRoot (n : Nat) : Nat := rootDigits (n.log2 / 3 + 1) n

/-- Twice the cube root, where whatever is cut off counts as a half. -/
def rootHalves (n : Nat) : Nat :=
  let r := wholeRoot n
  if cube r = n then 2 * r else 2 * r + 1

theorem rootDigits_spec {digits n : Nat} (h : n < Nat.pow 8 digits) :
    cube (rootDigits digits n) ≤ n ∧ n < cube (rootDigits digits n + 1) := by
  induction digits generalizing n with
  | zero =>
    obtain rfl : n = 0 := Nat.lt_one_iff.mp h
    decide
  | succ digits ih =>
    have hpow : Nat.pow 8 (digits + 1) = Nat.pow 8 digits * 8 := rfl
    obtain ⟨hlow, hhigh⟩ := ih (n := n / 8) (by omega)
    simp only [rootDigits]
    generalize rootDigits digits (n / 8) = q at hlow hhigh ⊢
    have heven := cube_double q
    have hnext : cube (2 * q + 1 + 1) = 8 * cube (q + 1) := cube_double (q + 1)
    split
    · exact ⟨by assumption, by omega⟩
    · exact ⟨by omega, by omega⟩

theorem wholeRoot_spec (n : Nat) : cube (wholeRoot n) ≤ n ∧ n < cube (wholeRoot n + 1) := by
  refine rootDigits_spec ?_
  calc n < Nat.pow 2 (n.log2 + 1) := Nat.lt_log2_self
    _ ≤ Nat.pow 2 (3 * (n.log2 / 3 + 1)) := Nat.pow_le_pow_right (by decide) (by omega)
    _ = Nat.pow 8 (n.log2 / 3 + 1) := Nat.pow_mul 2 3 _

theorem rootHalves_lt_iff (n k : Nat) : rootHalves n < 2 * k ↔ n < cube k := by
  obtain ⟨hlow, hhigh⟩ := wholeRoot_spec n
  simp only [rootHalves]
  generalize wholeRoot n = r at hlow hhigh ⊢
  have hlt : cube r < cube k ↔ r < k := cube_lt_cube_iff
  have hle : cube k < cube (r + 1) ↔ k < r + 1 := cube_lt_cube_iff
  split <;> omega

theorem lt_rootHalves_iff (n k : Nat) : 2 * k < rootHalves n ↔ cube k < n := by
  obtain ⟨hlow, hhigh⟩ := wholeRoot_spec n
  simp only [rootHalves]
  generalize wholeRoot n = r at hlow hhigh ⊢
  have hlt : cube k < cube r ↔ k < r := cube_lt_cube_iff
  have hle : cube r < cube k ↔ r < k := cube_lt_cube_iff
  have hnext : cube k < cube (r + 1) ↔ k < r + 1 := cube_lt_cube_iff
  split <;> omega

/-- The multiple of `2 * d` that the halves are rounded to is within `d` of the cube root. -/
theorem roundDiv_rootHalves (n : Nat) {d : Nat} (hd : 0 < d) :
    cube ((2 * roundDiv (rootHalves n) (4 * d) - 1) * d) ≤ n ∧
      n ≤ cube ((2 * roundDiv (rootHalves n) (4 * d) + 1) * d) := by
  have hbelow := roundDiv_le (rootHalves n) (4 * d)
  have habove := le_roundDiv (rootHalves n) (by omega : 0 < 4 * d)
  generalize roundDiv (rootHalves n) (4 * d) = q at hbelow habove ⊢
  have hmul : q * (4 * d) = 4 * (q * d) := Nat.mul_left_comm q 4 d
  constructor
  · rw [← Nat.not_lt, ← rootHalves_lt_iff, Nat.sub_mul, Nat.mul_assoc]
    omega
  · rw [← Nat.not_lt, ← lt_rootHalves_iff, Nat.add_mul, Nat.mul_assoc]
    omega

namespace Binary64

/-- The double nearest to the cube root, with the sign of `x`. -/
def cubeRoot (x : Float) : Float :=
  match decode x with
  | .nan | .infinite _ => x
  | .finite neg m e =>
    -- At least 170 more binary digits give the root at least 56 of its own.
    let third := (e - 170) / 3
    let r := ratio (rootHalves (m * Nat.pow 2 (e - 3 * third).toNat)) (third - 1)
    nearest neg r.1 r.2

example : (cubeRoot 2.0).toBits = 0x3ff428a2f98d728b := by decide +kernel

end Binary64

end MagneticBearing.Number
