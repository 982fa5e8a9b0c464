/-
  MagneticBearing.Number.Binary64 — a running number as an exact binary fraction, and back.

  A finite `Float` is a sign and `m · 2^e` with naturals only; `decode` reads it off the bits
  and `nearest` is the way back: the double next to a ratio of naturals, a half going to the
  even neighbour. Every text the library reads or writes goes through these two, so no digit
  of it is rounded twice.

  - `roundDiv`: a quotient of naturals to the nearest natural, ties to even.
  - `roundDiv_le`, `le_roundDiv`: it is within half a unit of the quotient.
  - `nearest`, `ofDecimal`: the double for `num / den` and for `m · 10^e`.
  - `remainder`: what is left of a truncated quotient, exact.
-/

namespace MagneticBearing.Number

/-- `num / den` to the nearest natural, a half to the even one. -/
def roundDiv (num den : Nat) : Nat :=
  let q := num / den
  let r := num % den
  if 2 * r < den then q
  else if den < 2 * r then q + 1
  else if q % 2 = 0 then q else q + 1

theorem roundDiv_le (num den : Nat) : 2 * (roundDiv num den * den) ≤ 2 * num + den := by
  have h := Nat.div_add_mod num den
  have e : (num / den + 1) * den = den * (num / den) + den := by
    rw [Nat.add_mul, Nat.mul_comm, Nat.one_mul]
  have e' : num / den * den = den * (num / den) := Nat.mul_comm ..
  simp only [roundDiv]
  split
  · omega
  · split
    · omega
    · split <;> omega

theorem le_roundDiv (num : Nat) {den : Nat} (hd : 0 < den) :
    2 * num ≤ 2 * (roundDiv num den * den) + den := by
  have h := Nat.div_add_mod num den
  have hr := Nat.mod_lt num hd
  have e : (num / den + 1) * den = den * (num / den) + den := by
    rw [Nat.add_mul, Nat.mul_comm, Nat.one_mul]
  have e' : num / den * den = den * (num / den) := Nat.mul_comm ..
  simp only [roundDiv]
  split
  · omega
  · split
    · omega
    · split <;> omega

namespace Binary64

inductive Value where
  | nan
  | infinite (neg : Bool)
  | finite (neg : Bool) (m : Nat) (e : Int)
  deriving DecidableEq, Repr

def impliedBit : Nat := Nat.pow 2 52

/-- The exponent of the last place of the smallest doubles. -/
def lowest : Int := -1074

def decode (x : Float) : Value :=
  let bits := x.toBits.toNat
  let neg := bits / Nat.pow 2 63 == 1
  let biased := bits / impliedBit % 2048
  let frac := bits % impliedBit
  if biased = 2047 then (if frac = 0 then .infinite neg else .nan)
  else if biased = 0 then .finite neg frac lowest
  else .finite neg (frac + impliedBit) ((biased : Int) - 1075)

/-- `m · 2^e` scaled to a numerator and a denominator. -/
def ratio (m : Nat) (e : Int) : Nat × Nat :=
  if 0 ≤ e then (m * Nat.pow 2 e.toNat, 1) else (m, Nat.pow 2 (-e).toNat)

/-- The bits of a mantissa below `2^53` on the grid `2^e`; a carry moves up by itself. -/
def encode (m : Nat) (e : Int) : Nat :=
  if m < impliedBit then m
  else
    let biased := (e + 1075).toNat
    if 2047 ≤ biased + (m - impliedBit) / impliedBit then 2047 * impliedBit else biased * impliedBit + (m - impliedBit)

/-- The double nearest to `num / den`, ties to even, infinite past the largest. -/
def nearest (neg : Bool) (num den : Nat) : Float :=
  let sign := if neg then Nat.pow 2 63 else 0
  if num = 0 then Float.ofBits (UInt64.ofNat sign)
  else
    let scaled (e : Int) : Nat × Nat :=
      if 0 ≤ e then (num, den * Nat.pow 2 e.toNat) else (num * Nat.pow 2 (-e).toNat, den)
    let guess := max ((num.log2 : Int) - den.log2 - 52) lowest
    let below := let s := scaled guess; s.1 / s.2 < impliedBit
    let e := if below && lowest < guess then guess - 1 else guess
    let s := scaled e
    Float.ofBits (UInt64.ofNat (sign + encode (roundDiv s.1 s.2) e))

def digitCount (m : Nat) : Nat := (Nat.toDigits 10 m).length

/-- The double nearest to `m · 10^e`. -/
def ofDecimal (neg : Bool) (m : Nat) (e : Int) : Float :=
  let size := (digitCount m : Int) + e
  if m = 0 ∨ size < -400 then nearest neg 0 1
  else if 400 < size then nearest neg (Nat.pow 2 2000) 1
  else if 0 ≤ e then nearest neg (m * Nat.pow 10 e.toNat) 1
  else nearest neg m (Nat.pow 10 (-e).toNat)

/-- What is left of `x` when the quotient by `y` is cut toward zero; it has `x`'s sign. -/
def remainder (x y : Float) : Float :=
  match decode x, decode y with
  | .nan, _ | _, .nan | .infinite _, _ => 0.0 / 0.0
  | .finite .., .infinite _ => x
  | .finite neg m e, .finite _ n d =>
    if n = 0 then 0.0 / 0.0
    else
      let low := min e d
      let left := (m * Nat.pow 2 (e - low).toNat) % (n * Nat.pow 2 (d - low).toNat)
      let r := ratio left low
      nearest neg r.1 r.2

end Binary64

end MagneticBearing.Number
