/-
  MagneticBearing.Text.Utf8 — bytes read as text, whatever they are.

  A well-formed sequence gives its character. Elsewhere the longest start of a well-formed
  sequence, or one byte if there is none, gives one replacement character, and reading goes on
  after it. So decoding never fails and loses no byte silently.
-/

namespace MagneticBearing.Text

def replacement : Char := Char.ofNat 0xFFFD

/-- How many bytes a sequence with this first byte has, and the range of its second byte. -/
def shape? (b : Nat) : Option (Nat × Nat × Nat) :=
  if b < 0x80 then some (1, 0, 0)
  else if b < 0xC2 then none
  else if b < 0xE0 then some (2, 0x80, 0xBF)
  else if b = 0xE0 then some (3, 0xA0, 0xBF)
  else if b = 0xED then some (3, 0x80, 0x9F)
  else if b < 0xF0 then some (3, 0x80, 0xBF)
  else if b = 0xF0 then some (4, 0x90, 0xBF)
  else if b < 0xF4 then some (4, 0x80, 0xBF)
  else if b = 0xF4 then some (4, 0x80, 0x8F)
  else none

/-- What the first byte says of the character. -/
def headBits (size b : Nat) : Nat :=
  if size = 1 then b else if size = 2 then b % 32 else if size = 3 then b % 16 else b % 8

/-- Read the bytes still owed, each in its range: the character, or none where one is missing,
and how many bytes were used. -/
def follow (lo hi : Nat) : Nat → Nat → List UInt8 → Option Nat × Nat
  | 0, value, _ => (some value, 0)
  | _ + 1, _, [] => (none, 0)
  | owed + 1, value, b :: bs =>
    if lo ≤ b.toNat ∧ b.toNat ≤ hi then
      let (c, used) := follow 0x80 0xBF owed (value * 64 + b.toNat % 64) bs
      (c, used + 1)
    else (none, 0)

def decodeChars : List UInt8 → List Char
  | [] => []
  | b :: bs =>
    match shape? b.toNat with
    | none => replacement :: decodeChars bs
    | some (size, lo, hi) =>
      let (c, used) := follow lo hi (size - 1) (headBits size b.toNat) bs
      (c.map Char.ofNat).getD replacement :: decodeChars (bs.drop used)
termination_by bs => bs.length
decreasing_by all_goals simp_wf; try omega

def decode (bs : List UInt8) : String := String.ofList (decodeChars bs)

@[simp] theorem decode_nil : decode [] = "" := by simp [decode, decodeChars]

def encode (s : String) : List UInt8 := s.toUTF8.toList

end MagneticBearing.Text
