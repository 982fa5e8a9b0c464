/-
  MagneticBearing.Json.Reader — JSON text read piece by piece.

  Reading goes through the text once, and the first defect met is the answer: the text `ended`
  early, it is `malformed` (no JSON, or JSON with something left over), or it is JSON of the
  wrong shape, a `mismatch`. Texts are read as bytes.

  A number keeps as many leading digits as fit 64 bits; a real one is that significand, rounded,
  times or over a power of ten, and out of range it is malformed.
-/

import MagneticBearing.Number.Binary64
import MagneticBearing.Text.Utf8

namespace MagneticBearing.Json

open MagneticBearing.Number

inductive Defect where
  | ended
  | malformed
  | mismatch
  deriving DecidableEq, Repr

abbrev Reader := StateT (List UInt8) (Except Defect)

def code (c : Char) : UInt8 := c.toNat.toUInt8

def codes (s : String) : List UInt8 := Text.encode s

def isSpace (b : UInt8) : Bool := b == 32 || b == 10 || b == 9 || b == 13

def isDigitByte (b : UInt8) : Bool := 48 ≤ b && b ≤ 57

/-- The next byte after blanks, which stays unread. -/
def peek : Reader (Option UInt8) := do
  let left := (← get).dropWhile isSpace
  set left
  return left.head?

def advance : Reader Unit := modify fun bs => bs.drop 1

/-- The next byte, or the end as a defect. -/
def peekSome : Reader UInt8 := do
  match ← peek with
  | some b => return b
  | none => throw .ended

/-- The rest of a word whose first letter decided for it. -/
def word : List UInt8 → Reader Unit
  | [] => pure ()
  | c :: cs => do
    match ← get with
    | [] => throw .ended
    | b :: left => if b = c then set left else throw .malformed
    word cs

/-! ## Numbers -/

inductive Number where
  | whole (neg : Bool) (n : Nat)
  | real (x : Float)

def Number.toFloat : Number → Float
  | .whole neg n => Binary64.nearest neg n 1
  | .real x => x

/-- The significand after the digits that still fit 64 bits, how many those are, and what follows. -/
def takeDigits (s : Nat) : List UInt8 → Nat × Nat × List UInt8
  | [] => (s, 0, [])
  | b :: bs =>
    if isDigitByte b && 10 * s + (b.toNat - 48) < Nat.pow 2 64 then
      let (t, n, left) := takeDigits (10 * s + (b.toNat - 48)) bs
      (t, n + 1, left)
    else (s, 0, b :: bs)

def startsWithDigit (bs : List UInt8) : Bool := (bs.head?.map isDigitByte).getD false

def startsExponent (bs : List UInt8) : Bool := bs.head? == some (code 'e') || bs.head? == some (code 'E')

/-- `f · 10^e`, through the smallest power first where one power is not enough. -/
def scaleBy : Nat → Float → Int → Except Defect Float
  | 0, _, _ => .ok 0.0
  | fuel + 1, f, e =>
    if e.natAbs ≤ 308 then
      let power := Binary64.ofDecimal false 1 e.natAbs
      if 0 ≤ e then
        let x := f * power
        if x - x == 0.0 then .ok x else .error .malformed
      else .ok (f / power)
    else if f == 0.0 then .ok f
    else if 0 ≤ e then .error .malformed
    else scaleBy fuel (f / Binary64.ofDecimal false 1 308) (e + 308)

def real (neg : Bool) (significand : Nat) (e : Int) : Reader Number := do
  let x ← scaleBy 4 (Binary64.nearest false significand 1) e
  return .real (if neg then -x else x)

/-- From the exponent letter on. -/
def exponentPart (neg : Bool) (significand : Nat) (e : Int) : Reader Number := do
  advance
  let down := (← get).head? == some (code '-')
  if down || (← get).head? == some (code '+') then advance
  match ← get with
  | [] => throw .ended
  | b :: _ =>
    if !isDigitByte b then throw .malformed
    let digits := (← get).takeWhile isDigitByte
    set ((← get).dropWhile isDigitByte)
    let n : Nat := digits.foldl (fun n d => 10 * n + (d.toNat - 48)) 0
    let shift : Int := if down then -(n : Int) else n
    if n < Nat.pow 2 31 then real neg significand (e + shift)
    else if significand ≠ 0 ∧ !down then throw .malformed
    else return .real (if neg then -0.0 else 0.0)

def exponentOr (neg : Bool) (significand : Nat) (e : Int) : Reader Number := do
  if startsExponent (← get) then exponentPart neg significand e else real neg significand e

/-- From the point on. -/
def fractionPart (neg : Bool) (significand : Nat) (e : Int) : Reader Number := do
  advance
  let (s, n, left) := takeDigits significand (← get)
  if startsWithDigit left then
    set (left.dropWhile isDigitByte)
    exponentOr neg s (e - n)
  else if n = 0 then throw (if left.isEmpty then .ended else .malformed)
  else
    set left
    exponentOr neg s (e - n)

/-- A number after its sign. -/
def unsigned (neg : Bool) : Reader Number := do
  let (s, n, left) := takeDigits 0 (← get)
  if n = 0 then throw (if left.isEmpty then .ended else .malformed)
  if (← get).head? == some (code '0') && n ≠ 1 then throw .malformed
  set left
  if startsWithDigit left then
    let more := left.takeWhile isDigitByte
    set (left.dropWhile isDigitByte)
    if (← get).head? == some (code '.') then fractionPart neg s more.length
    else exponentOr neg s more.length
  else if left.head? == some (code '.') then fractionPart neg s 0
  else if startsExponent left then exponentPart neg s 0
  else if !neg then return .whole false s
  else if s = 0 ∨ Nat.pow 2 63 < s then real true s 0
  else return .whole true s

/-- A number whose first byte is known to be a digit or the minus sign. -/
def number : Reader Number := do
  if (← get).head? == some (code '-') then
    advance
    unsigned true
  else unsigned false

/-! ## Texts -/

def hexValue? (b : UInt8) : Option Nat :=
  if isDigitByte b then some (b.toNat - 48)
  else if 97 ≤ b && b ≤ 102 then some (b.toNat - 87)
  else if 65 ≤ b && b ≤ 70 then some (b.toNat - 55)
  else none

def hex4 : List UInt8 → Except Defect Nat
  | a :: b :: c :: d :: _ =>
    match hexValue? a, hexValue? b, hexValue? c, hexValue? d with
    | some a, some b, some c, some d => .ok (((a * 16 + b) * 16 + c) * 16 + d)
    | _, _, _, _ => .error .malformed
  | _ => .error .ended

def utf8Of (n : Nat) : List UInt8 := codes (String.singleton (Char.ofNat n))

/-- The second half of a pair of surrogates, whose first half is `high`. -/
def lowSurrogate (high : Nat) : List UInt8 → Except Defect (List UInt8 × Nat)
  | [] => .error .ended
  | b :: bs =>
    if b != code '\\' then .error .malformed
    else
      match bs with
      | [] => .error .ended
      | u :: bs =>
        if u != code 'u' then .error .malformed
        else do
          let low ← hex4 bs
          if low < 0xDC00 ∨ 0xDFFF < low then .error .malformed
          else .ok (utf8Of (0x10000 + (high - 0xD800) * 1024 + (low - 0xDC00)), 11)

/-- What an escape stands for, after the backslash, and how many bytes it takes. -/
def escape : List UInt8 → Except Defect (List UInt8 × Nat)
  | [] => .error .ended
  | b :: bs =>
    if b == code '"' || b == code '\\' || b == code '/' then .ok ([b], 1)
    else if b == code 'b' then .ok ([8], 1)
    else if b == code 'f' then .ok ([12], 1)
    else if b == code 'n' then .ok ([10], 1)
    else if b == code 'r' then .ok ([13], 1)
    else if b == code 't' then .ok ([9], 1)
    else if b == code 'u' then do
      let n ← hex4 bs
      if 0xDC00 ≤ n ∧ n ≤ 0xDFFF then .error .malformed
      else if 0xD800 ≤ n ∧ n ≤ 0xDBFF then lowSurrogate n (bs.drop 4)
      else .ok (utf8Of n, 5)
    else .error .malformed

/-- The length of an escape that nobody asks the meaning of. -/
def escapeLength : List UInt8 → Except Defect (List UInt8 × Nat)
  | [] => .error .ended
  | b :: bs =>
    if b == code 'u' then do
      let _ ← hex4 bs
      .ok ([], 5)
    else if (codes "\"\\/bfnrt").contains b then .ok ([], 1)
    else .error .malformed

/-- The text up to its closing quote, and what follows that. -/
def textBody (esc : List UInt8 → Except Defect (List UInt8 × Nat)) : List UInt8 → Except Defect (List UInt8 × List UInt8)
  | [] => .error .ended
  | b :: bs =>
    if b == code '"' then .ok ([], bs)
    else if b == code '\\' then do
      let (meaning, used) ← esc bs
      let (more, left) ← textBody esc (bs.drop used)
      return (meaning ++ more, left)
    else if b < 32 then .error .malformed
    else do
      let (more, left) ← textBody esc bs
      return (b :: more, left)
termination_by bs => bs.length
decreasing_by all_goals simp_wf; try omega

/-- A text whose opening quote is next. -/
def text : Reader String := do
  let (bytes, left) ← textBody escape ((← get).drop 1)
  set left
  return Text.decode bytes

def skipText : Reader Unit := do
  let (_, left) ← textBody escapeLength ((← get).drop 1)
  set left

/-! ## Lists and objects -/

/-- Does a list go on with another item? Its closing bracket stays unread. -/
def moreItems (first : Bool) : Reader Bool := do
  let b ← peekSome
  if b == code ']' then return false
  if first then return true
  if b != code ',' then throw .malformed
  advance
  if (← peekSome) == code ']' then throw .malformed
  return true

def endList : Reader Unit := do
  if (← peekSome) == code ']' then advance else throw .malformed

/-- Is there another entry in an object? Its key is next then; the closing brace stays unread. -/
def moreEntries (first : Bool) : Reader Bool := do
  let b ← peekSome
  if b == code '\x7d' then return false
  if first then
    if b != code '"' then throw .malformed
  else
    if b != code ',' then throw .malformed
    advance
    if (← peekSome) != code '"' then throw .malformed
  return true

def nextKey (first : Bool) : Reader (Option String) := do
  if ← moreEntries first then return some (← text) else return none

def nextKeySkipped (first : Bool) : Reader Bool := do
  if ← moreEntries first then
    skipText
    return true
  else return false

def colon : Reader Unit := do
  if (← peekSome) == code ':' then advance else throw .malformed

def endObject : Reader Unit := do
  if (← peekSome) == code '\x7d' then advance else throw .malformed

/-- The levels left inside one more bracket. -/
def nested (depth : Nat) : Reader Nat :=
  if depth ≤ 1 then throw .malformed else do
    advance
    return depth - 1

/-- Levels of brackets that a text may use up. -/
def levels : Nat := 128

end MagneticBearing.Json
