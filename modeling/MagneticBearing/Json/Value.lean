/-
  MagneticBearing.Json.Value — whole JSON values, kept or passed over.

  A kept value must be valid to the last escape and number and stay within the levels of brackets
  allowed; one that is passed over need only have the form. Loops carry a bound that the length
  of the text never reaches.
-/

import MagneticBearing.Json.Reader

namespace MagneticBearing.Json

inductive Value where
  | null
  | bool (b : Bool)
  | number (n : Number)
  | text (s : String)
  | list (items : List Value)
  | object (entries : List (String × Value))

/-- A bound on the steps that reading the rest of the text takes. -/
def bound : Reader Nat := do return 2 * (← get).length + 2

mutual

def valueWithin : Nat → Nat → Reader Value
  | 0, _ => throw .malformed
  | fuel + 1, depth => do
    let b ← peekSome
    if b == code 'n' then
      advance
      word (codes "ull")
      return .null
    else if b == code 't' then
      advance
      word (codes "rue")
      return .bool true
    else if b == code 'f' then
      advance
      word (codes "alse")
      return .bool false
    else if b == code '"' then return .text (← text)
    else if b == code '-' || isDigitByte b then return .number (← number)
    else if b == code '[' then
      let items ← itemsWithin fuel (← nested depth) true
      endList
      return .list items
    else if b == code '\x7b' then
      let entries ← entriesWithin fuel (← nested depth) true
      endObject
      return .object entries
    else throw .malformed

def itemsWithin : Nat → Nat → Bool → Reader (List Value)
  | 0, _, _ => throw .malformed
  | fuel + 1, depth, first => do
    if ← moreItems first then
      let v ← valueWithin fuel depth
      return v :: (← itemsWithin fuel depth false)
    else return []

def entriesWithin : Nat → Nat → Bool → Reader (List (String × Value))
  | 0, _, _ => throw .malformed
  | fuel + 1, depth, first => do
    match ← nextKey first with
    | none => return []
    | some k =>
      colon
      let v ← valueWithin fuel depth
      return (k, v) :: (← entriesWithin fuel depth false)

end

def value (depth : Nat) : Reader Value := do valueWithin (← bound) depth

/-! ## Passing over -/

def skipDigits : Reader Unit := modify fun bs => bs.dropWhile isDigitByte

def someDigits : Reader Unit := do
  if startsWithDigit (← get) then skipDigits else throw .malformed

def skipExponent : Reader Unit := do
  if startsExponent (← get) then
    advance
    let sign := (← get).head?
    if sign == some (code '-') || sign == some (code '+') then advance
    someDigits

def skipNumber : Reader Unit := do
  if (← get).head? == some (code '-') then advance
  if (← get).head? == some (code '0') then
    advance
    if startsWithDigit (← get) then throw .malformed
  else someDigits
  if (← get).head? == some (code '.') then
    advance
    someDigits
  skipExponent

mutual

def skipWithin : Nat → Reader Unit
  | 0 => throw .malformed
  | fuel + 1 => do
    let b ← peekSome
    if b == code 'n' then
      advance
      word (codes "ull")
    else if b == code 't' then
      advance
      word (codes "rue")
    else if b == code 'f' then
      advance
      word (codes "alse")
    else if b == code '"' then skipText
    else if b == code '-' || isDigitByte b then skipNumber
    else if b == code '[' then
      advance
      skipItems fuel true
      endList
    else if b == code '\x7b' then
      advance
      skipEntries fuel true
      endObject
    else throw .malformed

def skipItems : Nat → Bool → Reader Unit
  | 0, _ => throw .malformed
  | fuel + 1, first => do
    if ← moreItems first then
      skipWithin fuel
      skipItems fuel false

def skipEntries : Nat → Bool → Reader Unit
  | 0, _ => throw .malformed
  | fuel + 1, first => do
    if ← nextKeySkipped first then
      colon
      skipWithin fuel
      skipEntries fuel false

end

def skip : Reader Unit := do skipWithin (← bound)

end MagneticBearing.Json
