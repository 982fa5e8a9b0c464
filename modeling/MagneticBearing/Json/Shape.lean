/-
  MagneticBearing.Json.Shape — JSON read into values of a known shape.

  A value of the wrong kind is read far enough to see that it is JSON before it counts as a
  mismatch. A record is an object, where unknown fields are passed over and a field given twice
  is a mismatch, or the list of its fields in order. A tagged value is an object with a tag among
  its fields, wherever it stands, or a list that starts with the tag; its other parts are kept
  whole until the tag is known.
-/

import MagneticBearing.Json.Value

namespace MagneticBearing.Json

/-- The defect of a value of another kind. -/
def otherKind {α : Type} : Reader α := do
  let b ← peekSome
  if b == code 'n' then
    advance
    word (codes "ull")
  else if b == code 't' then
    advance
    word (codes "rue")
  else if b == code 'f' then
    advance
    word (codes "alse")
  else if b == code '"' then
    let _ ← text
  else if b == code '-' || isDigitByte b then
    let _ ← number
  else if b != code '[' && b != code '\x7b' then throw .malformed
  throw .mismatch

def anyNumber : Reader Number := do
  let b ← peekSome
  if b == code '-' || isDigitByte b then number else otherKind

def float : Reader Float := do return (← anyNumber).toFloat

def natural : Reader Nat := do
  match ← anyNumber with
  | .whole false n => return n
  | _ => throw .mismatch

def bool : Reader Bool := do
  let b ← peekSome
  if b == code 't' then
    advance
    word (codes "rue")
    return true
  else if b == code 'f' then
    advance
    word (codes "alse")
    return false
  else otherKind

def string : Reader String := do
  if (← peekSome) == code '"' then text else otherKind

def optional {α : Type} (r : Reader α) : Reader (Option α) := do
  if (← peek) == some (code 'n') then
    advance
    word (codes "ull")
    return none
  else return some (← r)

/-! ## Lists -/

def openList (depth : Nat) : Reader Nat := do
  if (← peekSome) == code '[' then nested depth else otherKind

/-- Exactly `n` items; a missing one is a mismatch. -/
def exactly {α : Type} (item : Reader α) : Nat → Bool → Reader (List α)
  | 0, _ => return []
  | n + 1, first => do
    if ← moreItems first then
      let x ← item
      return x :: (← exactly item n false)
    else throw .mismatch

def tuple {α : Type} (depth n : Nat) (item : Reader α) : Reader (List α) := do
  let _ ← openList depth
  let items ← exactly item n true
  endList
  return items

def itemsUpTo {α : Type} (item : Reader α) : Nat → Bool → Reader (List α)
  | 0, _ => throw .malformed
  | fuel + 1, first => do
    if ← moreItems first then
      let x ← item
      return x :: (← itemsUpTo item fuel false)
    else return []

def list {α : Type} (depth : Nat) (item : Nat → Reader α) : Reader (List α) := do
  let inner ← openList depth
  let items ← itemsUpTo (item inner) (← bound) true
  endList
  return items

/-! ## Records -/

/-- A field of a record that is being filled in. -/
structure Member (σ : Type) where
  name : String
  given : σ → Bool
  read : Nat → σ → Reader σ
  /-- May it be missing at the end of a list? -/
  mayMiss : Bool

def fieldsOfObject {σ : Type} (fields : List (Member σ)) (depth : Nat) : Nat → Bool → σ → Reader σ
  | 0, _, _ => throw .malformed
  | fuel + 1, first, s => do
    match ← nextKey first with
    | none => return s
    | some key =>
      match fields.find? (·.name == key) with
      | none =>
        colon
        skip
        fieldsOfObject fields depth fuel false s
      | some f =>
        if f.given s then throw .mismatch
        colon
        fieldsOfObject fields depth fuel false (← f.read depth s)

def fieldsOfList {σ : Type} (depth : Nat) : List (Member σ) → Bool → σ → Reader σ
  | [], _, s => return s
  | f :: fields, first, s => do
    if ← moreItems first then fieldsOfList depth fields false (← f.read depth s)
    else if f.mayMiss then fieldsOfList depth fields first s
    else throw .mismatch

/-- A record, filled in from `start`; `finish` says what a complete one is. -/
def record {σ α : Type} (fields : List (Member σ)) (start : σ) (finish : σ → Option α) (depth : Nat) : Reader α := do
  let complete (s : σ) : Reader α :=
    match finish s with
    | some x => return x
    | none => throw .mismatch
  let b ← peekSome
  if b == code '[' then
    let inner ← nested depth
    let x ← complete (← fieldsOfList inner fields true start)
    endList
    return x
  else if b == code '\x7b' then
    let inner ← nested depth
    let x ← complete (← fieldsOfObject fields inner (← bound) true start)
    endObject
    return x
  else otherKind

/-- One of a few names: as a text, or as the only key of an object with a null. -/
def choice {α : Type} (names : List (String × α)) (depth : Nat) : Reader α := do
  let named (s : String) : Reader α :=
    match names.find? (·.1 == s) with
    | some (_, x) => return x
    | none => throw .mismatch
  let b ← peekSome
  if b == code '"' then named (← text)
  else if b == code '\x7b' then
    let _ ← nested depth
    let x ← named (← string)
    colon
    if (← peekSome) == code 'n' then
      advance
      word (codes "ull")
    else otherKind
    endObject
    return x
  else throw .malformed

/-! ## Tagged values -/

/-- What stands beside a tag. -/
inductive Parts where
  | entries (es : List (String × Value))
  | items (vs : List Value)

def readTag (tags : List String) : Reader String := do
  let t ← string
  if tags.contains t then return t else throw .mismatch

def taggedEntries (key : String) (tags : List String) (depth : Nat) :
    Nat → Bool → Option String → Reader (Option String × List (String × Value))
  | 0, _, _ => throw .malformed
  | fuel + 1, first, tag => do
    match ← nextKey first with
    | none => return (tag, [])
    | some k =>
      if k == key then
        if tag.isSome then throw .mismatch
        colon
        taggedEntries key tags depth fuel false (some (← readTag tags))
      else
        colon
        let v ← value depth
        let (tag, more) ← taggedEntries key tags depth fuel false tag
        return (tag, (k, v) :: more)

/-- The tag and the parts of a tagged value, whose tag is one of `tags`. -/
def tagged (key : String) (tags : List String) (depth : Nat) : Reader (String × Parts) := do
  let b ← peekSome
  if b == code '[' then
    let inner ← nested depth
    if ← moreItems true then
      let tag ← readTag tags
      let items ← itemsUpTo (value inner) (← bound) false
      endList
      return (tag, .items items)
    else throw .mismatch
  else if b == code '\x7b' then
    let inner ← nested depth
    match ← taggedEntries key tags inner (← bound) true none with
    | (none, _) => throw .mismatch
    | (some tag, entries) =>
      endObject
      return (tag, .entries entries)
  else otherKind

namespace Parts

/-- The part of that name or position. A name given twice is a mismatch. -/
def find (p : Parts) (name : String) (position : Nat) : Except Defect (Option Value) :=
  match p with
  | .entries es =>
    match es.filter (·.1 == name) with
    | [] => .ok none
    | [e] => .ok (some e.2)
    | _ => .error .mismatch
  | .items vs => .ok vs[position]?

/-- No more parts than `n`, for a list. -/
def atMost (p : Parts) (n : Nat) : Except Defect Unit :=
  match p with
  | .entries _ => .ok ()
  | .items vs => if vs.length ≤ n then .ok () else .error .mismatch

end Parts

namespace Value

def toFloat : Value → Except Defect Float
  | .number n => .ok n.toFloat
  | _ => .error .mismatch

def toText : Value → Except Defect String
  | .text s => .ok s
  | _ => .error .mismatch

/-- Null, or a pair of numbers. -/
def toPair? : Value → Except Defect (Option (Float × Float))
  | .null => .ok none
  | .list [x, y] => do return some (← x.toFloat, ← y.toFloat)
  | _ => .error .mismatch

end Value

/-- A whole document: one value, and nothing after it. -/
def document {α : Type} (r : Nat → Reader α) (s : String) : Except Defect α := do
  let (x, left) ← (r levels).run (codes s)
  if (left.dropWhile isSpace).isEmpty then return x else throw .malformed

end MagneticBearing.Json
