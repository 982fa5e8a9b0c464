/-
  MagneticBearing.Json.Writer — JSON values written out with indentation.

  A real number has its fewest digits. It is positional from `0.00001` up to sixteen digits
  before the point, always with a point, and has an exponent beyond that; what is not finite is
  null. Entries and items stand on lines of their own, two blanks deeper than their brackets.
-/

import MagneticBearing.Json.Value
import MagneticBearing.Number.Decimal

namespace MagneticBearing.Json

open MagneticBearing.Number MagneticBearing.Number.Decimal

def realDigits (ds : List Char) (g : Int) : List Char :=
  let size := (ds.length : Int) + g
  if 0 ≤ g ∧ size ≤ 16 then ds ++ zeros g.toNat ++ ['.', '0']
  else if 0 < size ∧ size ≤ 16 then ds.take size.toNat ++ '.' :: ds.drop size.toNat
  else if -5 < size ∧ size ≤ 0 then '0' :: '.' :: (zeros (-size).toNat ++ ds)
  else
    let exponent := 'e' :: (toString (size - 1)).toList
    if ds.length = 1 then ds ++ exponent else ds.take 1 ++ '.' :: (ds.drop 1 ++ exponent)

def realText (x : Float) : String :=
  match Binary64.decode x with
  | .nan | .infinite _ => "null"
  | .finite neg m e =>
    if m = 0 then signed neg ['0', '.', '0']
    else
      let d := shortestOf m e
      signed neg (realDigits (digitChars d.digits) d.exponent)

def Number.text : Number → String
  | .whole neg n => signed neg (digitChars n)
  | .real x => realText x

def hexDigits (n : Nat) : List Char :=
  let ds := Nat.toDigits 16 n
  zeros (4 - ds.length) ++ ds

def escaped (c : Char) : List Char :=
  if c == '"' then ['\\', '"']
  else if c == '\\' then ['\\', '\\']
  else if c == '\n' then ['\\', 'n']
  else if c == '\r' then ['\\', 'r']
  else if c == '\t' then ['\\', 't']
  else if c.toNat = 8 then ['\\', 'b']
  else if c.toNat = 12 then ['\\', 'f']
  else if c.toNat < 32 then '\\' :: 'u' :: hexDigits c.toNat
  else [c]

def quoted (s : String) : String := "\"" ++ String.ofList (s.toList.flatMap escaped) ++ "\""

def indent (depth : Nat) : String := "\n" ++ String.ofList (List.replicate (2 * depth) ' ')

/-- Pieces between brackets, each on its own line. -/
def bracketed (opening closing : String) (depth : Nat) (pieces : List String) : String :=
  if pieces.isEmpty then opening ++ closing
  else
    opening ++ ",".intercalate (pieces.map fun p => indent (depth + 1) ++ p) ++ indent depth ++ closing

mutual

def Value.render (depth : Nat) : Value → String
  | .null => "null"
  | .bool b => if b then "true" else "false"
  | .number n => n.text
  | .text s => quoted s
  | .list items => bracketed "[" "]" depth (renderItems (depth + 1) items)
  | .object entries => bracketed "\x7b" "\x7d" depth (renderEntries (depth + 1) entries)

def renderItems (depth : Nat) : List Value → List String
  | [] => []
  | v :: vs => v.render depth :: renderItems depth vs

def renderEntries (depth : Nat) : List (String × Value) → List String
  | [] => []
  | (k, v) :: es => (quoted k ++ ": " ++ v.render depth) :: renderEntries depth es

end

end MagneticBearing.Json
