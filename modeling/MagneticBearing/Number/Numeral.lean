/-
  MagneticBearing.Number.Numeral — numbers as they are written, before they are rounded.

  A numeral is an optional sign and one of `inf`, `infinity`, `nan` (any case) or decimal digits
  with at most one point and an optional exponent; at least one digit stands before the
  exponent, and nothing else, blanks included, is allowed. `read?` keeps the exact decimal
  value, so a reader can be stated without saying which numbers it reads into. Whole numbers
  with a sign (`readInt?`) are refused outside 64 bits.
-/

import MagneticBearing.Number.Binary64

namespace MagneticBearing.Number

inductive Numeral where
  | nan
  | infinite (neg : Bool)
  /-- The value is `mantissa · 10^exponent`, negated if `neg`. -/
  | finite (neg : Bool) (mantissa : Nat) (exponent : Int)
  deriving DecidableEq, Repr

def isDigit (c : Char) : Bool := '0' ≤ c && c ≤ '9'

def digitValue (c : Char) : Nat := c.toNat - '0'.toNat

def ofDigits (cs : List Char) : Nat := cs.foldl (fun n c => 10 * n + digitValue c) 0

/-- The digits in front and what follows them. -/
def splitDigits (cs : List Char) : List Char × List Char := (cs.takeWhile isDigit, cs.dropWhile isDigit)

def splitSign : List Char → Bool × List Char
  | '-' :: cs => (true, cs)
  | '+' :: cs => (false, cs)
  | cs => (false, cs)

/-- A whole number with an optional sign, without a bound. -/
def readSigned? (cs : List Char) : Option Int :=
  let (neg, ds) := splitSign cs
  if ds.isEmpty || !ds.all isDigit then none
  else some (if neg then -(ofDigits ds : Int) else ofDigits ds)

def readInt? (s : String) : Option Int := do
  let n ← readSigned? s.toList
  if -9223372036854775808 ≤ n ∧ n ≤ 9223372036854775807 then some n else none

namespace Numeral

def readExponent? : List Char → Option Int
  | [] => some 0
  | c :: cs => if c == 'e' || c == 'E' then readSigned? cs else none

def readDecimal? (neg : Bool) (cs : List Char) : Option Numeral :=
  let (whole, afterWhole) := splitDigits cs
  let (fraction, rest) := match afterWhole with
    | '.' :: afterPoint => splitDigits afterPoint
    | _ => ([], afterWhole)
  if whole.isEmpty && fraction.isEmpty then none
  else (readExponent? rest).map fun e => .finite neg (ofDigits (whole ++ fraction)) (e - fraction.length)

def lower (cs : List Char) : List Char := cs.map Char.toLower

def read? (s : String) : Option Numeral :=
  let (neg, body) := splitSign s.toList
  match String.ofList (lower body) with
  | "nan" => some .nan
  | "inf" | "infinity" => some (.infinite neg)
  | _ => readDecimal? neg body

/-- The double nearest to what is written. -/
def toFloat : Numeral → Float
  | .nan => 0.0 / 0.0
  | .infinite neg => if neg then -(1.0 / 0.0) else 1.0 / 0.0
  | .finite neg m e => Binary64.ofDecimal neg m e

end Numeral

end MagneticBearing.Number
