/-
  MagneticBearing.CommandLine.Grammar — arguments sorted into options, flags and values.

  A level is the options, flags and positional values that a command takes, and the names of the
  commands that may follow. Arguments are taken from left to right; a value counts only when the
  next argument starts or the arguments end, so an argument that is unknown is reported before
  a bad value right in front of it.

  After `--`, and after the first word of a positional that takes hyphens, everything is a
  value. A word like `-2.5` is a value where the next positional takes negative numbers.
-/

import MagneticBearing.Number.Numeral

namespace MagneticBearing.CommandLine

open MagneticBearing.Number

inductive UsageError where
  | helpRequested
  | nothingGiven
  | missingSubcommand
  | unknownSubcommand
  | unknownArgument
  | missingArgument
  | missingValue
  | badValue
  | unexpectedValue
  | givenTwice
  deriving DecidableEq, Repr

inductive ValueKind where
  | number
  | path
  | text
  deriving DecidableEq, Repr

structure Positional where
  kind : ValueKind
  /-- Takes words like `-2.5`. -/
  negative : Bool
  /-- Takes words with hyphens, and with the first word all that follow. -/
  hyphens : Bool
  many : Bool
  deriving DecidableEq, Repr

structure Level where
  options : List (String × ValueKind)
  flags : List String
  positionals : List Positional
  subcommands : List String
  deriving DecidableEq, Repr

/-- What was given, and counts. -/
structure Given where
  options : List (String × String)
  flags : List String
  values : List (Nat × String)
  deriving DecidableEq, Repr

inductive Pending where
  | option (name : String) (value : Option String)
  | positional (position : Nat) (values : List String)
  deriving DecidableEq, Repr

structure State where
  given : Given
  pending : Option Pending
  /-- Is the pending option waiting for its value? -/
  awaiting : Bool
  valuesOnly : Bool
  position : Nat
  deriving DecidableEq, Repr

def State.start : State := ⟨⟨[], [], []⟩, none, false, false, 0⟩

/-- Where a level ends: with the arguments, or at a command and what follows it. -/
inductive Stop where
  | ended (s : State)
  | subcommand (s : State) (name : String) (rest : List String)
  deriving DecidableEq, Repr

/-! ## Words -/

/-- Digits, one point after the first character, one exponent letter neither first nor last. -/
def negativeBody (cs : List Char) : Bool :=
  let notExponent (c : Char) : Bool := c != 'e' && c != 'E'
  let (mantissa, fromE) := (cs.takeWhile notExponent, cs.dropWhile notExponent)
  let afterPoint := (mantissa.dropWhile isDigit).drop 1
  let numberLike := mantissa.all isDigit ||
    (mantissa.head? != some '.' && (mantissa.dropWhile isDigit).head? == some '.' && afterPoint.all isDigit)
  numberLike &&
    match fromE with
    | [] => true
    | _ :: digits => !mantissa.isEmpty && !digits.isEmpty && digits.all isDigit

inductive Word where
  | separator
  | long (name : String) (value : Option String)
  | short (letters : List Char)
  | plain
  deriving DecidableEq, Repr

def Word.classify (s : String) : Word :=
  match s.toList with
  | '-' :: '-' :: [] => .separator
  | '-' :: '-' :: cs =>
    let name := String.ofList (cs.takeWhile (· != '='))
    match cs.dropWhile (· != '=') with
    | [] => .long name none
    | _ :: value => .long name (some (String.ofList value))
  | '-' :: c :: cs => .short (c :: cs)
  | _ => .plain

/-! ## Values -/

def checkValue (kind : ValueKind) (value : String) : Except UsageError Unit :=
  match kind with
  | .number => if (Numeral.read? value).isSome then .ok () else .error .badValue
  | .path => if value.isEmpty then .error .missingValue else .ok ()
  | .text => .ok ()

def kindOf (l : Level) (position : Nat) : ValueKind := (l.positionals[position]?.map (·.kind)).getD .text

def addOption (l : Level) (g : Given) (name value : String) : Except UsageError Given := do
  if (g.options.lookup name).isSome then throw .givenTwice
  checkValue ((l.options.lookup name).getD .text) value
  return { g with options := g.options ++ [(name, value)] }

/-- Let the pending argument count. -/
def resolve (l : Level) (s : State) : Except UsageError State :=
  match s.pending with
  | none => .ok s
  | some (.option _ none) => .error .missingValue
  | some (.option name (some value)) => do
    return { s with given := ← addOption l s.given name value, pending := none }
  | some (.positional position values) => do
    values.forM (checkValue (kindOf l position))
    return { s with
      given := { s.given with values := s.given.values ++ values.map fun v => (position, v) }
      pending := none }

/-! ## Arguments -/

def next? (l : Level) (s : State) : Option Positional := l.positionals[s.position]?

def askHelp (l : Level) (s : State) : Except UsageError State := do
  let _ ← resolve l s
  throw .helpRequested

def setFlag (l : Level) (s : State) (name : String) : Except UsageError State := do
  let s ← resolve l s
  if s.given.flags.contains name then throw .givenTwice
  return { s with given := { s.given with flags := name :: s.given.flags }, awaiting := false }

/-- An option or flag by its name; none if it is no such, and may be a value. -/
def takeLong (l : Level) (s : State) (name : String) (value : Option String) : Except UsageError (Option State) := do
  if (l.options.lookup name).isSome then
    let s ← resolve l s
    match value with
    | some v => return some { s with given := ← addOption l s.given name v, awaiting := false }
    | none => return some { s with pending := some (.option name none), awaiting := true }
  else if name == "help" || l.flags.contains name then
    if value.isSome then throw .unexpectedValue
    if name == "help" then some <$> askHelp l s else some <$> setFlag l s name
  else if ((next? l s).map (·.hyphens)).getD false then return none
  else throw .unknownArgument

/-- Letters after one hyphen; none if they may be a value. Where words with hyphens are taken, only
letters that all ask for help are not a value. -/
def takeShort (l : Level) (s : State) (letters : List Char) : Except UsageError (Option State) :=
  let p := next? l s
  if (p.map (·.negative)).getD false && negativeBody letters then .ok none
  else if (p.map (·.hyphens)).getD false && letters.any (· != 'h') then .ok none
  else if letters.head? == some 'h' then some <$> askHelp l s
  else .error .unknownArgument

def takeValue (l : Level) (s : State) (word : String) : Except UsageError State :=
  match next? l s with
  | some p => do
    let held : List String := match s.pending with
      | some (.positional position values) => if position = s.position && p.many then values else []
      | _ => []
    let s ← if held.isEmpty then resolve l s else pure s
    return { s with
      pending := some (.positional s.position (held ++ [word]))
      awaiting := false
      valuesOnly := s.valuesOnly || p.hyphens
      position := if p.many then s.position else s.position + 1 }
  | none =>
    if s.valuesOnly && l.subcommands.contains word then .error .unknownArgument
    else if l.subcommands.isEmpty then .error .unknownArgument
    else .error .unknownSubcommand

/-- A word that is no option and no flag: the value awaited, or the next positional. -/
def takeWord (l : Level) (s : State) (word : String) : Except UsageError State :=
  match s.awaiting, s.pending with
  | true, some (.option name _) => .ok { s with pending := some (.option name (some word)), awaiting := false }
  | _, _ => takeValue l s word

def takeArguments (l : Level) (s : State) : List String → Except UsageError Stop
  | [] => .ok (.ended s)
  | word :: rest => do
    if s.valuesOnly then takeArguments l (← takeValue l s word) rest
    else if !s.awaiting && l.subcommands.contains word then return .subcommand s word rest
    else
      match Word.classify word with
      | .separator => takeArguments l { s with valuesOnly := true } rest
      | .long name value =>
        match ← takeLong l s name value with
        | some s => takeArguments l s rest
        | none => takeArguments l (← takeWord l s word) rest
      | .short letters =>
        match ← takeShort l s letters with
        | some s => takeArguments l s rest
        | none => takeArguments l (← takeWord l s word) rest
      | .plain => takeArguments l (← takeWord l s word) rest

/-! ## Whole levels -/

/-- All arguments of a level without commands; `required` names the options that must be given, and
every positional must have a value. -/
def takeAll (l : Level) (required : List String) (words : List String) : Except UsageError Given := do
  match ← takeArguments l .start words with
  | .subcommand .. => throw .unknownSubcommand
  | .ended s =>
    let g := (← resolve l s).given
    let positionals := (List.range l.positionals.length).all fun i => g.values.any (·.1 == i)
    if positionals && required.all fun name => (g.options.lookup name).isSome then return g
    else throw .missingArgument

namespace Given

def flag (g : Given) (name : String) : Bool := g.flags.contains name

def option? (g : Given) (name : String) : Option String := g.options.lookup name

def valuesAt (g : Given) (position : Nat) : List String := (g.values.filter (·.1 == position)).map (·.2)

def valueAt (g : Given) (position : Nat) : String := (g.valuesAt position).headD ""

end Given

end MagneticBearing.CommandLine
