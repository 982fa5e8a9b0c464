/-
  MagneticBearing.CommandLine.Command — the commands of the program and their arguments.

  `--config` and `--analytic` may stand before or after the command; what is given after it wins.
-/

import MagneticBearing.CommandLine.Grammar
import MagneticBearing.Scalar.Running

namespace MagneticBearing.CommandLine

open MagneticBearing.Number

inductive Command where
  | currents (direction magnitude : Float) (ampereTurns checkSaturation : Bool)
  | force (i1 i2 i3 : Float)
  | candidates (direction magnitude : Float) (json : Bool)
  | maxForce (direction : Float)
  | rated
  | params
  | send (port text : String)
  | queue (port file : String)
  | average (files : List String)
  deriving Repr

structure Invocation where
  config : Option String
  analytic : Bool
  command : Command
  deriving Repr

def number (g : Given) (position : Nat) : Float := ((Numeral.read? (g.valueAt position)).map Numeral.toFloat).getD 0.0

/-! ## The levels -/

def names : List String :=
  ["currents", "force", "candidates", "max-force", "rated", "params", "send", "queue", "average"]

def level (flags : List String) (options : List (String × ValueKind)) (positionals : List Positional) : Level :=
  ⟨("config", .path) :: options, "analytic" :: flags, positionals, []⟩

def top : Level := ⟨[("config", .path)], ["analytic"], [], "help" :: names⟩

/-- A number that may be negative. -/
def signedNumber : Positional := ⟨.number, true, false, false⟩

def plainNumber : Positional := ⟨.number, false, false, false⟩

def file : Positional := ⟨.path, false, false, false⟩

def files : Positional := ⟨.path, false, false, true⟩

def trailingWords : Positional := ⟨.text, false, true, true⟩

/-- What a command makes of its arguments. -/
def commandOf (name : String) (words : List String) : Except UsageError (Given × Command) := do
  if name == "currents" then
    let g ← takeAll (level ["ampere-turns", "no-saturation-check"] [] [signedNumber, plainNumber]) [] words
    return (g, .currents (number g 0) (number g 1) (g.flag "ampere-turns") (!g.flag "no-saturation-check"))
  else if name == "force" then
    let g ← takeAll (level [] [] [signedNumber, signedNumber, signedNumber]) [] words
    return (g, .force (number g 0) (number g 1) (number g 2))
  else if name == "candidates" then
    let g ← takeAll (level ["json"] [] [signedNumber, plainNumber]) [] words
    return (g, .candidates (number g 0) (number g 1) (g.flag "json"))
  else if name == "max-force" then
    let g ← takeAll (level [] [] [signedNumber]) [] words
    return (g, .maxForce (number g 0))
  else if name == "rated" then return (← takeAll (level [] [] []) [] words, .rated)
  else if name == "params" then return (← takeAll (level [] [] []) [] words, .params)
  else if name == "send" then
    let g ← takeAll (level [] [("port", .text)] [trailingWords]) ["port"] words
    return (g, .send ((g.option? "port").getD "") (" ".intercalate (g.valuesAt 0)))
  else if name == "queue" then
    let g ← takeAll (level [] [("port", .text)] [file]) ["port"] words
    return (g, .queue ((g.option? "port").getD "") (g.valueAt 0))
  else
    let g ← takeAll (level [] [] [files]) [] words
    return (g, .average (g.valuesAt 0))

/-- `help` with the names after it: at most one, of a command. -/
def helpError : List String → UsageError
  | [] => .helpRequested
  | [name] => if top.subcommands.contains name then .helpRequested else .unknownSubcommand
  | _ => .unknownSubcommand

def Invocation.ofArguments (words : List String) : Except UsageError Invocation := do
  match ← takeArguments top .start words with
  | .ended s =>
    let g := (← resolve top s).given
    if g.options.isEmpty && g.flags.isEmpty then throw .nothingGiven else throw .missingSubcommand
  | .subcommand s name rest =>
    if name == "help" then throw (helpError rest)
    let (inner, command) ← commandOf name rest
    let outer := (← resolve top s).given
    return ⟨(inner.option? "config").or (outer.option? "config"), inner.flag "analytic" || outer.flag "analytic", command⟩

/-- The files that a command may read. -/
def Invocation.paths (i : Invocation) : List String :=
  let own := match i.command with
    | .queue _ file => [file]
    | .average paths => paths
    | _ => []
  i.config.toList ++ own

def usageText : UsageError → String
  | .helpRequested => "Usage: cramb [--config CONFIG] [--analytic] COMMAND"
  | .nothingGiven => "no command given"
  | .missingSubcommand => "a command is required"
  | .unknownSubcommand => "unknown command"
  | .unknownArgument => "unexpected argument"
  | .missingArgument => "a required argument is missing"
  | .missingValue => "an option needs a value"
  | .badValue => "a value is not a number"
  | .unexpectedValue => "a flag takes no value"
  | .givenTwice => "an argument was given twice"

end MagneticBearing.CommandLine
