/-
  MagneticBearing.Main — the program: arguments in, an answer or an error out.
-/

import MagneticBearing.CommandLine.Printed

namespace MagneticBearing.CommandLine

/-- Does a fault have this number? Some calls report it negated. -/
def hasNumber (code errno : UInt32) : Bool := code == errno || code == 0 - errno

def fileFault (e : IO.Error) : FileFault :=
  match e with
  | .noFileOrDirectory .. => .notFound
  | .permissionDenied .. => .denied
  | .inappropriateType _ code _ => if hasNumber code 20 then .notDirectory else .isDirectory
  | .invalidArgument _ code _ => if hasNumber code 36 then .nameTooLong else .other (toString e)
  | e => .other (toString e)

def readFile (path : String) : IO (Except FileFault String) := do
  if path.toList.contains (Char.ofNat 0) then return .error .zeroInName
  try
    let bytes ← IO.FS.readBinFile path
    match String.fromUTF8? bytes with
    | some s => return .ok s
    | none => return .error .notText
  catch e => return .error (fileFault e)

/-- The files that an invocation names, read. -/
def readFiles (paths : List String) : IO Files := do
  let texts ← paths.mapM fun path => do return (path, ← readFile path)
  return fun path => (texts.lookup path).getD (.error .notFound)

def execute (args : List String) : IO UInt32 := do
  match Invocation.ofArguments args with
  | .error .helpRequested =>
    IO.println (usageText .helpRequested)
    return 0
  | .error e =>
    IO.eprintln (usageText e)
    return 2
  | .ok i =>
    match run (← readFiles i.paths) i with
    | .ok out =>
      IO.print out.printed
      return 0
    | .error e =>
      IO.eprintln ("Error: " ++ e.message)
      return 1

end MagneticBearing.CommandLine

def main (args : List String) : IO UInt32 := MagneticBearing.CommandLine.execute args
