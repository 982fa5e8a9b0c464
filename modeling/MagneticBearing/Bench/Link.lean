/-
  MagneticBearing.Bench.Link — the text command link to the board.

  A command is its text followed by CR LF, written and flushed byte by byte. The response is the
  lines that follow, without their ends, until a number of blank ones in a row; a line that has
  not come yet counts as blank, so silence ends a response.

  A log dump is rows `> microseconds value` up to a row with the end marker; other rows and rows
  at time zero are passed over, and what trails the marker is read and dropped. A thousand
  empty reads in a row end the wait without an answer.
-/

import MagneticBearing.Bench.Session
import MagneticBearing.Text.Blank
import MagneticBearing.Text.Utf8

namespace MagneticBearing.Bench

open MagneticBearing.Number (Numeral readInt?)
open MagneticBearing.Text

variable {K : Type}

namespace Link

/-- The bytes of a command on the wire. -/
def frame (command : String) : List UInt8 := encode command ++ [13, 10]

def sendBytes : List UInt8 → BenchM K Unit
  | [] => pure ()
  | b :: bs => do
    BenchM.onPort (·.write b)
    BenchM.onPort Port.flush
    sendBytes bs

def send (command : String) : BenchM K Unit := do
  sendBytes (frame command)
  if (← get).settings.echo then BenchM.notify (.echo command)

/-! ## Responses -/

/-- The lines up to the blank one that is `limit` in a row, after `blanks` of them. -/
def collectLines (limit blanks : Nat) (script : List ReadEvent) : Except Fault (List String) × List ReadEvent :=
  if blanks < limit then
    match _h : readLine script with
    | (.error f, left) => (.error f, left)
    | (.ok line, left) =>
      let text := chomp (decode line)
      if _ht : text = "" then collectLines limit (blanks + 1) left
      else
        match collectLines limit 0 left with
        | (.ok more, left) => (.ok (text :: more), left)
        | (.error f, left) => (.error f, left)
  else (.ok [], script)
termination_by (script.length, limit - blanks)
decreasing_by
  · have hl := readLine_length script
    rw [_h] at hl
    simp only at hl
    rcases Nat.lt_or_ge left.length script.length with h | h
    · exact Prod.Lex.left _ _ h
    · have : left.length = script.length := by omega
      rw [this]
      exact Prod.Lex.right _ (by omega)
  · apply Prod.Lex.left
    have hs : script ≠ [] := by
      rintro rfl
      rw [readLine_nil] at _h
      have hl : line = [] := by simpa using (congrArg (fun r => r.1) _h).symm
      exact _ht (by simp [text, hl])
    have hl := readLine_shorter hs
    rw [_h] at hl
    exact hl

def onFault {α : Type} : Except Fault α × List ReadEvent → Except (LinkError K) α × List ReadEvent
  | (.ok x, left) => (.ok x, left)
  | (.error f, left) => (.error (.io f), left)

/-- Send a command and collect the lines that it prints. -/
def command (text : String) : BenchM K (List String) := do
  send text
  let limit := (← get).settings.allowedEmptyReads
  if limit = 0 then return []
  BenchM.onScript fun script => onFault (collectLines limit 0 script)

/-! ## Log dumps -/

def endMarker : List Char := "-------END-------".toList

def dumpPatience : Nat := 1000

section Samples

variable [Scalar K]

/-- Time in seconds and value of a row; none if it is not one, or is at time zero. -/
def sample? (text : String) : Option (K × K) :=
  match words text with
  | ">" :: time :: value :: _ => do
    let t ← readInt? time
    let v ← Numeral.read? value
    if t = 0 then none else some (Scalar.ofInt t / 1000000.0, Scalar.ofNumeral v)
  | _ => none

/-- The samples up to the end marker, after `blanks` empty reads in a row. -/
def collectSamples (index blanks : Nat) (script : List ReadEvent) :
    Except (LinkError K) (List (K × K)) × List ReadEvent :=
  match _h : readLine script with
  | (.error f, left) => (.error (.io f), left)
  | (.ok [], left) =>
    if blanks + 1 < dumpPatience then collectSamples index (blanks + 1) left
    else (.error (.logIncomplete index), left)
  | (.ok (b :: line), left) =>
    let text := decode (b :: line)
    if holds endMarker text.toList then (.ok [], left)
    else
      match collectSamples index 0 left with
      | (.ok more, left) => (.ok ((sample? text).toList ++ more), left)
      | (.error e, left) => (.error e, left)
termination_by (script.length, dumpPatience - blanks)
decreasing_by
  · have hl := readLine_length script
    rw [_h] at hl
    simp only at hl
    rcases Nat.lt_or_ge left.length script.length with h | h
    · exact Prod.Lex.left _ _ h
    · have : left.length = script.length := by omega
      rw [this]
      exact Prod.Lex.right _ (by omega)
  · apply Prod.Lex.left
    have hs : script ≠ [] := by
      rintro rfl
      simp [readLine_nil] at _h
    have hl := readLine_shorter hs
    rw [_h] at hl
    exact hl

/-- Read up to the first empty read. -/
def drain (script : List ReadEvent) : Except Fault Unit × List ReadEvent :=
  match _h : readLine script with
  | (.error f, left) => (.error f, left)
  | (.ok [], left) => (.ok (), left)
  | (.ok (_ :: _), left) => drain left
termination_by script.length
decreasing_by
  have hs : script ≠ [] := by
    rintro rfl
    simp [readLine_nil] at _h
  have hl := readLine_shorter hs
  rw [_h] at hl
  exact hl

def dumpSamples (index : Nat) (script : List ReadEvent) : Except (LinkError K) (List (K × K)) × List ReadEvent :=
  match collectSamples index 0 script with
  | (.error e, left) => (.error e, left)
  | (.ok samples, left) =>
    match drain left with
    | (.ok (), left) => (.ok samples, left)
    | (.error f, left) => (.error (.io f), left)

/-- The logged samples of a variable: time in seconds and value. -/
def logDump (index : Nat) : BenchM K (List (K × K)) := do
  send ("log dump " ++ toString index)
  let samples ← BenchM.onScript (dumpSamples index)
  BenchM.notify (.logRead index samples.length)
  return samples

end Samples

end Link

end MagneticBearing.Bench
