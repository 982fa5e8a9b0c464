/-
  MagneticBearing.Proofs.Wire — commands over a port whose writes and flushes succeed.

  There a command is always sent whole (`send_sound`), and what is left of it is reading: the response
  is what `collectLines` or `dumpSamples` finds in the script, and the script that they leave is what
  the next command reads (`command_sound`, `logDump_sound`).
-/

import MagneticBearing.Bench.Link

namespace MagneticBearing.Bench

open MagneticBearing.Text

/-- Every write and every flush succeeds. -/
structure Port.Sound (p : Port) : Prop where
  write : ∀ n, p.writeFault n = none
  flush : ∀ n, p.flushFault n = none

theorem Port.ofScript_sound (script : List ReadEvent) : (Port.ofScript script).Sound := ⟨fun _ => rfl, fun _ => rfl⟩

variable {K : Type}

/-- `s'` is `s` after `sent` was transmitted and reading went on to `left`; it goes on with the same settings. -/
structure Session.Goes (s s' : Session K) (sent : List UInt8) (left : List ReadEvent) : Prop where
  sound : s'.port.Sound
  settings : s'.settings = s.settings
  transmitted : s'.port.transmitted = s.port.transmitted ++ sent
  incoming : s'.port.incoming = left

namespace BenchM

variable {α β : Type}

theorem get_apply (s : Session K) : (get : BenchM K (Session K)) s = (.ok s, s) := rfl

theorem bind_apply (x : BenchM K α) (f : α → BenchM K β) (s : Session K) :
    (x >>= f) s = match x s with
      | (.ok a, s') => f a s'
      | (.error e, s') => (.error e, s') := by
  show ExceptT.bindCont f _ _ = _
  rcases x s with ⟨r, s'⟩
  cases r <;> rfl

end BenchM

namespace Link

open BenchM

variable {s : Session K}

theorem sendBytes_sound (bs : List UInt8) (h : s.port.Sound) :
    ∃ s', (sendBytes bs : BenchM K Unit) s = (.ok (), s') ∧ s.Goes s' bs s.port.incoming := by
  induction bs generalizing s with
  | nil => exact ⟨s, rfl, h, rfl, (List.append_nil _).symm, rfl⟩
  | cons b bs ih =>
    let sent : Port := { s.port with
      writes := s.port.writes + 1, flushes := s.port.flushes + 1, history := .flushed :: .wrote b :: s.port.history }
    obtain ⟨s', hrun, hs⟩ := ih (s := { s with port := sent }) ⟨h.write, h.flush⟩
    refine ⟨s', ?_, hs.sound, hs.settings, ?_, hs.incoming⟩
    · rw [← hrun]
      simp only [sendBytes, bind_apply, onPort, Port.write, Port.flush, h.write, h.flush, sent]
    · rw [hs.transmitted]
      simp [sent, Port.transmitted]

theorem send_sound (text : String) (h : s.port.Sound) :
    ∃ s', (send text : BenchM K Unit) s = (.ok (), s') ∧ s.Goes s' (frame text) s.port.incoming := by
  obtain ⟨t, hrun, ht⟩ := sendBytes_sound (frame text) h
  have hsend : (send text : BenchM K Unit) s =
      (if t.settings.echo then notify (.echo text) else pure () : BenchM K Unit) t := by
    simp only [send, bind_apply, hrun, get_apply]
  rw [hsend]
  split
  · exact ⟨{ t with log := t.log ++ [.echo text] }, rfl, ht.sound, ht.settings, ht.transmitted, ht.incoming⟩
  · exact ⟨t, rfl, ht⟩

/-- A read of the script puts nothing on the wire. -/
theorem onScript_sound {α : Type} (f : List ReadEvent → Except (LinkError K) α × List ReadEvent) {t : Session K}
    {sent : List UInt8} {left : List ReadEvent} (h : s.Goes t sent left) :
    ∃ s', onScript f t = ((f left).1, s') ∧ s.Goes s' sent (f left).2 := by
  refine ⟨{ t with port := { t.port with incoming := (f left).2, history := .read :: t.port.history } }, ?_,
    ⟨h.sound.write, h.sound.flush⟩, h.settings, ?_, rfl⟩
  · rw [← h.incoming]
    rfl
  · rw [← h.transmitted]
    simp [Port.transmitted]

/-! ## Steps of a response -/

section Steps

variable {limit blanks : Nat} {script left : List ReadEvent} {line : List UInt8}

theorem collectLines_done (h : limit ≤ blanks) : collectLines limit blanks script = (.ok [], script) := by
  unfold collectLines
  exact if_neg (Nat.not_lt.mpr h)

theorem collectLines_fault {f : Fault} (h : blanks < limit) (hread : readLine script = (.error f, left)) :
    collectLines limit blanks script = (.error f, left) := by
  unfold collectLines
  rw [if_pos h]
  split
  · rename_i hf
    rw [hread] at hf
    cases hf
    rfl
  · rename_i hl
    rw [hread] at hl
    cases hl

theorem collectLines_blank (h : blanks < limit) (hread : readLine script = (.ok line, left))
    (ht : chomp (decode line) = "") : collectLines limit blanks script = collectLines limit (blanks + 1) left := by
  rw [collectLines, if_pos h]
  split
  · rename_i hf
    rw [hread] at hf
    cases hf
  · rename_i hl
    rw [hread] at hl
    cases hl
    simp only [ht, dite_true]

theorem collectLines_text (h : blanks < limit) (hread : readLine script = (.ok line, left))
    (ht : chomp (decode line) ≠ "") : collectLines limit blanks script =
      ((collectLines limit 0 left).1.map (chomp (decode line) :: ·), (collectLines limit 0 left).2) := by
  rw [collectLines, if_pos h]
  split
  · rename_i hf
    rw [hread] at hf
    cases hf
  · rename_i hl
    rw [hread] at hl
    cases hl
    simp only [ht, dite_false]
    rcases collectLines limit 0 left with ⟨r, rest⟩
    cases r <;> rfl

end Steps

/-! ## Whole commands -/

/-- A command is sent whole and answered by what its lines are in the script. -/
theorem command_sound (text : String) (h : s.port.Sound) :
    ∃ s', (command text : BenchM K (List String)) s =
        ((onFault (collectLines s.settings.allowedEmptyReads 0 s.port.incoming)).1, s') ∧
      s.Goes s' (frame text) (collectLines s.settings.allowedEmptyReads 0 s.port.incoming).2 := by
  obtain ⟨t, hrun, ht⟩ := send_sound text h
  have hcommand : (command text : BenchM K (List String)) s =
      (if t.settings.allowedEmptyReads = 0 then pure []
       else onScript fun script => onFault (collectLines t.settings.allowedEmptyReads 0 script) :
        BenchM K (List String)) t := by
    simp only [command, bind_apply, hrun, get_apply]
  have hleft (r : Except Fault (List String) × List ReadEvent) : (onFault (K := K) r).2 = r.2 := by
    rcases r with ⟨r, left⟩
    cases r <;> rfl
  rw [hcommand, ← ht.settings]
  split
  · rename_i hzero
    rw [hzero, collectLines_done (Nat.le_refl 0)]
    exact ⟨t, rfl, ht⟩
  · obtain ⟨s', hread, hs⟩ :=
      onScript_sound (fun script => onFault (collectLines t.settings.allowedEmptyReads 0 script)) ht
    rw [hleft] at hs
    exact ⟨s', hread, hs⟩

/-- A dump whose command is sent is answered by what its samples are in the script. -/
theorem logDump_sent [Scalar K] {index : Nat} {t : Session K}
    (hsend : (send ("log dump " ++ toString index) : BenchM K Unit) s = (.ok (), t)) :
    (logDump index : BenchM K (List (K × K))) s = ((dumpSamples index t.port.incoming).1,
      let u := (onScript (dumpSamples (K := K) index) t).2
      match (dumpSamples (K := K) index t.port.incoming).1 with
      | .ok samples => { u with log := u.log ++ [.logRead index samples.length] }
      | .error _ => u) := by
  simp only [logDump, bind_apply, hsend, onScript]
  cases (dumpSamples (K := K) index t.port.incoming).1 <;> rfl

theorem logDump_sound [Scalar K] (index : Nat) (h : s.port.Sound) :
    ∃ s', (logDump index : BenchM K (List (K × K))) s = ((dumpSamples index s.port.incoming).1, s') ∧
      s.Goes s' (frame ("log dump " ++ toString index)) (dumpSamples (K := K) index s.port.incoming).2 := by
  obtain ⟨t, hrun, ht⟩ := send_sound ("log dump " ++ toString index) h
  obtain ⟨u, hread, hu⟩ := onScript_sound (dumpSamples (K := K) index) ht
  rw [logDump_sent hrun, hread, ht.incoming]
  cases hr : (dumpSamples (K := K) index s.port.incoming).1 with
  | ok samples => exact ⟨_, rfl, hu.sound, hu.settings, hu.transmitted, hu.incoming⟩
  | error e => exact ⟨u, rfl, hu⟩

end Link

end MagneticBearing.Bench
