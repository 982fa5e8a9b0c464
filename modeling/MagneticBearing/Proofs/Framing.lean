/-
  MagneticBearing.Proofs.Framing — which part of the incoming script answers a command, and how.

  An interrupted read does not count. What is heard without these falls into chunks: a chunk ends with a
  newline, or at a read that brought nothing; when the script is used up, nothing comes for ever. A
  response is the shortest run of chunks that ends with as many blank ones in a row as the link waits for.
  Its lines are the texts of the chunks that are not blank, unless a read in it fails.

  - `readLine_chunk`: one line is one chunk.
  - `collectLines_response`: the lines collected are those of the response, and nothing behind it is taken.
  - `commands_framed`: commands in turn are answered by consecutive parts of the script.
-/

import Mathlib
import MagneticBearing.Proofs.Wire

namespace MagneticBearing.Bench

open MagneticBearing.Text

namespace ReadEvent

def byte? : ReadEvent → Option UInt8
  | .byte b => some b
  | _ => none

def interrupted : ReadEvent → Bool
  | .fault f => f.kind == .interrupted
  | _ => false

/-- A newline, or a read that brought nothing in time. -/
def endsChunk : ReadEvent → Bool
  | .byte b => b == newline
  | .empty => true
  | .fault f => f.kind == .timedOut || f.kind == .wouldBlock

/-- The fault of a read that fails for another reason than time. -/
def failure? : ReadEvent → Option Fault
  | .fault f => if f.kind == .brokenPipe || f.kind == .other then some f else none
  | _ => none

end ReadEvent

/-! ## Chunks -/

/-- A script without the reads that do not count. -/
def heard (script : List ReadEvent) : List ReadEvent := script.filter fun e => !e.interrupted

/-- The pieces of a script, each up to and with an event that ends one. -/
def chunks : List ReadEvent → List (List ReadEvent)
  | [] => []
  | e :: rest =>
    if e.endsChunk then [e] :: chunks rest
    else
      match chunks rest with
      | [] => [[e]]
      | c :: cs => (e :: c) :: cs

/-- The chunk of this number. Behind the script there is nothing in any. -/
def chunk (script : List ReadEvent) (i : Nat) : List ReadEvent := (chunks (heard script)).getD i []

def firstChunks (script : List ReadEvent) (n : Nat) : List (List ReadEvent) := (List.range n).map (chunk script)

def chunkText (c : List ReadEvent) : String := chomp (decode (c.filterMap ReadEvent.byte?))

/-- After `n` chunks the last `k` are blank, `blanks` chunks before the first counted in. -/
def Ends (k blanks : Nat) (cs : Nat → List ReadEvent) (n : Nat) : Prop :=
  k ≤ blanks + n ∧ ∀ i < n, n ≤ i + k → chunkText (cs i) = ""

/-- What the chunks of a response answer: the first failure in them, or the texts that are not blank. -/
def answer (cs : List (List ReadEvent)) : Except Fault (List String) :=
  match cs.flatten.findSome? ReadEvent.failure? with
  | some f => .error f
  | none => .ok ((cs.map chunkText).filter (· ≠ ""))

/-- Up to and with the first failure. -/
def untilFailure : List ReadEvent → List ReadEvent
  | [] => []
  | e :: rest => if e.failure?.isSome then [e] else e :: untilFailure rest

theorem heard_cons (e : ReadEvent) (script : List ReadEvent) :
    heard (e :: script) = if e.interrupted then heard script else e :: heard script := by
  unfold heard
  rw [List.filter_cons]
  cases e.interrupted <;> rfl

variable {e : ReadEvent} {script : List ReadEvent} {i : Nat}

theorem chunk_nil (i : Nat) : chunk [] i = [] := by
  simp [chunk, chunks, heard]

/-- Behind the script nothing comes. -/
theorem chunk_behind (h : (chunks (heard script)).length ≤ i) : chunk script i = [] := by
  unfold chunk
  rw [List.getD_eq_getElem?_getD, List.getElem?_eq_none h]
  rfl

theorem chunk_interrupted (h : e.interrupted = true) : chunk (e :: script) i = chunk script i := by
  unfold chunk
  rw [heard_cons, if_pos h]

theorem chunks_heard (h : e.interrupted = false) : chunks (heard (e :: script)) = chunks (e :: heard script) := by
  rw [heard_cons, h]
  rfl

/-- An event that ends a chunk is the last of one. -/
theorem chunk_ends_zero (h : e.interrupted = false) (he : e.endsChunk = true) : chunk (e :: script) 0 = [e] := by
  unfold chunk
  rw [chunks_heard h, chunks, if_pos he]
  rfl

theorem chunk_ends_succ (h : e.interrupted = false) (he : e.endsChunk = true) :
    chunk (e :: script) (i + 1) = chunk script i := by
  unfold chunk
  rw [chunks_heard h, chunks, if_pos he]
  rfl

/-- Any other event is the first of a chunk. -/
theorem chunk_goes_zero (h : e.interrupted = false) (he : ¬ e.endsChunk = true) :
    chunk (e :: script) 0 = e :: chunk script 0 := by
  unfold chunk
  rw [chunks_heard h, chunks, if_neg he]
  cases chunks (heard script) <;> rfl

theorem chunk_goes_succ (h : e.interrupted = false) (he : ¬ e.endsChunk = true) :
    chunk (e :: script) (i + 1) = chunk script (i + 1) := by
  unfold chunk
  rw [chunks_heard h, chunks, if_neg he]
  cases chunks (heard script) <;> rfl

/-! ## One line -/

/-- What one chunk gives: its bytes, unless a read in it fails. -/
def chunkBytes (c : List ReadEvent) : Except Fault (List UInt8) :=
  match c.findSome? ReadEvent.failure? with
  | some f => .error f
  | none => .ok (c.filterMap ReadEvent.byte?)

/-- `line` is what the first chunk of `script` gives, and `left` is what is behind it, or behind the
failure in it. -/
def TakesChunk (script : List ReadEvent) (line : Except Fault (List UInt8)) (left : List ReadEvent) : Prop :=
  line = chunkBytes (chunk script 0) ∧
    ∃ taken, script = taken ++ left ∧ heard taken = untilFailure (chunk script 0) ∧
      ((chunk script 0).findSome? ReadEvent.failure? = none → ∀ i, chunk left i = chunk script (i + 1))

theorem TakesChunk.ends (h : e.interrupted = false) (he : e.endsChunk = true) (hf : e.failure? = none) :
    TakesChunk (e :: script) (.ok e.byte?.toList) script := by
  refine ⟨?_, [e], rfl, ?_, fun _ i => (chunk_ends_succ h he).symm⟩
  · rw [chunk_ends_zero h he]
    cases hb : e.byte? <;> simp [chunkBytes, hf, hb]
  · rw [chunk_ends_zero h he, heard_cons, h]
    simp [untilFailure, hf, heard]

theorem TakesChunk.fails {f : Fault} (h : e.interrupted = false) (he : ¬ e.endsChunk = true)
    (hf : e.failure? = some f) : TakesChunk (e :: script) (.error f) script := by
  have hc : chunk (e :: script) 0 = e :: chunk script 0 := chunk_goes_zero h he
  refine ⟨?_, [e], rfl, ?_, fun hn => ?_⟩
  · rw [hc]
    simp [chunkBytes, hf]
  · rw [hc, heard_cons, h]
    simp [untilFailure, hf, heard]
  · rw [hc] at hn
    simp [hf] at hn

theorem TakesChunk.interrupted {line : Except Fault (List UInt8)} {left : List ReadEvent} (h : e.interrupted = true)
    (ht : TakesChunk script line left) : TakesChunk (e :: script) line left := by
  obtain ⟨hline, taken, hs, hh, hnext⟩ := ht
  unfold TakesChunk
  simp only [chunk_interrupted h]
  refine ⟨hline, e :: taken, by rw [hs]; rfl, ?_, hnext⟩
  rw [heard_cons, if_pos h, hh]

theorem TakesChunk.goes {line : Except Fault (List UInt8)} {left : List ReadEvent} {b : UInt8} (hb : b ≠ newline)
    (ht : TakesChunk script line left) : TakesChunk (.byte b :: script) (line.map (b :: ·)) left := by
  obtain ⟨rfl, taken, hs, hh, hnext⟩ := ht
  have he : ¬ (ReadEvent.byte b).endsChunk = true := by simpa [ReadEvent.endsChunk] using hb
  have hc : chunk (.byte b :: script) 0 = .byte b :: chunk script 0 := chunk_goes_zero rfl he
  refine ⟨?_, .byte b :: taken, by rw [hs]; rfl, ?_, fun hn i => ?_⟩
  · rw [hc]
    unfold chunkBytes
    rw [List.findSome?_cons]
    cases (chunk script 0).findSome? ReadEvent.failure? <;> rfl
  · rw [hc, heard_cons, hh]
    rfl
  · rw [hc] at hn
    rw [chunk_goes_succ rfl he]
    exact hnext hn i

theorem readLine_chunk (script : List ReadEvent) : TakesChunk script (readLine script).1 (readLine script).2 := by
  fun_induction readLine script with
  | case1 => exact ⟨rfl, [], rfl, rfl, fun _ i => by rw [chunk_nil, chunk_nil]⟩
  | case2 rest => exact .ends rfl rfl rfl
  | case3 f rest hf | case4 f rest hf =>
    exact .ends (e := .fault f) (by simp [ReadEvent.interrupted, hf]) (by simp [ReadEvent.endsChunk, hf])
      (by simp [ReadEvent.failure?, hf])
  | case5 f rest hf ih => exact ih.interrupted (by simp [ReadEvent.interrupted, hf])
  | case6 f rest hf | case7 f rest hf =>
    exact .fails (by simp [ReadEvent.interrupted, hf]) (by simp [ReadEvent.endsChunk, hf])
      (by simp [ReadEvent.failure?, hf])
  | case8 rest => exact .ends rfl rfl rfl
  | case9 b rest hb line left h ih =>
    rw [h] at ih
    exact ih.goes hb
  | case10 b rest hb f left h ih =>
    rw [h] at ih
    exact ih.goes hb

/-! ## Where a response ends -/

/-- After `n` of these the last `k` have `p`, `before` in front of the first counted in. -/
def Trails (p : Nat → Prop) (k before n : Nat) : Prop := k ≤ before + n ∧ ∀ i < n, n ≤ i + k → p i

section Trails

variable {p : Nat → Prop} {k before n : Nat}

/-- One that has `p` is one more of them. -/
theorem trails_succ (hp : p 0) : Trails p k before (n + 1) ↔ Trails (fun i => p (i + 1)) k (before + 1) n := by
  constructor
  · rintro ⟨hk, hall⟩
    exact ⟨by omega, fun i hi hn => hall (i + 1) (by omega) (by omega)⟩
  · rintro ⟨hk, hall⟩
    refine ⟨by omega, fun i hi hn => ?_⟩
    cases i with
    | zero => exact hp
    | succ i => exact hall i (by omega) (by omega)

/-- One that has not starts the count anew. -/
theorem trails_succ_anew (hp : ¬ p 0) : Trails p k before (n + 1) ↔ Trails (fun i => p (i + 1)) k 0 n := by
  constructor
  · rintro ⟨hk, hall⟩
    have hkn : k ≤ n := by
      by_contra hlt
      exact hp (hall 0 (by omega) (by omega))
    exact ⟨by omega, fun i hi hn => hall (i + 1) (by omega) (by omega)⟩
  · rintro ⟨hk, hall⟩
    refine ⟨by omega, fun i hi hn => ?_⟩
    cases i with
    | zero => omega
    | succ i => exact hall i (by omega) (by omega)

end Trails

variable {k blanks n : Nat} {cs : Nat → List ReadEvent}

/-- As many blank chunks as the link waits for are behind it. -/
theorem ends_zero (h : k ≤ blanks) : IsLeast {n | Ends k blanks cs n} 0 :=
  ⟨⟨by omega, fun i hi => absurd hi (Nat.not_lt_zero i)⟩, fun n _ => Nat.zero_le n⟩

theorem ends_succ_blank (hc : chunkText (cs 0) = "") :
    Ends k blanks cs (n + 1) ↔ Ends k (blanks + 1) (fun i => cs (i + 1)) n :=
  trails_succ (p := fun i => chunkText (cs i) = "") hc

/-- A chunk with a text starts the count anew. -/
theorem ends_succ_text (hc : chunkText (cs 0) ≠ "") :
    Ends k blanks cs (n + 1) ↔ Ends k 0 (fun i => cs (i + 1)) n :=
  trails_succ_anew (p := fun i => chunkText (cs i) = "") hc

/-- What the first chunk leaves of the search for the end. -/
theorem isLeast_succ {blanks' : Nat} (hb : blanks < k)
    (h : ∀ n, Ends k blanks cs (n + 1) ↔ Ends k blanks' (fun i => cs (i + 1)) n)
    (hn : IsLeast {n | Ends k blanks cs n} n) :
    ∃ m, n = m + 1 ∧ IsLeast {n | Ends k blanks' (fun i => cs (i + 1)) n} m := by
  obtain ⟨hin, hle⟩ := hn
  cases n with
  | zero =>
    have := hin.1
    omega
  | succ m =>
    refine ⟨m, rfl, (h m).mp hin, fun j hj => ?_⟩
    exact Nat.le_of_succ_le_succ (hle ((h j).mpr hj))

/-- Silence follows every script, so every response ends. -/
theorem exists_end (k blanks : Nat) (script : List ReadEvent) :
    ∃ n, IsLeast {n | Ends k blanks (chunk script) n} n := by
  classical
  have h : ∃ n, Ends k blanks (chunk script) n := by
    refine ⟨(chunks (heard script)).length + k, by omega, fun i hi hn => ?_⟩
    rw [chunk_behind (by omega)]
    simp [chunkText]
  exact ⟨Nat.find h, Nat.find_spec h, fun n hn => Nat.find_min' h hn⟩

/-! ## The response -/

theorem untilFailure_append (c d : List ReadEvent) : untilFailure (c ++ d) =
    match c.findSome? ReadEvent.failure? with
    | some _ => untilFailure c
    | none => c ++ untilFailure d := by
  induction c with
  | nil => rfl
  | cons e c ih =>
    rw [List.findSome?_cons]
    cases hf : e.failure? with
    | some f => simp [untilFailure, hf]
    | none =>
      simp only [List.cons_append, untilFailure, hf, ih]
      cases c.findSome? ReadEvent.failure? <;> simp

theorem untilFailure_of_none {c : List ReadEvent} (h : c.findSome? ReadEvent.failure? = none) : untilFailure c = c := by
  have := untilFailure_append c []
  rw [h] at this
  simpa [untilFailure] using this

/-- The lines with one more in front, unless it is blank. -/
def inFront (text : String) (lines : List String) : List String := if text = "" then lines else text :: lines

theorem answer_cons (c : List ReadEvent) (cs : List (List ReadEvent)) : answer (c :: cs) =
    match chunkBytes c with
    | .error f => .error f
    | .ok line => (answer cs).map (inFront (chomp (decode line))) := by
  unfold answer chunkBytes
  rw [List.flatten_cons, List.findSome?_append]
  cases c.findSome? ReadEvent.failure? with
  | some f => rfl
  | none =>
    simp only [Option.none_or]
    cases cs.flatten.findSome? ReadEvent.failure? with
    | some f => rfl
    | none =>
      simp only [List.map_cons, List.filter_cons, Except.map, chunkText, inFront]
      split <;> simp_all

theorem firstChunks_succ (script : List ReadEvent) (n : Nat) :
    firstChunks script (n + 1) = chunk script 0 :: (List.range n).map fun i => chunk script (i + 1) := by
  unfold firstChunks
  rw [List.range_succ_eq_map, List.map_cons, List.map_map]
  rfl

theorem firstChunks_left {left : List ReadEvent} (h : ∀ i, chunk left i = chunk script (i + 1)) (n : Nat) :
    firstChunks script (n + 1) = chunk script 0 :: firstChunks left n := by
  rw [firstChunks_succ]
  simp only [← h]
  rfl

open Link in
/-- A line that is read is in front of what is collected after it, and one chunk nearer to the end. -/
theorem collectLines_line {line : List UInt8} {left : List ReadEvent} (hlt : blanks < k)
    (hread : readLine script = (.ok line, left)) (hline : chunkText (chunk script 0) = chomp (decode line)) :
    ∃ blanks', (∀ n, Ends k blanks (chunk script) (n + 1) ↔ Ends k blanks' (fun i => chunk script (i + 1)) n) ∧
      collectLines k blanks script =
        ((collectLines k blanks' left).1.map (inFront (chomp (decode line))), (collectLines k blanks' left).2) := by
  by_cases ht : chomp (decode line) = ""
  · refine ⟨blanks + 1, fun n => ends_succ_blank (hline.trans ht), ?_⟩
    rw [collectLines_blank hlt hread ht, ht]
    rcases collectLines k (blanks + 1) left with ⟨r, rest⟩
    cases r <;> rfl
  · refine ⟨0, fun n => ends_succ_text (hline.trans_ne ht), ?_⟩
    rw [collectLines_text hlt hread ht]
    unfold inFront
    simp only [if_neg ht]

open Link in
/-- The lines collected are those of the response, and nothing behind it is taken. -/
theorem collectLines_response (hn : IsLeast {n | Ends k blanks (chunk script) n} n) :
    (collectLines k blanks script).1 = answer (firstChunks script n) ∧
      ∃ taken, script = taken ++ (collectLines k blanks script).2 ∧
        heard taken = untilFailure (firstChunks script n).flatten := by
  induction n generalizing blanks script with
  | zero =>
    have hk : k ≤ blanks := hn.1.1
    rw [collectLines_done hk]
    exact ⟨rfl, [], rfl, rfl⟩
  | succ m ih =>
    have hlt : blanks < k := by
      by_contra h
      have := hn.2 (ends_zero (Nat.le_of_not_lt h)).1
      omega
    obtain ⟨hline, taken, hs, hh, hnext⟩ := readLine_chunk script
    rcases hread : readLine script with ⟨line, left⟩
    rw [hread] at hline hs hnext
    simp only at hline hs hnext
    rw [hline] at hread
    cases hf : (chunk script 0).findSome? ReadEvent.failure? with
    | some f =>
      have hbytes : chunkBytes (chunk script 0) = .error f := by simp only [chunkBytes, hf]
      rw [hbytes] at hread
      rw [collectLines_fault hlt hread, firstChunks_succ, answer_cons, hbytes, List.flatten_cons, untilFailure_append, hf]
      exact ⟨rfl, taken, hs, hh⟩
    | none =>
      have hbytes : chunkBytes (chunk script 0) = .ok ((chunk script 0).filterMap ReadEvent.byte?) := by
        simp only [chunkBytes, hf]
      rw [hbytes] at hread
      have hleft := hnext hf
      obtain ⟨blanks', hends, hcollect⟩ := collectLines_line hlt hread rfl
      obtain ⟨m', hm, hleast⟩ := isLeast_succ hlt hends hn
      cases hm
      rw [← funext hleft] at hleast
      obtain ⟨hans, more, hsplit, hmore⟩ := ih hleast
      rw [hcollect, hans, firstChunks_left hleft, answer_cons, hbytes, List.flatten_cons, untilFailure_append, hf]
      refine ⟨rfl, taken ++ more, ?_, ?_⟩
      · rw [List.append_assoc, ← hsplit, ← hs]
      · rw [heard, List.filter_append, ← heard, ← heard, hh, hmore, untilFailure_of_none hf]

/-! ## Commands in turn -/

namespace Link

variable {K : Type} {s : Session K}

/-- The session after these commands, whatever each of them was answered. -/
def after (commands : List String) (s : Session K) : Session K :=
  commands.foldl (fun s text => ((command text : BenchM K (List String)) s).2) s

theorem onFault_fst (r : Except Fault (List String) × List ReadEvent) :
    (onFault (K := K) r).1 = r.1.mapError .io := by
  rcases r with ⟨r, left⟩
  cases r <;> rfl

/-- One command is answered by one response. -/
theorem command_response (h : s.port.Sound) (text : String) :
    ∃ n taken, IsLeast {n | Ends s.settings.allowedEmptyReads 0 (chunk s.port.incoming) n} n ∧
      ((command text : BenchM K (List String)) s).1 = (answer (firstChunks s.port.incoming n)).mapError .io ∧
      s.port.incoming = taken ++ ((command text : BenchM K (List String)) s).2.port.incoming ∧
      heard taken = untilFailure (firstChunks s.port.incoming n).flatten := by
  obtain ⟨t, hrun, ht⟩ := command_sound text h
  obtain ⟨n, hn⟩ := exists_end s.settings.allowedEmptyReads 0 s.port.incoming
  obtain ⟨hans, taken, hsplit, htaken⟩ := collectLines_response hn
  refine ⟨n, taken, hn, ?_, ?_, htaken⟩
  · rw [hrun, onFault_fst, hans]
  · rw [hrun, ht.incoming]
    exact hsplit

/-- Commands in turn take consecutive parts of the script. -/
theorem after_sound (h : s.port.Sound) (commands : List String) :
    (after commands s).port.Sound ∧ (after commands s).settings = s.settings ∧
      ∃ taken, s.port.incoming = taken ++ (after commands s).port.incoming := by
  induction commands generalizing s with
  | nil => exact ⟨h, rfl, [], rfl⟩
  | cons text commands ih =>
    obtain ⟨t, hrun, ht⟩ := command_sound text h
    obtain ⟨-, taken, -, -, hsplit, -⟩ := command_response h text
    have hafter : after (text :: commands) s = after commands t := by
      rw [after, List.foldl_cons, hrun]
      rfl
    obtain ⟨hsound, hsettings, more, hmore⟩ := ih ht.sound
    rw [hafter]
    refine ⟨hsound, hsettings.trans ht.settings, taken ++ more, ?_⟩
    rw [List.append_assoc, ← hmore, hsplit, hrun]

/-- After any commands the next one is answered by the response that begins where they stopped reading:
by its lines that are not blank, or by the first read in it that fails. It takes the response as far as
that, and nothing behind it. -/
theorem commands_framed (h : s.port.Sound) (earlier : List String) (text : String) :
    let t := after earlier s
    let next := (command text : BenchM K (List String)) t
    ∃ n before taken, IsLeast {n | Ends s.settings.allowedEmptyReads 0 (chunk t.port.incoming) n} n ∧
      next.1 = (answer (firstChunks t.port.incoming n)).mapError .io ∧
      s.port.incoming = before ++ t.port.incoming ∧ t.port.incoming = taken ++ next.2.port.incoming ∧
      heard taken = untilFailure (firstChunks t.port.incoming n).flatten := by
  intro t next
  obtain ⟨hsound, hsettings, before, hbefore⟩ := after_sound h earlier
  obtain ⟨n, taken, hn, hanswer, hsplit, htaken⟩ := command_response hsound text
  rw [hsettings] at hn
  exact ⟨n, before, taken, hn, hanswer, hbefore, hsplit, htaken⟩

/-- Silence, a line with an interrupted read in it, a time-out, and one more byte. -/
def halting : Session Float :=
  ⟨.ofScript [.empty, .byte 111, .fault ⟨.interrupted, "again"⟩, .byte 107, .byte 13, .byte newline,
    .fault ⟨.timedOut, "late"⟩, .byte 33], ⟨0, 0, false, 1⟩, []⟩

/-- The silence answers the first command, the line the second, which takes it with its time-out and no more. -/
theorem commands_framed_halting : halting.port.Sound ∧
    ((command "second" : BenchM Float (List String)) (after ["first"] halting)).1 = .ok ["ok"] ∧
    ∃ taken, (after ["first"] halting).port.incoming =
        taken ++ ((command "second" : BenchM Float (List String)) (after ["first"] halting)).2.port.incoming ∧
      heard taken = [.byte 111, .byte 107, .byte 13, .byte newline, .fault ⟨.timedOut, "late"⟩] := by
  have hsound : halting.port.Sound := Port.ofScript_sound _
  obtain ⟨n, before, taken, hn, hanswer, -, hsplit, htaken⟩ := commands_framed hsound ["first"] "second"
  have hscript : (after ["first"] halting).port.incoming = halting.port.incoming.tail := by cbv
  have hends : IsLeast {n | Ends halting.settings.allowedEmptyReads 0 (chunk (after ["first"] halting).port.incoming) n} 2 := by
    rw [hscript]
    have htext : chunkText (chunk halting.port.incoming.tail 0) = "ok" := by cbv
    refine ⟨⟨by decide, fun i hi h => ?_⟩, fun m hm => ?_⟩
    · obtain rfl : i = 1 := by
        have : 2 ≤ i + 1 := h
        omega
      cbv
    · by_contra hlt
      have h1 : 1 ≤ 0 + m := hm.1
      obtain rfl : m = 1 := by omega
      have hblank := hm.2 0 (by omega) (by decide)
      rw [htext] at hblank
      exact absurd hblank (by decide)
  obtain rfl := hn.unique hends
  rw [hscript] at hanswer htaken
  exact ⟨hsound, by rw [hanswer]; cbv, taken, hsplit, by rw [htaken]; cbv⟩

end Link

end MagneticBearing.Bench
