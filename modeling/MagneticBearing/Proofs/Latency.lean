/-
  MagneticBearing.Proofs.Latency — what a response owes to the moments at which its bytes come.

  Between bytes the port may pause: reads that bring nothing in time. A pause ends the line that is being
  read, so what the link works on are pieces: the bytes between two pauses, cut behind each newline.

  - `answerTo_pieces`, `samplesOf_pieces`: as long as it does not lose patience, the link answers by the pieces.
  - `pieces_lines`: the pieces are the lines that were sent if no pause falls inside a line.
  - `unbroken_lines_answered`: then pauses do not show in the answer; where one tears a line, they do.
  - `a_pause_tears_a_line`: a number answered as two.
-/

import MagneticBearing.Proofs.Framing
import MagneticBearing.Scalar.Running

namespace MagneticBearing.Bench

open MagneticBearing.Text

/-! ## Pauses -/

/-- Nothing but bytes and pauses. -/
def OnlyPauses (script : List ReadEvent) : Prop := ∀ e ∈ script, e.byte? = none → e.endsChunk = true

/-- Fewer than `k` pauses in a row before each byte, `run` of them before the script counted in. -/
def Patient (k : Nat) : Nat → List ReadEvent → Prop
  | _, [] => True
  | run, .byte _ :: rest => run < k ∧ Patient k 0 rest
  | run, _ :: rest => Patient k (run + 1) rest

/-- No pause inside a line; `inside` if one is begun. -/
def Unbroken : Bool → List ReadEvent → Prop
  | _, [] => True
  | _, .byte b :: rest => Unbroken (b != newline) rest
  | inside, _ :: rest => inside = false ∧ Unbroken false rest

instance (script : List ReadEvent) : Decidable (OnlyPauses script) :=
  inferInstanceAs (Decidable (∀ e ∈ script, e.byte? = none → e.endsChunk = true))

instance decidablePatient (k : Nat) : ∀ run script, Decidable (Patient k run script)
  | _, [] => .isTrue trivial
  | run, .byte _ :: rest =>
    have := decidablePatient k 0 rest
    inferInstanceAs (Decidable (run < k ∧ Patient k 0 rest))
  | run, .empty :: rest => decidablePatient k (run + 1) rest
  | run, .fault _ :: rest => decidablePatient k (run + 1) rest

instance decidableUnbroken : ∀ inside script, Decidable (Unbroken inside script)
  | _, [] => .isTrue trivial
  | _, .byte b :: rest => decidableUnbroken (b != newline) rest
  | inside, .empty :: rest =>
    have := decidableUnbroken false rest
    inferInstanceAs (Decidable (inside = false ∧ Unbroken false rest))
  | inside, .fault _ :: rest =>
    have := decidableUnbroken false rest
    inferInstanceAs (Decidable (inside = false ∧ Unbroken false rest))

/-- These bytes come, with pauses of less than `k` reads before the last one. -/
structure Delivers (k : Nat) (bytes : List UInt8) (script : List ReadEvent) : Prop where
  brought : script.filterMap ReadEvent.byte? = bytes
  pauses : OnlyPauses script
  patient : Patient k 0 script

def ended (part : List UInt8) : List (List UInt8) := if part = [] then [] else [part]

/-- What comes without a pause in it, cut behind each newline; `part` of the first piece is there already. -/
def pieces : List UInt8 → List ReadEvent → List (List UInt8)
  | part, [] => ended part
  | part, .byte b :: rest => if b = newline then (part ++ [b]) :: pieces [] rest else pieces (part ++ [b]) rest
  | part, _ :: rest => ended part ++ pieces [] rest

def lineText (line : List UInt8) : String := chomp (decode line)

/-- A line as the board prints it: one newline, at its end, and not blank. -/
structure Printed (line : List UInt8) : Prop where
  ends : ∃ body, newline ∉ body ∧ line = body ++ [newline]
  text : lineText line ≠ ""

@[simp] theorem ended_nil : ended [] = [] := rfl

theorem ended_of_ne {part : List UInt8} (h : part ≠ []) : ended part = [part] := if_neg h

variable {script rest : List ReadEvent} {e : ReadEvent} {part : List UInt8} {k run : Nat}

theorem OnlyPauses.tail (h : OnlyPauses (e :: rest)) : OnlyPauses rest :=
  fun d hd => h d (List.mem_cons_of_mem e hd)

/-- A read that brings nothing in time ends a line with nothing. -/
theorem readLine_pause (hbyte : e.byte? = none) (hends : e.endsChunk = true) : readLine (e :: rest) = (.ok [], rest) := by
  cases e with
  | byte b => cases hbyte
  | empty => rfl
  | fault f =>
    simp only [ReadEvent.endsChunk, Bool.or_eq_true, beq_iff_eq] at hends
    rcases hends with hf | hf <;> simp [readLine, hf]

/-- The first event of such a script is a byte or ends a line with nothing. -/
theorem OnlyPauses.head (h : OnlyPauses (e :: rest)) :
    (∃ b, e = .byte b) ∨ (e.byte? = none ∧ readLine (e :: rest) = (.ok [], rest)) := by
  have he := h e List.mem_cons_self
  cases e with
  | byte b => exact .inl ⟨b, rfl⟩
  | empty | fault f => exact .inr ⟨rfl, readLine_pause rfl (he rfl)⟩

theorem patient_pause (h : e.byte? = none) : Patient k run (e :: rest) = Patient k (run + 1) rest := by
  cases e with
  | byte b => cases h
  | empty | fault f => rfl

theorem pieces_pause (h : e.byte? = none) : pieces part (e :: rest) = ended part ++ pieces [] rest := by
  cases e with
  | byte b => cases h
  | empty | fault f => rfl

theorem unbroken_pause {inside : Bool} (h : e.byte? = none) :
    Unbroken inside (e :: rest) = (inside = false ∧ Unbroken false rest) := by
  cases e with
  | byte b => cases h
  | empty | fault f => rfl

/-- Once patience is used up no byte comes any more. -/
theorem pieces_silent (hp : OnlyPauses script) (h : Patient k run script) (hk : k ≤ run) : pieces [] script = [] := by
  induction script generalizing run with
  | nil => rfl
  | cons e rest ih =>
    rcases hp.head with ⟨b, rfl⟩ | ⟨he, -⟩
    · have : run < k := h.1
      omega
    · rw [patient_pause he] at h
      rw [pieces_pause he]
      exact ih hp.tail h (by omega)

/-! ## One line -/

/-- Reading a line takes one piece, or one pause. -/
structure TakesPiece (script : List ReadEvent) (line : List UInt8) (left : List ReadEvent) : Prop where
  read : readLine script = (.ok line, left)
  piece : ∀ part, pieces part script = ended (part ++ line) ++ pieces [] left
  pauses : OnlyPauses left
  patient : ∀ {k run}, Patient k run script → ∃ run', (line = [] → run' = run + 1) ∧ Patient k run' left

theorem readLine_piece (hp : OnlyPauses script) : ∃ line left, TakesPiece script line left := by
  induction script with
  | nil => exact ⟨[], [], rfl, fun part => by simp [pieces], hp, fun _ => ⟨_, fun _ => rfl, trivial⟩⟩
  | cons e rest ih =>
    rcases hp.head with ⟨b, rfl⟩ | ⟨he, hread⟩
    · by_cases hb : b = newline
      · refine ⟨[b], rest, by simp [readLine, hb], fun part => ?_, hp.tail, fun h => ⟨0, by simp, h.2⟩⟩
        simp [pieces, hb, ended]
      · obtain ⟨line, left, hline⟩ := ih hp.tail
        refine ⟨b :: line, left, by simp [readLine, hb, hline.read], fun part => ?_, hline.pauses, fun h => ?_⟩
        · rw [pieces, if_neg hb, hline.piece]
          simp
        · obtain ⟨run', -, hleft⟩ := hline.patient h.2
          exact ⟨run', by simp, hleft⟩
    · refine ⟨[], rest, hread, fun part => by rw [pieces_pause he, List.append_nil], hp.tail, fun h => ?_⟩
      rw [patient_pause he] at h
      exact ⟨_, fun _ => rfl, h⟩

section Piece

variable {line : List UInt8} {left : List ReadEvent}

theorem TakesPiece.of_read {r : Except Fault (List UInt8)} (hp : OnlyPauses script) (hread : readLine script = (r, left)) :
    ∃ line, r = .ok line ∧ TakesPiece script line left := by
  obtain ⟨line, left', hline⟩ := readLine_piece hp
  rw [hline.read] at hread
  cases hread
  exact ⟨line, rfl, hline⟩

/-- A read that brings nothing is one more pause. -/
theorem TakesPiece.nothing (h : TakesPiece script [] left) (hpatient : Patient k run script) :
    Patient k (run + 1) left := by
  obtain ⟨run', hrun, hleft⟩ := h.patient hpatient
  rwa [hrun rfl] at hleft

theorem TakesPiece.pieces_nothing (h : TakesPiece script [] left) : pieces [] script = pieces [] left := h.piece []

/-- Anything else that is read is the next piece. -/
theorem TakesPiece.pieces_line (h : TakesPiece script line left) (hne : line ≠ []) :
    pieces [] script = line :: pieces [] left := by
  rw [h.piece, List.nil_append, ended_of_ne hne]
  rfl

end Piece

namespace Link

variable {K : Type}

/-! ## Answers to a command -/

def answerTo (text : String) (s : Session K) : Except (LinkError K) (List String) :=
  ((command text : BenchM K (List String)) s).1

theorem answerTo_sound {s : Session K} (h : s.port.Sound) (text : String) :
    answerTo text s = (collectLines s.settings.allowedEmptyReads 0 s.port.incoming).1.mapError .io := by
  obtain ⟨t, hrun, -⟩ := command_sound text h
  rw [answerTo, hrun, onFault_fst]

theorem lineText_nil : lineText [] = "" := by
  simp [lineText]

/-- The lines collected are the pieces, as long as no piece is blank. -/
theorem collectLines_pieces {blanks : Nat} (hp : OnlyPauses script) (h : Patient k run script) (hrun : blanks ≤ run)
    (htext : ∀ piece ∈ pieces [] script, lineText piece ≠ "") :
    (collectLines k blanks script).1 = .ok ((pieces [] script).map lineText) := by
  fun_induction collectLines k blanks script generalizing run with
  | case1 blanks script hk f left hread =>
    obtain ⟨line, hline, -⟩ := TakesPiece.of_read hp hread
    cases hline
  | case2 blanks script hk line left hread text hblank =>
    rename_i ih
    obtain ⟨_, hline, htakes⟩ := TakesPiece.of_read hp hread
    cases hline
    have hnil : line = [] := by
      by_contra hne
      rw [htakes.pieces_line hne] at htext
      exact htext line List.mem_cons_self hblank
    subst hnil
    rw [htakes.pieces_nothing] at htext ⊢
    exact ih htakes.pauses (htakes.nothing h) (by omega) htext
  | case3 blanks script hk line left hread text hne more rest hmore
  | case4 blanks script hk line left hread text hne more rest hmore =>
    rename_i ih
    obtain ⟨_, hline, htakes⟩ := TakesPiece.of_read hp hread
    cases hline
    have hnil : line ≠ [] := by
      rintro rfl
      exact hne lineText_nil
    obtain ⟨run', -, hleft⟩ := htakes.patient h
    rw [htakes.pieces_line hnil] at htext ⊢
    have hrest := ih htakes.pauses hleft (Nat.zero_le _) fun piece hpiece => htext piece (List.mem_cons_of_mem _ hpiece)
    rw [hmore] at hrest
    cases hrest <;> rfl
  | case5 blanks script hk =>
    rw [pieces_silent hp h (by omega)]
    rfl

/-- A patient link answers a command by the pieces, as long as no piece is blank. -/
theorem answerTo_pieces {s : Session K} (h : s.port.Sound) (text : String) (hp : OnlyPauses s.port.incoming)
    (hpatient : Patient s.settings.allowedEmptyReads 0 s.port.incoming)
    (htext : ∀ piece ∈ pieces [] s.port.incoming, lineText piece ≠ "") :
    answerTo text s = .ok ((pieces [] s.port.incoming).map lineText) := by
  rw [answerTo_sound h, collectLines_pieces hp hpatient (Nat.le_refl 0) htext]
  rfl

/-! ## Dumps -/

/-- The row that closes a dump. -/
def closes (row : List UInt8) : Bool := holds endMarker (decode row).toList

section Samples

variable [Scalar K]

def samplesOf (index : Nat) (s : Session K) : Except (LinkError K) (List (K × K)) :=
  ((logDump index : BenchM K (List (K × K))) s).1

theorem samplesOf_sound {s : Session K} (h : s.port.Sound) (index : Nat) :
    samplesOf index s = (dumpSamples index s.port.incoming).1 := by
  obtain ⟨t, hrun, -⟩ := logDump_sound index h
  rw [samplesOf, hrun]

/-- The samples in the rows before the first that closes the dump. -/
def dumped (index : Nat) (rows : List (List UInt8)) : Except (LinkError K) (List (K × K)) :=
  if rows.any closes then .ok ((rows.takeWhile (!closes ·)).filterMap fun row => sample? (decode row))
  else .error (.logIncomplete index)

theorem dumped_cons (index : Nat) (row : List UInt8) (rows : List (List UInt8)) :
    dumped (K := K) index (row :: rows) =
      if closes row then .ok [] else (dumped index rows).map ((sample? (decode row)).toList ++ ·) := by
  unfold dumped
  cases hrow : closes row with
  | true => simp [hrow]
  | false =>
    simp only [List.any_cons, hrow, Bool.false_or, List.takeWhile_cons, Bool.not_false, if_true, List.filterMap_cons]
    cases rows.any closes with
    | false => rfl
    | true => cases sample? (K := K) (decode row) <;> rfl

/-- The samples collected are those of the pieces, torn or not. -/
theorem collectSamples_pieces {index blanks : Nat} (hp : OnlyPauses script) (h : Patient dumpPatience run script)
    (hrun : blanks ≤ run) :
    (collectSamples (K := K) index blanks script).1 = dumped index (pieces [] script) ∧
      OnlyPauses (collectSamples (K := K) index blanks script).2 := by
  fun_induction collectSamples (K := K) index blanks script generalizing run with
  | case1 blanks script f left hread =>
    obtain ⟨line, hline, -⟩ := TakesPiece.of_read hp hread
    cases hline
  | case2 blanks script left hread hk ih =>
    obtain ⟨_, hline, htakes⟩ := TakesPiece.of_read hp hread
    cases hline
    rw [htakes.pieces_nothing]
    exact ih htakes.pauses (htakes.nothing h) (by omega)
  | case3 blanks script left hread hk =>
    obtain ⟨_, hline, htakes⟩ := TakesPiece.of_read hp hread
    cases hline
    rw [htakes.pieces_nothing, pieces_silent htakes.pauses (htakes.nothing h) (by omega)]
    exact ⟨rfl, htakes.pauses⟩
  | case4 blanks script b line left hread text =>
    rename_i hmarker
    obtain ⟨_, hline, htakes⟩ := TakesPiece.of_read hp hread
    cases hline
    rw [htakes.pieces_line (List.cons_ne_nil b line), dumped_cons]
    exact ⟨(if_pos hmarker).symm, htakes.pauses⟩
  | case5 blanks script b line left hread text hmarker more rest hmore
  | case6 blanks script b line left hread text hmarker more rest hmore =>
    rename_i ih
    obtain ⟨_, hline, htakes⟩ := TakesPiece.of_read hp hread
    cases hline
    obtain ⟨run', -, hleft⟩ := htakes.patient h
    obtain ⟨hrest, hpauses⟩ := ih htakes.pauses hleft (Nat.zero_le _)
    rw [hmore] at hrest hpauses
    have hrow : ¬ closes (b :: line) = true := hmarker
    rw [htakes.pieces_line (List.cons_ne_nil b line), dumped_cons, if_neg hrow, ← hrest]
    exact ⟨rfl, hpauses⟩

/-- What trails the marker is dropped without a fault. -/
theorem drain_pauses (hp : OnlyPauses script) : (drain script).1 = .ok () := by
  fun_induction drain script with
  | case1 script f left hread =>
    obtain ⟨line, hline, -⟩ := TakesPiece.of_read hp hread
    cases hline
  | case2 script left hread => rfl
  | case3 script b line left hread ih =>
    obtain ⟨_, hline, htakes⟩ := TakesPiece.of_read hp hread
    exact ih htakes.pauses

theorem dumpSamples_pieces {index : Nat} (hp : OnlyPauses script) (h : Patient dumpPatience 0 script) :
    (dumpSamples (K := K) index script).1 = dumped index (pieces [] script) := by
  obtain ⟨hsamples, hleft⟩ : (collectSamples (K := K) index 0 script).1 = dumped index (pieces [] script) ∧
      OnlyPauses (collectSamples (K := K) index 0 script).2 := collectSamples_pieces hp h (Nat.le_refl 0)
  rw [← hsamples]
  unfold dumpSamples
  rcases hcollect : collectSamples (K := K) index 0 script with ⟨_ | samples, left⟩
  · rfl
  · rw [hcollect] at hleft
    have hdrain := drain_pauses hleft
    rcases hread : drain left with ⟨_ | _, left'⟩
    · rw [hread] at hdrain
      cases hdrain
    · simp only [hread]

/-- A patient link answers a dump by the pieces, whatever they are. -/
theorem samplesOf_pieces {s : Session K} (h : s.port.Sound) (index : Nat) (hp : OnlyPauses s.port.incoming)
    (hpatient : Patient dumpPatience 0 s.port.incoming) : samplesOf index s = dumped index (pieces [] s.port.incoming) := by
  rw [samplesOf_sound h]
  exact dumpSamples_pieces hp hpatient

end Samples

end Link

/-! ## Lines -/

theorem Printed.newline_mem {line : List UInt8} (h : Printed line) : newline ∈ line := by
  obtain ⟨body, -, rfl⟩ := h.ends
  simp

/-- As many newlines as lines. -/
theorem count_newline {lines : List (List UInt8)} (h : ∀ line ∈ lines, Printed line) :
    lines.flatten.count newline = lines.length := by
  induction lines with
  | nil => rfl
  | cons line lines ih =>
    obtain ⟨body, hbody, hline⟩ := (h line List.mem_cons_self).ends
    rw [List.flatten_cons, List.count_append, ih fun l hl => h l (List.mem_cons_of_mem _ hl), hline, List.count_append,
      List.count_eq_zero_of_not_mem hbody, List.length_cons, List.count_singleton_self]
    omega

theorem newline_mem_flatten {line : List UInt8} {lines : List (List UInt8)} (h : ∀ l ∈ line :: lines, Printed l) :
    newline ∈ (line :: lines).flatten :=
  List.mem_append_left _ (h line List.mem_cons_self).newline_mem

/-- A line is cut behind its first newline. -/
theorem flatten_newline {more : List UInt8} {lines : List (List UInt8)} (h : ∀ line ∈ lines, Printed line)
    (hpart : newline ∉ part) (hbytes : part ++ newline :: more = lines.flatten) :
    ∃ rest, lines = (part ++ [newline]) :: rest ∧ more = rest.flatten := by
  cases lines with
  | nil => simp at hbytes
  | cons line rest =>
    obtain ⟨body, hbody, rfl⟩ := (h line List.mem_cons_self).ends
    rw [List.flatten_cons, List.append_assoc, List.singleton_append] at hbytes
    rcases List.append_eq_append_iff.mp hbytes with ⟨as, rfl, has⟩ | ⟨as, rfl, has⟩
    · cases as with
      | nil => exact ⟨rest, by simp, by simpa using has⟩
      | cons a as =>
        simp only [List.cons_append, List.cons.injEq] at has
        simp [← has.1] at hbody
    · cases as with
      | nil => exact ⟨rest, by simp, by simpa using has.symm⟩
      | cons a as =>
        simp only [List.cons_append, List.cons.injEq] at has
        simp [← has.1] at hpart

theorem isEmpty_concat (part : List UInt8) (b : UInt8) : (part ++ [b]).isEmpty = false := by
  cases part <;> rfl

/-- Without a pause in a line the pieces are the lines, of which `part` is there already. -/
theorem pieces_lines {lines : List (List UInt8)} (hp : OnlyPauses script)
    (h : ∀ line ∈ lines, Printed line) (hpart : newline ∉ part)
    (hbytes : part ++ script.filterMap ReadEvent.byte? = lines.flatten) (hu : Unbroken (!part.isEmpty) script) :
    pieces part script = lines := by
  induction script generalizing part lines with
  | nil =>
    simp only [List.filterMap_nil, List.append_nil] at hbytes
    cases lines with
    | nil =>
      rw [hbytes]
      rfl
    | cons line lines => exact absurd (hbytes ▸ newline_mem_flatten h) hpart
  | cons e rest ih =>
    rcases hp.head with ⟨b, rfl⟩ | ⟨he, -⟩
    · by_cases hb : b = newline
      · subst hb
        obtain ⟨lines, rfl, hmore⟩ := flatten_newline h hpart hbytes
        rw [pieces, if_pos rfl]
        exact congrArg _ (ih hp.tail (fun l hl => h l (List.mem_cons_of_mem _ hl)) List.not_mem_nil hmore hu)
      · rw [pieces, if_neg hb]
        have hu' : Unbroken true rest := by rwa [Unbroken, bne_iff_ne.mpr hb] at hu
        refine ih hp.tail h ?_ ?_ (by rwa [isEmpty_concat])
        · simp [hpart, Ne.symm hb]
        · rw [← hbytes, List.append_assoc]
          rfl
    · rw [unbroken_pause he] at hu
      obtain ⟨hi, hu⟩ := hu
      obtain rfl : part = [] := by simpa using hi
      rw [pieces_pause he]
      refine ih hp.tail h hpart ?_ hu
      rw [← hbytes, List.filterMap_cons, he]

/-- There are no fewer pieces than lines, and as many only if no pause falls inside a line. -/
theorem length_pieces (part : List UInt8) (hp : OnlyPauses script) :
    (script.filterMap ReadEvent.byte?).count newline ≤ (pieces part script).length ∧
      ((pieces part script).length = (script.filterMap ReadEvent.byte?).count newline →
        Unbroken (!part.isEmpty) script) := by
  induction script generalizing part with
  | nil => exact ⟨Nat.zero_le _, fun _ => trivial⟩
  | cons e rest ih =>
    rcases hp.head with ⟨b, rfl⟩ | ⟨he, -⟩
    · by_cases hb : b = newline
      · subst hb
        obtain ⟨hle, heq⟩ := ih [] hp.tail
        simp only [pieces, if_true, List.length_cons, List.filterMap_cons, ReadEvent.byte?, List.count_cons_self]
        exact ⟨by omega, fun hlen => heq (by omega)⟩
      · obtain ⟨hle, heq⟩ := ih (part ++ [b]) hp.tail
        simp only [pieces, if_neg hb, List.filterMap_cons, ReadEvent.byte?, List.count_cons_of_ne hb]
        refine ⟨hle, fun hlen => ?_⟩
        rw [Unbroken, bne_iff_ne.mpr hb]
        have := heq hlen
        rwa [isEmpty_concat] at this
    · obtain ⟨hle, heq⟩ := ih [] hp.tail
      rw [pieces_pause he, unbroken_pause he, List.filterMap_cons, he, List.length_append]
      refine ⟨by simp only; omega, fun hlen => ?_⟩
      by_cases hpart : part = []
      · rw [hpart] at hlen ⊢
        exact ⟨rfl, heq (by simpa using hlen)⟩
      · rw [ended_of_ne hpart] at hlen
        simp only [List.length_singleton] at hlen
        omega

namespace Link

variable {K : Type}

variable {s t : Session K} {lines : List (List UInt8)}

theorem pieces_of_unbroken (hlines : ∀ line ∈ lines, Printed line) (h : Delivers k lines.flatten script)
    (hu : Unbroken false script) : pieces [] script = lines :=
  pieces_lines h.pauses hlines List.not_mem_nil h.brought hu

theorem unbroken_of_length (hlines : ∀ line ∈ lines, Printed line) (h : Delivers k lines.flatten script)
    (hlen : (pieces [] script).length = lines.length) : Unbroken false script := by
  refine (length_pieces [] h.pauses).2 ?_
  rw [hlen, h.brought, count_newline hlines]

theorem answerTo_lines (hs : s.port.Sound) (hlines : ∀ line ∈ lines, Printed line) (text : String)
    (h : Delivers s.settings.allowedEmptyReads lines.flatten s.port.incoming) (hu : Unbroken false s.port.incoming) :
    answerTo text s = .ok (lines.map lineText) := by
  have hpieces := pieces_of_unbroken hlines h hu
  rw [answerTo_pieces hs text h.pauses h.patient, hpieces]
  rw [hpieces]
  exact fun line hline => (hlines line hline).text

theorem samplesOf_lines [Scalar K] (hs : s.port.Sound) (hlines : ∀ line ∈ lines, Printed line) (index : Nat)
    (h : Delivers dumpPatience lines.flatten s.port.incoming) (hu : Unbroken false s.port.incoming) :
    samplesOf index s = dumped index lines := by
  rw [samplesOf_pieces hs index h.pauses h.patient, pieces_of_unbroken hlines h hu]

/-- As long as the link is patient, no pause between lines shows in what it answers. A pause inside a line
does: the line is answered in pieces. -/
theorem unbroken_lines_answered [Scalar K] (hs : s.port.Sound) (ht : t.port.Sound)
    (hk : t.settings.allowedEmptyReads = s.settings.allowedEmptyReads) (hlines : ∀ line ∈ lines, Printed line)
    (text : String) (index : Nat) :
    (Delivers s.settings.allowedEmptyReads lines.flatten s.port.incoming →
      (Unbroken false s.port.incoming → answerTo text s = .ok (lines.map lineText) ∧
        (Delivers s.settings.allowedEmptyReads lines.flatten t.port.incoming → Unbroken false t.port.incoming →
          answerTo text t = answerTo text s)) ∧
      ((∀ piece ∈ pieces [] s.port.incoming, lineText piece ≠ "") →
        answerTo text s = .ok ((pieces [] s.port.incoming).map lineText) ∧
          (answerTo text s = .ok (lines.map lineText) ↔ Unbroken false s.port.incoming))) ∧
    (Delivers dumpPatience lines.flatten s.port.incoming →
      (Unbroken false s.port.incoming → samplesOf index s = dumped index lines ∧
        (Delivers dumpPatience lines.flatten t.port.incoming → Unbroken false t.port.incoming →
          samplesOf index t = samplesOf index s)) ∧
      samplesOf index s = dumped index (pieces [] s.port.incoming)) := by
  refine ⟨fun h => ⟨fun hu => ?_, fun htext => ?_⟩, fun h => ⟨fun hu => ?_, ?_⟩⟩
  · have hans := answerTo_lines hs hlines text h hu
    refine ⟨hans, fun h' hu' => ?_⟩
    rw [hans]
    exact answerTo_lines ht hlines text (hk ▸ h') hu'
  · have hans := answerTo_pieces hs text h.pauses h.patient htext
    refine ⟨hans, fun hsent => ?_, answerTo_lines hs hlines text h⟩
    refine unbroken_of_length hlines h ?_
    have hmap := Except.ok.inj (hans.symm.trans hsent)
    simpa using congrArg List.length hmap
  · have hans := samplesOf_lines hs hlines index h hu
    refine ⟨hans, fun h' hu' => ?_⟩
    rw [hans]
    exact samplesOf_lines ht hlines index h' hu'
  · exact samplesOf_pieces hs index h.pauses h.patient

/-! ## A dump -/

/-- A link that waits for three blank lines, over a port that brings this. -/
def bringing (script : List ReadEvent) : Session Float := ⟨.ofScript script, ⟨0, 0, false, 3⟩, []⟩

theorem bringing_sound (script : List ReadEvent) : (bringing script).port.Sound := Port.ofScript_sound script

def bytes (text : String) : List ReadEvent := (encode text).map .byte

def late : ReadEvent := .fault ⟨.timedOut, "late"⟩

def dump : List (List UInt8) := [encode "> 100 2.5\r\n", encode "-------END-------\r\n"]

theorem dump_printed : ∀ line ∈ dump, Printed line := by
  have htext : dump.map lineText = ["> 100 2.5", "-------END-------"] := by cbv
  simp only [dump, List.map_cons, List.map_nil, List.cons.injEq, and_true] at htext
  simp only [dump, List.forall_mem_cons, List.not_mem_nil, false_implies, implies_true, and_true]
  refine ⟨⟨⟨encode "> 100 2.5\r", by decide +kernel, by decide +kernel⟩, ?_⟩,
    ⟨⟨encode "-------END-------\r", by decide +kernel, by decide +kernel⟩, ?_⟩⟩
  · rw [htext.1]
    decide
  · rw [htext.2]
    decide

/-- Two reads that bring nothing before the rows of a dump, and one between them, do not show. -/
theorem unbroken_lines_answered_dump :
    let still := bringing (bytes "> 100 2.5\r\n-------END-------\r\n")
    let slow := bringing (.empty :: late :: bytes "> 100 2.5\r\n" ++ late :: bytes "-------END-------\r\n")
    answerTo "" still = .ok ["> 100 2.5", "-------END-------"] ∧ answerTo "" slow = answerTo "" still ∧
      samplesOf 0 slow = samplesOf 0 still := by
  intro still slow
  obtain ⟨hcommand, hdump⟩ := unbroken_lines_answered (bringing_sound _) (bringing_sound _) rfl dump_printed "" 0
    (s := still) (t := slow)
  obtain ⟨hlines, hslow⟩ := (hcommand ⟨by decide +kernel, by decide +kernel, by decide +kernel⟩).1 (by decide +kernel)
  obtain ⟨-, hsamples⟩ := (hdump ⟨by decide +kernel, by decide +kernel, by decide +kernel⟩).1 (by decide +kernel)
  refine ⟨?_, hslow ⟨by decide +kernel, by decide +kernel, by decide +kernel⟩ (by decide +kernel),
    hsamples ⟨by decide +kernel, by decide +kernel, by decide +kernel⟩ (by decide +kernel)⟩
  rw [hlines]
  cbv

/-- A pause inside a line shows. The first row is answered as two; a torn end marker is not found. -/
theorem a_pause_tears_a_line :
    let still := bringing (bytes "> 100 2.5\r\n-------END-------\r\n")
    let number := bringing (bytes "> 100 2" ++ late :: bytes ".5\r\n-------END-------\r\n")
    let marker := bringing (bytes "> 100 2.5\r\n-------E" ++ late :: bytes "ND-------\r\n")
    (∀ line ∈ dump, Printed line) ∧ Delivers 3 dump.flatten still.port.incoming ∧
      Delivers 3 dump.flatten number.port.incoming ∧ Delivers 3 dump.flatten marker.port.incoming ∧
      answerTo "" still = .ok ["> 100 2.5", "-------END-------"] ∧
      answerTo "" number = .ok ["> 100 2", ".5", "-------END-------"] ∧
      (samplesOf 0 still).isOk = true ∧ samplesOf 0 marker = .error (.logIncomplete 0) := by
  intro still number marker
  refine ⟨dump_printed, ⟨by decide +kernel, by decide +kernel, by decide +kernel⟩,
    ⟨by decide +kernel, by decide +kernel, by decide +kernel⟩, ⟨by decide +kernel, by decide +kernel, by decide +kernel⟩,
    ?_, ?_, ?_, ?_⟩
  · rw [answerTo_sound (bringing_sound _)]
    cbv
  · rw [answerTo_sound (bringing_sound _)]
    cbv
  · have hcloses : (pieces [] still.port.incoming).any closes = true := by cbv
    rw [samplesOf_pieces (bringing_sound _) 0 (by decide +kernel) (by decide +kernel), dumped, if_pos hcloses]
    rfl
  · rw [samplesOf_pieces (bringing_sound _) 0 (by decide +kernel) (by decide +kernel)]
    cbv

end Link

end MagneticBearing.Bench
