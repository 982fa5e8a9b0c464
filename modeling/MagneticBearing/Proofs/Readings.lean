/-
  MagneticBearing.Proofs.Readings — which lines of the board's answer the numbers of a reading are.

  A reading is one command. The first line of its response is the echo, and the numbers stand in the lines
  behind it, one in each (`StandsIn`); a line may be missing, or hold no number (`Defect`). The link drops
  blank lines and stops at a run of them, so a number would move to another place if a line that is not
  blank were dropped, or a blank one kept. Neither happens:

  1. A complete line is read whole and leaves what is behind it (`readLine_printed`).
  2. A board prints its texts with pauses and blank lines in front of each (`Brings`). While there are fewer in
     a row than end a response, the link collects all the texts, and only behind them anything else
     (`collectLines_brings`, one case for each thing that the board may bring).
  3. Interrupted reads may fall anywhere, also inside a line (`collectLines_heard`).

  - `readNumbers_decodes`: what a reading answers, by the lines of the response, and of what the board prints.
  - `readings_decoded`: the four readings of the drive.
-/

import MagneticBearing.Proofs.Exact
import MagneticBearing.Proofs.Transmission

namespace MagneticBearing.Bench

open MagneticBearing.Number (Numeral)
open MagneticBearing.Text

variable {K : Type}

/-! ## What a board prints -/

/-- Reads that bring these texts, each in a complete line. Fewer than `k` blank lines and reads without a byte are
in front of each, `run` of them before the script counted in. Anything may follow that does not fail. -/
inductive Brings (k : Nat) : Nat → List String → List ReadEvent → Prop
  | rest {run : Nat} {script : List ReadEvent} : (∀ e ∈ script, e.failure? = none) → Brings k run [] script
  | pause {run : Nat} {texts : List String} {e : ReadEvent} {script : List ReadEvent} :
      e.byte? = none → e.endsChunk = true → Brings k (run + 1) texts script → Brings k run texts (e :: script)
  | blank {run : Nat} {texts : List String} {body : List UInt8} {script : List ReadEvent} :
      newline ∉ body → lineText (body ++ [newline]) = "" → Brings k (run + 1) texts script →
      Brings k run texts ((body ++ [newline]).map .byte ++ script)
  | text {run : Nat} {text : String} {texts : List String} {body : List UInt8} {script : List ReadEvent} :
      run < k → newline ∉ body → lineText (body ++ [newline]) = text → text ≠ "" → Brings k 0 texts script →
      Brings k run (text :: texts) ((body ++ [newline]).map .byte ++ script)

variable {k run : Nat} {texts : List String} {script : List ReadEvent}

/-- Where as many blanks were as end a response, no text follows. -/
theorem Brings.spent (h : Brings k run texts script) (hk : k ≤ run) : texts = [] := by
  induction h with
  | rest _ => rfl
  | pause _ _ _ ih => exact ih (by omega)
  | blank _ _ _ ih => exact ih (by omega)
  | text hrun _ _ _ _ _ => omega

/-- A complete line is read whole, and nothing behind it. -/
theorem readLine_printed {body : List UInt8} (h : newline ∉ body) (script : List ReadEvent) :
    readLine ((body ++ [newline]).map .byte ++ script) = (.ok (body ++ [newline]), script) := by
  induction body with
  | nil => rfl
  | cons b body ih =>
    simp only [List.mem_cons, not_or] at h
    obtain ⟨hb, hbody⟩ := h
    simp only [List.cons_append, List.map_cons, readLine, if_neg (Ne.symm hb), ih hbody]

namespace Link

theorem chunk_heard (script : List ReadEvent) : chunk (heard script) = chunk script := by
  funext i
  simp [chunk, heard]

/-- An interrupted read does not show in the lines. -/
theorem collectLines_heard (k blanks : Nat) (script : List ReadEvent) :
    (collectLines k blanks (heard script)).1 = (collectLines k blanks script).1 := by
  obtain ⟨n, hn⟩ := exists_end k blanks script
  have hheard : IsLeast {n | Ends k blanks (chunk (heard script)) n} n := by rwa [chunk_heard]
  rw [(collectLines_response hn).1, (collectLines_response hheard).1, firstChunks, firstChunks, chunk_heard]

/-- Lines are collected from any reads of which none fails. -/
theorem collectLines_unfailing (k blanks : Nat) (h : ∀ e ∈ script, e.failure? = none) :
    ∃ lines, (collectLines k blanks script).1 = .ok lines := by
  obtain ⟨n, hn⟩ := exists_end k blanks script
  have hok := (answer_isOk_iff (firstChunks script n)).mpr (firstChunks_unfailing h n)
  rw [(collectLines_response hn).1]
  cases hanswer : answer (firstChunks script n) with
  | ok lines => exact ⟨lines, rfl⟩
  | error f =>
    rw [hanswer] at hok
    cases hok

/-- The lines collected begin with what the board prints. -/
theorem collectLines_brings (h : Brings k run texts script) :
    ∃ more, (collectLines k run script).1 = .ok (texts ++ more) := by
  induction h with
  | rest hread => exact collectLines_unfailing _ _ hread
  | @pause run texts e script hbyte hends h ih =>
    by_cases hk : run < k
    · rw [collectLines_blank hk (readLine_pause hbyte hends) lineText_nil]
      exact ih
    · rw [collectLines_done (Nat.le_of_not_lt hk), h.spent (by omega)]
      exact ⟨[], rfl⟩
  | @blank run texts body script hbody hblank h ih =>
    by_cases hk : run < k
    · rw [collectLines_blank hk (readLine_printed hbody script) hblank]
      exact ih
    · rw [collectLines_done (Nat.le_of_not_lt hk), h.spent (by omega)]
      exact ⟨[], rfl⟩
  | @text run text texts body script hk hbody htext hne h ih =>
    obtain ⟨more, hmore⟩ := ih
    have hread : chomp (decode (body ++ [newline])) = text := htext
    rw [collectLines_text hk (readLine_printed hbody script) (hread.trans_ne hne), hread, hmore]
    exact ⟨more, rfl⟩

/-- So does the answer to a command. -/
theorem answerTo_brings {s : Session K} (hs : s.port.Sound) (text : String)
    (h : Brings s.settings.allowedEmptyReads 0 texts (heard s.port.incoming)) :
    ∃ more, answerTo text s = .ok (texts ++ more) := by
  obtain ⟨more, hmore⟩ := collectLines_brings h
  rw [answerTo_sound hs, ← collectLines_heard, hmore]
  exact ⟨more, rfl⟩

end Link

/-! ## One number after the other -/

section InTurn

variable {ε α β : Type}

theorem mapM_ok_iff {f : α → Except ε β} {xs : List α} {ys : List β} :
    xs.mapM f = .ok ys ↔ List.Forall₂ (fun x y => f x = .ok y) xs ys := by
  induction xs generalizing ys with
  | nil =>
    rw [List.forall₂_nil_left_iff]
    constructor
    · intro h
      cases h
      rfl
    · rintro rfl
      rfl
  | cons x xs ih =>
    rw [List.mapM_cons, List.forall₂_cons_left_iff]
    cases hx : f x with
    | error e => simp [bind, Except.bind]
    | ok y =>
      simp only [← ih]
      cases xs.mapM f <;> simp [bind, Except.bind, pure, Except.pure, eq_comm]

/-- From one place on, the first that fails is the answer. -/
theorem mapM_range_error_iff {f : Nat → Except ε β} {first count : Nat} {e : ε} :
    (List.range' first count).mapM f = .error e ↔
      ∃ i, first ≤ i ∧ i < first + count ∧ (∀ j, first ≤ j → j < i → ∃ y, f j = .ok y) ∧ f i = .error e := by
  induction count generalizing first with
  | zero =>
    constructor
    · intro h
      cases h
    · rintro ⟨i, hge, hlt, -⟩
      omega
  | succ count ih =>
    rw [List.range'_succ, List.mapM_cons]
    cases hfirst : f first with
    | error e' =>
      constructor
      · intro h
        cases h
        exact ⟨first, Nat.le_refl _, by omega, fun j hge hlt => by omega, hfirst⟩
      · rintro ⟨i, hge, -, hok, hi⟩
        rcases Nat.eq_or_lt_of_le hge with rfl | hlt
        · rw [hfirst] at hi
          cases hi
          rfl
        · obtain ⟨y, hy⟩ := hok first (Nat.le_refl _) hlt
          rw [hfirst] at hy
          cases hy
    | ok y =>
      have hrest : (do
          let b ← (.ok y : Except ε β)
          let bs ← (List.range' (first + 1) count).mapM f
          pure (b :: bs)) = .error e ↔ (List.range' (first + 1) count).mapM f = .error e := by
        cases (List.range' (first + 1) count).mapM f <;> simp [bind, Except.bind, pure, Except.pure]
      rw [hrest, ih]
      constructor
      · rintro ⟨i, hge, hlt, hok, hi⟩
        refine ⟨i, by omega, by omega, fun j hj hji => ?_, hi⟩
        rcases Nat.eq_or_lt_of_le hj with rfl | hj
        · exact ⟨y, hfirst⟩
        · exact hok j hj hji
      · rintro ⟨i, hge, hlt, hok, hi⟩
        have hne : i ≠ first := by
          rintro rfl
          rw [hfirst] at hi
          cases hi
        exact ⟨i, by omega, by omega, fun j hj hji => hok j (by omega) hji, hi⟩

end InTurn

namespace Drive

variable [Scalar K] {response : List String} {line : Nat} {text : String} {v : K}

/-! ## The number in a line -/

/-- The text without the blanks around it is a number, and this is its value. -/
def Denotes (text : String) (v : K) : Prop := ∃ n, Numeral.read? (trim text) = some n ∧ Scalar.ofNumeral n = v

/-- This number stands in line `line` of a response, where the echo is line zero. -/
def StandsIn (response : List String) (line : Nat) (v : K) : Prop := ∃ text, response[line]? = some text ∧ Denotes text v

/-- What is wrong with a line in which no number stands. -/
inductive Defect (response : List String) (line : Nat) : ResponseFault → Prop
  | missing : response.length ≤ line → Defect response line (.tooShort (line + 1) response.length)
  | notNumber {text : String} : response[line]? = some text → Numeral.read? (trim text) = none →
      Defect response line (.notNumber line text)

theorem StandsIn.lt_length (h : StandsIn response line v) : line < response.length := by
  obtain ⟨text, hline, -⟩ := h
  exact (List.getElem?_eq_some_iff.mp hline).1

theorem standsIn_or_defect (K : Type) [Scalar K] (response : List String) (line : Nat) :
    (∃ v : K, StandsIn response line v) ∨ ∃ reason, Defect response line reason := by
  cases hline : response[line]? with
  | none => exact .inr ⟨_, .missing (List.getElem?_eq_none_iff.mp hline)⟩
  | some shown =>
    cases hread : Numeral.read? (trim shown) with
    | none => exact .inr ⟨_, .notNumber hline hread⟩
    | some n => exact .inl ⟨_, shown, hline, n, hread, rfl⟩

theorem numberIn_standsIn (h : StandsIn response line v) : numberIn text response line = .ok v := by
  obtain ⟨shown, hline, n, hread, rfl⟩ := h
  simp only [numberIn, hline, hread]

theorem numberIn_defect {reason : ResponseFault} (h : Defect response line reason) :
    numberIn text response line = (.error (.unexpectedResponse text reason) : Except (LinkError K) K) := by
  cases h with
  | missing hlength => simp only [numberIn, List.getElem?_eq_none hlength]
  | notNumber hline hread => simp only [numberIn, hline, hread]

theorem numberIn_ok_iff : numberIn text response line = .ok v ↔ StandsIn response line v := by
  refine ⟨fun h => ?_, numberIn_standsIn⟩
  rcases standsIn_or_defect K response line with ⟨w, hw⟩ | ⟨reason, hreason⟩
  · rw [numberIn_standsIn hw] at h
    cases h
    exact hw
  · rw [numberIn_defect hreason] at h
    cases h

theorem numberIn_error_iff {e : LinkError K} : (numberIn text response line : Except (LinkError K) K) = .error e ↔
    ∃ reason, Defect response line reason ∧ e = .unexpectedResponse text reason := by
  constructor
  · intro h
    rcases standsIn_or_defect K response line with ⟨w, hw⟩ | ⟨reason, hreason⟩
    · rw [numberIn_standsIn hw] at h
      cases h
    · rw [numberIn_defect hreason] at h
      cases h
      exact ⟨reason, hreason, rfl⟩
  · rintro ⟨reason, hreason, rfl⟩
    exact numberIn_defect hreason

/-- Texts that stand behind one another in a response, each a number. -/
theorem standsIn_behind {vs : List K} (h : List.Forall₂ Denotes texts vs) (before more : List String) :
    List.Forall₂ (StandsIn (before ++ texts ++ more)) (List.range' before.length texts.length) vs := by
  induction h generalizing before with
  | nil => exact .nil
  | @cons text v texts vs htext _ ih =>
    have hbehind := ih (before ++ [text])
    simp only [List.append_assoc, List.singleton_append, List.length_append, List.length_singleton] at hbehind
    rw [List.length_cons, List.range'_succ, List.append_assoc, List.cons_append]
    exact .cons ⟨text, by simp, htext⟩ hbehind

/-! ## A reading -/

/-- One command, and the numbers in the lines of its answer. -/
theorem readNumbers_eq (stage : Stage) (verb : String) (lines : List Nat) (s : Session K) :
    readNumbers stage verb lines s =
      ((Link.answerTo (order stage verb []) s).bind fun response => lines.mapM (numberIn (order stage verb []) response),
        Link.after [order stage verb []] s) := by
  unfold readNumbers issue Link.answerTo
  rw [BenchM.bind_apply, Link.after, List.foldl_cons, List.foldl_nil]
  rcases (Link.command (order stage verb []) : BenchM K (List String)) s with ⟨_ | response, t⟩
  · rfl
  · exact mapM_lift _ lines t

/-- What `read` does in a session: it sends `text` and takes `count` numbers from what is answered, one from each line
behind the echo. -/
structure Decodes (read : BenchM K (List K)) (text : String) (count : Nat) (s : Session K) : Prop where
  session : (read s).2 = Link.after [text] s
  ok_iff : ∀ vs, (read s).1 = .ok vs ↔ ∃ response, Link.answerTo text s = .ok response ∧ count < response.length ∧
    List.Forall₂ (StandsIn response) (List.range' 1 count) vs
  /-- The error is that of the command, or names the first line with a defect. -/
  error_iff : ∀ e, (read s).1 = .error e ↔ Link.answerTo text s = .error e ∨
    ∃ response line reason, Link.answerTo text s = .ok response ∧ 1 ≤ line ∧ line ≤ count ∧
      (∀ i, 1 ≤ i → i < line → ∃ v : K, StandsIn response i v) ∧ Defect response line reason ∧
      e = .unexpectedResponse text reason
  /-- However the board spaces an echo and the numbers, and whatever it prints behind them. -/
  shown : ∀ echo texts vs, s.port.Sound →
    Brings s.settings.allowedEmptyReads 0 (echo :: texts) (heard s.port.incoming) → texts.length = count →
    List.Forall₂ Denotes texts vs → (read s).1 = .ok vs

theorem readNumbers_decodes (stage : Stage) (verb : String) {count : Nat} (hcount : 0 < count) (s : Session K) :
    Decodes (readNumbers stage verb (List.range' 1 count)) (order stage verb []) count s := by
  have hok : ∀ vs : List K, (readNumbers stage verb (List.range' 1 count) s).1 = .ok vs ↔
      ∃ response, Link.answerTo (order stage verb []) s = .ok response ∧
        List.Forall₂ (StandsIn response) (List.range' 1 count) vs := by
    intro vs
    rw [readNumbers_eq]
    cases Link.answerTo (order stage verb []) s with
    | error e => simp [Except.bind]
    | ok response => simp [Except.bind, mapM_ok_iff, numberIn_ok_iff]
  refine ⟨by rw [readNumbers_eq], fun vs => ?_, fun e => ?_, ?_⟩
  · rw [hok]
    constructor
    · rintro ⟨response, hanswer, hvs⟩
      -- The last line that is read is there, and so are those before it.
      obtain ⟨hlength, hlines⟩ := List.forall₂_iff_get.mp hvs
      have hlast := (hlines (count - 1) (by simp; omega) (by simp at hlength; omega)).lt_length
      simp only [List.get_eq_getElem, List.getElem_range'] at hlast
      exact ⟨response, hanswer, by omega, hvs⟩
    · rintro ⟨response, hanswer, -, hvs⟩
      exact ⟨response, hanswer, hvs⟩
  · rw [readNumbers_eq]
    cases Link.answerTo (order stage verb []) s with
    | error e' => simp [Except.bind]
    | ok response =>
      simp only [Except.bind, mapM_range_error_iff, numberIn_ok_iff, numberIn_error_iff, reduceCtorEq, false_or]
      constructor
      · rintro ⟨line, hge, hlt, hbefore, reason, hdefect, rfl⟩
        exact ⟨response, line, reason, rfl, hge, by omega, hbefore, hdefect, rfl⟩
      · rintro ⟨_, line, reason, hanswer, hge, hle, hbefore, hdefect, rfl⟩
        cases hanswer
        exact ⟨line, hge, by omega, hbefore, reason, hdefect, rfl⟩
  · intro echo texts vs hs hbrings hlength hvs
    obtain ⟨more, hmore⟩ := Link.answerTo_brings hs (order stage verb []) hbrings
    rw [hok]
    refine ⟨_, hmore, ?_⟩
    rw [← hlength]
    exact standsIn_behind hvs [echo] more

/-- The currents and the voltages of the radial stage stand in three lines behind the echo, those of the axial stage
in one. -/
theorem readings_decoded (s : Session K) :
    Decodes readCurrents "cramb read_currents" 3 s ∧ Decodes readAdc "cramb read_adc" 3 s ∧
      Decodes axialReadCurrent "cramb_axial read_current" 1 s ∧ Decodes axialReadAdc "cramb_axial read_adc" 1 s :=
  ⟨readNumbers_decodes .radial "read_currents" (Nat.succ_pos 2) s, readNumbers_decodes .radial "read_adc" (Nat.succ_pos 2) s,
    readNumbers_decodes .axial "read_current" (Nat.succ_pos 0) s, readNumbers_decodes .axial "read_adc" (Nat.succ_pos 0) s⟩

/-- A link over exact numbers that waits for three blank lines, over a port that brings this. -/
def bringing (script : List ReadEvent) : Session ℝ := ⟨.ofScript script, ⟨0, 0, false, 3⟩, []⟩

/-- Two blanks in front of each line, one number read around an interruption, and a line behind the numbers. -/
def spaced : List ReadEvent :=
  .empty :: Link.bytes "\r\n" ++ Link.bytes "cramb read_currents\r\n" ++ Link.late :: .empty :: Link.bytes "0." ++
    .fault ⟨.interrupted, "again"⟩ :: Link.bytes "5\r\n" ++ Link.bytes "\n" ++ Link.late :: Link.bytes " -0.2 \r\n" ++
    .empty :: .empty :: Link.bytes "-0.3\n" ++ Link.bytes "\r\nready\r\n"

theorem spaced_brings : Brings 3 0 ["cramb read_currents", "0.5", " -0.2 ", "-0.3"] (heard spaced) := by
  have hheard : heard spaced = .empty :: (([13] ++ [newline]).map .byte ++
      ((encode "cramb read_currents\r" ++ [newline]).map .byte ++ (Link.late :: .empty ::
      ((encode "0.5\r" ++ [newline]).map .byte ++ (([] ++ [newline]).map .byte ++ (Link.late ::
      ((encode " -0.2 \r" ++ [newline]).map .byte ++ (.empty :: .empty :: ((encode "-0.3" ++ [newline]).map .byte ++
      Link.bytes "\r\nready\r\n"))))))))) := by decide +kernel
  rw [hheard]
  refine .pause rfl rfl (.blank (by decide) (by cbv) ?_)
  refine .text (by decide) (by decide +kernel) (by cbv) (by decide) (.pause rfl rfl (.pause rfl rfl ?_))
  refine .text (by decide) (by decide +kernel) (by cbv) (by decide) (.blank List.not_mem_nil (by cbv) (.pause rfl rfl ?_))
  refine .text (by decide) (by decide +kernel) (by cbv) (by decide) (.pause rfl rfl (.pause rfl rfl ?_))
  exact .text (by decide) (by decide +kernel) (by cbv) (by decide) (.rest (by decide +kernel))

/-- The numbers of the spaced answer in order; and of an answer with one number, the first line that it lacks. -/
theorem readings_decoded_spaced :
    (readCurrents (bringing spaced)).1 = .ok [1 / 2, -(1 / 5), -(3 / 10)] ∧
      (readAdc (bringing (Link.bytes "cramb read_adc\r\n1.0\r\n"))).1 =
        .error (.unexpectedResponse "cramb read_adc" (.tooShort 3 2)) := by
  obtain ⟨hcurrents, -, -, -⟩ := readings_decoded (bringing spaced)
  obtain ⟨-, hadc, -, -⟩ := readings_decoded (bringing (Link.bytes "cramb read_adc\r\n1.0\r\n"))
  constructor
  · refine hcurrents.shown _ _ _ (Port.ofScript_sound _) spaced_brings rfl ?_
    refine .cons ⟨.finite false 5 (-1), by decide +kernel, ?_⟩ (.cons ⟨.finite true 2 (-1), by decide +kernel, ?_⟩
      (.cons ⟨.finite true 3 (-1), by decide +kernel, ?_⟩ .nil)) <;>
    · show Exact.worth _ = _
      norm_num [Exact.worth]
  · refine (hadc.error_iff _).mpr (.inr ⟨["cramb read_adc", "1.0"], 2, _, ?_, by decide, by decide, ?_,
      .missing (by decide), rfl⟩)
    · rw [Link.answerTo_sound (Port.ofScript_sound _)]
      cbv
    · intro i h1 h2
      obtain rfl : i = 1 := by omega
      exact ⟨_, "1.0", rfl, .finite false 10 (-1), by decide +kernel, rfl⟩

end Drive

end MagneticBearing.Bench
