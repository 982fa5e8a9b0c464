/-
  MagneticBearing.Proofs.Zeroing — the drive taken to its safe state, over a port that takes every byte.

  Zeroing is three commands in turn, and each waits for its response. The first response in which a read
  fails is the end of it, so the commands behind that one are never sent (`inTurn_after`).

  - `zeroing_transmitted`: the first command is always sent, the second only if the first response could be
    read, the third only if both could; quitting and putting the drive away send no more.
  - `a_failed_read_ends_zeroing`: one failed read, and the regulators stay on.
-/

import MagneticBearing.Bench.Operator
import MagneticBearing.Proofs.Latency

namespace MagneticBearing.Bench

variable {K : Type}

/-! ## Responses that can be read -/

/-- No read fails in the response that the script begins with. -/
def Readable (k : Nat) (script : List ReadEvent) : Prop :=
  ∀ n, IsLeast {n | Ends k 0 (chunk script) n} n → ∀ e ∈ (firstChunks script n).flatten, e.failure? = none

theorem answer_isOk_iff (cs : List (List ReadEvent)) :
    (answer cs).isOk = true ↔ ∀ e ∈ cs.flatten, e.failure? = none := by
  unfold answer
  rw [← List.findSome?_eq_none_iff]
  cases cs.flatten.findSome? ReadEvent.failure? <;> simp [Except.isOk, Except.toBool]

theorem flatten_chunks (script : List ReadEvent) : (chunks script).flatten = script := by
  induction script with
  | nil => rfl
  | cons e rest ih =>
    rw [chunks]
    split
    · rw [List.flatten_cons, ih]
      rfl
    · cases hc : chunks rest with
      | nil =>
        rw [hc] at ih
        rw [← ih]
        rfl
      | cons c cs =>
        rw [hc] at ih
        rw [← ih]
        rfl

theorem mem_of_chunk {script : List ReadEvent} {e : ReadEvent} {i : Nat} (h : e ∈ chunk script i) : e ∈ script := by
  unfold chunk at h
  rw [List.getD_eq_getElem?_getD] at h
  cases hc : (chunks (heard script))[i]? with
  | none =>
    rw [hc] at h
    cases h
  | some c =>
    rw [hc] at h
    have he : e ∈ (chunks (heard script)).flatten := List.mem_flatten_of_mem (List.mem_of_getElem? hc) h
    rw [flatten_chunks] at he
    exact List.mem_of_mem_filter he

/-- Where no read of the script fails, none in its chunks does. -/
theorem firstChunks_unfailing {script : List ReadEvent} (h : ∀ e ∈ script, e.failure? = none) (n : Nat) :
    ∀ e ∈ (firstChunks script n).flatten, e.failure? = none := by
  intro e he
  obtain ⟨c, hc, hec⟩ := List.mem_flatten.mp he
  obtain ⟨i, -, rfl⟩ := List.mem_map.mp hc
  exact h e (mem_of_chunk hec)

/-- A script without failing reads begins with such a response, however long it is. -/
theorem readable_of_unfailing {k : Nat} {script : List ReadEvent} (h : ∀ e ∈ script, e.failure? = none) :
    Readable k script := fun n _ => firstChunks_unfailing h n

namespace Link

variable {s : Session K} {text : String} {texts : List String}

theorem answerTo_isOk_iff (h : s.port.Sound) (text : String) :
    (answerTo text s).isOk = true ↔ Readable s.settings.allowedEmptyReads s.port.incoming := by
  obtain ⟨n, taken, hn, hanswer, -, -⟩ := command_response h text
  have hok : (answerTo text s).isOk = (answer (firstChunks s.port.incoming n)).isOk := by
    rw [answerTo, hanswer]
    cases answer (firstChunks s.port.incoming n) <;> rfl
  rw [hok, answer_isOk_iff]
  constructor
  · intro hread m hm
    rwa [hm.unique hn]
  · intro hread
    exact hread n hn

/-! ## Commands in turn -/

/-- One command after the other, as far as the first that fails. -/
def inTurn : List String → BenchM K Unit
  | [] => pure ()
  | text :: rest => do
    let _ ← command text
    inTurn rest

theorem after_cons (text : String) (texts : List String) (s : Session K) :
    after (text :: texts) s = after texts (after [text] s) := rfl

theorem inTurn_cons (text : String) (texts : List String) (s : Session K) :
    inTurn (text :: texts) s = match answerTo text s with
      | .ok _ => inTurn texts (after [text] s)
      | .error e => (.error e, after [text] s) := by
  simp only [inTurn, BenchM.bind_apply, answerTo, after, List.foldl_cons, List.foldl_nil]
  rcases (command text : BenchM K (List String)) s with ⟨_ | _, t⟩ <;> rfl

theorem after_incoming (h : s.port.Sound) (text : String) :
    (after [text] s).port.incoming = (collectLines s.settings.allowedEmptyReads 0 s.port.incoming).2 := by
  obtain ⟨t, hrun, ht⟩ := command_sound text h
  rw [after, List.foldl_cons, hrun]
  exact ht.incoming

theorem after_transmitted (h : s.port.Sound) (texts : List String) :
    (after texts s).port.transmitted = s.port.transmitted ++ texts.flatMap frame := by
  induction texts generalizing s with
  | nil => simp [after]
  | cons text texts ih =>
    obtain ⟨t, hrun, ht⟩ := command_sound text h
    have hafter : after [text] s = t := by
      rw [after, List.foldl_cons, hrun]
      rfl
    rw [after_cons, hafter, ih ht.sound, ht.transmitted, List.flatMap_cons, List.append_assoc]

/-- The commands that are sent are the first few: one more as long as the responses can be read. -/
theorem inTurn_after (h : s.port.Sound) (texts : List String) :
    ∃ n ≤ texts.length, ((inTurn texts : BenchM K Unit) s).2 = after (texts.take n) s ∧
      ∀ k < texts.length, (k < n ↔
        ∀ j < k, Readable s.settings.allowedEmptyReads (after (texts.take j) s).port.incoming) := by
  induction texts generalizing s with
  | nil => exact ⟨0, Nat.le_refl 0, rfl, fun k hk => absurd hk (Nat.not_lt_zero k)⟩
  | cons text texts ih =>
    obtain ⟨hsound, hsettings, -⟩ := after_sound h [text]
    have hfirst := answerTo_isOk_iff h text
    rw [inTurn_cons]
    cases hanswer : answerTo text s with
    | error e =>
      rw [hanswer] at hfirst
      refine ⟨1, by simp, rfl, fun k _ => ?_⟩
      constructor
      · intro hk j hj
        omega
      · intro hread
        by_contra hk
        have := hfirst.mpr (hread 0 (by omega))
        cases this
    | ok lines =>
      rw [hanswer] at hfirst
      obtain ⟨n, hn, hafter, hread⟩ := ih hsound
      rw [hsettings] at hread
      refine ⟨n + 1, Nat.succ_le_succ hn, hafter, fun k hk => ?_⟩
      cases k with
      | zero => exact ⟨fun _ j hj => absurd hj (Nat.not_lt_zero j), fun _ => Nat.succ_pos n⟩
      | succ k =>
        rw [Nat.add_lt_add_iff_right, hread k (Nat.lt_of_succ_lt_succ hk)]
        constructor
        · intro hrest j hj
          cases j with
          | zero => exact hfirst.mp rfl
          | succ j => exact hrest j (Nat.lt_of_succ_lt_succ hj)
        · intro hall j hj
          exact hall (j + 1) (Nat.succ_lt_succ hj)

end Link

/-! ## Zeroing -/

namespace Drive

/-- The commands that take a stage to its safe state. -/
def zeroing : Stage → List String
  | .radial => ["cramb set_currents 0 0", "cramb deinit_cc", "cramb pole_volts 0 0 0"]
  | .axial => ["cramb_axial set_current 0", "cramb_axial deinit_cc", "cramb_axial pole_volts 0 0"]

theorem micro_zero : micro (0.0 : Float) = 0 := by decide +kernel

theorem zero_eq (stage : Stage) : (zero stage : BenchM Float Unit) = Link.inTurn (zeroing stage) := by
  cases stage with
  | radial =>
    simp only [zero, setCurrents, regulatorsOff, poleVolts, issue, micro_zero]
    rfl
  | axial =>
    simp only [zero, axialCurrent, regulatorsOff, axialPoleVolts, issue, micro_zero]
    rfl

end Drive

/-- Telling of an error leaves the port as the error left it. -/
theorem BenchM.recover_port (x : BenchM K Unit) (tell : LinkError K → Notice K) (s : Session K) :
    (recover x (fun e => notify (tell e)) s).2.port = (x s).2.port := by
  unfold recover
  rcases x s with ⟨_ | _, t⟩ <;> rfl

/-- Quitting and putting the drive away do on the port what zeroing does. -/
theorem zeroing_port (s : Session Float) : ∀ x ∈ [Drive.zero .radial, Operator.quit, Drive.drop],
    (x s).2.port = (Link.inTurn (Drive.zeroing .radial) s).2.port := by
  rw [← Drive.zero_eq]
  intro x hx
  simp only [List.mem_cons, List.not_mem_nil, or_false] at hx
  rcases hx with rfl | rfl | rfl
  · rfl
  · exact BenchM.recover_port _ _ s
  · exact BenchM.recover_port _ _ s

open Link in
/-- Of the three commands the first is sent whatever happens, the second if the response to the first could be
read, the third if both responses could; so all three are sent if and only if no read fails in the first two
responses. The same holds of quitting and of putting the drive away. -/
theorem zeroing_transmitted {s : Session Float} (h : s.port.Sound) :
    let readable (sent : Nat) :=
      Readable s.settings.allowedEmptyReads (after ((Drive.zeroing .radial).take sent) s).port.incoming
    ∀ x ∈ [Drive.zero .radial, Operator.quit, Drive.drop], ∃ n,
      (x s).2.port.transmitted = s.port.transmitted ++ ((Drive.zeroing .radial).take n).flatMap frame ∧
        1 ≤ n ∧ n ≤ 3 ∧ (2 ≤ n ↔ readable 0) ∧ (n = 3 ↔ readable 0 ∧ readable 1) := by
  intro readable x hx
  obtain ⟨n, hn, hafter, hread⟩ := inTurn_after h (Drive.zeroing .radial)
  have hfirst : 0 < n ↔ ∀ j < 0, readable j := hread 0 (by decide)
  have hsecond : 1 < n ↔ ∀ j < 1, readable j := hread 1 (by decide)
  have hthird : 2 < n ↔ ∀ j < 2, readable j := hread 2 (by decide)
  refine ⟨n, ?_, hfirst.mpr fun j hj => absurd hj (Nat.not_lt_zero j), hn, ?_, ?_⟩
  · rw [zeroing_port s x hx, hafter, after_transmitted h]
  · refine hsecond.trans ⟨fun hall => hall 0 Nat.one_pos, fun h0 j hj => ?_⟩
    obtain rfl : j = 0 := by omega
    exact h0
  · have hlen : n = 3 ↔ 2 < n := ⟨by omega, fun hlt => Nat.le_antisymm hn hlt⟩
    refine hlen.trans (hthird.trans ⟨fun hall => ⟨hall 0 (by omega), hall 1 (by omega)⟩, ?_⟩)
    rintro ⟨h0, h1⟩ j hj
    obtain rfl | rfl : j = 0 ∨ j = 1 := by omega
    · exact h0
    · exact h1

open Link in
/-- The board is gone in the response to the second command, and the third is not sent. -/
theorem zeroing_transmitted_cut_off :
    let s := bringing (bytes "ok\r\n" ++ [.empty, late, .empty, .fault ⟨.brokenPipe, "gone"⟩])
    s.port.Sound ∧ (Operator.quit s).2.port.transmitted =
      frame "cramb set_currents 0 0" ++ frame "cramb deinit_cc" := by
  intro s
  have hs : s.port.Sound := bringing_sound _
  obtain ⟨n, hsent, -, hn, hsecond, hthird⟩ := zeroing_transmitted hs Operator.quit (by simp)
  have h0 : Readable 3 s.port.incoming := by
    have hanswer : answerTo "" s = .ok ["ok"] := by
      rw [answerTo_sound hs]
      cbv
    refine (answerTo_isOk_iff hs "").mp ?_
    rw [hanswer]
    rfl
  have h1 : ¬ Readable 3 (after ["cramb set_currents 0 0"] s).port.incoming := by
    obtain ⟨ht, hsettings, -⟩ := after_sound hs ["cramb set_currents 0 0"]
    have hleft : (after ["cramb set_currents 0 0"] s).port.incoming = [.fault ⟨.brokenPipe, "gone"⟩] := by
      rw [after_incoming hs]
      cbv
    have hanswer : answerTo "" (after ["cramb set_currents 0 0"] s) = .error (.io ⟨.brokenPipe, "gone"⟩) := by
      rw [answerTo_sound ht, hsettings, hleft]
      cbv
    intro hread
    have hok := (answerTo_isOk_iff ht "").mpr (hsettings ▸ hread)
    rw [hanswer] at hok
    cases hok
  have h2 : 2 ≤ n := hsecond.mpr h0
  have h3 : n ≠ 3 := fun hall => h1 (hthird.mp hall).2
  obtain rfl : n = 2 := by omega
  exact ⟨hs, hsent.trans (by cbv)⟩

open Link in
/-- A read fails in the response to the first command: the regulators stay on. -/
theorem a_failed_read_ends_zeroing :
    let s := bringing [.fault ⟨.other, "lost"⟩]
    s.port.Sound ∧ ∀ x ∈ [Drive.zero .radial, Operator.quit, Drive.drop],
      (x s).2.port.transmitted = frame "cramb set_currents 0 0" ∧
        (x s).2.port.transmitted ≠ s.port.transmitted ++ (Drive.zeroing .radial).flatMap frame := by
  intro s
  have hs : s.port.Sound := bringing_sound _
  have hanswer : answerTo "cramb set_currents 0 0" s = .error (.io ⟨.other, "lost"⟩) := by
    rw [answerTo_sound hs]
    cbv
  have hsent : (inTurn (Drive.zeroing .radial) s).2.port.transmitted = frame "cramb set_currents 0 0" := by
    rw [Drive.zeroing, inTurn_cons, hanswer]
    exact (after_transmitted hs ["cramb set_currents 0 0"]).trans (by simp [s, bringing, Port.ofScript, Port.transmitted])
  have hrest : frame "cramb set_currents 0 0" ≠ (Drive.zeroing .radial).flatMap frame := by
    simp [Drive.zeroing, frame]
  refine ⟨hs, fun x hx => ?_⟩
  rw [zeroing_port s x hx, hsent]
  exact ⟨rfl, hrest⟩

end MagneticBearing.Bench
