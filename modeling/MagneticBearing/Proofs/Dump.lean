/-
  MagneticBearing.Proofs.Dump — which part of the incoming script answers a log dump, and how.

  A dump works through the chunks of the script. It waits for the one with the end marker, as long as no
  thousand chunks in a row are silent (`Waits`). Behind the marker it reads up to the first silent chunk
  (`Drains`). A chunk is silent if it brings no byte at all, so a line of nothing but its end is not. One thing
  ends the dump, in one chunk (`Stops`): a read in it fails, or it is the last of a thousand silent ones, or the
  first silent one behind the marker. So the answer is the failure, or that the dump is incomplete, or all the
  samples in front of the marker.

  - `collectSamples_stops`, `drain_stops`: where the two loops end.
  - `Stops.unique`: a dump ends once and in one way.
  - `dump_answered`: each answer with the condition under which it is given, and how far the script is read.
-/

import MagneticBearing.Proofs.AnyPort
import MagneticBearing.Proofs.Latency

namespace MagneticBearing.Bench

open MagneticBearing.Number (Numeral readInt?)
open MagneticBearing.Text

/-! ## Parts of a script -/

/-- What a chunk brings is read without a fault in the first `n` chunks. -/
def Unfailing (cs : Nat → List ReadEvent) (n : Nat) : Prop := ∀ i < n, (cs i).findSome? ReadEvent.failure? = none

/-- Reading took the first `n` chunks, or as much of them as there is up to a failure, and left the rest. -/
structure Takes (script : List ReadEvent) (n : Nat) (left : List ReadEvent) : Prop where
  split : ∃ taken, script = taken ++ left ∧ heard taken = untilFailure (firstChunks script n).flatten
  next : Unfailing (chunk script) n → ∀ i, chunk left i = chunk script (n + i)

section Parts

variable {script mid left : List ReadEvent} {cs : Nat → List ReadEvent} {m n : Nat}

theorem chunkBytes_error {c : List ReadEvent} {f : Fault} (h : .error f = chunkBytes c) :
    c.findSome? ReadEvent.failure? = some f := by
  unfold chunkBytes at h
  split at h
  · rename_i hf
    cases h
    exact hf
  · cases h

theorem chunkBytes_ok {c : List ReadEvent} {line : List UInt8} (h : .ok line = chunkBytes c) :
    c.findSome? ReadEvent.failure? = none ∧ c.filterMap ReadEvent.byte? = line := by
  unfold chunkBytes at h
  split at h
  · cases h
  · rename_i hf
    cases h
    exact ⟨hf, rfl⟩

theorem Unfailing.mono (h : Unfailing cs n) (hle : m ≤ n) : Unfailing cs m := fun i hi => h i (by omega)

theorem Unfailing.succ (h : Unfailing cs n) (hn : (cs n).findSome? ReadEvent.failure? = none) :
    Unfailing cs (n + 1) := by
  intro i hi
  by_cases hin : i = n
  · rw [hin]
    exact hn
  · exact h i (by omega)

theorem Unfailing.append (h : Unfailing cs m) (h' : Unfailing (fun i => cs (m + i)) n) : Unfailing cs (m + n) := by
  intro i hi
  by_cases him : i < m
  · exact h i him
  · have hrest := h' (i - m) (by omega)
    have hsum : m + (i - m) = i := by omega
    simpa only [hsum] using hrest

theorem Unfailing.flatten (h : Unfailing (chunk script) n) :
    (firstChunks script n).flatten.findSome? ReadEvent.failure? = none := by
  rw [List.findSome?_eq_none_iff]
  intro e he
  obtain ⟨c, hc, hec⟩ := List.mem_flatten.mp he
  obtain ⟨i, hi, rfl⟩ := List.mem_map.mp hc
  exact List.findSome?_eq_none_iff.mp (h i (List.mem_range.mp hi)) e hec

theorem firstChunks_add (script : List ReadEvent) (m n : Nat) :
    firstChunks script (m + n) = firstChunks script m ++ (List.range n).map fun i => chunk script (m + i) := by
  unfold firstChunks
  rw [List.range_add, List.map_append, List.map_map]
  rfl

/-- What is taken in two goes. -/
theorem Takes.trans (h : Takes script m mid) (hu : Unfailing (chunk script) m) (h' : Takes mid n left) :
    Takes script (m + n) left := by
  obtain ⟨taken, hs, hh⟩ := h.split
  obtain ⟨more, hs', hh'⟩ := h'.split
  have hnext := h.next hu
  have hchunks : firstChunks script (m + n) = firstChunks script m ++ firstChunks mid n := by
    rw [firstChunks_add]
    simp only [← hnext]
    rfl
  refine ⟨⟨taken ++ more, ?_, ?_⟩, fun hall i => ?_⟩
  · rw [List.append_assoc, ← hs', ← hs]
  · rw [hchunks, List.flatten_append, untilFailure_append, hu.flatten, heard, List.filter_append, ← heard, ← heard,
      hh, hh', untilFailure_of_none hu.flatten]
  · have hmid : Unfailing (chunk mid) n := by
      intro j hj
      rw [hnext]
      exact hall (m + j) (by omega)
    rw [h'.next hmid, hnext, Nat.add_assoc]

theorem takes_of_read {line : Except Fault (List UInt8)} (h : readLine script = (line, left)) :
    line = chunkBytes (chunk script 0) ∧ Takes script 1 left := by
  obtain ⟨hline, taken, hs, hh, hnext⟩ := readLine_chunk script
  rw [h] at hline hs hnext
  refine ⟨hline, ⟨taken, hs, ?_⟩, fun hu i => ?_⟩
  · simpa [firstChunks] using hh
  · rw [hnext (hu 0 Nat.one_pos), Nat.add_comm]

theorem unfailing_of_read {line : List UInt8} (h : readLine script = (.ok line, left)) :
    Unfailing (chunk script) 1 := by
  intro i hi
  obtain rfl : i = 0 := by omega
  exact (chunkBytes_ok (takes_of_read h).1).1

/-- One line, and what is taken behind it. -/
theorem takes_succ {line : List UInt8} (h : readLine script = (.ok line, mid)) (h' : Takes mid n left) :
    Takes script (n + 1) left := by
  rw [Nat.add_comm]
  exact (takes_of_read h).2.trans (unfailing_of_read h) h'

theorem chunk_of_read {line : List UInt8} (h : readLine script = (.ok line, left)) :
    chunk left = fun i => chunk script (i + 1) := by
  funext i
  rw [(takes_of_read h).2.next (unfailing_of_read h), Nat.add_comm]

theorem unfailing_succ {line : List UInt8} (h : readLine script = (.ok line, left)) (h' : Unfailing (chunk left) n) :
    Unfailing (chunk script) (n + 1) := by
  rw [Nat.add_comm]
  refine (unfailing_of_read h).append fun i hi => ?_
  have hi' := h' i hi
  rwa [(takes_of_read h).2.next (unfailing_of_read h)] at hi'

end Parts

/-! ## How a dump ends -/

/-- A chunk that brings no byte. -/
def Silent (c : List ReadEvent) : Prop := c.filterMap ReadEvent.byte? = []

/-- The text of a row, its end included. -/
def rowText (c : List ReadEvent) : String := decode (c.filterMap ReadEvent.byte?)

/-- A chunk with the end marker in it. -/
def Marked (c : List ReadEvent) : Prop := holds Link.endMarker (rowText c).toList = true

instance (c : List ReadEvent) : Decidable (Silent c) := inferInstanceAs (Decidable (_ = _))

instance (c : List ReadEvent) : Decidable (Marked c) := inferInstanceAs (Decidable (_ = _))

instance (cs : Nat → List ReadEvent) (n : Nat) : Decidable (Unfailing cs n) :=
  inferInstanceAs (Decidable (∀ i < n, (cs i).findSome? ReadEvent.failure? = none))

/-- After `n` chunks the last thousand are silent, `before` silent ones in front of the first counted in. -/
def Exhausted (before : Nat) (cs : Nat → List ReadEvent) (n : Nat) : Prop :=
  Trails (fun i => Silent (cs i)) Link.dumpPatience before n

/-- In the first `n` chunks there is no end marker, and patience is never used up. -/
structure Waits (before : Nat) (cs : Nat → List ReadEvent) (n : Nat) : Prop where
  unmarked : ∀ i < n, ¬ Marked (cs i)
  patient : ∀ i ≤ n, ¬ Exhausted before cs i

/-- The first end marker is in chunk `m`, and behind it there is no silent chunk among the first `n`. -/
structure Drains (cs : Nat → List ReadEvent) (m n : Nat) : Prop where
  waits : Waits 0 cs m
  marked : Marked (cs m)
  behind : m < n
  trailing : ∀ i, m < i → i < n → ¬ Silent (cs i)

inductive Ending where
  | failed (f : Fault)
  | exhausted
  /-- The end marker was in chunk `m`. -/
  | closed (m : Nat)
  deriving DecidableEq, Repr

/-- The chunk `n` ends the dump, and how. -/
inductive Stops (cs : Nat → List ReadEvent) (n : Nat) : Ending → Prop
  | failed {f : Fault} : Unfailing cs n → (cs n).findSome? ReadEvent.failure? = some f →
      (Waits 0 cs n ∨ ∃ m, Drains cs m n) → Stops cs n (.failed f)
  | exhausted : Unfailing cs (n + 1) → Waits 0 cs n → Exhausted 0 cs (n + 1) → Stops cs n .exhausted
  | closed {m : Nat} : Unfailing cs (n + 1) → Drains cs m n → Silent (cs n) → Stops cs n (.closed m)

section Ends

variable {cs : Nat → List ReadEvent} {before m m' n n' : Nat} {d d' : Ending}

/-- A silent chunk has no text, so no end marker. -/
theorem Silent.not_marked {c : List ReadEvent} (h : Silent c) : ¬ Marked c := by
  have htext : rowText c = "" := by
    rw [rowText, h, decode_nil]
  rw [Marked, htext]
  decide

/-- A few chunks do not use patience up. -/
theorem not_exhausted (h : before + n < Link.dumpPatience) : ¬ Exhausted before cs n := by
  intro hex
  have := hex.1
  omega

theorem waits_zero (h : before < Link.dumpPatience) : Waits before cs 0 := by
  refine ⟨fun i hi => absurd hi (Nat.not_lt_zero i), fun i hi => not_exhausted ?_⟩
  omega

theorem exhausted_succ (h : Silent (cs 0)) :
    Exhausted before cs (n + 1) ↔ Exhausted (before + 1) (fun i => cs (i + 1)) n :=
  trails_succ (p := fun i => Silent (cs i)) h

theorem exhausted_succ_anew (h : ¬ Silent (cs 0)) : Exhausted before cs (n + 1) ↔ Exhausted 0 (fun i => cs (i + 1)) n :=
  trails_succ_anew (p := fun i => Silent (cs i)) h

/-- One more chunk in front, which leaves the link waiting with `before'` silent ones in a row. -/
theorem Waits.succ {before' : Nat} (hb : before < Link.dumpPatience) (hm : ¬ Marked (cs 0))
    (hex : ∀ i, Exhausted before cs (i + 1) ↔ Exhausted before' (fun i => cs (i + 1)) i)
    (h : Waits before' (fun i => cs (i + 1)) n) : Waits before cs (n + 1) := by
  refine ⟨fun i hi => ?_, fun i hi => ?_⟩
  · cases i with
    | zero => exact hm
    | succ i => exact h.unmarked i (by omega)
  · cases i with
    | zero => exact (waits_zero hb).patient 0 (Nat.le_refl 0)
    | succ i =>
      rw [hex]
      exact h.patient i (by omega)

theorem Waits.mono (h : Waits before cs n) (hle : m ≤ n) : Waits before cs m :=
  ⟨fun i hi => h.unmarked i (by omega), fun i hi => h.patient i (by omega)⟩

theorem Drains.mono (h : Drains cs m n) (hm : m < n') (hle : n' ≤ n) : Drains cs m n' :=
  ⟨h.waits, h.marked, hm, fun i hi hn => h.trailing i hi (by omega)⟩

/-- There is only one first marker. -/
theorem Drains.unique (h : Drains cs m n) (h' : Drains cs m' n') : m = m' := by
  rcases Nat.lt_trichotomy m m' with hlt | heq | hgt
  · exact absurd h.marked (h'.waits.unmarked m hlt)
  · exact heq
  · exact absurd h'.marked (h.waits.unmarked m' hgt)

/-- Behind a marker nobody waits for it. -/
theorem Drains.not_waits (h : Drains cs m n) : ¬ Waits 0 cs n := fun hw => hw.unmarked m h.behind h.marked

/-- The dump is not over within the first `n` chunks. -/
def Continues (cs : Nat → List ReadEvent) (n : Nat) : Prop := Unfailing cs n ∧ (Waits 0 cs n ∨ ∃ m, Drains cs m n)

theorem Continues.mono (h : Continues cs n) (hle : m ≤ n) : Continues cs m := by
  obtain ⟨hu, hw | ⟨k, hd⟩⟩ := h
  · exact ⟨hu.mono hle, .inl (hw.mono hle)⟩
  · by_cases hk : k < m
    · exact ⟨hu.mono hle, .inr ⟨k, hd.mono hk hle⟩⟩
    · exact ⟨hu.mono hle, .inl (hd.waits.mono (by omega))⟩

/-- Where patience is used up the last chunk was silent. -/
theorem Exhausted.silent (h : Exhausted 0 cs (n + 1)) : Silent (cs n) := by
  have hk : Link.dumpPatience = 1000 := rfl
  exact h.2 n (Nat.lt_succ_self n) (by omega)

/-- A dump is not over before the chunk that ends it, and over with it. -/
theorem Stops.continues (h : Stops cs n d) : Continues cs n ∧ ¬ Continues cs (n + 1) := by
  cases h with
  | failed hu hf hw =>
    refine ⟨⟨hu, hw⟩, fun hc => ?_⟩
    have hnone := hc.1 n (Nat.lt_succ_self n)
    rw [hf] at hnone
    cases hnone
  | exhausted hu hw hex =>
    refine ⟨⟨hu.mono (Nat.le_succ n), .inl hw⟩, fun hc => ?_⟩
    obtain ⟨-, hw' | ⟨m, hd⟩⟩ := hc
    · exact hw'.patient (n + 1) (Nat.le_refl _) hex
    · by_cases hm : m < n
      · exact hw.unmarked m hm hd.marked
      · have hbehind := hd.behind
        obtain rfl : m = n := by omega
        exact hex.silent.not_marked hd.marked
  | @closed m hu hd hs =>
    refine ⟨⟨hu.mono (Nat.le_succ n), .inr ⟨m, hd⟩⟩, fun hc => ?_⟩
    have hbehind := hd.behind
    obtain ⟨-, hw | ⟨m', hd'⟩⟩ := hc
    · exact hw.unmarked m (by omega) hd.marked
    · obtain rfl := hd.unique hd'
      exact hd'.trailing n hbehind (Nat.lt_succ_self n) hs

/-- A dump ends once, and in one way. -/
theorem Stops.unique (h : Stops cs n d) (h' : Stops cs n' d') : n = n' ∧ d = d' := by
  obtain ⟨hc, hover⟩ := h.continues
  obtain ⟨hc', hover'⟩ := h'.continues
  obtain rfl : n = n' := by
    rcases Nat.lt_trichotomy n n' with hlt | heq | hgt
    · exact absurd (hc'.mono hlt) hover
    · exact heq
    · exact absurd (hc.mono hgt) hover'
  refine ⟨rfl, ?_⟩
  -- A failure and none are not found in one chunk.
  have hone {f : Fault} {P : Prop} (hf : (cs n).findSome? ReadEvent.failure? = some f)
      (hu : Unfailing cs (n + 1)) : P := by
    have hnone := hu n (Nat.lt_succ_self n)
    rw [hf] at hnone
    cases hnone
  cases h with
  | failed hu hf hw =>
    cases h' with
    | failed hu' hf' hw' =>
      rw [hf] at hf'
      cases hf'
      rfl
    | exhausted hu' => exact hone hf hu'
    | closed hu' => exact hone hf hu'
  | exhausted hu hw hex =>
    cases h' with
    | failed hu' hf' => exact hone hf' hu
    | exhausted => rfl
    | closed hu' hd => exact absurd hw hd.not_waits
  | closed hu hd hs =>
    cases h' with
    | failed hu' hf' => exact hone hf' hu
    | exhausted hu' hw => exact absurd hw hd.not_waits
    | closed hu' hd' => rw [hd.unique hd']

/-- A dump ends within a thousand chunks behind the end of the script. -/
theorem Stops.bound {script : List ReadEvent} (h : Stops (chunk script) n d) :
    n < (chunks (heard script)).length + Link.dumpPatience := by
  have hk : Link.dumpPatience = 1000 := rfl
  have hsilent : ∀ i, (chunks (heard script)).length ≤ i → Silent (chunk script i) := by
    intro i hi
    rw [Silent, chunk_behind hi]
    rfl
  by_contra hlt
  obtain ⟨-, hw | ⟨m, hd⟩⟩ := h.continues.1
  · refine hw.patient ((chunks (heard script)).length + Link.dumpPatience) (by omega) ⟨by omega, fun i hi hn => ?_⟩
    exact hsilent i (by omega)
  · have hm : m < (chunks (heard script)).length := by
      by_contra hm
      exact (hsilent m (by omega)).not_marked hd.marked
    exact hd.trailing _ hm (by omega) (hsilent _ (Nat.le_refl _))

end Ends

/-! ## Where the loops end -/

namespace Link

variable {K : Type} [Scalar K]

/-- The samples in the first `n` chunks. -/
def samplesIn (script : List ReadEvent) (n : Nat) : List (K × K) :=
  (firstChunks script n).filterMap fun c => sample? (rowText c)

/-- How waiting for the marker ends in chunk `n`, and with what. -/
inductive Collected (index before : Nat) (script : List ReadEvent) (n : Nat) :
    Except (LinkError K) (List (K × K)) → Prop
  | failed {f : Fault} : (chunk script n).findSome? ReadEvent.failure? = some f →
      Collected index before script n (.error (.io f))
  | exhausted : (chunk script n).findSome? ReadEvent.failure? = none → Exhausted before (chunk script) (n + 1) →
      Collected index before script n (.error (.logIncomplete index))
  | marked : (chunk script n).findSome? ReadEvent.failure? = none → Marked (chunk script n) →
      Collected index before script n (.ok (samplesIn script n))

section Loops

variable {script left : List ReadEvent} {index before before' n : Nat} {line : List UInt8}

theorem silent_of_read (h : readLine script = (.ok line, left)) : Silent (chunk script 0) ↔ line = [] := by
  rw [Silent, (chunkBytes_ok (takes_of_read h).1).2]

theorem marked_of_read (h : readLine script = (.ok line, left)) :
    Marked (chunk script 0) ↔ holds endMarker (decode line).toList = true := by
  rw [Marked, rowText, (chunkBytes_ok (takes_of_read h).1).2]

theorem samplesIn_succ (h : readLine script = (.ok line, left)) :
    samplesIn (K := K) script (n + 1) = (sample? (decode line)).toList ++ samplesIn left n := by
  have hline : rowText (chunk script 0) = decode line := by
    rw [rowText, (chunkBytes_ok (takes_of_read h).1).2]
  have hleft : ∀ i, chunk left i = chunk script (i + 1) := congrFun (chunk_of_read h)
  unfold samplesIn
  rw [firstChunks_left hleft, List.filterMap_cons, hline]
  cases sample? (K := K) (decode line) <;> rfl

/-- What a line in front of it that does not end the wait adds. -/
theorem Collected.succ {r : Except (LinkError K) (List (K × K))} (h : readLine script = (.ok line, left))
    (hex : ∀ i, Exhausted before (chunk script) (i + 1) ↔ Exhausted before' (fun i => chunk script (i + 1)) i)
    (hr : Collected index before' left n r) :
    Collected index before script (n + 1) (r.map ((sample? (decode line)).toList ++ ·)) := by
  have hleft := chunk_of_read h
  cases hr with
  | failed hf =>
    rw [hleft] at hf
    exact .failed hf
  | exhausted hf hx =>
    rw [hleft] at hf hx
    exact .exhausted hf ((hex _).mpr hx)
  | marked hf hm =>
    rw [hleft] at hf hm
    rw [Except.map, ← samplesIn_succ h]
    exact .marked hf hm

/-- Waiting for the marker ends in chunk `n` with `r`, and what is taken by then leaves `left`. -/
structure Waited (index before : Nat) (script : List ReadEvent) (n : Nat)
    (r : Except (LinkError K) (List (K × K)) × List ReadEvent) : Prop where
  waits : Waits before (chunk script) n
  unfailing : Unfailing (chunk script) n
  collected : Collected index before script n r.1
  takes : Takes script (n + 1) r.2

/-- The first chunk ends the wait. -/
theorem Waited.zero {r : Except (LinkError K) (List (K × K))} {read : Except Fault (List UInt8)}
    (hb : before < dumpPatience) (h : readLine script = (read, left)) (hr : Collected index before script 0 r) :
    Waited index before script 0 (r, left) :=
  ⟨waits_zero hb, fun i hi => absurd hi (Nat.not_lt_zero i), hr, (takes_of_read h).2⟩

/-- The first chunk goes in front of what the wait behind it comes to. -/
theorem Waited.succ {r : Except (LinkError K) (List (K × K)) × List ReadEvent} (hb : before < dumpPatience)
    (h : readLine script = (.ok line, left)) (hm : ¬ Marked (chunk script 0))
    (hex : ∀ i, Exhausted before (chunk script) (i + 1) ↔ Exhausted before' (fun i => chunk script (i + 1)) i)
    (hr : Waited index before' left n r) :
    Waited index before script (n + 1) (r.1.map ((sample? (decode line)).toList ++ ·), r.2) := by
  have hwaits := hr.waits
  rw [chunk_of_read h] at hwaits
  exact ⟨hwaits.succ hb hm hex, unfailing_succ h hr.unfailing, hr.collected.succ h hex, takes_succ h hr.takes⟩

theorem collectSamples_stops (hb : before < dumpPatience) :
    ∃ n, Waited index before script n (collectSamples (K := K) index before script) := by
  fun_induction collectSamples (K := K) index before script with
  | case1 before script f left hread =>
    exact ⟨0, .zero hb hread (.failed (chunkBytes_error (takes_of_read hread).1))⟩
  | case2 before script left hread hk ih =>
    have hs : Silent (chunk script 0) := (silent_of_read hread).mpr rfl
    obtain ⟨n, hn⟩ := ih hk
    have hnext := hn.succ hb hread hs.not_marked fun i => exhausted_succ hs
    have hnone : sample? (K := K) (decode []) = none := by
      rw [decode_nil]
      rfl
    rw [hnone] at hnext
    refine ⟨n + 1, ?_⟩
    rcases hrest : collectSamples (K := K) index (before + 1) left with ⟨_ | samples, rest⟩
    · rw [hrest] at hnext
      exact hnext
    · rw [hrest] at hnext
      exact hnext
  | case3 before script left hread hk =>
    have hs : Silent (chunk script 0) := (silent_of_read hread).mpr rfl
    refine ⟨0, .zero hb hread (.exhausted (chunkBytes_ok (takes_of_read hread).1).1 ⟨by omega, fun i hi _ => ?_⟩)⟩
    obtain rfl : i = 0 := by omega
    exact hs
  | case4 before script b line left hread text hmarker =>
    exact ⟨0, .zero hb hread (.marked (chunkBytes_ok (takes_of_read hread).1).1 ((marked_of_read hread).mpr hmarker))⟩
  | case5 before script b line left hread text hmarker more rest hmore ih =>
    have hs : ¬ Silent (chunk script 0) := fun hs => List.cons_ne_nil b line ((silent_of_read hread).mp hs)
    obtain ⟨n, hn⟩ := ih (by decide)
    rw [hmore] at hn
    exact ⟨n + 1, hn.succ hb hread (fun hm => hmarker ((marked_of_read hread).mp hm)) fun i => exhausted_succ_anew hs⟩
  | case6 before script b line left hread text hmarker more rest hmore ih =>
    have hs : ¬ Silent (chunk script 0) := fun hs => List.cons_ne_nil b line ((silent_of_read hread).mp hs)
    obtain ⟨n, hn⟩ := ih (by decide)
    rw [hmore] at hn
    exact ⟨n + 1, hn.succ hb hread (fun hm => hmarker ((marked_of_read hread).mp hm)) fun i => exhausted_succ_anew hs⟩

/-- Behind the marker reading ends with the first silent chunk, or with a failure. -/
theorem drain_stops (script : List ReadEvent) :
    ∃ n, Unfailing (chunk script) n ∧ (∀ i < n, ¬ Silent (chunk script i)) ∧ Takes script (n + 1) (drain script).2 ∧
      ((∃ f, (drain script).1 = .error f ∧ (chunk script n).findSome? ReadEvent.failure? = some f) ∨
        ((drain script).1 = .ok () ∧ (chunk script n).findSome? ReadEvent.failure? = none ∧
          Silent (chunk script n))) := by
  fun_induction drain script with
  | case1 script f left hread =>
    obtain ⟨hline, htakes⟩ := takes_of_read hread
    exact ⟨0, fun i hi => absurd hi (Nat.not_lt_zero i), fun i hi => absurd hi (Nat.not_lt_zero i), htakes,
      .inl ⟨f, rfl, chunkBytes_error hline⟩⟩
  | case2 script left hread =>
    obtain ⟨hline, htakes⟩ := takes_of_read hread
    exact ⟨0, fun i hi => absurd hi (Nat.not_lt_zero i), fun i hi => absurd hi (Nat.not_lt_zero i), htakes,
      .inr ⟨rfl, chunkBytes_ok hline⟩⟩
  | case3 script b line left hread ih =>
    obtain ⟨n, hu, hloud, htakes, hend⟩ := ih
    rw [chunk_of_read hread] at hloud hend
    refine ⟨n + 1, unfailing_succ hread hu, fun i hi => ?_, takes_succ hread htakes, hend⟩
    cases i with
    | zero => exact fun hs => List.cons_ne_nil b line ((silent_of_read hread).mp hs)
    | succ i => exact hloud i (by omega)

end Loops

/-! ## The answer -/

/-- What a dump that ends this way answers. -/
def answerAt (index : Nat) (script : List ReadEvent) : Ending → Except (LinkError K) (List (K × K))
  | .failed f => .error (.io f)
  | .exhausted => .error (.logIncomplete index)
  | .closed m => .ok (samplesIn script m)

section Answer

variable {script : List ReadEvent} {index : Nat}

theorem dumpSamples_stops (index : Nat) (script : List ReadEvent) :
    ∃ n d, Stops (chunk script) n d ∧ (dumpSamples (K := K) index script).1 = answerAt index script d ∧
      Takes script (n + 1) (dumpSamples (K := K) index script).2 := by
  have hcollects : ∃ m, Waited index 0 script m (collectSamples (K := K) index 0 script) :=
    collectSamples_stops (by decide)
  obtain ⟨m, hm⟩ := hcollects
  unfold dumpSamples
  rcases hcollect : collectSamples (K := K) index 0 script with ⟨r, left⟩
  rw [hcollect] at hm
  cases hm.collected with
  | failed hf => exact ⟨m, .failed _, .failed hm.unfailing hf (.inl hm.waits), rfl, hm.takes⟩
  | exhausted hf hx => exact ⟨m, .exhausted, .exhausted (hm.unfailing.succ hf) hm.waits hx, rfl, hm.takes⟩
  | marked hf hmark =>
    have hu : Unfailing (chunk script) (m + 1) := hm.unfailing.succ hf
    have hleft : ∀ i, chunk left i = chunk script (m + 1 + i) := hm.takes.next hu
    obtain ⟨n, hun, hloud, htakes, hend⟩ := drain_stops left
    have hall : Unfailing (chunk script) (m + 1 + n) := by
      rw [funext hleft] at hun
      exact hu.append hun
    have hdrains : Drains (chunk script) m (m + 1 + n) := by
      refine ⟨hm.waits, hmark, by omega, fun i hi hn => ?_⟩
      have hi' := hloud (i - (m + 1)) (by omega)
      rwa [hleft, Nat.add_sub_cancel' hi] at hi'
    have htaken : Takes script (m + 1 + n + 1) (drain left).2 := hm.takes.trans hu htakes
    rw [hleft] at hend
    dsimp only
    rcases hdrain : drain left with ⟨r, left'⟩
    rw [hdrain] at hend htaken
    rcases hend with ⟨f, hr, hf⟩ | ⟨hr, hf, hs⟩
    · cases hr
      exact ⟨m + 1 + n, .failed f, .failed hall hf (.inr ⟨m, hdrains⟩), rfl, htaken⟩
    · cases hr
      exact ⟨m + 1 + n, .closed m, .closed (hall.succ hf) hdrains hs, rfl, htaken⟩

/-- A dump ends as it has to, and then the answer is this one. -/
theorem dumpSamples_of_stops {n : Nat} {d : Ending} (h : Stops (chunk script) n d) :
    (dumpSamples (K := K) index script).1 = answerAt index script d := by
  obtain ⟨n', d', h', hr, -⟩ := dumpSamples_stops (K := K) index script
  rw [hr, (h'.unique h).2]

end Answer

/-- A row is a sample if its first words are a `>`, a time other than zero and a number. -/
theorem sample?_eq_some_iff {text : String} {sample : K × K} : sample? text = some sample ↔
    ∃ time value more t v, words text = ">" :: time :: value :: more ∧ readInt? time = some t ∧ t ≠ 0 ∧
      Numeral.read? value = some v ∧ sample = (Scalar.ofInt t / 1000000.0, Scalar.ofNumeral v) := by
  constructor
  · intro h
    unfold sample? at h
    split at h
    · rename_i time value more hwords
      obtain ⟨t, ht, h⟩ := Option.bind_eq_some_iff.mp h
      obtain ⟨v, hv, h⟩ := Option.bind_eq_some_iff.mp h
      split at h
      · cases h
      · rename_i hzero
        cases h
        exact ⟨time, value, more, t, v, hwords, ht, hzero, hv, rfl⟩
    · cases h
  · rintro ⟨time, value, more, t, v, hwords, ht, hzero, hv, rfl⟩
    simp only [sample?, hwords, ht, hv, Option.bind_eq_bind, Option.bind_some, if_neg hzero]

/-- A dump whose command could be sent is what the samples are in the script, whatever was written before. -/
theorem samplesOf_sent {s : Session K} {index : Nat}
    (hsent : ((send ("log dump " ++ toString index) : BenchM K Unit) s).1 = .ok ()) :
    samplesOf (K := K) index s = (dumpSamples index s.port.incoming).1 ∧
      ((logDump index : BenchM K (List (K × K))) s).2.port.incoming =
        (dumpSamples (K := K) index s.port.incoming).2 := by
  have hincoming := send_incoming ("log dump " ++ toString index) s
  rcases hsend : (send ("log dump " ++ toString index) : BenchM K Unit) s with ⟨r, t⟩
  rw [hsend] at hsent hincoming
  obtain rfl : r = .ok () := hsent
  rw [samplesOf, logDump_sent hsend, ← hincoming]
  refine ⟨rfl, ?_⟩
  cases (dumpSamples (K := K) index t.port.incoming).1 <;> rfl

/-- If its command could be sent, a dump answers with samples exactly if the end marker comes before a thousand
silent chunks in a row, and no read fails up to the first silent chunk behind it. Then the samples are those of all
rows in front of the marker. If not, the answer is that the dump is incomplete, or the failure of a read. In any
case reading ends with the chunk that decides, within a thousand chunks behind the script. -/
theorem dump_answered {s : Session K} {index : Nat}
    (hsent : ((send ("log dump " ++ toString index) : BenchM K Unit) s).1 = .ok ()) :
    let script := s.port.incoming
    let cs := chunk script
    (∀ samples : List (K × K), samplesOf index s = .ok samples ↔
      ∃ m n, Drains cs m n ∧ Silent (cs n) ∧ Unfailing cs (n + 1) ∧
        samples = (firstChunks script m).filterMap fun c => sample? (rowText c)) ∧
    (∀ e : LinkError K, samplesOf index s = .error e ↔
      (e = .logIncomplete index ∧ ∃ n, Waits 0 cs n ∧ Exhausted 0 cs (n + 1) ∧ Unfailing cs (n + 1)) ∨
      ∃ f n, e = .io f ∧ (Waits 0 cs n ∨ ∃ m, Drains cs m n) ∧ Unfailing cs n ∧
        (cs n).findSome? ReadEvent.failure? = some f) ∧
    (∃ n d, Stops cs n d ∧ n < (chunks (heard script)).length + dumpPatience ∧
      Takes script (n + 1) ((logDump index : BenchM K (List (K × K))) s).2.port.incoming) ∧
    ∀ (c : List ReadEvent) (sample : K × K), sample? (rowText c) = some sample ↔
      ∃ time value more t v, words (rowText c) = ">" :: time :: value :: more ∧ readInt? time = some t ∧ t ≠ 0 ∧
        Numeral.read? value = some v ∧ sample = (Scalar.ofInt t / 1000000.0, Scalar.ofNumeral v) := by
  intro script cs
  obtain ⟨hanswer, hleft⟩ := samplesOf_sent hsent
  obtain ⟨n, d, hstops, hend, htakes⟩ := dumpSamples_stops (K := K) index script
  refine ⟨fun samples => ⟨fun h => ?_, ?_⟩, fun e => ⟨fun h => ?_, ?_⟩, ⟨n, d, hstops, hstops.bound, ?_⟩,
    fun c sample => sample?_eq_some_iff⟩
  · rw [hanswer, hend] at h
    cases hstops with
    | failed => cases h
    | exhausted => cases h
    | @closed m hu hd hs => exact ⟨m, n, hd, hs, hu, (Except.ok.inj h).symm⟩
  · rintro ⟨m, n, hd, hs, hu, rfl⟩
    rw [hanswer]
    exact dumpSamples_of_stops (.closed hu hd hs)
  · rw [hanswer, hend] at h
    cases hstops with
    | @failed f hu hf hw => exact .inr ⟨f, n, (Except.error.inj h).symm, hw, hu, hf⟩
    | exhausted hu hw hx => exact .inl ⟨(Except.error.inj h).symm, n, hw, hx, hu⟩
    | closed => cases h
  · rintro (⟨rfl, n, hw, hx, hu⟩ | ⟨f, n, rfl, hw, hu, hf⟩)
    · rw [hanswer]
      exact dumpSamples_of_stops (.exhausted hu hw hx)
    · rw [hanswer]
      exact dumpSamples_of_stops (.failed hu hf hw)
  · rw [hleft]
    exact htakes

/-- Silence, a blank row, a row at time zero, one that is none, and a row behind the marker. -/
def cluttered : Session Float :=
  bringing (.empty :: bytes "\r\n" ++ late :: bytes "> 0 1.0\r\n> 100 2.5\r\nrow\r\n-------END-------\r\n> 200 3.5\r\n")

/-- There is one sample in it. -/
theorem dump_answered_cluttered :
    ((send ("log dump " ++ toString 0) : BenchM Float Unit) cluttered).1 = .ok () ∧
      samplesOf 0 cluttered = .ok [(Scalar.ofInt 100 / 1000000.0, Scalar.ofNumeral (.finite false 25 (-1)))] := by
  have hsent : ((send ("log dump " ++ toString 0) : BenchM Float Unit) cluttered).1 = .ok () := by
    obtain ⟨t, hrun, -⟩ := send_sound ("log dump " ++ toString 0) (bringing_sound cluttered.port.incoming)
    exact congrArg Prod.fst hrun
  obtain ⟨hok, -⟩ := dump_answered hsent
  have hpatience : dumpPatience = 1000 := rfl
  have hwaits : Waits 0 (chunk cluttered.port.incoming) 6 :=
    ⟨by decide +kernel, fun i hi => not_exhausted (by omega)⟩
  have hloud : ∀ i, 6 < i → i < 8 → ¬ Silent (chunk cluttered.port.incoming i) := by
    intro i hi hn
    obtain rfl : i = 7 := by omega
    decide +kernel
  have hrows : (firstChunks cluttered.port.incoming 6).map rowText =
      ["", "\r\n", "", "> 0 1.0\r\n", "> 100 2.5\r\n", "row\r\n"] := by decide +kernel
  have hsamples : (firstChunks cluttered.port.incoming 6).filterMap (fun c => sample? (rowText c)) =
      [((Scalar.ofInt 100 / 1000000.0, Scalar.ofNumeral (.finite false 25 (-1))) : Float × Float)] := by
    have hmap : ((firstChunks cluttered.port.incoming 6).map rowText).filterMap (sample? (K := Float)) =
        (firstChunks cluttered.port.incoming 6).filterMap fun c => sample? (rowText c) := List.filterMap_map
    rw [hrows] at hmap
    exact hmap.symm
  exact ⟨hsent, (hok _).mpr ⟨6, 8, ⟨hwaits, by decide +kernel, by decide, hloud⟩, by decide +kernel, by decide +kernel,
    hsamples.symm⟩⟩

end Link

end MagneticBearing.Bench
