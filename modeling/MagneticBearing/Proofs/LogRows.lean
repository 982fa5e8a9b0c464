/-
  MagneticBearing.Proofs.LogRows — which logs are averaged, and what is wrong with the others.

  The rows of a log are the lines behind its header that hold more than blanks before a comment, each with its
  number in the whole text (`rows`). A row is readable if it has seven words and numbers stand in the last six
  (`Readable`). Any other row has a defect (`readable_or_defect`): its count of words, or with seven words
  the leftmost that should be a number and is none (`Defect`). Which words a line has, and which lines a text,
  is said by `spaced_words` and `lined_lines`.

  Reading a line gives nothing, its loads or its defect (`readRow_blank`, `readRow_readable`,
  `readRow_defect`). Blank lines drop out (`readRows_blank`), so the reading of all lines goes through the rows
  in order and stops at the first defect (`readRows_readable`, `readRows_defect`), and the sums of a readable
  log are taken column by column (`sums_columns`).

  - `average_ok_iff`: the means of the columns, where there are rows and all are readable.
  - `average_error_iff`: the first defect, or that there are no rows.
  - `average_reads_rows`: both, and that the header has no part in it.
-/

import MagneticBearing.Proofs.TextLines
import MagneticBearing.SensorLog

namespace MagneticBearing.SensorLog

open MagneticBearing.Number (Numeral)
open MagneticBearing.Text

variable {K : Type} [Scalar K]

/-! ## Rows, words and columns -/

/-- Nothing but blanks stands in front of a comment. -/
def blank (line : String) : Bool := (line.toList.takeWhile (· != '#')).all isBlank

/-- The lines with a number above the header's that are not blank, each with its number. -/
def rows (text : String) (header : Nat) : List (String × Nat) :=
  ((lines text).zipIdx 1).filter fun row => decide (header < row.2) && !blank row.1

/-- The number that word `k` of a line is; words count from one. -/
def number? (line : String) (k : Nat) : Option Numeral := (tokens line)[k - 1]?.bind Numeral.read?

structure Readable (line : String) : Prop where
  words : (tokens line).length = 7
  numbers : ∀ k, 2 ≤ k → k ≤ 7 → (number? line k).isSome

inductive Defect (row : String × Nat) : LogError → Prop
  | count : (tokens row.1).length ≠ 7 → Defect row (.columnCount row.2 7 (tokens row.1).length)
  | word {k : Nat} {token : String} : (tokens row.1).length = 7 → 2 ≤ k → k ≤ 7 →
      (tokens row.1)[k - 1]? = some token → Numeral.read? token = none →
      (∀ j, 2 ≤ j → j < k → (number? row.1 j).isSome) → Defect row (.notNumber row.2 token)

/-- Word `k` of a line in the numbers of the library; a readable line never falls back to zero. -/
def value (line : String) (k : Nat) : K := (number? line k).elim 0.0 Scalar.ofNumeral

def column (text : String) (header k : Nat) : List K := (rows text header).map fun row => value row.1 k

/-- The sum, taken from the first number to the last, over their count. -/
def mean (xs : List K) : K := xs.foldl (· + ·) 0.0 / Scalar.ofInt xs.length

theorem mean_exact (xs : List ℝ) : mean xs = xs.sum / xs.length := by
  have hsum : xs.foldl (· + ·) (0.0 : ℝ) = xs.sum := by
    rw [Exact.zero_eq, List.sum_eq_foldl]
  show xs.foldl (· + ·) (0.0 : ℝ) / ((xs.length : ℤ) : ℝ) = _
  rw [hsum, Int.cast_natCast]

theorem spaced_tokens (line : String) : Spaced (line.toList.takeWhile (· != '#')) (tokens line) := by
  have hwords := spaced_words (String.ofList (line.toList.takeWhile (· != '#')))
  rw [String.toList_ofList] at hwords
  exact hwords

theorem tokens_eq_nil (line : String) : tokens line = [] ↔ blank line = true := by
  simp only [tokens, words, List.map_eq_nil_iff, String.toList_ofList]
  exact wordLists_eq_nil _

/-- The lines behind the header are those with a number above it. -/
theorem filter_behind (keep : String → Bool) (header : Nat) (ls : List String) (n : Nat) :
    (ls.zipIdx n).filter (fun row => decide (n + header ≤ row.2) && keep row.1) =
      ((ls.zipIdx n).drop header).filter fun row => keep row.1 := by
  induction header generalizing ls n with
  | zero =>
    apply List.filter_congr
    intro row hrow
    have hle : n ≤ row.2 := List.le_snd_of_mem_zipIdx hrow
    simp [hle]
  | succ header ih =>
    cases ls with
    | nil => rfl
    | cons line ls =>
      have hfirst : ¬ n + 1 + header ≤ n := by omega
      have hshift : n + (header + 1) = n + 1 + header := by omega
      rw [List.zipIdx_cons, List.drop_succ_cons, ← ih ls (n + 1), hshift]
      simp [hfirst]

theorem rows_eq (text : String) (header : Nat) :
    rows text header = (((lines text).zipIdx 1).drop header).filter fun row => !blank row.1 := by
  rw [← filter_behind (fun line => !blank line) header (lines text) 1]
  simp only [rows, Nat.lt_iff_add_one_le, Nat.add_comm 1]

theorem not_blank_of_mem {text : String} {header : Nat} {row : String × Nat} (h : row ∈ rows text header) :
    blank row.1 = false := by
  have hkept := (List.mem_filter.mp h).2
  simp only [Bool.and_eq_true, Bool.not_eq_true'] at hkept
  exact hkept.2

/-! ## One line -/

theorem readLoads_numbers {n : Nat} {ts : List String} (h : ∀ t ∈ ts, (Numeral.read? t).isSome) :
    readLoads n ts =
      (.ok (ts.map fun t => (Numeral.read? t).elim 0.0 Scalar.ofNumeral) : Except LogError (List K)) := by
  induction ts with
  | nil => rfl
  | cons t ts ih =>
    obtain ⟨x, hx⟩ := Option.isSome_iff_exists.mp (h t List.mem_cons_self)
    have hrest := ih fun t ht => h t (List.mem_cons_of_mem _ ht)
    simp [readLoads, hx, hrest, Except.map]

theorem readLoads_stops {n : Nat} {before : List String} {token : String} (after : List String)
    (h : ∀ t ∈ before, (Numeral.read? t).isSome) (hbad : Numeral.read? token = none) :
    readLoads n (before ++ token :: after) = (.error (.notNumber n token) : Except LogError (List K)) := by
  induction before with
  | nil => simp [readLoads, hbad]
  | cons t ts ih =>
    obtain ⟨x, hx⟩ := Option.isSome_iff_exists.mp (h t List.mem_cons_self)
    have hrest := ih fun t ht => h t (List.mem_cons_of_mem _ ht)
    simp [readLoads, hx, hrest, Except.map]

/-- The loads of a line are its words from the second on. -/
theorem number?_cons {line time : String} {loads : List String} (h : tokens line = time :: loads) (i : Nat) :
    number? line (i + 2) = loads[i]?.bind Numeral.read? := by
  simp [number?, h]

theorem readable_or_defect (row : String × Nat) : Readable row.1 ∨ ∃ e, Defect row e := by
  by_cases hlength : (tokens row.1).length = 7
  · by_cases hall : ∀ k, 2 ≤ k → k ≤ 7 → (number? row.1 k).isSome
    · exact .inl ⟨hlength, hall⟩
    · right
      have hex : ∃ k, 2 ≤ k ∧ k ≤ 7 ∧ ¬ (number? row.1 k).isSome := by
        simp only [not_forall] at hall
        obtain ⟨k, h2, h7, hk⟩ := hall
        exact ⟨k, h2, h7, hk⟩
      classical
      -- The leftmost word that is no number.
      obtain ⟨h2, h7, hbad⟩ := Nat.find_spec hex
      have hbefore : ∀ j, 2 ≤ j → j < Nat.find hex → (number? row.1 j).isSome := by
        intro j hj hlt
        by_contra hnone
        exact Nat.find_min hex hlt ⟨hj, by omega, hnone⟩
      have hlt : Nat.find hex - 1 < (tokens row.1).length := by omega
      have hget := List.getElem?_eq_getElem hlt
      have hnone : number? row.1 (Nat.find hex) = none := by simpa using hbad
      rw [number?, hget, Option.bind_some] at hnone
      exact ⟨_, .word hlength h2 h7 hget hnone hbefore⟩
  · exact .inr ⟨_, .count hlength⟩

theorem readRow_blank {line : String} (n : Nat) (h : blank line = true) :
    readRow n line = (.ok none : Except LogError (Option (List K))) := by
  simp [readRow, (tokens_eq_nil line).mpr h]

theorem readRow_cons {line time : String} {loads : List String} (n : Nat) (h : tokens line = time :: loads) :
    readRow n line = (if (tokens line).length = 7 then (readLoads n loads).map some
      else .error (.columnCount n 7 (tokens line).length) : Except LogError (Option (List K))) := by
  simp only [readRow, h]
  rfl

theorem readRow_readable {line : String} (n : Nat) (h : Readable line) :
    readRow n line = (.ok (some ([2, 3, 4, 5, 6, 7].map (value line))) : Except LogError (Option (List K))) := by
  cases ht : tokens line with
  | nil => simpa [ht] using h.words
  | cons time loads =>
    have hlength : loads.length = 6 := by simpa [ht] using h.words
    have hnumbers : ∀ t ∈ loads, (Numeral.read? t).isSome := by
      intro t hmem
      obtain ⟨i, hi, rfl⟩ := List.getElem_of_mem hmem
      simpa [number?_cons ht, hi] using h.numbers (i + 2) (by omega) (by omega)
    have hloads : loads.map (fun t => (Numeral.read? t).elim 0.0 Scalar.ofNumeral) =
        ((List.range' 2 6).map (value line) : List K) := by
      apply List.ext_getElem
      · simp [hlength]
      · intro i hi _
        have hin : i < loads.length := by simpa using hi
        have hget : number? line (2 + i) = Numeral.read? loads[i] := by
          rw [Nat.add_comm, number?_cons ht, List.getElem?_eq_getElem hin, Option.bind_some]
        simp [value, hget]
    rw [readRow_cons n ht, if_pos h.words, readLoads_numbers hnumbers, hloads]
    rfl

theorem readRow_defect {row : String × Nat} {e : LogError} (hline : blank row.1 = false) (h : Defect row e) :
    readRow row.2 row.1 = (.error e : Except LogError (Option (List K))) := by
  cases ht : tokens row.1 with
  | nil =>
    rw [(tokens_eq_nil row.1).mp ht] at hline
    cases hline
  | cons time loads =>
    rw [readRow_cons row.2 ht]
    cases h with
    | count hlength => rw [if_neg hlength]
    | @word k token hlength h2 h7 hget hbad hbefore =>
      have hsix : loads.length = 6 := by simpa [ht] using hlength
      obtain ⟨i, rfl⟩ : ∃ i, k = i + 2 := ⟨k - 2, by omega⟩
      have hin : i < loads.length := by omega
      have htoken : loads[i] = token := by simpa [ht, hin] using hget
      have hfront : ∀ t ∈ loads.take i, (Numeral.read? t).isSome := by
        intro t hmem
        obtain ⟨j, hj, rfl⟩ := List.getElem_of_mem hmem
        have hji : j < i := by simp at hj; omega
        have hjl : j < loads.length := by omega
        simpa [number?_cons ht, hjl] using hbefore (j + 2) (by omega) (by omega)
      have hsplit : loads = loads.take i ++ token :: loads.drop (i + 1) := by
        rw [← htoken, List.cons_getElem_drop_succ, List.take_append_drop]
      rw [if_pos hlength, hsplit, readLoads_stops _ hfront hbad]
      rfl

/-! ## All lines -/

/-- Blank lines give no rows. -/
theorem readRows_blank (ls : List (String × Nat)) :
    readRows ls = (readRows (ls.filter fun row => !blank row.1) : Except LogError (List (List K))) := by
  induction ls with
  | nil => rfl
  | cons row ls ih =>
    obtain ⟨line, n⟩ := row
    cases hb : blank line with
    | true =>
      have hrow := readRow_blank (K := K) n hb
      have hdrop : ((line, n) :: ls).filter (fun row => !blank row.1) = ls.filter fun row => !blank row.1 :=
        List.filter_cons_of_neg (by simp [hb])
      simp only [readRows, hrow, hdrop, ih]
      cases readRows (K := K) (ls.filter fun row => !blank row.1) with
      | ok rs => rfl
      | error e => rfl
    | false => simp [readRows, hb, ih]

theorem readRows_readable {rs : List (String × Nat)} (h : ∀ row ∈ rs, Readable row.1) :
    readRows rs = (.ok (rs.map fun row => [2, 3, 4, 5, 6, 7].map (value row.1)) : Except LogError (List (List K))) := by
  induction rs with
  | nil => rfl
  | cons row rs ih =>
    have hrow := readRow_readable (K := K) row.2 (h row List.mem_cons_self)
    have hrest := ih fun r hr => h r (List.mem_cons_of_mem _ hr)
    simp only [readRows, hrow, hrest]
    rfl

theorem readRows_defect {before : List (String × Nat)} {row : String × Nat} {e : LogError}
    (after : List (String × Nat)) (h : ∀ r ∈ before, Readable r.1) (hline : blank row.1 = false)
    (hbad : Defect row e) :
    readRows (before ++ row :: after) = (.error e : Except LogError (List (List K))) := by
  induction before with
  | nil =>
    have hrow := readRow_defect (K := K) hline hbad
    simp only [List.nil_append, readRows, hrow]
  | cons r rs ih =>
    have hr := readRow_readable (K := K) r.2 (h r List.mem_cons_self)
    have hrest := ih fun r hr => h r (List.mem_cons_of_mem _ hr)
    simp only [List.cons_append, readRows, hr, hrest]
    rfl

/-- A list of rows is readable, or it has a first defect. -/
theorem readable_or_first_defect (rs : List (String × Nat)) :
    (∀ row ∈ rs, Readable row.1) ∨
      ∃ before row after e, rs = before ++ row :: after ∧ (∀ r ∈ before, Readable r.1) ∧ Defect row e := by
  rcases forall_or_first (fun row : String × Nat => Readable row.1) rs with
    hall | ⟨before, row, after, hrs, hbefore, hrow⟩
  · exact .inl hall
  · obtain ⟨e, hbad⟩ := (readable_or_defect row).resolve_left hrow
    exact .inr ⟨before, row, after, e, hrs, hbefore, hbad⟩

/-- Adding up rows adds up each of their columns. -/
theorem sums_columns {α ι : Type} (f : α → ι → K) (ks : List ι) (rs : List α) (g : ι → K) :
    (rs.map fun r => ks.map (f r)).foldl addLoads (ks.map g) =
      ks.map fun k => (rs.map fun r => f r k).foldl (· + ·) (g k) := by
  induction rs generalizing g with
  | nil => rfl
  | cons r rs ih =>
    have hadd : addLoads (ks.map g) (ks.map (f r)) = ks.map fun k => g k + f r k := by
      simp [addLoads, List.zipWith_map, List.zipWith_self]
    simp only [List.map_cons, List.foldl_cons, hadd]
    exact ih fun k => g k + f r k

/-! ## The outcomes of a log -/

/-- The mean loads of rows that have been read. -/
def means (rs : List (List K)) : List K :=
  (rs.foldl addLoads (channels.map fun _ => 0.0)).map (· / Scalar.ofInt rs.length)

theorem means_columns (text : String) (header : Nat) :
    means ((rows text header).map fun row => [2, 3, 4, 5, 6, 7].map (value row.1)) =
      ([2, 3, 4, 5, 6, 7].map fun k => mean (column text header k) : List K) := by
  have hsums := sums_columns (K := K) (fun row k => value row.1 k) [2, 3, 4, 5, 6, 7] (rows text header) fun _ => 0.0
  have hzero : (channels.map fun _ => (0.0 : K)) = [2, 3, 4, 5, 6, 7].map fun _ => 0.0 := rfl
  rw [means, hzero, hsums, List.map_map]
  simp [mean, column]

theorem average_of_read {text : String} {header : Nat} {rs : List (List K)}
    (h : readRows (rows text header) = .ok rs) :
    average text header = if rs = [] then .error (.empty header) else .ok (means rs) := by
  rw [rows_eq, ← readRows_blank] at h
  simp only [average, h]
  cases rs with
  | nil => rfl
  | cons r rs => rfl

theorem average_of_empty {text : String} {header : Nat} (h : rows text header = []) :
    average text header = (.error (.empty header) : Except LogError (List K)) := by
  have hread : readRows (K := K) (rows text header) = .ok [] := by
    rw [h]
    rfl
  rw [average_of_read hread, if_pos rfl]

theorem average_of_readable {text : String} {header : Nat} (hne : rows text header ≠ [])
    (h : ∀ row ∈ rows text header, Readable row.1) :
    average text header = .ok ([2, 3, 4, 5, 6, 7].map fun k => mean (column text header k) : List K) := by
  rw [average_of_read (readRows_readable h), means_columns, if_neg (by simpa using hne)]

theorem average_of_defect {text : String} {header : Nat} {before after : List (String × Nat)} {row : String × Nat}
    {e : LogError} (hrows : rows text header = before ++ row :: after) (hbefore : ∀ r ∈ before, Readable r.1)
    (hbad : Defect row e) :
    average text header = (.error e : Except LogError (List K)) := by
  have hmem : row ∈ rows text header := by simp [hrows]
  have hread := readRows_defect (K := K) after hbefore (not_blank_of_mem hmem) hbad
  rw [← hrows, rows_eq, ← readRows_blank] at hread
  simp only [average, hread]
  rfl

/-- Nothing of the header matters but how many lines it has. -/
theorem average_behind {text other : String} {header : Nat} (h : (lines other).drop header = (lines text).drop header) :
    average other header = (average text header : Except LogError (List K)) := by
  have hnumbered : ∀ ls : List String, (ls.zipIdx 1).drop header = (ls.drop header).zipIdx (1 + header) := by
    intro ls
    apply List.ext_getElem?
    intro i
    simp [Nat.add_assoc]
  simp only [average, hnumbered, h]

theorem average_ok_iff (text : String) (header : Nat) (ms : List K) :
    average text header = .ok ms ↔
      rows text header ≠ [] ∧ (∀ row ∈ rows text header, Readable row.1) ∧
        ms = [2, 3, 4, 5, 6, 7].map fun k => mean (column text header k) := by
  constructor
  · intro h
    by_cases hnone : rows text header = []
    · rw [average_of_empty hnone] at h
      cases h
    · rcases readable_or_first_defect (rows text header) with hall | ⟨before, row, after, e, hrows, hbefore, hbad⟩
      · rw [average_of_readable hnone hall] at h
        cases h
        exact ⟨hnone, hall, rfl⟩
      · rw [average_of_defect hrows hbefore hbad] at h
        cases h
  · rintro ⟨hnone, hall, rfl⟩
    exact average_of_readable hnone hall

theorem average_error_iff (text : String) (header : Nat) (e : LogError) :
    average text header = (.error e : Except LogError (List K)) ↔
      (rows text header = [] ∧ e = .empty header) ∨
        ∃ before row after, rows text header = before ++ row :: after ∧ (∀ r ∈ before, Readable r.1) ∧
          Defect row e := by
  constructor
  · intro h
    by_cases hnone : rows text header = []
    · rw [average_of_empty hnone] at h
      cases h
      exact .inl ⟨hnone, rfl⟩
    · rcases readable_or_first_defect (rows text header) with hall | ⟨before, row, after, e', hrows, hbefore, hbad⟩
      · rw [average_of_readable hnone hall] at h
        cases h
      · rw [average_of_defect hrows hbefore hbad] at h
        cases h
        exact .inr ⟨before, row, after, hrows, hbefore, hbad⟩
  · rintro (⟨hnone, rfl⟩ | ⟨before, row, after, hrows, hbefore, hbad⟩)
    · exact average_of_empty hnone
    · exact average_of_defect hrows hbefore hbad

/-- A log is averaged exactly if it has rows and each has seven words, of which the last six are numbers; a mean is that
of a column over all rows. Otherwise the first row that is not so is reported, by its number in the whole text, or
that there are none. What the lines of the header say has no part in it. -/
theorem average_reads_rows (text : String) (header : Nat) :
    Lined text.toList (lines text) ∧
    (∀ line, Spaced (line.toList.takeWhile (· != '#')) (tokens line)) ∧
    (∀ ms : List K, average text header = .ok ms ↔
      rows text header ≠ [] ∧ (∀ row ∈ rows text header, Readable row.1) ∧ ms.length = 6 ∧
        channels.zip ms =
          [("My", mean (column text header 2)), ("Fz", mean (column text header 3)),
            ("Fx", mean (column text header 4)), ("Fy", mean (column text header 5)),
            ("Mx", mean (column text header 6)), ("Mz", mean (column text header 7))]) ∧
    (∀ k, mean (column text header k : List ℝ) = (column text header k).sum / (rows text header).length) ∧
    (∀ e, average text header = (.error e : Except LogError (List K)) ↔
      (rows text header = [] ∧ e = .empty header) ∨
        ∃ before row after, rows text header = before ++ row :: after ∧ (∀ r ∈ before, Readable r.1) ∧
          Defect row e) ∧
    (average text header = (.error (.empty header) : Except LogError (List K)) ↔ rows text header = []) ∧
    ∀ other, (lines other).drop header = (lines text).drop header →
      average other header = (average text header : Except LogError (List K)) := by
  refine ⟨lined_lines text, spaced_tokens, ?_, ?_, average_error_iff text header, ?_, fun other h => average_behind h⟩
  · intro ms
    rw [average_ok_iff]
    constructor
    · rintro ⟨hnone, hall, rfl⟩
      exact ⟨hnone, hall, rfl, rfl⟩
    · rintro ⟨hnone, hall, hlength, hzip⟩
      have hunzip := congrArg (List.map Prod.snd) hzip
      rw [List.map_snd_zip (by simp [channels, hlength])] at hunzip
      exact ⟨hnone, hall, hunzip⟩
  · intro k
    rw [mean_exact, column, List.length_map]
  · rw [average_error_iff]
    constructor
    · rintro (⟨hnone, -⟩ | ⟨before, row, after, -, -, hbad⟩)
      · exact hnone
      · cases hbad
    · intro hnone
      exact .inl ⟨hnone, rfl⟩

/-- Two rows with a comment and a blank line between them, under a header of either text. -/
theorem average_reads_rows_two :
    let text := "bench\n# seconds\n0.0 1 2 3 4 5 6 # first\n \nlast 3 4 5 6 7 8\n"
    let other := "rig\n# seconds\n0.0 1 2 3 4 5 6 # first\n \nlast 3 4 5 6 7 8\n"
    (lines other).drop 1 = (lines text).drop 1 ∧
      average text 1 = (.ok [2, 3, 4, 5, 6, 7] : Except LogError (List ℝ)) ∧
      average other 1 = (.ok [2, 3, 4, 5, 6, 7] : Except LogError (List ℝ)) := by
  intro text other
  obtain ⟨-, -, hok, hmean, -, -, hbehind⟩ := average_reads_rows (K := ℝ) text 1
  have hdrop : (lines other).drop 1 = (lines text).drop 1 := by decide +kernel
  have hrows : rows text 1 = [("0.0 1 2 3 4 5 6 # first", 3), ("last 3 4 5 6 7 8", 5)] := by decide +kernel
  have hfirst : Readable "0.0 1 2 3 4 5 6 # first" := ⟨by decide +kernel, by decide +kernel⟩
  have hlast : Readable "last 3 4 5 6 7 8" := ⟨by decide +kernel, by decide +kernel⟩
  have hcolumn : ∀ k, 2 ≤ k → k ≤ 7 →
      number? "0.0 1 2 3 4 5 6 # first" k = some (.finite false (k - 1) 0) ∧
        number? "last 3 4 5 6 7 8" k = some (.finite false (k + 1) 0) := by decide +kernel
  have hworth : ∀ m : ℕ, (Scalar.ofNumeral (.finite false m 0) : ℝ) = m := by
    intro m
    show Exact.worth _ = _
    simp [Exact.worth]
  have hmeans : ∀ k : ℕ, 2 ≤ k → k ≤ 7 → mean (column text 1 k : List ℝ) = k := by
    intro k h2 h7
    obtain ⟨hone, htwo⟩ := hcolumn k h2 h7
    have hpred : ((k - 1 : ℕ) : ℝ) = k - 1 := Nat.cast_pred (by omega)
    rw [hmean, hrows]
    simp [column, hrows, value, hone, htwo, hworth, hpred]
  have htext : average text 1 = (.ok [2, 3, 4, 5, 6, 7] : Except LogError (List ℝ)) := by
    refine (hok _).mpr ⟨by simp [hrows], by simp [hrows, hfirst, hlast], rfl, ?_⟩
    rw [hmeans 2, hmeans 3, hmeans 4, hmeans 5, hmeans 6, hmeans 7] <;> norm_num
    rfl
  exact ⟨hdrop, htext, (hbehind other hdrop).trans htext⟩

end MagneticBearing.SensorLog
