/-
  MagneticBearing.Proofs.TextLines — what the words and the lines of a text are.

  Both come from cutting a text into pieces. A piece ends at the first character to cut at, and the cutting goes on
  behind that (`split_at_cut`); a text without one is a piece (`split_of_no_cut`).

  - `spaced_words`: the words are the longest runs without a blank; there is none if all is blank
    (`wordLists_eq_nil`).
  - `lined_lines`: the lines are what stands in front of each end of a line, and the rest if there is any.
-/

import MagneticBearing.Proofs.Selection
import MagneticBearing.Text.Blank

namespace MagneticBearing.Text

/-! ## Pieces -/

theorem split_of_no_cut {cut : Char → Bool} {cs : List Char} (h : ∀ c ∈ cs, cut c = false) : split cut cs = [cs] := by
  induction cs with
  | nil => rfl
  | cons c cs ih =>
    have hc : cut c = false := h c List.mem_cons_self
    have hrest := ih fun c hc => h c (List.mem_cons_of_mem _ hc)
    simp [split, hc, hrest]

theorem split_at_cut {cut : Char → Bool} {front : List Char} {c : Char} (rest : List Char)
    (h : ∀ c ∈ front, cut c = false) (hc : cut c = true) :
    split cut (front ++ c :: rest) = front :: split cut rest := by
  induction front with
  | nil => simp [split, hc]
  | cons d front ih =>
    have hd : cut d = false := h d List.mem_cons_self
    have hrest := ih fun c hc => h c (List.mem_cons_of_mem _ hc)
    simp [split, hd, hrest]

theorem split_ne_nil (cut : Char → Bool) (cs : List Char) : split cut cs ≠ [] := by
  cases cs with
  | nil => simp [split]
  | cons c cs =>
    rw [split]
    split
    · simp
    · split
      · simp
      · simp

/-! ## Words -/

/-- The words are the longest runs of characters that are not blank. -/
inductive Spaced : List Char → List String → Prop
  | blank {gap : List Char} : gap.all isBlank = true → Spaced gap []
  | word {gap word rest : List Char} {ws : List String} : gap.all isBlank = true → word ≠ [] →
      (∀ c ∈ word, isBlank c = false) → (∀ c ∈ rest.head?, isBlank c = true) → Spaced rest ws →
      Spaced (gap ++ (word ++ rest)) (String.ofList word :: ws)

theorem Spaced.behind_blank {c : Char} {cs : List Char} {ws : List String} (hc : isBlank c = true) (h : Spaced cs ws) :
    Spaced (c :: cs) ws := by
  cases h with
  | blank hgap => exact .blank (by simp [hc, hgap])
  | @word gap word rest ws hgap hne hword hrest h =>
    have hlonger : (c :: gap).all isBlank = true := by simp [hc, hgap]
    exact .word hlonger hne hword hrest h

theorem spaced_wordLists (cs : List Char) : Spaced cs ((wordLists cs).map String.ofList) := by
  have hempty : ([] : List Char).all isBlank = true := rfl
  rcases forall_or_first (isBlank · = false) cs with hall | ⟨front, c, rest, rfl, hfront, hc⟩
  · rw [wordLists, split_of_no_cut hall]
    cases cs with
    | nil => exact .blank rfl
    | cons d ds =>
      have hword := Spaced.word hempty (List.cons_ne_nil d ds) hall (by simp) (.blank hempty)
      simpa using hword
  · have hblank : isBlank c = true := by simpa using hc
    have hrest := (spaced_wordLists rest).behind_blank hblank
    rw [wordLists, split_at_cut rest hfront hblank]
    cases front with
    | nil => exact hrest
    | cons d ds => exact Spaced.word hempty (List.cons_ne_nil d ds) hfront (by simpa using hblank) hrest
termination_by cs.length

theorem spaced_words (s : String) : Spaced s.toList (words s) := spaced_wordLists s.toList

theorem wordLists_eq_nil (cs : List Char) : wordLists cs = [] ↔ cs.all isBlank = true := by
  unfold wordLists
  induction cs with
  | nil => simp [split]
  | cons c cs ih =>
    by_cases hc : isBlank c = true
    · simpa [split, hc] using ih
    · cases hs : split isBlank cs with
      | nil => simp [split, hc, hs]
      | cons piece pieces => simp [split, hc, hs]

/-! ## Lines -/

/-- A line ends at a line feed, or at a carriage return with a line feed behind it; what follows the last end is a line
if there is any. -/
inductive Lined : List Char → List String → Prop
  | none : Lined [] []
  | last {line : List Char} : line ≠ [] → '\n' ∉ line → Lined line [String.ofList line]
  | feed {line rest : List Char} {ls : List String} : '\n' ∉ line → line.getLast? ≠ some '\r' → Lined rest ls →
      Lined (line ++ '\n' :: rest) (String.ofList line :: ls)
  | returnFeed {line rest : List Char} {ls : List String} : '\n' ∉ line → Lined rest ls →
      Lined (line ++ '\r' :: '\n' :: rest) (String.ofList line :: ls)

theorem lined_lineLists (cs : List Char) : Lined cs ((lineLists (split (· == '\n') cs)).map String.ofList) := by
  rcases forall_or_first (· ≠ '\n') cs with hall | ⟨front, c, rest, rfl, hfront, hc⟩
  · have hnone : ∀ c ∈ cs, (c == '\n') = false := fun c hc => by simpa using hall c hc
    rw [split_of_no_cut hnone]
    cases cs with
    | nil => exact .none
    | cons d ds => exact .last (List.cons_ne_nil d ds) fun hmem => hall _ hmem rfl
  · obtain rfl : c = '\n' := by simpa using hc
    have hnone : ∀ c ∈ front, (c == '\n') = false := fun c hc => by simpa using hfront c hc
    have hfeed : '\n' ∉ front := fun hmem => hfront _ hmem rfl
    have ih := lined_lineLists rest
    rw [split_at_cut rest hnone rfl]
    have hlines : lineLists (front :: split (· == '\n') rest) =
        dropReturn front :: lineLists (split (· == '\n') rest) := by
      cases hs : split (· == '\n') rest with
      | nil => exact absurd hs (split_ne_nil _ rest)
      | cons piece pieces => rfl
    rw [hlines, List.map_cons, dropReturn]
    by_cases hreturn : front.getLast? = some '\r'
    · have hend : front.dropLast ++ ['\r'] = front := List.dropLast_append_getLast? _ hreturn
      have hshort : '\n' ∉ front.dropLast := fun hmem => hfeed (List.mem_of_mem_dropLast hmem)
      have hline := Lined.returnFeed hshort ih
      rw [List.append_cons, hend] at hline
      rw [if_pos hreturn]
      exact hline
    · rw [if_neg hreturn]
      exact .feed hfeed hreturn ih
termination_by cs.length

theorem lined_lines (s : String) : Lined s.toList (lines s) := lined_lineLists s.toList

end MagneticBearing.Text
