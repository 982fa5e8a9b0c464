/-
  MagneticBearing.Proofs.Selection — what the selections select.

  `leastBy` answers unless the list is empty (`leastBy_eq_none`), with one of the entries
  (`leastBy_mem`). Selecting among images is selecting by the key of the image (`leastBy_map`), and only
  the order of the keys counts (`leastBy_congr`).

  Over real keys the answer is the first of the smallest (`leastBy_first`): everything before it is
  larger, nothing after it is smaller. `greatestBy` answers with an entry that none exceeds
  (`greatestBy_mem`, `le_greatestBy`).

  Of entries that must all pass, all do or there is a first that does not (`forall_or_first`).
-/

import MagneticBearing.Proofs.Exact

namespace MagneticBearing

/-- All of a list passes, or there is a first that does not. -/
theorem forall_or_first {α : Type} (P : α → Prop) (xs : List α) :
    (∀ x ∈ xs, P x) ∨ ∃ before x after, xs = before ++ x :: after ∧ (∀ y ∈ before, P y) ∧ ¬ P x := by
  induction xs with
  | nil => exact .inl (by simp)
  | cons x xs ih =>
    by_cases hx : P x
    · rcases ih with hall | ⟨before, y, after, rfl, hbefore, hy⟩
      · exact .inl (List.forall_mem_cons.mpr ⟨hx, hall⟩)
      · exact .inr ⟨x :: before, y, after, rfl, List.forall_mem_cons.mpr ⟨hx, hbefore⟩, hy⟩
    · exact .inr ⟨[], x, xs, rfl, by simp, hx⟩

end MagneticBearing

namespace MagneticBearing.Scalar

section Keys

variable {K α β : Type} [Scalar K] {key key' : α → K}

theorem leastBy_eq_none {l : List α} : leastBy key l = none ↔ l = [] := by
  cases l <;> simp [leastBy]

theorem foldl_least_mem (key : α → K) (l : List α) (b : α) :
    l.foldl (fun best y => if notAfter (key best) (key y) then best else y) b ∈ b :: l := by
  induction l generalizing b with
  | nil => exact List.mem_cons_self
  | cons y l ih =>
    rw [List.foldl_cons]
    split
    · rcases List.mem_cons.mp (ih b) with h | h
      · rw [h]
        exact List.mem_cons_self
      · exact List.mem_cons_of_mem _ (List.mem_cons_of_mem _ h)
    · exact List.mem_cons_of_mem _ (ih y)

theorem leastBy_mem {l : List α} {m : α} (h : leastBy key l = some m) : m ∈ l := by
  cases l with
  | nil => cases h
  | cons b l =>
    cases h
    exact foldl_least_mem key l b

theorem leastBy_map (f : β → α) (l : List β) :
    leastBy key (l.map f) = (leastBy (fun x => key (f x)) l).map f := by
  have hfold (l : List β) (b : β) :
      (l.map f).foldl (fun best y => if notAfter (key best) (key y) then best else y) (f b) =
        f (l.foldl (fun best y => if notAfter (key (f best)) (key (f y)) then best else y) b) := by
    induction l generalizing b with
    | nil => rfl
    | cons y l ih =>
      rw [List.map_cons, List.foldl_cons, List.foldl_cons]
      split
      · exact ih b
      · exact ih y
  cases l with
  | nil => rfl
  | cons b l => exact congrArg some (hfold l b)

theorem leastBy_congr (h : ∀ x y, notAfter (key x) (key y) = notAfter (key' x) (key' y)) (l : List α) :
    leastBy key l = leastBy key' l := by
  simp only [leastBy, h]

end Keys

variable {α : Type} {key : α → ℝ}

/-- `m` is the first of the smallest entries. -/
def FirstLeast (key : α → ℝ) (l : List α) (m : α) : Prop :=
  ∃ before after, l = before ++ m :: after ∧ (∀ x ∈ before, key m < key x) ∧ ∀ x ∈ after, key m ≤ key x

theorem FirstLeast.mem {l : List α} {m : α} (h : FirstLeast key l m) : m ∈ l := by
  obtain ⟨before, after, rfl, -, -⟩ := h
  simp

theorem FirstLeast.le {l : List α} {m : α} (h : FirstLeast key l m) : ∀ x ∈ l, key m ≤ key x := by
  obtain ⟨before, after, rfl, hb, ha⟩ := h
  intro x hx
  rcases List.mem_append.mp hx with hx | hx
  · exact (hb x hx).le
  · rcases List.mem_cons.mp hx with rfl | hx
    · exact le_refl _
    · exact ha x hx

/-- One more entry in front, not smaller than the choice that stood before: the choice is kept. -/
theorem FirstLeast.behind {l : List α} {b y m : α} (h : FirstLeast key (b :: l) m) (hb : key b ≤ key y) :
    FirstLeast key (b :: y :: l) m := by
  obtain ⟨before, after, e, h1, h2⟩ := h
  cases before with
  | nil =>
    obtain ⟨rfl, rfl⟩ := List.cons.inj e
    refine ⟨[], y :: l, rfl, h1, fun x hx => ?_⟩
    rcases List.mem_cons.mp hx with rfl | hx
    · exact hb
    · exact h2 x hx
  | cons c before =>
    obtain ⟨rfl, rfl⟩ := List.cons.inj e
    refine ⟨b :: y :: before, after, rfl, fun x hx => ?_, h2⟩
    have hbm := h1 b (by simp)
    rcases List.mem_cons.mp hx with rfl | hx
    · exact hbm
    · rcases List.mem_cons.mp hx with rfl | hx
      · exact lt_of_lt_of_le hbm hb
      · exact h1 x (List.mem_cons_of_mem _ hx)

theorem FirstLeast.cons {l : List α} {b m : α} (h : FirstLeast key l m) (hb : key m < key b) :
    FirstLeast key (b :: l) m := by
  obtain ⟨before, after, rfl, h1, h2⟩ := h
  refine ⟨b :: before, after, rfl, fun x hx => ?_, h2⟩
  rcases List.mem_cons.mp hx with rfl | hx
  · exact hb
  · exact h1 x hx

theorem foldl_first (l : List α) (b : α) :
    FirstLeast key (b :: l) (l.foldl (fun best y => if notAfter (key best) (key y) then best else y) b) := by
  induction l generalizing b with
  | nil => exact ⟨[], [], rfl, by simp, by simp⟩
  | cons y l ih =>
    rw [List.foldl_cons]
    by_cases h : key b ≤ key y
    · have e : notAfter (key b) (key y) = true := decide_eq_true h
      rw [if_pos e]
      exact (ih b).behind h
    · have e : ¬ notAfter (key b) (key y) = true := by simpa [notAfter] using h
      rw [if_neg e]
      exact (ih y).cons (lt_of_le_of_lt ((ih y).le y (by simp)) (not_le.mp h))

theorem leastBy_first {l : List α} {m : α} (h : leastBy key l = some m) : FirstLeast key l m := by
  cases l with
  | nil => cases h
  | cons b l => cases h; exact foldl_first l b

theorem foldl_greatest (l : List α) (b : α) :
    let m := l.foldl (fun best y => if notAfter (key best) (key y) then y else best) b
    m ∈ b :: l ∧ ∀ x ∈ b :: l, key x ≤ key m := by
  induction l generalizing b with
  | nil => simp
  | cons y l ih =>
    rw [List.foldl_cons]
    by_cases h : key b ≤ key y
    · have e : notAfter (key b) (key y) = true := decide_eq_true h
      rw [if_pos e]
      obtain ⟨h1, h2⟩ := ih y
      refine ⟨List.mem_cons_of_mem _ h1, fun x hx => ?_⟩
      rcases List.mem_cons.mp hx with rfl | hx
      · exact le_trans h (h2 y (by simp))
      · exact h2 x hx
    · have e : ¬ notAfter (key b) (key y) = true := by simpa [notAfter] using h
      rw [if_neg e]
      obtain ⟨h1, h2⟩ := ih b
      refine ⟨?_, fun x hx => ?_⟩
      · rcases List.mem_cons.mp h1 with h1 | h1
        · rw [h1]; simp
        · exact List.mem_cons_of_mem _ (List.mem_cons_of_mem _ h1)
      · rcases List.mem_cons.mp hx with rfl | hx
        · exact h2 x (by simp)
        · rcases List.mem_cons.mp hx with rfl | hx
          · exact le_trans (not_le.mp h).le (h2 b (by simp))
          · exact h2 x (List.mem_cons_of_mem _ hx)

theorem greatestBy_mem {l : List α} {m : α} (h : greatestBy key l = some m) : m ∈ l := by
  cases l with
  | nil => cases h
  | cons b l => cases h; exact (foldl_greatest l b).1

theorem le_greatestBy {l : List α} {m : α} (h : greatestBy key l = some m) : ∀ x ∈ l, key x ≤ key m := by
  cases l with
  | nil => cases h
  | cons b l => cases h; exact (foldl_greatest l b).2

end MagneticBearing.Scalar
