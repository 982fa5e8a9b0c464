/-
  MagneticBearing.Proofs.Candidates — which space vectors a request answers with.

  Seeds are the completed roots and the linear solution (`completions_mem`). Each is polished; it
  enters the list if it yields the force and nothing there is close to it. So what is listed comes
  from a seed and yields the force (`distinct_mem`), and whatever a seed is polished to and yields
  the force is listed up to the tolerance (`distinct_covers`).

  A request is answered by one formulation, the preferred one or the real part after it
  (`solve_ok`). It fails only for a negative magnitude or because the root finder does
  (`solve_error`).
-/

import MagneticBearing.Allocation
import MagneticBearing.Proofs.Newton

namespace MagneticBearing

namespace ForceLaw

section Seeds

variable {K : Type} [Scalar K] {law : ForceLaw K} {form : Formulation} {fy : K} {roots : List K}

theorem completions_of_some {root : K} {s : SpaceVector K} (h : law.pair form fy root = some s) :
    law.completions form fy (root :: roots) = (law.completions form fy roots).map (s :: ·) := by
  simp only [completions, h]

/-- A root that cannot be completed ends the one formulation and is left out of the other. -/
theorem completions_of_none {root : K} (h : law.pair form fy root = none) :
    law.completions form fy (root :: roots) =
      match form with
      | .imaginaryFirst => none
      | .realFirst => law.completions .realFirst fy roots := by
  cases form with
  | imaginaryFirst => simp only [completions, h]
  | realFirst => simp only [completions, h]

/-- The seeds are the completed roots, in the order of the roots. -/
theorem eq_filterMap_of_completions {seeds : List (SpaceVector K)} (h : law.completions form fy roots = some seeds) :
    seeds = roots.filterMap (law.pair form fy) := by
  induction roots generalizing seeds with
  | nil =>
    cases h
    rfl
  | cons root roots ih =>
    cases hp : law.pair form fy root with
    | some t =>
      rw [completions_of_some hp] at h
      obtain ⟨rest, hrest, rfl⟩ := Option.map_eq_some_iff.mp h
      rw [List.filterMap_cons_some hp, ih hrest]
    | none =>
      rw [completions_of_none hp] at h
      cases form with
      | imaginaryFirst => cases h
      | realFirst => rw [List.filterMap_cons_none hp, ih h]

theorem completions_mem {seeds : List (SpaceVector K)} (h : law.completions form fy roots = some seeds)
    (s : SpaceVector K) : s ∈ seeds ↔ ∃ root ∈ roots, law.pair form fy root = some s := by
  rw [eq_filterMap_of_completions h, List.mem_filterMap]

/-- The real part first always answers. -/
theorem completions_realFirst (law : ForceLaw K) (fy : K) (roots : List K) :
    ∃ seeds, law.completions .realFirst fy roots = some seeds := by
  induction roots with
  | nil => exact ⟨[], rfl⟩
  | cons root roots ih =>
    obtain ⟨seeds, h⟩ := ih
    cases hp : law.pair .realFirst fy root with
    | some t => exact ⟨t :: seeds, by rw [completions_of_some hp, h]; rfl⟩
    | none => exact ⟨seeds, by rw [completions_of_none hp]; exact h⟩

/-- The imaginary part first answers only if it can complete every root. -/
theorem completions_imaginaryFirst {seeds : List (SpaceVector K)}
    (h : law.completions .imaginaryFirst fy roots = some seeds) :
    ∀ root ∈ roots, ∃ s, law.pair .imaginaryFirst fy root = some s := by
  induction roots generalizing seeds with
  | nil => simp
  | cons root roots ih =>
    cases hp : law.pair .imaginaryFirst fy root with
    | some t =>
      rw [completions_of_some hp] at h
      obtain ⟨rest, hrest, -⟩ := Option.map_eq_some_iff.mp h
      intro r hr
      rcases List.mem_cons.mp hr with rfl | hr
      · exact ⟨t, hp⟩
      · exact ih hrest r hr
    | none =>
      rw [completions_of_none hp] at h
      cases h

end Seeds

section Merge

variable {K : Type} [Scalar K] {law : ForceLaw K} {target seed k : Cx K} {known : List (SpaceVector K)}

theorem distinct_concat (law : ForceLaw K) (target : Cx K) (seeds : List (Cx K)) (seed : Cx K) :
    law.distinct target (seeds ++ [seed]) = law.keep target (law.distinct target seeds) seed := by
  simp only [distinct, List.foldl_append, List.foldl_cons, List.foldl_nil]

/-- A polished seed misses the force, is close to something known, or is new. -/
theorem keep_cases (law : ForceLaw K) (target seed : Cx K) (known : List (SpaceVector K)) :
    (law.reproduces (law.refine seed target) target = false ∧ law.keep target known seed = known) ∨
    ((∃ k ∈ known, close k (law.refine seed target) = true) ∧ law.keep target known seed = known) ∨
    (law.reproduces (law.refine seed target) target = true ∧
      (∀ k ∈ known, close k (law.refine seed target) = false) ∧
      law.keep target known seed = known ++ [law.refine seed target]) := by
  cases hr : law.reproduces (law.refine seed target) target with
  | false => exact .inl ⟨rfl, by simp [keep, hr]⟩
  | true =>
    cases hc : known.any fun k => close k (law.refine seed target) with
    | true => exact .inr (.inl ⟨List.any_eq_true.mp hc, by simp only [keep, hr, hc]; rfl⟩)
    | false =>
      refine .inr (.inr ⟨rfl, fun k hk => ?_, by simp only [keep, hr, hc]; rfl⟩)
      exact Bool.eq_false_iff.mpr (List.any_eq_false.mp hc k hk)

theorem keep_mono (h : k ∈ known) : k ∈ law.keep target known seed := by
  rcases keep_cases law target seed known with ⟨-, he⟩ | ⟨-, he⟩ | ⟨-, -, he⟩
  · rwa [he]
  · rwa [he]
  · rw [he]
    exact List.mem_append_left _ h

theorem keep_mem (h : k ∈ law.keep target known seed) :
    k ∈ known ∨ k = law.refine seed target ∧ law.reproduces k target = true := by
  rcases keep_cases law target seed known with ⟨-, he⟩ | ⟨-, he⟩ | ⟨hr, -, he⟩
  · exact .inl (he ▸ h)
  · exact .inl (he ▸ h)
  · rw [he] at h
    rcases List.mem_append.mp h with h | h
    · exact .inl h
    · obtain rfl := List.mem_singleton.mp h
      exact .inr ⟨rfl, hr⟩

variable (known) in
theorem keep_covers (hr : law.reproduces (law.refine seed target) target = true) :
    ∃ k ∈ law.keep target known seed, k = law.refine seed target ∨ close k (law.refine seed target) = true := by
  rcases keep_cases law target seed known with ⟨hm, -⟩ | ⟨⟨k, hk, hc⟩, he⟩ | ⟨-, -, he⟩
  · rw [hr] at hm
    cases hm
  · rw [he]
    exact ⟨k, hk, .inr hc⟩
  · rw [he]
    exact ⟨_, List.mem_append_right _ (List.mem_singleton_self _), .inl rfl⟩

theorem foldl_keep_mono (seeds : List (Cx K)) (h : k ∈ known) : k ∈ seeds.foldl (law.keep target) known := by
  induction seeds generalizing known with
  | nil => exact h
  | cons seed seeds ih => exact ih (keep_mono h)

theorem foldl_keep_mem (seeds : List (Cx K)) (h : k ∈ seeds.foldl (law.keep target) known) :
    k ∈ known ∨ ∃ seed ∈ seeds, k = law.refine seed target ∧ law.reproduces k target = true := by
  induction seeds generalizing known with
  | nil => exact .inl h
  | cons seed seeds ih =>
    rcases ih h with h | ⟨t, ht, hk⟩
    · rcases keep_mem h with h | hk
      · exact .inl h
      · exact .inr ⟨seed, List.mem_cons_self, hk⟩
    · exact .inr ⟨t, List.mem_cons_of_mem _ ht, hk⟩

/-- What is listed is a polished seed and yields the force. -/
theorem distinct_mem {seeds : List (Cx K)} (h : k ∈ law.distinct target seeds) :
    ∃ seed ∈ seeds, k = law.refine seed target ∧ law.reproduces k target = true :=
  (foldl_keep_mem seeds h).resolve_left (by simp)

/-- A polished seed that yields the force is listed, or something close to it is. -/
theorem distinct_covers {seeds : List (Cx K)} (hs : seed ∈ seeds)
    (hr : law.reproduces (law.refine seed target) target = true) :
    ∃ k ∈ law.distinct target seeds, k = law.refine seed target ∨ close k (law.refine seed target) = true := by
  unfold distinct
  obtain ⟨before, after, rfl⟩ := List.append_of_mem hs
  rw [List.foldl_append, List.foldl_cons]
  obtain ⟨k, hk, hc⟩ := keep_covers (before.foldl (law.keep target) []) hr
  exact ⟨k, foldl_keep_mono after hk, hc⟩

/-- A last seed that ends close to what is listed adds nothing. -/
theorem distinct_concat_of_close {seeds : List (Cx K)} (hk : k ∈ law.distinct target seeds)
    (hc : close k (law.refine seed target) = true) : law.distinct target (seeds ++ [seed]) = law.distinct target seeds := by
  rw [distinct_concat]
  rcases keep_cases law target seed (law.distinct target seeds) with ⟨-, he⟩ | ⟨-, he⟩ | ⟨-, hnone, -⟩
  · exact he
  · exact he
  · rw [hnone k hk] at hc
    cases hc

theorem candidatesFrom_eq {form : Formulation} {roots : List K} {list : List (SpaceVector K)}
    (hl : law.candidatesFrom form target roots = some list) :
    ∃ seeds, law.completions form target.im roots = some seeds ∧
      list = law.distinct target (seeds ++ [Cx.divReal target law.linear]) := by
  obtain ⟨seeds, hs, rfl⟩ := Option.map_eq_some_iff.mp hl
  exact ⟨seeds, hs, rfl⟩

theorem candidatesFrom_reproduces {form : Formulation} {roots : List K} {list : List (SpaceVector K)}
    (hl : law.candidatesFrom form target roots = some list) : ∀ k ∈ list, law.reproduces k target = true := by
  obtain ⟨seeds, -, rfl⟩ := candidatesFrom_eq hl
  intro k hk
  obtain ⟨-, -, -, h⟩ := distinct_mem hk
  exact h

end Merge

variable {law : ForceLaw ℝ} {form : Formulation} {target s t : Cx ℝ} {roots : List ℝ}

theorem close_iff : close s t = true ↔
    ‖s.toComplex - t.toComplex‖ ≤ 1 / 10 ^ 9 * max ‖s.toComplex‖ ‖t.toComplex‖ := by
  have hl (x y : ℝ) : Arith.larger x y = max x y := by
    unfold Arith.larger
    rw [max_def]
    split
    · rfl
    · exact if_pos ((Exact.beq_iff x x).mpr rfl)
  simp only [close, tolerance_eq, Cx.norm_eq, Cx.toComplex_sub, hl]
  exact decide_eq_true_iff

theorem close_self (s : SpaceVector ℝ) : close s s = true := by
  rw [close_iff, sub_self, norm_zero, max_self]
  positivity

/-- What is close to `t` is hardly longer. -/
theorem norm_le_of_close (h : close s t = true) : ‖s.toComplex‖ ≤ 6 / 5 * ‖t.toComplex‖ := by
  have hd := close_iff.mp h
  have htri : ‖s.toComplex‖ ≤ ‖t.toComplex‖ + ‖s.toComplex - t.toComplex‖ := norm_le_norm_add_norm_sub' _ _
  rcases le_total ‖s.toComplex‖ ‖t.toComplex‖ with hst | hts
  · linarith [norm_nonneg t.toComplex]
  · rw [max_eq_left hts] at hd
    linarith [norm_nonneg t.toComplex]

/-- A seed that is a solution already is listed, up to the tolerance. -/
theorem distinct_covers_solution {seeds : List (SpaceVector ℝ)} (ha : 0 < law.quadratic) (hb : 0 < law.linear)
    (hs : s ∈ seeds) (h : law.ofVector s = target) : ∃ k ∈ law.distinct target seeds, close k s = true := by
  have hfix : law.refine s target = s := refineFrom_exact h refineSteps
  have hr : law.reproduces (law.refine s target) target = true := by
    rw [hfix]
    exact reproduces_of_eq ha.le hb.le h
  obtain ⟨k, hk, hc⟩ := distinct_covers hs hr
  rw [hfix] at hc
  rcases hc with rfl | hc
  · exact ⟨_, hk, close_self _⟩
  · exact ⟨k, hk, hc⟩

variable {list : List (SpaceVector ℝ)} (hl : law.candidatesFrom form target roots = some list)

include hl

/-- A solution is among the candidates if its coordinate is among the roots and can be completed. -/
theorem candidatesFrom_covers (ha : 0 < law.quadratic) (hb : 0 < law.linear) (h : law.ofVector s = target)
    (hroot : form.coordinate s ∈ roots) (hg : ¬ law.Guarded form (form.coordinate s)) :
    ∃ k ∈ list, close k s = true := by
  obtain ⟨seeds, hs, rfl⟩ := candidatesFrom_eq hl
  have hseed : s ∈ seeds := by
    rw [completions_mem hs]
    exact ⟨_, hroot, pair_coordinate ha.ne' h hg⟩
  exact distinct_covers_solution ha hb (List.mem_append_left _ hseed) h

/-- The polished linear solution is among the candidates if it yields the force. -/
theorem candidatesFrom_linear
    (hr : law.reproduces (law.refine (Cx.divReal target law.linear) target) target = true) :
    ∃ k ∈ list, close k (law.refine (Cx.divReal target law.linear) target) = true := by
  obtain ⟨seeds, -, rfl⟩ := candidatesFrom_eq hl
  obtain ⟨k, hk, h | h⟩ := distinct_covers (List.mem_append_right seeds (List.mem_singleton_self _)) hr
  · exact ⟨k, hk, by rw [h]; exact close_self _⟩
  · exact ⟨k, hk, h⟩

end ForceLaw

namespace Allocator

section Numbers

variable {K : Type} [Scalar K] {a : Allocator K} {form : Formulation}

theorem solveWith_ok {target : Cx K} {found : Option (List (SpaceVector K))} (h : a.solveWith form target = .ok found) :
    ∃ roots, Quartic.realRoots a.find (a.bearing.law.quartic form target.re target.im) = .ok roots ∧
      found = a.bearing.law.candidatesFrom form target roots := by
  simp only [solveWith] at h
  split at h
  · cases h
  · cases h
    exact ⟨_, ‹_›, rfl⟩

/-- Over any numbers a candidate is the zero vector or passed the check against the force. -/
theorem solve_mem {direction magnitude : K} {sols : Solutions K} (h : a.solve direction magnitude = .ok sols) :
    ∀ s ∈ sols.vectors, s = Cx.zero ∨ a.bearing.law.reproduces s (target direction magnitude) = true := by
  have hfound {form : Formulation} {vectors : List (SpaceVector K)}
      (hw : a.solveWith form (target direction magnitude) = .ok (some vectors)) :
      ∀ s ∈ vectors, s = Cx.zero ∨ a.bearing.law.reproduces s (target direction magnitude) = true := by
    obtain ⟨roots, -, hc⟩ := solveWith_ok hw
    exact fun s hs => .inr (ForceLaw.candidatesFrom_reproduces hc.symm s hs)
  unfold solve at h
  cases hr : checkRequest direction magnitude with
  | error e =>
    rw [hr] at h
    cases h
  | ok u =>
    simp only [hr, bind, Except.bind] at h
    split at h
    · cases h
      exact fun s hs => .inl (List.mem_singleton.mp hs)
    · split at h
      · cases h
      · rename_i found hw
        cases found with
        | some vectors =>
          cases h
          exact hfound hw
        | none =>
          simp only at h
          split at h
          · cases h
          · rename_i found hw'
            cases h
            cases found with
            | some vectors => exact hfound hw'
            | none => exact fun s hs => absurd hs List.not_mem_nil

end Numbers

variable {a : Allocator ℝ} {form : Formulation} {direction magnitude : ℝ}

/-- The request's target as a complex number has the requested magnitude. -/
theorem norm_target (hm : 0 ≤ magnitude) : ‖(target direction magnitude).toComplex‖ = magnitude := by
  have h : target direction magnitude = Cx.ofPolar magnitude (Direction.toRadians (Direction.wrap direction)) := rfl
  rw [h, Cx.toComplex_ofPolar, norm_mul, Complex.norm_exp_ofReal_mul_I, mul_one, Complex.norm_real,
    Real.norm_of_nonneg hm]

theorem checkRequest_eq (direction magnitude : ℝ) : checkRequest direction magnitude =
    if 0 ≤ magnitude then .ok () else .error (.invalidParameter .magnitude magnitude) := by
  have hf : ∀ x : ℝ, Arith.finite x = true := fun _ => rfl
  simp only [checkRequest, hf, Exact.zero_eq, Bool.not_true, Bool.false_eq_true, if_false, Bool.true_and]
  by_cases h : 0 ≤ magnitude
  · simp [h]
  · simp [h]

theorem solveWith_error {target : Cx ℝ} {e : AllocationError ℝ} (h : a.solveWith form target = .error e) :
    ∃ c, e = .degenerateAuxiliary c := by
  simp only [solveWith] at h
  split at h
  · cases h
    exact ⟨_, rfl⟩
  · cases h

theorem solve_eq (a : Allocator ℝ) (direction magnitude : ℝ) : a.solve direction magnitude =
    if 0 ≤ magnitude then
      if magnitude = 0 then .ok ⟨.forDirection direction, [Cx.zero]⟩
      else
        match a.solveWith (.forDirection direction) (target direction magnitude) with
        | .error e => .error e
        | .ok (some vectors) => .ok ⟨.forDirection direction, vectors⟩
        | .ok none =>
          match a.solveWith .realFirst (target direction magnitude) with
          | .error e => .error e
          | .ok found => .ok ⟨.realFirst, found.getD []⟩
    else .error (.invalidParameter .magnitude magnitude) := by
  unfold solve
  rw [checkRequest_eq]
  by_cases hm : 0 ≤ magnitude
  · rw [if_pos hm, if_pos hm]
    simp only [Exact.beq_zero_iff]
    by_cases hz : magnitude = 0
    · rw [if_pos hz]
      subst hz
      simp
    · rw [if_neg hz]
      rw [if_neg hz]
      cases h1 : a.solveWith (.forDirection direction) (target direction magnitude) with
      | error e => rfl
      | ok found =>
        cases found with
        | some vectors => rfl
        | none => cases h2 : a.solveWith .realFirst (target direction magnitude) <;> rfl
  · rw [if_neg hm, if_neg hm]
    rfl

/-- No force is answered by the zero vector, any other by the candidates of one formulation. -/
theorem solve_ok {sols : Solutions ℝ} (h : a.solve direction magnitude = .ok sols) :
    magnitude = 0 ∧ sols = ⟨.forDirection direction, [Cx.zero]⟩ ∨
      0 < magnitude ∧ (sols.formulation = .forDirection direction ∨ sols.formulation = .realFirst) ∧
        ∃ roots, Quartic.realRoots a.find (a.bearing.law.quartic sols.formulation
            (target direction magnitude).re (target direction magnitude).im) = .ok roots ∧
          a.bearing.law.candidatesFrom sols.formulation (target direction magnitude) roots = some sols.vectors := by
  rw [solve_eq] at h
  split at h
  · rename_i hm
    split at h
    · rename_i hz
      cases h
      exact .inl ⟨hz, rfl⟩
    · rename_i hz
      have hpos : 0 < magnitude := lt_of_le_of_ne hm (Ne.symm hz)
      refine .inr ⟨hpos, ?_⟩
      split at h
      · cases h
      · rename_i hs
        cases h
        obtain ⟨roots, hr, hv⟩ := solveWith_ok hs
        exact ⟨.inl rfl, roots, hr, hv.symm⟩
      · split at h
        · cases h
        · rename_i found hs
          cases h
          obtain ⟨roots, hr, rfl⟩ := solveWith_ok hs
          obtain ⟨seeds, hseeds⟩ := ForceLaw.completions_realFirst a.bearing.law (target direction magnitude).im roots
          refine ⟨.inr rfl, roots, hr, ?_⟩
          simp only [ForceLaw.candidatesFrom, hseeds, Option.map_some, Option.getD_some]
  · cases h

/-- A request is refused, or its quartic has no roots to offer. -/
theorem solve_error {e : AllocationError ℝ} (h : a.solve direction magnitude = .error e) :
    e = .invalidParameter .magnitude magnitude ∨ ∃ c, e = .degenerateAuxiliary c := by
  rw [solve_eq] at h
  split at h
  · split at h
    · cases h
    · split at h
      · rename_i hs
        cases h
        exact .inr (solveWith_error hs)
      · cases h
      · split at h
        · rename_i hs
          cases h
          exact .inr (solveWith_error hs)
        · cases h
  · cases h
    exact .inl rfl

/-- A root finder that always answers makes every request answered. -/
theorem solve_isOk (hfind : ∀ c, ∃ roots, Quartic.realRoots a.find c = .ok roots) (direction : ℝ)
    (hm : 0 ≤ magnitude) : ∃ sols, a.solve direction magnitude = .ok sols := by
  have hwith (form : Formulation) (f : Cx ℝ) : ∃ found, a.solveWith form f = .ok found := by
    obtain ⟨roots, hr⟩ := hfind (a.bearing.law.quartic form f.re f.im)
    simp only [solveWith, hr]
    exact ⟨_, rfl⟩
  rw [solve_eq, if_pos hm]
  split
  · exact ⟨_, rfl⟩
  · obtain ⟨found, h1⟩ := hwith (.forDirection direction) (target direction magnitude)
    rw [h1]
    cases found with
    | some vectors => exact ⟨_, rfl⟩
    | none =>
      obtain ⟨found, h2⟩ := hwith .realFirst (target direction magnitude)
      rw [h2]
      exact ⟨_, rfl⟩

/-- Every candidate yields the requested force, up to the tolerance. -/
theorem solve_reproduces {sols : Solutions ℝ} (h : a.solve direction magnitude = .ok sols) :
    ∀ s ∈ sols.vectors, a.bearing.law.reproduces s (target direction magnitude) = true := by
  intro s hs
  rcases solve_ok h with ⟨rfl, rfl⟩ | ⟨-, -, roots, -, hc⟩
  · obtain rfl := List.mem_singleton.mp hs
    have ht : (target direction 0).toComplex = 0 := norm_eq_zero.mp (norm_target (le_refl 0))
    rw [ForceLaw.reproduces_iff, ForceLaw.miss, ForceLaw.onPlane_eq, Cx.toComplex_zero, ht]
    simp
  · exact ForceLaw.candidatesFrom_reproduces hc s hs

end Allocator

end MagneticBearing
