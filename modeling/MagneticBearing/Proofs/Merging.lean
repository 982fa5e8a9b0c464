/-
  MagneticBearing.Proofs.Merging — what one formulation's list of candidates is to its seeds.

  Seeds are taken in turn, and each either leaves the list as it is or goes to its end
  (`keep_cases`). So the list as it was before a seed is a prefix of the final one
  (`distinct_extends`), and whatever holds of a list after each seed holds at the end: its members
  are polished seeds in the order of the seeds (`distinct_sublist`) and no two are close
  (`distinct_pairwise`). What became of a seed is decided when its turn comes
  (`distinct_accounts`). Nothing is asked of the roots, so nothing is asked of what found them.

  On doubles what is not close is farther apart than the tolerance: a vector that yields a force is
  finite, so that norms and distances compare (`reach_lt_of_not_close`).

  - `solveWith_accounts`: the list of a formulation, seed by seed; the formulation of the real part
    always has one, and where that of the imaginary part has none, a request is answered with it.
-/

import MagneticBearing.Proofs.Candidates
import MagneticBearing.Proofs.Directions
import MagneticBearing.Proofs.Norms

namespace MagneticBearing

open Running

namespace ForceLaw

variable {K : Type} [Scalar K] {law : ForceLaw K}

section Merge

variable (law) (target : Cx K)

theorem keep_extends (known : List (SpaceVector K)) (seed : Cx K) : known <+: law.keep target known seed := by
  rcases keep_cases law target seed known with ⟨-, he⟩ | ⟨-, he⟩ | ⟨-, -, he⟩
  · rw [he]
  · rw [he]
  · rw [he]
    exact List.prefix_append _ _

/-- Later seeds only add to the list. -/
theorem distinct_extends (before after : List (Cx K)) :
    law.distinct target before <+: law.distinct target (before ++ after) := by
  induction after using List.reverseRecOn with
  | nil => rw [List.append_nil]
  | append_singleton after seed ih =>
    rw [← List.append_assoc, distinct_concat]
    exact ih.trans (keep_extends law target _ seed)

/-- The list is some of the polished seeds, in the order of the seeds. -/
theorem distinct_sublist (seeds : List (Cx K)) :
    (law.distinct target seeds).Sublist (seeds.map fun seed => law.refine seed target) := by
  induction seeds using List.reverseRecOn with
  | nil => exact List.Sublist.slnil
  | append_singleton seeds seed ih =>
    rw [distinct_concat, List.map_append]
    rcases keep_cases law target seed (law.distinct target seeds) with ⟨-, he⟩ | ⟨-, he⟩ | ⟨-, -, he⟩
    · rw [he]
      exact ih.trans (List.sublist_append_left _ _)
    · rw [he]
      exact ih.trans (List.sublist_append_left _ _)
    · rw [he]
      exact ih.append (List.Sublist.refl _)

/-- No member is close to a later one. -/
theorem distinct_pairwise (seeds : List (Cx K)) :
    (law.distinct target seeds).Pairwise fun s t => close s t = false := by
  induction seeds using List.reverseRecOn with
  | nil => exact List.Pairwise.nil
  | append_singleton seeds seed ih =>
    rw [distinct_concat]
    rcases keep_cases law target seed (law.distinct target seeds) with ⟨-, he⟩ | ⟨-, he⟩ | ⟨-, hnew, he⟩
    · rwa [he]
    · rwa [he]
    · rw [he, List.pairwise_append]
      refine ⟨ih, List.pairwise_singleton _ _, fun k hk s hs => ?_⟩
      obtain rfl := List.mem_singleton.mp hs
      exact hnew k hk

/-- A seed is listed, or misses the force, or was close to what was listed when its turn came. -/
theorem distinct_accounts (seeds : List (Cx K)) (n : Nat) (hn : n < seeds.length) :
    law.refine seeds[n] target ∈ law.distinct target seeds ∨
      law.reproduces (law.refine seeds[n] target) target = false ∨
      ∃ k ∈ law.distinct target (seeds.take n), close k (law.refine seeds[n] target) = true := by
  rcases keep_cases law target seeds[n] (law.distinct target (seeds.take n)) with ⟨hm, -⟩ | ⟨hc, -⟩ | ⟨-, -, he⟩
  · exact .inr (.inl hm)
  · exact .inr (.inr hc)
  · have hturn : law.distinct target (seeds.take (n + 1)) =
        law.distinct target (seeds.take n) ++ [law.refine seeds[n] target] := by
      rw [List.take_succ_eq_append_getElem hn, distinct_concat, he]
    have hlater : law.distinct target (seeds.take (n + 1)) <+: law.distinct target seeds := by
      have h := distinct_extends law target (seeds.take (n + 1)) (seeds.drop (n + 1))
      rwa [List.take_append_drop] at h
    refine .inl (hlater.subset ?_)
    rw [hturn]
    exact List.mem_append_right _ (List.mem_singleton_self _)

end Merge

/-- The distance up to which `s` and `t` count as one. -/
def reach (s t : SpaceVector K) : K := tolerance * Arith.larger s.norm t.norm

theorem close_iff_reach {s t : SpaceVector K} : close s t = true ↔ (s - t).norm ≤ reach s t := decide_eq_true_iff

section Reach

variable {law : ForceLaw Float} {target : Cx Float} {s t : SpaceVector Float} (hs : law.reproduces s target = true)
  (ht : law.reproduces t target = true)

include hs ht

/-- Vectors that yield a force are finite, so their distance and their reach are numbers. -/
theorem isNumber_distance : IsNumber (s - t).norm ∧ IsNumber (reach s t) := by
  obtain ⟨hsre, hsim⟩ := isFinite_of_reproduces hs
  obtain ⟨htre, htim⟩ := isFinite_of_reproduces ht
  have hlarger : IsNumber (Arith.larger s.norm t.norm) := by
    have hns := Cx.isNumber_norm hsre.isNumber hsim.isNumber
    have hnt := Cx.isNumber_norm htre.isNumber htim.isNumber
    unfold Arith.larger
    split
    · exact hnt
    · split
      · exact hns
      · exact hnt
  have htolerance : IsFinite tolerance := finite_iff.mp (by decide +kernel)
  have hpos : (0.0 : Float) < tolerance := by decide +kernel
  rw [lt_iff_key isFinite_zero.isNumber htolerance.isNumber, key_zero] at hpos
  exact ⟨Cx.isNumber_norm (sub_key hsre.isNumber htre).1 (sub_key hsim.isNumber htim).1,
    isNumber_mul htolerance.isNumber hlarger (.inl htolerance) (.inr hpos.ne')⟩

theorem reach_lt_of_not_close (h : close s t = false) : reach s t < (s - t).norm := by
  obtain ⟨hdistance, hreach⟩ := isNumber_distance hs ht
  exact (not_le_iff hdistance hreach).mp fun hle => Bool.eq_false_iff.mp h (close_iff_reach.mpr hle)

end Reach

/-- The seeds of a list of roots: those that can be completed, and the linear solution last. -/
def seeds (law : ForceLaw K) (form : Formulation) (target : Cx K) (roots : List K) : List (Cx K) :=
  roots.filterMap (law.pair form target.im) ++ [Cx.divReal target law.linear]

theorem seeds_length_le (form : Formulation) (target : Cx K) (roots : List K) :
    (law.seeds form target roots).length ≤ roots.length + 1 := by
  rw [seeds, List.length_append, List.length_singleton]
  exact Nat.succ_le_succ (List.length_filterMap_le _ _)

theorem candidatesFrom_seeds {form : Formulation} {target : Cx K} {roots : List K} {list : List (SpaceVector K)}
    (h : law.candidatesFrom form target roots = some list) : list = law.distinct target (law.seeds form target roots) := by
  obtain ⟨completed, hc, rfl⟩ := candidatesFrom_eq h
  rw [seeds, eq_filterMap_of_completions hc]

theorem reproduces_of_distinct {target s : Cx K} {seeds : List (Cx K)} (h : s ∈ law.distinct target seeds) :
    law.reproduces s target = true := by
  obtain ⟨-, -, -, hr⟩ := distinct_mem h
  exact hr

/-- What a list of candidates is to the seeds it was made from. -/
structure Accounted (law : ForceLaw K) (target : Cx K) (seeds : List (Cx K)) (list : List (SpaceVector K)) : Prop where
  yields : ∀ s ∈ list, law.reproduces s target = true
  apart : list.Pairwise fun s t => reach s t < (s - t).norm
  /-- In the order of the seeds. -/
  polished : list.Sublist (seeds.map fun seed => law.refine seed target)
  /-- Each seed is listed, or misses the force, or is within reach of one that an earlier seed left. -/
  traced : ∀ (n : Nat) (hn : n < seeds.length),
    law.refine seeds[n] target ∈ list ∨
      law.reproduces (law.refine seeds[n] target) target = false ∨
      ∃ earlier, earlier <+: list ∧ earlier.Sublist ((seeds.take n).map fun seed => law.refine seed target) ∧
        ∃ k ∈ earlier, (k - law.refine seeds[n] target).norm ≤ reach k (law.refine seeds[n] target)

theorem distinct_accounted (law : ForceLaw Float) (target : Cx Float) (seeds : List (Cx Float)) :
    law.Accounted target seeds (law.distinct target seeds) where
  yields := fun s hs => reproduces_of_distinct hs
  apart := (distinct_pairwise law target seeds).imp_of_mem fun hs ht =>
    reach_lt_of_not_close (reproduces_of_distinct hs) (reproduces_of_distinct ht)
  polished := distinct_sublist law target seeds
  traced := by
    intro n hn
    rcases distinct_accounts law target seeds n hn with h | h | ⟨k, hk, hc⟩
    · exact .inl h
    · exact .inr (.inl h)
    · have hextends := distinct_extends law target (seeds.take n) (seeds.drop n)
      rw [List.take_append_drop] at hextends
      exact .inr (.inr ⟨_, hextends, distinct_sublist law target _, k, hk, close_iff_reach.mp hc⟩)

end ForceLaw

namespace Allocator

variable {K : Type} [Scalar K] (a : Allocator K)

theorem solveWith_realFirst (target : Cx K) : a.solveWith .realFirst target ≠ .ok none := by
  intro h
  obtain ⟨roots, -, hc⟩ := solveWith_ok h
  obtain ⟨seeds, hs⟩ := ForceLaw.completions_realFirst a.bearing.law target.im roots
  rw [ForceLaw.candidatesFrom, hs] at hc
  cases hc

/-- One root that cannot be completed leaves the formulation of the imaginary part without a list. -/
theorem solveWith_imaginaryFirst_none {target : Cx K} {roots : List K} {root : K}
    (hr : Quartic.realRoots a.find (a.bearing.law.quartic .imaginaryFirst target.re target.im) = .ok roots)
    (hmem : root ∈ roots) (hp : a.bearing.law.pair .imaginaryFirst target.im root = none) :
    a.solveWith .imaginaryFirst target = .ok none := by
  have hnone : a.bearing.law.completions .imaginaryFirst target.im roots = none := by
    rw [Option.eq_none_iff_forall_ne_some]
    intro seeds hs
    obtain ⟨s, hs⟩ := ForceLaw.completions_imaginaryFirst hs root hmem
    rw [hp] at hs
    cases hs
  simp only [solveWith, hr, ForceLaw.candidatesFrom, hnone, Option.map_none]

/-- So only a request whose imaginary part comes first is given up for the real part. -/
theorem singular_iff {direction magnitude : K} : a.singular direction magnitude = true ↔
    checkRequest direction magnitude = .ok () ∧ (magnitude == 0.0) = false ∧
      Formulation.forDirection direction = .imaginaryFirst ∧
      a.solveWith .imaginaryFirst (target direction magnitude) = .ok none := by
  unfold singular
  cases checkRequest direction magnitude with
  | error e => simp
  | ok _ =>
    cases magnitude == 0.0 with
    | true => simp
    | false =>
      cases Formulation.forDirection direction with
      | realFirst =>
        rcases h : a.solveWith .realFirst (target direction magnitude) with e | _ | vectors
        · simp
        · exact absurd h (a.solveWith_realFirst _)
        · simp
      | imaginaryFirst =>
        rcases a.solveWith .imaginaryFirst (target direction magnitude) with e | _ | vectors
        · simp
        · simp
        · simp

/-- With no list from the preferred formulation the request is the real part's. -/
theorem solve_of_none {direction magnitude : K} (hreq : checkRequest direction magnitude = .ok ())
    (hm : (magnitude == 0.0) = false)
    (hnone : a.solveWith (.forDirection direction) (target direction magnitude) = .ok none) :
    (∃ vectors, a.solveWith .realFirst (target direction magnitude) = .ok (some vectors) ∧
      a.solve direction magnitude = .ok ⟨.realFirst, vectors⟩) ∨
    ∃ e, a.solveWith .realFirst (target direction magnitude) = .error e ∧ a.solve direction magnitude = .error e := by
  unfold solve
  simp only [hreq, hm, hnone, bind, Except.bind, Bool.false_eq_true, if_false]
  cases h : a.solveWith .realFirst (target direction magnitude) with
  | error e => exact .inr ⟨e, rfl, rfl⟩
  | ok found =>
    cases found with
    | none => exact absurd h (a.solveWith_realFirst _)
    | some vectors => exact .inl ⟨vectors, rfl, rfl⟩

/-- Whatever finds the roots and whatever it finds, a formulation's list is accounted for seed by seed. That of
the real part always has a list; where a root leaves that of the imaginary part without one, a request is
answered, or refused, just as the real part is. -/
theorem solveWith_accounts (a : Allocator Float) :
    (∀ (form : Formulation) (target : Cx Float) (roots : List Float) (list : List (SpaceVector Float)),
      Quartic.realRoots a.find (a.bearing.law.quartic form target.re target.im) = .ok roots →
      a.solveWith form target = .ok (some list) →
        a.bearing.law.Accounted target (a.bearing.law.seeds form target roots) list ∧ list.length ≤ roots.length + 1) ∧
    (∀ target : Cx Float, a.solveWith .realFirst target ≠ .ok none) ∧
    ∀ (direction magnitude : Float) (roots : List Float),
      checkRequest direction magnitude = .ok () → (magnitude == 0.0) = false →
      Formulation.forDirection direction = .imaginaryFirst →
      Quartic.realRoots a.find (a.bearing.law.quartic .imaginaryFirst (target direction magnitude).re
        (target direction magnitude).im) = .ok roots →
      (∃ root ∈ roots, a.bearing.law.pair .imaginaryFirst (target direction magnitude).im root = none) →
        (∃ vectors, a.solveWith .realFirst (target direction magnitude) = .ok (some vectors) ∧
          a.solve direction magnitude = .ok ⟨.realFirst, vectors⟩) ∨
        ∃ e, a.solveWith .realFirst (target direction magnitude) = .error e ∧ a.solve direction magnitude = .error e := by
  refine ⟨?_, a.solveWith_realFirst, ?_⟩
  · intro form target roots list hr hl
    obtain ⟨roots', hr', hc⟩ := solveWith_ok hl
    obtain rfl : roots = roots' := Except.ok.inj (hr.symm.trans hr')
    obtain rfl := ForceLaw.candidatesFrom_seeds hc.symm
    have hacc := a.bearing.law.distinct_accounted target (a.bearing.law.seeds form target roots)
    refine ⟨hacc, ?_⟩
    have hlen := hacc.polished.length_le
    rw [List.length_map] at hlen
    exact hlen.trans (ForceLaw.seeds_length_le form target roots)
  · intro direction magnitude roots hreq hm hform hr ⟨root, hmem, hp⟩
    refine a.solve_of_none hreq hm ?_
    rw [hform]
    exact a.solveWith_imaginaryFirst_none hr hmem hp

/-- The law `conj(z)² + 2 z` with a finder that always answers zero. -/
def zeroRoot : Allocator Float := ⟨⟨⟨3.0, 2.0⟩, 1.0, 1.0, 0.0, fun _ => false⟩, fun _ => .ok [⟨0.0, 0.0⟩]⟩

/-- The linear solution of a force of 8 along the axis is 4. Both it and the root end at 2, which is listed once. -/
theorem zeroRoot_along_axis : ∃ s, zeroRoot.solveWith .realFirst ⟨8.0, 0.0⟩ = .ok (some [s]) ∧
    (s.re == 2.0 && s.im == 0.0) = true := by
  have h : (zeroRoot.solveWith .realFirst ⟨8.0, 0.0⟩).toOption.any (·.any fun list =>
      list.length == 1 && list.all fun s => s.re == 2.0 && s.im == 0.0) = true := by
    decide +kernel
  rcases hs : zeroRoot.solveWith .realFirst ⟨8.0, 0.0⟩ with e | found
  · rw [hs] at h
    cases h
  · cases found with
    | none =>
      rw [hs] at h
      cases h
    | some list =>
      rw [hs] at h
      obtain ⟨hlen, hall⟩ := Bool.and_eq_true_iff.mp h
      obtain ⟨s, rfl⟩ := List.length_eq_one_iff.mp (eq_of_beq hlen)
      exact ⟨s, rfl, List.all_eq_true.mp hall s (List.mem_singleton_self s)⟩

/-- Along the axis the one candidate for 8 yields it. Zero cannot be completed as an imaginary part, so a force of 1
at 90 degrees is answered from the real part: from the root zero and the linear solution, with two candidates at most,
farther apart than their reach. -/
theorem solveWith_accounts_zeroRoot :
    (∃ s, zeroRoot.solveWith .realFirst ⟨8.0, 0.0⟩ = .ok (some [s]) ∧ (s.re == 2.0 && s.im == 0.0) = true ∧
      zeroRoot.bearing.law.reproduces s ⟨8.0, 0.0⟩ = true) ∧
    Formulation.forDirection (90.0 : Float) = .imaginaryFirst ∧
    ∃ vectors, zeroRoot.solve 90.0 1.0 = .ok ⟨.realFirst, vectors⟩ ∧ vectors.length ≤ 2 ∧
      vectors.Pairwise fun s t => ForceLaw.reach s t < (s - t).norm := by
  obtain ⟨haccounted, -, habandoned⟩ := zeroRoot.solveWith_accounts
  have hroots (c : Quartic Float) : Quartic.realRoots zeroRoot.find c = .ok [0.0] := rfl
  have hform : Formulation.forDirection (90.0 : Float) = .imaginaryFirst := by decide +kernel
  have hreq : checkRequest (90.0 : Float) 1.0 = .ok () := rfl
  have hpair (fy : Float) : zeroRoot.bearing.law.pair .imaginaryFirst fy 0.0 = none := rfl
  refine ⟨?_, hform, ?_⟩
  · obtain ⟨s, hs, hvalue⟩ := zeroRoot_along_axis
    obtain ⟨hlist, -⟩ := haccounted _ _ _ _ (hroots _) hs
    exact ⟨s, hs, hvalue, hlist.yields s (List.mem_singleton_self s)⟩
  rcases habandoned 90.0 1.0 [0.0] hreq (by decide +kernel) hform (hroots _) ⟨0.0, List.mem_singleton_self _, hpair _⟩ with
    ⟨vectors, hwith, hsolve⟩ | ⟨e, hwith, -⟩
  · obtain ⟨hlist, hlen⟩ := haccounted _ _ _ _ (hroots _) hwith
    exact ⟨vectors, hsolve, hlen, hlist.apart⟩
  · simp only [solveWith, hroots] at hwith
    cases hwith

end Allocator

end MagneticBearing
