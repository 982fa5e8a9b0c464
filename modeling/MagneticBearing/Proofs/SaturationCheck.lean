/-
  MagneticBearing.Proofs.SaturationCheck — the rating's residual beside the saturation check.

  The rating subtracts the limit from the least peak field among the candidates. The allocator leaves out
  the candidates whose peak field is above the limit. On the doubles that the library runs on the two agree,
  because nothing there is incomparable: a candidate that passed the check against the force is finite
  (`solve_isFinite`), so its peak field is a number (`isNumber_peakField`), and a difference of doubles tells
  which is larger however it is rounded (`residual_cases`).

  - `residual_agrees_with_check`: the residual is at most zero where the check leaves a candidate, positive
    where it leaves none of them, and an error where there is none to begin with.
-/

import MagneticBearing.Proofs.Norms
import MagneticBearing.Proofs.Saturation

namespace MagneticBearing

open Running

/-! ## Physical bearings on doubles -/

namespace Physical

/-- The bearing of a geometry with these fits laid over it, one after the other. -/
def overlaid {K : Type} [Scalar K] (g : Geometry K) (fits : List (K × K)) : Except (AllocationError K) (Physical K) := do
  fits.foldlM (fun b fit => b.withFit fit.1 fit.2) (← Physical.build g)

/-- The limit and the bias are finite. -/
structure Bounded (b : Physical Float) : Prop where
  limit : IsFinite b.bearing.limit
  bias : IsFinite b.bearing.bias

variable {g : Geometry Float} {b b' : Physical Float} {c1 c2 : Float}

theorem isFinite_of_requirePositive {p : Parameter} {x : Float} {u : Unit} (h : requirePositive p x = .ok u) :
    IsFinite x := by
  unfold requirePositive at h
  split at h
  · rename_i hx
    exact finite_iff.mp (Bool.and_eq_true_iff.mp hx).1
  · cases h

theorem build_bounded (h : Physical.build g = .ok b) : b.Bounded := by
  unfold Physical.build at h
  obtain ⟨u, hc, h⟩ := except_bind_ok.mp h
  cases h
  unfold Geometry.check at hc
  simp only [except_bind_ok] at hc
  obtain ⟨u, hlimit, -, -, -, -, -, -, -, -, hc⟩ := hc
  have hfinite := isFinite_of_requirePositive hlimit
  split at hc
  · cases hc
  · rename_i hfraction
    simp only [Bool.not_eq_true', Bool.not_eq_false, Bool.and_eq_true, decide_eq_true_eq] at hfraction
    exact ⟨hfinite, isFinite_fraction hfraction.1 hfraction.2 hfinite⟩

theorem withFit_bounded (hb : b.Bounded) (h : b.withFit c1 c2 = .ok b') : b'.Bounded := by
  unfold withFit at h
  simp only [except_bind_ok] at h
  obtain ⟨-, -, -, -, h⟩ := h
  cases h
  exact ⟨hb.limit, hb.bias⟩

theorem overlaid_bounded {fits : List (Float × Float)} (h : overlaid g fits = .ok b) : b.Bounded := by
  obtain ⟨b₀, hbuild, hfits⟩ := except_bind_ok.mp h
  have hb₀ := build_bounded hbuild
  clear h hbuild
  induction fits generalizing b₀ with
  | nil =>
    cases hfits
    exact hb₀
  | cons fit fits ih =>
    rw [List.foldlM_cons] at hfits
    obtain ⟨b₁, hfit, hrest⟩ := except_bind_ok.mp hfits
    exact ih b₁ hrest (withFit_bounded hb₀ hfit)

end Physical

/-! ## The peak field of a candidate -/

/-- A candidate is finite: it is the zero vector or it passed the check. -/
theorem Allocator.solve_isFinite {a : Allocator Float} {direction magnitude : Float} {sols : Solutions Float}
    (h : a.solve direction magnitude = .ok sols) : ∀ s ∈ sols.vectors, IsFinite s.re ∧ IsFinite s.im := by
  intro s hs
  rcases solve_mem h s hs with rfl | hr
  · exact ⟨isFinite_zero, isFinite_zero⟩
  · exact ForceLaw.isFinite_of_reproduces hr

theorem SpaceVector.isNumber_toPoles {s : SpaceVector Float} (hre : IsFinite s.re) (him : IsFinite s.im) :
    ∀ x ∈ (toPoles s).toList, IsNumber x := by
  -- The terms are fractions, so they stay finite. Their sum may be infinite, but not less than a number.
  have h1 : IsFinite (2.0 / 3.0 * s.re) := isFinite_mul (by decide +kernel) (by decide +kernel) hre
  have h2 : IsFinite (-(1.0 / 3.0) * s.re) := isFinite_mul (by decide +kernel) (by decide +kernel) hre
  have h3 : IsFinite (1.0 / Float.sqrt 3.0 * s.im) := isFinite_mul (by decide +kernel) (by decide +kernel) him
  intro x hx
  rcases List.mem_cons.mp hx with rfl | hx
  · exact h1.isNumber
  · rcases List.mem_cons.mp hx with rfl | hx
    · exact isNumber_add h2.isNumber h3
    · obtain rfl := List.mem_singleton.mp hx
      exact (sub_key h2.isNumber h3).1

theorem Poles.isNumber_peak {e : Poles Float} (h : ∀ x ∈ e.toList, IsNumber x) : IsNumber e.peak := by
  have htop {x y : Float} (hx : IsNumber x) (hy : IsNumber y) : IsNumber (if y ≤ x then x else y) := by
    split
    · exact hx
    · exact hy
  simp only [Poles.toList, List.forall_mem_cons] at h
  obtain ⟨h1, h2, h3, -⟩ := h
  exact htop (htop (isNumber_abs h1) (isNumber_abs h2)) (isNumber_abs h3)

namespace Physical

variable {b : Physical Float} {s : SpaceVector Float}

/-- The peak field of a finite candidate can be compared. -/
theorem isNumber_peakField (hb : b.Bounded) (hre : IsFinite s.re) (him : IsFinite s.im) :
    IsNumber (b.bearing.peakField s.toPoles) := by
  have hfields : (s.toPoles.addEach b.bias).toList = s.toPoles.toList.map (· + b.bias) := rfl
  refine Poles.isNumber_peak ?_
  show ∀ x ∈ (s.toPoles.addEach b.bias).toList, IsNumber x
  rw [hfields, List.forall_mem_map]
  intro x hx
  exact isNumber_add (SpaceVector.isNumber_toPoles hre him x hx) hb.bias

theorem saturated_iff (e : Poles Float) : b.bearing.saturated e = true ↔ b.bearing.limit < b.bearing.peakField e :=
  decide_eq_true_iff

theorem unsaturated_iff_peakField_le (hb : b.Bounded) (hn : IsNumber (b.bearing.peakField s.toPoles)) :
    b.bearing.saturated s.toPoles = false ↔ b.bearing.peakField s.toPoles ≤ b.bearing.limit := by
  rw [← Bool.not_eq_true, saturated_iff, ← not_le_iff hn hb.limit.isNumber, not_not]

/-! ## The residual beside the check -/

variable {g : Geometry Float} {fits : List (Float × Float)} {find : RootFinder Float} {direction magnitude : Float}

/-- An answered request has no candidate, or its residual tells whether one of them is unsaturated. -/
theorem residual_cases (hb : b.Bounded) {sols : Solutions Float}
    (hs : (Rating.mk b.bearing find).allocator.solve direction magnitude = .ok sols) :
    (sols.vectors = [] ∧
      (Rating.mk b.bearing find).residual direction magnitude = .error (.noFeasibleSolution direction magnitude)) ∨
    ∃ y, (Rating.mk b.bearing find).residual direction magnitude = .ok y ∧ sols.vectors ≠ [] ∧
      (y ≤ 0.0 ↔ ∃ s ∈ sols.vectors, b.bearing.saturated s.toPoles = false) ∧
      (0.0 < y ↔ ∀ s ∈ sols.vectors, b.bearing.saturated s.toPoles = true) := by
  have hnum (s : SpaceVector Float) (hmem : s ∈ sols.vectors) : IsNumber (b.bearing.peakField s.toPoles) := by
    obtain ⟨hre, him⟩ := Allocator.solve_isFinite hs s hmem
    exact isNumber_peakField hb hre him
  have hpeaks : ∀ x ∈ (sols.vectors.map SpaceVector.toPoles).map b.bearing.peakField, IsNumber x := by
    rw [List.forall_mem_map, List.forall_mem_map]
    exact hnum
  rw [Rating.residual_of_solve hs]
  cases hp : Scalar.leastBy id ((sols.vectors.map SpaceVector.toPoles).map b.bearing.peakField) with
  | none =>
    rw [Scalar.leastBy_eq_none, List.map_eq_nil_iff, List.map_eq_nil_iff] at hp
    exact .inl ⟨hp, rfl⟩
  | some peak =>
    have hleast := leastBy_least hpeaks hp
    rw [List.forall_mem_map, List.forall_mem_map] at hleast
    have hmem := Scalar.leastBy_mem hp
    have hpeak := hpeaks peak hmem
    simp only [List.mem_map, exists_exists_and_eq_and] at hmem
    obtain ⟨s, hs', rfl⟩ := hmem
    have hle : b.bearing.peakField s.toPoles ≤ b.bearing.limit ↔
        ∃ t ∈ sols.vectors, b.bearing.saturated t.toPoles = false := by
      constructor
      · intro h
        exact ⟨s, hs', (unsaturated_iff_peakField_le hb hpeak).mpr h⟩
      · rintro ⟨t, ht, hunsat⟩
        exact le_trans_key (hleast t ht) ((unsaturated_iff_peakField_le hb (hnum t ht)).mp hunsat)
    have hlt : b.bearing.limit < b.bearing.peakField s.toPoles ↔
        ∀ t ∈ sols.vectors, b.bearing.saturated t.toPoles = true := by
      rw [← not_le_iff hpeak hb.limit.isNumber]
      simpa using not_congr hle
    exact .inr ⟨_, rfl, List.ne_nil_of_mem hs', (sub_le_zero_iff hpeak hb.limit).trans hle,
      (zero_lt_sub_iff hpeak hb.limit).trans hlt⟩

/-- The residual is at most zero exactly if currents pass the saturation check, positive exactly if there
are candidates and none passes it, and an error exactly if the same error is answered without it. -/
theorem residual_agrees_with_check (hb : overlaid g fits = .ok b) (find : RootFinder Float)
    (direction magnitude : Float) :
    let r : Rating Float := ⟨b.bearing, find⟩
    ((∃ y, r.residual direction magnitude = .ok y ∧ y ≤ 0.0) ↔
      ∃ i, r.allocator.controlCurrents direction magnitude .amps true = .ok i) ∧
    ((∃ y, r.residual direction magnitude = .ok y ∧ 0.0 < y) ↔
      (∃ sols, r.allocator.solve direction magnitude = .ok sols ∧ sols.vectors ≠ []) ∧
        r.allocator.controlCurrents direction magnitude .amps true =
          .error (.noFeasibleSolution direction magnitude)) ∧
    ∀ e, r.residual direction magnitude = .error e ↔
      r.allocator.controlCurrents direction magnitude .amps false = .error e := by
  intro r
  have hbounded := overlaid_bounded hb
  cases hs : r.allocator.solve direction magnitude with
  | error e =>
    rw [Rating.residual_of_error hs, Allocator.controlCurrents_of_error hs, Allocator.controlCurrents_of_error hs]
    simp
  | ok sols =>
    have hchecked := Allocator.controlCurrents_cases hs true
    have hunchecked := Allocator.controlCurrents_cases hs false
    rcases residual_cases hbounded hs with ⟨hnil, hr⟩ | ⟨y, hr, hne, hle, hpos⟩
    · simp only [hnil, List.not_mem_nil, false_and, exists_false, and_false, false_or] at hchecked hunchecked
      rw [hr, hchecked.1, hunchecked.1]
      simp [hnil]
    · obtain ⟨⟨i, hi⟩, -⟩ | ⟨-, hnone⟩ := hunchecked
      · rw [hr, hi]
        obtain ⟨⟨j, hj⟩, s, hmem, hmay⟩ | ⟨hnone, hall⟩ := hchecked
        · have hy : y ≤ 0.0 := hle.mpr ⟨s, hmem, hmay rfl⟩
          have hno : ¬ 0.0 < y := by
            rw [hpos]
            intro hall
            exact Bool.false_ne_true ((hmay rfl).symm.trans (hall s hmem))
          rw [hj]
          simp [hy, hno]
        · have hy : 0.0 < y := hpos.mpr fun s hmem => (hall s hmem).2
          have hno : ¬ y ≤ 0.0 := by
            rw [hle]
            rintro ⟨s, hmem, hunsat⟩
            exact Bool.false_ne_true (hunsat.symm.trans (hall s hmem).2)
          rw [hnone]
          simp [hy, hno, hne]
      · obtain ⟨s, hmem⟩ := List.exists_mem_of_ne_nil _ hne
        cases (hnone s hmem).1

/-- The prototype under its fit carries the bias alone, and is answered. In a direction that is infinite both fail
alike. The sine and the cosine of a double are the platform's, so here no other request has a number. -/
theorem residual_agrees_with_check_unloaded : ∃ b : Physical Float,
    overlaid Geometry.prototype [(175.677, 48.016)] = .ok b ∧
      (∃ y, (Rating.mk b.bearing Quartic.closedForm).residual 30.0 0.0 = .ok y ∧ y ≤ 0.0) ∧
      (∃ i, (Rating.mk b.bearing Quartic.closedForm).allocator.controlCurrents 30.0 0.0 .amps true = .ok i) ∧
      (Rating.mk b.bearing Quartic.closedForm).residual (1.0 / 0.0) 100.0 =
        .error (.invalidParameter .direction (1.0 / 0.0)) ∧
      (Rating.mk b.bearing Quartic.closedForm).allocator.controlCurrents (1.0 / 0.0) 100.0 .amps false =
        .error (.invalidParameter .direction (1.0 / 0.0)) := by
  have h : ((overlaid Geometry.prototype [(175.677, 48.016)] >>= fun b =>
      (Rating.mk b.bearing Quartic.closedForm).residual 30.0 0.0).toOption.any fun y => y ≤ (0.0 : Float)) = true := by
    decide +kernel
  cases hb : overlaid (Geometry.prototype : Geometry Float) [(175.677, 48.016)] with
  | error e =>
    rw [hb] at h
    cases h
  | ok b =>
    rw [hb] at h
    change ((Rating.mk b.bearing Quartic.closedForm).residual 30.0 0.0).toOption.any _ = true at h
    have hinfinite : (Rating.mk b.bearing Quartic.closedForm).residual (1.0 / 0.0) 100.0 =
        .error (.invalidParameter .direction (1.0 / 0.0)) := rfl
    cases hr : (Rating.mk b.bearing Quartic.closedForm).residual 30.0 0.0 with
    | error e =>
      rw [hr] at h
      cases h
    | ok y =>
      rw [hr] at h
      have hy : ∃ y, (Rating.mk b.bearing Quartic.closedForm).residual 30.0 0.0 = .ok y ∧ y ≤ 0.0 :=
        ⟨y, hr, of_decide_eq_true h⟩
      exact ⟨b, rfl, hy, (residual_agrees_with_check hb Quartic.closedForm 30.0 0.0).1.mp hy, hinfinite,
        ((residual_agrees_with_check hb Quartic.closedForm (1.0 / 0.0) 100.0).2.2 _).mp hinfinite⟩

end Physical

end MagneticBearing
