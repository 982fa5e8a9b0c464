/-
  MagneticBearing.Proofs.Remainder — what polishing leaves of the miss.

  The law is quadratic, so a step solves the linear part of the miss and leaves the square of the step and nothing
  else (`ForceLaw.onPlane_step`). Where a run has made a step, what it leaves is therefore known from the last one,
  whichever of its three exits it took.

  - `Run`: a run as the steps that it makes, with a constructor for each exit. There is one for every start and
    every number of steps allowed (`run_refineFrom`, `Run.unique`).
  - `polishing_remainder`: after a run the force misses the target by the square of the last step, to the scale of
    the law. From a vector that has the force already it goes nowhere.
-/

import MagneticBearing.Proofs.Newton

namespace MagneticBearing.ForceLaw

open ComplexConjugate

/-- What is left after the step `d` to `t`: its square, and nothing of lower order. -/
structure Leaves (law : ForceLaw ℝ) (target d t : Cx ℝ) : Prop where
  force : (law.ofVector t - target).toComplex = law.quadratic * conj d.toComplex ^ 2 / 3
  length : (law.ofVector t - target).norm = |law.quadratic| / 3 * d.norm ^ 2

/-- With at most this many steps left, a run from the first vector makes these steps and stops at the last one. -/
inductive Run (law : ForceLaw ℝ) (target : Cx ℝ) : ℕ → SpaceVector ℝ → List (Cx ℝ) → SpaceVector ℝ → Prop
  /-- No step is left. -/
  | spent (s : SpaceVector ℝ) : Run law target 0 s [] s
  /-- The derivative is singular. -/
  | refused {n : ℕ} {s : SpaceVector ℝ} (h : law.newtonStep target s = none) : Run law target (n + 1) s [] s
  /-- The step was too short to matter. -/
  | short {n : ℕ} {s : SpaceVector ℝ} {d : Cx ℝ} (h : law.newtonStep target s = some d)
      (hshort : d.norm ≤ Arith.epsilon * (s - d).norm) : Run law target (n + 1) s [d] (s - d)
  | goes {n : ℕ} {s t : SpaceVector ℝ} {d : Cx ℝ} {ds : List (Cx ℝ)} (h : law.newtonStep target s = some d)
      (hlong : ¬ d.norm ≤ Arith.epsilon * (s - d).norm) (hrest : Run law target n (s - d) ds t) :
      Run law target (n + 1) s (d :: ds) t

variable {law : ForceLaw ℝ} {target s t t' d : Cx ℝ} {n : ℕ} {ds ds' : List (Cx ℝ)}

theorem leaves_of_step (h : law.newtonStep target s = some d) : Leaves law target d (s - d) := by
  have hforce : (law.ofVector (s - d) - target).toComplex = law.quadratic / 3 * conj d.toComplex ^ 2 := by
    rw [Cx.toComplex_sub, toComplex_ofVector]
    exact onPlane_step h
  refine ⟨?_, ?_⟩
  · rw [hforce]
    ring
  · rw [Cx.norm_eq, hforce, norm_square_term, Cx.norm_eq]

/-! ## Runs -/

/-- Polishing is the run. -/
theorem run_refineFrom (law : ForceLaw ℝ) (target : Cx ℝ) (n : ℕ) (s : SpaceVector ℝ) :
    ∃ ds, law.Run target n s ds (law.refineFrom target n s) := by
  induction n generalizing s with
  | zero => exact ⟨[], .spent s⟩
  | succ n ih =>
    rw [refineFrom_succ]
    cases hd : law.newtonStep target s with
    | none => exact ⟨[], .refused hd⟩
    | some d =>
      simp only [← Cx.norm_eq]
      by_cases hshort : d.norm ≤ Arith.epsilon * (s - d).norm
      · rw [if_pos hshort]
        exact ⟨[d], .short hd hshort⟩
      · rw [if_neg hshort]
        obtain ⟨ds, hrest⟩ := ih (s - d)
        exact ⟨d :: ds, .goes hd hshort hrest⟩

/-- A step is the only one possible, and so is the exit. -/
theorem Run.unique (h : law.Run target n s ds t) (h' : law.Run target n s ds' t') : ds = ds' ∧ t = t' := by
  induction h generalizing ds' t' with
  | spent s =>
    cases h'
    exact ⟨rfl, rfl⟩
  | refused hnone =>
    cases h' with
    | refused => exact ⟨rfl, rfl⟩
    | short h | goes h => simp [hnone] at h
  | short hstep hshort =>
    cases h' with
    | refused h => simp [hstep] at h
    | short h =>
      obtain rfl := Option.some.inj (hstep.symm.trans h)
      exact ⟨rfl, rfl⟩
    | goes h hlong =>
      obtain rfl := Option.some.inj (hstep.symm.trans h)
      exact absurd hshort hlong
  | goes hstep hlong _ ih =>
    cases h' with
    | refused h => simp [hstep] at h
    | short h hshort =>
      obtain rfl := Option.some.inj (hstep.symm.trans h)
      exact absurd hshort hlong
    | goes h _ hrest =>
      obtain rfl := Option.some.inj (hstep.symm.trans h)
      obtain ⟨rfl, rfl⟩ := ih hrest
      exact ⟨rfl, rfl⟩

/-- The last step alone says what a run leaves: what the earlier ones left is in it. -/
theorem Run.leaves (h : law.Run target n s ds t) (hlast : ds.getLast? = some d) : Leaves law target d t := by
  induction h with
  | spent | refused => cases hlast
  | short hstep =>
    obtain rfl : _ = d := by simpa using hlast
    exact leaves_of_step hstep
  | @goes n s t d' ds hstep _ hrest ih =>
    cases ds with
    | nil =>
      obtain rfl : d' = d := by simpa using hlast
      -- The run stops where this step led: no step follows.
      cases hrest <;> exact leaves_of_step hstep
    | cons d'' ds => exact ih (by simpa using hlast)

/-- Where the derivative is not singular a step leaves the square of itself, scaled by a third of the quadratic
coefficient. A run is made of such steps, so after the first one that is what it leaves, whether its steps are used up,
no further one is possible or the last was too short to matter. From an exact solution it does not move. -/
theorem polishing_remainder (law : ForceLaw ℝ) (target s : Cx ℝ) :
    (Quartic.zeroTolerance * law.linear ^ 2 < |law.jacobian s| →
      ∃ d, law.newtonStep target s = some d ∧ Leaves law target d (s - d)) ∧
    (∀ n, ∃! ds, law.Run target n s ds (law.refineFrom target n s)) ∧
    (∀ n ds t d, law.Run target n s ds t → ds.getLast? = some d → Leaves law target d t) ∧
    (law.ofVector s = target → law.refine s target = s) := by
  refine ⟨fun hregular => ?_, fun n => ?_, fun n ds t d h => h.leaves, fun h => refineFrom_exact h _⟩
  · rw [Quartic.zeroTolerance_eq] at hregular
    have hsome : law.newtonStep target s ≠ none := by
      rw [Ne, newtonStep_eq_none_iff, not_le]
      exact hregular
    obtain ⟨d, hd⟩ := Option.ne_none_iff_exists'.mp hsome
    exact ⟨d, hd, leaves_of_step hd⟩
  · obtain ⟨ds, hrun⟩ := run_refineFrom law target n s
    exact ⟨ds, hrun, fun ds' h' => (h'.unique hrun).1⟩

/-- One step from no field toward the force 1 + i leads to 1 + i, and leaves the square -2i of what it has turned by. For
the force that it has then there is nothing to do. -/
theorem polishing_remainder_one_step :
    let law : ForceLaw ℝ := ⟨3, 1⟩
    Quartic.zeroTolerance * law.linear ^ 2 < |law.jacobian ⟨0, 0⟩| ∧
      law.Run ⟨1, 1⟩ 1 ⟨0, 0⟩ [⟨-1, -1⟩] ⟨1, 1⟩ ∧ law.refineFrom ⟨1, 1⟩ 1 ⟨0, 0⟩ = ⟨1, 1⟩ ∧
      Leaves law ⟨1, 1⟩ ⟨-1, -1⟩ ⟨1, 1⟩ ∧ law.ofVector ⟨1, 1⟩ = ⟨1, -1⟩ ∧
      law.refine ⟨1, 1⟩ ⟨1, -1⟩ = ⟨1, 1⟩ := by
  intro law
  obtain ⟨hregular, hruns, hleaves, -⟩ := polishing_remainder law ⟨1, 1⟩ ⟨0, 0⟩
  obtain ⟨-, -, -, hexact⟩ := polishing_remainder law ⟨1, -1⟩ ⟨1, 1⟩
  have hdet : Quartic.zeroTolerance * law.linear ^ 2 < |law.jacobian ⟨0, 0⟩| := by
    rw [jacobian_det, Quartic.zeroTolerance_eq]
    norm_num [law]
  have hforce : law.ofVector ⟨1, 1⟩ = ⟨1, -1⟩ := by
    rw [ofVector_eq_iff]
    norm_num [law]
  have hmove : (⟨0, 0⟩ : Cx ℝ) - ⟨-1, -1⟩ = ⟨1, 1⟩ := by
    rw [← Cx.toComplex_inj, Cx.toComplex_sub]
    apply Complex.ext <;> simp
  -- The step is long: it is as long as the vector that it leads to.
  have hlong : ¬ (⟨-1, -1⟩ : Cx ℝ).norm ≤ Arith.epsilon * ((⟨0, 0⟩ : Cx ℝ) - ⟨-1, -1⟩).norm := by
    have hsame : (⟨-1, -1⟩ : Cx ℝ).norm = (⟨1, 1⟩ : Cx ℝ).norm := by
      have hneg : (⟨-1, -1⟩ : ℂ) = -⟨1, 1⟩ := by apply Complex.ext <;> simp
      rw [Cx.norm_eq, Cx.norm_eq, Cx.toComplex_mk, Cx.toComplex_mk, hneg, norm_neg]
    have hpos : 0 < (⟨1, 1⟩ : Cx ℝ).norm := by
      rw [Cx.norm_eq, norm_pos_iff, Cx.toComplex_mk]
      intro h0
      have h1 : (1 : ℝ) = 0 := congrArg Complex.re h0
      norm_num at h1
    rw [hmove, hsame, Arith.epsilon_eq, not_le]
    linarith
  obtain ⟨d, hd, -⟩ := hregular hdet
  have hstep : d = ⟨-1, -1⟩ := by
    have hlinear := newtonStep_linear hd
    have hrest : law.onPlane 0 = 0 := by
      rw [onPlane_eq]
      simp
    have hzero : (⟨0, 0⟩ : ℂ) = 0 := rfl
    rw [← Cx.toComplex_inj]
    simpa [law, hzero, hrest, Complex.ext_iff] using hlinear
  have hrun : law.Run ⟨1, 1⟩ 1 ⟨0, 0⟩ [⟨-1, -1⟩] ⟨1, 1⟩ := by
    have hgoes := Run.goes (hstep ▸ hd) hlong (.spent _)
    rwa [hmove] at hgoes
  have hend : law.refineFrom ⟨1, 1⟩ 1 ⟨0, 0⟩ = ⟨1, 1⟩ := by
    obtain ⟨ds, hds, -⟩ := hruns 1
    exact (hds.unique hrun).2
  exact ⟨hdet, hrun, hend, hleaves 1 _ _ _ hrun rfl, hforce, hexact hforce⟩

end MagneticBearing.ForceLaw
