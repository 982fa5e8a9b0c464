/-
  MagneticBearing.Proofs.Transmission — what each action puts on the wire where nothing fails.

  On a calm session writes, flushes and reads do what they should; the board may still pause, answer late or
  say nothing. There every command is sent whole and answered (`transmits_command`), whatever the answer is,
  and the session stays calm. So what an action transmits is put together from its parts
  (`Transmits.bind`), and errors come from what is allocated or read out of an answer only.

  - `transmits_zero`, `transmits_quit`, `transmits_drop`: the three commands of zeroing, every one.
  - `transmits_applyForce`: one command if the force can be allocated, nothing if not.
-/

import MagneticBearing.Proofs.Zeroing

namespace MagneticBearing.Bench

variable {K : Type} {α β : Type}

/-- Writes and flushes succeed, and no read fails for another reason than time. -/
structure Session.Calm (s : Session K) : Prop where
  sound : s.port.Sound
  reads : ∀ e ∈ s.port.incoming, e.failure? = none

theorem bringing_calm {script : List ReadEvent} (h : ∀ e ∈ script, e.failure? = none) : (Link.bringing script).Calm :=
  ⟨Link.bringing_sound script, h⟩

/-- On a calm session `x` transmits these bytes and leaves a calm one; `post` holds of what it answers. -/
def Transmits (x : BenchM K α) (sent : List UInt8) (post : Except (LinkError K) α → Prop) : Prop :=
  ∀ s : Session K, s.Calm → (x s).2.Calm ∧ (x s).2.port.transmitted = s.port.transmitted ++ sent ∧ post (x s).1

/-- The action does not fail. -/
def Answers (r : Except (LinkError K) α) : Prop := r.isOk = true

section Rules

variable {x : BenchM K α} {f : α → BenchM K β} {sent more : List UInt8} {post : Except (LinkError K) β → Prop}

theorem Transmits.mono {post' : Except (LinkError K) β → Prop} {x : BenchM K β} (h : Transmits x sent post)
    (himp : ∀ r, post r → post' r) : Transmits x sent post' := by
  intro s hs
  obtain ⟨hcalm, hsent, hpost⟩ := h s hs
  exact ⟨hcalm, hsent, himp _ hpost⟩

theorem transmits_pure (a : α) : Transmits (pure a : BenchM K α) [] Answers := by
  intro s hs
  exact ⟨hs, (List.append_nil _).symm, rfl⟩

theorem transmits_throw (e : LinkError K) : Transmits (throw e : BenchM K α) [] (¬ Answers ·) := by
  intro s hs
  exact ⟨hs, (List.append_nil _).symm, Bool.false_ne_true⟩

theorem transmits_notify (n : Notice K) : Transmits (BenchM.notify n) [] Answers := by
  intro s hs
  exact ⟨⟨hs.sound, hs.reads⟩, (List.append_nil _).symm, rfl⟩

theorem Transmits.bind (hx : Transmits x sent Answers) (hf : ∀ a, Transmits (f a) more post) :
    Transmits (x >>= f) (sent ++ more) post := by
  intro s hs
  obtain ⟨hcalm, hsent, hok⟩ := hx s hs
  rw [BenchM.bind_apply]
  rcases hrun : x s with ⟨_ | a, t⟩
  · rw [hrun] at hok
    cases hok
  · rw [hrun] at hcalm hsent
    obtain ⟨hcalm', hsent', hpost⟩ := hf a t hcalm
    refine ⟨hcalm', ?_, hpost⟩
    rw [hsent', hsent, List.append_assoc]

/-- What an action answers does not matter for whether it fails. -/
theorem Transmits.discard {ok : Bool} (hx : Transmits x sent (·.isOk = ok)) :
    Transmits (x >>= fun _ => pure ()) sent (·.isOk = ok) := by
  intro s hs
  obtain ⟨hcalm, hsent, hok⟩ := hx s hs
  rw [BenchM.bind_apply]
  rcases hrun : x s with ⟨_ | a, t⟩
  · rw [hrun] at hcalm hsent hok
    exact ⟨hcalm, hsent, hok⟩
  · rw [hrun] at hcalm hsent hok
    exact ⟨hcalm, hsent, hok⟩

theorem Transmits.recover {x : BenchM K Unit} {tell : LinkError K → Notice K} (hx : Transmits x sent Answers) :
    Transmits (BenchM.recover x fun e => BenchM.notify (tell e)) sent Answers := by
  intro s hs
  obtain ⟨hcalm, hsent, hok⟩ := hx s hs
  unfold BenchM.recover
  rcases hrun : x s with ⟨_ | _, t⟩
  · rw [hrun] at hok
    cases hok
  · rw [hrun] at hcalm hsent
    exact ⟨hcalm, hsent, rfl⟩

theorem transmits_forM (tell : α → Notice K) (xs : List α) :
    Transmits (xs.forM fun a => BenchM.notify (tell a)) [] Answers := by
  induction xs with
  | nil => exact transmits_pure ()
  | cons a xs ih => exact (transmits_notify (tell a)).bind fun _ => ih

end Rules

/-! ## Commands -/

open Link in
theorem transmits_command (text : String) : Transmits (command text : BenchM K (List String)) (frame text) Answers := by
  intro s hs
  obtain ⟨hsound, -, taken, hleft⟩ := after_sound hs.sound [text]
  have hreads : ∀ e ∈ (after [text] s).port.incoming, e.failure? = none := by
    intro e he
    apply hs.reads e
    rw [hleft]
    exact List.mem_append_right taken he
  have hsent := after_transmitted hs.sound [text]
  rw [List.flatMap_singleton] at hsent
  exact ⟨⟨hsound, hreads⟩, hsent, (answerTo_isOk_iff hs.sound text).mpr (readable_of_unfailing hs.reads)⟩

theorem transmits_inTurn (texts : List String) :
    Transmits (Link.inTurn texts : BenchM K Unit) (texts.flatMap Link.frame) Answers := by
  induction texts with
  | nil => exact transmits_pure ()
  | cons text texts ih => exact (transmits_command text).bind fun _ => ih

theorem transmits_zero (stage : Stage) :
    Transmits (Drive.zero stage : BenchM Float Unit) ((Drive.zeroing stage).flatMap Link.frame) Answers := by
  rw [Drive.zero_eq]
  exact transmits_inTurn _

theorem transmits_quit : Transmits (Operator.quit : BenchM Float Unit) ((Drive.zeroing .radial).flatMap Link.frame) Answers :=
  (transmits_zero .radial).recover

theorem transmits_drop : Transmits (Drive.drop : BenchM Float Unit) ((Drive.zeroing .radial).flatMap Link.frame) Answers :=
  (transmits_zero .radial).recover

theorem transmits_issue (stage : Stage) (verb : String) (numbers : List Int) :
    Transmits (Drive.issue stage verb numbers : BenchM K (List String)) (Link.frame (Drive.order stage verb numbers))
      Answers := transmits_command _

/-- What works on answers alone leaves the session as it is, and so does a list of it. -/
theorem mapM_lift (f : α → Except (LinkError K) β) (xs : List α) (s : Session K) :
    (xs.mapM fun a => (liftM (f a) : BenchM K β)) s = (xs.mapM f, s) := by
  induction xs with
  | nil => rfl
  | cons a xs ih =>
    simp only [List.mapM_cons, BenchM.bind_apply]
    cases hfirst : f a with
    | error e => rfl
    | ok b =>
      have hlift : (liftM (Except.ok b : Except (LinkError K) β) : BenchM K β) s = (.ok b, s) := rfl
      rw [hlift]
      simp only [ih]
      cases xs.mapM f <;> rfl

section Drive

variable [Scalar K]

/-- A reading is one command; whether its answer is read as numbers does not matter here. -/
theorem transmits_readNumbers (stage : Stage) (verb : String) (lines : List Nat) :
    Transmits (Drive.readNumbers stage verb lines : BenchM K (List K)) (Link.frame (Drive.order stage verb []))
      (fun _ => True) := by
  rw [← List.append_nil (Link.frame _)]
  refine (transmits_issue stage verb []).bind fun response => ?_
  intro s hs
  rw [mapM_lift]
  exact ⟨hs, (List.append_nil _).symm, trivial⟩

/-- A force is one command with the first two currents, if it can be allocated, and nothing if not. -/
def forceFrame (a : Allocator K) (direction magnitude : K) : List UInt8 :=
  match a.controlCurrents direction magnitude .amps true with
  | .ok i => Link.frame ("cramb set_currents " ++ toString (Drive.micro i.p1) ++ " " ++ toString (Drive.micro i.p2))
  | .error _ => []

theorem order_setCurrents (m n : Int) :
    Drive.order .radial "set_currents" [m, n] = "cramb set_currents " ++ toString m ++ " " ++ toString n := by
  have hhead : "cramb " ++ "set_currents " = "cramb set_currents " := by decide
  rw [← hhead, String.append_assoc, String.append_assoc, String.append_assoc]
  simp [Drive.order, String.append_assoc]

theorem transmits_applyForce (a : Allocator K) (direction magnitude : K) :
    Transmits (Drive.applyForce a direction magnitude) (forceFrame a direction magnitude)
      (fun r => r.isOk = (a.controlCurrents direction magnitude .amps true).isOk) := by
  -- The warning of a singular axis comes first, if at all, and changes nothing on the wire.
  have hwarned {x : BenchM K (Poles K)} {sent : List UInt8} {post : Except (LinkError K) (Poles K) → Prop}
      (hx : Transmits x sent post) :
      Transmits (do
        if a.singular direction magnitude then BenchM.notify (.singularAxis direction)
        x) sent post := by
    split
    · exact (transmits_notify _).bind fun _ => hx
    · exact hx
  unfold Drive.applyForce forceFrame
  cases a.controlCurrents direction magnitude .amps true with
  | error e => exact hwarned ((transmits_throw _).mono fun r hr => Bool.eq_false_iff.mpr hr)
  | ok i =>
    have hset := (transmits_issue (K := K) .radial "set_currents" [Drive.micro i.p1, Drive.micro i.p2]).bind
      fun _ => transmits_pure i
    rw [List.append_nil, order_setCurrents] at hset
    exact hwarned ((transmits_notify _).bind fun _ => hset)

end Drive

end MagneticBearing.Bench
