import Tealet.Outcomes
import Tealet.Passes
import Tealet.Trace

/-!
# The previous tealet

`g_previous` is the tealet that executed the transfer which put the running
tealet in control, or `NULL` if that tealet has been freed. The transfer is
not recorded anywhere, so the runs carry it along.
-/

namespace Tealet

open Hoare

/-- No transfer is attempted under PANIC. -/
def Event.Panicless (s : State) (e : Event) : Prop :=
  ∀ s₁ t f isExit allocs, e.Attempts s s₁ (.xfer t f isExit allocs) → f.panic = false

theorem Event.Panicless.free {s : State} {e : Event} (h : e.Panicless s) : e.PanicFree s := by
  intro s₁ t f isExit allocs ha hp
  rw [h s₁ t f isExit allocs ha] at hp
  cases hp

/-- The running tealet switches to itself. -/
def Event.SelfSwitch (s : State) (e : Event) (o : Outcome) : Prop :=
  ∃ parg flags sp allocs mprotects, e = .call (.switch s.gCurrent parg flags sp) allocs mprotects ∧
    o = .returned .ok none

/-- The runs, with the tealet that executed the last transfer which put the
running tealet in control. -/
inductive RunBy (P : State → Event → Prop) (s : State) : State → Option TealetId → Prop where
  | refl : RunBy P s s none
  | transfer {s₁ s₂ : State} {e : Event} {o : Outcome} {m : Option TealetId} :
      RunBy P s s₁ m → P s₁ e → step s₁ e = .ok (s₂, o) →
      s₂.gCurrent ≠ s₁.gCurrent ∨ e.SelfSwitch s₁ o → RunBy P s s₂ (some s₁.gCurrent)
  | other {s₁ s₂ : State} {e : Event} {o : Outcome} {m : Option TealetId} :
      RunBy P s s₁ m → P s₁ e → step s₁ e = .ok (s₂, o) →
      s₂.gCurrent = s₁.gCurrent → ¬ e.SelfSwitch s₁ o → RunBy P s s₂ m

theorem RunBy.run {P : State → Event → Prop} {s s' : State} {m : Option TealetId}
    (h : RunBy P s s' m) : Run P s s' := by
  induction h with
  | refl => exact .refl
  | transfer _ hP hs _ ih => exact ih.tail hP hs
  | other _ hP hs _ _ ih => exact ih.tail hP hs

/-- Every run has such a tealet, or none if main runs since the start. -/
theorem Run.runBy {P : State → Event → Prop} {s s' : State} (h : Run P s s') :
    ∃ m, RunBy P s s' m := by
  induction h with
  | refl => exact ⟨none, .refl⟩
  | @tail s₁ s₂ e o _ hP hs ih =>
      obtain ⟨m, hm⟩ := ih
      by_cases ht : s₂.gCurrent ≠ s₁.gCurrent ∨ e.SelfSwitch s₁ o
      · exact ⟨_, hm.transfer hP hs ht⟩
      · obtain ⟨hcur, hself⟩ := not_or.mp ht
        exact ⟨m, hm.other hP hs (not_not.mp hcur) hself⟩

/-- The tealet `m`, unless it was freed. -/
def State.kept (s : State) (m : Option TealetId) : Option TealetId :=
  m.filter fun t => (s.tealets t).isSome

section Kept

variable {s s' : State} {m : Option TealetId} {t : TealetId}

theorem kept_some (h : Alive s t) : s.kept (some t) = some t := by
  unfold State.kept Alive at *
  simp [Option.filter, h]

theorem kept_gone (h : ¬ Alive s t) : s.kept (some t) = none := by
  unfold State.kept Alive at *
  simp [Option.filter, h]

theorem kept_alive (h : s.kept m = some t) : Alive s t := (Option.filter_eq_some_iff.mp h).2

/-- Records that are gone do not come back. -/
structure Onward (s s' : State) : Prop where
  alive : ∀ t, t < s.nextTealet → Alive s' t → Alive s t
  nextTealet : s.nextTealet ≤ s'.nextTealet

theorem Onward.kept (h : Onward s s') (hm : ∀ t, m = some t → t < s.nextTealet) :
    s'.kept (s.kept m) = s'.kept m := by
  cases m with
  | none => rfl
  | some t =>
      by_cases ha : Alive s t
      · rw [kept_some ha]
      · rw [kept_gone ha, kept_gone fun h' => ha (h.alive t (hm t rfl) h')]
        rfl

theorem Onward.refl (s : State) : Onward s s := ⟨fun _ _ h => h, Nat.le_refl _⟩

theorem kept_of_alive (hm : ∀ t, m = some t → Alive s t) : s.kept m = m := by
  cases m with
  | none => rfl
  | some t => exact kept_some (hm t rfl)

end Kept

/-! ## One step -/

/-- The call returns an error or `NULL`. -/
def Outcome.Failed : Outcome → Prop
  | .returned (.err _) _ _ | .handle none => True
  | _ => False

/-- A start with `TEALET_START_DEFAULT`. -/
def Event.Captures : Event → Prop
  | .call (.run _ _ _ _ false _) _ _ | .call (.spawn _ _ _ false _) _ _
  | .call (.fork _ _ false _) _ _ => True
  | _ => False

/-- What a step makes of `g_previous`. -/
inductive Passed (s : State) (e : Event) (s' : State) (o : Outcome) : Prop where
  | transfer (h : s'.gCurrent ≠ s.gCurrent ∨ e.SelfSwitch s o)
      (hprev : s'.gPrevious = s'.kept (some s.gCurrent)) (hc : ¬ e.Captures) (hf : ¬ o.Failed)
  | other (hcur : s'.gCurrent = s.gCurrent) (hself : ¬ e.SelfSwitch s o)
      (hprev : s'.gPrevious = s'.kept s.gPrevious)
      (hsame : e.Captures ∨ o.Failed → s'.gPrevious = s.gPrevious)

section Step

variable {leak : StackId → Nat} {s s' : State} {a : Saved} {e : Event} {o : Outcome}

/-- Nothing is passed on by a call that frees no record and stays. -/
theorem Passed.same (hp : ∀ t, s.gPrevious = some t → Alive s t) (hcur : s'.gCurrent = s.gCurrent)
    (hprev : s'.gPrevious = s.gPrevious) (hlive : ∀ t, Alive s t → Alive s' t)
    (hself : ¬ e.SelfSwitch s o) : Passed s e s' o := by
  refine .other hcur hself ?_ fun _ => hprev
  rw [hprev, kept_of_alive fun t ht => hlive t (hp t ht)]

theorem Attempt.target {s₁ : State} {q : Request} {t : TealetId} {f : XFlags}
    (h : Attempt s q s₁ t f) (hf : f.panic = false) : t = q.target := by
  cases h with
  | first => rfl
  | fallback => cases hf

theorem Transferred.passed {s₀ : State} {q : Request} {cl : Call} {allocs : List Bool}
    {mprotects : List (Option (Nat → Bool))} (hp : ∀ t, s.gPrevious = some t → Alive s t)
    (hcur : Alive s s.gCurrent) (hq : cl.request (s.withChoices allocs mprotects) = some (s₀, q))
    (hP : (Event.call cl allocs mprotects).Panicless s) (h : Transferred s₀ q (s', o)) :
    Passed s (.call cl allocs mprotects) s' o ∧ Onward s s' := by
  obtain ⟨fl, ar, hs₀, -⟩ := request_state hq
  have hcap : ¬ (Event.call cl allocs mprotects).Captures := by
    cases cl <;> first | exact id | cases hq
  cases h with
  | failed ho he hs =>
      have ho : o = _ := ho
      subst hs₀ ho
      refine ⟨.same hp hs.current hs.previous (fun t => (hs.alive t).mpr) ?_,
        ⟨fun t _ => (hs.alive t).mp, Nat.le_of_eq hs.nextTealet.symm⟩⟩
      rintro ⟨_, _, _, _, _, -, ho⟩
      cases ho
  | @toSelf s₁ f ha hx ho hprev hs =>
      have hf : f.panic = false := hP s₁ _ f _ _ (.xfer hq ha)
      have ho : o = .returned .ok none := by
        rw [hf] at ho
        exact ho
      subst hs₀ ho
      have hlive : Alive s' s.gCurrent := (hs.alive _).mpr hcur
      refine ⟨.transfer (.inr ?_) (hprev.trans (kept_some hlive).symm) hcap id,
        ⟨fun t _ => (hs.alive t).mp, Nat.le_of_eq hs.nextTealet.symm⟩⟩
      have htarget : s.gCurrent = q.target := ha.target hf
      cases cl with
      | switch t parg flags sp =>
          cases hq
          exact ⟨parg, flags, sp, allocs, mprotects, by rw [htarget], rfl⟩
      | exit t arg flags sp =>
          simp only [Call.request, exitRequest] at hq
          split at hq
          · cases hq
          · split at hq <;> (cases hq; cases hx)
      | ret p sp =>
          cases p with
          | none => cases hq
          | some t =>
              simp only [Call.request, exitRequest] at hq
              split at hq <;> (cases hq; cases hx)
      | _ => cases hq
  | @moved s₁ t f fr ha hlike ht hfr ho hcur' hprev hlive hn =>
      have hf : f.panic = false := hP s₁ _ f _ _ (.xfer hq ha)
      have ho : o = _ := ho
      rw [hf] at ho
      subst hs₀ ho
      refine ⟨.transfer (.inl (by rw [hcur']; exact ht)) ?_ hcap ?_,
        ⟨fun t _ h => ((hlive t).mp h).1, Nat.le_of_eq hn.symm⟩⟩
      · rw [hprev]
        cases hd : q.isExit && f.delete with
        | false =>
            rw [if_neg Bool.false_ne_true]
            exact (kept_some ((hlive _).mpr ⟨hcur, by simp [hd]⟩)).symm
        | true =>
            rw [if_pos rfl]
            exact (kept_gone fun h => ((hlive _).mp h).2 ⟨hd, rfl⟩).symm
      · cases fr with
        | run result current previous fn arg sw out spawned => cases sw <;> exact id
        | _ => exact id

theorem Launched.passed {s₀ : State} {t : TealetId} {k : Frame} {sw spawned : Bool}
    (hp : ∀ t, s.gPrevious = some t → Alive s t) (hcur : Alive s s.gCurrent)
    (hcur₀ : s₀.gCurrent = s.gCurrent) (hprev₀ : s₀.gPrevious = s.gPrevious)
    (hn₀ : s.nextTealet ≤ s₀.nextTealet)
    (hlive₀ : ∀ u, Alive s₀ u ↔ Alive s u ∨ spawned = true ∧ u = t)
    (hnew : spawned = true → ¬ Alive s t ∧ s.nextTealet ≤ t) (htc : t ≠ s.gCurrent)
    (hk : e.Captures ↔ sw = false) (hself : ∀ o, ¬ e.SelfSwitch s o)
    (hout : ¬ (startOutcome t k).Failed) (h : Launched s₀ t k sw spawned (s', o)) :
    Passed s e s' o ∧ Onward s s' := by
  have honward : ∀ u, u < s.nextTealet → Alive s₀ u → Alive s u := by
    intro u hu hau
    rcases (hlive₀ u).mp hau with h | ⟨hs, rfl⟩
    · exact h
    · exact absurd (hnew hs).2 (Nat.not_le_of_lt hu)
  cases h with
  | failed ho he hcur' hprev hlive hn =>
      have hne : ¬ (spawned = true ∧ s₀.gPrevious = some t) := by
        rintro ⟨hs, ht⟩
        exact (hnew hs).1 (hp t (hprev₀.symm.trans ht))
      rw [if_neg hne] at hprev
      refine ⟨.same hp (hcur'.trans hcur₀) (hprev.trans hprev₀) (fun u hu => ?_) (hself _),
        ⟨fun u hu hau => honward u hu ((hlive u).mp hau).1, hn₀.trans (Nat.le_of_eq hn.symm)⟩⟩
      refine (hlive u).mpr ⟨(hlive₀ u).mpr (.inl hu), ?_⟩
      rintro ⟨hs, rfl⟩
      exact (hnew hs).1 hu
  | started ho hcur' hprev hlive hn =>
      have honward' : Onward s s' :=
        ⟨fun u hu hau => honward u hu ((hlive u).mp hau), hn₀.trans (Nat.le_of_eq hn.symm)⟩
      have hlive' : ∀ u, Alive s u → Alive s' u :=
        fun u hu => (hlive u).mpr ((hlive₀ u).mpr (.inl hu))
      have ho : o = startOutcome t k := ho
      cases sw with
      | true =>
          refine ⟨.transfer (.inl ?_) ?_ (fun h => absurd (hk.mp h) nofun) (ho ▸ hout), honward'⟩
          · rw [show s'.gCurrent = _ from hcur', if_pos rfl]
            exact htc
          · rw [show s'.gPrevious = _ from hprev, if_pos rfl, hcur₀, kept_some (hlive' _ hcur)]
      | false =>
          exact ⟨.same hp (hcur'.trans hcur₀) (hprev.trans hprev₀) hlive' (hself _), honward'⟩

/-! ## The calls that stay -/

/-- The calls that leave `g_previous` alone and free nothing. -/
structure Quiet (s s' : State) : Prop where
  current : s'.gCurrent = s.gCurrent
  previous : s'.gPrevious = s.gPrevious
  alive : ∀ t, Alive s t → Alive s' t
  fresh : ∀ t, Alive s' t → Alive s t ∨ s.nextTealet ≤ t
  nextTealet : s.nextTealet ≤ s'.nextTealet

theorem Quiet.refl (s : State) : Quiet s s :=
  ⟨rfl, rfl, fun _ h => h, fun _ h => .inl h, Nat.le_refl _⟩

theorem Quiet.congr {s₁ : State} (h : Quiet s s₁) (hc : s'.gCurrent = s₁.gCurrent)
    (hp : s'.gPrevious = s₁.gPrevious) (ht : s'.tealets = s₁.tealets)
    (hn : s'.nextTealet = s₁.nextTealet) : Quiet s s' := by
  refine ⟨hc.trans h.current, hp.trans h.previous, fun t hl => ?_, fun t hl => ?_,
    hn ▸ h.nextTealet⟩
  · rw [Alive, ht]
    exact h.alive t hl
  · rw [Alive, ht] at hl
    exact h.fresh t hl

theorem Quiet.trans {s₁ : State} (h : Quiet s s₁) (h' : Quiet s₁ s') : Quiet s s' :=
  ⟨h'.current.trans h.current, h'.previous.trans h.previous, fun t ht => h'.alive t (h.alive t ht),
    fun t ht => (h'.fresh t ht).elim (h.fresh t) fun hle => .inr (h.nextTealet.trans hle),
    h.nextTealet.trans h'.nextTealet⟩

theorem Quiet.locked (s : State) : Quiet s s.lockAuto := (Quiet.refl s).congr rfl rfl rfl rfl

theorem Quiet.unlocked (h : Quiet s.lockAuto s') : Quiet s s'.unlockAuto :=
  ((Quiet.locked s).trans h).congr rfl rfl rfl rfl

theorem Quiet.passed (h : Quiet s s') (hp : ∀ t, s.gPrevious = some t → Alive s t)
    (hself : ¬ e.SelfSwitch s o) : Passed s e s' o ∧ Onward s s' :=
  ⟨.same hp h.current h.previous h.alive hself,
    ⟨fun t ht ha => (h.fresh t ha).resolve_right (Nat.not_le_of_lt ht), h.nextTealet⟩⟩

theorem quiet_setTealet {t : TealetId} {r : TealetSub} (hr : Alive s t) :
    Quiet s (s.setTealet t r) := by
  have halive : ∀ u, Alive (s.setTealet t r) u ↔ Alive s u := by
    intro u
    unfold Alive State.setTealet
    rw [isSome_update s.tealets hr r u]
  exact ⟨rfl, rfl, fun u => (halive u).mpr, fun u h => .inl ((halive u).mp h), Nat.le_refl _⟩

theorem alloc_quiet (s : State) :
    Quiet s (alloc s).1 ∧ ∀ t, (alloc s).2 = some t → Alive (alloc s).1 t := by
  unfold alloc
  rcases s.heap.malloc with ⟨_ | _, h⟩
  · exact ⟨(Quiet.refl s).congr rfl rfl rfl rfl, nofun⟩
  · refine ⟨⟨rfl, rfl, fun t ht => ?_, fun t ht => ?_, Nat.le_succ _⟩, ?_⟩
    · by_cases hu : t = s.nextTealet
      · subst hu
        exact Option.isSome_iff_exists.mpr ⟨_, Function.update_self ..⟩
      · exact (congrArg Option.isSome (Function.update_of_ne hu ..)).trans ht
    · by_cases hu : t = s.nextTealet
      · exact .inr (Nat.le_of_eq hu.symm)
      · exact .inl ((congrArg Option.isSome (Function.update_of_ne hu ..)).symm.trans ht)
    · rintro t ht
      cases ht
      exact Option.isSome_iff_exists.mpr ⟨_, Function.update_self ..⟩

theorem new_quiet (s : State) : Quiet s (new s).1 := (alloc_quiet s.lockAuto).1.unlocked

theorem duplicate_quiet (s : State) (t : TealetId) :
    Returns (fun p => Quiet s p.1) (duplicate s t) := by
  unfold duplicate
  refine returns_any.bind fun _ _ => ?_
  have h := alloc_quiet s.lockAuto
  revert h
  generalize alloc s.lockAuto = p
  obtain ⟨s₁, _ | c⟩ := p
  · exact fun h => h.1.unlocked
  · rintro ⟨hq, hlive⟩
    dsimp only at hq hlive
    have hset : ∀ (h' : Heap) r, Quiet s.lockAuto ({ s₁ with heap := h' }.setTealet c r) :=
      fun h' r => (hq.trans (quiet_setTealet (r := r) (hlive c rfl))).congr rfl rfl rfl rfl
    refine returns_any.bind fun r _ => ?_
    cases hk : r.stack with
    | none => exact (hset s₁.heap _).unlocked
    | some k => exact returns_any.bind fun h' _ => (hset h' r).unlocked

theorem isDefunct_quiet (s : State) (t : TealetId) :
    Returns (fun p => Quiet s p.1) (isDefunct s t) := by
  unfold isDefunct
  refine (returns_tealet s t).bind fun r hr => ?_
  split
  · exact .refl s
  · split
    · exact .refl s
    · refine returns_any.bind fun st _ => ?_
      split
      · exact quiet_setTealet (Option.isSome_iff_exists.mpr ⟨r, hr⟩)
      · exact .refl s

theorem status_quiet (s : State) (t : TealetId) : Returns (fun p => Quiet s p.1) (status s t) := by
  unfold status
  refine returns_any.bind fun r _ => ?_
  split
  · exact .refl s
  · split
    · exact .refl s
    · exact (isDefunct_quiet s t).bind fun p hp => hp

theorem setFar_quiet (s : State) (t : TealetId) (far : Nat) :
    Returns (fun p => Quiet s p.1) (setFar s t far) := by
  unfold setFar
  refine (returns_tealet s t).bind fun r hr => ?_
  split
  · exact .refl s
  · exact quiet_setTealet (Option.isSome_iff_exists.mpr ⟨r, hr⟩)

theorem configureSet_quiet (s : State) (q : Config) : Quiet s (configureSet s q).1 := by
  obtain ⟨al, e, heq⟩ := configureSet_state s q
  rw [heq]
  exact (Quiet.refl s).congr rfl rfl rfl rfl

/-- A deferred exit is only recorded. -/
theorem defer_quiet {t : TealetId} {arg : Ptr} {flags : XFlags} {implicit : Bool} {sp : Nat}
    (hd : flags.defer = true) :
    Returns (fun p => Quiet s p.1) (exit s t arg flags implicit sp) := by
  unfold exit
  refine returns_any.bind fun _ _ => returns_any.bind fun _ _ => Sat.ite_true hd ?_
  exact returns_any.bind fun _ _ => (Quiet.refl s).congr rfl rfl rfl rfl

/-- The record that is deleted is the only one that goes. -/
theorem delete_kept (s : State) (t : TealetId) : Returns (fun s' => s'.gCurrent = s.gCurrent ∧
    s'.nextTealet = s.nextTealet ∧ (∀ u, Alive s' u ↔ Alive s u ∧ u ≠ t) ∧
    s'.gPrevious = if s.gPrevious = some t then none else s.gPrevious) (delete s t) := by
  unfold delete
  refine returns_any.bind fun _ _ => returns_any.bind fun _ _ => returns_any.bind fun h _ => ?_
  refine ⟨rfl, rfl, fun u => ?_, rfl⟩
  show (Function.update s.tealets t none u).isSome = true ↔ (s.tealets u).isSome = true ∧ u ≠ t
  by_cases hu : u = t
  · subst hu
    simp
  · simp [hu]

/-! ## Any step -/

theorem not_selfSwitch {cl : Call} {allocs : List Bool} {mprotects : List (Option (Nat → Bool))}
    (h : ∀ t parg flags sp, cl ≠ .switch t parg flags sp) (o : Outcome) :
    ¬ (Event.call cl allocs mprotects).SelfSwitch s o := by
  rintro ⟨parg, flags, sp, al, mp, heq, -⟩
  cases heq
  exact h _ _ _ _ rfl

theorem Launched.ran {s₀ : State} {t : TealetId} {sw : Bool} {fn : RunFn} {arg : Ptr}
    {out spawned : Bool} {creator : TealetId} {prev : Option TealetId}
    (hp : ∀ t, s.gPrevious = some t → Alive s t) (hcur : Alive s s.gCurrent) (hq : Quiet s s₀)
    (hlive : ∀ u, Alive s₀ u ↔ Alive s u ∨ spawned = true ∧ u = t)
    (hnew : spawned = true → ¬ Alive s t ∧ s.nextTealet ≤ t) (htc : t ≠ s.gCurrent)
    (hk : e.Captures ↔ sw = false) (hself : ∀ o, ¬ e.SelfSwitch s o)
    (h : Launched s₀ t (.run t creator prev fn arg sw out spawned) sw spawned (s', o)) :
    Passed s e s' o ∧ Onward s s' :=
  h.passed hp hcur hq.current hq.previous hq.nextTealet hlive hnew htc hk hself <| by
    cases sw <;> exact id

theorem Inv.step_passed (I : Inv leak s a) (hL : Legal s e) (hP : e.Panicless s)
    (hp : ∀ t, s.gPrevious = some t → Alive s t) :
    Returns (fun p => Passed s e p.1 p.2 ∧ Onward s p.1) (step s e) := by
  obtain ⟨rc, hrc, -⟩ := I.sched.running
  have hcur : Alive s s.gCurrent := Option.isSome_iff_exists.mpr ⟨rc, hrc⟩
  cases e with
  | write m =>
      refine Quiet.passed ((Quiet.refl s).congr rfl rfl rfl rfl) hp ?_
      rintro ⟨_, _, _, _, _, heq, -⟩
      cases heq
  | call cl allocs mprotects =>
      have I' := I.withChoices allocs mprotects
      have hL' : cl.Legal (s.withChoices allocs mprotects) := by
        cases cl <;> exact hL
      have hchoices : Quiet s (s.withChoices allocs mprotects) :=
        (Quiet.refl s).congr rfl rfl rfl rfl
      have hquiet : ∀ {s' : State} {o : Outcome},
          (∀ t parg flags sp, cl ≠ .switch t parg flags sp) →
          Quiet (s.withChoices allocs mprotects) s' →
          Passed s (.call cl allocs mprotects) s' o ∧ Onward s s' := fun hno h =>
        (hchoices.trans h).passed hp (not_selfSwitch hno _)
      have hreq : ∀ s₀ q, cl.request (s.withChoices allocs mprotects) = some (s₀, q) →
          Returns (fun p => Passed s (.call cl allocs mprotects) p.1 p.2 ∧ Onward s p.1)
            (callStep (s.withChoices allocs mprotects) cl) := fun s₀ q hq =>
        (I'.transfer_end hL' hq hP.free.resumes).imp fun p hp' => hp'.1.passed hp hcur hq hP
      show Returns _ (callStep (s.withChoices allocs mprotects) cl)
      cases cl with
      | new => exact hquiet nofun (new_quiet _)
      | run t fn parg hint sw site =>
          refine (I'.run_end false hL'.1 hL'.2.1 hL'.2.2).imp ?_
          rintro ⟨s', o⟩ (⟨-, heq⟩ | ⟨htc, h, -⟩)
          · cases heq
            exact hquiet nofun (.refl _)
          · exact h.ran hp hcur (hchoices.trans (.locked _))
              (fun u => (or_iff_left fun h => Bool.false_ne_true h.1).symm) nofun htc
              (by cases sw <;> simp [Event.Captures]) (not_selfSwitch nofun)
      | spawn fn parg hint sw site =>
          refine (I'.spawn_end hL'.1 hL'.2).imp ?_
          rintro ⟨s', o⟩ (heq | ⟨htc, s₁, hnew, htl, h, -⟩)
          · cases heq
            exact hquiet nofun (new_quiet _)
          · have hq : Quiet s s₁ := by
              have h := hchoices.trans (new_quiet (s.withChoices allocs mprotects))
              rw [hnew] at h
              exact h
            have hgone : ¬ Alive s s.nextTealet := by
              intro h
              obtain ⟨r, hr⟩ := Option.isSome_iff_exists.mp h
              exact Nat.lt_irrefl _ (I.core.lt_nextTealet hr)
            refine h.ran hp hcur (hq.trans (.locked _)) (fun u => ?_)
              (fun _ => ⟨hgone, Nat.le_refl _⟩) htc (by cases sw <;> simp [Event.Captures])
              (not_selfSwitch nofun)
            show (s₁.tealets u).isSome = true ↔ (s.tealets u).isSome = true ∨ _
            rw [htl]
            by_cases hu : u = s.nextTealet
            · subst hu
              simp [State.withChoices]
            · exact (congrArg (· = true)
                (congrArg Option.isSome (Function.update_of_ne hu ..))).to_iff.trans
                (or_iff_left fun h => hu h.2).symm
      | fork t parg sw site =>
          refine (I'.fork_end hL'.1 hL'.2).imp ?_
          rintro ⟨s', o⟩ (⟨err, -, heq⟩ | ⟨htc, h, -⟩)
          · cases heq
            exact hquiet nofun (.refl _)
          · have hq := hchoices.trans (.locked _)
            exact h.passed hp hcur hq.current hq.previous hq.nextTealet
              (fun u => (or_iff_left fun h => Bool.false_ne_true h.1).symm) nofun htc
              (by cases sw <;> simp [Event.Captures]) (not_selfSwitch nofun) id
      | switch t parg flags sp => exact hreq _ _ rfl
      | exit t arg flags sp =>
          cases hd : flags.defer with
          | false => exact hreq _ _ (if_neg (by simp [hd]))
          | true => exact (defer_quiet hd).imp fun p h => hquiet nofun h
      | ret p sp =>
          cases p with
          | none =>
              obtain ⟨⟨t, ht, -⟩, -⟩ := hL'
              cases ht
          | some t => exact hreq _ _ rfl
      | duplicate t => exact (duplicate_quiet _ t).bind fun p h => hquiet nofun h
      | delete t =>
          refine (delete_kept _ t).bind fun s' h => ?_
          obtain ⟨hc, hn, hlive, hprev⟩ := h
          have hself : ¬ (Event.call (.delete t) allocs mprotects).SelfSwitch s
              (.returned .ok none) :=
            not_selfSwitch (fun _ _ _ _ h => by cases h) _
          refine ⟨.other hc hself (hprev.trans ?_) ?_,
            ⟨fun u _ hu => ((hlive u).mp hu).1, Nat.le_of_eq hn.symm⟩⟩
          · show (if s.gPrevious = some t then none else s.gPrevious) = s'.kept s.gPrevious
            by_cases ht : s.gPrevious = some t
            · rw [if_pos ht, ht]
              exact (kept_gone fun h => ((hlive t).mp h).2 rfl).symm
            · rw [if_neg ht]
              refine (kept_of_alive fun u hu => (hlive u).mpr ⟨hp u hu, ?_⟩).symm
              rintro rfl
              exact ht hu
          · rintro (h | h) <;> exact h.elim
      | status t => exact (status_quiet _ t).bind fun p h => hquiet nofun h
      | setFar t far => exact (setFar_quiet _ t far).bind fun p h => hquiet nofun h
      | configure q => exact hquiet nofun (configureSet_quiet _ q)

end Step

/-! ## Runs -/

/-- The calls of runs without transfers under PANIC. -/
def WithoutPanic (s : State) (e : Event) : Prop := Legal s e ∧ e.Panicless s

/-- In runs without transfers under PANIC `g_previous` is the tealet that
executed the last transfer which put the running tealet in control, or
`NULL` once that tealet was freed; a capture and a call that fails leave it
unchanged. -/
theorem previous_is_mover {mem : Memory} {env : Env} {s : State} {m : Option TealetId}
    (h : RunBy WithoutPanic (initial mem env) s m) :
    s.gPrevious = s.kept m ∧ (∀ t, s.gPrevious = some t → Alive s t) ∧
    ∀ e s' o, WithoutPanic s e → step s e = .ok (s', o) → e.Captures ∨ o.Failed →
      s'.gPrevious = s.gPrevious := by
  have hinv : ∀ {s m}, RunBy WithoutPanic (initial mem env) s m → ∃ leak a, Inv leak s a := by
    intro s m h
    obtain ⟨leak, a, I, -⟩ := h.run.inv' True fun s e he => ⟨he.1, he.2.free.resumes⟩
    exact ⟨leak, a, I⟩
  have hkept : s.gPrevious = s.kept m ∧ ∀ t, m = some t → t < s.nextTealet := by
    induction h with
    | refl => exact ⟨rfl, nofun⟩
    | @transfer s₁ s₂ e o m h hP hs ht ih =>
        obtain ⟨leak, a, I⟩ := hinv h
        obtain ⟨hprev, hlt⟩ := ih
        obtain ⟨hpass, hon⟩ := (I.step_passed hP.1 hP.2 fun t h =>
          kept_alive (hprev.symm.trans h)).result hs
        obtain ⟨rc, hrc, -⟩ := I.sched.running
        refine ⟨?_, ?_⟩
        · cases hpass with
          | transfer _ hprev' => exact hprev'
          | other hcur hself => exact (ht.elim (fun h => h hcur) hself).elim
        · rintro t h
          cases h
          exact Nat.lt_of_lt_of_le (I.core.lt_nextTealet hrc) hon.nextTealet
    | @other s₁ s₂ e o m h hP hs hc hself ih =>
        obtain ⟨leak, a, I⟩ := hinv h
        obtain ⟨hprev, hlt⟩ := ih
        obtain ⟨hpass, hon⟩ := (I.step_passed hP.1 hP.2 fun t h =>
          kept_alive (hprev.symm.trans h)).result hs
        refine ⟨?_, fun t ht => Nat.lt_of_lt_of_le (hlt t ht) hon.nextTealet⟩
        cases hpass with
        | transfer ht => exact (ht.elim (fun h => h hc) hself).elim
        | other _ _ hprev' =>
            rw [hprev', hprev]
            exact hon.kept hlt
  have halive : ∀ t, s.gPrevious = some t → Alive s t :=
    fun t h => kept_alive (hkept.1.symm.trans h)
  refine ⟨hkept.1, halive, ?_⟩
  intro e s' o hP hs hor
  obtain ⟨leak, a, I⟩ := hinv h
  cases ((I.step_passed hP.1 hP.2 halive).result hs).1 with
  | transfer _ _ hc hf => exact (hor.elim hc hf).elim
  | other _ _ _ hsame => exact hsame hor

def Event.panicless (s : State) (e : Event) : Bool := e.attemptsAll (fun _ _ f => !f.panic) s

theorem Event.panicless_spec {s : State} {e : Event} (h : e.panicless s = true) :
    e.Panicless s := by
  intro s₁ t f isExit allocs ha
  have := Event.attemptsAll_spec h ha
  simpa using this

/-- A tealet that exits to main and is deleted on the way. -/
theorem previous_is_mover_exit : ∃ s, RunBy WithoutPanic (initial (fun _ => 0) {}) s (some 1) ∧
    ¬ Alive s 1 ∧ s.gPrevious = none := by
  have hspec : ∀ s e, (e.legal s && e.panicless s) = true → WithoutPanic s e := by
    intro s e h
    obtain ⟨h₁, h₂⟩ := Bool.and_eq_true_iff.mp h
    exact ⟨Event.legal_spec h₁, Event.panicless_spec h₂⟩
  let e : Event := .call (.exit 0 null { delete := true } 900) [] []
  obtain ⟨s, hrun, hs⟩ := exists_run_of_trace hspec
    [.call .new [] [], .call (.run 1 7 none null true ⟨1000, 990⟩) [] []]
    (s := initial (fun _ => 0) {})
    (fun s => decide (s.gCurrent = 1) && (e.legal s && e.panicless s) &&
      endsIn (step s e) fun p => decide (p.1.gCurrent = 0) && !(p.1.tealets 1).isSome)
    (by decide +kernel)
  obtain ⟨hs, hstep⟩ := Bool.and_eq_true_iff.mp hs
  obtain ⟨hcur, hP⟩ := Bool.and_eq_true_iff.mp hs
  have hcur : s.gCurrent = 1 := of_decide_eq_true hcur
  obtain ⟨p, heq, hp⟩ := endsIn_spec hstep
  obtain ⟨h₀, hgone⟩ := Bool.and_eq_true_iff.mp hp
  obtain ⟨m, hm⟩ := hrun.runBy
  have hrun' := hm.transfer (hspec s e hP) heq <| .inl <| by
    rw [of_decide_eq_true h₀, hcur]
    decide
  rw [hcur] at hrun'
  have hdead : ¬ Alive p.1 1 := by simpa [Alive] using hgone
  exact ⟨p.1, hrun', hdead, (previous_is_mover hrun').1.trans (kept_gone hdead)⟩

end Tealet
