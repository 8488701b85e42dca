import Tealet.Configure
import Tealet.Locking
import Tealet.Tampering
import Tealet.Lib.Simulation

/-!
# Locks and checks change nothing else

The lock callbacks and the checks of the stack are instruments: beside the
calls that they refuse, a program runs with them as it runs without. `bare`
takes them out of a state. The functions that do not switch stacks commute
with `bare`; a switch that the checks let pass is followed by the switch of
the bare library, and so are the calls and the runs. What is left is the check of
the caller's distance, which `max_stack_size` configures: it refuses calls
for where they are made.
-/

namespace Tealet

open Hoare Simulation

/-! ## Without instruments -/

/-- No lock, no watch, no lowered page. -/
def Env.bare (e : Env) : Env :=
  { e with
    cfg := { maxStackSize := e.cfg.maxStackSize }, data := {}, lowered := fun _ => false
    mprotects := [], lockModeAuto := false, hasLock := false, hasUnlock := false, lockLog := [] }

def State.bare (s : State) : State := { s with env := s.env.bare }

/-- The state a result comes with. -/
abbrev bareResult {α : Type} (p : State × α) : State × α := (p.1.bare, p.2)

/-- The watch changed, and not the check of the caller. -/
theorem bare_of_watching {e e' : Env} (h : e.Watching e') (hs : e.SameConfig e') :
    e'.bare = e.bare := by
  obtain ⟨c, d, l, o, rfl⟩ := h
  obtain rfl : c = e.cfg := hs.cfg
  rfl

theorem lockAuto_log (s : State) :
    ∃ l, s.lockAuto = { s with env := { s.env with lockLog := l } } := by
  unfold State.lockAuto Env.lockAuto
  split
  · exact ⟨_, rfl⟩
  · exact ⟨s.env.lockLog, rfl⟩

theorem unlockAuto_log (s : State) :
    ∃ l, s.unlockAuto = { s with env := { s.env with lockLog := l } } := by
  unfold State.unlockAuto Env.unlockAuto
  split
  · exact ⟨_, rfl⟩
  · exact ⟨s.env.lockLog, rfl⟩

theorem bare_lockAuto (s : State) : s.bare.lockAuto = s.lockAuto.bare := by
  obtain ⟨l, hl⟩ := lockAuto_log s
  rw [hl]
  rfl

theorem bare_unlockAuto (s : State) : s.bare.unlockAuto = s.unlockAuto.bare := by
  obtain ⟨l, hl⟩ := unlockAuto_log s
  rw [hl]
  rfl

/-! ## What commutes -/

/-- The end of a call: the lock is released. -/
theorem unlocked_bare {s₁ s₂ : State} {α : Type} (o : α) (h : s₂ = s₁.bare) :
    (.ok (s₂.unlockAuto, o) : Res (State × α)) =
      (.ok (s₁.unlockAuto, o) : Res (State × α)).map bareResult := by
  rw [h, bare_unlockAuto]
  rfl

theorem alloc_bare (s : State) : alloc s.bare = bareResult (alloc s) := by
  unfold alloc
  rcases hm : s.heap.malloc with ⟨_ | _, h⟩
  · rw [show s.bare.heap.malloc = (false, h) from hm]
    rfl
  · rw [show s.bare.heap.malloc = (true, h) from hm]
    rfl

theorem new_bare (s : State) : new s.bare = bareResult (new s) := by
  unfold new
  rw [bare_lockAuto, alloc_bare]
  exact congrArg (·, _) (bare_unlockAuto _)

theorem delete_bare (s : State) (t : TealetId) : delete s.bare t = (delete s t).map State.bare := by
  have hunlock : ∀ {s₁ s₂ : State}, s₂ = s₁.bare →
      (.ok s₂.unlockAuto : Res State) = (.ok s₁.unlockAuto : Res State).map State.bare := by
    rintro s₁ s₂ rfl
    exact congrArg Except.ok (bare_unlockAuto s₁)
  unfold delete
  rw [bare_lockAuto]
  exact bind_mapped fun _ => bind_mapped fun r => bind_mapped fun h => hunlock rfl

theorem duplicate_bare (s : State) (t : TealetId) :
    duplicate s.bare t = (duplicate s t).map bareResult := by
  unfold duplicate
  rw [bare_lockAuto]
  refine bind_mapped fun _ => ?_
  rw [alloc_bare]
  rcases alloc s.lockAuto with ⟨s₁, _ | c⟩
  · exact unlocked_bare none rfl
  · refine bind_mapped fun r => ?_
    cases r.stack with
    | none => exact unlocked_bare (some c) rfl
    | some k => exact bind_mapped fun h => unlocked_bare (some c) rfl

theorem isDefunct_bare (s : State) (t : TealetId) :
    isDefunct s.bare t = (isDefunct s t).map bareResult := by
  unfold isDefunct
  refine bind_mapped fun r => ite_mapped rfl ?_
  cases r.stack with
  | none => rfl
  | some k => exact bind_mapped fun st => ite_mapped rfl rfl

theorem status_bare (s : State) (t : TealetId) : status s.bare t = (status s t).map bareResult := by
  unfold status
  refine bind_mapped fun r => ite_mapped rfl (ite_mapped rfl ?_)
  rw [isDefunct_bare]
  exact map_bind_mapped fun p => rfl

theorem setFar_bare (s : State) (t : TealetId) (far : Nat) :
    setFar s.bare t far = (setFar s t far).map bareResult := by
  unfold setFar
  exact bind_mapped fun r => ite_mapped rfl rfl

theorem leaveXfer_bare (s : State) (b : Back) :
    leaveXfer s.bare b = (leaveXfer s b).map State.bare := by
  unfold leaveXfer
  split
  · exact bind_mapped fun r => rfl
  · exact bind_mapped fun r => bind_mapped fun _ => rfl
  · rfl
  · rfl

theorem failStart_bare (s : State) (child creator : TealetId) (sw : Bool) :
    failStart s.bare child creator sw = (failStart s child creator sw).map State.bare := by
  unfold failStart
  refine bind_mapped fun r => ?_
  cases sw <;> rfl

theorem finish_bare (s : State) (b : Back) : finish s.bare b = (finish s b).map bareResult := by
  unfold finish
  cases b.frame with
  | api => exact unlocked_bare _ rfl
  | switch g out => exact unlocked_bare _ rfl
  | exit g implicit =>
      cases implicit with
      | true => rfl
      | false => exact bind_mapped fun _ => unlocked_bare _ rfl
  | run result current previous run initialRunArg switchNow out spawned =>
      cases b.rc with
      | err e =>
          dsimp only
          rw [failStart_bare]
          refine map_bind_mapped fun s₁ => ?_
          cases spawned with
          | false => exact unlocked_bare _ rfl
          | true =>
              rw [bare_unlockAuto]
              show (delete s₁.unlockAuto.bare result >>= _) = _
              rw [delete_bare]
              exact map_bind_mapped fun _ => rfl
      | ok | saved =>
          refine ite_mapped ?_ ?_
          · exact bind_mapped fun _ => bind_mapped fun _ => bind_mapped fun _ => unlocked_bare _ rfl
          · cases switchNow <;> exact unlocked_bare _ rfl
  | fork gChild gCurrent previous switchNow out =>
      have hprev : (if switchNow = false ∧ b.rc = .saved then { s.bare with gPrevious := previous }
            else s.bare) =
          (if switchNow = false ∧ b.rc = .saved then { s with gPrevious := previous }
            else s).bare := by
        split <;> rfl
      dsimp only
      rw [hprev]
      cases b.rc with
      | err e =>
          dsimp only
          rw [failStart_bare]
          exact map_bind_mapped fun s₁ => unlocked_bare _ rfl
      | ok | saved => exact unlocked_bare _ rfl

/-! ## Copying -/

theorem saveState_bare (s : State) (k : Frame) (sp : Nat) :
    saveState s.bare k sp = (saveState s k sp).map bareResult := by
  unfold saveState
  rw [show s.bare.gTarget = s.gTarget from rfl]
  cases s.gTarget with
  | none => rfl
  | some g =>
      refine bind_mapped fun target => bind_mapped fun _ => bind_mapped fun current =>
        bind_mapped fun _ => bind_mapped fun _ => bind_mapped fun _ => bind_mapped fun p => ?_
      refine ite_mapped rfl (bind_mapped fun _ => ite_mapped ?_ ?_)
      · exact bind_mapped fun _ => ite_mapped rfl rfl
      · refine bind_mapped fun q => ?_
        obtain ⟨h, _ | st, full⟩ := q
        · exact ite_mapped rfl (bind_mapped fun _ => rfl)
        · exact bind_mapped fun _ => ite_mapped rfl (bind_mapped fun _ => rfl)

theorem restoreState_bare (s : State) (sp : Nat) :
    restoreState s.bare sp = (restoreState s sp).map State.bare := by
  unfold restoreState
  rw [show s.bare.gTarget = s.gTarget from rfl]
  cases s.gTarget with
  | none => rfl
  | some g =>
      refine bind_mapped fun r => ?_
      cases r.stack with
      | none => rfl
      | some k =>
          exact bind_mapped fun st => bind_mapped fun _ => bind_mapped fun m =>
            bind_mapped fun h => rfl

theorem stackmanSwitch_bare (s : State) (k : Frame) (sp : Nat) :
    stackmanSwitch s.bare k sp = (stackmanSwitch s k sp).map bareResult := by
  unfold stackmanSwitch
  rw [saveState_bare]
  refine map_bind_mapped fun p => ite_mapped rfl ?_
  rw [show s.bare.gTarget = s.gTarget from rfl]
  cases s.gTarget with
  | none => rfl
  | some g =>
      refine bind_mapped fun target => ?_
      cases target.stack with
      | none => rfl
      | some st =>
          refine bind_mapped fun st => ?_
          show (restoreState (State.bare { p.1 with gSw := .restore }) _ >>= _) = _
          rw [restoreState_bare]
          exact map_bind_mapped fun s₂ => rfl

/-! ## Switching -/

section Switching

variable {s : State} {t : TealetId} {arg : Ptr} {k : Frame} {sp : Nat}

/-- Arming watches, and without configuration it does nothing. -/
theorem armIntegrity_bare : Mirrors (fun _ => True) State.bare (armIntegrity s sp)
    (armIntegrity s.bare sp) := by
  intro s' hs' _
  cases hc : s.tealets s.gCurrent with
  | none =>
      unfold armIntegrity verifyCurrentMatchesCaller State.tealet at hs'
      rw [hc] at hs'
      cases hs'
  | some c =>
      rw [armIntegrity_eq hc] at hs'
      obtain ⟨e, he, hs'⟩ := bind_ok hs'
      cases hs'
      have hbare : e.bare = s.env.bare :=
        bare_of_watching ((armEnv_watching _ _ _ _).result he) ((armEnv_config _ _ _ _).result he)
      rw [armIntegrity_eq (show s.bare.tealets s.bare.gCurrent = some c from hc)]
      have harm : armEnv s.bare.env s.mem c sp = .ok s.bare.env := by
        obtain ⟨u, hu, -⟩ := bind_ok he
        have hplan : integrityPlan s.env.pageSize s.bare.env.cfg c.stackFar {} = .ok {} := by
          have hbytes : plannedBytes s.bare.env.cfg c.stackFar = 0 := if_pos (Or.inr rfl)
          unfold integrityPlan
          simp only [hbytes, if_true]
          rfl
        unfold armEnv
        rw [hu, ok_bind]
        show (integrityPlan s.env.pageSize s.bare.env.cfg c.stackFar {} >>= _) = _
        rw [hplan, ok_bind, ok_bind]
        rfl
      show (armEnv s.bare.env s.mem c sp >>= _) = _
      rw [harm]
      exact congrArg (fun e : Env => Except.ok { s with env := e }) hbare.symm

/-- Where the checks find no change, the bare library switches as well. -/
theorem copyStage_bare : Mirrors (fun p => p.2 ≠ some .integrity) bareResult
    (copyStage s t arg sp) (copyStage s.bare t arg sp) := by
  unfold copyStage
  refine .same fun _ _ => .same fun r _ => .ite (fun _ => .ok) fun _ => ?_
  rw [isDefunct_bare]
  refine .mapped fun p _ => .ite (fun _ => .ok) fun _ => .same fun rejected _ =>
    .ite (fun _ => .ok) fun _ => ?_
  intro q hq hno
  obtain ⟨e₁, h₁, hq⟩ := bind_ok hq
  obtain ⟨⟨e₂, verdict⟩, h₂, hq⟩ := bind_ok hq
  have hc₁ : p.1.env.SameConfig e₁ := (guardUnprotectCurrent_config _).result h₁
  have hw₁ : p.1.env.Watching e₁ := (guardUnprotectCurrent_watching _).result h₁
  obtain ⟨hc₂, hv⟩ := (snapshotVerifyCurrent_config _ _).result h₂
  have hw₂ : e₁.Watching e₂ := (snapshotVerifyCurrent_watching _ _).result h₂
  have hbare : e₂.bare = p.1.env.bare := bare_of_watching (hw₁.trans hw₂) (hc₁.trans hc₂)
  cases verdict with
  | none =>
      cases hq
      exact congrArg (fun e : Env => Except.ok ({ p.1 with
        env := e, gPrevious := some p.1.gCurrent, gTarget := some t, gArg := arg },
        none)) hbare.symm
  | some e =>
      cases hq
      rcases hv with hv | hv
      · cases hv
      · exact absurd hv hno

theorem afterSwitch_bare {prev : Option TealetId} {p : State × Frame × Nat} :
    Mirrors (fun _ => True) bareResult (afterSwitch prev p) (afterSwitch prev (bareResult p)) := by
  obtain ⟨s, k, sp⟩ := p
  have harm : ∀ (s₁ : State) {β : Type} {f g : State → Res (State × β)},
      (∀ s₂, Mirrors (fun _ => True) bareResult (f s₂) (g s₂.bare)) →
      Mirrors (fun _ => True) bareResult (armIntegrity s₁ sp >>= f)
        (armIntegrity s₁.bare sp >>= g) :=
    fun s₁ β f g hf => armIntegrity_bare.bind (fun s₂ _ _ => hf s₂) fun _ _ hno =>
      absurd trivial hno
  unfold afterSwitch
  refine .ite (fun _ => harm _ fun s₂ => .ok) fun _ => ?_
  rw [show s.bare.gTarget = s.gTarget from rfl]
  cases s.gTarget with
  | none => exact .of_map rfl
  | some g => exact harm _ fun s₂ => .ite (fun _ => .ok) fun _ => .ok

/-- A switch that is not refused for the bytes past the boundary. -/
theorem switchstack_bare : Mirrors (fun p => p.2.rc ≠ .err .integrity) bareResult
    (switchstack s t arg k sp) (switchstack s.bare t arg k sp) := by
  rw [switchstack_eq, switchstack_eq]
  refine copyStage_bare.bind (fun p hp hno => ?_) fun p q hno hq hrc => ?_
  · obtain ⟨s₁, _ | e⟩ := p
    · show Mirrors _ _ (stackmanSwitch s₁ k sp >>= _) (stackmanSwitch s₁.bare k sp >>= _)
      rw [stackmanSwitch_bare]
      exact .mapped fun q _ => afterSwitch_bare.mono fun _ _ => trivial
    · exact .ok
  · obtain ⟨s₁, v⟩ := p
    have hv : v = some .integrity := by simpa using hno
    subst hv
    cases hq
    exact hrc rfl

theorem xferInner_bare {f : XFlags} {isExit : Bool} :
    Mirrors (fun p => p.2.rc ≠ .err .integrity) bareResult (xferInner s t arg f isExit k sp)
      (xferInner s.bare t arg f isExit k sp) := by
  have hswitch : ∀ {s₁ s₂ : State}, s₂ = s₁.bare →
      Mirrors (fun p => p.2.rc ≠ .err .integrity) bareResult
        (switchstack s₁ t arg k sp >>= fun p => leaveXfer p.1 p.2 >>= fun s' => .ok (s', p.2))
        (switchstack s₂ t arg k sp >>= fun p => leaveXfer p.1 p.2 >>= fun s' => .ok (s', p.2)) := by
    rintro s₁ s₂ rfl
    refine switchstack_bare.bind (fun p _ _ => ?_) fun p q hno hq hrc => ?_
    · show Mirrors _ _ _ (leaveXfer p.1.bare p.2 >>= _)
      rw [leaveXfer_bare]
      exact .mapped fun s₂ _ => .ok
    · obtain ⟨s₂, -, hq⟩ := bind_ok hq
      cases hq
      exact hno hrc
  unfold xferInner
  refine .same fun r _ => .same fun c _ => .ite (fun _ => .ok) fun _ =>
    .ite (fun _ => ?_) fun _ => ?_
  · refine .same fun _ _ => .ite (fun _ => .ok) fun _ => .same fun _ _ => .same fun _ _ => ?_
    refine hswitch ?_
    split <;> rfl
  · refine .ite (fun _ => .ok) fun _ => hswitch ?_
    split <;> rfl

/-- Neither does the fallback of NOFAIL answer to such a refusal. -/
theorem xferAttempts_bare {f : XFlags} {isExit : Bool} :
    Mirrors (fun p => p.2.rc ≠ .err .integrity) bareResult (xferAttempts s t arg f isExit k sp)
      (xferAttempts s.bare t arg f isExit k sp) := by
  unfold xferAttempts
  refine .ite (fun _ => xferInner_bare.bind (fun p _ _ => ?_) fun p q hno hq hrc => ?_)
    fun _ => xferInner_bare
  · exact .ite (fun _ => xferInner_bare) fun _ => .ok
  · have hp : p.2.rc = .err .integrity := Decidable.of_not_not hno
    have hrest : ¬ (p.2.rc = .err .mem ∨ p.2.rc = .err .defunct) := by simp [hp]
    dsimp only at hq
    rw [if_neg hrest] at hq
    cases hq
    exact hno hrc

/-- The end of a call that switched stacks, or was refused. -/
theorem finished_bare {x y : Res (State × Back)} {φ : Back → Back} (hφ : ∀ b, (φ b).rc = b.rc)
    (h : Mirrors (fun p => p.2.rc ≠ .err .integrity) bareResult x y) :
    Mirrors (fun p => ¬ p.2.Tampered) bareResult (x >>= fun p => finish p.1 (φ p.2))
      (y >>= fun p => finish p.1 (φ p.2)) := by
  refine h.bind (fun p _ _ => .of_map (finish_bare p.1 (φ p.2))) fun p q hno hq ht => ?_
  have hp : (φ p.2).rc = .err .integrity := (hφ p.2).trans (Decidable.of_not_not hno)
  exact ht ((finish_errs hp).result hq)

end Switching

/-! ## Calls -/

section Calls

variable {s : State} {t : TealetId} {parg : Option Ptr} {sp : Nat} {site : Site} {sw : Bool}

/-- A start. -/
theorem started_bare {s₁ s₂ : State} {k : Frame} (h : s₂ = s₁.bare) :
    Mirrors (fun p => ¬ p.2.Tampered) bareResult
      (switchstack s₁ t null k sp >>= fun p => leaveXfer p.1 p.2 >>= fun s' => finish s' p.2)
      (switchstack s₂ t null k sp >>= fun p => leaveXfer p.1 p.2 >>= fun s' => finish s' p.2) := by
  subst h
  refine switchstack_bare.bind (fun p _ _ => ?_) fun p q hno hq ht => ?_
  · show Mirrors _ _ _ (leaveXfer p.1.bare p.2 >>= _)
    rw [leaveXfer_bare]
    exact .mapped fun s₂ _ => .of_map (finish_bare s₂ p.2)
  · obtain ⟨s₂, -, hq⟩ := bind_ok hq
    exact ht ((finish_errs (Decidable.of_not_not hno)).result hq)

theorem run_bare {fn : RunFn} {hint : Nat} {spawned : Bool} :
    Mirrors (fun p => ¬ p.2.Tampered) bareResult (run s t fn parg hint sw spawned site)
      (run s.bare t fn parg hint sw spawned site) := by
  unfold run
  refine .same fun r _ => .ite (fun _ => .ok) fun _ => .same fun _ _ => ?_
  have hlock : ∀ r', (s.bare.setTealet t r').lockAuto = (s.setTealet t r').lockAuto.bare :=
    fun r' => bare_lockAuto (s.setTealet t r')
  simp only [hlock]
  refine .same fun _ _ => .same fun _ _ => ?_
  cases sw with
  | true => exact started_bare rfl
  | false => exact started_bare rfl

theorem spawn_bare {fn : RunFn} {hint : Nat} :
    Mirrors (fun p => ¬ p.2.Tampered) bareResult (spawn s fn parg hint sw site)
      (spawn s.bare fn parg hint sw site) := by
  unfold spawn
  rw [new_bare]
  rcases new s with ⟨s₁, _ | t⟩
  · exact .ok
  · exact run_bare

theorem fork_bare : Mirrors (fun p => ¬ p.2.Tampered) bareResult (fork s t parg sw site)
    (fork s.bare t parg sw site) := by
  unfold fork
  refine .same fun _ _ => .same fun r _ => .ite (fun _ => .ok) fun _ => .same fun c _ =>
    .ite (fun _ => .ok) fun _ => .same fun _ _ => ?_
  have hlock : ∀ r', (s.bare.setTealet t r').lockAuto = (s.setTealet t r').lockAuto.bare :=
    fun r' => bare_lockAuto (s.setTealet t r')
  simp only [hlock]
  cases sw with
  | true => exact started_bare rfl
  | false => exact started_bare rfl

theorem switch_bare {f : XFlags} : Mirrors (fun p => ¬ p.2.Tampered) bareResult
    (switch s t parg f sp) (switch s.bare t parg f sp) := by
  unfold switch
  rw [bare_lockAuto]
  exact .same fun _ _ => .same fun _ _ => finished_bare (φ := id) (fun _ => rfl) xferAttempts_bare

theorem exit_bare {arg : Ptr} {f : XFlags} {implicit : Bool} :
    Mirrors (fun p => ¬ p.2.Tampered) bareResult (exit s t arg f implicit sp)
      (exit s.bare t arg f implicit sp) := by
  unfold exit
  rw [bare_lockAuto]
  refine .same fun _ _ => .same fun _ _ => .ite (fun _ => .same fun _ _ => ?_) fun _ => ?_
  · exact .of_map (unlocked_bare _ rfl)
  · have hback : ∀ b : Back, (if b.frame = .api then
        { b with frame := .exit s.lockAuto.gCurrent implicit } else b).rc = b.rc := by
      intro b
      split <;> rfl
    by_cases hd : s.lockAuto.gFlags.xfer.defer = true
    · have hd' : s.lockAuto.bare.gFlags.xfer.defer = true := hd
      simp only [if_pos hd, if_pos hd']
      exact finished_bare hback
        (xferAttempts_bare (s := { s.lockAuto with gFlags := {}, gArg := null }))
    · have hd' : ¬ s.lockAuto.bare.gFlags.xfer.defer = true := hd
      simp only [if_neg hd, if_neg hd']
      exact finished_bare hback xferAttempts_bare

theorem ret_bare {p : Option TealetId} : Mirrors (fun p => ¬ p.2.Tampered) bareResult
    (ret s p sp) (ret s.bare p sp) := by
  unfold ret
  cases p with
  | none => exact .of_map rfl
  | some t =>
      by_cases hd : s.gFlags.xfer.defer = true
      · have hd' : s.bare.gFlags.xfer.defer = true := hd
        simp only [if_pos hd, if_pos hd']
        exact exit_bare (s := { s with gFlags := {}, gArg := null })
      · have hd' : ¬ s.bare.gFlags.xfer.defer = true := hd
        simp only [if_neg hd, if_neg hd']
        exact exit_bare

/-- A call that is not refused for the bytes past the boundary. -/
theorem callStep_bare (c : Call) (hc : ∀ q, c ≠ .configure q) :
    Mirrors (fun p => ¬ p.2.Tampered) bareResult (callStep s c) (callStep s.bare c) := by
  cases c with
  | new =>
      show Mirrors _ _ (.ok ((new s).1, _) : Res (State × Outcome))
        (.ok ((new s.bare).1, Outcome.handle (new s.bare).2))
      rw [new_bare]
      exact .ok
  | run t fn parg hint sw site => exact run_bare
  | spawn fn parg hint sw site => exact spawn_bare
  | fork t parg sw site => exact fork_bare
  | switch t parg f sp => exact switch_bare
  | exit t arg f sp => exact exit_bare
  | ret p sp => exact ret_bare
  | duplicate t =>
      show Mirrors _ _ (duplicate s t >>= _) (duplicate s.bare t >>= _)
      rw [duplicate_bare]
      exact .mapped fun p _ => .ok
  | delete t =>
      show Mirrors _ _ (delete s t >>= _) (delete s.bare t >>= _)
      rw [delete_bare]
      exact .mapped fun s₁ _ => .ok
  | status t =>
      show Mirrors _ _ (status s t >>= _) (status s.bare t >>= _)
      rw [status_bare]
      exact .mapped fun p _ => .ok
  | setFar t far =>
      show Mirrors _ _ (setFar s t far >>= _) (setFar s.bare t far >>= _)
      rw [setFar_bare]
      exact .mapped fun p _ => .ok
  | configure q => exact absurd rfl (hc q)

end Calls

/-! ## Runs -/

/-- A step of user code, with what it sees. -/
def Acts (l : UserAction × Outcome) (s s' : State) : Prop := act s l.1 = .ok (s', l.2)

/-- The same without instruments: the lock is not taken, and of a
configuration that was accepted the check of the caller's distance remains. -/
def bareLabels (l : UserAction × Outcome) : List (UserAction × Outcome) :=
  let limited (maxStackSize : Nat) : List (UserAction × Outcome) :=
    if l.2 = .returned .ok none then
      [(.event (.call (.configure { maxStackSize := maxStackSize }) [] []), .returned .ok none)]
    else []
  match l.1 with
  | .event (.write m) => [(.event (.write m), l.2)]
  | .event (.call (.configure request) _ _) => limited request.maxStackSize
  | .event (.call c allocs _) => [(.event (.call c allocs []), l.2)]
  | .checkStack _ _ _ => limited (16 * 1024 * 1024)
  | .setLocking _ | .lock | .unlock => []

/-- `t` is `s` without instruments; what is left of the environment's last
choices is of no account. -/
def Stripped (s t : State) : Prop :=
  ∃ allocs, t = { s.bare with heap := { s.heap with allocs := allocs } }

theorem Stripped.withChoices {s t : State} (h : Stripped s t) (allocs : List Bool)
    (mprotects : List (Option (Nat → Bool))) :
    t.withChoices allocs [] = (s.withChoices allocs mprotects).bare := by
  obtain ⟨_, rfl⟩ := h
  rfl

/-- What is left of a configuration. -/
theorem configureSet_limit (s : State) (m : Nat) :
    configureSet s { maxStackSize := m } =
      ({ s with env := { s.env with cfg := { maxStackSize := m } } }, .ok) := by
  have hcanon : configCanonicalize { maxStackSize := m } = { maxStackSize := m } := by
    simp [configCanonicalize]
  have hrequired : snapshotRequiredCapacity s.env.pageSize { maxStackSize := m } = 0 := by
    simp [snapshotRequiredCapacity]
  unfold configureSet
  simp only [hcanon, hrequired, true_or, if_true, snapshotEnsureCapacity]

theorem acts_limit (t : State) (m : Nat) :
    Acts (.event (.call (.configure { maxStackSize := m }) [] []), .returned .ok none) t
      { t.withChoices [] [] with
        env := { (t.withChoices [] []).env with cfg := { maxStackSize := m } } } := by
  unfold Acts act step callStep
  dsimp only
  rw [configureSet_limit]

/-- A configuration, and what is left of it. -/
theorem Stripped.configure {s t : State} (h : Stripped s t) (request : Config) :
    ∃ t', Steps Acts t
      (if Outcome.returned (configureSet s request).2 none = .returned .ok none then
        [(.event (.call (.configure { maxStackSize := request.maxStackSize }) [] []),
          .returned .ok none)] else []) t' ∧
      Stripped (configureSet s request).1 t' := by
  obtain ⟨left, e, hstate⟩ := configureSet_state s request
  have henv : (configureSet s request).1.env = e := by rw [hstate]
  obtain ⟨c, d, l, o, hwatch⟩ := configureSet_watching s request
  rcases configureSet_cases s request with ⟨-, hok, -, hcfg, -⟩ | ⟨-, hmem, -, hsame⟩
  · rw [if_pos (congrArg (Outcome.returned · none) hok)]
    refine ⟨_, .one (acts_limit t request.maxStackSize), [], ?_⟩
    have hbare : e.bare = { s.env.bare with cfg := { maxStackSize := request.maxStackSize } } := by
      rw [henv] at hwatch hcfg
      subst hwatch
      obtain rfl : c = configCanonicalize request := hcfg
      rfl
    obtain ⟨allocs, rfl⟩ := h
    rw [hstate]
    show _ = ({ s with heap := _, env := e.bare } : State)
    rw [hbare]
    rfl
  · have hne : Outcome.returned (configureSet s request).2 none ≠ .returned .ok none := by
      rw [hmem]
      intro hc
      cases hc
    rw [if_neg hne, hstate, ← henv, hsame]
    obtain ⟨allocs, rfl⟩ := h
    exact ⟨_, .nil, allocs, rfl⟩

/-- The lock functions. -/
theorem Stripped.lockLog {s t : State} (h : Stripped s t) (mode lock unlock : Bool)
    (log : List LockOp) : Stripped { s with env := { s.env with
      lockModeAuto := mode, hasLock := lock, hasUnlock := unlock, lockLog := log } } t := h

theorem Stripped.setLocking {s t : State} (h : Stripped s t) (locking : Option LockDescriptor) :
    Stripped (configureSetLocking s locking).1 t := by
  unfold configureSetLocking
  cases locking with
  | none => exact h.lockLog false false false s.env.lockLog
  | some d =>
      dsimp only
      split
      · exact h
      · exact h.lockLog _ _ _ s.env.lockLog

theorem bareLabels_call {c : Call} (hc : ∀ q, c ≠ .configure q) (allocs : List Bool)
    (mprotects : List (Option (Nat → Bool))) (o : Outcome) :
    bareLabels (.event (.call c allocs mprotects), o) = [(.event (.call c allocs []), o)] := by
  cases c <;> first | rfl | exact absurd rfl (hc _)

/-- A step is followed by the steps without instruments. -/
theorem Stripped.act {s s' t : State} {a : UserAction} {o : Outcome} (h : Stripped s t)
    (hs : act s a = .ok (s', o)) (ho : ¬ o.Tampered) :
    ∃ t', Steps Acts t (bareLabels (a, o)) t' ∧ Stripped s' t' := by
  have hchoices : ∀ allocs mprotects, Stripped (s.withChoices allocs mprotects) t := by
    intro allocs mprotects
    obtain ⟨allocs', rfl⟩ := h
    exact ⟨allocs', rfl⟩
  cases a with
  | event e =>
      cases e with
      | write m =>
          cases hs
          obtain ⟨allocs, rfl⟩ := h
          exact ⟨_, .one rfl, allocs, rfl⟩
      | call c allocs mprotects =>
          by_cases hc : ∃ q, c = .configure q
          · obtain ⟨request, rfl⟩ := hc
            cases hs
            exact (hchoices allocs mprotects).configure request
          · have hc' : ∀ q, c ≠ .configure q := fun q hq => hc ⟨q, hq⟩
            rw [bareLabels_call hc']
            have hcall := callStep_bare c hc' _ hs ho
            rw [← h.withChoices] at hcall
            exact ⟨_, .one hcall, s'.heap.allocs, rfl⟩
  | setLocking locking =>
      cases hs
      exact ⟨t, .nil, h.setLocking locking⟩
  | checkStack bytes marker allocs =>
      cases hs
      exact (hchoices allocs []).configure _
  | lock =>
      cases hs
      refine ⟨t, .nil, ?_⟩
      unfold lock
      split
      · exact h.lockLog _ _ _ _
      · exact h
  | unlock =>
      cases hs
      refine ⟨t, .nil, ?_⟩
      unfold unlock
      split
      · exact h.lockLog _ _ _ _
      · exact h

/-- The lock callbacks and the checks of the stack are transparent: as long as
no call is refused with `TEALET_ERR_INTEGRITY`, every run of user code, which
sets up, takes and releases the lock and sets up the checks as it likes, is a
run of the library without them: with the same calls and the same allocations
granted, every call has the same outcome, and the states are the same. -/
theorem instruments_transparent {s s' : State} {ls : List (UserAction × Outcome)}
    (h : Steps Acts s ls s') (hls : ∀ l ∈ ls, ¬ l.2.Tampered) :
    ∃ t, Steps Acts s.bare (ls.flatMap bareLabels) t ∧ Stripped s' t := by
  induction h with
  | nil => exact ⟨s.bare, .nil, s.heap.allocs, rfl⟩
  | @snoc ls l s₁ s₂ _ hs ih =>
      obtain ⟨t₁, hsteps, h₁⟩ := ih fun l' hl' => hls l' (List.mem_append_left _ hl')
      obtain ⟨t₂, hstep, h₂⟩ := h₁.act hs (hls l (List.mem_append_right _ List.mem_cons_self))
      refine ⟨t₂, ?_, h₂⟩
      rw [List.flatMap_append, List.flatMap_singleton]
      exact hsteps.append hstep

/-! ## An example -/

/-- The run of the actions `as`. -/
def actTrace (s : State) : List UserAction → Option (State × List (UserAction × Outcome))
  | [] => some (s, [])
  | a :: as =>
      match act s a with
      | .ok (s', o) => (actTrace s' as).map fun p => (p.1, (a, o) :: p.2)
      | .error _ => none

theorem steps_of_trace {as : List UserAction} {s : State} {p : State × List (UserAction × Outcome)}
    (h : actTrace s as = some p) : Steps Acts s p.2 p.1 := by
  induction as generalizing s p with
  | nil =>
      cases h
      exact .nil
  | cons a as ih =>
      rw [actTrace] at h
      split at h
      · rename_i s₁ o hs
        obtain ⟨q, hq, rfl⟩ := Option.map_eq_some_iff.mp h
        exact (Steps.one (show Acts (a, o) s s₁ from hs)).append (ih hq)
      · cases h

/-- With locks and checks a tealet is started and switches back; without them
main is current again as well. -/
theorem instruments_transparent_switch : ∃ (s t : State) (ls : List (UserAction × Outcome)),
    s.env.lockLog.length = 6 ∧ s.env.data.snapshotCapacity = 64 ∧ s.gCurrent = mainId ∧
    Steps Acts (initial (fun _ => 0) {}).bare (ls.flatMap bareLabels) t ∧ Stripped s t := by
  have htrace : (actTrace (initial (fun _ => 0) {})
      [.setLocking (some ⟨1, true, true⟩), .checkStack 64 2000 [], .event (.call .new [] []),
        .event (.call (.run 1 7 none null true ⟨1000, 990⟩) [] []),
        .event (.call (.switch 0 none {} 900) [] [])]).map
      (fun p => decide (p.1.env.lockLog.length = 6) &&
        decide (p.1.env.data.snapshotCapacity = 64) &&
        decide (p.1.gCurrent = mainId) &&
        decide (p.2.map Prod.snd = [.returned .ok none, .returned .ok none, .handle (some 1),
          .entered 7 1 0, .returned .ok none])) = some true := by
    decide +kernel
  obtain ⟨⟨s, ls⟩, ht, hs⟩ := Option.map_eq_some_iff.mp htrace
  simp only [Bool.and_eq_true, decide_eq_true_eq] at hs
  obtain ⟨⟨⟨hlog, hcap⟩, hmain⟩, houts⟩ := hs
  have hls : ∀ l ∈ ls, ¬ l.2.Tampered := by
    intro l hl
    have hmem : l.2 ∈ ls.map Prod.snd := List.mem_map_of_mem hl
    rw [houts] at hmem
    rintro ⟨x, cr, heq⟩
    rw [heq] at hmem
    simp at hmem
  obtain ⟨t, hsteps, hstripped⟩ := instruments_transparent (steps_of_trace ht) hls
  exact ⟨s, t, ls, hlog, hcap, hmain, hsteps, hstripped⟩

end Tealet
