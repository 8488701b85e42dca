import Tealet.Locks

/-!
# Lock scopes

Beside the lock that calls take in `TEALET_LOCK_AUTO` mode there is the lock
that user code takes itself, with `tealet_lock` and `tealet_unlock`, and the
descriptor may be exchanged between any two calls. `LockView` is what user
code knows of all this from its own actions: the descriptor it set and
whether its own `tealet_lock` is in force. It is not told of the callbacks
that calls make, and does not have to be.
-/

namespace Tealet

open Hoare

/-! ## The lock functions -/

/-- `tealet_lock_t`: the mode, and which of the callbacks are not `NULL`. -/
structure LockDescriptor where
  mode : Int
  lock : Bool
  unlock : Bool
deriving DecidableEq, Repr

/-- `tealet_configure_set_locking`. -/
def configureSetLocking (s : State) (locking : Option LockDescriptor) : State × Rc :=
  match locking with
  | none =>
      ({ s with env := { s.env with lockModeAuto := false, hasLock := false, hasUnlock := false } },
        .ok)
  | some d =>
      if d.mode ≠ 0 ∧ d.mode ≠ 1 then (s, .err .inval)
      else
        ({ s with env := { s.env with
            lockModeAuto := decide (d.mode = 1), hasLock := d.lock, hasUnlock := d.unlock } }, .ok)

/-- `tealet_lock`. -/
def lock (s : State) : State :=
  if s.env.hasLock then { s with env := { s.env with lockLog := .lock :: s.env.lockLog } } else s

/-- `tealet_unlock`. -/
def unlock (s : State) : State :=
  if s.env.hasUnlock then { s with env := { s.env with lockLog := .unlock :: s.env.lockLog } }
  else s

/-- `tealet_configure_check_stack`, called with a local at `marker`. -/
def configureCheckStack (s : State) (stackIntegrityBytes marker : Nat) : State × Rc :=
  let effectiveBytes :=
    if stackIntegrityBytes = 0 then (if s.env.pageSize = 0 then 4096 else s.env.pageSize)
    else stackIntegrityBytes
  configureSet s
    { integrity := true, guard := true, snapshot := true
      stackIntegrityBytes := effectiveBytes
      stackGuardMode := 2
      stackIntegrityFailPolicy := 1
      stackGuardLimit := marker }

/-! ## What user code does -/

/-- What user code does: the events of the runs, and beside them the lock and
the checks of the stack are set up and the lock is taken by hand. -/
inductive UserAction where
  | event (e : Event)
  | setLocking (locking : Option LockDescriptor)
  | checkStack (stackIntegrityBytes marker : Nat) (allocs : List Bool)
  | lock
  | unlock

def act (s : State) : UserAction → Res (State × Outcome)
  | .event e => step s e
  | .setLocking locking =>
      let (s, rc) := configureSetLocking s locking
      .ok (s, .returned rc none)
  | .checkStack bytes marker allocs =>
      let (s, rc) := configureCheckStack (s.withChoices allocs []) bytes marker
      .ok (s, .returned rc none)
  | .lock => .ok (lock s, .returned .ok none)
  | .unlock => .ok (unlock s, .returned .ok none)

/-- The calls that `TEALET_LOCK_AUTO` is about. -/
def Call.locks : Call → Bool
  | .status _ | .setFar _ _ | .configure _ => false
  | _ => true

/-- What user code knows: the mode it set, whether it gave callbacks, and
whether it holds the lock by its own `tealet_lock`. -/
structure LockView where
  auto : Bool := false
  callbacks : Bool := false
  held : Bool := false
deriving DecidableEq

def LockView.next (v : LockView) : UserAction → LockView
  | .event _ | .checkStack _ _ _ => v
  | .setLocking none => { v with auto := false, callbacks := false }
  | .setLocking (some d) =>
      if d.mode ≠ 0 ∧ d.mode ≠ 1 then v
      else { v with auto := decide (d.mode = 1), callbacks := d.lock }
  | .lock => { v with held := v.held || v.callbacks }
  | .unlock => { v with held := v.held && !v.callbacks }

/-- What is asked of the caller: the callbacks come in pairs, the lock is
taken only when it is not held and released only when it is, and in
`TEALET_LOCK_AUTO` mode calls that lock are made without it. -/
def LockView.Allows (v : LockView) : UserAction → Prop
  | .event (.call c _ _) => v.auto = true → v.callbacks = true → c.locks = true → v.held = false
  | .event (.write _) | .checkStack _ _ _ | .setLocking none => True
  | .setLocking (some d) => d.lock = d.unlock
  | .lock => v.callbacks = true → v.held = false
  | .unlock => v.callbacks = true → v.held = true

instance (v : LockView) : (a : UserAction) → Decidable (v.Allows a)
  | .event (.call _ _ _) => inferInstanceAs (Decidable (_ → _ → _ → _))
  | .event (.write _) | .checkStack _ _ _ | .setLocking none => inferInstanceAs (Decidable True)
  | .setLocking (some d) => inferInstanceAs (Decidable (d.lock = d.unlock))
  | .lock | .unlock => inferInstanceAs (Decidable (_ → _))

/-- The runs of a caller who does what is allowed, with what it knows at their end. -/
inductive LockRun (s : State) : State → LockView → Prop where
  | refl : LockRun s s {}
  | tail {s₁ s₂ : State} {v : LockView} {a : UserAction} {o : Outcome} :
      LockRun s s₁ v → v.Allows a → act s₁ a = .ok (s₂, o) → LockRun s s₂ (v.next a)

/-! ## Calls that make no callbacks -/

/-- The descriptor and the callbacks made so far are the same. -/
structure Env.SameLock (e e' : Env) : Prop where
  mode : e'.lockModeAuto = e.lockModeAuto
  lock : e'.hasLock = e.hasLock
  unlock : e'.hasUnlock = e.hasUnlock
  log : e'.lockLog = e.lockLog

namespace Env.SameLock

variable {e e₁ e₂ : Env}

theorem refl (e : Env) : e.SameLock e := ⟨rfl, rfl, rfl, rfl⟩

theorem trans (h : e.SameLock e₁) (h' : e₁.SameLock e₂) : e.SameLock e₂ :=
  ⟨h'.mode.trans h.mode, h'.lock.trans h.lock, h'.unlock.trans h.unlock, h'.log.trans h.log⟩

theorem books (h : e.SameLock e₁) (hb : e₁.Books e₂) : e.SameLock e₂ := by
  obtain ⟨n, c, f, g, rfl⟩ := hb
  exact ⟨h.mode, h.lock, h.unlock, h.log⟩

theorem watching (h : e.SameLock e₁) (hw : e₁.Watching e₂) : e.SameLock e₂ := by
  obtain ⟨c, d, l, o, rfl⟩ := hw
  exact ⟨h.mode, h.lock, h.unlock, h.log⟩

end Env.SameLock

/-- `tealet_lock_auto` and `tealet_unlock_auto` do nothing. -/
def Env.Silent (e : Env) : Prop :=
  e.lockModeAuto = false ∨ (e.hasLock = false ∧ e.hasUnlock = false)

theorem Env.Silent.congr {e e' : Env} (h : e.Silent) (hs : e.SameLock e') : e'.Silent := by
  unfold Env.Silent
  rw [hs.mode, hs.lock, hs.unlock]
  exact h

theorem Env.Silent.lockAuto {e : Env} (h : e.Silent) : e.lockAuto = e := by
  unfold Env.lockAuto
  rcases h with h | ⟨h, -⟩ <;> simp [h]

theorem Env.Silent.unlockAuto {e : Env} (h : e.Silent) : e.unlockAuto = e := by
  unfold Env.unlockAuto
  rcases h with h | ⟨-, h⟩ <;> simp [h]

/-- A silent environment stays as it is, through every switch of stacks. -/
theorem Env.SameLock.rule {e₀ : Env} (h₀ : e₀.Silent) :
    EnvRule e₀.SameLock e₀.SameLock e₀.SameLock where
  lock h := by
    rw [(h₀.congr h).lockAuto]
    exact h
  unlock h := by
    rw [(h₀.congr h).unlockAuto]
    exact h
  books h hb := h.books hb
  copying h hb := h.books hb
  release {e m} h := by
    refine (guardUnprotectCurrent_watching e).bind fun e₁ h₁ => ?_
    refine (snapshotVerifyCurrent_watching e₁ m).imp fun p hp => ?_
    exact ⟨fun _ => h.watching (h₁.trans hp), fun _ => h.watching (h₁.trans hp)⟩
  arm {e m c sp} h := (armEnv_watching e m c sp).imp fun _ hw => h.watching hw
  configure h := h.watching (configureSet_watching _ _)

/-- The other calls make no callbacks in either mode. -/
theorem callStep_sameLock {s : State} {c : Call} (hc : c.locks = false) :
    Returns (fun p => s.env.SameLock p.1.env) (callStep s c) := by
  cases c with
  | status t =>
      have hstatus : Returns (fun p => s.env.SameLock p.1.env) (status s t) := by
        unfold status
        refine returns_any.bind fun r _ => ?_
        split
        · exact .refl _
        split
        · exact .refl _
        refine Sat.bind (Q := fun p : State × Bool => s.env.SameLock p.1.env) ?_ fun p hp => hp
        unfold isDefunct
        refine returns_any.bind fun r _ => ?_
        split
        · exact .refl _
        split
        · exact .refl _
        refine returns_any.bind fun st _ => ?_
        split <;> exact .refl _
      exact hstatus.bind fun p hp => hp
  | setFar t far =>
      have hset : Returns (fun p => s.env.SameLock p.1.env) (setFar s t far) := by
        unfold setFar
        refine returns_any.bind fun r _ => ?_
        split <;> exact .refl _
      exact hset.bind fun p hp => hp
  | configure request => exact (Env.SameLock.refl _).watching (configureSet_watching s request)
  | _ => cases hc

/-- ... and copy no stacks. -/
theorem Call.Copies.locks {s s₂ : State} {c : Call} (h : c.Copies s s₂) : c.locks = true := by
  obtain ⟨w, hw, -⟩ := h
  cases hw with
  | xfer hq => cases c <;> first | rfl | cases hq
  | run => rfl
  | spawn => rfl
  | fork => rfl

/-! ## The lock as the caller sees it -/

/-- The callbacks were proper, the descriptor is the one that was set last,
and the lock is held by the caller's own `tealet_lock` or not at all. -/
structure LockView.Shows (v : LockView) (e : Env) : Prop where
  auto : e.lockModeAuto = v.auto
  lock : e.hasLock = v.callbacks
  unlock : e.hasUnlock = v.callbacks
  proper : LockProper e.lockLog
  held : lockHeld e.lockLog = v.held

namespace LockView.Shows

variable {v : LockView} {e e' : Env} {s s' : State} {c : Call} {o : Outcome}

theorem sameLock (h : v.Shows e) (hs : e.SameLock e') : v.Shows e' := by
  refine ⟨hs.mode.trans h.auto, hs.lock.trans h.lock, hs.unlock.trans h.unlock, ?_, ?_⟩
  · rw [hs.log]
    exact h.proper
  · rw [hs.log]
    exact h.held

theorem silent (h : v.Shows e) (hv : v.auto = false ∨ v.callbacks = false) : e.Silent := by
  rcases hv with hv | hv
  · exact .inl (h.auto.trans hv)
  · exact .inr ⟨h.lock.trans hv, h.unlock.trans hv⟩

/-- In `TEALET_LOCK_AUTO` mode with the lock free calls may lock. -/
theorem locked (h : v.Shows e) (ha : v.auto = true) (hc : v.callbacks = true)
    (hf : v.held = false) : e.Locked false :=
  ⟨⟨h.auto.trans ha, h.lock.trans hc, h.unlock.trans hc⟩, h.proper, h.held.trans hf⟩

theorem of_locked (h : e.Locked false) (ha : v.auto = true) (hc : v.callbacks = true)
    (hf : v.held = false) : v.Shows e :=
  ⟨h.auto.mode.trans ha.symm, h.auto.lock.trans hc.symm, h.auto.unlock.trans hc.symm, h.proper,
    h.held.trans hf.symm⟩

/-- A call leaves the lock as it found it: in `TEALET_LOCK_AUTO` mode it takes
the free lock and it is released again, in whichever call returns; otherwise
no callback is made. -/
theorem callStep (h : v.Shows s.env)
    (hv : v.auto = true → v.callbacks = true → c.locks = true → v.held = false) :
    Returns (fun p => v.Shows p.1.env) (callStep s c) := by
  cases hl : c.locks with
  | false => exact (callStep_sameLock hl).imp fun p hp => h.sameLock hp
  | true =>
      by_cases hac : v.auto = true ∧ v.callbacks = true
      · obtain ⟨ha, hc⟩ := hac
        have hfree := hv ha hc hl
        exact (Env.Locked.rule.passes.callStep (h.locked ha hc hfree) c).imp fun p hp =>
          of_locked hp ha hc hfree
      · have hsilent : s.env.Silent := h.silent (by grind)
        exact ((Env.SameLock.rule hsilent).passes.callStep (.refl _) c).imp fun p hp =>
          h.sameLock hp

/-- Stacks are copied with the lock held, when the caller holds it or calls lock. -/
theorem copies {s₂ : State} (h : v.Shows s.env)
    (hv : v.auto = true → v.callbacks = true → c.locks = true → v.held = false)
    (hc : c.Copies s s₂) : LockProper s₂.env.lockLog ∧
      lockHeld s₂.env.lockLog = (v.held || (v.auto && v.callbacks)) := by
  by_cases hac : v.auto = true ∧ v.callbacks = true
  · obtain ⟨ha, hcb⟩ := hac
    have hk := Env.Locked.rule.copies (h.locked ha hcb (hv ha hcb hc.locks)) hc
    exact ⟨hk.proper, by rw [hk.held, ha, hcb, Bool.and_self, Bool.or_true]⟩
  · have hsilent : s.env.Silent := h.silent (by grind)
    have hk := h.sameLock ((Env.SameLock.rule hsilent).copies (.refl _) hc)
    refine ⟨hk.proper, ?_⟩
    rw [hk.held, show (v.auto && v.callbacks) = false by grind, Bool.or_false]

/-- The environment's choices have nothing to do with the lock. -/
theorem withChoices (h : v.Shows s.env) (allocs : List Bool)
    (mprotects : List (Option (Nat → Bool))) : v.Shows (s.withChoices allocs mprotects).env :=
  h.sameLock ((Env.SameLock.refl _).watching ⟨_, _, _, mprotects, rfl⟩)

theorem setLocking {locking : Option LockDescriptor} (h : v.Shows s.env)
    (ha : v.Allows (.setLocking locking)) :
    (v.next (.setLocking locking)).Shows (configureSetLocking s locking).1.env := by
  cases locking with
  | none => exact ⟨rfl, rfl, rfl, h.proper, h.held⟩
  | some d =>
      unfold configureSetLocking LockView.next
      by_cases hd : d.mode ≠ 0 ∧ d.mode ≠ 1
      · simp only [if_pos hd]
        exact h
      · simp only [if_neg hd]
        exact ⟨rfl, rfl, ha.symm, h.proper, h.held⟩

/-- The caller takes the lock, or there are no callbacks. -/
theorem lockCall (h : v.Shows s.env) (ha : v.Allows .lock) :
    (v.next .lock).Shows (Tealet.lock s).env := by
  unfold Tealet.lock
  cases hc : v.callbacks with
  | false =>
      rw [h.lock.trans hc]
      exact ⟨h.auto, h.lock, h.unlock, h.proper, by simp [next, hc, h.held]⟩
  | true =>
      rw [if_pos (h.lock.trans hc)]
      have hfree : lockHeld s.env.lockLog = false := h.held.trans (ha hc)
      exact ⟨h.auto, h.lock, h.unlock, h.proper.cons hfree, by simp [next, hc, lockHeld]⟩

theorem unlockCall (h : v.Shows s.env) (ha : v.Allows .unlock) :
    (v.next .unlock).Shows (Tealet.unlock s).env := by
  unfold Tealet.unlock
  cases hc : v.callbacks with
  | false =>
      rw [h.unlock.trans hc]
      exact ⟨h.auto, h.lock, h.unlock, h.proper, by simp [next, hc, h.held]⟩
  | true =>
      rw [if_pos (h.unlock.trans hc)]
      have hheld : lockHeld s.env.lockLog = true := h.held.trans (ha hc)
      exact ⟨h.auto, h.lock, h.unlock, h.proper.cons hheld, by simp [next, hc, lockHeld]⟩

theorem act {a : UserAction} (h : v.Shows s.env) (ha : v.Allows a) (hs : act s a = .ok (s', o)) :
    (v.next a).Shows s'.env := by
  cases a with
  | event e =>
      cases e with
      | write m =>
          cases hs
          exact h
      | call c allocs mprotects =>
          exact ((h.withChoices allocs mprotects).callStep ha).result hs
  | setLocking locking =>
      cases hs
      exact h.setLocking ha
  | checkStack bytes marker allocs =>
      cases hs
      exact (h.withChoices allocs []).sameLock
        ((Env.SameLock.refl _).watching (configureSet_watching _ _))
  | lock =>
      cases hs
      exact h.lockCall ha
  | unlock =>
      cases hs
      exact h.unlockCall ha

end LockView.Shows

/-- The run of the actions `as`, if they are allowed. -/
def lockTrace (s : State) (v : LockView) : List UserAction → Option (State × LockView)
  | [] => some (s, v)
  | a :: as =>
      if v.Allows a then
        match act s a with
        | .ok (s', _) => lockTrace s' (v.next a) as
        | .error _ => none
      else none

theorem LockRun.trace {s s₁ : State} {v : LockView} {as : List UserAction} {p : State × LockView}
    (h : LockRun s s₁ v) (ht : lockTrace s₁ v as = some p) : LockRun s p.1 p.2 := by
  induction as generalizing s₁ v with
  | nil =>
      cases ht
      exact h
  | cons a as ih =>
      rw [lockTrace] at ht
      split at ht
      · rename_i ha
        split at ht
        · rename_i s₂ o hs
          exact ih (h.tail ha hs) ht
        · cases ht
      · cases ht

end Tealet
