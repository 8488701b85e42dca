import Tealet.EnvRule
import Tealet.Trace

/-!
# Lock discipline

With `TEALET_LOCK_AUTO` the lock a call takes is often released in another
one: by the call the target is suspended in, or before its run function is
entered. What the callbacks are made for does not matter to the balance:
between calls the lock is free, and `tealet_switchstack` is entered and left
with the lock held, whichever calls it is entered from and left to.
-/

namespace Tealet

open Hoare

/-- The lock is held after the callbacks `log`, newest first. -/
def lockHeld : List LockOp → Bool
  | .lock :: _ => true
  | _ => false

/-- Every callback of the log was proper when it was made: `lock` with the
lock free, `unlock` with the lock held. -/
def LockProper (log : List LockOp) : Prop :=
  ∀ op older, op :: older <:+ log → lockHeld older = decide (op = .unlock)

theorem lockProper_nil : LockProper [] := by
  intro op older h
  exact absurd (List.suffix_nil.mp h) (List.cons_ne_nil _ _)

theorem LockProper.cons {log : List LockOp} {op : LockOp} (h : LockProper log)
    (hop : lockHeld log = decide (op = .unlock)) : LockProper (op :: log) := by
  intro op' older hs
  rcases List.suffix_cons_iff.mp hs with heq | hs
  · cases heq
    exact hop
  · exact h op' older hs

/-- The descriptor is in `TEALET_LOCK_AUTO` mode with both callbacks. -/
structure Env.LockAuto (e : Env) : Prop where
  mode : e.lockModeAuto = true
  lock : e.hasLock = true
  unlock : e.hasUnlock = true

/-- The callbacks were proper, and leave the lock held or free. -/
structure Env.Locked (held : Bool) (e : Env) : Prop where
  auto : e.LockAuto
  proper : LockProper e.lockLog
  held : lockHeld e.lockLog = held

namespace Env.Locked

variable {e e' : Env} {held : Bool}

theorem lockAuto (h : e.Locked false) : e.lockAuto.Locked true := by
  have heq : e.lockAuto = { e with lockLog := .lock :: e.lockLog } := by
    simp [Env.lockAuto, h.auto.mode, h.auto.lock]
  rw [heq]
  exact ⟨⟨h.auto.mode, h.auto.lock, h.auto.unlock⟩, h.proper.cons h.held, rfl⟩

theorem unlockAuto (h : e.Locked true) : e.unlockAuto.Locked false := by
  have heq : e.unlockAuto = { e with lockLog := .unlock :: e.lockLog } := by
    simp [Env.unlockAuto, h.auto.mode, h.auto.unlock]
  rw [heq]
  exact ⟨⟨h.auto.mode, h.auto.lock, h.auto.unlock⟩, h.proper.cons h.held, rfl⟩

theorem books (h : e.Locked held) (hb : e.Books e') : e'.Locked held := by
  obtain ⟨n, c, f, g, rfl⟩ := hb
  exact ⟨⟨h.auto.mode, h.auto.lock, h.auto.unlock⟩, h.proper, h.held⟩

theorem watching (h : e.Locked held) (hw : e.Watching e') : e'.Locked held := by
  obtain ⟨c, d, l, o, rfl⟩ := hw
  exact ⟨⟨h.auto.mode, h.auto.lock, h.auto.unlock⟩, h.proper, h.held⟩

/-- The lock is taken by a call and held up to the end of the call it returns in. -/
theorem rule : EnvRule (Env.Locked false) (Env.Locked true) (Env.Locked true) where
  lock h := h.lockAuto
  unlock h := h.unlockAuto
  books h hb := h.books hb
  copying h hb := h.books hb
  release {e m} h := by
    refine (guardUnprotectCurrent_watching e).bind fun e₁ h₁ => ?_
    refine (snapshotVerifyCurrent_watching e₁ m).imp fun p hp => ?_
    exact ⟨fun _ => h.watching (h₁.trans hp), fun _ => h.watching (h₁.trans hp)⟩
  arm {e m c sp} h := (armEnv_watching e m c sp).imp fun _ hw => h.watching hw
  configure h := h.watching (configureSet_watching _ _)

end Env.Locked

theorem Env.Locked.step {s s' : State} {e : Event} {o : Outcome} (h : s.env.Locked false)
    (hs : step s e = .ok (s', o)) : s'.env.Locked false := by
  cases e with
  | write m =>
      cases hs
      exact h
  | call c allocs mprotects =>
      have h' : (s.withChoices allocs mprotects).env.Locked false :=
        h.watching ⟨_, _, _, mprotects, rfl⟩
      exact (Env.Locked.rule.passes.callStep h' c).result hs

/-- With a lock descriptor in `TEALET_LOCK_AUTO` mode, in any run from a state
in which no callback was made: `lock` is only called with the lock free and
`unlock` only with the lock held, user code runs with the lock free, and
stacks are saved, grown and restored with the lock held throughout. -/
theorem lock_discipline {P : State → Event → Prop} {s s' : State} (hauto : s.env.LockAuto)
    (hlog : s.env.lockLog = []) (h : Run P s s') :
    LockProper s'.env.lockLog ∧ lockHeld s'.env.lockLog = false ∧
    ∀ (e : Event) s₂, e.Copies s' s₂ → LockProper s₂.env.lockLog ∧ lockHeld s₂.env.lockLog = true ∧
      ∀ k sp, Returns (fun p => p.1.env.lockLog = s₂.env.lockLog) (stackmanSwitch s₂ k sp) := by
  have hstart : s.env.Locked false := by
    refine ⟨hauto, ?_, ?_⟩
    · rw [hlog]
      exact lockProper_nil
    · rw [hlog]
      rfl
  have hend : s'.env.Locked false := h.invariant (I := fun s => s.env.Locked false) hstart
    fun _ _ _ _ h₁ _ hs => h₁.step hs
  refine ⟨hend.proper, hend.held, ?_⟩
  intro e s₂ hc
  cases e with
  | write m => exact hc.elim
  | call c allocs mprotects =>
      have hstart' : (s'.withChoices allocs mprotects).env.Locked false :=
        hend.watching ⟨_, _, _, mprotects, rfl⟩
      have hcopy : s₂.env.Locked true := Env.Locked.rule.copies hstart' hc
      refine ⟨hcopy.proper, hcopy.held, fun k sp => ?_⟩
      refine (stackmanSwitch_books s₂ k sp).imp fun p hp => ?_
      obtain ⟨n, c, f, g, heq⟩ := hp
      rw [heq]
      rfl

/-- Main takes the lock to start a tealet and its run function is entered
unlocked; the lock the tealet takes to switch back is released by main. -/
theorem lock_discipline_start : ∃ s, Run Legal (initial (fun _ => 0)
      { lockModeAuto := true, hasLock := true, hasUnlock := true }) s ∧
    s.gCurrent = mainId ∧ s.env.lockLog.length = 6 ∧ LockProper s.env.lockLog := by
  obtain ⟨s, hrun, hs⟩ := exists_run_of_trace (P := Legal) (p := fun s e => e.legal s)
    (fun s e h => Event.legal_spec h)
    [.call .new [] [], .call (.run 1 7 none null true ⟨1000, 990⟩) [] [],
      .call (.switch 0 none {} 900) [] []]
    (s := initial (fun _ => 0) { lockModeAuto := true, hasLock := true, hasUnlock := true })
    (fun s => decide (s.gCurrent = mainId) && decide (s.env.lockLog.length = 6))
    (by decide +kernel)
  simp only [Bool.and_eq_true, decide_eq_true_eq] at hs
  exact ⟨s, hrun, hs.1, hs.2, (lock_discipline ⟨rfl, rfl, rfl⟩ rfl hrun).1⟩

end Tealet
