import Tealet.Trace

/-!
# The current tealet

In runs in which no transfer under PANIC goes to a tealet that was captured
by `TEALET_START_DEFAULT` and has not run, the current tealet is the one
whose stack is live and every other active tealet has a stack to be resumed
from. A transfer under PANIC to such a capture breaks this at once: the
start is left as a failed one, which makes the creator current again while
the stack of the capture is live.
-/

namespace Tealet

open DList Slice Hoare

/-- Who is current agrees with whose stack is live. -/
structure State.CurrentOk (s : State) : Prop where
  live : s.live = s.gCurrent
  current : ∃ r, s.tealets s.gCurrent = some r ∧ r.flags.Active ∧ r.stack = none
  suspended : ∀ t r, s.tealets t = some r → t ≠ s.gCurrent → r.flags.Active →
    ∃ k st, r.stack = some k ∧ s.heap.stackAt k = some st

/-- An attempt of the event `e` to transfer returns as `b`, in the state `s₂`. -/
def Event.ReturnsIn (s : State) (e : Event) (s₂ : State) (b : Back) : Prop :=
  ∃ c allocs mprotects s₀ q s₁ t f, e = .call c allocs mprotects ∧
    c.request (s.withChoices allocs mprotects) = some (s₀, q) ∧ Attempt s₀ q s₁ t f ∧
    xferInner s₁ t q.arg f q.isExit q.frame q.sp = .ok (s₂, b)

theorem Inv.currentOk {leak : StackId → Nat} {s : State} {a : Saved} (I : Inv leak s a) :
    s.CurrentOk := by
  obtain ⟨own, H⟩ := I.rep
  refine ⟨I.sched.live, I.sched.running, fun t r hr ht hact => ?_⟩
  obtain ⟨k, hk⟩ := Option.ne_none_iff_exists'.mp (I.sched.suspended t r hr ht hact)
  obtain ⟨im, him, -⟩ := I.core.owned t r k hr hk
  obtain ⟨st, hst, -⟩ := H.stack k im him
  exact ⟨k, st, hk, hst⟩

section Attempts

variable {leak : StackId → Nat} {s s₁ s₂ : State} {a : Saved} {q : Request} {t : TealetId}
  {f : XFlags} {b : Back}

/-- What a transfer returns in, and how. -/
theorem Attempted.returns {c r : TealetSub} {arg : Ptr} {isExit : Bool} {k : Frame} {sp : Nat}
    (I : Inv leak s a) (hr : s.tealets t = some r) (hk : OwnFrame s isExit k)
    (h : Attempted s a t arg f isExit k sp c r (s₂, b)) :
    b.frame.isCapture = false ∨ t ≠ s.gCurrent ∧ s.frameOf t = some b.frame ∧
      b.rc = if f.panic then .err .panic else .ok := by
  have hown : k.isCapture = false := by
    unfold OwnFrame at hk
    split at hk <;> obtain ⟨_, rfl⟩ := hk <;> rfl
  obtain ⟨own, H⟩ := I.rep
  cases h with
  | unbound hb hp => cases hp; exact .inl rfl
  | toSelf ht hp => cases isExit <;> cases hp <;> exact .inl rfl
  | exited hx hp => cases hp; exact .inl hown
  | defunct hx hd hp => cases hp; exact .inl hown
  | spoiled hx hd hkt him hdim hp => cases hp; exact .inl hown
  | rejected hu hrej hp => cases hp; exact .inl hown
  | tampered hu hg hs he hp => cases hp; exact .inl hown
  | nomem ht hu hg hfate hrep hal hb =>
      rw [show b = _ from hb]
      exact .inl hown
  | @moved kt im im' a' own' g fate ht hexit hu hv hg hfate him' hrep hal hb =>
      rw [show b = _ from hb]
      exact .inr ⟨ht, frameOf_eq H hr hu.stack hu.img, rfl⟩

end Attempts

/-- The calls of runs in which no capture is resumed under PANIC. -/
def NoPanicCapture (s : State) (e : Event) : Prop := Legal s e ∧ e.PanicResumes False s

/-- In such runs the current tealet is the one that runs, and a start is
never left as a failed one through the tealet it captured. -/
theorem current_is_live {mem : Memory} {env : Env} {s : State}
    (h : Run NoPanicCapture (initial mem env) s) :
    s.CurrentOk ∧ ∀ e s₂ b, NoPanicCapture s e → e.ReturnsIn s s₂ b →
      b.frame.isCapture = true → b.rc = .ok := by
  obtain ⟨leak, a, I, -⟩ := h.inv' False fun s e he => he
  refine ⟨I.currentOk, ?_⟩
  rintro e s₂ b ⟨hL, hP⟩ ⟨c, allocs, mprotects, s₀, q, s₁, t, f, rfl, hq, ha, heq⟩ hcap
  have hL' : c.Legal (s.withChoices allocs mprotects) := by
    cases c <;> exact hL
  obtain ⟨I₀, -⟩ := (I.withChoices allocs mprotects).withRequest hq
  obtain ⟨halive, hsp⟩ := request_legal hq hL'
  have halive₀ : Alive s₀ q.target := by
    obtain ⟨fl, ar, rfl, -⟩ := request_state hq
    exact halive
  obtain ⟨a₁, I₁, hk, hlive⟩ := ha.inv I₀ hsp (request_frame hq) halive₀
  obtain ⟨cr, hc, -⟩ := I₁.sched.running
  obtain ⟨r, hr⟩ := Option.isSome_iff_exists.mp hlive
  rcases ((I₁.xferInner_returns hc hr hsp hk).result heq).returns I₁ hr hk with hno | ⟨ht, hfr, hrc⟩
  · rw [hno] at hcap
    cases hcap
  · cases hp : f.panic with
    | false => rw [hrc, hp, if_neg (by simp)]
    | true =>
        have hno := (hP s₁ t f q.isExit _ (.xfer hq ha) hp ht b.frame hfr).1
        rw [hno] at hcap
        cases hcap

/-- Whether no capture is resumed under PANIC. -/
def Event.panicResumes (s : State) (e : Event) : Bool :=
  e.attemptsAll (fun s₁ t f => !f.panic || decide (t = s₁.gCurrent) ||
    (s₁.frameOf t).all fun fr => !fr.isCapture) s

theorem Event.panicResumes_spec {s : State} {e : Event} (h : e.panicResumes s = true) :
    e.PanicResumes False s := by
  intro s₁ t f isExit allocs ha hp ht fr hfr
  have := Event.attemptsAll_spec h ha
  simp only [hp, hfr, ht, Bool.not_true, decide_false, Bool.or_self, Bool.false_or,
    Option.all_some, Bool.not_eq_true'] at this
  exact ⟨this, False.elim⟩

/-- Main captures a tealet, which runs first and is then sent back under PANIC. -/
theorem current_is_live_panic : ∃ s, Run NoPanicCapture (initial (fun _ => 0) {}) s ∧
    s.gPrevious = some 1 ∧ s.CurrentOk := by
  obtain ⟨s, hrun, hs⟩ := exists_run_of_trace (P := NoPanicCapture)
    (p := fun s e => e.legal s && e.panicResumes s)
    (fun s e h => by
      obtain ⟨h₁, h₂⟩ := Bool.and_eq_true_iff.mp h
      exact ⟨Event.legal_spec h₁, Event.panicResumes_spec h₂⟩)
    [.call .new [] [], .call (.run 1 7 none null false ⟨1000, 990⟩) [] [],
      .call (.switch 1 none {} 900) [] [], .call (.switch 0 none { panic := true } 900) [] []]
    (s := initial (fun _ => 0) {})
    (fun s => decide (s.gPrevious = some 1)) (by decide +kernel)
  exact ⟨s, hrun, of_decide_eq_true hs, (current_is_live hrun).1⟩

/-- A capture that is resumed under PANIC leaves its creator current. Its
boundary lies beyond the frame that called `tealet_run`, which is restored. -/
theorem panic_to_capture :
    ¬ ∀ mem env s, Run Legal (initial mem env) s → s.CurrentOk := by
  intro h
  obtain ⟨s, hrun, hs⟩ := exists_run_of_trace (P := Legal) (p := fun s e => e.legal s)
    (fun s e h => Event.legal_spec h)
    [.call .new [] [], .call (.run 1 7 none null true ⟨1000, 990⟩) [] [],
      .call .new [] [], .call (.run 2 7 none 950 false ⟨900, 890⟩) [] [],
      .call (.switch 2 none { panic := true } 880) [] []]
    (s := initial (fun _ => 0) {})
    (fun s => decide (s.gCurrent = 1) && decide (s.live = 2)) (by decide +kernel)
  have hlive := (h _ _ s hrun).live
  simp only [Bool.and_eq_true, decide_eq_true_eq] at hs
  rw [hs.1, hs.2] at hlive
  cases hlive

end Tealet
