import Tealet.Outcomes
import Tealet.Trace

/-!
# What a transfer delivers

The argument of a transfer, its PANIC bit and the one-shot flags of the
caller travel through fields that one context sets and another consumes.
In runs without deferred exits in which only calls of `tealet_switch` are
resumed under PANIC, every one of them is consumed by the transfer that
set it: the fields are clear between calls, and a transfer resumes one
tealet, with its own argument and its own code.
-/

namespace Tealet

open Hoare

/-! ## Runs -/

/-- No exit is deferred. -/
def Event.Undeferred : Event → Prop
  | .call (.exit _ _ flags _) _ _ => flags.defer = false
  | _ => True

/-- Only a tealet suspended in `tealet_switch` is resumed under PANIC. -/
def Event.PanicSwitches (s : State) (e : Event) : Prop :=
  ∀ s₁ t f isExit allocs, e.Attempts s s₁ (.xfer t f isExit allocs) → f.panic = true →
    t ≠ s₁.gCurrent → ∀ fr, s₁.frameOf t = some fr → ∃ g out, fr = .switch g out

structure Delivering (s : State) (e : Event) : Prop where
  legal : Legal s e
  undeferred : e.Undeferred
  panics : e.PanicSwitches s

theorem Event.PanicSwitches.resumes {s : State} {e : Event} (h : e.PanicSwitches s) :
    e.PanicResumes True s := by
  cases e with
  | write m => exact fun _ _ _ _ _ h => nomatch h.2
  | call cl allocs mprotects =>
      intro s₁ t f isExit al ha hp ht fr hfr
      obtain ⟨g, out, rfl⟩ := h s₁ t f isExit al ha hp ht fr hfr
      exact ⟨rfl, fun _ => rfl⟩

/-! ## One step -/

/-- The call returns `TEALET_ERR_PANIC`. -/
def Outcome.Panics : Outcome → Prop
  | .returned (.err .panic) _ _ => True
  | _ => False

/-- The call returns 0, or a run function is entered. -/
def Outcome.Succeeds : Outcome → Prop
  | .returned .ok _ _ | .entered _ _ _ => True
  | _ => False

/-- The call starts the tealet `t` inside `k`, with `TEALET_START_SWITCH` if `sw`. -/
inductive Starts (s : State) : Call → TealetId → Frame → Bool → Prop where
  | run {t : TealetId} {fn : RunFn} {parg : Option Ptr} {hint : Nat} {sw : Bool} {site : Site} :
      Starts s (.run t fn parg hint sw site) t
        (.run t s.gCurrent s.gPrevious fn (parg.getD null) sw parg.isSome false) sw
  | spawn {fn : RunFn} {parg : Option Ptr} {hint : Nat} {sw : Bool} {site : Site} :
      Starts s (.spawn fn parg hint sw site) s.nextTealet
        (.run s.nextTealet s.gCurrent s.gPrevious fn (parg.getD null) sw parg.isSome true) sw
  | fork {t : TealetId} {parg : Option Ptr} {sw : Bool} {site : Site} :
      Starts s (.fork t parg sw site) t (.fork t s.gCurrent s.gPrevious sw parg.isSome) sw

/-- The calls that transfer control or start a tealet. -/
def Call.Transfers : Call → Prop
  | .run .. | .spawn .. | .fork .. | .switch .. | .exit .. | .ret .. => True
  | _ => False

/-- What becomes of such a call, and of the calls other tealets are suspended in. -/
inductive Delivery (s : State) (cl : Call) (s' : State) (o : Outcome) : Prop where
  /-- the caller goes on, with nothing stored through its `parg` -/
  | failed {e : Err} (ho : o = .returned (.err e) none) (he : e ≠ .panic)
      (hcur : s'.gCurrent = s.gCurrent) (hframes : ∀ u, s'.frameOf u = s.frameOf u)
  | toSelf {s₀ s₁ : State} {q : Request} {f : XFlags} (hq : cl.request s = some (s₀, q))
      (ha : Attempt s₀ q s₁ s.gCurrent f)
      (ho : o = .returned (if f.panic then .err .panic else .ok) none)
      (hcur : s'.gCurrent = s.gCurrent) (hframes : ∀ u, s'.frameOf u = s.frameOf u)
  /-- the tealet `t` is resumed, and no other -/
  | moved {s₀ s₁ : State} {q : Request} {t : TealetId} {f : XFlags} {fr : Frame}
      (hq : cl.request s = some (s₀, q)) (ha : Attempt s₀ q s₁ t f) (ht : t ≠ s.gCurrent)
      (hfr : s.frameOf t = some fr) (ho : o = fr.delivers t q.arg f.panic)
      (hrc : if f.panic then o.Panics else o.Succeeds) (hcur : s'.gCurrent = t)
      (hothers : ∀ u, u ≠ s.gCurrent → u ≠ t → s'.frameOf u = s.frameOf u)
  /-- a tealet starts, or is captured and the caller goes on -/
  | started {t : TealetId} {k : Frame} {sw : Bool} (hk : Starts s cl t k sw)
      (ho : o = startOutcome t k) (hcur : s'.gCurrent = if sw then t else s.gCurrent)
      (hothers : ∀ u, u ≠ s.gCurrent → u ≠ t → s'.frameOf u = s.frameOf u)

section Step

variable {leak : StackId → Nat} {s s' s₀ : State} {a : Saved} {e : Event} {o : Outcome} {cl : Call}
  {q : Request} {t : TealetId}

/-- Without a deferred exit a request is attempted as it was made. -/
theorem request_idle (h : s.gFlags = {}) (hq : cl.request s = some (s₀, q)) : s₀ = s.lockAuto := by
  have hexit : ∀ t arg flags implicit sp,
      (exitRequest s.lockAuto t arg flags implicit sp).1 = s.lockAuto := by
    intro t arg flags implicit sp
    unfold exitRequest
    rw [if_neg (by rw [show s.lockAuto.gFlags = {} from h]; exact Bool.false_ne_true)]
  cases cl with
  | switch t parg flags sp =>
      cases hq
      rfl
  | exit t arg flags sp =>
      simp only [Call.request] at hq
      split at hq
      · cases hq
      · have hfst := congrArg Prod.fst (Option.some.inj hq)
        exact hfst.symm.trans (hexit ..)
  | ret p sp =>
      cases p with
      | none => cases hq
      | some t =>
          have hd : ¬ s.gFlags.xfer.defer = true := by
            rw [h]
            exact Bool.false_ne_true
          simp only [Call.request, exitRequest, if_neg hd] at hq
          cases hq
          rfl
  | _ => cases hq

/-- The code of the resumed call is that of the transfer. -/
theorem delivers_code {fr : Frame} {arg : Ptr} {panic : Bool} (hres : fr.Resumable)
    (hp : panic = true → ∃ g out, fr = .switch g out) :
    if panic then (fr.delivers t arg panic).Panics else (fr.delivers t arg panic).Succeeds := by
  cases panic with
  | true =>
      obtain ⟨g, out, rfl⟩ := hp rfl
      exact True.intro
  | false =>
      rw [if_neg Bool.false_ne_true]
      cases fr with
      | run result current previous fn arg' sw out spawned => cases sw <;> exact True.intro
      | _ => exact True.intro

theorem Transferred.delivered (h : Transferred s₀ q (s', o)) (hq : cl.request s = some (s₀, q))
    (hs₀ : s₀ = s.lockAuto) (hP : ∀ s₁ t f, Attempt s₀ q s₁ t f → f.panic = true →
      t ≠ s₁.gCurrent → ∀ fr, s₁.frameOf t = some fr → ∃ g out, fr = .switch g out)
    (hres : ∀ t fr, s.frameOf t = some fr → fr.Resumable) : Delivery s cl s' o := by
  have hcur₀ : s₀.gCurrent = s.gCurrent := by
    rw [hs₀]
    rfl
  have hfr₀ : ∀ u, s₀.frameOf u = s.frameOf u := by
    rw [hs₀]
    exact fun _ => rfl
  cases h with
  | failed ho he hs =>
      exact .failed ho he (hs.current.trans hcur₀) fun u => (hs.frames u).trans (hfr₀ u)
  | toSelf ha hx ho hprev hs =>
      exact .toSelf hq (hcur₀ ▸ ha) ho (hs.current.trans hcur₀) fun u =>
        (hs.frames u).trans (hfr₀ u)
  | @moved s₁ t f fr ha hlike ht hfr ho hcur hprev hlive hn hothers =>
      have hpan : f.panic = true → ∃ g out, fr = .switch g out := fun hp =>
        hP s₁ t f ha hp (hlike.current ▸ ht) fr ((hlike.frames t).trans hfr)
      rw [hcur₀] at ht
      rw [hfr₀] at hfr
      obtain rfl : o = _ := ho
      refine .moved hq ha ht hfr rfl (delivers_code (hres t fr hfr) hpan) hcur ?_
      · exact fun u hu hut => (hothers u (hcur₀ ▸ hu) hut).trans (hfr₀ u)

theorem Launched.delivered {k : Frame} {sw spawned : Bool}
    (h : Launched s₀ t k sw spawned (s', o)) (hk : Starts s cl t k sw)
    (hcur₀ : s₀.gCurrent = s.gCurrent) (hfr₀ : ∀ u, s₀.frameOf u = s.frameOf u) :
    Delivery s cl s' o := by
  cases h with
  | failed ho he hcur hprev hlive hn hframes =>
      exact .failed ho he (hcur.trans hcur₀) fun u => (hframes u).trans (hfr₀ u)
  | started ho hcur hprev hlive hn hothers =>
      refine .started hk ho (by rw [← hcur₀]; exact hcur) fun u hu hut => ?_
      exact (hothers u (hcur₀ ▸ hu) hut).trans (hfr₀ u)

/-! ## The calls that transfer nothing -/

theorem alloc_signals (s : State) : Signals s (alloc s).1 := by
  unfold alloc
  rcases s.heap.malloc with ⟨_ | _, h⟩ <;> exact ⟨rfl, id⟩

theorem duplicate_signals (s : State) (t : TealetId) :
    Returns (fun p => Signals s p.1) (duplicate s t) := by
  unfold duplicate
  refine returns_any.bind fun _ _ => ?_
  have hal : Signals s (alloc s.lockAuto).1 :=
    ⟨(alloc_signals s.lockAuto).gFlags, (alloc_signals s.lockAuto).gArg⟩
  revert hal
  generalize alloc s.lockAuto = p
  obtain ⟨s₁, _ | c⟩ := p
  · exact Signals.unlockAuto
  · intro hal
    refine returns_any.bind fun r _ => ?_
    cases hk : r.stack with
    | none => exact ⟨hal.gFlags, hal.gArg⟩
    | some k => exact returns_any.bind fun h' _ => ⟨hal.gFlags, hal.gArg⟩

theorem delete_signals (s : State) (t : TealetId) : Returns (Signals s) (delete s t) := by
  unfold delete
  exact returns_any.bind fun _ _ => returns_any.bind fun _ _ =>
    returns_any.bind fun _ _ => ⟨rfl, id⟩

theorem isDefunct_signals (s : State) (t : TealetId) :
    Returns (fun p => Signals s p.1) (isDefunct s t) := by
  unfold isDefunct
  refine returns_any.bind fun r _ => ?_
  split
  · exact ⟨rfl, id⟩
  · split
    · exact ⟨rfl, id⟩
    · refine returns_any.bind fun st _ => ?_
      split <;> exact ⟨rfl, id⟩

theorem status_signals (s : State) (t : TealetId) :
    Returns (fun p => Signals s p.1) (status s t) := by
  unfold status
  refine returns_any.bind fun r _ => ?_
  split
  · exact ⟨rfl, id⟩
  · split
    · exact ⟨rfl, id⟩
    · exact (isDefunct_signals s t).bind fun p hp => hp

theorem setFar_signals (s : State) (t : TealetId) (far : Nat) :
    Returns (fun p => Signals s p.1) (setFar s t far) := by
  unfold setFar
  refine returns_any.bind fun r _ => ?_
  split <;> exact ⟨rfl, id⟩

theorem configureSet_signals (s : State) (q : Config) : Signals s (configureSet s q).1 := by
  obtain ⟨al, e, heq⟩ := configureSet_state s q
  rw [heq]
  exact ⟨rfl, id⟩

/-! ## Any step -/

theorem Inv.frame_resumable (I : Inv leak s a) {fr : Frame} (h : s.frameOf t = some fr) :
    fr.Resumable := by
  obtain ⟨own, H⟩ := I.rep
  rw [frameOf_view H] at h
  obtain ⟨im, him, rfl⟩ := Option.map_eq_some_iff.mp h
  obtain ⟨k, -, him⟩ := Option.bind_eq_some_iff.mp him
  exact (I.core.image k im him).resumable

/-- What a step leaves pending, and what it delivers. -/
theorem Inv.step_delivered (I : Inv leak s a) (h : Delivering s e) (hf : s.gFlags = {}) :
    Returns (fun p => Signals s p.1 ∧ ∀ cl allocs mprotects, e = .call cl allocs mprotects →
      cl.Transfers → Delivery (s.withChoices allocs mprotects) cl p.1 p.2) (step s e) := by
  cases e with
  | write m => exact ⟨⟨rfl, id⟩, nofun⟩
  | call cl allocs mprotects =>
      have I' := I.withChoices allocs mprotects
      have hL : cl.Legal (s.withChoices allocs mprotects) := by
        cases cl <;> exact h.legal
      have hquiet : ∀ {p : State × Outcome}, ¬ cl.Transfers →
          Signals (s.withChoices allocs mprotects) p.1 → Signals s p.1 ∧ ∀ cl' al mp,
            Event.call cl allocs mprotects = .call cl' al mp → cl'.Transfers →
            Delivery (s.withChoices al mp) cl' p.1 p.2 := by
        rintro p hno hs
        refine ⟨⟨hs.gFlags, hs.gArg⟩, ?_⟩
        rintro _ _ _ heq ht
        cases heq
        exact absurd ht hno
      have hdone : ∀ {p : State × Outcome}, Signals (s.withChoices allocs mprotects) p.1 →
          Delivery (s.withChoices allocs mprotects) cl p.1 p.2 → Signals s p.1 ∧ ∀ cl' al mp,
            Event.call cl allocs mprotects = .call cl' al mp → cl'.Transfers →
            Delivery (s.withChoices al mp) cl' p.1 p.2 := by
        rintro p hs hd
        refine ⟨⟨hs.gFlags, hs.gArg⟩, ?_⟩
        rintro _ _ _ heq -
        cases heq
        exact hd
      have hreq : ∀ s₀ q, cl.request (s.withChoices allocs mprotects) = some (s₀, q) →
          Returns (fun p => Signals s p.1 ∧ ∀ cl' al mp,
            Event.call cl allocs mprotects = .call cl' al mp → cl'.Transfers →
            Delivery (s.withChoices al mp) cl' p.1 p.2)
            (callStep (s.withChoices allocs mprotects) cl) := by
        intro s₀ q hq
        obtain rfl := request_idle (s := s.withChoices allocs mprotects) hf hq
        refine (I'.transfer_end hL hq h.panics.resumes).imp fun p hp => ?_
        refine hdone ⟨hp.2.gFlags, hp.2.gArg⟩
          (hp.1.delivered hq rfl ?_ fun t fr => I'.frame_resumable)
        exact fun s₁ t f ha => h.panics s₁ t f _ _ (.xfer hq ha)
      have hnews := new_signals (s := s.withChoices allocs mprotects)
        (I'.core.fresh _ (Nat.le_refl _))
      show Returns _ (callStep (s.withChoices allocs mprotects) cl)
      cases cl with
      | new => exact hquiet id hnews.1
      | run t fn parg hint sw site =>
          refine (I'.run_end false hL.1 hL.2.1 hL.2.2).imp ?_
          rintro ⟨s', o⟩ (⟨-, heq⟩ | ⟨htc, hl, hs⟩)
          · cases heq
            exact hdone ⟨rfl, id⟩ (.failed rfl nofun rfl fun _ => rfl)
          · exact hdone hs (hl.delivered .run rfl fun _ => rfl)
      | spawn fn parg hint sw site =>
          obtain ⟨hn, hcur, hprev, hfr⟩ := hnews
          refine (I'.spawn_end hL.1 hL.2).imp ?_
          rintro ⟨s', o⟩ (heq | ⟨htc, s₁, hnew, htl, hl, hs⟩)
          · cases heq
            exact hdone hn (.failed rfl nofun hcur hfr)
          · rw [hnew] at hcur hprev hfr
            rw [show s₁.gCurrent = _ from hcur, show s₁.gPrevious = _ from hprev] at hl
            exact hdone hs (hl.delivered .spawn hcur hfr)
      | fork t parg sw site =>
          refine (I'.fork_end hL.1 hL.2).imp ?_
          rintro ⟨s', o⟩ (⟨err, he, heq⟩ | ⟨htc, hl, hs⟩)
          · cases heq
            exact hdone ⟨rfl, id⟩ (.failed rfl he rfl fun _ => rfl)
          · exact hdone hs (hl.delivered .fork rfl fun _ => rfl)
      | switch t parg flags sp => exact hreq _ _ rfl
      | exit t arg flags sp =>
          exact hreq _ _ (if_neg (by rw [show flags.defer = false from h.undeferred]; simp))
      | ret p sp =>
          obtain ⟨⟨t, rfl, -⟩, -⟩ := hL
          exact hreq _ _ rfl
      | duplicate t => exact (duplicate_signals _ t).bind fun p hp => hquiet id hp
      | delete t => exact (delete_signals _ t).bind fun p hp => hquiet id hp
      | status t => exact (status_signals _ t).bind fun p hp => hquiet id hp
      | setFar t far => exact (setFar_signals _ t far).bind fun p hp => hquiet id hp
      | configure q => exact hquiet id (configureSet_signals _ q)

end Step

/-! ## Stubs -/

/-- `tealet_stub_run` up to its call of `tealet_switch`; `psarg` is the
block it allocates for the stub. -/
def stubRun (s : State) (stub : TealetId) (psarg : Ptr) (sp : Nat) : Res (State × Outcome) :=
  match s.heap.malloc with
  | (false, h) => .ok ({ s with heap := h }, .returned (.err .mem) none)
  | (true, h) => switch { s with heap := h } stub (some psarg) {} sp

/-- What `tealet_stub_run` returns when that call returns; `out` says that
`parg` is not `NULL`. `myarg` holds the block unless something was stored in
it. -/
def stubReturn (psarg : Ptr) (out : Bool) : Outcome → Outcome
  | .returned rc myarg _ =>
      if rc ≠ .ok ∧ rc ≠ .err .panic then .returned rc none
      else .returned rc (if out then some (myarg.getD psarg) else none)
  | o => o

/-- A tealet inside `tealet_stub_run` is delivered to as one inside `tealet_switch`. -/
theorem stubReturn_delivers (psarg : Ptr) (g t : TealetId) (out panic : Bool) (arg : Ptr) :
    stubReturn psarg out ((Frame.switch g true).delivers t arg panic) =
      (Frame.switch g out).delivers t arg panic := by
  cases panic <;> rfl

/-- Once the block is allocated the call is the one of `tealet_switch`. -/
theorem stubRun_step (s : State) (stub : TealetId) (psarg : Ptr) (sp : Nat) (allocs : List Bool)
    (mprotects : List (Option (Nat → Bool))) :
    stubRun (s.withChoices (true :: allocs) mprotects) stub psarg sp =
      step s (.call (.switch stub (some psarg) {} sp) allocs mprotects) := rfl

/-! ## Runs -/

/-- No signal of a transfer is left behind. -/
structure State.Idle (s : State) : Prop where
  gFlags : s.gFlags = {}
  gArg : s.gArg = null
  oneShot : ∀ t r, s.tealets t = some r →
    r.flags.exiting = false ∧ r.flags.autodelete = false ∧ r.flags.saveforce = false

/-- Between calls nothing is pending, and every call that transfers control
delivers its own argument and its own code to one tealet, or fails and
delivers nothing; a tealet inside `tealet_stub_run` is delivered to as one
inside `tealet_switch`. -/
theorem delivered_once {mem : Memory} {env : Env} {s : State}
    (h : Run Delivering (initial mem env) s) :
    s.Idle ∧
    (∀ cl allocs mprotects s' o, Delivering s (.call cl allocs mprotects) → cl.Transfers →
      step s (.call cl allocs mprotects) = .ok (s', o) →
      Delivery (s.withChoices allocs mprotects) cl s' o) ∧
    (∀ stub psarg sp allocs mprotects,
      stubRun (s.withChoices (true :: allocs) mprotects) stub psarg sp =
        step s (.call (.switch stub (some psarg) {} sp) allocs mprotects)) ∧
    ∀ psarg g t out panic arg, stubReturn psarg out ((Frame.switch g true).delivers t arg panic) =
      (Frame.switch g out).delivers t arg panic := by
  have hinv : ∀ {s}, Run Delivering (initial mem env) s → ∃ leak a, Inv leak s a := by
    intro s h
    obtain ⟨leak, a, I, -⟩ := h.inv' True fun s e he => ⟨he.legal, he.panics.resumes⟩
    exact ⟨leak, a, I⟩
  have hidle : s.gFlags = {} ∧ s.gArg = null := by
    induction h with
    | refl => exact ⟨rfl, rfl⟩
    | tail hrun hP hs ih =>
        obtain ⟨leak, a, I⟩ := hinv hrun
        obtain ⟨hsig, -⟩ := (I.step_delivered hP ih.1).result hs
        exact ⟨hsig.gFlags.trans ih.1, hsig.gArg ih.2⟩
  obtain ⟨leak, a, I⟩ := hinv h
  refine ⟨⟨hidle.1, hidle.2, fun t r hr => ?_⟩, ?_, fun stub psarg sp allocs mprotects => ?_, ?_⟩
  · exact TFlags.quiet_eq.mp (I.core.record t r hr).quiet
  · intro cl allocs mprotects s' o hP ht hs
    exact ((I.step_delivered hP hidle.1).result hs).2 cl allocs mprotects rfl ht
  · exact stubRun_step s stub psarg sp allocs mprotects
  · exact stubReturn_delivers

def Frame.inSwitch : Frame → Bool
  | .switch _ _ => true
  | _ => false

def Event.panicSwitches (s : State) (e : Event) : Bool :=
  e.attemptsAll (fun s₁ t f => !f.panic || decide (t = s₁.gCurrent) ||
    (s₁.frameOf t).all Frame.inSwitch) s

theorem Event.panicSwitches_spec {s : State} {e : Event} (h : e.panicSwitches s = true) :
    e.PanicSwitches s := by
  intro s₁ t f isExit allocs ha hp ht fr hfr
  have hall := Event.attemptsAll_spec h ha
  have hin : fr.inSwitch = true := by simpa [hp, ht, hfr] using hall
  cases fr with
  | switch g out => exact ⟨g, out, rfl⟩
  | _ => cases hin

def Event.undeferred : Event → Bool
  | .call (.exit _ _ flags _) _ _ => !flags.defer
  | _ => true

theorem Event.undeferred_spec {e : Event} (h : e.undeferred = true) : e.Undeferred := by
  unfold Event.undeferred at h
  unfold Event.Undeferred
  split at h
  · simpa using h
  · trivial

/-- A tealet sends main 5 under PANIC, while main is in `tealet_switch`. -/
theorem delivered_once_panic : ∃ s s', Run Delivering (initial (fun _ => 0) {}) s ∧
    step s (.call (.switch 0 (some 5) { panic := true } 890) [] []) =
      .ok (s', .returned (.err .panic) (some 5)) ∧
    Delivery (s.withChoices [] []) (.switch 0 (some 5) { panic := true } 890) s'
      (.returned (.err .panic) (some 5)) := by
  have hspec : ∀ s e, (e.legal s && (e.undeferred && e.panicSwitches s)) = true →
      Delivering s e := by
    intro s e h
    obtain ⟨h₁, h₂⟩ := Bool.and_eq_true_iff.mp h
    obtain ⟨h₂, h₃⟩ := Bool.and_eq_true_iff.mp h₂
    exact ⟨Event.legal_spec h₁, Event.undeferred_spec h₂, Event.panicSwitches_spec h₃⟩
  let e : Event := .call (.switch 0 (some 5) { panic := true } 890) [] []
  obtain ⟨s, hrun, hs⟩ := exists_run_of_trace hspec
    [.call .new [] [], .call (.run 1 7 none null true ⟨1000, 990⟩) [] [],
      .call (.switch 0 none {} 900) [] [], .call (.switch 1 (some 3) {} 980) [] []]
    (s := initial (fun _ => 0) {})
    (fun s => (e.legal s && (e.undeferred && e.panicSwitches s)) &&
      endsIn (step s e) fun p => decide (p.2 = .returned (.err .panic) (some 5)))
    (by decide +kernel)
  obtain ⟨hP, hstep⟩ := Bool.and_eq_true_iff.mp hs
  obtain ⟨⟨s', o⟩, heq, ho⟩ := endsIn_spec hstep
  obtain rfl : o = _ := of_decide_eq_true ho
  exact ⟨s, s', hrun, heq, (delivered_once hrun).2.1 _ _ _ _ _ (hspec s e hP) True.intro heq⟩

end Tealet
