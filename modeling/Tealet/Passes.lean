import Tealet.Attempts
import Tealet.Checks

/-!
# What every call keeps

The calls are made of a few pieces: locking, writing a record that exists,
writing the signals, allocating and freeing a record, and switching stacks.
`Passes J L` says of a property `J` of the states between calls and a
property `L` of the states inside one, while the lock is held, that the
pieces take the one to the other and keep them. Then every call keeps `J`,
and `tealet_switchstack` is only called in states with `L`. Nothing is
assumed of the states but `J`.
-/

namespace Tealet

open Hoare

/-- Reading a record finds it. -/
theorem returns_tealet (s : State) (t : TealetId) :
    Returns (fun r => s.tealets t = some r) (s.tealet t) := by
  unfold State.tealet
  split
  · assumption
  · exact True.intro

/-- `tealet_switchstack(target, arg)` is called at `sp` inside the call `k`. -/
structure Switching where
  state : State
  target : TealetId
  arg : Ptr
  frame : Frame
  sp : Nat

/-- The state in which `tealet_xfer_inner` calls `tealet_switchstack`, if it does. -/
def xferStage (s : State) (target : TealetId) (flags : XFlags) (isExit : Bool) :
    Res (Option State) := do
  let r ← s.tealet target
  let current ← s.tealet s.gCurrent
  if r.flags.bound = false then
    return none
  else if isExit then
    require .xferInner (s.gCurrent ≠ mainId)
    if target = s.gCurrent then
      return none
    else
      require .xferInner (current.stack = none)
      require .xferInner (current.flags.autodelete = false)
      let s := s.setTealet s.gCurrent { current with flags :=
        { current.flags with
          exiting := true, autodelete := flags.delete
          saveforce := current.flags.saveforce || flags.force } }
      return some (if flags.panic then { s with gFlags := { s.gFlags with panic := true } } else s)
  else if target = s.gCurrent then
    return none
  else
    let s := s.setTealet s.gCurrent { current with flags :=
      { current.flags with saveforce := current.flags.saveforce || flags.force } }
    return some (if flags.panic then { s with gFlags := { s.gFlags with panic := true } } else s)

/-- `tealet_xfer_inner` switches stacks in the state `xferStage` gives, or
returns to its caller with at most `g_previous` written. -/
theorem xferInner_stage (s : State) (target : TealetId) (arg : Ptr) (flags : XFlags) (isExit : Bool)
    (k : Frame) (sp : Nat) :
    (∃ s₁, xferStage s target flags isExit = .ok (some s₁) ∧
      xferInner s target arg flags isExit k sp =
        (switchstack s₁ target arg k sp >>= fun p => leaveXfer p.1 p.2 >>= fun s' =>
          .ok (s', p.2))) ∨
    (xferStage s target flags isExit = .ok none ∧ ∃ p rc,
      (rc = .ok ∨ rc = .err .inval ∨ rc = .err .panic) ∧
        xferInner s target arg flags isExit k sp =
          .ok ({ s with gPrevious := p }, ⟨.api, rc, none⟩)) ∨
    ∃ f, xferInner s target arg flags isExit k sp = .error f := by
  unfold xferStage xferInner
  cases hr : s.tealet target with
  | error f => exact .inr (.inr ⟨f, rfl⟩)
  | ok r =>
  cases hc : s.tealet s.gCurrent with
  | error f => exact .inr (.inr ⟨f, rfl⟩)
  | ok c =>
  simp only [ok_bind]
  by_cases hb : r.flags.bound = false
  · rw [if_pos hb, if_pos hb]
    exact .inr (.inl ⟨rfl, s.gPrevious, _, .inr (.inl rfl), rfl⟩)
  rw [if_neg hb, if_neg hb]
  cases isExit with
  | true =>
      by_cases hm : s.gCurrent ≠ mainId
      swap
      · exact .inr (.inr ⟨_, by rw [if_pos rfl, require, if_neg hm]; rfl⟩)
      rw [if_pos rfl, if_pos rfl, require_of hm, ok_bind, ok_bind]
      by_cases ht : target = s.gCurrent
      · rw [if_pos ht, if_pos ht]
        exact .inr (.inl ⟨rfl, s.gPrevious, _, .inr (.inl rfl), rfl⟩)
      rw [if_neg ht, if_neg ht]
      by_cases hs : c.stack = none
      swap
      · exact .inr (.inr ⟨_, by rw [require, if_neg hs]; rfl⟩)
      rw [require_of hs, ok_bind, ok_bind]
      by_cases ha : c.flags.autodelete = false
      swap
      · exact .inr (.inr ⟨_, by rw [require, if_neg ha]; rfl⟩)
      rw [require_of ha, ok_bind, ok_bind, pure_eq_ok]
      exact .inl ⟨_, rfl, rfl⟩
  | false =>
      rw [if_neg Bool.false_ne_true, if_neg Bool.false_ne_true]
      by_cases ht : target = s.gCurrent
      · rw [if_pos ht, if_pos ht]
        refine .inr (.inl ⟨rfl, _, _, ?_, rfl⟩)
        split
        · exact .inr (.inr rfl)
        · exact .inl rfl
      · rw [if_neg ht, if_neg ht, pure_eq_ok]
        exact .inl ⟨_, rfl, rfl⟩

/-- Before it switches stacks `tealet_xfer_inner` writes flags of the current tealet. -/
theorem xferStage_state (s : State) (t : TealetId) (flags : XFlags) (isExit : Bool) :
    Returns (fun o => ∀ s₁, o = some s₁ → ∃ c fl gf, s.tealets s.gCurrent = some c ∧
        s₁ = { s.setTealet s.gCurrent { c with flags := fl } with gFlags := gf })
      (xferStage s t flags isExit) := by
  have hnone : Returns (fun o => ∀ s₁, o = some s₁ → ∃ c fl gf, s.tealets s.gCurrent = some c ∧
      s₁ = { s.setTealet s.gCurrent { c with flags := fl } with gFlags := gf })
      (.ok none : Res (Option State)) := fun _ h => nomatch h
  have hsome : ∀ (c : TealetSub) (fl : TFlags) (s₂ : State), s.tealets s.gCurrent = some c →
      s₂ = s.setTealet s.gCurrent { c with flags := fl } →
      Returns (fun o => ∀ s₁, o = some s₁ → ∃ c fl gf, s.tealets s.gCurrent = some c ∧
        s₁ = { s.setTealet s.gCurrent { c with flags := fl } with gFlags := gf })
        (.ok (some (if flags.panic then { s₂ with gFlags := { s₂.gFlags with panic := true } }
          else s₂)) : Res (Option State)) := by
    rintro c fl s₂ hc rfl s₁ hs
    obtain rfl := Option.some.inj hs
    cases flags.panic with
    | false => exact ⟨c, fl, s.gFlags, hc, rfl⟩
    | true => exact ⟨c, fl, { s.gFlags with panic := true }, hc, rfl⟩
  unfold xferStage
  refine returns_any.bind fun r _ => (returns_tealet s s.gCurrent).bind fun c hc => ?_
  by_cases hb : r.flags.bound = false
  · exact Sat.ite_true hb hnone
  refine Sat.ite_false hb ?_
  by_cases ht : t = s.gCurrent
  · cases isExit with
    | true => exact Sat.ite_true rfl (returns_any.bind fun _ _ => Sat.ite_true ht hnone)
    | false => exact Sat.ite_false Bool.false_ne_true (Sat.ite_true ht hnone)
  · cases isExit with
    | true =>
        refine Sat.ite_true rfl (returns_any.bind fun _ _ => Sat.ite_false ht ?_)
        exact returns_any.bind fun _ _ => returns_any.bind fun _ _ => hsome c _ _ hc rfl
    | false => exact Sat.ite_false Bool.false_ne_true (Sat.ite_false ht (hsome c _ _ hc rfl))

/-- The state in which `tealet_initialstub` or `tealet_fork` calls
`tealet_switchstack` for the child `t` with the record `r`. -/
def startStage (s : State) (t : TealetId) (r : TealetSub) (switchNow : Bool) : State :=
  let s := s.lockAuto.setTealet t r
  if switchNow then s else { s with gCurrent := t }

/-- The calls of `tealet_switchstack` that the call `c` makes. -/
inductive Switches (s : State) : Call → Switching → Prop where
  | xfer {c : Call} {s₀ s₁ s₂ : State} {q : Request} {t : TealetId} {f : XFlags}
      (hq : c.request s = some (s₀, q)) (h : Attempt s₀ q s₁ t f)
      (hs : xferStage s₁ t f q.isExit = .ok (some s₂)) :
      Switches s c ⟨s₂, t, q.arg, q.frame, q.sp⟩
  | run {t : TealetId} {fn : RunFn} {parg : Option Ptr} {hint : Nat} {sw : Bool} {site : Site}
      (ht : s.tealets t = some {}) :
      Switches s (.run t fn parg hint sw site)
        ⟨startStage s t { flags := { bound := true }, stackFar := pickInitialFar site.far hint } sw,
          if sw then t else s.gCurrent, null,
          .run t s.gCurrent s.gPrevious fn (parg.getD null) sw parg.isSome false, site.sp⟩
  | spawn {s₁ : State} {t : TealetId} {fn : RunFn} {parg : Option Ptr} {hint : Nat} {sw : Bool}
      {site : Site} (h : new s = (s₁, some t)) (ht : s₁.tealets t = some {}) :
      Switches s (.spawn fn parg hint sw site)
        ⟨startStage s₁ t
            { flags := { bound := true }, stackFar := pickInitialFar site.far hint } sw,
          if sw then t else s₁.gCurrent, null,
          .run t s₁.gCurrent s₁.gPrevious fn (parg.getD null) sw parg.isSome true, site.sp⟩
  | fork {t : TealetId} {parg : Option Ptr} {sw : Bool} {site : Site} {c : TealetSub}
      (ht : s.tealets t = some {}) (hc : s.tealets s.gCurrent = some c)
      (hfar : c.stackFar ≠ spFurthest) :
      Switches s (.fork t parg sw site)
        ⟨startStage s t { stackFar := c.stackFar, flags :=
            { bound := true, fork := true, mainLineage := c.flags.mainLineage } } sw,
          if sw then t else s.gCurrent, null,
          .fork t s.gCurrent s.gPrevious sw parg.isSome, site.sp⟩

theorem alloc_record (s : State) : ∀ t, (alloc s).2 = some t → (alloc s).1.tealets t = some {} := by
  intro t h
  unfold alloc at h ⊢
  rcases hm : s.heap.malloc with ⟨_ | _, h'⟩
  · simp only [hm] at h
    cases h
  · simp only [hm] at h ⊢
    cases h
    exact Function.update_self ..

structure Passes (J L : State → Prop) : Prop where
  lock : ∀ {s}, J s → L s.lockAuto
  unlock : ∀ {s}, L s → J s.unlockAuto
  record : ∀ {s : State} {t r r'}, s.tealets t = some r → J s → J (s.setTealet t r')
  recordIn : ∀ {s : State} {t r r'}, s.tealets t = some r → L s → L (s.setTealet t r')
  signal : ∀ {s : State} {f x}, J s → J { s with gFlags := f, gArg := x }
  signalIn : ∀ {s : State} {f x}, L s → L { s with gFlags := f, gArg := x }
  current : ∀ {s : State} {t}, L s → L { s with gCurrent := t }
  previous : ∀ {s : State} {p}, L s → L { s with gPrevious := p }
  switch : ∀ {s t arg k sp}, L s → Returns (fun p => L p.1) (switchstack s t arg k sp)
  alloc : ∀ {s}, L s → L (alloc s).1
  dup : ∀ {s : State} {k}, L s → Returns (fun h => L { s with heap := h }) (stackDup s.heap k)
  drop : ∀ {s : State} {t r}, t ≠ mainId → s.tealets t = some r → L s → Returns (fun h =>
    L (freeTealet { s with
      heap := h, env := { s.env with gTealets := s.env.gTealets - 1 } } t))
    (stackDecref s.heap r.stack)
  configure : ∀ {s q}, J s → J (configureSet s q).1

namespace Passes

variable {J L : State → Prop} {s : State} {t : TealetId} {b : Back} {k : Frame} {sp : Nat}
  {arg : Ptr} {flags : XFlags} {isExit : Bool}

section
variable (P : Passes J L)
include P

theorem stage (h : L s) :
    Returns (fun o => ∀ s₁, o = some s₁ → L s₁) (xferStage s t flags isExit) := by
  refine (xferStage_state s t flags isExit).imp fun o ho s₁ hs => ?_
  obtain ⟨c, fl, gf, hc, rfl⟩ := ho s₁ hs
  exact P.signalIn (x := s.gArg) (P.recordIn hc h)

theorem leave (h : L s) : Returns L (leaveXfer s b) := by
  unfold leaveXfer
  split
  · exact (returns_tealet s _).bind fun r hr => P.recordIn hr h
  · exact (returns_tealet s _).bind fun r hr => returns_any.bind fun _ _ => P.recordIn hr h
  · exact True.intro
  · exact h

theorem xfer (h : L s) : Returns (fun p => L p.1) (xferInner s t arg flags isExit k sp) := by
  rcases xferInner_stage s t arg flags isExit k sp with
    ⟨s₁, hs, heq⟩ | ⟨-, p, rc, -, heq⟩ | ⟨f, heq⟩
  · rw [heq]
    have h₁ : L s₁ := (P.stage h).result hs s₁ rfl
    exact (P.switch h₁).bind fun p hp => (P.leave hp).bind fun s' hs' => hs'
  · rw [heq]
    exact P.previous h
  · rw [heq]
    exact True.intro

theorem attempts (h : L s) (t : TealetId) (arg : Ptr) (flags : XFlags) (isExit : Bool) (k : Frame)
    (sp : Nat) : Returns (fun p => L p.1) (xferAttempts s t arg flags isExit k sp) := by
  unfold xferAttempts
  split
  · refine (P.xfer h).bind fun p hp => ?_
    dsimp only
    split
    · exact P.xfer hp
    · exact hp
  · exact P.xfer h

theorem fail {child creator : TealetId} {sw : Bool} (h : L s) :
    Returns L (failStart s child creator sw) := by
  unfold failStart
  refine (returns_tealet s child).bind fun r hr => ?_
  cases sw with
  | true => exact P.recordIn hr h
  | false => exact P.current (P.recordIn hr h)

theorem delete (h : J s) : Returns J (delete s t) := by
  unfold Tealet.delete
  refine (returns_require (p := t ≠ mainId)).bind fun _ hm =>
    (returns_tealet s.lockAuto t).bind fun r hr => ?_
  exact (P.drop hm hr (P.lock h)).bind fun h' hh' => P.unlock hh'

theorem finish (h : L s) : Returns (fun p => J p.1) (finish s b) := by
  obtain ⟨fr, rc, x⟩ := b
  cases fr with
  | api => exact P.unlock h
  | switch g out => exact P.unlock h
  | exit g implicit =>
      unfold Tealet.finish
      cases implicit with
      | true => exact True.intro
      | false => exact returns_any.bind fun _ _ => P.unlock h
  | run result current previous fn arg sw out spawned =>
      simp only [Tealet.finish]
      cases rc with
      | err e =>
          refine (P.fail h).bind fun s₁ h₁ => ?_
          cases spawned with
          | false => exact P.unlock h₁
          | true => exact (P.delete (P.unlock h₁)).bind fun s₂ h₂ => h₂
      | _ =>
          cases sw
          all_goals
            dsimp only
            split
            · exact returns_any.bind fun _ _ => returns_any.bind fun _ _ =>
                returns_any.bind fun _ _ => P.unlock h
            · first
                | exact P.unlock h
                | exact P.unlock (P.previous h)
  | fork child current previous sw out =>
      have hp : ∀ (c : Prop) (inst : Decidable c),
          L (@ite _ c inst { s with gPrevious := previous } s) := by
        intro c inst
        split
        · exact P.previous h
        · exact h
      simp only [Tealet.finish]
      cases rc with
      | err e => exact (P.fail (hp _ _)).bind fun s₁ h₁ => P.unlock h₁
      | _ => exact P.unlock (hp _ _)

/-! ## The API functions -/

theorem new (h : J s) : J (new s).1 := P.unlock (P.alloc (P.lock h))

theorem exit (h : J s) (t : TealetId) (arg : Ptr) (flags : XFlags) (implicit : Bool) (sp : Nat) :
    Returns (fun p => J p.1) (exit s t arg flags implicit sp) := by
  unfold Tealet.exit
  refine returns_any.bind fun _ _ => returns_any.bind fun _ _ => ?_
  by_cases hd : flags.defer = true
  · refine Sat.ite_true hd (returns_any.bind fun _ _ => ?_)
    exact P.unlock (P.signalIn (P.lock h))
  refine Sat.ite_false hd ?_
  by_cases hp : s.lockAuto.gFlags.xfer.defer = true
  · simp only [if_pos hp]
    exact (P.attempts (P.signalIn (P.lock h)) _ _ _ _ _ _).bind fun p hp => P.finish hp
  · simp only [if_neg hp]
    exact (P.attempts (P.lock h) _ _ _ _ _ _).bind fun p hp => P.finish hp

theorem ret (h : J s) (p : Option TealetId) (sp : Nat) : Returns (fun p => J p.1) (ret s p sp) := by
  unfold Tealet.ret
  cases p with
  | none => exact True.intro
  | some t =>
      by_cases hd : s.gFlags.xfer.defer = true
      · simp only [if_pos hd]
        exact P.exit (P.signal h) _ _ _ _ _
      · simp only [if_neg hd]
        exact P.exit h _ _ _ _ _

/-- The rest of a start once `tealet_switchstack` was called. -/
theorem start {s₁ : State} {t₁ : TealetId} (h : L s₁) :
    Returns (fun p => J p.1) (switchstack s₁ t₁ arg k sp >>= fun p =>
      leaveXfer p.1 p.2 >>= fun s' => Tealet.finish s' p.2) :=
  (P.switch h).bind fun _ hp => (P.leave hp).bind fun _ hs' => P.finish hs'

/-- The record of a child is written twice, before and after the lock is taken. -/
theorem child {s : State} {t : TealetId} {r : TealetSub} (r₁ r₂ : TealetSub)
    (hr : s.tealets t = some r) (h : J s) (sw : Bool) :
    L (if sw then ((s.setTealet t r₁).lockAuto.setTealet t r₂)
      else { (s.setTealet t r₁).lockAuto.setTealet t r₂ with gCurrent := t }) := by
  have hL : L ((s.setTealet t r₁).lockAuto.setTealet t r₂) :=
    P.recordIn (r := r₁) (Function.update_self ..) (P.lock (P.record hr h))
  cases sw with
  | true => exact hL
  | false => exact P.current hL

theorem run (h : J s) (t : TealetId) (fn : RunFn) (parg : Option Ptr) (hint : Nat)
    (sw spawned : Bool) (site : Site) :
    Returns (fun p => J p.1) (run s t fn parg hint sw spawned site) := by
  unfold Tealet.run
  refine (returns_tealet s t).bind fun r hr => ?_
  by_cases hf : r.flags ≠ {}
  · exact Sat.ite_true hf h
  refine Sat.ite_false hf (returns_any.bind fun _ _ => returns_any.bind fun _ _ =>
    returns_any.bind fun _ _ => ?_)
  have hchild := P.child { r with flags := { bound := true } }
    { r with flags := { bound := true }, stackFar := pickInitialFar site.far hint } hr h sw
  cases sw with
  | true => exact P.start hchild
  | false => exact P.start hchild

theorem spawn (h : J s) (fn : RunFn) (parg : Option Ptr) (hint : Nat) (sw : Bool) (site : Site) :
    Returns (fun p => J p.1) (spawn s fn parg hint sw site) := by
  have hnew := P.new h
  unfold Tealet.spawn
  rcases heq : Tealet.new s with ⟨s₁, _ | t⟩ <;> rw [heq] at hnew
  · exact hnew
  · exact P.run hnew t fn parg hint sw true site

theorem fork (h : J s) (t : TealetId) (parg : Option Ptr) (sw : Bool) (site : Site) :
    Returns (fun p => J p.1) (fork s t parg sw site) := by
  unfold Tealet.fork
  refine returns_any.bind fun _ _ => (returns_tealet s t).bind fun r hr => ?_
  by_cases hf : r.flags ≠ {}
  · exact Sat.ite_true hf h
  refine Sat.ite_false hf ((returns_tealet s _).bind fun c hc => ?_)
  by_cases hfar : c.stackFar = spFurthest
  · exact Sat.ite_true hfar h
  refine Sat.ite_false hfar (returns_any.bind fun _ _ => ?_)
  have hL : L ((s.setTealet t { r with
      stackFar := c.stackFar,
      flags := { bound := true, fork := true, mainLineage := c.flags.mainLineage } }).lockAuto) :=
    P.lock (P.record hr h)
  cases sw with
  | true => exact P.start hL
  | false => exact P.start (P.current hL)

theorem duplicate (h : J s) (t : TealetId) : Returns (fun p => J p.1) (duplicate s t) := by
  have hL := P.alloc (P.lock h)
  unfold Tealet.duplicate
  refine returns_any.bind fun _ _ => ?_
  have hrec := alloc_record s.lockAuto
  rcases heq : Tealet.alloc s.lockAuto with ⟨s₁, _ | c⟩ <;> rw [heq] at hL hrec
  · exact P.unlock hL
  · refine returns_any.bind fun r _ => ?_
    have hc : s₁.tealets c = some {} := hrec c rfl
    cases r.stack with
    | none => exact P.unlock (P.recordIn hc hL)
    | some k => exact (P.dup hL).bind fun h' hh' => P.unlock (P.recordIn hc hh')

theorem status (h : J s) (t : TealetId) : Returns (fun p => J p.1) (status s t) := by
  unfold Tealet.status
  refine returns_any.bind fun r _ => ?_
  by_cases hb : r.flags.bound = false
  · exact Sat.ite_true hb h
  refine Sat.ite_false hb ?_
  by_cases hx : r.flags.exited = true
  · exact Sat.ite_true hx h
  refine Sat.ite_false hx (Sat.bind (Q := fun p : State × Bool => J p.1) ?_ fun p hp => hp)
  unfold isDefunct
  refine (returns_tealet s t).bind fun r hr => ?_
  by_cases hd : r.flags.defunct = true
  · exact Sat.ite_true hd h
  refine Sat.ite_false hd ?_
  cases r.stack with
  | none => exact h
  | some k =>
      refine returns_any.bind fun st _ => ?_
      by_cases hst : st.defunct = true
      · exact Sat.ite_true hst (P.record hr h)
      · exact Sat.ite_false hst h

theorem setFar (h : J s) (t : TealetId) (far : Nat) :
    Returns (fun p => J p.1) (setFar s t far) := by
  unfold Tealet.setFar
  refine (returns_tealet s t).bind fun r hr => ?_
  by_cases ht : t ≠ mainId
  · exact Sat.ite_true ht h
  · exact Sat.ite_false ht (P.record hr h)

theorem switchCall (h : J s) (t : TealetId) (parg : Option Ptr) (flags : XFlags) (sp : Nat) :
    Returns (fun p => J p.1) (Tealet.switch s t parg flags sp) := by
  unfold Tealet.switch
  refine returns_any.bind fun _ _ => returns_any.bind fun _ _ => ?_
  exact (P.attempts (P.lock h) _ _ _ _ _ _).bind fun p hp => P.finish hp

/-- Every call keeps what the pieces keep. -/
theorem callStep (h : J s) (c : Call) : Returns (fun p => J p.1) (callStep s c) := by
  cases c with
  | new => exact P.new h
  | run t fn parg hint sw site => exact P.run h t fn parg hint sw false site
  | spawn fn parg hint sw site => exact P.spawn h fn parg hint sw site
  | fork t parg sw site => exact P.fork h t parg sw site
  | switch t parg flags sp => exact P.switchCall h t parg flags sp
  | exit t arg flags sp => exact P.exit h t arg flags false sp
  | ret p sp => exact P.ret h p sp
  | duplicate t => exact (P.duplicate h t).bind fun p hp => hp
  | delete t => exact (P.delete h).bind fun s' hs' => hs'
  | status t => exact (P.status h t).bind fun p hp => hp
  | setFar t far => exact (P.setFar h t far).bind fun p hp => hp
  | configure q => exact P.configure h

theorem request {s₀ : State} {c : Call} {q : Request} (h : J s) (hq : c.request s = some (s₀, q)) :
    L s₀ := by
  have hexit : ∀ {s₁ t arg flags implicit sp}, L s₁ →
      L (exitRequest s₁ t arg flags implicit sp).1 := by
    intro s₁ t arg flags implicit sp h₁
    unfold exitRequest
    split
    · exact P.signalIn h₁
    · exact h₁
  cases c with
  | switch t parg flags sp =>
      cases hq
      exact P.lock h
  | exit t arg flags sp =>
      simp only [Call.request] at hq
      split at hq
      · cases hq
      · have heq := congrArg Prod.fst (Option.some.inj hq)
        dsimp only at heq
        exact heq ▸ hexit (P.lock h)
  | ret p sp =>
      cases p with
      | none => cases hq
      | some t =>
          have heq := congrArg Prod.fst (Option.some.inj hq)
          dsimp only at heq
          have hJ : J (exitRequest s t null {} true sp).1 := by
            unfold exitRequest
            split
            · exact P.signal h
            · exact h
          exact heq ▸ P.lock hJ
  | _ => cases hq

/-- Stacks are only switched in states inside a call. -/
theorem switches {c : Call} {w : Switching} (h : J s) (hw : Switches s c w) : L w.state := by
  have hstart : ∀ {s₁ t r r₀} (sw : Bool), s₁.tealets t = some r₀ → J s₁ →
      L (startStage s₁ t r sw) := by
    intro s₁ t r r₀ sw ht h₁
    have hL : L (s₁.lockAuto.setTealet t r) := P.recordIn (r := r₀) ht (P.lock h₁)
    cases sw with
    | true => exact hL
    | false => exact P.current hL
  cases hw with
  | xfer hq ha hs =>
      rename_i s₀ s₁ s₂ q t f
      have h₀ := P.request h hq
      have h₁ : L s₁ := by
        cases ha with
        | first => exact h₀
        | fallback hn hx hrc => exact (P.xfer h₀).result hx
      exact (P.stage h₁).result hs _ rfl
  | run ht => exact hstart _ ht h
  | spawn hnew ht =>
      refine hstart _ ht ?_
      have := P.new h
      rw [hnew] at this
      exact this
  | fork ht hc hfar => exact hstart _ ht h

end

end Passes

end Tealet
