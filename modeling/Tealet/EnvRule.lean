import Tealet.Passes

/-!
# What the calls do to the environment

Between the call of an API function and its return the environment is
locked, the watch is released, stacks are copied, the watch is armed again
and the environment unlocked; beside that there is only bookkeeping.
`EnvRule J L K` says of properties of the environment between calls (`J`),
inside a call (`L`) and while stacks are copied (`K`) that these pieces take
one to the next.
-/

namespace Tealet

open Hoare

/-! ## `tealet_switchstack` up to the copying -/

/-- The part of `tealet_switchstack` before `stackman_switch`: the state in
which that is called, or the error. -/
def copyStage (s : State) (target : TealetId) (inArg : Ptr) (sp : Nat) :
    Res (State × Option Err) := do
  require .switchstack (target ≠ s.gCurrent)
  let r ← s.tealet target
  if r.flags.exited then
    return (s, some .inval)
  else
    let (s, defunct) ← isDefunct s target
    if defunct then
      return (s, some .defunct)
    else
      let rejected ← checkCallerIsCurrent s sp
      if rejected then
        return (s, some .inval)
      else
        let e ← guardUnprotectCurrent s.env
        let (e, verdict) ← snapshotVerifyCurrent e s.mem
        let s := { s with env := e }
        match verdict with
        | some err => return (s, some err)
        | none => return ({ s with
            gPrevious := some s.gCurrent, gTarget := some target, gArg := inArg }, none)

/-- The part of `tealet_switchstack` after `stackman_switch`. -/
def afterSwitch (oldPrevious : Option TealetId) (p : State × Frame × Nat) : Res (State × Back) := do
  let (s, k', sp') := p
  if s.gSw = .err then
    let s := { s with gPrevious := oldPrevious, gTarget := none, gArg := null }
    let s ← armIntegrity s sp'
    return (s.clearPanic, ⟨k', .err .mem, none⟩)
  else
    match s.gTarget with
    | none => .error .freed
    | some g =>
        let outArg := s.gArg
        let s := { s with gCurrent := g, live := g, gTarget := none, gArg := null }
        let s ← armIntegrity s sp'
        if s.gFlags.panic then
          return (s.clearPanic, ⟨k', .err .panic, some outArg⟩)
        else
          return (s, ⟨k', if s.gSw = .restore then .ok else .saved, some outArg⟩)

theorem switchstack_eq (s : State) (target : TealetId) (inArg : Ptr) (k : Frame) (sp : Nat) :
    switchstack s target inArg k sp = copyStage s target inArg sp >>= fun p =>
      match p.2 with
      | some e => .ok (p.1.clearPanic, ⟨k, .err e, none⟩)
      | none => stackmanSwitch p.1 k sp >>= afterSwitch s.gPrevious := by
  unfold switchstack copyStage
  cases hq : require .switchstack (target ≠ s.gCurrent) with
  | error f => rfl
  | ok u =>
  cases hr : s.tealet target with
  | error f => rfl
  | ok r =>
  simp only [ok_bind]
  by_cases hx : r.flags.exited = true
  · rw [if_pos hx, if_pos hx]
    rfl
  rw [if_neg hx, if_neg hx]
  cases hd : isDefunct s target with
  | error f => rfl
  | ok p =>
  obtain ⟨s₁, defunct⟩ := p
  simp only [ok_bind]
  by_cases hdef : defunct = true
  · rw [if_pos hdef, if_pos hdef]
    rfl
  rw [if_neg hdef, if_neg hdef]
  cases hc : checkCallerIsCurrent s₁ sp with
  | error f => rfl
  | ok rejected =>
  simp only [ok_bind]
  by_cases hrej : rejected = true
  · rw [if_pos hrej, if_pos hrej]
    rfl
  rw [if_neg hrej, if_neg hrej]
  cases hg : guardUnprotectCurrent s₁.env with
  | error f => rfl
  | ok e₁ =>
  simp only [ok_bind]
  cases hv : snapshotVerifyCurrent e₁ s₁.mem with
  | error f => rfl
  | ok p =>
  obtain ⟨e₂, _ | err⟩ := p <;> rfl

/-- `stackman_switch` is called in the state `s₂`, while the call `c` is made in `s`. -/
def Call.Copies (s : State) (c : Call) (s₂ : State) : Prop :=
  ∃ w, Switches s c w ∧ copyStage w.state w.target w.arg w.sp = .ok (s₂, none)

def Event.Copies (s : State) (e : Event) (s₂ : State) : Prop :=
  match e with
  | .write _ => False
  | .call c allocs mprotects => c.Copies (s.withChoices allocs mprotects) s₂

/-! ## Bookkeeping -/

/-- The list of tealets and their number change. -/
def Env.books (e : Env) (n c : Nat) (f g : TealetId → TealetId) : Env :=
  { e with gTealets := n, gCounter := c, nextTealet := f, prevTealet := g }

/-- `e'` is `e` up to the bookkeeping. -/
def Env.Books (e e' : Env) : Prop := ∃ n c f g, e' = e.books n c f g

theorem Env.Books.refl (e : Env) :
    e.Books e := ⟨e.gTealets, e.gCounter, e.nextTealet, e.prevTealet, rfl⟩

theorem Env.Books.trans {e₁ e₂ e₃ : Env} (h : e₁.Books e₂) (h' : e₂.Books e₃) : e₁.Books e₃ := by
  obtain ⟨n, c, f, g, rfl⟩ := h
  obtain ⟨n', c', f', g', rfl⟩ := h'
  exact ⟨n', c', f', g', rfl⟩

theorem freeTealet_books (s : State) (t : TealetId) : s.env.Books (freeTealet s t).env :=
  ⟨_, _, _, _, rfl⟩

theorem alloc_books (s : State) : s.env.Books (alloc s).1.env := by
  unfold alloc
  rcases s.heap.malloc with ⟨_ | _, h⟩
  · exact .refl _
  · exact ⟨_, _, _, _, rfl⟩

/-- Saving touches the environment only to free a record. -/
theorem saveState_books (s : State) (k : Frame) (sp : Nat) :
    Returns (fun p => s.env.Books p.1.env) (saveState s k sp) := by
  unfold saveState
  split
  · exact True.intro
  refine returns_any.bind fun _ _ => returns_any.bind fun _ _ => returns_any.bind fun current _ =>
    returns_any.bind fun _ _ => returns_any.bind fun _ _ => returns_any.bind fun _ _ =>
    returns_any.bind fun p _ => ?_
  by_cases hf : p.2 = true
  · exact Sat.ite_true hf (.refl _)
  refine Sat.ite_false hf (returns_any.bind fun _ _ => ?_)
  by_cases hx : current.flags.exiting = true
  · refine Sat.ite_true hx (returns_any.bind fun _ _ => ?_)
    by_cases ha : current.flags.autodelete = true
    · refine Sat.ite_true ha ?_
      have hcount : s.env.Books { s.env with gTealets := s.env.gTealets - 1 } := ⟨_, _, _, _, rfl⟩
      exact hcount.trans (freeTealet_books _ _)
    · exact Sat.ite_false ha (.refl _)
  · refine Sat.ite_false hx (returns_any.bind fun q _ => ?_)
    obtain ⟨h, stack, full⟩ := q
    cases stack with
    | none =>
        dsimp only
        split
        · exact .refl _
        · exact returns_any.bind fun _ _ => .refl _
    | some st =>
        refine returns_any.bind fun _ _ => ?_
        dsimp only
        split
        · exact .refl _
        · exact returns_any.bind fun _ _ => .refl _

theorem restoreState_env (s : State) (sp : Nat) :
    Returns (fun s' => s'.env = s.env) (restoreState s sp) := by
  unfold restoreState
  split
  · exact True.intro
  refine returns_any.bind fun r _ => ?_
  split
  · exact True.intro
  exact returns_any.bind fun _ _ => returns_any.bind fun _ _ => returns_any.bind fun _ _ =>
    returns_any.bind fun _ _ => rfl

theorem stackmanSwitch_books (s : State) (k : Frame) (sp : Nat) :
    Returns (fun p => s.env.Books p.1.env) (stackmanSwitch s k sp) := by
  unfold stackmanSwitch
  refine (saveState_books s k sp).bind fun p hp => ?_
  obtain ⟨s₁, failed⟩ := p
  cases failed with
  | true => exact hp
  | false =>
      refine Sat.ite_false Bool.false_ne_true ?_
      split
      · exact True.intro
      refine returns_any.bind fun r _ => ?_
      split
      · exact hp
      · refine returns_any.bind fun st _ => ?_
        refine (restoreState_env { s₁ with gSw := .restore } st.chunk.stackNear).bind
          fun s₂ h₂ => ?_
        show s.env.Books s₂.env
        rw [h₂]
        exact hp

/-! ## Watching -/

/-- The configuration, the watched interval and the pages change. -/
def Env.watching (e : Env) (c : Config) (d : IntegrityData) (l : Nat → Bool)
    (o : List (Option (Nat → Bool))) : Env :=
  { e with cfg := c, data := d, lowered := l, mprotects := o }

/-- `e'` is `e` up to the watch. -/
def Env.Watching (e e' : Env) : Prop := ∃ c d l o, e' = e.watching c d l o

theorem Env.Watching.refl (e : Env) : e.Watching e := ⟨e.cfg, e.data, e.lowered, e.mprotects, rfl⟩

theorem Env.Watching.trans {e₁ e₂ e₃ : Env} (h : e₁.Watching e₂) (h' : e₂.Watching e₃) :
    e₁.Watching e₃ := by
  obtain ⟨c, d, l, o, rfl⟩ := h
  obtain ⟨c', d', l', o', rfl⟩ := h'
  exact ⟨c', d', l', o', rfl⟩

theorem mprotect_watching (e : Env) (base bytes : Nat) (lower : Bool) :
    e.Watching (e.mprotect base bytes lower).1 := by
  unfold Env.mprotect
  split <;> exact ⟨_, _, _, _, rfl⟩

theorem Env.Watching.data {e e' : Env} (h : e.Watching e') (d : IntegrityData) :
    e.Watching { e' with data := d } :=
  h.trans ⟨e'.cfg, d, e'.lowered, e'.mprotects, rfl⟩

theorem guardUnprotectCurrent_watching (e : Env) :
    Returns e.Watching (guardUnprotectCurrent e) := by
  unfold guardUnprotectCurrent
  split
  · exact .refl e
  · exact returns_any.bind fun _ _ => (mprotect_watching e _ _ _).data _

theorem guardProtectCurrent_watching (e : Env) : Returns e.Watching (guardProtectCurrent e) := by
  unfold guardProtectCurrent
  split
  · exact .refl e
  · refine returns_any.bind fun _ _ => ?_
    dsimp only
    split
    · exact mprotect_watching e _ _ _
    · exact (mprotect_watching e _ _ _).data _

theorem snapshotCaptureCurrent_watching (e : Env) (m : Memory) (far : Nat) :
    Returns e.Watching (snapshotCaptureCurrent e m far) := by
  unfold snapshotCaptureCurrent
  split
  · exact .refl e
  · refine returns_any.bind fun _ _ => returns_any.bind fun _ _ => returns_any.bind fun _ _ => ?_
    split
    · exact .refl e
    · exact (Env.Watching.refl e).data _

theorem snapshotVerifyCurrent_watching (e : Env) (m : Memory) :
    Returns (fun p => e.Watching p.1) (snapshotVerifyCurrent e m) := by
  unfold snapshotVerifyCurrent
  split
  · exact .refl e
  · refine returns_any.bind fun _ _ => ?_
    dsimp only
    split
    · exact (Env.Watching.refl e).data _
    · split
      · exact True.intro
      · split
        · exact (Env.Watching.refl e).data _
        · exact True.intro

theorem armEnv_watching (e : Env) (m : Memory) (c : TealetSub) (sp : Nat) :
    Returns e.Watching (armEnv e m c sp) := by
  unfold armEnv
  refine returns_any.bind fun _ _ => returns_any.bind fun d _ => returns_any.bind fun _ _ => ?_
  have h : e.Watching { e with data := d } := (Env.Watching.refl e).data d
  refine (snapshotCaptureCurrent_watching _ m c.stackFar).bind fun e₁ h₁ => ?_
  exact (guardProtectCurrent_watching e₁).imp fun e₂ h₂ => (h.trans h₁).trans h₂

theorem configureSet_watching (s : State) (request : Config) :
    s.env.Watching (configureSet s request).1.env := by
  unfold configureSet
  dsimp only
  have hsnap : ∀ required ok, s.env.Watching (snapshotEnsureCapacity s.env required ok).1 := by
    intro required ok
    unfold snapshotEnsureCapacity
    split
    · exact .refl _
    · split
      · exact (Env.Watching.refl _).data _
      · exact .refl _
  split
  all_goals
    rename_i e heq
    have he : s.env.Watching e := by
      have h := congrArg Prod.fst heq
      dsimp only at h
      rw [← h]
      exact hsnap _ _
  · exact he.trans ⟨_, e.data, e.lowered, e.mprotects, rfl⟩
  · exact he

/-! ## The rule -/

structure EnvRule (J L K : Env → Prop) : Prop where
  lock : ∀ {e}, J e → L e.lockAuto
  unlock : ∀ {e}, L e → J e.unlockAuto
  books : ∀ {e e'}, L e → e.Books e' → L e'
  copying : ∀ {e e'}, K e → e.Books e' → K e'
  release : ∀ {e m}, L e → Returns (fun p => (p.2 = none → K p.1) ∧ (p.2 ≠ none → L p.1))
    (guardUnprotectCurrent e >>= fun e => snapshotVerifyCurrent e m)
  arm : ∀ {e m c sp}, K e → Returns L (armEnv e m c sp)
  configure : ∀ {s q}, J s.env → J (configureSet s q).1.env

namespace EnvRule

variable {J L K : Env → Prop}

/-- Arming is arming the environment for the record of the current tealet. -/
theorem armIntegrity_returns (s : State) (sp : Nat) :
    Returns (fun s' => ∃ c e, armEnv s.env s.mem c sp = .ok e ∧ s' = { s with env := e })
      (armIntegrity s sp) := by
  cases hc : s.tealets s.gCurrent with
  | none =>
      unfold armIntegrity verifyCurrentMatchesCaller State.tealet
      rw [hc]
      exact True.intro
  | some c =>
      rw [armIntegrity_eq hc]
      cases he : armEnv s.env s.mem c sp with
      | error f => exact True.intro
      | ok e => exact ⟨c, e, he, rfl⟩

section
variable (R : EnvRule J L K)
include R

theorem rearm {s : State} {sp : Nat} (h : K s.env) :
    Returns (fun s' => L s'.env) (armIntegrity s sp) := by
  refine (armIntegrity_returns s sp).imp ?_
  rintro s' ⟨c, e, he, rfl⟩
  exact (R.arm (c := c) h).result he

/-- Stacks are copied in an environment with `K`, or the call is refused. -/
theorem copyStage {s : State} {t : TealetId} {arg : Ptr} {sp : Nat} (h : L s.env) :
    Returns (fun p => (p.2 = none → K p.1.env) ∧ (p.2 ≠ none → L p.1.env))
      (copyStage s t arg sp) := by
  have hstop : ∀ {s₁ : State} {e : Err}, L s₁.env →
      Returns (fun p => (p.2 = none → K p.1.env) ∧ (p.2 ≠ none → L p.1.env))
        (.ok (s₁, some e) : Res (State × Option Err)) := fun h₁ => ⟨nofun, fun _ => h₁⟩
  unfold Tealet.copyStage
  refine returns_any.bind fun _ _ => returns_any.bind fun r _ => ?_
  by_cases hx : r.flags.exited = true
  · exact Sat.ite_true hx (hstop h)
  refine Sat.ite_false hx ?_
  have hdef : Returns (fun p => p.1.env = s.env) (isDefunct s t) := by
    unfold isDefunct
    refine returns_any.bind fun r _ => ?_
    split
    · exact rfl
    · split
      · exact rfl
      · refine returns_any.bind fun st _ => ?_
        split <;> exact rfl
  refine hdef.bind fun p hp => ?_
  obtain ⟨s₁, defunct⟩ := p
  have h₁ : L s₁.env := by
    rw [show s₁.env = s.env from hp]
    exact h
  by_cases hd : defunct = true
  · exact Sat.ite_true hd (hstop h₁)
  refine Sat.ite_false hd (returns_any.bind fun rejected _ => ?_)
  by_cases hrej : rejected = true
  · exact Sat.ite_true hrej (hstop h₁)
  refine Sat.ite_false hrej ?_
  rw [← bind_assoc]
  refine (R.release h₁).bind fun p hp => ?_
  obtain ⟨e, _ | err⟩ := p
  · exact ⟨fun _ => hp.1 rfl, fun hno => absurd rfl hno⟩
  · exact ⟨nofun, fun _ => hp.2 nofun⟩

theorem afterSwitch {prev : Option TealetId} {p : State × Frame × Nat} (h : K p.1.env) :
    Returns (fun p => L p.1.env) (afterSwitch prev p) := by
  obtain ⟨s, k, sp⟩ := p
  unfold Tealet.afterSwitch
  dsimp only
  by_cases hsw : s.gSw = .err
  · exact Sat.ite_true hsw ((R.rearm (s := { s with
      gPrevious := prev, gTarget := none, gArg := null }) h).bind fun s' hs' => hs')
  · refine Sat.ite_false hsw ?_
    split
    · exact True.intro
    · rename_i g hg
      refine (R.rearm (s := { s with
        gCurrent := g, live := g, gTarget := none, gArg := null }) h).bind fun s' hs' => ?_
      split <;> exact hs'

theorem switchstack {s : State} {t : TealetId} {arg : Ptr} {k : Frame} {sp : Nat} (h : L s.env) :
    Returns (fun p => L p.1.env) (switchstack s t arg k sp) := by
  rw [switchstack_eq]
  refine (R.copyStage h).bind fun p hp => ?_
  obtain ⟨s₁, _ | e⟩ := p
  · refine (stackmanSwitch_books s₁ k sp).bind fun q hq => ?_
    exact R.afterSwitch (R.copying (hp.1 rfl) hq)
  · exact hp.2 nofun

theorem passes : Passes (fun s => J s.env) (fun s => L s.env) where
  lock := R.lock
  unlock := R.unlock
  record _ h := h
  recordIn _ h := h
  signal h := h
  signalIn h := h
  current h := h
  previous h := h
  switch h := R.switchstack h
  alloc h := R.books h (alloc_books _)
  dup h := returns_any.imp fun _ _ => h
  drop _ _ h := returns_any.imp fun _ _ => R.books h
    (Env.Books.trans ⟨_, _, _, _, rfl⟩ (freeTealet_books _ _))
  configure h := R.configure h

theorem copies {s s₂ : State} {c : Call} (h : J s.env) (hc : c.Copies s s₂) : K s₂.env := by
  obtain ⟨w, hw, hs⟩ := hc
  exact ((R.copyStage (R.passes.switches h hw)).result hs).1 rfl

end

end EnvRule

end Tealet
