import Tealet.System
import Tealet.View

/-!
# What a call attempts

A call of `tealet_switch`, `tealet_exit` or the return of a run function
makes one or two attempts to transfer, a start makes one, and a condition
on a run is a condition on the attempts made in it. `Attempts s c s₁ l`
says that the call `c` in the state `s` makes the attempt `l` in the state
`s₁`.
-/

namespace Tealet

/-- What the attempts of a transferring call share. -/
structure Request where
  target : TealetId
  arg : Ptr
  flags : XFlags
  isExit : Bool
  frame : Frame
  sp : Nat
deriving DecidableEq, Repr

/-- The flags of the first attempt. -/
def XFlags.first (f : XFlags) : XFlags :=
  if f.nofail then { f with nofail := false, force := true } else f

/-- The flags of the second one, to main. -/
def XFlags.fallback (f : XFlags) : XFlags :=
  { f with nofail := false, force := true, panic := true }

def Request.attempts (q : Request) (s : State) : Res (State × Back) :=
  xferAttempts s q.target q.arg q.flags q.isExit q.frame q.sp

/-- What an exit asks for: a pending request replaces the arguments. -/
def exitRequest (s : State) (target : TealetId) (arg : Ptr) (flags : XFlags) (implicit : Bool)
    (sp : Nat) : State × Request :=
  if s.gFlags.xfer.defer then
    ({ s with gFlags := {}, gArg := null },
      ⟨target, s.gArg, { s.gFlags.xfer with defer := false }, true, .exit s.gCurrent implicit, sp⟩)
  else (s, ⟨target, arg, flags, true, .exit s.gCurrent implicit, sp⟩)

/-- The request of a call, and the state in which it is first attempted. -/
def Call.request (s : State) : Call → Option (State × Request)
  | .switch t parg flags sp =>
      some (s.lockAuto, ⟨t, parg.getD null, flags, false, .switch s.gCurrent parg.isSome, sp⟩)
  | .exit t arg flags sp =>
      if flags.defer then none else some (exitRequest s.lockAuto t arg flags false sp)
  | .ret (some t) sp =>
      let (s, q) := exitRequest s t null {} true sp
      some (s.lockAuto, { q with flags := { q.flags with nofail := true } })
  | _ => none

/-- The request `q`, first attempted in `s`, is attempted in the given
state, for the given target under the given flags. -/
inductive Attempt (s : State) (q : Request) : State → TealetId → XFlags → Prop where
  | first : Attempt s q s q.target q.flags.first
  | fallback {s' : State} {b : Back} (hn : q.flags.nofail = true)
      (h : xferInner s q.target q.arg q.flags.first q.isExit q.frame q.sp = .ok (s', b))
      (hrc : b.rc = .err .mem ∨ b.rc = .err .defunct) :
      Attempt s q s' mainId q.flags.fallback

inductive Attempts (s : State) : Call → State → Label → Prop where
  | xfer {c : Call} {s₀ s₁ : State} {q : Request} {t : TealetId} {f : XFlags}
      (hq : c.request s = some (s₀, q)) (h : Attempt s₀ q s₁ t f) :
      Attempts s c s₁ (.xfer t f q.isExit s₁.heap.allocs)
  | run {t : TealetId} {fn : RunFn} {parg : Option Ptr} {hint : Nat} {site : Site} :
      Attempts s (.run t fn parg hint true site) s
        (.start t (pickInitialFar site.far hint) s.heap.allocs)
  | runDefault {t : TealetId} {fn : RunFn} {parg : Option Ptr} {hint : Nat} {site : Site} :
      Attempts s (.run t fn parg hint false site) s
        (.capture t (pickInitialFar site.far hint) s.heap.allocs)
  | spawn {s₁ : State} {t : TealetId} {fn : RunFn} {parg : Option Ptr} {hint : Nat} {site : Site}
      (h : new s = (s₁, some t)) : Attempts s (.spawn fn parg hint true site) s₁
        (.start t (pickInitialFar site.far hint) s₁.heap.allocs)
  | spawnDefault {s₁ : State} {t : TealetId} {fn : RunFn} {parg : Option Ptr} {hint : Nat}
      {site : Site} (h : new s = (s₁, some t)) : Attempts s (.spawn fn parg hint false site) s₁
        (.capture t (pickInitialFar site.far hint) s₁.heap.allocs)
  | fork {t : TealetId} {parg : Option Ptr} {site : Site} :
      Attempts s (.fork t parg true site) s (.start t (runningFar s) s.heap.allocs)
  | forkDefault {t : TealetId} {parg : Option Ptr} {site : Site} :
      Attempts s (.fork t parg false site) s (.capture t (runningFar s) s.heap.allocs)
  | setFar {far : Nat} : Attempts s (.setFar mainId far) s (.setFar far)
  | delete {t : TealetId} : Attempts s (.delete t) s (.delete t)
  | duplicate {t : TealetId} : Attempts s (.duplicate t) s (.duplicate t)
  | spawnFailed {s₁ : State} {t : TealetId} {fn : RunFn} {parg : Option Ptr} {hint : Nat}
      {switchNow : Bool} {site : Site} (h : new s = (s₁, some t)) :
      Attempts s (.spawn fn parg hint switchNow site) s₁ (.delete t)

/-- The attempts of an event. -/
def Event.Attempts (s : State) (e : Event) (s₁ : State) (l : Label) : Prop :=
  match e with
  | .write _ => s₁ = s ∧ l = .write
  | .call c allocs mprotects => Tealet.Attempts (s.withChoices allocs mprotects) c s₁ l

/-- The attempts of a request, in order. -/
def Request.attemptList (q : Request) (s : State) : List (State × TealetId × XFlags) :=
  (s, q.target, q.flags.first) ::
    if q.flags.nofail then
      match xferInner s q.target q.arg q.flags.first q.isExit q.frame q.sp with
      | .ok (s', b) =>
          if b.rc = .err .mem ∨ b.rc = .err .defunct then [(s', mainId, q.flags.fallback)] else []
      | .error _ => []
    else []

theorem attempt_iff {s s₁ : State} {q : Request} {t : TealetId} {f : XFlags} :
    Attempt s q s₁ t f ↔ (s₁, t, f) ∈ q.attemptList s := by
  constructor
  · intro h
    cases h with
    | first => exact List.mem_cons_self
    | fallback hn h hrc =>
        refine List.mem_cons_of_mem _ ?_
        rw [if_pos hn, h]
        simp [hrc]
  · intro h
    rcases List.mem_cons.mp h with h | h
    · cases h
      exact .first
    · split at h
      · rename_i hn
        split at h
        · rename_i s' b heq
          split at h
          · rename_i hrc
            obtain ⟨rfl, rfl, rfl⟩ : s₁ = s' ∧ t = mainId ∧ f = q.flags.fallback := by
              simpa using h
            exact .fallback hn heq hrc
          · cases h
        · cases h
      · cases h

/-- The attempts of an event to transfer, in order. -/
def Event.transferList (s : State) : Event → List (State × TealetId × XFlags)
  | .write _ => []
  | .call c allocs mprotects =>
      match c.request (s.withChoices allocs mprotects) with
      | some (s₀, q) => q.attemptList s₀
      | none => []

theorem mem_transferList {s s₁ : State} {e : Event} {t : TealetId} {f : XFlags} {isExit : Bool}
    {allocs : List Bool} (h : e.Attempts s s₁ (.xfer t f isExit allocs)) :
    (s₁, t, f) ∈ e.transferList s := by
  cases e with
  | write m => cases h.2
  | call c al mp =>
      cases h with
      | xfer hq ha =>
          simp only [Event.transferList, hq]
          exact attempt_iff.mp ha

/-- The call the tealet `t` is suspended in. -/
def State.frameOf (s : State) (t : TealetId) : Option Frame := do
  let r ← s.tealets t
  let k ← r.stack
  let st ← s.heap.stackAt k
  return st.frame

/-- A transfer under PANIC does not resume a capture; with `strict` it does
not resume a start either. -/
def PanicResumes (strict : Prop) (s : State) (c : Call) : Prop :=
  ∀ s₁ t f isExit allocs, Attempts s c s₁ (.xfer t f isExit allocs) → f.panic = true →
    t ≠ s₁.gCurrent → ∀ fr, s₁.frameOf t = some fr →
      fr.isCapture = false ∧ (strict → fr.started = none)

/-- A transfer under PANIC that resumes a `tealet_switch` finds the record
of the tealet that called it. -/
def PanicCallers (s : State) (c : Call) : Prop :=
  ∀ s₁ t f isExit allocs, Attempts s c s₁ (.xfer t f isExit allocs) → f.panic = true →
    t ≠ s₁.gCurrent → ∀ g out, s₁.frameOf t = some (.switch g out) →
      Alive s₁ g ∧ (isExit = true → f.delete = true → g ≠ s₁.gCurrent)

/-! ## The calls as requests -/

/-- The rest of a transferring call. A rejected exit only unlocks and
returns, and an implicit one must not return. -/
def Request.finish (q : Request) (p : State × Back) : Res (State × Outcome) :=
  Tealet.finish p.1
    (if q.isExit = true ∧ p.2.frame = .api then { p.2 with frame := q.frame } else p.2)

theorem exit_eq (s : State) (t : TealetId) (arg : Ptr) (flags : XFlags) (implicit : Bool) (sp : Nat)
    (hd : flags.defer = false) :
    exit s t arg flags implicit sp =
      require .exit (¬ (flags.defer = true ∧ flags.panic = true)) >>= fun _ =>
      verifyCurrentMatchesCaller s sp >>= fun _ =>
      (exitRequest s.lockAuto t arg flags implicit sp).2.attempts
        (exitRequest s.lockAuto t arg flags implicit sp).1 >>= fun p =>
      (exitRequest s.lockAuto t arg flags implicit sp).2.finish p := by
  unfold exit
  simp only [hd, Bool.false_eq_true, if_false, false_and, not_false_eq_true]
  cases hf : s.lockAuto.gFlags.xfer.defer <;>
    simp [exitRequest, Request.attempts, Request.finish, hf]

/-- `tealet_switch` takes no flags of `tealet_exit`. -/
def Call.FlagsOk : Call → Prop
  | .switch _ _ flags _ => flags.delete = false ∧ flags.defer = false
  | _ => True

/-- A transferring call checks its arguments and the caller, makes its
attempts and returns where they end. -/
theorem callStep_request {s s₀ : State} {c : Call} {q : Request} (h : c.request s = some (s₀, q)) :
    ∃ f cond, ∃ _ : Decidable cond, (f = .switch ∨ f = .exit) ∧ (c.FlagsOk → cond) ∧
      callStep s c = require f cond >>= fun _ => verifyCurrentMatchesCaller s q.sp >>= fun _ =>
        q.attempts s₀ >>= q.finish := by
  cases c with
  | switch t parg flags sp =>
      cases h
      exact ⟨.switch, _, _, .inl rfl, id, rfl⟩
  | exit t arg flags sp =>
      simp only [Call.request] at h
      split at h
      · cases h
      · rename_i hd
        have h := Option.some.inj h
        have heq := exit_eq s t arg flags false sp (by simpa using hd)
        have hsp : (exitRequest s.lockAuto t arg flags false sp).2.sp = sp := by
          unfold exitRequest
          split <;> rfl
        rw [h] at heq hsp
        rw [show q.sp = sp from hsp]
        exact ⟨.exit, _, _, .inr rfl, fun _ => by simp [hd], heq⟩
  | ret p sp =>
      cases p with
      | none => cases h
      | some t =>
          cases hf : s.gFlags.xfer.defer with
          | true =>
              simp only [Call.request, exitRequest, hf, if_true, Option.some.injEq,
                Prod.mk.injEq] at h
              obtain ⟨rfl, rfl⟩ := h
              have heq := exit_eq { s with gFlags := {}, gArg := null } t s.gArg
                { s.gFlags.xfer with defer := false, nofail := true } true sp rfl
              refine ⟨.exit, _, _, .inr rfl, fun _ => by simp, Eq.trans ?_ heq⟩
              simp only [callStep, ret, hf, if_true]
          | false =>
              simp only [Call.request, exitRequest, hf, Bool.false_eq_true, if_false,
                Option.some.injEq, Prod.mk.injEq] at h
              obtain ⟨rfl, rfl⟩ := h
              have heq := exit_eq s t null { nofail := true } true sp rfl
              rw [show exitRequest s.lockAuto t null { nofail := true } true sp =
                (s.lockAuto, ⟨t, null, { nofail := true }, true, .exit s.gCurrent true, sp⟩) by
                  simp [exitRequest, State.lockAuto, hf]] at heq
              refine ⟨.exit, _, _, .inr rfl, fun _ => by simp, Eq.trans ?_ heq⟩
              simp only [callStep, ret, hf, Bool.false_eq_true, if_false]
  | _ => cases h

end Tealet
