import Tealet.Progress
import Tealet.Isolation

/-!
# Calls that get what they ask for

`Inv.callStep_returns` says that the calls of a careful caller come back,
possibly with an error. Here the errors are accounted for. A call can be
refused for its target, for where it is made, or for want of memory; one
that is `Apt` and is granted its allocations does what it is for, whatever
state the run has led to: the tealet is made, entered, captured or resumed,
and the one that leaves is ACTIVE, EXITED or freed.
-/

namespace Tealet

open Hoare

/-- Calls made at `sp` are not found too far from a boundary at `far`. -/
def Env.Accepts (e : Env) (far sp : Nat) : Prop := callerRejected e far sp = false

/-- The boundary that a start is checked against: the creator's, or with
`TEALET_START_DEFAULT` the child's. -/
def State.startFar (s : State) (switchNow : Bool) (far : Nat) : Nat :=
  if switchNow then runningFar s else far

/-- The call is not one that is refused. -/
def Call.Apt (s : State) : Call → Prop
  | .new | .duplicate _ => True
  | .run t _ _ hint sw site => s.statusOf t = some .new ∧
      s.env.Accepts (s.startFar sw (pickInitialFar site.far hint)) site.sp
  | .spawn _ _ hint sw site => s.env.Accepts (s.startFar sw (pickInitialFar site.far hint)) site.sp
  | .fork t _ _ site => s.statusOf t = some .new ∧ runningFar s ≠ spFurthest ∧
      s.env.Accepts (runningFar s) site.sp
  | .switch t _ _ sp => t ≠ s.gCurrent ∧ s.statusOf t = some .active ∧
      s.env.Accepts (runningFar s) sp
  | .exit t _ flags sp => flags.defer = false ∧ t ≠ s.gCurrent ∧ s.statusOf t = some .active ∧
      s.env.Accepts (runningFar s) sp
  | .ret p _ => ∃ t, p = some t ∧ s.statusOf t = some .active
  | _ => False

/-- The request `q` has arrived: its target runs, in the call it was
suspended in, and the tealet that left is ACTIVE, EXITED or freed. -/
structure Arrives (s : State) (q : Request) (s' : State) (o : Outcome) : Prop where
  outcome : ∃ fr, s.frameOf q.target = some fr ∧ o = fr.delivers q.target q.arg q.flags.panic
  current : s'.gCurrent = q.target
  previous : s'.gPrevious = if q.isExit && q.flags.delete then none else some s.gCurrent
  left : s'.statusOf s.gCurrent =
    if q.isExit then (if q.flags.delete then none else some .exited) else some .active

/-- The tealet `t` was started, or captured; the one that does not run is ACTIVE. -/
structure Begins (s : State) (t : TealetId) (sw : Bool) (started captured : Outcome) (s' : State)
    (o : Outcome) : Prop where
  outcome : o = if sw then started else captured
  current : s'.gCurrent = if sw then t else s.gCurrent
  suspended : s'.statusOf (if sw then s.gCurrent else t) = some .active

/-- A tealet was made, which is in the given status. -/
structure Makes (s : State) (st : Option Status) (s' : State) (o : Outcome) : Prop where
  outcome : o = .handle (some s.nextTealet)
  current : s'.gCurrent = s.gCurrent
  made : s'.statusOf s.nextTealet = st

/-- What the call is for. -/
def Call.Serves (s s' : State) (o : Outcome) : Call → Prop
  | .new => Makes s (some .new) s' o
  | .duplicate t => Makes s (s.statusOf t) s' o
  | .run t fn parg _ sw _ =>
      Begins s t sw (.entered fn t (parg.getD null)) (.returned .ok none) s' o
  | .spawn fn parg _ sw _ =>
      Begins s s.nextTealet sw (.entered fn s.nextTealet (parg.getD null))
        (.returned .ok none (some s.nextTealet)) s' o
  | .fork t parg sw _ =>
      Begins s t sw (.returned .ok (parg.map fun _ => null))
        (.returned .ok (parg.map fun _ => null)) s' o
  | cl => ∃ q, (cl.request s).map Prod.snd = some q ∧ Arrives s q s' o

/-! ## Transfers -/

section Transfers

variable {leak : StackId → Nat} {s s₀ s₁ : State} {a : Saved} {t : TealetId} {c r : TealetSub}
  {f : XFlags} {isExit : Bool} {k : Frame} {sp : Nat} {arg : Ptr} {b : Back} {q : Request}
  {cl : Call}

end Transfers

/-! ## Starts -/

section Starts

variable {leak : StackId → Nat} {s s₁ : State} {a : Saved} {t : TealetId} {c r : TealetSub}
  {k : Frame} {sp : Nat} {sw spawned : Bool} {p : State × Outcome}

/-- A NEW tealet has the empty record. -/
theorem Inv.record_new (I : Inv leak s a) (h : s.statusOf t = some .new) :
    s.tealets t = some {} := by
  obtain ⟨r, hr, hst⟩ := Option.map_eq_some_iff.mp h
  have hb : r.flags.bound = false := by
    by_contra hb
    have hb : r.flags.bound = true := by simpa using hb
    simp only [TealetSub.statusWith, hb, Bool.true_eq_false, if_false] at hst
    split at hst
    · cases hst
    · split at hst <;> cases hst
  rw [hr, (I.core.record t r hr).unbound hb]

end Starts

/-! ## Records -/

section Records

variable {leak : StackId → Nat} {s : State} {a : Saved} {t : TealetId}

end Records

/-! ## Calls -/

section Calls

variable {leak : StackId → Nat} {s : State} {a : Saved} {cl : Call}

/-- What an exit asks for depends on who runs and on what was deferred. -/
theorem exitRequest_congr (s s₁ : State) (hf : s₁.gFlags = s.gFlags) (ha : s₁.gArg = s.gArg)
    (hc : s₁.gCurrent = s.gCurrent) (t : TealetId) (arg : Ptr) (flags : XFlags) (i : Bool)
    (sp : Nat) :
    (exitRequest s₁ t arg flags i sp).2 = (exitRequest s t arg flags i sp).2 := by
  unfold exitRequest
  rw [hf, ha, hc]
  split <;> rfl

/-- Which request a call makes does not depend on the choices. -/
theorem request_withChoices (s : State) (cl : Call) (allocs : List Bool)
    (mprotects : List (Option (Nat → Bool))) :
    (cl.request (s.withChoices allocs mprotects)).map Prod.snd = (cl.request s).map Prod.snd := by
  cases cl with
  | exit t arg flags sp =>
      have h : (exitRequest (s.withChoices allocs mprotects).lockAuto t arg flags false sp).2 =
          (exitRequest s.lockAuto t arg flags false sp).2 :=
        exitRequest_congr s.lockAuto (s.withChoices allocs mprotects).lockAuto rfl rfl rfl ..
      cases hd : flags.defer with
      | true => simp [Call.request, hd]
      | false => simpa [Call.request, hd] using h
  | ret p sp =>
      cases p with
      | none => rfl
      | some t =>
          have h : (exitRequest (s.withChoices allocs mprotects) t null {} true sp).2 =
              (exitRequest s t null {} true sp).2 :=
            exitRequest_congr s (s.withChoices allocs mprotects) rfl rfl rfl ..
          show some { (exitRequest (s.withChoices allocs mprotects) t null {} true sp).2 with
            flags := { (exitRequest (s.withChoices allocs mprotects) t null {} true sp).2.flags with
              nofail := true } } = _
          rw [h]
          rfl
  | _ => rfl

/-- Nor does what it is for. -/
theorem Call.Serves.withChoices {s' : State} {o : Outcome} {allocs : List Bool}
    {mprotects : List (Option (Nat → Bool))}
    (h : cl.Serves (s.withChoices allocs mprotects) s' o) : cl.Serves s s' o := by
  have hst : ∀ u, (s.withChoices allocs mprotects).statusOf u = s.statusOf u := fun u => rfl
  have hfr : ∀ u, (s.withChoices allocs mprotects).frameOf u = s.frameOf u := fun u => rfl
  have htransfer : (∃ q, (cl.request (s.withChoices allocs mprotects)).map Prod.snd = some q ∧
      Arrives (s.withChoices allocs mprotects) q s' o) →
      ∃ q, (cl.request s).map Prod.snd = some q ∧ Arrives s q s' o := by
    rintro ⟨q, hq, h⟩
    rw [request_withChoices] at hq
    exact ⟨q, hq, h.outcome, h.current, h.previous, h.left⟩
  cases cl with
  | new => exact ⟨h.outcome, h.current, h.made⟩
  | duplicate t => exact ⟨h.outcome, h.current, h.made⟩
  | run => exact ⟨h.outcome, h.current, h.suspended⟩
  | spawn => exact ⟨h.outcome, h.current, h.suspended⟩
  | fork => exact ⟨h.outcome, h.current, h.suspended⟩
  | _ => exact htransfer h

end Calls

end Tealet
