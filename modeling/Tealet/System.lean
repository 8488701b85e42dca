import Tealet.Api

/-!
# Runs

The system: user code in the running tealet either writes to memory or
makes an API call. A call is a step from the state in which it is made to
the state in which user code has control again, and comes with what the
environment decides during it: which allocations and which `mprotect`
calls fail.

`Run P` are the runs every step of which satisfies `P`.
-/

namespace Tealet

/-- An API call of the running tealet. -/
inductive Call where
  | new
  | run (t : TealetId) (run : RunFn) (parg : Option Ptr) (stackFar : Nat) (switchNow : Bool)
      (site : Site)
  | spawn (run : RunFn) (parg : Option Ptr) (stackFar : Nat) (switchNow : Bool) (site : Site)
  | fork (t : TealetId) (parg : Option Ptr) (switchNow : Bool) (site : Site)
  | switch (t : TealetId) (parg : Option Ptr) (flags : XFlags) (sp : Nat)
  | exit (t : TealetId) (arg : Ptr) (flags : XFlags) (sp : Nat)
  | ret (p : Option TealetId) (sp : Nat)
  | duplicate (t : TealetId)
  | delete (t : TealetId)
  | status (t : TealetId)
  | setFar (t : TealetId) (far : Nat)
  | configure (request : Config)

inductive Event where
  /-- user code writes to memory -/
  | write (m : Memory)
  /-- user code makes a call -/
  | call (c : Call) (allocs : List Bool) (mprotects : List (Option (Nat → Bool)))

def callStep (s : State) : Call → Res (State × Outcome)
  | .new =>
      let (s, t) := new s
      .ok (s, .handle t)
  | .run t f parg stackFar switchNow site => run s t f parg stackFar switchNow false site
  | .spawn f parg stackFar switchNow site => spawn s f parg stackFar switchNow site
  | .fork t parg switchNow site => fork s t parg switchNow site
  | .switch t parg flags sp => switch s t parg flags sp
  | .exit t arg flags sp => exit s t arg flags false sp
  | .ret p sp => ret s p sp
  | .duplicate t => do
      let (s, c) ← duplicate s t
      return (s, .handle c)
  | .delete t => do
      let s ← delete s t
      return (s, .returned .ok none)
  | .status t => do
      let (s, _) ← status s t
      return (s, .returned .ok none)
  | .setFar t far => do
      let (s, rc) ← setFar s t far
      return (s, .returned rc none)
  | .configure request =>
      let (s, rc) := configureSet s request
      .ok (s, .returned rc none)

/-- The state with the environment's choices for one call in place. -/
def State.withChoices (s : State) (allocs : List Bool)
    (mprotects : List (Option (Nat → Bool))) : State :=
  { s with
    heap := { s.heap with allocs := allocs }
    env := { s.env with mprotects := mprotects } }

def step (s : State) : Event → Res (State × Outcome)
  | .write m => .ok ({ s with mem := m }, .returned .ok none)
  | .call c allocs mprotects => callStep (s.withChoices allocs mprotects) c

/-- The state after `tealet_initialize`. -/
def initial (mem : Memory) (env : Env) : State :=
  { heap := { stats := ({} : Stats).addAlloc (mainHeader + env.gExtrasize) }
    tealets := fun t =>
      if t = mainId then
        some { stackFar := spFurthest, flags := { bound := true, mainLineage := true } }
      else none
    nextTealet := 1
    mem := mem
    env := env }

/-- The environments `tealet_initialize` leaves: integrity checks are off. -/
structure Env.Fresh (e : Env) : Prop where
  cfg : e.cfg = {}
  data : e.data = {}

/-! ## Callers -/

/-- The far boundary of the running tealet. -/
def runningFar (s : State) : Nat :=
  ((s.tealets s.gCurrent).map TealetSub.stackFar).getD 0

def Alive (s : State) (t : TealetId) : Prop := (s.tealets t).isSome

/-- A site lies in the stack of the running tealet. -/
def Site.Inside (site : Site) (s : State) : Prop :=
  site.sp ≤ site.far ∧ site.far ≤ runningFar s ∧ site.far < spFurthest

/-- What callers promise: handles are those of tealets that were not freed,
calls are made from the running tealet's own stack with addresses on the
stack, the running tealet is not deleted. -/
def Call.Legal (s : State) : Call → Prop
  | .new => True
  | .run t _ _ stackFar _ site => Alive s t ∧ site.Inside s ∧ stackFar < spFurthest
  | .spawn _ _ stackFar _ site => site.Inside s ∧ stackFar < spFurthest
  | .fork t _ _ site => Alive s t ∧ site.Inside s
  | .switch t _ _ sp => Alive s t ∧ sp < spFurthest
  | .exit t _ _ sp => Alive s t ∧ sp < spFurthest
  | .ret p sp => (∃ t, p = some t ∧ Alive s t) ∧ sp < spFurthest
  | .duplicate t => Alive s t ∧ t ≠ s.gCurrent ∧ t ≠ mainId
  | .delete t => Alive s t ∧ t ≠ s.gCurrent ∧ t ≠ mainId
  | .status t => Alive s t
  | .setFar t far => Alive s t ∧ far < spFurthest ∧ far ≠ 0
  | .configure _ => True

/-- ... and user code writes nearer than the running tealet's boundary. -/
def Legal (s : State) : Event → Prop
  | .write m => ∀ a, runningFar s ≤ a → m a = s.mem a
  | .call c _ _ => c.Legal s

/-- The runs from `s` every step of which satisfies `P`. -/
inductive Run (P : State → Event → Prop) (s : State) : State → Prop where
  | refl : Run P s s
  | tail {s₁ s₂ : State} {e : Event} {o : Outcome} :
      Run P s s₁ → P s₁ e → step s₁ e = .ok (s₂, o) → Run P s s₂

/-- An invariant of the steps is an invariant of the runs. -/
theorem Run.invariant {P : State → Event → Prop} {I : State → Prop} {s s' : State}
    (h : Run P s s') (h0 : I s)
    (hstep : ∀ s₁ e s₂ o, I s₁ → P s₁ e → step s₁ e = .ok (s₂, o) → I s₂) : I s' := by
  induction h with
  | refl => exact h0
  | tail _ hP hs ih => exact hstep _ _ _ _ ih hP hs

theorem Run.mono {P Q : State → Event → Prop} {s s' : State} (h : Run P s s')
    (hPQ : ∀ s e, P s e → Q s e) : Run Q s s' := by
  induction h with
  | refl => exact .refl
  | tail _ hP hs ih => exact ih.tail (hPQ _ _ hP) hs

theorem Run.trans {P : State → Event → Prop} {s s₁ s₂ : State} (h : Run P s s₁)
    (h' : Run P s₁ s₂) : Run P s s₂ := by
  induction h' with
  | refl => exact h
  | tail _ hP hs ih => exact ih.tail hP hs

end Tealet
