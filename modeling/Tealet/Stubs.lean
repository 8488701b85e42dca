import Tealet.Forced
import Tealet.Delivery
import Tealet.Waiting

/-!
# Stubs

`tealet_stub_new` and `tealet_stub_run` of `tealet_extras.c`, over the
library. A stub is a tealet captured in `_tealet_stub_main`; its duplicates
share its stack and execute the same frame. `tealet_stub_run` hands the
function to run, its argument and the handle over in a block of its own,
which `_tealet_stub_main` frees if the transfer takes place and
`tealet_stub_run` if it does not.

A tealet suspended in `tealet_stub_run` is suspended in the
`tealet_switch` it called, so `calls` keeps what the rest of
`tealet_stub_run` reads, by the stack it is saved in. Freeing a block that
is not live is `Fault.freed`; `trace` records what became of the blocks.
-/

namespace Tealet

open Hoare

/-- The address of `_tealet_stub_main`, which has no name outside of its file. -/
def stubMainFn : RunFn := 1

/-- `struct stub_arg`. -/
structure StubArg where
  current : TealetId
  run : RunFn
  runarg : Ptr
deriving DecidableEq, Repr

/-- The locals of a `tealet_stub_run` that its rest reads; `out` says that
`parg` is not `NULL`. -/
structure StubCall where
  psarg : Ptr
  out : Bool
deriving DecidableEq, Repr

/-- What became of a block. -/
inductive Obs where
  /-- `tealet_stub_run` filled it -/
  | called (b : Ptr) (arg : StubArg)
  | freed (b : Ptr)
  /-- `_tealet_stub_main` entered `run(t, arg)` on behalf of it -/
  | entered (b : Ptr) (run : RunFn) (t : TealetId) (arg : Ptr)
deriving DecidableEq, Repr

def Obs.block : Obs → Ptr
  | .called b _ | .freed b | .entered b _ _ _ => b

/-- The library, the blocks and the suspended calls of `tealet_stub_run`. -/
structure Extras where
  lib : State
  blocks : Ptr → Option StubArg := fun _ => none
  nextBlock : Ptr := 1
  calls : StackId → Option StubCall := fun _ => none
  trace : List Obs := []

namespace Extras

/-- `tealet_free` of a block. -/
def free (x : Extras) (b : Ptr) : Res Extras :=
  match x.blocks b with
  | none => .error .freed
  | some _ =>
      .ok { x with blocks := Function.update x.blocks b none, trace := x.trace ++ [.freed b] }

/-- `_tealet_stub_main`, up to the entry into the function it runs. -/
def stubMain (x : Extras) (arg : Ptr) : Res (Extras × Outcome) :=
  match x.blocks arg with
  | none => .error .freed
  | some sarg => do
      let x ← x.free arg
      return ({ x with trace := x.trace ++ [.entered arg sarg.run sarg.current sarg.runarg] },
        .entered sarg.run sarg.current sarg.runarg)

/-- The rest of `tealet_stub_run`, when its `tealet_switch` returns. -/
def stubRunRest (x : Extras) (call : StubCall) (rc : Rc) (o : Outcome) :
    Res (Extras × Outcome) := do
  let x ← if rc ≠ .ok ∧ rc ≠ .err .panic then x.free call.psarg else pure x
  return (x, stubReturn call.psarg call.out o)

/-- The `tealet_stub_run` that a call of the library returns in: the one
that made it, `own`, or the one the tealet that runs then was suspended in. -/
def resumed (x : Extras) (own : Option StubCall) (s : State) : Option StubCall :=
  if s.gCurrent = x.lib.gCurrent then own else (x.lib.stackOf s.gCurrent).bind x.calls

/-- The suspended calls after a call of the library made in `own`. -/
def suspended (x : Extras) (own : Option StubCall) (s : State) : StackId → Option StubCall :=
  if s.gCurrent = x.lib.gCurrent then x.calls
  else
    match s.stackOf x.lib.gCurrent with
    | none => x.calls
    | some k => Function.update x.calls k own

/-- A call of the library, made in `own`, gives control back to the extras. -/
def back (x : Extras) (own : Option StubCall) (p : State × Outcome) : Res (Extras × Outcome) :=
  let x' := { x with lib := p.1, calls := x.suspended own p.1 }
  match p.2 with
  | .entered run _ arg => if run = stubMainFn then x'.stubMain arg else .ok (x', p.2)
  | .returned rc _ _ =>
      match x.resumed own p.1 with
      | some call => x'.stubRunRest call rc p.2
      | none => .ok (x', p.2)
  | .handle _ => .ok (x', p.2)

/-- The block `b` is allocated and filled. -/
def fill (x : Extras) (b : Ptr) (sarg : StubArg) : Extras :=
  { x with
    blocks := Function.update x.blocks b (some sarg)
    nextBlock := b + 1
    trace := x.trace ++ [.called b sarg] }

/-- `tealet_stub_run`; `parg` is `*parg`, if `parg` is not `NULL`. -/
def stubRun (x : Extras) (stub : TealetId) (run : RunFn) (parg : Option Ptr) (sp : Nat) :
    Res (Extras × Outcome) := do
  let psarg := x.nextBlock
  let sarg : StubArg := ⟨stub, run, parg.getD null⟩
  let p ← Tealet.stubRun x.lib stub psarg sp
  if (x.lib.heap.malloc).1 then
    (x.fill psarg sarg).back (some ⟨psarg, parg.isSome⟩) p
  else
    return ({ x with lib := p.1 }, p.2)

end Extras

/-- What user code does: anything it can do without stubs, or a call of the extras. -/
inductive Action where
  | lib (e : Event)
  | stubNew (stackFar : Nat) (site : Site) (allocs : List Bool)
      (mprotects : List (Option (Nat → Bool)))
  | stubRun (stub : TealetId) (run : RunFn) (parg : Option Ptr) (sp : Nat) (allocs : List Bool)
      (mprotects : List (Option (Nat → Bool)))

/-- The call of the library that `tealet_stub_new` is. -/
def stubNewEvent (stackFar : Nat) (site : Site) (allocs : List Bool)
    (mprotects : List (Option (Nat → Bool))) : Event :=
  .call (.spawn stubMainFn none stackFar false site) allocs mprotects

/-- The call of the library that a `tealet_stub_run` with the block `b` makes. -/
def stubRunEvent (stub : TealetId) (b : Ptr) (sp : Nat) (allocs : List Bool)
    (mprotects : List (Option (Nat → Bool))) : Event :=
  .call (.switch stub (some b) {} sp) allocs mprotects

def Extras.step (x : Extras) : Action → Res (Extras × Outcome)
  | .lib e => Tealet.step x.lib e >>= x.back none
  | .stubNew far site allocs mprotects =>
      Tealet.step x.lib (stubNewEvent far site allocs mprotects) >>= x.back none
  | .stubRun stub run parg sp allocs mprotects =>
      Extras.stubRun { x with lib := x.lib.withChoices allocs mprotects } stub run parg sp

/-- The state after `tealet_initialize`. -/
def Extras.init (mem : Memory) (env : Env) : Extras := { lib := initial mem env }

/-! ## Callers -/

/-- A frame of `_tealet_stub_main` before it ran. -/
def Frame.IsStub (fr : Frame) : Prop := fr.fn = some stubMainFn ∧ fr.isCapture = true

/-- `t` is a stub, or a duplicate of one, that was not started; `k` is the
stack that its family shares. -/
def State.StubWaits (s : State) (t : TealetId) (k : StackId) : Prop :=
  ∃ fr, s.Waits t k fr ∧ fr.IsStub

/-- What callers promise: next to what they promise the library, that only
`tealet_stub_run` transfers to a stub that was not started, that it is
called on nothing else, and that no transfer under PANIC goes to a tealet
that has not run. -/
def Action.Proper (x : Extras) : Action → Prop
  | .lib e => Legal x.lib e ∧ e.PanicResumes False x.lib ∧ e.fn ≠ some stubMainFn ∧
      ∀ s₁ t f isExit allocs, e.Attempts x.lib s₁ (.xfer t f isExit allocs) →
        ∀ k, ¬ x.lib.StubWaits t k
  | .stubNew far site _ _ => site.Inside x.lib ∧ far < spFurthest
  | .stubRun stub _ _ sp _ _ => (∃ k, x.lib.StubWaits stub k) ∧ sp < spFurthest

/-- The runs in which callers keep their promises. -/
inductive Extras.Run (x : Extras) : Extras → Prop where
  | refl : Run x x
  | tail {x₁ x₂ : Extras} {a : Action} {o : Outcome} :
      Run x x₁ → a.Proper x₁ → x₁.step a = .ok (x₂, o) → Run x x₂

/-! ## Blocks -/

/-- The block `b` was never filled, or it was freed once and what it asked
for was entered at most once. -/
inductive Settled (tr : List Obs) (b : Ptr) : Prop where
  | unused (h : tr.filter (·.block = b) = [])
  | failed {arg : StubArg} (h : tr.filter (·.block = b) = [.called b arg, .freed b])
  | entered {arg : StubArg} (h : tr.filter (·.block = b) =
      [.called b arg, .freed b, .entered b arg.run arg.current arg.runarg])

section Blocks

variable {x : Extras} {own : Option StubCall} {p : State × Outcome} {b : Ptr} {arg : StubArg}
  {t : TealetId}

/-- A call that neither enters a stub nor fails in a `tealet_stub_run` touches no block. -/
theorem Extras.back_quiet (henter : ∀ t arg, p.2 ≠ .entered stubMainFn t arg)
    (hreturn : ∀ rc m c call, p.2 = .returned rc m c → x.resumed own p.1 = some call →
      rc = .ok ∨ rc = .err .panic) :
    ∃ o, x.back own p = .ok ({ x with lib := p.1, calls := x.suspended own p.1 }, o) ∧
      (x.resumed own p.1 = none → o = p.2) := by
  obtain ⟨s, o⟩ := p
  unfold back
  cases o with
  | entered run t arg =>
      have hrun : run ≠ stubMainFn := by
        rintro rfl
        exact henter t arg rfl
      exact ⟨_, if_neg hrun, fun _ => rfl⟩
  | handle t => exact ⟨_, rfl, fun _ => rfl⟩
  | returned rc m c =>
      dsimp only
      cases hr : x.resumed own s with
      | none => exact ⟨_, rfl, fun _ => rfl⟩
      | some call =>
          have hok : ¬ (rc ≠ .ok ∧ rc ≠ .err .panic) := by
            rintro ⟨h₁, h₂⟩
            rcases hreturn rc m c call rfl hr with h | h
            · exact h₁ h
            · exact h₂ h
          refine ⟨stubReturn call.psarg call.out (.returned rc m c), ?_, nofun⟩
          simp only [stubRunRest, if_neg hok]
          rfl

/-- A call that fails in the `tealet_stub_run` that made it gives it back its block. -/
theorem Extras.back_failed {s : State} {out : Bool} {err : Err} (h : x.blocks b = some arg)
    (hres : x.resumed own s = some ⟨b, out⟩) (he : err ≠ .panic) :
    x.back own (s, .returned (.err err) none) = .ok ({ x with
      lib := s, calls := x.suspended own s
      blocks := Function.update x.blocks b none, trace := x.trace ++ [.freed b] },
      .returned (.err err) none) := by
  have hbad : Rc.err err ≠ .ok ∧ Rc.err err ≠ .err .panic := ⟨nofun, by simpa using he⟩
  simp only [back, hres, stubRunRest, if_pos hbad, free, h]
  cases err with
  | panic => exact absurd rfl he
  | _ => rfl

/-- A call that enters a stub gives it the block. -/
theorem Extras.back_entered {s : State} (h : x.blocks b = some arg) :
    x.back own (s, .entered stubMainFn t b) = .ok ({ x with
      lib := s, calls := x.suspended own s
      blocks := Function.update x.blocks b none
      trace := x.trace ++ [.freed b] ++ [.entered b arg.run arg.current arg.runarg] },
      .entered arg.run arg.current arg.runarg) := by
  simp only [back, if_true, stubMain, free, h]
  rfl

theorem Settled.append {tr l : List Obs} (h : Settled tr b) (hl : ∀ o ∈ l, o.block ≠ b) :
    Settled (tr ++ l) b := by
  have hnil : l.filter (·.block = b) = [] := by
    rw [List.filter_eq_nil_iff]
    exact fun o ho => by simpa using hl o ho
  have heq : (tr ++ l).filter (·.block = b) = tr.filter (·.block = b) := by
    rw [List.filter_append, hnil, List.append_nil]
  cases h with
  | unused h => exact .unused (heq.trans h)
  | failed h => exact .failed (heq.trans h)
  | entered h => exact .entered (heq.trans h)

/-- The first use of a block. -/
theorem Settled.fresh {tr l : List Obs} (hn : ∀ o ∈ tr, o.block < b) (hl : ∀ o ∈ l, o.block = b)
    (h : l = [.called b arg, .freed b] ∨
      l = [.called b arg, .freed b, .entered b arg.run arg.current arg.runarg]) :
    Settled (tr ++ l) b := by
  have hnil : tr.filter (·.block = b) = [] := by
    rw [List.filter_eq_nil_iff]
    intro o ho
    have hlt := hn o ho
    simpa using Nat.ne_of_lt hlt
  have hself : l.filter (·.block = b) = l := by
    rw [List.filter_eq_self]
    exact fun o ho => by simpa using hl o ho
  have heq : (tr ++ l).filter (·.block = b) = l := by
    rw [List.filter_append, hnil, hself, List.nil_append]
  rcases h with rfl | rfl
  · exact .failed heq
  · exact .entered heq

end Blocks

/-! ## Families -/

/-- No suspended call but a capture started the tealet `t`. -/
def State.Kin (s : State) (t : TealetId) : Prop :=
  ∀ u k fr, s.Waits u k fr → fr.isCapture = false → ∀ spawned, fr.started ≠ some (t, spawned)

/-- The event attempts a transfer under FORCE. -/
def Event.Forces (s : State) (e : Event) : Prop :=
  ∃ s₁ u f isExit allocs, e.Attempts s s₁ (.xfer u f isExit allocs) ∧ f.force = true

section Families

variable {leak leak' : StackId → Nat} {s s' : State} {a a' : Saved} {own : StackId → List ChunkId}
  {e : Event} {o : Outcome} {t : TealetId} {k : StackId}

theorem kin_view (H : HeapRep s.heap a own) : s.Kin t ↔ (s.view a).Kin t :=
  ⟨fun h u k fr hw => h u k fr ((waits_view H).mpr hw),
    fun h u k fr hw => h u k fr ((waits_view H).mp hw)⟩

/-- Main is no stub, and the running tealet is none. -/
theorem Inv.stub_suspended (I : Inv leak s a) (hw : s.StubWaits t k) :
    t ≠ mainId ∧ t ≠ s.gCurrent := by
  obtain ⟨own, H⟩ := I.rep
  obtain ⟨fr, hw, -, hcap⟩ := hw
  have hv := (waits_view H).mp hw
  refine ⟨?_, hv.ne_current I.sched⟩
  rintro rfl
  obtain ⟨im, him, rfl⟩ := hv.image
  have hmain := ((I.core.image k im him).ofMain hv.stack).2.2
  rw [hcap] at hmain
  cases hmain

/-- A stub waits until it is deleted or something transfers to it, and
stays fit to be resumed unless a transfer is forced. -/
theorem Inv.stub_waited (I : Inv leak s a)
    (h : Stepped leak (EventLabel s e) False (s.view a) s' leak' a') (hw : s.StubWaits t k)
    (hkin : s.Kin t) :
    (∃ allocs mprotects, e = .call (.delete t) allocs mprotects) ∨
      (∃ s₁ f isExit allocs, e.Attempts s s₁ (.xfer t f isExit allocs)) ∨
      s'.StubWaits t k ∧ (s.statusOf t = some .active →
        s'.statusOf t = some .active ∨ s.Listed k ∧ e.Forces s) := by
  obtain ⟨own, H⟩ := I.rep
  obtain ⟨own', H'⟩ := h.inv.rep
  obtain ⟨fr, hw, hstub⟩ := hw
  obtain ⟨r, hr, -⟩ := Option.bind_eq_some_iff.mp hw.stack
  cases h.path.waited I.core I.sched ((waits_view H).mp hw) ((kin_view H).mp hkin) with
  | deleted hC =>
      obtain ⟨s₁, -, -, -, -, he⟩ := hC
      exact .inl (I.delete_event hr he)
  | resumed hC =>
      obtain ⟨s₁, -, -, -, -, he⟩ := hC
      exact .inr (.inl ⟨s₁, _, _, _, he⟩)
  | waits hw' hs =>
      refine .inr (.inr ⟨⟨fr, (waits_view H').mpr hw', hstub⟩, fun hact => ?_⟩)
      rcases hs ((statusOf_view H t).symm.trans hact) with hs' | ⟨hk, w, u, f, isExit, al, hC, hf⟩
      · exact .inl ((statusOf_view H' t).trans hs')
      · obtain ⟨s₁, -, -, -, -, he⟩ := hC
        exact .inr ⟨H.list.mem_iff.mp hk, s₁, u, f, isExit, al, he, hf⟩

/-- A stack that is saved whole stays whole. -/
theorem Inv.unlisted_step (I : Inv leak s a)
    (h : Stepped leak (EventLabel s e) False (s.view a) s' leak' a') (hw : s.StubWaits t k)
    (hk : ¬ s.Listed k) : ¬ s'.Listed k := by
  obtain ⟨own, H⟩ := I.rep
  obtain ⟨own', H'⟩ := h.inv.rep
  obtain ⟨fr, hw, -⟩ := hw
  obtain ⟨im, him, -⟩ := ((waits_view H).mp hw).image
  have hlt : k < (s.view a).nextStack := I.core.lt_nextStack him
  have hp : k ∉ a.prev := fun h => hk (H.list.mem_iff.mp h)
  exact fun hk' => h.path.unlisted I.core I.sched hlt hp (H'.list.mem_iff.mpr hk')

/-- A step that captures no stub, or a new one, starts none. -/
theorem Inv.kin_step (I : Inv leak s a)
    (h : Stepped leak (EventLabel s e) False (s.view a) s' leak' a') (hL : Legal s e)
    (hs : step s e = .ok (s', o)) (hkin : ∀ t k, s.StubWaits t k → s.Kin t)
    (hcap : ∀ s₁ t far allocs, e.Attempts s s₁ (.capture t far allocs) →
      e.fn ≠ some stubMainFn ∨ t = s.nextTealet)
    (hw : s'.StubWaits t k) : s'.Kin t := by
  obtain ⟨own, H⟩ := I.rep
  obtain ⟨own', H'⟩ := h.inv.rep
  have harose : ∀ {u x fr}, s'.Waits u x fr →
      Arose (EventLabel s e) (s.view a) (s'.view a') u x fr :=
    fun hu => h.path.arose I.core I.sched ((waits_view H').mp hu)
  intro u x fr' hu hno spawned hst
  obtain ⟨fr, hw, hstub⟩ := hw
  -- the start was suspended before
  obtain ⟨u₀, hu₀⟩ : ∃ u₀, s.Waits u₀ x fr' := by
    cases harose hu with
    | old hu => exact ⟨u, (waits_view H).mpr hu⟩
    | @copied w u₀ ht hC hu => exact ⟨u₀, (waits_view H).mpr hu⟩
    | left hk ht hfr =>
        rw [hfr] at hst
        cases hst
    | @created w c sp far al hk ht hC hfr hcap hrun =>
        obtain ⟨rfl, -⟩ := Prod.mk.inj (Option.some.inj (hfr.symm.trans hst))
        exact absurd hw (not_waits_of_empty hrun)
    | captured hk ht hC hfr =>
        rw [hno] at hfr
        cases hfr
  have hlt : t < s.nextTealet := by
    obtain ⟨im, him, rfl⟩ := ((waits_view H).mp hu₀).image
    exact ((I.core.image x im him).started t spawned hst).known
  have hold : ∀ {fr}, s.Waits t k fr → fr.IsStub → False := fun hw hstub =>
    hkin t k ⟨_, hw, hstub⟩ u₀ x fr' hu₀ hno spawned hst
  cases harose hw with
  | old hw => exact hold ((waits_view H).mpr hw) hstub
  | copied ht => exact absurd hlt (Nat.not_lt_of_le ht)
  | left hk ht hfr =>
      rw [hfr] at hstub
      cases hstub.2
  | created hk ht hC hfr hno' =>
      rw [hstub.2] at hno'
      cases hno'
  | captured hk ht hC =>
      obtain ⟨s₁, -, -, -, -, he⟩ := hC
      rcases hcap s₁ t _ _ he with hfn | rfl
      · cases e with
        | write m => cases he.2
        | call cl allocs mprotects =>
            have hL' : cl.Legal (s.withChoices allocs mprotects) := by
              cases cl <;> exact hL
            rcases ((I.withChoices allocs mprotects).captured_fn hL' he).result hs k fr hw with
              hw | hfr
            · exact hold (waits_withChoices.mp hw) hstub
            · exact hfn (hfr.symm.trans hstub.1)
      · exact Nat.lt_irrefl _ hlt

/-- A suspended `tealet_stub_run` is suspended in `tealet_switch`. -/
def Extras.CallsOk (x : Extras) : Prop :=
  ∀ k call, x.calls k = some call → k < x.lib.heap.nextStack ∧
    ∀ t fr, x.lib.Waits t k fr → ∃ g out, fr = .switch g out

/-- A call of the library made in `own` suspends `own`, if anything. -/
theorem Extras.CallsOk.step {x : Extras} {own : Option StubCall} (K : x.CallsOk)
    (I : Inv leak x.lib a)
    (h : Stepped leak (EventLabel x.lib e) False (x.lib.view a) s' leak' a')
    (hown : own ≠ none → ∀ s₁ c far allocs, ¬ e.Attempts x.lib s₁ (.start c far allocs)) :
    Extras.CallsOk { x with lib := s', calls := x.suspended own s' } := by
  obtain ⟨_, H⟩ := I.rep
  obtain ⟨_, H'⟩ := h.inv.rep
  have harose : ∀ {u k fr}, s'.Waits u k fr →
      Arose (EventLabel x.lib e) (x.lib.view a) (s'.view a') u k fr :=
    fun hu => h.path.arose I.core I.sched ((waits_view H').mp hu)
  have hle : x.lib.heap.nextStack ≤ s'.heap.nextStack := h.path.nextStack I.core I.sched
  have hold : ∀ k call, x.calls k = some call → k < s'.heap.nextStack ∧
      ∀ t fr, s'.Waits t k fr → ∃ g out, fr = .switch g out := by
    intro k call hk
    obtain ⟨hlt, hfr⟩ := K k call hk
    refine ⟨Nat.lt_of_lt_of_le hlt hle, fun t fr hw => ?_⟩
    cases harose hw with
    | old hw => exact hfr t fr ((waits_view H).mpr hw)
    | @copied w u ht hC hw => exact hfr u fr ((waits_view H).mpr hw)
    | left hk => exact absurd hlt (Nat.not_lt_of_le hk)
    | created hk => exact absurd hlt (Nat.not_lt_of_le hk)
    | captured hk => exact absurd hlt (Nat.not_lt_of_le hk)
  intro k call hk
  change x.suspended own s' k = some call at hk
  by_cases hcur : s'.gCurrent = x.lib.gCurrent
  · rw [Extras.suspended, if_pos hcur] at hk
    exact hold k call hk
  · rw [Extras.suspended, if_neg hcur] at hk
    cases hk₀ : s'.stackOf x.lib.gCurrent with
    | none =>
        rw [hk₀] at hk
        exact hold k call hk
    | some k₀ =>
        rw [hk₀] at hk
        change Function.update x.calls k₀ own k = some call at hk
        by_cases hkk : k = k₀
        · subst hkk
          rw [Function.update_self] at hk
          obtain ⟨im, him⟩ := h.inv.core.img_of_stackOf (v := s'.view a') hk₀
          have hw₀ : s'.Waits x.lib.gCurrent k im.frame :=
            (waits_view H').mpr ⟨hk₀, im, him, rfl⟩
          refine ⟨h.inv.core.lt_nextStack him, fun t fr hw => ?_⟩
          obtain rfl : fr = im.frame := Option.some.inj (hw.frame.symm.trans hw₀.frame)
          obtain ⟨c, hc, -⟩ := I.sched.running
          cases harose hw₀ with
          | old hw => exact absurd rfl (hw.ne_current I.sched)
          | copied ht => exact absurd (I.core.lt_nextTealet hc) (Nat.not_lt_of_le ht)
          | left hk ht hfr => exact ⟨_, _, hfr⟩
          | created hk' ht hC =>
              obtain ⟨s₁, -, -, -, -, he⟩ := hC
              exact absurd he (hown (by rw [hk]; nofun) s₁ _ _ _)
          | captured hk ht => exact absurd rfl ht
        · rw [Function.update_of_ne hkk] at hk
          exact hold k call hk

end Families

/-! ## Steps -/

/-- The states between actions. -/
structure Extras.Ok (x : Extras) : Prop where
  inv : ∃ leak a, Inv leak x.lib a
  kin : ∀ t k, x.lib.StubWaits t k → x.lib.Kin t
  calls : x.CallsOk
  blocks : ∀ b, x.blocks b = none
  fresh : ∀ o ∈ x.trace, o.block < x.nextBlock
  settled : ∀ b, Settled x.trace b

/-- The end of a `tealet_stub_run` of `stub`, whose block is `b`: there was no
memory for the block, the transfer failed and `tealet_stub_run` freed it, or
the transfer took place and `_tealet_stub_main` freed it and entered `run`. -/
inductive StubRan (x : Extras) (stub : TealetId) (run : RunFn) (arg : Ptr) (x' : Extras) :
    Outcome → Prop where
  | nomem (hcur : x'.lib.gCurrent = x.lib.gCurrent) (htr : x'.trace = x.trace) :
      StubRan x stub run arg x' (.returned (.err .mem) none)
  | failed {b : Ptr} {e : Err} (he : e ≠ .panic) (hcur : x'.lib.gCurrent = x.lib.gCurrent)
      (htr : x'.trace = x.trace ++ [.called b ⟨stub, run, arg⟩, .freed b]) :
      StubRan x stub run arg x' (.returned (.err e) none)
  | entered {b : Ptr} (hcur : x'.lib.gCurrent = stub) (hne : stub ≠ x.lib.gCurrent)
      (htr : x'.trace = x.trace ++
        [.called b ⟨stub, run, arg⟩, .freed b, .entered b run stub arg]) :
      StubRan x stub run arg x' (.entered run stub arg)

/-- Why a call at `sp` cannot switch to an active tealet: an allocation
fails, the caller is outside of its stack, or memory was tampered with. -/
inductive Hindrance (s : State) (sp : Nat) : Err → Prop where
  | mem (h : ∃ ok ∈ s.heap.allocs, ok = false) : Hindrance s sp .mem
  | caller {c : TealetSub} (hc : s.tealets s.gCurrent = some c)
      (h : callerRejected s.lockAuto.env c.stackFar sp = true) : Hindrance s sp .inval
  | tampered {e e' : Env} (hg : guardUnprotectCurrent s.lockAuto.env = .ok e')
      (hs : snapshotVerifyCurrent e' s.mem = .ok (e, some .integrity)) : Hindrance s sp .integrity

section Steps

variable {leak : StackId → Nat} {a : Saved} {x x' : Extras} {s' : State} {e : Event} {o : Outcome}
  {p : State × Outcome} {stub t : TealetId} {run : RunFn} {parg : Option Ptr} {sp : Nat}
  {allocs : List Bool} {mprotects : List (Option (Nat → Bool))} {k : StackId}

theorem Inv.stepped (I : Inv leak x.lib a) (hL : Legal x.lib e) (hP : e.PanicResumes False x.lib)
    (hs : step x.lib e = .ok p) :
    ∃ leak' a', Stepped leak (EventLabel x.lib e) False (x.lib.view a) p.1 leak' a' :=
  (step_spec False (E := fun _ => True) I hL (fun _ _ => True.intro) hP (.inl True.intro)).result hs

/-- A `tealet_stub_run` that was suspended is resumed as it was left. -/
theorem Extras.Ok.returns (K : x.Ok) (h : Seen x.lib e p.1 p.2) {rc : Rc} {m : Option Ptr}
    {c : Option TealetId} {call : StubCall} (ho : p.2 = .returned rc m c)
    (hr : x.resumed none p.1 = some call) : rc = .ok ∨ rc = .err .panic := by
  obtain ⟨leak, a, I⟩ := K.inv
  obtain ⟨own, H⟩ := I.rep
  have hcur : p.1.gCurrent ≠ x.lib.gCurrent := by
    intro heq
    rw [Extras.resumed, if_pos heq] at hr
    cases hr
  rw [Extras.resumed, if_neg hcur] at hr
  obtain ⟨k, hk, hcall⟩ := Option.bind_eq_some_iff.mp hr
  obtain ⟨im, him⟩ := I.core.img_of_stackOf (v := x.lib.view a) hk
  have hw : x.lib.Waits p.1.gCurrent k im.frame := (waits_view H).mpr ⟨hk, im, him, rfl⟩
  obtain ⟨g, out, hfr⟩ := (K.calls k call hcall).2 _ _ hw
  cases h with
  | stays h => exact absurd h hcur
  | starts hs => exact absurd hw (hs _ _)
  | @resumes s₁ fr f isExit al hfr' hx hor =>
      obtain rfl : im.frame = fr := Option.some.inj (hw.frameOf.symm.trans hfr')
      rw [ho] at hor
      rcases hor with ⟨arg, h⟩ | ⟨-, arg, h⟩
      · rw [hfr] at h
        cases hp : f.panic <;> rw [hp] at h <;> cases h
        · exact .inl rfl
        · exact .inr rfl
      · cases h
        exact .inr rfl

/-- Nothing enters a stub but `tealet_stub_run`. -/
theorem Extras.Ok.not_entered (K : x.Ok) (h : Seen x.lib e p.1 p.2) (hfn : e.fn ≠ some stubMainFn)
    (hX : ∀ s₁ t f isExit allocs, e.Attempts x.lib s₁ (.xfer t f isExit allocs) →
      ∀ k, ¬ x.lib.StubWaits t k) (arg : Ptr) : p.2 ≠ .entered stubMainFn t arg := by
  obtain ⟨leak, a, I⟩ := K.inv
  intro ho
  cases h with
  | stays hcur h => exact h _ _ _ ho
  | starts hs h => exact hfn (h _ _ _ ho)
  | @resumes s₁ fr f isExit al hfr hx hor =>
      rw [ho] at hor
      rcases hor with ⟨arg', h⟩ | ⟨-, arg', h⟩
      · obtain ⟨k, hw⟩ := waits_of_frameOf hfr
        refine hX s₁ _ f isExit al hx k ⟨fr, hw, ?_⟩
        cases fr with
        | run result current previous fn arg₀ sw out spawned =>
            cases sw with
            | true => cases h
            | false =>
                cases h
                exact ⟨rfl, rfl⟩
        | _ => cases h
      · cases h

/-- A call of the library that is not made by `tealet_stub_run`. -/
theorem Extras.Ok.lib_step (K : x.Ok) (hL : Legal x.lib e) (hP : e.PanicResumes False x.lib)
    (hs : Tealet.step x.lib e = .ok p) (henter : ∀ t arg, p.2 ≠ .entered stubMainFn t arg)
    (hcap : ∀ s₁ t far allocs, e.Attempts x.lib s₁ (.capture t far allocs) →
      e.fn ≠ some stubMainFn ∨ t = x.lib.nextTealet) :
    ∃ o, x.back none p = .ok ({ x with lib := p.1, calls := x.suspended none p.1 }, o) ∧
      (x.resumed none p.1 = none → o = p.2) ∧
      Extras.Ok { x with lib := p.1, calls := x.suspended none p.1 } := by
  obtain ⟨leak, a, I⟩ := K.inv
  obtain ⟨leak', a', hstep⟩ := I.stepped hL hP hs
  have hseen := (I.step_seen hL hP).result hs
  obtain ⟨o, hback, ho⟩ := Extras.back_quiet henter fun rc m c call => K.returns hseen
  refine ⟨o, hback, ho, ⟨leak', a', hstep.inv⟩, ?_, ?_, K.blocks, K.fresh, K.settled⟩
  · exact fun t k hw => I.kin_step hstep hL hs K.kin hcap hw
  · exact K.calls.step I hstep fun h => absurd rfl h

theorem Extras.Ok.withChoices (K : x.Ok) (allocs : List Bool)
    (mprotects : List (Option (Nat → Bool))) :
    Extras.Ok { x with lib := x.lib.withChoices allocs mprotects } := by
  obtain ⟨leak, a, I⟩ := K.inv
  refine ⟨⟨leak, a, I.withChoices _ _⟩, ?_, ?_, K.blocks, K.fresh, K.settled⟩
  · rintro t k ⟨fr, hw, hstub⟩ u k' fr' hu
    exact K.kin t k ⟨fr, waits_withChoices.mp hw, hstub⟩ u k' fr' (waits_withChoices.mp hu)
  · intro k call hk
    obtain ⟨hlt, hfr⟩ := K.calls k call hk
    exact ⟨hlt, fun t fr hw => hfr t fr (waits_withChoices.mp hw)⟩

/-- With memory for the block `tealet_stub_run` is the `tealet_switch` it calls. -/
theorem Extras.step_stubRun (x : Extras) : x.step (.stubRun stub run parg sp allocs mprotects) =
    if (nextAlloc allocs).1 then
      Tealet.step x.lib (stubRunEvent stub x.nextBlock sp (nextAlloc allocs).2 mprotects) >>=
        (Extras.fill { x with lib := x.lib.withChoices allocs mprotects } x.nextBlock
          ⟨stub, run, parg.getD null⟩).back (some ⟨x.nextBlock, parg.isSome⟩)
    else .ok ({ x with lib := x.lib.withChoices (nextAlloc allocs).2 mprotects },
      .returned (.err .mem) none) := by
  rcases allocs with _ | ⟨_ | _, rest⟩ <;> rfl

/-- It attempts one transfer, to the stub, without a flag. -/
theorem stubRun_attempts {s₁ : State} {l : Label} {b : Ptr} {s : State}
    (h : (stubRunEvent stub b sp allocs mprotects).Attempts s s₁ l) :
    ∃ al, l = .xfer stub {} false al := by
  cases h with
  | xfer hq ha =>
      cases hq
      cases ha with
      | first => exact ⟨_, rfl⟩
      | fallback hn => cases hn

theorem stubRun_legal (hw : x.lib.StubWaits stub k) (hsp : sp < spFurthest) (b : Ptr)
    (allocs : List Bool) (mprotects : List (Option (Nat → Bool))) :
    Legal x.lib (stubRunEvent stub b sp allocs mprotects) ∧
      (stubRunEvent stub b sp allocs mprotects).PanicResumes False x.lib := by
  obtain ⟨fr, hw, -⟩ := hw
  obtain ⟨r, hr, -⟩ := Option.bind_eq_some_iff.mp hw.stack
  refine ⟨⟨Option.isSome_iff_exists.mpr ⟨r, hr⟩, hsp⟩, ?_⟩
  intro s₁ t f isExit al ha hp
  obtain ⟨_, heq⟩ := stubRun_attempts ha
  cases heq
  cases hp

/-- The transfer fails and the same tealet runs, or the stub is entered with the block. -/
theorem Inv.stubRun_end (I : Inv leak x.lib a) (hw : x.lib.StubWaits stub k)
    (hsp : sp < spFurthest) (b : Ptr) :
    Returns (fun p => (∃ err, err ≠ .panic ∧ p.2 = .returned (.err err) none ∧
          p.1.gCurrent = x.lib.gCurrent) ∨
        p.2 = .entered stubMainFn stub b ∧ p.1.gCurrent = stub)
      (Tealet.step x.lib (stubRunEvent stub b sp allocs mprotects)) := by
  obtain ⟨hL, -⟩ := stubRun_legal hw hsp b allocs mprotects
  obtain ⟨-, hcur⟩ := I.stub_suspended hw
  obtain ⟨fr, hwaits, hfn, hcap⟩ := hw
  have hattempt : ∀ {s₁ t f}, Attempt (x.lib.withChoices allocs mprotects).lockAuto
      ⟨stub, b, {}, false, .switch x.lib.gCurrent true, sp⟩ s₁ t f → t = stub ∧
      f.panic = false := by
    intro s₁ t f ha
    cases ha with
    | first => exact ⟨rfl, rfl⟩
    | fallback hn => cases hn
  have hL' : Call.Legal (x.lib.withChoices allocs mprotects) (.switch stub (some b) {} sp) := hL
  refine ((I.withChoices allocs mprotects).transfer_end hL' rfl ?_).imp ?_
  · intro s₁ t f isExit al ha hp
    obtain ⟨_, heq⟩ := stubRun_attempts (s := x.lib) ha
    cases heq
    cases hp
  · rintro p ⟨h, -⟩
    cases h with
    | failed ho he hs => exact .inl ⟨_, he, ho, hs.current⟩
    | toSelf ha => exact absurd (hattempt ha).1.symm hcur
    | @moved s₁ t f fr' ha hlike ht hfr ho hcur' =>
        obtain ⟨rfl, hp⟩ := hattempt ha
        obtain rfl : fr = fr' := Option.some.inj (hwaits.frameOf.symm.trans hfr)
        refine .inr ⟨?_, hcur'⟩
        rw [ho, hp]
        cases fr with
        | run result current previous fn arg sw out spawned =>
            cases hfn
            cases sw with
            | true => cases hcap
            | false => rfl
        | _ => cases hfn

theorem nextAlloc_false (h : (nextAlloc allocs).1 = false) : ∃ ok ∈ allocs, ok = false := by
  by_contra hno
  have hplenty : (nextAlloc allocs).1 = true := (nextAlloc_plenty fun ok hok => by
    by_contra hf
    exact hno ⟨ok, hok, by simpa using hf⟩).1
  rw [h] at hplenty
  cases hplenty

/-- The block of `tealet_stub_run` takes the first answer of the allocator. -/
theorem Hindrance.mono {s : State} {err : Err}
    (h : Hindrance (s.withChoices (nextAlloc allocs).2 mprotects) sp err) :
    Hindrance (s.withChoices allocs mprotects) sp err := by
  cases h with
  | mem h =>
      obtain ⟨ok, hok, hf⟩ := h
      refine .mem ⟨ok, ?_, hf⟩
      cases allocs with
      | nil => exact hok
      | cons ok' rest => exact List.mem_cons_of_mem _ hok
  | caller hc h => exact .caller hc h
  | tampered hg hs => exact .tampered hg hs

/-- Only a hindrance keeps an active tealet from being switched to. -/
theorem Inv.switch_active {s : State} {arg cr : Option Nat} {err : Err} (I : Inv leak s a)
    (hact : s.statusOf t = some .active) (hsp : sp < spFurthest)
    (hs : callStep s (.switch t parg {} sp) = .ok (s', .returned (.err err) arg cr)) :
    Hindrance s sp err := by
  obtain ⟨own, H⟩ := I.rep
  obtain ⟨r, hr, -⟩ := Option.map_eq_some_iff.mp hact
  rw [statusOf_view H, statusOf_eq (v := s.view a) hr] at hact
  have hbound : r.flags.bound = true := bound_of_status fun h => by
    rw [h] at hact
    cases hact
  have hq : (Call.switch t parg {} sp).request s =
    some (s.lockAuto, ⟨t, parg.getD null, {}, false, .switch s.gCurrent parg.isSome, sp⟩) := rfl
  obtain ⟨f, cond, inst, -, -, heq⟩ := callStep_request hq
  rw [heq] at hs
  obtain ⟨-, -, hs⟩ := bind_ok hs
  obtain ⟨-, -, hs⟩ := bind_ok hs
  obtain ⟨p, hatt, hfin⟩ := bind_ok hs
  have hrc : p.2.rc = .err err := (finish_err p.1 p.2 err).result hfin arg cr rfl
  obtain ⟨I₀, -⟩ := I.withRequest hq
  obtain ⟨c, hc, -⟩ := I₀.sched.running
  cases (I₀.xferInner_returns (f := {}) hc hr hsp (request_frame hq)).result hatt with
  | unbound hb =>
      rw [hbound] at hb
      cases hb
  | exited hx => simp [TealetSub.statusWith, hbound, hx] at hact
  | defunct hx hd => simp [TealetSub.statusWith, hbound, hx, hd] at hact
  | @spoiled kt im hx hd hk him hdim =>
      have hany : (r.stack.bind (s.view a).img).any Image.defunct = true := by
        rw [hk]
        exact (congrArg (Option.any Image.defunct) him).trans hdim
      rw [hany] at hact
      simp [TealetSub.statusWith, hbound, hx] at hact
  | toSelf ht hp =>
      rw [hp] at hrc
      cases hrc
  | moved ht hexit hu hv hg hfate him' hrep hal hb =>
      rw [hb] at hrc
      cases hrc
  | rejected hu hrej hp =>
      rw [hp] at hrc
      cases hrc
      exact .caller hc hrej
  | tampered hu hg hv he hp =>
      rw [hp] at hrc
      cases hrc
      exact .tampered hg hv
  | nomem ht hu hg hfate hrep hal hb =>
      rw [hb] at hrc
      cases hrc
      by_contra hno
      have hplenty : ∀ ok ∈ s.heap.allocs, ok = true := fun ok hok => by
        by_contra hf
        exact hno (.mem ⟨ok, hok, by simpa using hf⟩)
      refine absurd hfate ?_
      rw [← hg]
      exact chooseFate_plenty (growList_plenty hplenty) _ _ _

/-- What the `tealet_switch` of a `tealet_stub_run` gives back: the block is
freed by whoever got it. -/
theorem Extras.Ok.stubRun_back (K : x.Ok) (hw : x.lib.StubWaits stub k) (hsp : sp < spFurthest)
    (hlib : Tealet.step x.lib (stubRunEvent stub x.nextBlock sp allocs mprotects) = .ok p)
    (choices : List Bool) :
    ∃ x' o, (Extras.fill { x with lib := x.lib.withChoices choices mprotects } x.nextBlock
        ⟨stub, run, parg.getD null⟩).back (some ⟨x.nextBlock, parg.isSome⟩) p = .ok (x', o) ∧
      x'.lib = p.1 ∧ x'.Ok ∧ StubRan x stub run (parg.getD null) x' o ∧
      ∀ err, o = .returned (.err err) none → p.2 = .returned (.err err) none := by
  obtain ⟨leak, a, I⟩ := K.inv
  obtain ⟨s', o'⟩ := p
  obtain ⟨hL, hP⟩ := stubRun_legal hw hsp x.nextBlock allocs mprotects
  obtain ⟨leak', a', hstep⟩ := I.stepped hL hP hlib
  have hkin : ∀ t k, s'.StubWaits t k → s'.Kin t := fun t k h =>
    I.kin_step hstep hL hlib K.kin (fun s₁ t far al ha => by
      obtain ⟨_, heq⟩ := stubRun_attempts ha
      cases heq) h
  have hcalls : Extras.CallsOk { x with
      lib := s', calls := x.suspended (some ⟨x.nextBlock, parg.isSome⟩) s' } :=
    K.calls.step I hstep fun _ s₁ c far al ha => by
      obtain ⟨_, heq⟩ := stubRun_attempts ha
      cases heq
  have hblocks : ∀ b, Function.update (Function.update x.blocks x.nextBlock
      (some ⟨stub, run, parg.getD null⟩)) x.nextBlock none b = none := by
    intro b
    rw [Function.update_idem]
    by_cases hb : b = x.nextBlock
    · rw [hb, Function.update_self]
    · rw [Function.update_of_ne hb, K.blocks b]
  have hok : ∀ l tr, (l = [.called x.nextBlock ⟨stub, run, parg.getD null⟩, .freed x.nextBlock] ∨
        l = [.called x.nextBlock ⟨stub, run, parg.getD null⟩, .freed x.nextBlock,
          .entered x.nextBlock run stub (parg.getD null)]) → tr = x.trace ++ l →
      Extras.Ok {
        lib := s'
        blocks := Function.update (Function.update x.blocks x.nextBlock
          (some ⟨stub, run, parg.getD null⟩)) x.nextBlock none
        nextBlock := x.nextBlock + 1
        calls := x.suspended (some ⟨x.nextBlock, parg.isSome⟩) s'
        trace := tr } := by
    intro l tr hl htr
    subst htr
    have hself : ∀ o ∈ l, o.block = x.nextBlock := by
      rcases hl with rfl | rfl <;> simp [Obs.block]
    refine ⟨⟨leak', a', hstep.inv⟩, hkin, hcalls, hblocks, fun o ho => ?_, fun b => ?_⟩
    · rcases List.mem_append.mp ho with ho | ho
      · exact Nat.lt_succ_of_lt (K.fresh o ho)
      · exact Nat.lt_succ_of_le (Nat.le_of_eq (hself o ho))
    · by_cases hb : b = x.nextBlock
      · subst hb
        exact .fresh K.fresh hself hl
      · exact (K.settled b).append fun o ho h => hb (h.symm.trans (hself o ho))
  have hblock : (Extras.fill { x with lib := x.lib.withChoices choices mprotects } x.nextBlock
      ⟨stub, run, parg.getD null⟩).blocks x.nextBlock = some ⟨stub, run, parg.getD null⟩ :=
    Function.update_self ..
  rcases (I.stubRun_end hw hsp x.nextBlock).result hlib with ⟨err, he, ho, hcur⟩ | ⟨ho, hcur⟩
  · obtain rfl : o' = _ := ho
    exact ⟨_, _, Extras.back_failed hblock (if_pos hcur) he, rfl,
      hok _ _ (.inl rfl) (List.append_assoc _ _ _),
      .failed (b := x.nextBlock) he hcur (List.append_assoc _ _ _), fun _ heq => heq⟩
  · obtain rfl : o' = _ := ho
    have htr : x.trace ++ [.called x.nextBlock ⟨stub, run, parg.getD null⟩] ++
        [.freed x.nextBlock] ++ [.entered x.nextBlock run stub (parg.getD null)] =
        x.trace ++ [.called x.nextBlock ⟨stub, run, parg.getD null⟩, .freed x.nextBlock,
          .entered x.nextBlock run stub (parg.getD null)] := by
      simp only [List.append_assoc, List.cons_append, List.nil_append]
    exact ⟨_, _, Extras.back_entered hblock, rfl, hok _ _ (.inr rfl) htr,
      .entered (b := x.nextBlock) hcur (I.stub_suspended hw).2 htr, nofun⟩

/-- `tealet_stub_new` transfers to nothing and starts nothing. -/
theorem stubNew_attempts {far : Nat} {site : Site} {s s₁ : State} {l : Label}
    (h : (stubNewEvent far site allocs mprotects).Attempts s s₁ l) :
    ¬ l.Switches ∧ ∀ t far' al, l = .capture t far' al → t = s.nextTealet := by
  cases h with
  | xfer hq => cases hq
  | @spawnDefault _ c _ _ _ _ hnew =>
      refine ⟨id, fun t far' al heq => ?_⟩
      cases heq
      have hspec := new_spec (s.withChoices allocs mprotects) {}
      rw [hnew] at hspec
      cases hspec
      rfl
  | spawnFailed => exact ⟨id, nofun⟩

theorem stubNew_legal {far : Nat} {site : Site} (hsite : site.Inside x.lib)
    (hfar : far < spFurthest) (allocs : List Bool) (mprotects : List (Option (Nat → Bool))) :
    Legal x.lib (stubNewEvent far site allocs mprotects) ∧
      (stubNewEvent far site allocs mprotects).PanicResumes False x.lib := by
  refine ⟨⟨hsite, hfar⟩, ?_⟩
  intro s₁ t f isExit al ha
  exact absurd True.intro (stubNew_attempts ha).1

/-- One `tealet_stub_new`. -/
theorem Extras.Ok.stubNew_back {far : Nat} {site : Site} (K : x.Ok) (hsite : site.Inside x.lib)
    (hfar : far < spFurthest)
    (hlib : Tealet.step x.lib (stubNewEvent far site allocs mprotects) = .ok p) :
    ∃ x' o, x.back none p = .ok (x', o) ∧ x'.lib = p.1 ∧ x'.Ok ∧ x'.trace = x.trace ∧
      ((∃ e, o = .returned (.err e) none) ∨
        o = .returned .ok none (some x.lib.nextTealet) ∧
          x'.lib.StubWaits x.lib.nextTealet x.lib.heap.nextStack ∧
          x'.lib.statusOf x.lib.nextTealet = some .active ∧
          (pickInitialFar site.far far ≤ runningFar x.lib →
            ¬ x'.lib.Listed x.lib.heap.nextStack)) := by
  obtain ⟨leak, a, I⟩ := K.inv
  obtain ⟨hL, hP⟩ := stubNew_legal hsite hfar allocs mprotects
  obtain ⟨leak', a', hstep⟩ := I.stepped hL hP hlib
  obtain ⟨kf, hfn, hcap, hout, hend⟩ :=
    ((I.withChoices allocs mprotects).spawn_captures hsite hfar).result hlib
  have hret : ∃ rc c, p.2 = .returned rc none c := by
    cases hend with
    | failed ho => exact ⟨_, _, ho⟩
    | captured ho => exact ⟨_, _, ho.trans hout⟩
  have hcur : p.1.gCurrent = x.lib.gCurrent := by
    rcases hstep.path.current with h | ⟨w, l, hC, hsw⟩
    · exact h
    · obtain ⟨s₁, -, -, -, -, ha⟩ := hC
      exact absurd hsw (stubNew_attempts ha).1
  obtain ⟨o, hback, ho, hok⟩ := K.lib_step hL hP hlib
    (by
      obtain ⟨rc, c, h⟩ := hret
      intro t arg heq
      rw [h] at heq
      cases heq)
    (fun s₁ t far' al ha => .inr ((stubNew_attempts ha).2 t far' al rfl))
  obtain rfl : o = p.2 := ho (if_pos hcur)
  refine ⟨_, _, hback, rfl, hok, rfl, ?_⟩
  cases hend with
  | failed ho => exact .inl ⟨_, ho⟩
  | captured ho hw hs hl => exact .inr ⟨ho.trans hout, ⟨kf, hw, hfn, hcap⟩, hs, hl⟩

end Steps

/-! ## Actions -/

/-- The call of the library in an action. -/
def Action.event (x : Extras) : Action → Event
  | .lib e => e
  | .stubNew far site allocs mprotects => stubNewEvent far site allocs mprotects
  | .stubRun stub _ _ sp allocs mprotects =>
      stubRunEvent stub x.nextBlock sp (nextAlloc allocs).2 mprotects

/-- What the calls that concern stubs do: `tealet_stub_new` makes one, which
waits in a stack of its own, `tealet_duplicate` makes one that waits in the
same stack, and `tealet_stub_run` starts one. -/
def Action.Serves (x x' : Extras) (o : Outcome) : Action → Prop
  | .lib e => x'.trace = x.trace ∧ ∀ t allocs mprotects k,
      e = .call (.duplicate t) allocs mprotects → x.lib.StubWaits t k →
      o = .handle none ∨ o = .handle (some x.lib.nextTealet) ∧
        x'.lib.StubWaits x.lib.nextTealet k ∧
        x'.lib.statusOf x.lib.nextTealet = x.lib.statusOf t
  | .stubNew far site _ _ => x'.trace = x.trace ∧
      ((∃ e, o = .returned (.err e) none) ∨
        o = .returned .ok none (some x.lib.nextTealet) ∧
          x'.lib.StubWaits x.lib.nextTealet x.lib.heap.nextStack ∧
          x'.lib.statusOf x.lib.nextTealet = some .active ∧
          (pickInitialFar site.far far ≤ runningFar x.lib →
            ¬ x'.lib.Listed x.lib.heap.nextStack))
  | .stubRun stub run parg sp allocs mprotects => StubRan x stub run (parg.getD null) x' o ∧
      (x.lib.statusOf stub = some .active → ∀ err, o = .returned (.err err) none →
        Hindrance (x.lib.withChoices allocs mprotects) sp err)

/-- What becomes of the state and of the stubs in an action. -/
structure Extras.Next (x : Extras) (act : Action) (x' : Extras) (o : Outcome) : Prop where
  ok : x'.Ok
  serves : act.Serves x x' o
  lib : (∃ o', Tealet.step x.lib (act.event x) = .ok (x'.lib, o')) ∨
    ∃ allocs mprotects, x'.lib = x.lib.withChoices allocs mprotects

/-- The action deletes the tealet or is a `tealet_stub_run` of it. -/
def Action.Concerns (t : TealetId) : Action → Prop
  | .lib (.call (.delete u) _ _) => u = t
  | .stubRun stub _ _ _ _ _ => stub = t
  | _ => False

section Actions

variable {x x' : Extras} {act : Action} {o : Outcome} {e : Event} {t : TealetId} {k : StackId}

theorem Action.Proper.legal (h : act.Proper x) :
    Legal x.lib (act.event x) ∧ (act.event x).PanicResumes False x.lib := by
  cases act with
  | lib e => exact ⟨h.1, h.2.1⟩
  | stubNew far site allocs mprotects => exact stubNew_legal h.1 h.2 _ _
  | stubRun stub run parg sp allocs mprotects =>
      obtain ⟨⟨k, hw⟩, hsp⟩ := h
      exact stubRun_legal hw hsp _ _ _

/-- A duplicate of a stub waits with it. -/
theorem Extras.Ok.duplicate_waits {p : State × Outcome} {allocs : List Bool}
    {mprotects : List (Option (Nat → Bool))} (K : x.Ok)
    (hL : Legal x.lib (.call (.duplicate t) allocs mprotects)) (hw : x.lib.StubWaits t k)
    (hlib : Tealet.step x.lib (.call (.duplicate t) allocs mprotects) = .ok p) :
    p.2 = .handle none ∨ p.2 = .handle (some x.lib.nextTealet) ∧
      p.1.StubWaits x.lib.nextTealet k ∧ p.1.statusOf x.lib.nextTealet = x.lib.statusOf t := by
  obtain ⟨leak, a, I⟩ := K.inv
  obtain ⟨fr, hw, hstub⟩ := hw
  obtain ⟨⟨s', c⟩, hdup, hlib⟩ := bind_ok hlib
  cases hlib
  have hspec := ((I.withChoices allocs mprotects).duplicate_waits hL.2.1 hL.2.2
    (waits_withChoices.mpr hw)).result hdup
  cases c with
  | none => exact .inl rfl
  | some c =>
      obtain ⟨rfl, hw', hs⟩ := hspec c rfl
      exact .inr ⟨rfl, ⟨fr, hw', hstub⟩, hs⟩

/-- The end of an action, from what is left of it when the library has returned. -/
theorem Extras.next_of {r : Res (State × Outcome)} {g : State × Outcome → Res (Extras × Outcome)}
    (hr : Tealet.step x.lib (act.event x) = r)
    (hg : ∀ p, r = .ok p → ∃ x' o, g p = .ok (x', o) ∧ x'.lib = p.1 ∧ x'.Ok ∧ act.Serves x x' o) :
    (∀ f, r >>= g = .error f → r = .error f) ∧
      ∀ x' o, r >>= g = .ok (x', o) → x.Next act x' o := by
  cases r with
  | error f' =>
      refine ⟨fun f hf => ?_, fun x' o heq => ?_⟩
      · cases hf
        rfl
      · cases heq
  | ok p =>
      obtain ⟨x', o, hgp, hx', hok, hserves⟩ := hg p rfl
      rw [ok_bind, hgp]
      refine ⟨nofun, fun y o' heq => ?_⟩
      cases heq
      exact ⟨hok, hserves, .inl ⟨p.2, by rw [hr, hx']⟩⟩

/-- One action: it faults only where the library does. -/
theorem Extras.Ok.step (K : x.Ok) (h : act.Proper x) :
    (∀ f, x.step act = .error f → Tealet.step x.lib (act.event x) = .error f) ∧
      ∀ x' o, x.step act = .ok (x', o) → x.Next act x' o := by
  cases act with
  | lib e =>
      obtain ⟨hL, hP, hfn, hX⟩ := h
      refine Extras.next_of rfl fun p hlib => ?_
      obtain ⟨leak, a, I⟩ := K.inv
      have hseen := (I.step_seen hL hP).result hlib
      obtain ⟨o, hback, ho, hok⟩ := K.lib_step hL hP hlib
        (fun t arg => K.not_entered hseen hfn hX arg) fun _ _ _ _ _ => .inl hfn
      refine ⟨_, o, hback, rfl, hok, rfl, ?_⟩
      rintro t allocs mprotects k rfl hw
      rcases K.duplicate_waits hL hw hlib with hd | ⟨hd, hrest⟩
      · obtain ⟨s', o'⟩ := p
        obtain rfl : o' = _ := hd
        cases hback
        exact .inl rfl
      · obtain ⟨s', o'⟩ := p
        obtain rfl : o' = _ := hd
        cases hback
        exact .inr ⟨rfl, hrest⟩
  | stubNew far site allocs mprotects => exact Extras.next_of rfl fun p => K.stubNew_back h.1 h.2
  | stubRun stub run parg sp allocs mprotects =>
      obtain ⟨⟨k, hw⟩, hsp⟩ := h
      rw [Extras.step_stubRun]
      cases hal : (nextAlloc allocs).1 with
      | false =>
          rw [if_neg Bool.false_ne_true]
          refine ⟨nofun, fun x' o heq => ?_⟩
          cases heq
          refine ⟨K.withChoices _ _, ⟨.nomem rfl rfl, fun _ err herr => ?_⟩, .inr ⟨_, _, rfl⟩⟩
          cases herr
          exact .mem (nextAlloc_false hal)
      | true =>
          rw [if_pos rfl]
          refine Extras.next_of rfl fun p hlib => ?_
          obtain ⟨x', o, hback, hx', hok, hran, hret⟩ := K.stubRun_back hw hsp hlib allocs
          refine ⟨x', o, hback, hx', hok, hran, fun hact err ho => ?_⟩
          obtain ⟨leak, a, I⟩ := K.inv
          obtain ⟨s', o'⟩ := p
          obtain rfl : o' = _ := hret err ho
          have hlib' : callStep (x.lib.withChoices (nextAlloc allocs).2 mprotects)
            (.switch stub (some x.nextBlock) {} sp) = .ok (s', .returned (.err err) none) := hlib
          have hact' : (x.lib.withChoices (nextAlloc allocs).2 mprotects).statusOf stub =
            some .active := statusOf_withChoices.trans hact
          exact ((I.withChoices _ _).switch_active hact' hsp hlib').mono

/-- A stub that waits in the stack `k` still does, and is as startable as
it was unless `k` is not saved whole and a transfer is forced. -/
structure Extras.Spares (x : Extras) (act : Action) (x' : Extras) (t : TealetId) (k : StackId) :
    Prop where
  waits : x'.lib.StubWaits t k
  whole : ¬ x.lib.Listed k → ¬ x'.lib.Listed k
  active : x.lib.statusOf t = some .active → x'.lib.statusOf t = some .active ∨
    x.lib.Listed k ∧ ∃ e, act = .lib e ∧ e.Forces x.lib

/-- A stub waits in the stack of its family until it is deleted or
`tealet_stub_run` is called on it. -/
theorem Extras.Ok.spares (K : x.Ok) (h : act.Proper x) (hn : x.Next act x' o)
    (hw : x.lib.StubWaits t k) (hc : ¬ act.Concerns t) : x.Spares act x' t k := by
  obtain ⟨leak, a, I⟩ := K.inv
  obtain ⟨hL, hP⟩ := h.legal
  rcases hn.lib with ⟨o', hlib⟩ | ⟨allocs, mprotects, hlib⟩
  · obtain ⟨leak', a', hstep⟩ := I.stepped hL hP hlib
    rcases I.stub_waited hstep hw (K.kin t k hw) with ⟨al, mp, he⟩ | ⟨s₁, f, isExit, al, ha⟩ | hstay
    · cases act with
      | lib e =>
          obtain rfl : e = _ := he
          exact absurd rfl hc
      | _ => cases he
    · cases act with
      | lib e => exact absurd hw (h.2.2.2 s₁ t f isExit al ha k)
      | stubNew => exact absurd True.intro (stubNew_attempts ha).1
      | stubRun =>
          obtain ⟨_, heq⟩ := stubRun_attempts ha
          cases heq
          exact absurd rfl hc
    · refine ⟨hstay.1, I.unlisted_step hstep hw, fun hact => (hstay.2 hact).imp id ?_⟩
      rintro ⟨hk, s₁, u, f, isExit, al, ha, hf⟩
      cases act with
      | lib e => exact ⟨hk, e, rfl, s₁, u, f, isExit, al, ha, hf⟩
      | stubNew => exact absurd True.intro (stubNew_attempts ha).1
      | stubRun =>
          obtain ⟨_, heq⟩ := stubRun_attempts ha
          cases heq
          cases hf
  · obtain ⟨fr, hw, hstub⟩ := hw
    refine ⟨⟨fr, ?_, hstub⟩, ?_, fun hact => .inl ?_⟩
    · rw [hlib]
      exact waits_withChoices.mpr hw
    · rw [hlib]
      exact id
    · rw [hlib]
      exact hact

theorem Extras.ok_init (mem : Memory) (env : Env) : (Extras.init mem env).Ok := by
  refine ⟨⟨_, _, inv_initial mem env⟩, ?_, nofun, fun _ => rfl, nofun, fun _ => .unused rfl⟩
  rintro t k ⟨fr, hw, -⟩
  obtain ⟨st, hst, -⟩ := Option.map_eq_some_iff.mp hw.frame
  cases hst

theorem Extras.Run.ok {mem : Memory} {env : Env} (h : (Extras.init mem env).Run x) : x.Ok := by
  induction h with
  | refl => exact Extras.ok_init mem env
  | @tail x₁ x₂ act o _ hp hs ih => exact ((ih.step hp).2 x₂ o hs).ok

/-- Stub families. Every `tealet_stub_run` of a stub that was not started
either enters the function it was asked to run, with its handle and its
argument, or fails and stores nothing, and its block is freed once. Stubs
wait in the stack of their family until they are deleted or run. -/
theorem stub_families {mem : Memory} {env : Env} {x : Extras}
    (hrun : (Extras.init mem env).Run x) :
    (∀ b, x.blocks b = none) ∧ (∀ b, Settled x.trace b) ∧
    ∀ act : Action, act.Proper x →
      (∀ f, x.step act = .error f → Tealet.step x.lib (act.event x) = .error f) ∧
      ∀ x' o, x.step act = .ok (x', o) →
        act.Serves x x' o ∧
        ∀ t k, x.lib.StubWaits t k → ¬ act.Concerns t → x.Spares act x' t k := by
  have K := hrun.ok
  refine ⟨K.blocks, K.settled, fun act hact => ⟨(K.step hact).1, fun x' o hs => ?_⟩⟩
  have hnext := (K.step hact).2 x' o hs
  exact ⟨hnext.serves, fun t k hw hc => K.spares hact hnext hw hc⟩

end Actions

/-! ## Runs given by their actions -/

/-- `Action.Proper`, tested. -/
def Action.proper (x : Extras) : Action → Bool
  | .lib e => e.legal x.lib && e.panicResumes x.lib && decide (e.fn ≠ some stubMainFn) &&
      e.attemptsAll (fun _ t _ => !(x.lib.frameOf t).any Frame.isCapture) x.lib
  | .stubNew far site _ _ => decide (site.Inside x.lib) && decide (far < spFurthest)
  | .stubRun stub _ _ sp _ _ =>
      (x.lib.frameOf stub).any (fun fr => decide (fr.fn = some stubMainFn) && fr.isCapture) &&
        decide (sp < spFurthest)

theorem Action.proper_spec {x : Extras} {act : Action} (h : act.proper x = true) :
    act.Proper x := by
  cases act with
  | lib e =>
      simp only [Action.proper, Bool.and_eq_true, decide_eq_true_eq] at h
      obtain ⟨⟨⟨hL, hP⟩, hfn⟩, hX⟩ := h
      refine ⟨Event.legal_spec hL, Event.panicResumes_spec hP, hfn, ?_⟩
      rintro s₁ t f isExit allocs ha k ⟨fr, hw, -, hcap⟩
      have hno := Event.attemptsAll_spec hX ha
      rw [hw.frameOf] at hno
      simp [hcap] at hno
  | stubNew far site allocs mprotects =>
      simp only [Action.proper, Bool.and_eq_true, decide_eq_true_eq] at h
      exact h
  | stubRun stub run parg sp allocs mprotects =>
      simp only [Action.proper, Bool.and_eq_true, decide_eq_true_eq, Option.any_eq_true] at h
      obtain ⟨⟨fr, hfr, hstub⟩, hsp⟩ := h
      obtain ⟨k, hw⟩ := waits_of_frameOf hfr
      exact ⟨⟨k, fr, hw, hstub⟩, hsp⟩

/-- The state after the actions, if they are proper. -/
def Extras.after (x : Extras) : List Action → Option Extras
  | [] => some x
  | act :: acts =>
      if act.proper x then
        match x.step act with
        | .ok (x', _) => x'.after acts
        | .error _ => none
      else none

theorem Extras.Run.trans {x x₁ x₂ : Extras} (h : x.Run x₁) (h' : x₁.Run x₂) : x.Run x₂ := by
  induction h' with
  | refl => exact h
  | tail _ hp hs ih => exact ih.tail hp hs

theorem Extras.run_after {acts : List Action} {x x' : Extras} (h : x.after acts = some x') :
    x.Run x' := by
  induction acts generalizing x with
  | nil =>
      cases h
      exact .refl
  | cons act acts ih =>
      rw [Extras.after] at h
      split at h
      · rename_i hp
        split at h
        · rename_i x₁ o hs
          exact (Extras.Run.refl.tail (Action.proper_spec hp) hs).trans (ih h)
        · cases h
      · cases h

/-- A run whose last state has the decidable property `q`. -/
theorem Extras.exists_run (acts : List Action) {x : Extras} (q : Extras → Bool)
    (h : (x.after acts).map q = some true) : ∃ x', x.Run x' ∧ q x' = true := by
  obtain ⟨x', hx', hq⟩ := Option.map_eq_some_iff.mp h
  exact ⟨x', Extras.run_after hx', hq⟩

/-- Main makes a stub and duplicates it; the stub is started and starts the
duplicate in turn. -/
theorem stub_families_pair : ∃ x x', (Extras.init (fun _ => 0) {}).Run x ∧
    x.lib.gCurrent = 1 ∧
    x.step (.stubRun 2 9 (some 43) 960 [] []) = .ok (x', .entered 9 2 43) ∧
    StubRan x 2 9 43 x' (.entered 9 2 43) ∧ ∀ b, Settled x.trace b := by
  obtain ⟨x, hrun, hq⟩ := Extras.exists_run (x := Extras.init (fun _ => 0) {})
    [.stubNew null ⟨1000, 990⟩ [] [], .lib (.call (.duplicate 1) [] []),
      .stubRun 1 7 (some 42) 970 [] []]
    (fun x => decide (x.lib.gCurrent = 1) && (Action.stubRun 2 9 (some 43) 960 [] []).proper x &&
      endsIn (x.step (.stubRun 2 9 (some 43) 960 [] [])) fun p => decide (p.2 = .entered 9 2 43))
    (by decide +kernel)
  simp only [Bool.and_eq_true, decide_eq_true_eq] at hq
  obtain ⟨⟨hcur, hproper⟩, hs⟩ := hq
  obtain ⟨⟨x', o⟩, hstep, ho⟩ := endsIn_spec hs
  obtain rfl : o = _ := of_decide_eq_true ho
  obtain ⟨-, hsettled, hacts⟩ := stub_families hrun
  obtain ⟨hserves, -⟩ := (hacts _ (Action.proper_spec hproper)).2 x' _ hstep
  exact ⟨x, x', hrun, hcur, hstep, hserves.1, hsettled⟩

/-- A tealet makes a stub whose boundary is beyond its own, duplicates it,
and switches to main under FORCE when there is no memory: the duplicate
cannot be started any more. -/
theorem stub_families_spoiled : ∃ x x₁ x₂ o, (Extras.init (fun _ => 0) {}).Run x ∧
    (∃ k, x.lib.StubWaits 3 k) ∧ x.lib.statusOf 3 = some .active ∧
    (Action.lib (.call (.switch 0 none { force := true } 880) [false] [])).Proper x ∧
    x.step (.lib (.call (.switch 0 none { force := true } 880) [false] [])) = .ok (x₁, o) ∧
    (Action.stubRun 3 9 none 950 [] []).Proper x₁ ∧
    x₁.step (.stubRun 3 9 none 950 [] []) = .ok (x₂, .returned (.err .defunct) none) := by
  obtain ⟨x, hrun, hq⟩ := Extras.exists_run (x := Extras.init (fun _ => 0) {})
    [.lib (.call .new [] []), .lib (.call (.run 1 7 none null true ⟨1000, 990⟩) [] []),
      .stubNew 2000 ⟨900, 890⟩ [] [], .lib (.call (.duplicate 2) [] [])]
    (fun x => (Action.stubRun 3 9 none 880 [] []).proper x &&
      decide (x.lib.statusOf 3 = some .active) &&
      (Action.lib (.call (.switch 0 none { force := true } 880) [false] [])).proper x &&
      endsIn (x.step (.lib (.call (.switch 0 none { force := true } 880) [false] []))) fun p =>
        (Action.stubRun 3 9 none 950 [] []).proper p.1 &&
          endsIn (p.1.step (.stubRun 3 9 none 950 [] []))
            fun p => decide (p.2 = .returned (.err .defunct) none)) (by decide +kernel)
  simp only [Bool.and_eq_true, decide_eq_true_eq] at hq
  obtain ⟨⟨⟨hwaits, hact⟩, hproper⟩, hs⟩ := hq
  obtain ⟨⟨x₁, o⟩, hstep, hp⟩ := endsIn_spec hs
  obtain ⟨hproper₁, hs⟩ := Bool.and_eq_true_iff.mp hp
  obtain ⟨⟨x₂, o₂⟩, hstep₁, ho⟩ := endsIn_spec hs
  obtain rfl : o₂ = _ := of_decide_eq_true ho
  exact ⟨x, x₁, x₂, o, hrun, (Action.proper_spec hwaits).1, hact,
    Action.proper_spec hproper, hstep, Action.proper_spec hproper₁, hstep₁⟩

end Tealet
