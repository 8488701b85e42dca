import Tealet.Checks
import Tealet.Core
import Tealet.Refine

/-!
# What `tealet_switchstack` does

One specification for each function of `Switch`, in terms of the view: a
transfer is refused, or ends in `TEALET_ERR_MEM` with the list grown as far
as it went, or is grow, depart and arrive. The faults that remain possible
are those a caller or the operating system can cause; none of them is
`Fault.internal`.
-/

namespace Tealet

open DList Slice Hoare

/-! ## `tealet_save_state` -/

/-- What a transfer from the tealet that runs, with the record `c`, to `t`,
with the record `r`, relies on. -/
structure Ready (s : State) (a : Saved) (t : TealetId) (c r : TealetSub) (failOk : Bool) :
    Prop where
  rep : ∃ own, HeapRep s.heap a own
  cur : s.tealets s.gCurrent = some c
  tgt : s.tealets t = some r
  ne : t ≠ s.gCurrent
  live : c.flags.exited = false
  owned : ∀ k, r.stack = some k → ∃ im, a.img k = some im
  failOk_eq : failOk = (!c.flags.saveforce || decide (s.gCurrent = mainId))
  growable : ∀ x ∈ a.prev, ∀ im, a.img x = some im → Growable r.stack r.stackFar failOk x im
  curUnbounded : c.stackFar = spFurthest → c.flags.exiting = false ∧ a.prev = []
  tgtUnbounded : r.stackFar = spFurthest →
    ((s.view a).growth r.stack r.stackFar failOk s.heap.allocs).failed = false →
    ((s.view a).growth r.stack r.stackFar failOk s.heap.allocs).keep = []
  exitMain : c.flags.exiting = true → s.gCurrent ≠ mainId
  finite : c.flags.exiting = false → min c.stackFar r.stackFar ≠ spFurthest
  autodelete : c.flags.exiting = false → c.flags.autodelete = false

/-- The fields that saving and restoring pass through. -/
structure Kept (s s' : State) : Prop where
  target : s'.gTarget = s.gTarget
  arg : s'.gArg = s.gArg
  flags : s'.gFlags = s.gFlags

/-- `g_previous` after `fate` of the tealet `t`. -/
def Fate.previous (fate : Fate) (t : TealetId) (p : Option TealetId) : Option TealetId :=
  if fate = .exitDelete ∧ p = some t then none else p

/-- The end of `saveState`. -/
def SavedAs (s : State) (a : Saved) (c r : TealetSub) (g : Growth) (fate : Option Fate)
    (p : State × Bool) : Prop :=
  Kept s p.1 ∧ ∃ a' own', HeapRep p.1.heap a' own' ∧
    match fate with
    | none => p.2 = true ∧ p.1.gPrevious = s.gPrevious ∧ p.1.env = s.env ∧
        p.1.view a' = ((s.view a).grow g).setTealet s.gCurrent
          (some { c with flags := { c.flags with saveforce := false } })
    | some fate => p.2 = false ∧ p.1.gPrevious = fate.previous s.gCurrent s.gPrevious ∧
        s.env.SameConfig p.1.env ∧
        p.1.view a' =
          ((s.view a).grow g).depart { c with flags := c.flags.quiet } r.stackFar fate

section SaveState

variable {E : Fault → Prop} {s : State} {a : Saved} {t : TealetId} {c r : TealetSub}
  {failOk : Bool} {sp : Nat} {k : Frame}

theorem mainStack_setTealet (hc : s.tealets s.gCurrent = some c) (f : TFlags) :
    (s.setTealet s.gCurrent { c with flags := f }).mainStack = s.mainStack := by
  by_cases hm : mainId = s.gCurrent
  · simp [State.mainStack, State.setTealet, hm, hc]
  · simp [State.mainStack, State.setTealet, Function.update_of_ne hm]

theorem saveState_spec (R : Ready s a t c r failOk) (hT : s.gTarget = some t)
    (hx : r.flags.exited = false) (hv : Sat E (fun _ => True) (verifyRecord c sp)) :
    Sat E (fun p => SavedAs s a c r ((s.view a).growth r.stack r.stackFar failOk s.heap.allocs)
        (chooseFate ((s.view a).growth r.stack r.stackFar failOk s.heap.allocs) c.flags failOk
          sp k).1 p ∧
      p.1.heap.allocs = (chooseFate ((s.view a).growth r.stack r.stackFar failOk s.heap.allocs)
        c.flags failOk sp k).2) (saveState s k sp) := by
  obtain ⟨own, H⟩ := R.rep
  unfold saveState
  simp only [hT, tealet_of R.tgt, tealet_of R.cur, ok_bind, verifyCurrentMatchesCaller_eq R.cur]
  refine hv.bind fun _ _ => ?_
  have hunb : c.stackFar = spFurthest → c.flags.exiting = false ∧ s.heap.gPrev = none := by
    intro hfar
    obtain ⟨hex, hprev⟩ := R.curUnbounded hfar
    refine ⟨hex, ?_⟩
    have hhead : s.heap.links.head = a.prev.head? := H.list.head_eq
    rw [hprev] at hhead
    exact hhead
  have hne : s.gCurrent ≠ t := R.ne.symm
  have hmain := mainStack_setTealet R.cur { c.flags with saveforce := false }
  obtain ⟨h₁, own₁, hrun, H₁, hal₁, hns₁⟩ := stackGrowList_spec (m := s.mem) s.mainStack
    failOk [] H rfl H.prev_length R.growable
  rw [List.nil_append] at H₁
  have hhead : a.prev.head? = s.heap.gPrev := (H.list.head_eq).symm
  rw [hhead] at hrun
  have hgrowth : growList s.mem s.mainStack r.stack r.stackFar failOk a.prev a.img s.heap.allocs =
      (s.view a).growth r.stack r.stackFar failOk s.heap.allocs := rfl
  rw [hgrowth] at hrun H₁ hal₁
  have hrunb := R.tgtUnbounded
  generalize hg : (s.view a).growth r.stack r.stackFar failOk s.heap.allocs = g at *
  refine sat_require hx (sat_require hne (sat_require hunb
    (Sat.run (a := (h₁, g.failed)) ?_ ?_)))
  · rw [hmain]
    rw [R.failOk_eq] at hrun
    exact hrun
  dsimp only
  cases hf : g.failed with
  | true =>
      simp only [chooseFate, hf, if_true, pure_eq_ok, sat_ok]
      refine ⟨⟨⟨rfl, rfl, rfl⟩, ⟨g.img, g.keep⟩, own₁, H₁, rfl, rfl, rfl, ?_⟩, hal₁⟩
      simp [State.view, View.grow, View.setTealet, State.setTealet, hns₁]
  | false =>
      simp only [Bool.false_eq_true, if_false, chooseFate, hf]
      have hunb₁ : r.stackFar = spFurthest → h₁.gPrev = none := by
        intro hfar
        have hhead₁ : h₁.links.head = g.keep.head? := H₁.list.head_eq
        rw [hrunb hfar hf] at hhead₁
        exact hhead₁
      refine sat_require hunb₁ ?_
      cases hex : c.flags.exiting with
      | true =>
          simp only [if_true]
          refine sat_require (R.exitMain hex) ?_
          cases had : c.flags.autodelete with
          | true =>
              simp only [if_true, pure_eq_ok, sat_ok]
              refine ⟨⟨⟨rfl, rfl, rfl⟩, ⟨g.img, g.keep⟩, own₁, ?_, rfl, ?_, ⟨rfl, rfl, rfl⟩, ?_⟩,
                hal₁⟩
              · exact H₁.withAllocs _ _
              · by_cases hp : s.gPrevious = some s.gCurrent <;>
                  simp [freeTealet, Fate.previous, State.setTealet, hp]
              · simp [State.view, View.grow, View.depart, View.setTealet, freeTealet, Fate.record,
                  State.setTealet, hns₁]
          | false =>
              simp only [if_false, Bool.false_eq_true, pure_eq_ok, sat_ok]
              refine ⟨⟨⟨rfl, rfl, rfl⟩, ⟨g.img, g.keep⟩, own₁, H₁, rfl, rfl, .refl _, ?_⟩, hal₁⟩
              simp [State.view, View.grow, View.depart, View.setTealet, Fate.record,
                State.setTealet, hns₁, TFlags.quiet]
      | false =>
          simp only [if_false, Bool.false_eq_true]
          refine Sat.run (stackSaveto_spec k (R.finite hex)) ?_
          dsimp only
          rcases hnext : nextAlloc g.allocs with ⟨ok, rest⟩
          cases ok with
          | false =>
              obtain ⟨h₂, hnew, H₂, hal₂, hns₂⟩ := stackNew_none (m := s.mem) H₁ k sp c.stackFar
                (min c.stackFar r.stackFar - sp) (by rw [hal₁, hnext])
              rw [hal₁, hnext] at hal₂
              simp only [State.setTealet, hnew]
              cases hfo : failOk with
              | true =>
                  refine Sat.ite_true (R.failOk_eq.symm.trans hfo) ?_
                  simp only [if_true, pure_eq_ok, sat_ok]
                  refine ⟨⟨⟨rfl, rfl, rfl⟩, ⟨g.img, g.keep⟩, own₁, H₂, rfl, rfl, rfl, ?_⟩, hal₂⟩
                  simp [State.view, View.grow, View.setTealet, hns₁, hns₂, hex]
              | false =>
                  have hno : ¬ (!c.flags.saveforce || decide (s.gCurrent = mainId)) = true := by
                    rw [← R.failOk_eq, hfo]
                    simp
                  have hnm : s.gCurrent ≠ mainId := fun heq => hno (by simp [heq])
                  refine Sat.ite_false hno (sat_require hnm ?_)
                  simp only [if_false, Bool.false_eq_true, pure_eq_ok, sat_ok]
                  refine ⟨⟨⟨rfl, rfl, rfl⟩, ⟨g.img, g.keep⟩, own₁, H₂, rfl, ?_, .refl _, ?_⟩, hal₂⟩
                  · simp [Fate.previous]
                  · simp [State.view, View.grow, View.depart, View.setTealet, Fate.record,
                      TFlags.quiet, hns₁, hns₂, R.autodelete hex]
          | true =>
              obtain ⟨h₂, hnew, H₂, hal₂, hns₂⟩ := stackNew_some (m := s.mem) H₁ k sp c.stackFar
                (min c.stackFar r.stackFar - sp) (by rw [hal₁, hnext])
              rw [hal₁, hnext] at hal₂
              rw [hns₁] at hnew H₂ hns₂
              simp only [State.setTealet, hnew]
              have hnf : c.stackFar = spFurthest → decide (c.stackFar ≤ r.stackFar) = false := by
                intro hfar
                have hfin := R.finite hex
                rw [hfar] at hfin ⊢
                simp only [decide_eq_false_iff_not]
                omega
              refine sat_require hnf ?_
              by_cases hfull : c.stackFar ≤ r.stackFar
              · simp only [hfull, decide_true, if_true, pure_eq_ok, sat_ok]
                refine ⟨⟨⟨rfl, rfl, rfl⟩, _, own₁, H₂, rfl, ?_, .refl _, ?_⟩, hal₂⟩
                · simp [Fate.previous]
                · simp [State.view, View.grow, View.depart, View.save, TFlags.quiet, hns₂,
                    R.autodelete hex, hfull, Image.capture]
              · have hnk : s.heap.nextStack ∉ g.keep := by
                  intro hm
                  obtain ⟨im, him⟩ := H₁.img_of_mem hm
                  have := H₁.lt_nextStack him
                  rw [hns₁] at this
                  exact Nat.lt_irrefl _ this
                obtain ⟨h₃, hlink, H₃, hr⟩ := stackLink_spec H₂ (Function.update_self ..) hnk
                simp only [hfull, decide_false, if_false, Bool.false_eq_true]
                refine Sat.run hlink ?_
                refine ⟨⟨⟨rfl, rfl, rfl⟩, _, own₁, H₃, rfl, ?_, .refl _, ?_⟩, hr.allocs.trans hal₂⟩
                · simp [Fate.previous]
                · simp [State.view, View.grow, View.depart, View.save, TFlags.quiet, hns₂,
                    R.autodelete hex, hfull, Image.capture, hr.nextStack]

end SaveState

/-! ## `tealet_restore_state` -/

/-- Dropping one reference to a saved stack. -/
theorem stackDecref_spec {h : Heap} {v : View} {own : StackId → List ChunkId} {k : StackId}
    {im : Image} (H : HeapRep h ⟨v.img, v.prev⟩ own) (him : v.img k = some im) :
    ∃ h' own', stackDecref h (some k) = .ok h' ∧
      HeapRep h' ⟨(v.release k im).img, (v.release k im).prev⟩ own' ∧
      h'.allocs = h.allocs ∧ h'.nextStack = h.nextStack := by
  by_cases hle : im.refcount ≤ 1
  · simp only [View.release, if_pos hle]
    exact stackDecref_last H him hle
  · simp only [View.release, if_neg hle]
    obtain ⟨h', heq, H', hal, hns⟩ := stackDecref_shared H him (Nat.lt_of_not_le hle)
    exact ⟨h', own, heq, H', hal, hns⟩

theorem restoreState_spec {s : State} {a : Saved} {own : StackId → List ChunkId} {t : TealetId}
    {r : TealetSub} {k : StackId} {im : Image} (H : HeapRep s.heap a own) (hT : s.gTarget = some t)
    (hr : s.tealets t = some r) (hk : r.stack = some k) (him : a.img k = some im) :
    ∃ s' a' own', restoreState s im.near = .ok s' ∧ HeapRep s'.heap a' own' ∧ Kept s s' ∧
      s'.gPrevious = s.gPrevious ∧ s'.env = s.env ∧ s'.gSw = s.gSw ∧
      s'.heap.allocs = s.heap.allocs ∧
      s'.view a' = ({ s.view a with mem := im.value s.mem }.release k im).setTealet t
        (some { r with stack := none }) := by
  obtain ⟨st, hst, hrep⟩ := H.stack k im him
  obtain ⟨h', own', hdec, H', hal, hns⟩ :=
    stackDecref_spec (v := { s.view a with mem := im.value s.mem }) H him
  refine ⟨{ s with
    mem := im.value s.mem
    heap := h'
    tealets := Function.update s.tealets t (some { r with stack := none }) }, _, own', ?_, H',
    ⟨rfl, rfl, rfl⟩, rfl, rfl, rfl, hal, ?_⟩
  · simp only [restoreState, hT, tealet_of hr, ok_bind, hk, Heap.stack, hst,
      require_of hrep.near.symm, stackRestore_spec H him, hdec]
    rfl
  · obtain ⟨h₁, h₂, h₃, h₄, h₅, h₆⟩ :=
      release_tealets { s.view a with mem := im.value s.mem } k im
    simp only [State.view, View.setTealet, hns, h₁, h₂, h₃, h₄, h₅, h₆] at *

/-! ## `tealet_switchstack` -/

section Switchstack

variable {E : Fault → Prop} {s : State} {a : Saved} {t : TealetId} {c r : TealetSub}
  {failOk : Bool} {sp : Nat} {k : Frame}

/-- The view after a transfer to `t`, up to who runs. -/
def View.transfer (v : View) (t : TealetId) (c r : TealetSub) (g : Growth) (fate : Fate) : View :=
  let v' := (v.grow g).depart { c with flags := c.flags.quiet } r.stackFar fate
  match r.stack.bind fun kt => (g.img kt).map fun im => (kt, im) with
  | some (kt, im) =>
      ({ v' with mem := im.value v.mem }.release kt im).setTealet t (some { r with stack := none })
  | none => v'

/-- Where a transfer to a tealet with the record `r` continues. -/
def Growth.resume (g : Growth) (r : TealetSub) (k : Frame) (sp : Nat) : Frame × Nat :=
  match r.stack.bind g.img with
  | some im => (im.frame, im.near)
  | none => (k, sp)

/-- The end of `stackmanSwitch`. -/
def SwitchedAs (s : State) (a : Saved) (t : TealetId) (c r : TealetSub) (g : Growth)
    (k : Frame) (sp : Nat) (fate : Option Fate) (p : State × Frame × Nat) : Prop :=
  Kept s p.1 ∧ ∃ a' own', HeapRep p.1.heap a' own' ∧
    match fate with
    | none => p.1.gSw = .err ∧ p.2 = (k, sp) ∧ p.1.gPrevious = s.gPrevious ∧
        p.1.env = s.env ∧
        p.1.view a' = ((s.view a).grow g).setTealet s.gCurrent
          (some { c with flags := { c.flags with saveforce := false } })
    | some fate => p.1.gSw = (if r.stack = none then .nop else .restore) ∧
        p.2 = g.resume r k sp ∧ p.1.gPrevious = fate.previous s.gCurrent s.gPrevious ∧
        s.env.SameConfig p.1.env ∧ p.1.view a' = (s.view a).transfer t c r g fate

/-- The target keeps its boundary and flags. -/
theorem transfer_target {v : View} {g : Growth} {fate : Fate} (ht : t ≠ v.current)
    (hr : v.tealets t = some r) :
    ∃ r', (v.transfer t c r g fate).tealets t = some r' ∧ r'.stackFar = r.stackFar ∧
      r'.flags.exited = r.flags.exited := by
  unfold View.transfer
  dsimp only
  split
  · exact ⟨_, Function.update_self .., rfl, rfl⟩
  · exact ⟨r, (depart_tealets_of_ne (v.grow g) _ _ _ ht).trans hr, rfl, rfl⟩

theorem stackmanSwitch_spec (R : Ready s a t c r failOk) (hT : s.gTarget = some t)
    (hx : r.flags.exited = false) (hv : Sat E (fun _ => True) (verifyRecord c sp)) :
    Sat E (fun p => SwitchedAs s a t c r
        ((s.view a).growth r.stack r.stackFar failOk s.heap.allocs) k sp
        (chooseFate ((s.view a).growth r.stack r.stackFar failOk s.heap.allocs) c.flags failOk
          sp k).1 p ∧
      p.1.heap.allocs = (chooseFate ((s.view a).growth r.stack r.stackFar failOk s.heap.allocs)
        c.flags failOk sp k).2) (stackmanSwitch s k sp) := by
  obtain ⟨own, H⟩ := R.rep
  unfold stackmanSwitch
  refine (saveState_spec R hT hx hv).bind ?_
  rintro ⟨s₁, failed⟩ ⟨⟨hkept, a₁, own₁, H₁, hfate⟩, hal⟩
  have hdom : ∀ kt im, a.img kt = some im →
      ∃ im', ((s.view a).growth r.stack r.stackFar failOk s.heap.allocs).img kt = some im' :=
    fun kt im him => (growList_kept him).imp fun _ h => h.1
  revert hfate hal hdom
  generalize (s.view a).growth r.stack r.stackFar failOk s.heap.allocs = g
  generalize chooseFate g c.flags failOk sp k = f
  intro hal hfate hdom
  rcases hf : f.1 with _ | fate
  · rw [hf] at hfate
    obtain ⟨rfl, hp, he, hview⟩ := hfate
    refine Sat.ite_true rfl ?_
    exact ⟨⟨⟨hkept.target, hkept.arg, hkept.flags⟩, a₁, own₁, H₁, rfl, rfl, hp, he, hview⟩, hal⟩
  · rw [hf] at hfate
    obtain ⟨hfalse, hp, he, hview⟩ := hfate
    dsimp only at hfalse hp he hview hal H₁ hkept
    subst hfalse
    refine Sat.ite_false (by simp) ?_
    have hr₁ : s₁.tealets t = some r := by
      have heq := congrArg (fun v => View.tealets v t) hview
      rw [depart_tealets_of_ne _ _ _ _ R.ne] at heq
      exact heq.trans R.tgt
    simp only [hT, tealet_of hr₁, ok_bind]
    cases hk : r.stack with
    | none =>
        refine ⟨⟨⟨hkept.target, hkept.arg, hkept.flags⟩, a₁, own₁,
          H₁, by simp [hk], ?_, hp, he, ?_⟩, hal⟩
        · simp [Growth.resume, hk]
        · simp only [View.transfer, hk]
          exact hview
    | some kt =>
        obtain ⟨im, him⟩ := R.owned kt hk
        obtain ⟨im', him'⟩ := hdom kt im him
        have hkt : kt ≠ s.heap.nextStack := Nat.ne_of_lt (H.lt_nextStack him)
        have him₁ : a₁.img kt = some im' := by
          have heq := congrArg (fun v => View.img v kt) hview
          rw [depart_img_of_ne _ _ _ _ hkt] at heq
          exact heq.trans him'
        obtain ⟨st, hst, hrep⟩ := H₁.stack kt im' him₁
        have hmem : s₁.mem = s.mem := by
          have heq := congrArg View.mem hview
          cases fate <;> exact heq
        obtain ⟨s₂, a₂, own₂, hres, H₂, hkept₂, hp₂, he₂, hsw₂, hal₂, hview₂⟩ :=
          restoreState_spec (s := { s₁ with gSw := .restore }) H₁
            (hkept.target.trans hT) hr₁ hk him₁
        simp only [Heap.stack, hst, ok_bind, hrep.near, hres]
        refine ⟨⟨⟨hkept₂.target.trans hkept.target, hkept₂.arg.trans hkept.arg,
          hkept₂.flags.trans hkept.flags⟩, a₂, own₂, H₂, ?_, ?_, hp₂.trans hp, ?_, ?_⟩,
          hal₂.trans hal⟩
        · simpa [hk] using hsw₂
        · simp [Growth.resume, hk, him', hrep.frame]
        · rw [he₂]
          exact he
        · simp only [View.transfer, hk, Option.bind_some, him', Option.map_some]
          rw [hview₂, ← hview]
          simp only [hmem]
          rfl

/-! ### The outcomes -/

/-- The target can be resumed: neither its record nor its image is defunct. -/
def Usable (a : Saved) (r : TealetSub) : Prop :=
  r.flags.defunct = false ∧
    ∀ kt im, r.stack = some kt → a.img kt = some im → im.defunct = false

/-- What a call of `switchstack` does: four kinds of refusal, failure for
want of memory, and the transfer with the fate of the tealet that leaves. -/
inductive Switched (s : State) (a : Saved) (t : TealetId) (arg : Ptr) (c r : TealetSub)
    (failOk : Bool) (k : Frame) (sp : Nat) (p : State × Back) : Prop where
  | exited (hx : r.flags.exited = true) (hp : p = (s.clearPanic, ⟨k, .err .inval, none⟩))
  | defunct (hx : r.flags.exited = false) (hd : r.flags.defunct = true)
      (hp : p = (s.clearPanic, ⟨k, .err .defunct, none⟩))
  | spoiled {kt : StackId} {im : Image} (hx : r.flags.exited = false)
      (hd : r.flags.defunct = false) (hk : r.stack = some kt) (him : a.img kt = some im)
      (hdim : im.defunct = true)
      (hp : p = ((s.setTealet t { r with flags := { r.flags with defunct := true } }).clearPanic,
        ⟨k, .err .defunct, none⟩))
  | rejected (hx : r.flags.exited = false) (hd : Usable a r)
      (hrej : callerRejected s.env c.stackFar sp = true)
      (hp : p = (s.clearPanic, ⟨k, .err .inval, none⟩))
  | tampered {e e' : Env} (hx : r.flags.exited = false) (hd : Usable a r)
      (hg : guardUnprotectCurrent s.env = .ok e')
      (hs : snapshotVerifyCurrent e' s.mem = .ok (e, some .integrity))
      (he : s.env.SameConfig e)
      (hp : p = (({ s with env := e } : State).clearPanic, ⟨k, .err .integrity, none⟩))
  | nomem {a' : Saved} {own' : StackId → List ChunkId} (hx : r.flags.exited = false)
      (hd : Usable a r) (hrej : callerRejected s.env c.stackFar sp = false)
      (hfate : (chooseFate ((s.view a).growth r.stack r.stackFar failOk s.heap.allocs) c.flags
        failOk sp k).1 = none)
      (hrep : HeapRep p.1.heap a' own')
      (hal : p.1.heap.allocs = (chooseFate ((s.view a).growth r.stack r.stackFar failOk
        s.heap.allocs) c.flags failOk sp k).2)
      (hb : p.2 = ⟨k, .err .mem, none⟩) (ht : p.1.gTarget = none) (ha : p.1.gArg = null)
      (hprev : p.1.gPrevious = s.gPrevious)
      (hflags : p.1.gFlags = { s.gFlags with panic := false }) (he : s.env.SameConfig p.1.env)
      (harm : ∃ e, s.env.SameConfig e ∧ armEnv e s.mem c sp = .ok p.1.env)
      (hview : p.1.view a' = ((s.view a).grow ((s.view a).growth r.stack r.stackFar failOk
        s.heap.allocs)).setTealet s.gCurrent
          (some { c with flags := { c.flags with saveforce := false } }))
  | moved {a' : Saved} {own' : StackId → List ChunkId} {fate : Fate}
      (hx : r.flags.exited = false) (hd : Usable a r) (hv : verifyRecord c sp = .ok ())
      (hrej : callerRejected s.env c.stackFar sp = false)
      (hfate : (chooseFate ((s.view a).growth r.stack r.stackFar failOk s.heap.allocs) c.flags
        failOk sp k).1 = some fate)
      (hrep : HeapRep p.1.heap a' own')
      (hal : p.1.heap.allocs = (chooseFate ((s.view a).growth r.stack r.stackFar failOk
        s.heap.allocs) c.flags failOk sp k).2)
      (hb : p.2 = ⟨(((s.view a).growth r.stack r.stackFar failOk s.heap.allocs).resume r k sp).1,
        if s.gFlags.panic then .err .panic else if r.stack = none then .saved else .ok, some arg⟩)
      (ht : p.1.gTarget = none) (ha : p.1.gArg = null)
      (hprev : p.1.gPrevious = fate.previous s.gCurrent (some s.gCurrent))
      (hflags : p.1.gFlags = { s.gFlags with panic := false }) (he : s.env.SameConfig p.1.env)
      (hview : p.1.view a' = { (s.view a).transfer t c r
        ((s.view a).growth r.stack r.stackFar failOk s.heap.allocs) fate with
          current := t, live := t })

theorem isDefunct_spec {own : StackId → List ChunkId} (H : HeapRep s.heap a own)
    (hr : s.tealets t = some r) (howned : ∀ k, r.stack = some k → ∃ im, a.img k = some im) :
    (r.flags.defunct = true ∧ isDefunct s t = .ok (s, true)) ∨
    (r.flags.defunct = false ∧ (∃ kt im, r.stack = some kt ∧ a.img kt = some im ∧
      im.defunct = true) ∧ isDefunct s t =
        .ok (s.setTealet t { r with flags := { r.flags with defunct := true } }, true)) ∨
    (Usable a r ∧ isDefunct s t = .ok (s, false)) := by
  simp only [isDefunct, tealet_of hr, ok_bind]
  by_cases hd : r.flags.defunct = true
  · rw [if_pos hd]
    exact .inl ⟨hd, rfl⟩
  · rw [if_neg hd]
    simp only [Bool.not_eq_true] at hd
    cases hk : r.stack with
    | none => exact .inr (.inr ⟨⟨hd, by simp [hk]⟩, rfl⟩)
    | some kt =>
        obtain ⟨im, him⟩ := howned kt hk
        obtain ⟨st, hst, hrep⟩ := H.stack kt im him
        simp only [Heap.stack, hst, ok_bind, hrep.defunct]
        by_cases hdim : im.defunct = true
        · rw [if_pos hdim]
          exact .inr (.inl ⟨hd, ⟨kt, im, rfl, him, hdim⟩, rfl⟩)
        · rw [if_neg hdim]
          refine .inr (.inr ⟨⟨hd, ?_⟩, rfl⟩)
          rintro kt' im' hk' him'
          rw [hk] at hk'
          obtain rfl := Option.some.inj hk'
          rw [him] at him'
          obtain rfl := Option.some.inj him'
          simpa using hdim

theorem switchstack_spec {arg : Ptr} (R : Ready s a t c r failOk)
    (hE : r.flags.exited = false → Usable a r → External E s.env s.mem c r sp
      (((s.view a).growth r.stack r.stackFar failOk s.heap.allocs).resume r k sp).2) :
    Sat E (Switched s a t arg c r failOk k sp) (switchstack s t arg k sp) := by
  obtain ⟨own, H⟩ := R.rep
  unfold switchstack
  refine sat_require R.ne ?_
  simp only [tealet_of R.tgt, ok_bind]
  by_cases hx : r.flags.exited = true
  · exact Sat.ite_true hx (.exited hx rfl)
  refine Sat.ite_false hx ?_
  simp only [Bool.not_eq_true] at hx
  rcases isDefunct_spec H R.tgt R.owned with
    ⟨hd, heq⟩ | ⟨hd, ⟨kt, im, hk, him, hdim⟩, heq⟩ | ⟨hd, heq⟩
  · refine Sat.run heq (Sat.ite_true rfl ?_)
    exact .defunct hx hd rfl
  · refine Sat.run heq (Sat.ite_true rfl ?_)
    exact .spoiled hx hd hk him hdim rfl
  refine Sat.run heq (Sat.ite_false (by simp) ?_)
  replace hE := hE hx hd
  simp only [checkCallerIsCurrent_eq R.cur R.live, bind_assoc, ok_bind]
  refine hE.verify.with_eq.bind ?_
  rintro ⟨⟩ ⟨hverify, -⟩
  by_cases hrej : callerRejected s.env c.stackFar sp = true
  · exact Sat.ite_true hrej (.rejected hx hd hrej rfl)
  refine Sat.ite_false hrej ?_
  simp only [Bool.not_eq_true] at hrej
  refine (hE.watch.with_eq.and (guardUnprotectCurrent_config s.env)).bind ?_
  rintro e₁ ⟨⟨hg, hwatch⟩, he₁⟩
  refine (hwatch.with_eq.and (snapshotVerifyCurrent_config e₁ s.mem)).bind ?_
  rintro ⟨e₂, verdict⟩ ⟨⟨hs, -⟩, he₂, hverdict⟩
  have he : s.env.SameConfig e₂ := he₁.trans he₂
  rcases hverdict with hv | hv <;> dsimp only at hv <;> subst hv
  swap
  · exact .tampered hx hd hg hs he rfl
  dsimp only
  -- the state in which the stack is switched has the view of `s`
  obtain ⟨s₂, hs₂⟩ : ∃ s₂, s₂ = { s with
    env := e₂, gPrevious := some s.gCurrent, gTarget := some t, gArg := arg } := ⟨_, rfl⟩
  rw [← hs₂]
  have R₂ : Ready s₂ a t c r failOk := by
    rw [hs₂]
    exact ⟨⟨own, H⟩, R.cur, R.tgt, R.ne, R.live, R.owned, R.failOk_eq, R.growable,
      R.curUnbounded, R.tgtUnbounded, R.exitMain, R.finite, R.autodelete⟩
  have hview₂ : s₂.view a = s.view a := by rw [hs₂]; rfl
  have hcur₂ : s₂.gCurrent = s.gCurrent := by rw [hs₂]
  have hswitch := stackmanSwitch_spec (k := k) R₂ (by rw [hs₂]) hx hE.verify
  rw [hview₂, show s₂.heap.allocs = s.heap.allocs by rw [hs₂]] at hswitch
  refine hswitch.bind ?_
  rintro ⟨s₃, k', sp'⟩ ⟨⟨hkept, a₃, own₃, H₃, hfate⟩, hal⟩
  have hT : s₃.gTarget = some t := hkept.target.trans (by rw [hs₂])
  have harg : s₃.gArg = arg := hkept.arg.trans (by rw [hs₂])
  have hfl : s₃.gFlags = s.gFlags := hkept.flags.trans (by rw [hs₂])
  rcases hf : (chooseFate ((s.view a).growth r.stack r.stackFar failOk s.heap.allocs) c.flags
    failOk sp k).1 with _ | fate
  · rw [hf] at hfate
    obtain ⟨hsw, hk', -, henv, hview⟩ := hfate
    obtain ⟨rfl, rfl⟩ := Prod.mk.inj hk'
    rw [hview₂, hcur₂] at hview
    have htealets : s₃.tealets = Function.update s.tealets s.gCurrent
        (some { c with flags := { c.flags with saveforce := false } }) :=
      congrArg View.tealets hview
    have hcurrent : s₃.gCurrent = s.gCurrent := congrArg View.current hview
    have henv₃ : s.env.SameConfig s₃.env := by
      have h : s₃.env = e₂ := henv.trans (by rw [hs₂])
      rw [h]
      exact he
    refine Sat.ite_true hsw ((armIntegrity_sat (s := { s₃ with
      gPrevious := s.gPrevious, gTarget := none, gArg := null })
      (c := { c with flags := { c.flags with saveforce := false } }) ?_ ?_).bind ?_)
    · dsimp only
      rw [htealets, hcurrent]
      exact Function.update_self ..
    · exact sat_armEnv_congr rfl rfl (hE.rearm _ _ henv₃)
    · rintro _ ⟨e₄, he₄, harm₄, rfl⟩
      refine .nomem hx hd hrej hf H₃ hal rfl rfl rfl rfl ?_ (henv₃.trans he₄) ⟨_, henv₃, ?_⟩ hview
      · simp [State.clearPanic, hfl]
      · have hmem : s₃.mem = s.mem := congrArg View.mem hview
        refine Eq.trans ?_ harm₄
        dsimp only
        rw [hmem]
        simp only [armEnv, verifyRecord]
  · rw [hf] at hfate
    obtain ⟨hsw, hk', hp, henv, hview⟩ := hfate
    rw [hview₂] at hview
    rw [hcur₂, show s₂.gPrevious = some s.gCurrent by rw [hs₂]] at hp
    have hne : s₃.gSw ≠ .err := by
      rw [hsw]
      split <;> simp
    have henv₃ : s.env.SameConfig s₃.env := by
      rw [show s₂.env = e₂ by rw [hs₂]] at henv
      exact he.trans henv
    obtain ⟨r', hcur, hfar, hex⟩ : ∃ r', s₃.tealets t = some r' ∧ r'.stackFar = r.stackFar ∧
        r'.flags.exited = r.flags.exited := by
      have htealets : s₃.tealets t = ((s.view a).transfer t c r _ fate).tealets t :=
        congrArg (fun v => View.tealets v t) hview
      rw [htealets]
      exact transfer_target (v := s.view a) R.ne R.tgt
    have hk₁ : k' = _ := congrArg Prod.fst hk'
    have hsp : sp' = _ := congrArg Prod.snd hk'
    refine Sat.ite_false hne ?_
    simp only [hT]
    refine (armIntegrity_sat (s := { s₃ with
      gCurrent := t, live := t, gTarget := none, gArg := null }) (c := r') hcur ?_).bind ?_
    · rw [hsp]
      exact sat_armEnv_congr hfar hex (hE.arm _ _ henv₃)
    rintro _ ⟨e₄, he₄, -, rfl⟩
    have hview₄ : ({ s₃ with
        gCurrent := t, live := t, gTarget := none, gArg := null, env := e₄ } : State).view a₃ =
        { (s.view a).transfer t c r ((s.view a).growth r.stack r.stackFar failOk s.heap.allocs)
          fate with current := t, live := t } := by
      rw [← hview]
      rfl
    cases hpan : s.gFlags.panic with
    | true =>
        refine Sat.ite_true (by simp [hfl, hpan]) ?_
        refine .moved hx hd hverify hrej hf H₃ hal ?_ rfl rfl hp ?_ (henv₃.trans he₄) hview₄
        · rw [hk₁, harg, hpan, if_pos rfl]
        · simp [State.clearPanic, hfl]
    | false =>
        refine Sat.ite_false (by simp [hfl, hpan]) ?_
        refine .moved hx hd hverify hrej hf H₃ hal ?_ rfl rfl hp ?_ (henv₃.trans he₄) hview₄
        · have hrc : (if s₃.gSw = Sw.restore then Rc.ok else Rc.saved) =
              if r.stack = none then Rc.saved else Rc.ok := by
            rw [hsw]
            split <;> simp
          rw [hpan, hk₁, harg]
          simp only [Bool.false_eq_true, if_false]
          rw [← hrc]
        · dsimp only
          rw [hfl, ← hpan]

end Switchstack

end Tealet
