import Tealet.Xfer

/-!
# What a start does up to the return of `tealet_switchstack`

`tealet_run` and `tealet_fork` write the child's record and switch: to the
child with `TEALET_START_SWITCH`, or, as the child, back to the creator
with `TEALET_START_DEFAULT`, which captures the child. The child has no
stack, so nothing is restored and the call goes on in its own frame.
-/

namespace Tealet

open DList Slice Hoare

/-- The child's record when the switch is made. -/
structure Child (r : TealetSub) : Prop where
  active : r.flags.Active
  quiet : r.flags.quiet = r.flags
  stack : r.stack = none
  far : r.stackFar < spFurthest

/-- The state with the child's record written; `cur` is who the switch is made by. -/
def State.begin (s : State) (t : TealetId) (r : TealetSub) (cur : TealetId) : State :=
  { s with tealets := Function.update s.tealets t (some r), gCurrent := cur }

section Start

variable {leak : StackId → Nat} {E : Fault → Prop} {s : State} {a : Saved} {t : TealetId}
  {c r : TealetSub} {sp : Nat} {k : Frame} {arg : Ptr}

theorem Inv.child_ne (I : Inv leak s a)
    (hnew : s.tealets t = some {}) : t ≠ s.gCurrent ∧ t ≠ mainId := by
  refine ⟨?_, I.sched.ne_main_of_unbound hnew rfl⟩
  rintro rfl
  cases (I.running hnew).1.bound

theorem begin_view {cur : TealetId} : (s.begin t r cur).view a =
    { (s.view a).setTealet t (some r) with current := cur } := rfl

theorem begin_growth (hnew : s.tealets t = some {}) (C : Child r) {cur : TealetId}
    (target : Option StackId) (F : Nat) (failOk : Bool) (allocs : List Bool) :
    ((s.begin t r cur).view a).growth target F failOk allocs =
      (s.view a).growth target F failOk allocs :=
  growth_setTealet (v := s.view a) hnew r C.stack target F failOk allocs

theorem Inv.growable (I : Inv leak s a) {x : StackId} {im : Image} (hx : x ∈ a.prev)
    (him : a.img x = some im) {F : Nat} (hF : min im.far F ≠ spFurthest) (failOk : Bool) :
    Growable none F failOk x im := by
  obtain ⟨im', him', hd, htop⟩ := I.core.listed x hx
  obtain rfl := Option.some.inj (him'.symm.trans him)
  exact ⟨hd, htop, fun _ => hF, nofun⟩

/-- `TEALET_START_SWITCH`. -/
theorem Inv.start_ready (I : Inv leak s a) (hc : s.tealets s.gCurrent = some c)
    (hnew : s.tealets t = some {}) (C : Child r) :
    Ready (s.begin t r s.gCurrent) a t c r true := by
  obtain ⟨hact, hs, hq⟩ := I.running hc
  obtain ⟨htc, htm⟩ := I.child_ne hnew
  obtain ⟨hq₁, hq₂, hq₃⟩ := TFlags.quiet_eq.mp hq
  refine ⟨I.rep, (Function.update_of_ne htc.symm _ _).trans hc, Function.update_self .., htc,
    hact.exited, by simp [C.stack], by simp [hq₃], ?_, ?_, ?_, by simp [hq₁], ?_, fun _ => hq₂⟩
  · intro x hx im him
    rw [C.stack]
    refine I.growable hx him ?_ _
    have := C.far
    omega
  · intro hfar
    have hm : s.gCurrent = mainId := eq_main_of_far I hc hfar
    exact ⟨hq₁, (I.sched.unbounded c (hm ▸ hc) hfar).1 hm⟩
  · exact fun hfar => absurd hfar (Nat.ne_of_lt C.far)
  · intro _
    have := C.far
    omega

/-- `TEALET_START_DEFAULT`. -/
theorem Inv.capture_ready (I : Inv leak s a) (hc : s.tealets s.gCurrent = some c)
    (hnew : s.tealets t = some {}) (C : Child r) :
    Ready (s.begin t r t) a s.gCurrent r c true := by
  obtain ⟨hact, hs, hq⟩ := I.running hc
  obtain ⟨htc, htm⟩ := I.child_ne hnew
  obtain ⟨hq₁, hq₂, hq₃⟩ := TFlags.quiet_eq.mp C.quiet
  have hnil : c.stackFar = spFurthest → a.prev = [] := by
    intro hfar
    have hm : s.gCurrent = mainId := eq_main_of_far I hc hfar
    exact (I.sched.unbounded c (hm ▸ hc) hfar).1 hm
  refine ⟨I.rep, Function.update_self .., (Function.update_of_ne htc.symm _ _).trans hc, htc.symm,
    C.active.exited, by simp [hs], by simp [hq₃], ?_, ?_, ?_, by simp [hq₁], ?_, fun _ => hq₂⟩
  · intro x hx im him
    rw [hs]
    refine I.growable hx him (fun hfin => ?_) _
    have hfar : c.stackFar = spFurthest := by
      have := (I.core.record _ c hc).far_le
      omega
    rw [hnil hfar] at hx
    cases hx
  · exact fun hfar => absurd hfar (Nat.ne_of_lt C.far)
  · intro hfar _
    have hkeep : (((s.begin t r t).view a).growth c.stack c.stackFar true
        (s.begin t r t).heap.allocs).keep.Sublist a.prev := by
      rw [begin_growth hnew C]
      exact I.core.keep_sublist _ _ _ _
    rw [hnil hfar] at hkeep
    exact List.sublist_nil.mp hkeep
  · intro _
    have := C.far
    omega

/-- The end of `tealet_switchstack` in a start. `cur` is the tealet that
makes the switch, `F` the boundary the list is grown to, `far` that of the
tealet that is saved, `v` the view in which the start has succeeded. -/
inductive Begun (s : State) (a : Saved) (t cur : TealetId) (r : TealetSub) (F far : Nat)
    (k : Frame) (sp : Nat) (v : Growth → View) (p : State × Back) : Prop where
  | refused {e : Env} {err : Err} (herr : err = .inval ∨ err = .integrity)
      (he : s.env.SameConfig e)
      (hp : p = ({ s.begin t r cur with env := e }, ⟨k, .err err, none⟩))
  | nomem {a' : Saved} {own' : StackId → List ChunkId} {g : Growth}
      (hg : (s.view a).growth none F true s.heap.allocs = g)
      (hfate : (chooseFate g {} true sp k).1 = none)
      (hrep : HeapRep p.1.heap a' own') (hb : p.2 = ⟨k, .err .mem, none⟩)
      (hT : p.1.gTarget = none) (ha : p.1.gArg = null) (hprev : p.1.gPrevious = s.gPrevious)
      (hflags : p.1.gFlags = s.gFlags) (he : s.env.SameConfig p.1.env)
      (hview : p.1.view a' = { ((s.view a).grow g).setTealet t (some r) with current := cur })
  | begun {a' : Saved} {own' : StackId → List ChunkId} {g : Growth}
      (hsp : sp < far) (hg : (s.view a).growth none F true s.heap.allocs = g)
      (hok : g.failed = false)
      (hrep : HeapRep p.1.heap a' own') (hb : p.2 = ⟨k, .saved, some null⟩)
      (hT : p.1.gTarget = none) (ha : p.1.gArg = null) (hprev : p.1.gPrevious = some cur)
      (hflags : p.1.gFlags = s.gFlags) (he : s.env.SameConfig p.1.env)
      (hview : p.1.view a' = v g)

theorem chooseFate_quiet {g : Growth} {f : TFlags} (hq : f.quiet = f) :
    (chooseFate g f true sp k).1 = (chooseFate g {} true sp k).1 := by
  obtain ⟨hq₁, -⟩ := TFlags.quiet_eq.mp hq
  simp [chooseFate, hq₁]

theorem suspend_of_chooseFate {g : Growth} {fate : Fate}
    (h : (chooseFate g {} true sp k).1 = some fate) : g.failed = false ∧ fate = .suspend sp k := by
  obtain ⟨hf, hch⟩ := chosen_of_chooseFate h
  refine ⟨hf, ?_⟩
  cases hch with
  | suspend => rfl
  | lose _ hf => cases hf
  | exit he => cases he
  | exitDelete he => cases he

/-- A switch between two tealets without a stack. -/
theorem Inv.begin_spec (I : Inv leak s a) (hnew : s.tealets t = some {}) (C : Child r)
    {cur tgt : TealetId} {rc rt : TealetSub}
    (R : Ready (s.begin t r cur) a tgt rc rt true) (hq : rc.flags.quiet = rc.flags)
    (hact : rt.flags.Active) (hs : rt.stack = none) (hsp : sp < spFurthest)
    (hE : External E s.env s.mem rc rt sp sp) :
    Sat E (Begun s a t cur r rt.stackFar rc.stackFar k sp (fun g =>
        { (((s.begin t r cur).view a).grow g).save cur rc rt.stackFar sp k with
          current := tgt, live := tgt }))
      (switchstack (s.begin t r cur) tgt null k sp) := by
  have hclear : (s.begin t r cur).clearPanic = s.begin t r cur := by
    simp only [State.clearPanic, State.begin]
    rw [← I.panic]
  have hgf : ({ (s.begin t r cur).gFlags with panic := false } : GFlags) = s.gFlags :=
    congrArg State.gFlags hclear
  have hgrowth : ((s.begin t r cur).view a).growth rt.stack rt.stackFar true
      (s.begin t r cur).heap.allocs = (s.view a).growth none rt.stackFar true s.heap.allocs := by
    rw [begin_growth hnew C, hs]
    rfl
  have hresume : ∀ g : Growth, g.resume rt k sp = (k, sp) := by
    intro g
    simp only [Growth.resume, hs, Option.bind_none]
  have hcq : ({ rc with flags := rc.flags.quiet } : TealetSub) = rc := by rw [hq]
  obtain ⟨hq₁, hq₂, hq₃⟩ := TFlags.quiet_eq.mp hq
  refine (switchstack_spec R (by rw [hresume]; exact fun _ _ => hE)).imp ?_
  rintro p hp
  cases hp with
  | exited hx => rw [hact.exited] at hx; cases hx
  | defunct _ hd => rw [hact.defunct] at hd; cases hd
  | spoiled _ _ hk => rw [hs] at hk; cases hk
  | rejected hx hd hrej hp =>
      rw [hclear] at hp
      exact .refused (e := s.env) (.inl rfl) (.refl _) hp
  | @tampered e e' hx hd hg hs' he hp =>
      refine .refused (.inr rfl) he (hp.trans (Prod.ext ?_ rfl))
      simp only [State.clearPanic, State.begin, ← I.panic]
  | @nomem a' own' hx hd hrej hfate hrep hal hb hT ha hprev hfl he harm hview =>
      rw [hgrowth] at hfate hview
      rw [chooseFate_quiet hq] at hfate
      refine .nomem rfl hfate hrep hb hT ha hprev (hfl.trans hgf) he (hview.trans ?_)
      have hrc : ({ rc with flags := { rc.flags with saveforce := false } } : TealetSub) = rc := by
        rw [← hq₃]
      rw [hrc]
      have hcur : (s.begin t r cur).tealets cur = some rc := R.cur
      show View.setTealet _ cur (some rc) = _
      simp only [begin_view, View.setTealet, View.grow]
      rw [← show Function.update s.tealets t (some r) cur = some rc from hcur]
      simp only [State.view, Function.update_eq_self]
  | @moved a' own' fate hx hd hv hrej hfate hrep hal hb hT ha hprev hfl he hview =>
      rw [hgrowth] at hfate hview hb
      rw [chooseFate_quiet hq] at hfate
      obtain ⟨hok, rfl⟩ := suspend_of_chooseFate hfate
      refine .begun (lt_of_verifyRecord hv hsp) rfl hok hrep ?_ hT ha hprev (hfl.trans hgf) he
        (hview.trans ?_)
      · rw [hb, hresume, show (s.begin t r cur).gFlags.panic = false from I.panic, if_pos hs]
        simp
      · simp only [View.transfer, hs, Option.bind_none, hcq]
        rfl

theorem Inv.start_spec (I : Inv leak s a) (hc : s.tealets s.gCurrent = some c)
    (hnew : s.tealets t = some {}) (C : Child r) (hsp : sp < spFurthest)
    (hE : External E s.env s.mem c r sp sp) :
    Sat E (Begun s a t s.gCurrent r r.stackFar c.stackFar k sp (fun g =>
        (((s.view a).grow g).save s.gCurrent c r.stackFar sp k).arrive t r))
      (switchstack (s.begin t r s.gCurrent) t null k sp) := by
  obtain ⟨-, -, hq⟩ := I.running hc
  obtain ⟨htc, -⟩ := I.child_ne hnew
  have hv : ∀ g,
      ({ (((s.begin t r s.gCurrent).view a).grow g).save s.gCurrent c r.stackFar sp k with
      current := t, live := t } : View) =
      (((s.view a).grow g).save s.gCurrent c r.stackFar sp k).arrive t r := by
    intro g
    simp only [begin_view, View.grow, View.save, View.setTealet, View.arrive]
    rw [Function.update_comm htc]
  have h := I.begin_spec (k := k) hnew C (I.start_ready hc hnew C) hq C.active C.stack hsp hE
  simp only [hv] at h
  exact h

theorem Inv.capture_spec (I : Inv leak s a) (hc : s.tealets s.gCurrent = some c)
    (hnew : s.tealets t = some {}) (C : Child r) (hsp : sp < spFurthest)
    (hE : External E s.env s.mem r c sp sp) :
    Sat E (Begun s a t t r c.stackFar r.stackFar k sp (fun g =>
        ((s.view a).grow g).save t r c.stackFar sp k))
      (switchstack (s.begin t r t) s.gCurrent null k sp) := by
  obtain ⟨hact, hs, hq⟩ := I.running hc
  have hv : ∀ g, ({ (((s.begin t r t).view a).grow g).save t r c.stackFar sp k with
      current := s.gCurrent, live := s.gCurrent } : View) =
      ((s.view a).grow g).save t r c.stackFar sp k := by
    intro g
    have hlive : s.live = s.gCurrent := I.sched.live
    simp only [View.grow, View.save, State.view, State.begin, Function.update_idem, hlive]
  have h := I.begin_spec (k := k) hnew C (I.capture_ready hc hnew C) C.quiet hact hs hsp hE
  simp only [hv] at h
  exact h

end Start

end Tealet
