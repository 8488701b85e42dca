import Tealet.Sched
import Tealet.Transfer

/-!
# What `tealet_xfer_inner` does

`Inv` is the invariant of the states in which user code runs. From such a
state an attempt to transfer is refused and changes nothing but the watch
and a cached defunct flag, or ends in `TEALET_ERR_MEM` with the list grown
as far as it went, or is the jump of the view that the target asks for.
-/

namespace Tealet

open DList Slice Hoare

structure Inv (leak : StackId → Nat) (s : State) (a : Saved) : Prop where
  rep : ∃ own, HeapRep s.heap a own
  core : Core leak (s.view a)
  sched : Sched (s.view a)
  gTarget : s.gTarget = none
  panic : s.gFlags.panic = false

/-- The flags of the running tealet while an attempt is under way. -/
def TFlags.armed (f : TFlags) (flags : XFlags) (isExit : Bool) : TFlags :=
  { f with exiting := isExit, autodelete := isExit && flags.delete, saveforce := flags.force }

/-- The image a tealet with the record `r` is resumed from. -/
structure Resumes (a : Saved) (r : TealetSub) (k : StackId) (im : Image) : Prop where
  exited : r.flags.exited = false
  defunct : r.flags.defunct = false
  stack : r.stack = some k
  img : a.img k = some im
  live : im.defunct = false

section Xfer

variable {leak : StackId → Nat} {E : Fault → Prop} {s : State} {a : Saved} {t : TealetId}
  {c r : TealetSub} {flags : XFlags} {isExit : Bool} {sp : Nat} {k : Frame} {arg : Ptr}

theorem Inv.running (I : Inv leak s a) (hc : s.tealets s.gCurrent = some c) :
    c.flags.Active ∧ c.stack = none ∧ c.flags.quiet = c.flags := by
  obtain ⟨hact, hs⟩ := I.sched.current_of hc
  exact ⟨hact, hs, (I.core.record _ c hc).quiet⟩

theorem armed_quiet {f : TFlags} (flags : XFlags) (isExit : Bool) (hq : f.quiet = f) :
    (f.armed flags isExit).quiet = f := by
  rw [← hq]
  rfl

/-- Another record of the running tealet changes nothing a growth depends on. -/
theorem growth_setTealet {v : View} {x : TealetId} (hc : v.tealets x = some c) (c' : TealetSub)
    (hs : c'.stack = c.stack) (target : Option StackId) (F : Nat) (failOk : Bool)
    (allocs : List Bool) :
    (v.setTealet x (some c')).growth target F failOk allocs = v.growth target F failOk allocs := by
  have hstack : (v.setTealet x (some c')).stackOf = v.stackOf := by
    rw [stackOf_setTealet, Option.bind_some, hs, ← stackOf_eq hc, Function.update_eq_self]
  simp only [View.growth, hstack]
  rfl

theorem depart_setTealet {v : View} {c' : Option TealetSub} {g : Growth} {F : Nat} {fate : Fate} :
    (((v.setTealet v.current c').grow g).depart c F fate) = (v.grow g).depart c F fate := by
  cases fate <;> simp [View.depart, View.save, View.grow, View.setTealet]

theorem setTealet_back {v : View} {x : TealetId} (hc : v.tealets x = some c) (g : Growth)
    (o o' : Option TealetSub) :
    (((v.setTealet x o).grow g).setTealet x o').setTealet x (some c) = v.grow g := by
  simp only [View.setTealet, View.grow, Function.update_idem]
  rw [← hc, Function.update_eq_self]

/-- The state in which `tealet_xfer_inner` switches stacks. -/
def State.armed (s : State) (c : TealetSub) (flags : XFlags) (isExit : Bool) : State :=
  { s with
    tealets := Function.update s.tealets s.gCurrent
      (some { c with flags := c.flags.armed flags isExit })
    gFlags := { s.gFlags with panic := s.gFlags.panic || flags.panic } }

theorem armed_growth (hc : s.tealets s.gCurrent = some c) (target : Option StackId) (F : Nat)
    (failOk : Bool) (allocs : List Bool) :
    ((s.armed c flags isExit).view a).growth target F failOk allocs =
      (s.view a).growth target F failOk allocs :=
  growth_setTealet (v := s.view a) hc { c with flags := c.flags.armed flags isExit } rfl
    target F failOk allocs

theorem eq_main_of_far (I : Inv leak s a) (hr : s.tealets t = some r)
    (hfar : r.stackFar = spFurthest) : t = mainId := by
  by_contra hm
  exact Nat.lt_irrefl _ (hfar ▸ (I.core.record t r hr).far_lt hm)

theorem Inv.ready (I : Inv leak s a) (hc : s.tealets s.gCurrent = some c)
    (hr : s.tealets t = some r) (ht : t ≠ s.gCurrent)
    (hexit : isExit = true → s.gCurrent ≠ mainId) :
    Ready (s.armed c flags isExit) a t { c with flags := c.flags.armed flags isExit } r
      (mayFail s.gCurrent flags) := by
  obtain ⟨hact, hs, hq⟩ := I.running hc
  have hmain : ∀ x im, a.img x = some im → im.far = spFurthest →
      (s.view a).stackOf mainId = some x ∧ im.refcount = 1 := by
    intro x im him hfar
    have hI := I.core.image x im him
    have hm := hI.unbounded hfar
    exact ⟨hm, (hI.ofMain hm).1⟩
  refine ⟨I.rep, Function.update_self .., (Function.update_of_ne ht _ _).trans hr, ht, hact.exited,
    ?_, rfl, ?_, ?_, ?_, hexit, ?_, ?_⟩
  · intro x hx
    exact (I.core.owned t r x hr hx).imp fun _ h => h.1
  · intro x hx im him
    obtain ⟨im', him', hd, htop⟩ := I.core.listed x hx
    obtain rfl := Option.some.inj (him'.symm.trans him)
    refine ⟨hd, htop, fun hno hfin => hno ?_, fun hk hlt _ => ?_⟩
    · have hfar : im'.far = spFurthest := by
        have := (I.core.image x im' him).far_le
        omega
      have hrfar : r.stackFar = spFurthest := by
        have := (I.core.record t r hr).far_le
        omega
      obtain rfl := eq_main_of_far I hr hrfar
      obtain ⟨hm, href⟩ := hmain x im' him hfar
      exact ⟨(stackOf_eq (v := s.view a) hr).symm.trans hm, Nat.le_of_eq href⟩
    · obtain ⟨im₀, him₀, hfar⟩ := I.core.owned t r x hr hk
      obtain rfl := Option.some.inj (him₀.symm.trans him)
      refine Nat.le_of_eq (hfar ?_)
      rintro rfl
      have h := ((I.core.image x _ him).ofMain ((stackOf_eq (v := s.view a) hr).trans hk)).1
      omega
  · intro hfar
    have hm : s.gCurrent = mainId := eq_main_of_far I hc hfar
    refine ⟨?_, (I.sched.unbounded c (hm ▸ hc) hfar).1 hm⟩
    cases hx : isExit with
    | false => rfl
    | true => exact absurd hm (hexit hx)
  · intro hfar hf
    obtain rfl := eq_main_of_far I hr hfar
    rw [armed_growth hc] at hf ⊢
    exact I.sched.keep_nil I.core hr hfar hf
  · intro _ hfin
    have hcfar : c.stackFar = spFurthest := by
      have h₁ := (I.core.record _ c hc).far_le
      have h₂ := (I.core.record t r hr).far_le
      have h₃ : min c.stackFar r.stackFar = spFurthest := hfin
      omega
    have hrfar : r.stackFar = spFurthest := by
      have h₁ := (I.core.record _ c hc).far_le
      have h₂ := (I.core.record t r hr).far_le
      have h₃ : min c.stackFar r.stackFar = spFurthest := hfin
      omega
    exact ht ((eq_main_of_far I hr hrfar).trans (eq_main_of_far I hc hcfar).symm)
  · intro hx
    have hx : isExit = false := hx
    simp [TFlags.armed, hx]

/-- What an attempt to transfer ends in. -/
inductive Attempted (s : State) (a : Saved) (t : TealetId) (arg : Ptr) (flags : XFlags)
    (isExit : Bool) (k : Frame) (sp : Nat) (c r : TealetSub) (p : State × Back) : Prop where
  | unbound (hb : r.flags.bound = false) (hp : p = (s, ⟨.api, .err .inval, none⟩))
  | toSelf (ht : t = s.gCurrent) (hp : p = if isExit then (s, ⟨.api, .err .inval, none⟩)
      else ({ s with gPrevious := some s.gCurrent },
        ⟨.api, if flags.panic then .err .panic else .ok, none⟩))
  | exited (hx : r.flags.exited = true) (hp : p = (s, ⟨k, .err .inval, none⟩))
  | defunct (hx : r.flags.exited = false) (hd : r.flags.defunct = true)
      (hp : p = (s, ⟨k, .err .defunct, none⟩))
  | spoiled {kt : StackId} {im : Image} (hx : r.flags.exited = false)
      (hd : r.flags.defunct = false) (hk : r.stack = some kt) (him : a.img kt = some im)
      (hdim : im.defunct = true)
      (hp : p = (s.setTealet t { r with flags := { r.flags with defunct := true } },
        ⟨k, .err .defunct, none⟩))
  | rejected {kt : StackId} {im : Image} (hu : Resumes a r kt im)
      (hrej : callerRejected s.env c.stackFar sp = true) (hp : p = (s, ⟨k, .err .inval, none⟩))
  | tampered {kt : StackId} {im : Image} {e e' : Env} (hu : Resumes a r kt im)
      (hg : guardUnprotectCurrent s.env = .ok e')
      (hs : snapshotVerifyCurrent e' s.mem = .ok (e, some .integrity))
      (he : s.env.SameConfig e) (hp : p = ({ s with env := e }, ⟨k, .err .integrity, none⟩))
  | nomem {kt : StackId} {im : Image} {a' : Saved} {own' : StackId → List ChunkId} {g : Growth}
      (ht : t ≠ s.gCurrent) (hu : Resumes a r kt im)
      (hg : (s.view a).growth r.stack r.stackFar (mayFail s.gCurrent flags) s.heap.allocs = g)
      (hfate : (chooseFate g { c.flags with
        exiting := isExit, autodelete := isExit && flags.delete }
        (mayFail s.gCurrent flags) sp k).1 = none)
      (hrep : HeapRep p.1.heap a' own')
      (hal : p.1.heap.allocs = (chooseFate g { c.flags with
        exiting := isExit, autodelete := isExit && flags.delete }
        (mayFail s.gCurrent flags) sp k).2)
      (hb : p.2 = ⟨k, .err .mem, none⟩) (hT : p.1.gTarget = none) (ha : p.1.gArg = null)
      (hprev : p.1.gPrevious = s.gPrevious) (hflags : p.1.gFlags = s.gFlags)
      (he : s.env.SameConfig p.1.env)
      (harm : ∃ e, s.env.SameConfig e ∧ armEnv e s.mem c sp = .ok p.1.env)
      (hview : p.1.view a' = (s.view a).grow g)
  | moved {kt : StackId} {im im' : Image} {a' : Saved} {own' : StackId → List ChunkId} {g : Growth}
      {fate : Fate} (ht : t ≠ s.gCurrent) (hexit : isExit = true → s.gCurrent ≠ mainId)
      (hu : Resumes a r kt im) (hv : verifyRecord c sp = .ok ())
      (hg : (s.view a).growth r.stack r.stackFar (mayFail s.gCurrent flags) s.heap.allocs = g)
      (hfate : (chooseFate g { c.flags with
        exiting := isExit, autodelete := isExit && flags.delete }
        (mayFail s.gCurrent flags) sp k).1 = some fate)
      (him' : g.img kt = some im') (hrep : HeapRep p.1.heap a' own')
      (hal : p.1.heap.allocs = (chooseFate g { c.flags with
        exiting := isExit, autodelete := isExit && flags.delete }
        (mayFail s.gCurrent flags) sp k).2)
      (hb : p.2 = ⟨im.frame, if flags.panic then .err .panic else .ok, some arg⟩)
      (hT : p.1.gTarget = none) (ha : p.1.gArg = null)
      (hprev : p.1.gPrevious = fate.previous s.gCurrent (some s.gCurrent))
      (hflags : p.1.gFlags = s.gFlags) (he : s.env.SameConfig p.1.env)
      (hview : p.1.view a' = ((s.view a).grow g |>.depart c r.stackFar fate).restore t r kt im')

/-- The call is one of the running tealet's own transfers. -/
def OwnFrame (s : State) (isExit : Bool) (k : Frame) : Prop :=
  if isExit then ∃ implicit, k = .exit s.gCurrent implicit else ∃ out, k = .switch s.gCurrent out

/-- An error takes the one-shot flags back. -/
theorem leaveXfer_own (s' : State) {f : TFlags} (hk : OwnFrame s isExit k)
    (hc : s'.tealets s.gCurrent = some { c with flags := f }) (hf : f.quiet = c.flags) {e : Err}
    (he : e ≠ .panic) (x : Option Ptr) :
    leaveXfer s' ⟨k, .err e, x⟩ = .ok (s'.setTealet s.gCurrent c) := by
  have hclear : ({ { c with flags := f } with flags :=
      { f with exiting := false, autodelete := false, saveforce := false } } : TealetSub) = c := by
    show { c with flags := f.quiet } = c
    rw [hf]
  unfold OwnFrame at hk
  split at hk
  · obtain ⟨i, rfl⟩ := hk
    simp only [leaveXfer, tealet_of hc, ok_bind, require_of he]
    rw [hclear]
    rfl
  · obtain ⟨out, rfl⟩ := hk
    simp only [leaveXfer, tealet_of hc, ok_bind]
    rw [hclear]
    rfl

theorem State.setTealet_comm {s : State} {x : TealetId} (r rx : TealetSub) (h : t ≠ x) :
    (s.setTealet t r).setTealet x rx = (s.setTealet x rx).setTealet t r := by
  simp only [State.setTealet, Function.update_comm h]

theorem armed_restore (flags : XFlags) (isExit : Bool) (hc : s.tealets s.gCurrent = some c)
    (hp : s.gFlags.panic = false) (e : Env) :
    (({ s.armed c flags isExit with env := e } : State).clearPanic).setTealet s.gCurrent c =
      { s with env := e } := by
  have ht : Function.update (Function.update s.tealets s.gCurrent
      (some { c with flags := c.flags.armed flags isExit })) s.gCurrent (some c) = s.tealets := by
    rw [Function.update_idem, ← hc, Function.update_eq_self]
  have hf : ({ s.gFlags with panic := false } : GFlags) = s.gFlags := by rw [← hp]
  simp only [State.clearPanic, State.setTealet, State.armed, ht, hf]

theorem armed_transfer (hq : c.flags.quiet = c.flags) {g : Growth} {fate : Fate} {kt : StackId}
    {im : Image} (hkt : r.stack = some kt) (him : g.img kt = some im) :
    ({ ((s.armed c flags isExit).view a).transfer t { c with flags := c.flags.armed flags isExit } r
        g fate with current := t, live := t } : View) =
      (((s.view a).grow g).depart c r.stackFar fate).restore t r kt im := by
  have hc' : ({ { c with flags := c.flags.armed flags isExit } with
      flags := (c.flags.armed flags isExit).quiet } : TealetSub) = c := by
    show { c with flags := (c.flags.armed flags isExit).quiet } = c
    rw [armed_quiet _ _ hq]
  have hd : ((((s.armed c flags isExit).view a).grow g).depart c r.stackFar fate) =
      ((s.view a).grow g).depart c r.stackFar fate :=
    depart_setTealet (v := s.view a)
  simp only [View.transfer, hkt, Option.bind_some, him, Option.map_some, hc', hd, View.restore,
    depart_mem]
  rfl

theorem lt_of_verifyRecord (hv : verifyRecord c sp = .ok ()) (hsp : sp < spFurthest) :
    sp < c.stackFar := by
  unfold verifyRecord at hv
  obtain ⟨-, -, hv⟩ := bind_ok hv
  split at hv
  · rename_i hfar
    rw [hfar]
    exact hsp
  · obtain ⟨-, -, hv⟩ := bind_ok hv
    unfold require at hv
    split at hv
    · assumption
    · cases hv

/-- A transfer frees no record but that of a tealet that exits and is deleted. -/
theorem restore_tealets_ne_none {v : View} {F : Nat} {g : Growth} {fate : Fate} {kt : StackId}
    {im : Image} {x : TealetId} (hx : x = v.current → fate ≠ .exitDelete)
    (hrx : v.tealets x ≠ none) :
    (((v.grow g).depart c F fate).restore t r kt im).tealets x ≠ none := by
  obtain ⟨h, -⟩ := release_tealets { (v.grow g).depart c F fate with
    mem := im.value ((v.grow g).depart c F fate).mem } kt im
  show Function.update (View.release _ kt im).tealets t _ x ≠ none
  rw [h]
  by_cases hxt : x = t
  · rw [hxt, Function.update_self]
    nofun
  rw [Function.update_of_ne hxt]
  show ((v.grow g).depart c F fate).tealets x ≠ none
  by_cases hxc : x = v.current
  · subst hxc
    cases fate with
    | exitDelete => exact absurd rfl (hx rfl)
    | _ => simp [View.depart, View.save, View.grow, View.setTealet, Fate.record]
  · rw [depart_tealets_of_ne (v.grow g) c F fate hxc]
    exact hrx

/-- The tealet that is resumed in a `tealet_switch` under PANIC finds the
record of the caller, which a duplicate shares with its source. -/
def PanicSafe (s : State) (a : Saved) (r : TealetSub) (flags : XFlags) (isExit : Bool)
    (E : Fault → Prop) : Prop :=
  flags.panic = true → E .freed ∨ ∀ kt im g out, r.stack = some kt → a.img kt = some im →
    im.frame = .switch g out → Alive s g ∧
      (isExit = true → flags.delete = true → g ≠ s.gCurrent)

theorem Inv.attempt_spec (I : Inv leak s a) (hc : s.tealets s.gCurrent = some c)
    (hr : s.tealets t = some r) (ht : t ≠ s.gCurrent) (hb : r.flags.bound = true)
    (hexit : isExit = true → s.gCurrent ≠ mainId) (hsp : sp < spFurthest)
    (hk : OwnFrame s isExit k)
    (hE : r.flags.exited = false → Usable a r → External E s.env s.mem c r sp
      (((s.view a).growth r.stack r.stackFar (mayFail s.gCurrent flags) s.heap.allocs).resume
        r k sp).2)
    (hpan : PanicSafe s a r flags isExit E) :
    Sat E (Attempted s a t arg flags isExit k sp c r)
      (switchstack (s.armed c flags isExit) t arg k sp >>= fun p =>
        leaveXfer p.1 p.2 >>= fun s' => .ok (s', p.2)) := by
  obtain ⟨hact, hs, hq⟩ := I.running hc
  have hcur : (s.armed c flags isExit).tealets s.gCurrent =
      some { c with flags := c.flags.armed flags isExit } := Function.update_self ..
  have hflags : (s.armed c flags isExit).gFlags.panic = flags.panic := by
    simp [State.armed, I.panic]
  have hvr : verifyRecord { c with flags := c.flags.armed flags isExit } sp = verifyRecord c sp :=
    verifyRecord_congr rfl rfl
  have hE' : r.flags.exited = false → Usable a r →
      External E (s.armed c flags isExit).env (s.armed c flags isExit).mem
      { c with flags := c.flags.armed flags isExit } r sp
      ((((s.armed c flags isExit).view a).growth r.stack r.stackFar (mayFail s.gCurrent flags)
        s.heap.allocs).resume r k sp).2 := by
    intro hx hu
    replace hE := hE hx hu
    rw [armed_growth hc]
    exact ⟨hvr ▸ hE.verify, hE.watch,
      fun e m h => sat_armEnv_congr rfl rfl (hE.rearm e m h), hE.arm⟩
  have hresumes : r.flags.exited = false → Usable a r →
      ∃ kt im, Resumes a r kt im := by
    rintro hx ⟨hd, himg⟩
    cases hkt : r.stack with
    | none => exact absurd hkt (I.sched.suspended t r hr ht ⟨hb, hx, hd⟩)
    | some kt =>
        obtain ⟨im, him, -⟩ := I.core.owned t r kt hr hkt
        exact ⟨kt, im, hx, hd, hkt, him, himg kt im hkt him⟩
  have hqa := armed_quiet flags isExit hq
  refine (switchstack_spec (I.ready hc hr ht hexit) hE').bind ?_
  rintro p hp
  cases hp with
  | exited hx hp =>
      subst hp
      refine Sat.run (leaveXfer_own (s.armed c flags isExit).clearPanic hk hcur hqa
        (by simp) _) ?_
      exact .exited hx (Prod.ext (armed_restore flags isExit hc I.panic s.env) rfl)
  | defunct hx hd hp =>
      subst hp
      refine Sat.run (leaveXfer_own (s.armed c flags isExit).clearPanic hk hcur hqa
        (by simp) _) ?_
      exact .defunct hx hd (Prod.ext (armed_restore flags isExit hc I.panic s.env) rfl)
  | @spoiled kt im hx hd hkt him hdim hp =>
      subst hp
      refine Sat.run (leaveXfer_own ((s.armed c flags isExit).setTealet t
        { r with flags := { r.flags with defunct := true } }).clearPanic hk
        ((Function.update_of_ne ht.symm _ _).trans hcur) hqa (by simp) _) ?_
      refine .spoiled hx hd hkt him hdim (Prod.ext ?_ rfl)
      have hback := armed_restore flags isExit hc I.panic s.env
      refine Eq.trans ?_ (congrArg (fun s' => State.setTealet s' t
        { r with flags := { r.flags with defunct := true } }) hback)
      exact State.setTealet_comm (s := (s.armed c flags isExit).clearPanic) _ _ ht
  | rejected hx hd hrej hp =>
      subst hp
      obtain ⟨kt, im, hu⟩ := hresumes hx hd
      refine Sat.run (leaveXfer_own (s.armed c flags isExit).clearPanic hk hcur hqa
        (by simp) _) ?_
      exact .rejected hu hrej (Prod.ext (armed_restore flags isExit hc I.panic s.env) rfl)
  | @tampered e e' hx hd hg hs he hp =>
      subst hp
      obtain ⟨kt, im, hu⟩ := hresumes hx hd
      refine Sat.run
        (leaveXfer_own ({ s.armed c flags isExit with env := e } : State).clearPanic hk hcur hqa
        (by simp) _) ?_
      exact .tampered hu hg hs he (Prod.ext (armed_restore flags isExit hc I.panic e) rfl)
  | @nomem a' own' hx hd hrej hfate hrep hal hb' hT ha hprev hfl he harm hview =>
      obtain ⟨kt, im, hu⟩ := hresumes hx hd
      rw [armed_growth hc] at hfate hal hview
      have hcur' : p.1.tealets s.gCurrent = some { c with
          flags := { c.flags.armed flags isExit with saveforce := false } } := by
        have h := congrArg (fun v => View.tealets v s.gCurrent) hview
        exact h.trans (Function.update_self ..)
      obtain ⟨p₁, p₂⟩ := p
      dsimp only at hb' hcur' hrep hal hT ha hprev hfl he harm hview
      subst hb'
      refine Sat.run (leaveXfer_own _ hk hcur' hqa (by simp) _) ?_
      refine .nomem ht hu rfl hfate hrep hal rfl hT ha hprev ?_ he harm ?_
      · refine hfl.trans ?_
        rw [← I.panic]
        rfl
      · show (p₁.view a').setTealet s.gCurrent (some c) = _
        rw [hview]
        exact setTealet_back (v := s.view a) hc _ _ _
  | @moved a' own' fate hx hd hv hrej hfate hrep hal hb' hT ha hprev hfl he hview =>
      obtain ⟨kt, im, hu⟩ := hresumes hx hd
      rw [armed_growth hc, show (s.armed c flags isExit).heap.allocs = s.heap.allocs from rfl]
        at hfate hal hview hb'
      generalize hg : (s.view a).growth r.stack r.stackFar (mayFail s.gCurrent flags)
        s.heap.allocs = g at hfate hal hview hb'
      obtain ⟨im', him', hkept⟩ : ∃ im', g.img kt = some im' ∧ im.Kept im' :=
        hg ▸ growList_kept hu.img
      replace hview := hview.trans (armed_transfer hq hu.stack him')
      have hresume : (g.resume r k sp).1 = im.frame := by
        simp only [Growth.resume, hu.stack, Option.bind_some, him', hkept.frame]
      have hns : r.stack ≠ none := by
        rw [hu.stack]
        exact Option.some_ne_none kt
      rw [hresume, hflags, if_neg hns] at hb'
      obtain ⟨p₁, p₂⟩ := p
      dsimp only at hb' hrep hal hT ha hprev hfl he hview
      subst hb'
      have hfl : p₁.gFlags = s.gFlags := by
        refine hfl.trans ?_
        rw [← I.panic]
        rfl
      have hmoved : ∀ b, b = ⟨im.frame, if flags.panic then .err .panic else .ok, some arg⟩ →
          Attempted s a t arg flags isExit k sp c r (p₁, b) := fun b hb =>
        .moved ht hexit hu ((hvr).symm.trans hv) hg hfate him' hrep hal hb hT ha hprev hfl he hview
      have hleaves : Leaves { c.flags with exiting := isExit, autodelete := isExit && flags.delete }
          (mayFail s.gCurrent flags) (s.gCurrent = mainId) c sp k := by
        refine ⟨hexit, fun hf hm => by simp [mayFail, hm] at hf, fun he => ?_⟩
        have he : isExit = false := he
        rw [OwnFrame, he, if_neg (by simp)] at hk
        obtain ⟨out, rfl⟩ := hk
        exact ⟨lt_of_verifyRecord (hvr ▸ hv) hsp, True.intro, rfl, rfl⟩
      have hfate₁ : (chooseFate g { c.flags with
          exiting := isExit, autodelete := isExit && flags.delete } (mayFail s.gCurrent flags) sp
          k).1 = some fate := hfate
      obtain ⟨hcore, -, -⟩ :=
        transfer_good I.core I.sched hc hr ht ⟨hb, hx, hd.1⟩ hu.stack hu.img hg
        hfate₁ him' hleaves
      have hres := (I.core.image kt im hu.img).resumable
      cases hfr : im.frame with
      | api => rw [hfr] at hres; exact hres.elim
      | exit g i => rw [hfr] at hres; exact hres.elim
      | run => exact Sat.run rfl (hmoved _ (by rw [hfr]))
      | fork => exact Sat.run rfl (hmoved _ (by rw [hfr]))
      | switch g out =>
          cases hp : flags.panic with
          | false => exact Sat.run rfl (hmoved _ (by rw [hfr, hp]))
          | true =>
              cases hgr : p₁.tealets g with
              | some rg =>
                  have hquiet : rg.flags.quiet = rg.flags := by
                    refine (hcore.record g rg ?_).quiet
                    rw [← hview]
                    exact hgr
                  refine Sat.run (a := p₁) ?_ (hmoved _ (by rw [hfr, hp]))
                  have hclear : p₁.setTealet g { rg with flags := { rg.flags with
                      exiting := false, autodelete := false, saveforce := false } } = p₁ := by
                    show p₁.setTealet g { rg with flags := rg.flags.quiet } = p₁
                    rw [hquiet, State.setTealet, ← hgr, Function.update_eq_self]
                  simp only [leaveXfer, if_true, tealet_of hgr, ok_bind, hclear]
                  rfl
              | none =>
                  rcases hpan hp with hE | hg
                  · refine sat_bind.mpr ?_
                    simp only [leaveXfer, if_true, State.tealet, hgr]
                    exact hE
                  · obtain ⟨hlive, hdel⟩ := hg kt im g out hu.stack hu.img hfr
                    have hsame : p₁.tealets g ≠ none := by
                      rw [show p₁.tealets = (p₁.view a').tealets from rfl, hview]
                      refine restore_tealets_ne_none ?_ (Option.isSome_iff_ne_none.mp hlive)
                      rintro hgc rfl
                      obtain ⟨-, hch⟩ := chosen_of_chooseFate hfate₁
                      cases hch with
                      | exitDelete he ha =>
                          exact hdel he (Bool.and_eq_true_iff.mp ha).2 hgc
                    exact absurd hgr hsame

/-- `tealet_xfer_inner` past its checks stages the transfer and makes it. -/
theorem Inv.xferInner_armed (I : Inv leak s a) (hc : s.tealets s.gCurrent = some c)
    (hr : s.tealets t = some r) (hb : r.flags.bound = true) (ht : t ≠ s.gCurrent)
    (hexit : isExit = true → s.gCurrent ≠ mainId) :
    xferInner s t arg flags isExit k sp =
      (switchstack (s.armed c flags isExit) t arg k sp >>= fun p =>
        leaveXfer p.1 p.2 >>= fun s' => .ok (s', p.2)) := by
  obtain ⟨hact, hs, hq⟩ := I.running hc
  obtain ⟨hq₁, hq₂, hq₃⟩ := TFlags.quiet_eq.mp hq
  unfold xferInner
  simp only [tealet_of hr, tealet_of hc, ok_bind]
  rw [if_neg (by simp [hb])]
  cases hx : isExit with
  | true =>
      rw [if_pos rfl, require_of (hexit hx), ok_bind, if_neg ht, require_of hs, ok_bind,
        require_of hq₂, ok_bind]
      have hstate : (if flags.panic = true then
          { s.setTealet s.gCurrent { c with flags := { c.flags with
              exiting := true, autodelete := flags.delete
              saveforce := c.flags.saveforce || flags.force } } with
            gFlags := { s.gFlags with panic := true } }
          else s.setTealet s.gCurrent { c with flags := { c.flags with
              exiting := true, autodelete := flags.delete
              saveforce := c.flags.saveforce || flags.force } }) = s.armed c flags true := by
        cases hp : flags.panic <;> simp [State.armed, TFlags.armed, State.setTealet, hq₃, hp]
      rw [← hstate]
      rfl
  | false =>
      rw [if_neg (by simp), if_neg ht]
      have hstate : (if flags.panic = true then
          { s.setTealet s.gCurrent { c with flags := { c.flags with
              saveforce := c.flags.saveforce || flags.force } } with
            gFlags := { s.gFlags with panic := true } }
          else s.setTealet s.gCurrent { c with flags := { c.flags with
              saveforce := c.flags.saveforce || flags.force } }) = s.armed c flags false := by
        cases hp : flags.panic <;> simp [State.armed, TFlags.armed, State.setTealet, hq₃,
          hq₁, hq₂, hp]
      rw [← hstate]
      rfl

theorem Inv.xferInner_spec (arg : Ptr) (I : Inv leak s a) (hc : s.tealets s.gCurrent = some c)
    (hr : s.tealets t = some r) (hsp : sp < spFurthest) (hk : OwnFrame s isExit k)
    (hmain : isExit = true → s.gCurrent = mainId → E (.assertion .xferInner))
    (hE : r.flags.exited = false → Usable a r → External E s.env s.mem c r sp
      (((s.view a).growth r.stack r.stackFar (mayFail s.gCurrent flags) s.heap.allocs).resume
        r k sp).2)
    (hpan : PanicSafe s a r flags isExit E) :
    Sat E (Attempted s a t arg flags isExit k sp c r) (xferInner s t arg flags isExit k sp) := by
  by_cases hb : r.flags.bound = false
  · unfold xferInner
    simp only [tealet_of hr, tealet_of hc, ok_bind]
    exact Sat.ite_true hb (.unbound hb rfl)
  have hb : r.flags.bound = true := by simpa using hb
  -- what precedes the transfer, for an exit and for a switch
  by_cases hm : isExit = true ∧ s.gCurrent = mainId
  · unfold xferInner
    simp only [tealet_of hr, tealet_of hc, ok_bind]
    refine Sat.ite_false (by simp [hb]) (Sat.ite_true hm.1 (sat_bind.mpr ?_))
    rw [show require Fn.xferInner (s.gCurrent ≠ mainId) = .error (.assertion .xferInner) from
      if_neg (fun h => h hm.2)]
    exact hmain hm.1 hm.2
  have hexit : isExit = true → s.gCurrent ≠ mainId := fun hx h => hm ⟨hx, h⟩
  by_cases ht : t = s.gCurrent
  · unfold xferInner
    simp only [tealet_of hr, tealet_of hc, ok_bind]
    refine Sat.ite_false (by simp [hb]) ?_
    cases hx : isExit with
    | true =>
        exact Sat.ite_true rfl (sat_require (hexit hx) (Sat.ite_true ht (.toSelf ht rfl)))
    | false => exact Sat.ite_false (by simp) (Sat.ite_true ht (.toSelf ht rfl))
  · rw [I.xferInner_armed hc hr hb ht hexit]
    exact I.attempt_spec hc hr ht hb hexit hsp hk hE hpan

end Xfer

end Tealet
