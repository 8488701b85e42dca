import Tealet.Trace

/-!
# What a call returns

`callStep_ends` says which moves a call makes; here is what user code sees
of it: whether the call returned to its caller or another call was resumed,
what the resumed call returns or is entered with, and what is left in
`g_previous`. Nothing is resumed by a transfer under PANIC but a
`tealet_switch`.
-/

namespace Tealet

open DList Slice Hoare

/-- What user code sees when the tealet `t`, suspended in the call, is
resumed with `arg`. -/
def Frame.delivers (t : TealetId) (arg : Ptr) (panic : Bool) : Frame → Outcome
  | .switch _ out => .returned (if panic then .err .panic else .ok) (if out then some arg else none)
  | .fork _ _ _ _ out => .returned .ok (if out then some arg else none)
  | .run result _ _ fn _ switchNow out spawned =>
      if switchNow then
        .returned .ok (if out then some arg else none) (if spawned then some result else none)
      else .entered fn t arg
  | _ => .returned .ok none

/-- What a call leaves alone that does not transfer control: who runs,
`g_previous`, which records there are and the calls they are suspended in. -/
structure Alike (s s' : State) : Prop where
  current : s'.gCurrent = s.gCurrent
  previous : s'.gPrevious = s.gPrevious
  alive : ∀ t, Alive s' t ↔ Alive s t
  nextTealet : s'.nextTealet = s.nextTealet
  frames : ∀ t, s'.frameOf t = s.frameOf t

namespace Alike

variable {s s₁ s₂ : State}

theorem refl (s : State) : Alike s s := ⟨rfl, rfl, fun _ => Iff.rfl, rfl, fun _ => rfl⟩

theorem trans (h : Alike s s₁) (h' : Alike s₁ s₂) : Alike s s₂ :=
  ⟨h'.current.trans h.current, h'.previous.trans h.previous,
    fun t => (h'.alive t).trans (h.alive t), h'.nextTealet.trans h.nextTealet,
    fun t => (h'.frames t).trans (h.frames t)⟩

end Alike

/-! ## Frames -/

section Frames

variable {leak : StackId → Nat} {s s' : State} {a a' : Saved} {own own' : StackId → List ChunkId}
  {t : TealetId}

/-- The call a tealet is suspended in, read off its image. -/
def View.frameOf (v : View) (t : TealetId) : Option Frame :=
  ((v.stackOf t).bind v.img).map Image.frame

theorem frameOf_view (H : HeapRep s.heap a own) (t : TealetId) :
    s.frameOf t = (s.view a).frameOf t := by
  unfold State.frameOf View.frameOf View.stackOf
  show _ = (((s.tealets t).bind TealetSub.stack).bind a.img).map Image.frame
  cases hr : s.tealets t with
  | none => rfl
  | some r =>
      cases hk : r.stack with
      | none => simp [hk]
      | some k =>
          cases him : a.img k with
          | none => simp [hk, him, (H.gone k him).1]
          | some im =>
              obtain ⟨st, hst, hrep⟩ := H.stack k im him
              simp [hk, him, hst, hrep.frame]

theorem frameOf_grow (v : View) (target : Option StackId) (F : Nat) (failOk : Bool)
    (allocs : List Bool) (t : TealetId) :
    (v.grow (v.growth target F failOk allocs)).frameOf t = v.frameOf t := by
  unfold View.frameOf
  show ((v.stackOf t).bind (v.growth target F failOk allocs).img).map Image.frame = _
  cases hk : v.stackOf t with
  | none => rfl
  | some k =>
      show ((v.growth target F failOk allocs).img k).map Image.frame = (v.img k).map Image.frame
      cases him : v.img k with
      | none => rw [View.growth_none him]
      | some im =>
          obtain ⟨im', him', hkept⟩ := View.growth_kept him target F failOk allocs
          rw [him', Option.map_some, hkept.frame, Option.map_some]

/-- Frames are read off the record and the images it may refer to. -/
theorem Core.frameOf_congr {v v' : View} (H : Core leak v) (ht : v'.tealets t = v.tealets t)
    (hi : ∀ k, k ≠ v.nextStack → v'.img k = v.img k) : v'.frameOf t = v.frameOf t := by
  unfold View.frameOf
  have hst : v'.stackOf t = v.stackOf t := congrArg (Option.bind · TealetSub.stack) ht
  rw [hst]
  cases hk : v.stackOf t with
  | none => rfl
  | some k =>
      obtain ⟨r, hr, hks⟩ := tealets_of_stackOf hk
      obtain ⟨im, him, -⟩ := H.owned t r k hr hks
      have hknown : k ≠ v.nextStack := by
        rintro rfl
        rw [(H.freshStack _ (Nat.le_refl _)).1] at him
        cases him
      rw [Option.bind_some, Option.bind_some, hi k hknown]

theorem Core.frameOf_depart {v : View} (H : Core leak v) (c : TealetSub) (F : Nat) (fate : Fate)
    (ht : t ≠ v.current) : (v.depart c F fate).frameOf t = v.frameOf t :=
  H.frameOf_congr (depart_tealets_of_ne v c F fate ht) fun _ hk => depart_img_of_ne v c F fate hk

theorem Core.frameOf_save {v : View} (H : Core leak v) {u : TealetId} (r : TealetSub) (F sp : Nat)
    (kf : Frame) (ht : t ≠ u) : (v.save u r F sp kf).frameOf t = v.frameOf t :=
  H.frameOf_congr (Function.update_of_ne ht ..) fun _ hk => Function.update_of_ne hk ..

theorem frameOf_setTealet (v : View) {u : TealetId} (o : Option TealetSub) (ht : t ≠ u) :
    (v.setTealet u o).frameOf t = v.frameOf t := by
  unfold View.frameOf
  rw [stackOf_setTealet, Function.update_of_ne ht]
  rfl

/-- The image that is restored outlives the transfer if it is shared. -/
theorem frameOf_restore {v : View} {u : TealetId} (r : TealetSub) {k : StackId} {im : Image}
    (him : v.img k = some im) (ht : t ≠ u) (hshared : v.stackOf t = some k → 1 < im.refcount) :
    (v.restore u r k im).frameOf t = v.frameOf t := by
  have hst : (v.restore u r k im).stackOf t = v.stackOf t := by
    unfold View.stackOf View.restore View.arrive
    rw [(release_tealets _ k im).1]
    exact congrArg (Option.bind · TealetSub.stack) (Function.update_of_ne ht ..)
  have himg : (v.restore u r k im).img = Function.update v.img k
      (if im.refcount ≤ 1 then none else some { im with refcount := im.refcount - 1 }) := by
    rw [View.restore, View.arrive, release_img]
  unfold View.frameOf
  rw [hst, himg]
  cases hx : v.stackOf t with
  | none => rfl
  | some x =>
      rw [Option.bind_some, Option.bind_some]
      by_cases hxk : x = k
      · subst hxk
        rw [Function.update_self, if_neg (Nat.not_le_of_lt (hshared hx)), him]
        rfl
      · rw [Function.update_of_ne hxk]

/-- A tealet that neither leaves nor arrives stays in the call it is suspended in. -/
theorem Core.frameOf_transfer {v : View} {c r : TealetSub} {k : StackId} {im : Image} {u : TealetId}
    (H : Core leak v) (hr : v.tealets u = some r) (hk : r.stack = some k) (him : v.img k = some im)
    (F : Nat) (fate : Fate) (ht : t ≠ v.current) (htu : t ≠ u) :
    ((v.depart c F fate).restore u r k im).frameOf t = v.frameOf t := by
  have hknown : k ≠ v.nextStack := by
    rintro rfl
    rw [(H.freshStack _ (Nat.le_refl _)).1] at him
    cases him
  have hdep := (depart_img_of_ne v c F fate hknown).trans him
  refine (frameOf_restore r hdep htu fun hst => ?_).trans (H.frameOf_depart c F fate ht)
  have hst : v.stackOf t = some k := by
    rw [← hst]
    exact (congrArg (Option.bind · TealetSub.stack) (depart_tealets_of_ne v c F fate ht)).symm
  obtain ⟨rt, hrt, -⟩ := tealets_of_stackOf hst
  by_contra hle
  have hc := H.counted k im him
  exact htu (Refs.unique_of_holders_le_one (by rw [View.refs] at hc; omega) (H.lt_nextTealet hrt)
    (H.lt_nextTealet hr) hst ((stackOf_eq hr).trans hk))

/-- States with the same records and the same frames behind them. -/
theorem Alike.of_view (H : HeapRep s.heap a own) (H' : HeapRep s'.heap a' own')
    (hcur : s'.gCurrent = s.gCurrent) (hprev : s'.gPrevious = s.gPrevious)
    (htl : s'.tealets = s.tealets) (hn : s'.nextTealet = s.nextTealet)
    (hfr : ∀ t, (s'.view a').frameOf t = (s.view a).frameOf t) : Alike s s' := by
  refine ⟨hcur, hprev, fun t => ?_, hn, fun t => ?_⟩
  · unfold Alive
    rw [htl]
  · rw [frameOf_view H, frameOf_view H', hfr]

end Frames

/-- Writing the flags of a record. -/
theorem Alike.setFlags {s : State} {t : TealetId} {r : TealetSub} (hr : s.tealets t = some r)
    (fl : TFlags) : Alike s (s.setTealet t { r with flags := fl }) := by
  refine ⟨rfl, rfl, fun u => ?_, rfl, fun u => ?_⟩
  · simp only [Alive, State.setTealet]
    by_cases hu : u = t
    · subst hu
      rw [Function.update_self, hr]
      rfl
    · rw [Function.update_of_ne hu]
  · simp only [State.frameOf, State.setTealet]
    by_cases hu : u = t
    · subst hu
      rw [Function.update_self, hr]
      rfl
    · rw [Function.update_of_ne hu]

/-! ## Attempts -/

section Attempts

variable {leak : StackId → Nat} {s s₁ : State} {a : Saved} {t : TealetId} {c r : TealetSub}
  {f : XFlags} {isExit : Bool} {k : Frame} {sp : Nat} {arg : Ptr} {b : Back} {q : Request}

/-- Which records are left when the tealet that runs has exited or is suspended. -/
def Remain (s : State) (gone : Bool) (s' : State) : Prop :=
  ∀ t, Alive s' t ↔ Alive s t ∧ ¬ (gone = true ∧ t = s.gCurrent)

/-- The three ways in which an attempt ends: in an error, as a switch to
the tealet that runs, in another tealet. -/
inductive Ended (s : State) (t : TealetId) (arg : Ptr) (f : XFlags) (isExit : Bool) (k : Frame)
    (s' : State) (b : Back) : Prop where
  | failed {e : Err} (hfr : b.frame = .api ∨ b.frame = k) (hb : b.rc = .err e ∧ b.arg = none)
      (he : e ≠ .panic) (hs : Alike s s')
  | toSelf (ht : t = s.gCurrent) (hx : isExit = false)
      (hb : b = ⟨.api, if f.panic then .err .panic else .ok, none⟩)
      (hs : s' = { s with gPrevious := some s.gCurrent })
  | moved {fr : Frame} (ht : t ≠ s.gCurrent) (hfr : s.frameOf t = some fr) (hres : fr.Resumable)
      (hb : b = ⟨fr, if f.panic then .err .panic else .ok, some arg⟩) (hcur : s'.gCurrent = t)
      (hprev : s'.gPrevious = if isExit && f.delete then none else some s.gCurrent)
      (hlive : Remain s (isExit && f.delete) s') (hn : s'.nextTealet = s.nextTealet)
      (hothers : ∀ u, u ≠ s.gCurrent → u ≠ t → s'.frameOf u = s.frameOf u)
      (hrun : ∃ r, s'.tealets t = some r ∧ r.stack = none)

theorem chooseFate_exitDelete {g : Growth} {fl : TFlags} {failOk : Bool} {fate : Fate}
    (h : (chooseFate g { fl with exiting := isExit, autodelete := isExit && f.delete } failOk sp
      k).1 = some fate) : fate = .exitDelete ↔ (isExit && f.delete) = true := by
  unfold chooseFate at h
  dsimp only at h
  split at h
  · cases h
  · cases isExit with
    | true =>
        rw [if_pos rfl] at h
        obtain rfl := Option.some.inj h
        cases f.delete <;> simp
    | false =>
        rw [if_neg Bool.false_ne_true] at h
        simp only [Bool.false_and, Bool.false_eq_true, iff_false]
        rintro rfl
        split at h
        · cases h
        · split at h <;> cases h

/-- Which records there are after a tealet left and another was restored. -/
theorem alive_transfer {v : View} (hc : v.tealets v.current = some c) (hr : v.tealets t = some r)
    (ht : t ≠ v.current) (g : Growth) (fate : Fate) (kt : StackId) (im : Image) (u : TealetId) :
    ((((v.grow g).depart c r.stackFar fate).restore t r kt im).tealets u).isSome = true ↔
      (v.tealets u).isSome = true ∧ ¬ (fate = .exitDelete ∧ u = v.current) := by
  have hrel := (release_tealets { (v.grow g).depart c r.stackFar fate with
    mem := im.value ((v.grow g).depart c r.stackFar fate).mem } kt im).1
  have hrest : (((v.grow g).depart c r.stackFar fate).restore t r kt im).tealets =
      Function.update ((v.grow g).depart c r.stackFar fate).tealets t
        (some { r with stack := none }) := by
    rw [View.restore, View.arrive, hrel]
  rw [hrest]
  by_cases hut : u = t
  · subst hut
    rw [Function.update_self, hr]
    simp [ht]
  · rw [Function.update_of_ne hut]
    by_cases huc : u = v.current
    · rw [huc, hc]
      cases fate <;>
        simp [View.depart, View.save, View.setTealet, Fate.record, View.grow, Function.update_self]
    · rw [depart_tealets_of_ne (v.grow g) c r.stackFar fate huc]
      simp [View.grow, huc]

theorem Attempted.ended (I : Inv leak s a) (hc : s.tealets s.gCurrent = some c)
    (hr : s.tealets t = some r) (h : Attempted s a t arg f isExit k sp c r (s₁, b)) :
    Ended s t arg f isExit k s₁ b := by
  obtain ⟨own, H⟩ := I.rep
  cases h with
  | unbound hb hp =>
      cases hp
      exact .failed (.inl rfl) ⟨rfl, rfl⟩ nofun (.refl s)
  | toSelf ht hp =>
      cases isExit with
      | true =>
          cases hp
          exact .failed (.inl rfl) ⟨rfl, rfl⟩ nofun (.refl s)
      | false =>
          cases hp
          exact .toSelf ht rfl rfl rfl
  | exited hx hp =>
      cases hp
      exact .failed (.inr rfl) ⟨rfl, rfl⟩ nofun (.refl s)
  | defunct hx hd hp =>
      cases hp
      exact .failed (.inr rfl) ⟨rfl, rfl⟩ nofun (.refl s)
  | @spoiled kt im hx hd hk him hdim hp =>
      cases hp
      exact .failed (.inr rfl) ⟨rfl, rfl⟩ nofun (.setFlags hr _)
  | rejected hu hrej hp =>
      cases hp
      exact .failed (.inr rfl) ⟨rfl, rfl⟩ nofun (.refl s)
  | tampered hu hg hs he hp =>
      cases hp
      exact .failed (.inr rfl) ⟨rfl, rfl⟩ nofun
        ⟨rfl, rfl, fun _ => Iff.rfl, rfl, fun _ => rfl⟩
  | @nomem kt im a' own' g ht hu hg hfate hrep hal hb hT ha hprev hflags he harm hview =>
      have hb : b = ⟨k, .err .mem, none⟩ := hb
      subst hb
      refine .failed (.inr rfl) ⟨rfl, rfl⟩ nofun
        (.of_view H hrep (congrArg View.current hview) hprev
        (congrArg View.tealets hview) (congrArg View.nextTealet hview) fun u => ?_)
      rw [show s₁.view a' = _ from hview, ← hg]
      exact frameOf_grow ..
  | @moved kt im im' a' own' g fate ht hexit hu₀ hv hg hfate him' hrep hal hb hT ha hprev hflags he
      hview =>
      have hfate' := chooseFate_exitDelete hfate
      refine .moved ht (frameOf_eq H hr hu₀.stack hu₀.img) (I.core.image kt im hu₀.img).resumable hb
        (congrArg View.current hview) ?_ (fun u => ?_) ?_ ?_ ?_
      · show s₁.gPrevious = _
        rw [show s₁.gPrevious = _ from hprev, Fate.previous]
        by_cases hd : (isExit && f.delete) = true
        · rw [if_pos ⟨hfate'.mpr hd, rfl⟩, if_pos hd]
        · rw [if_neg fun h => hd (hfate'.mp h.1), if_neg hd]
      · have halive := alive_transfer (v := s.view a) hc hr ht g fate kt im' u
        rw [← hview] at halive
        refine halive.trans (and_congr_right fun _ => not_congr (and_congr_left fun _ => hfate'))
      · exact (congrArg View.nextTealet hview).trans (restore_nextTealet.trans depart_nextTealet)
      · intro u hu hut
        subst hg
        rw [frameOf_view hrep, frameOf_view H, show s₁.view a' = _ from hview]
        have hgrow := I.core.grow r.stack r.stackFar (mayFail s.gCurrent f) s.heap.allocs
        exact (hgrow.frameOf_transfer hr hu₀.stack him' _ fate hu hut).trans (frameOf_grow ..)
      · have htl : s₁.tealets = _ := congrArg View.tealets hview
        refine ⟨{ r with stack := none }, ?_, rfl⟩
        rw [htl]
        exact Function.update_self ..

/-- The signals that a transfer leaves. -/
structure Signals (s s' : State) : Prop where
  gFlags : s'.gFlags = s.gFlags
  gArg : s.gArg = null → s'.gArg = null

theorem Signals.trans {s₁ s₂ : State} (h : Signals s s₁) (h' : Signals s₁ s₂) : Signals s s₂ :=
  ⟨h'.gFlags.trans h.gFlags, fun hs => h'.gArg (h.gArg hs)⟩

theorem Attempted.signals {p : State × Back} (h : Attempted s a t arg f isExit k sp c r p) :
    Signals s p.1 := by
  cases h with
  | toSelf ht hp => cases isExit <;> (rw [hp]; exact ⟨rfl, id⟩)
  | nomem ht hu hg hfate hrep hal hb hT ha hprev hflags => exact ⟨hflags, fun _ => ha⟩
  | moved ht hexit hu hv hg hfate him' hrep hal hb hT ha hprev hflags => exact ⟨hflags, fun _ => ha⟩
  | spoiled hx hd hk him hdim hp => rw [hp]; exact ⟨rfl, id⟩
  | _ => rename_i hp; rw [hp]; exact ⟨rfl, id⟩

/-- The last attempt of a request, in a state like the one in which it was made. -/
structure Last (s : State) (q : Request) (p : State × Back) : Prop where
  signals : Signals s p.1
  ended : ∃ s₁ t f, Attempt s q s₁ t f ∧ Alike s s₁ ∧ Ended s₁ t q.arg f q.isExit q.frame p.1 p.2

theorem Inv.attempts_last (I : Inv leak s a) (hsp : q.sp < spFurthest)
    (hk : OwnFrame s q.isExit q.frame) (halive : Alive s q.target) :
    Returns (Last s q) (q.attempts s) := by
  have hsignals :=
    I.attempts_rel (q := q) (R := Signals) Signals.trans (fun h => h.signals) hsp hk halive
  obtain ⟨c, hc, -⟩ := I.sched.running
  obtain ⟨r, hr⟩ := Option.isSome_iff_exists.mp halive
  have hfirst := I.xferInner_returns (f := q.flags.first) hc hr hsp hk
  suffices hend : Returns (fun p => ∃ s₁ t f, Attempt s q s₁ t f ∧ Alike s s₁ ∧
      Ended s₁ t q.arg f q.isExit q.frame p.1 p.2) (q.attempts s) from
    (hsignals.and hend).imp fun p hp => ⟨hp.1, hp.2⟩
  have hdone : ∀ p, Attempted s a q.target q.arg q.flags.first q.isExit q.frame q.sp c r p →
      ∃ s₁ t f, Attempt s q s₁ t f ∧ Alike s s₁ ∧ Ended s₁ t q.arg f q.isExit q.frame p.1 p.2 :=
    fun p hp => ⟨s, _, _, .first, .refl s, hp.ended I hc hr⟩
  unfold Request.attempts xferAttempts
  cases hn : q.flags.nofail with
  | false =>
      rw [show q.flags.first = q.flags from if_neg (by simp [hn])] at hfirst hdone
      exact Sat.ite_false Bool.false_ne_true (hfirst.imp hdone)
  | true =>
      refine Sat.ite_true rfl ?_
      have hf : q.flags.first = { q.flags with nofail := false, force := true } := if_pos hn
      rw [hf] at hfirst hdone
      refine hfirst.with_eq.bind ?_
      rintro ⟨s₁, b⟩ ⟨heq, hp⟩
      by_cases hb : b.rc = .err .mem ∨ b.rc = .err .defunct
      · refine Sat.ite_true hb ?_
        obtain ⟨a₁, I₁, hcur⟩ := hp.back I hc hr hb
        obtain ⟨c₁, hc₁, -⟩ := I₁.sched.running
        obtain ⟨rm, hrm, -⟩ := I₁.sched.main
        have hk₁ : OwnFrame s₁ q.isExit q.frame := by
          unfold OwnFrame at hk ⊢
          rw [hcur]
          exact hk
        have halike : Alike s s₁ := by
          cases hp.ended I hc hr with
          | failed hfr hrc he hs => exact hs
          | toSelf ht hx hb' hs =>
              rw [hb'] at hb
              split at hb <;> simp at hb
          | moved ht hfr hres hb' =>
              rw [hb'] at hb
              dsimp only at hb
              split at hb <;> simp at hb
        refine (I₁.xferInner_returns hc₁ hrm hsp hk₁).imp fun p hp₁ => ?_
        exact ⟨s₁, _, _, .fallback hn (by rw [hf]; exact heq) hb, halike, hp₁.ended I₁ hc₁ hrm⟩
      · exact Sat.ite_false hb (hdone _ hp)

end Attempts

/-! ## Transferring calls -/

section Calls

variable {leak : StackId → Nat} {s s₀ : State} {a : Saved} {t : TealetId} {q : Request} {cl : Call}

/-- What a transferring call returns. -/
inductive Transferred (s : State) (q : Request) (p : State × Outcome) : Prop where
  | failed {e : Err} (ho : p.2 = .returned (.err e) none) (he : e ≠ .panic) (hs : Alike s p.1)
  | toSelf {s₁ : State} {f : XFlags} (ha : Attempt s q s₁ s.gCurrent f) (hx : q.isExit = false)
      (ho : p.2 = .returned (if f.panic then .err .panic else .ok) none)
      (hprev : p.1.gPrevious = some s.gCurrent)
      (hs : Alike s { p.1 with gPrevious := s.gPrevious })
  | moved {s₁ : State} {t : TealetId} {f : XFlags} {fr : Frame} (ha : Attempt s q s₁ t f)
      (hlike : Alike s s₁) (ht : t ≠ s.gCurrent) (hfr : s.frameOf t = some fr)
      (ho : p.2 = fr.delivers t q.arg f.panic)
      (hcur : p.1.gCurrent = t)
      (hprev : p.1.gPrevious = if q.isExit && f.delete then none else some s.gCurrent)
      (hlive : Remain s (q.isExit && f.delete) p.1) (hn : p.1.nextTealet = s.nextTealet)
      (hothers : ∀ u, u ≠ s.gCurrent → u ≠ t → p.1.frameOf u = s.frameOf u)

theorem Alike.unlockAuto {s s' : State} (h : Alike s s') : Alike s s'.unlockAuto :=
  ⟨h.current, h.previous, h.alive, h.nextTealet, h.frames⟩

theorem Signals.unlockAuto {s s' : State} (h : Signals s s') : Signals s s'.unlockAuto :=
  ⟨h.gFlags, h.gArg⟩

/-- An error is returned to the caller with nothing stored, or the call must not return. -/
theorem finish_failed {s₁ : State} {b : Back} {e : Err} (hb : b.rc = .err e ∧ b.arg = none)
    (hk : b.frame = .api ∨ (∃ g out, b.frame = .switch g out) ∨ ∃ g i, b.frame = .exit g i) :
    Returns (fun p => p = (s₁.unlockAuto, .returned (.err e) none)) (finish s₁ b) := by
  obtain ⟨fr, rc, x⟩ := b
  obtain ⟨rfl, rfl⟩ := hb
  rcases hk with rfl | ⟨g, out, rfl⟩ | ⟨g, i, rfl⟩
  · exact rfl
  · cases out <;> exact rfl
  · cases i with
    | true => exact True.intro
    | false => exact returns_any.bind fun _ _ => rfl

/-- The resumed call returns, or its run function is entered. -/
theorem finish_resumed {s₁ : State} {t : TealetId} {fr : Frame} {arg : Ptr} {panic : Bool}
    (hres : fr.Resumable) (hp : panic = true → fr.started = none) (ht : s₁.gCurrent = t) :
    Returns (fun p => p = (s₁.unlockAuto, fr.delivers t arg panic))
      (finish s₁ ⟨fr, if panic then .err .panic else .ok, some arg⟩) := by
  subst ht
  cases fr with
  | api => exact hres.elim
  | exit => exact hres.elim
  | switch g out => exact rfl
  | run result current previous fn arg' sw out spawned =>
      cases panic with
      | true => cases hp rfl
      | false =>
          cases sw with
          | true =>
              cases out <;> exact rfl
          | false =>
              simp only [finish]
              refine Sat.ite_true (by simp) ?_
              exact returns_any.bind fun _ _ => returns_any.bind fun _ _ =>
                returns_any.bind fun _ _ => rfl
  | fork child current previous sw out =>
      cases panic with
      | true => cases hp rfl
      | false => cases sw <;> exact rfl

/-- A transfer under PANIC that resumes a start: the start returns
`TEALET_ERR_PANIC`. -/
inductive Abandoned (s : State) (q : Request) (p : State × Outcome) : Prop where
  | mk {s₁ : State} {t : TealetId} {f : XFlags} {fr : Frame} {x : Option Ptr}
      (ha : Attempt s q s₁ t f)
      (hlike : Alike s s₁) (hp : f.panic = true) (ht : t ≠ s.gCurrent)
      (hfr : s.frameOf t = some fr) (hst : fr.started ≠ none) (hcur : p.1.gCurrent = t)
      (ho : p.2 = .returned (.err .panic) x)

theorem finish_abandoned {s₁ : State} {t : TealetId} {fr : Frame} {arg : Ptr}
    (hst : fr.started ≠ none) (hcap : fr.isCapture = false) (ht : s₁.gCurrent = t) :
    Returns (fun p => p.1.gCurrent = t ∧ ∃ x, p.2 = .returned (.err .panic) x)
      (finish s₁ ⟨fr, .err .panic, some arg⟩) := by
  subst ht
  have hdel : ∀ (s : State) u, Returns (fun s' => s'.gCurrent = s.gCurrent) (delete s u) := by
    intro s u
    unfold delete
    exact returns_any.bind fun _ _ => returns_any.bind fun _ _ => returns_any.bind fun _ _ => rfl
  have hfail : ∀ child creator, Returns (fun s' => s'.gCurrent = s₁.gCurrent)
      (failStart s₁ child creator true) := by
    intro child creator
    unfold failStart
    exact returns_any.bind fun _ _ => rfl
  cases fr with
  | run result current previous fn arg' sw out spawned =>
      cases sw with
      | false => cases hcap
      | true =>
          simp only [finish]
          refine (hfail result current).bind fun s' hs' => ?_
          cases spawned with
          | false => exact Sat.ite_false Bool.false_ne_true ⟨hs', _, rfl⟩
          | true =>
              exact Sat.ite_true rfl ((hdel _ _).bind fun s'' hs'' => ⟨hs''.trans hs', _, rfl⟩)
  | fork child current previous sw out =>
      cases sw with
      | false => cases hcap
      | true =>
          simp only [finish]
          exact (hfail child current).bind fun s' hs' => ⟨hs', _, rfl⟩
  | _ => exact absurd rfl hst

/-- What a request returns when no capture is resumed under PANIC. -/
theorem Last.finish_any {p : State × Back} (h : Last s q p) (hk : OwnFrame s q.isExit q.frame)
    (hP : ∀ s₁ t f, Attempt s q s₁ t f → f.panic = true → t ≠ s₁.gCurrent →
      ∀ fr, s₁.frameOf t = some fr → fr.isCapture = false) :
    Returns (fun p' => (Transferred s q p' ∧ Signals s p'.1) ∨ Abandoned s q p') (q.finish p) := by
  obtain ⟨s', b⟩ := p
  obtain ⟨hsig, s₁, t, f, ha, hs, hend⟩ := h
  have hown : (∃ g out, q.frame = .switch g out) ∨ ∃ g i, q.frame = .exit g i := by
    unfold OwnFrame at hk
    split at hk
    · exact .inr ⟨_, hk⟩
    · exact .inl ⟨_, hk⟩
  unfold Request.finish
  cases hend with
  | @failed e hfr hb he hs' =>
      have hdone : ∀ b : Back, (b.rc = .err e ∧ b.arg = none) → b.frame = .api ∨ b.frame = q.frame →
          Returns (fun p' => (Transferred s q p' ∧ Signals s p'.1) ∨ Abandoned s q p')
            (Tealet.finish s' b) := by
        intro b hb hor
        refine (finish_failed hb (hor.imp_right fun hfr => ?_)).imp ?_
        · rw [hfr]
          exact hown
        · rintro _ rfl
          exact .inl ⟨.failed rfl he (hs.trans hs').unlockAuto, hsig.unlockAuto⟩
      split
      · exact hdone _ hb (.inr rfl)
      · exact hdone _ hb hfr
  | toSelf ht hx hb hs' =>
      obtain rfl : b = _ := hb
      have hno : ¬ (q.isExit = true ∧ Frame.api = .api) := by
        rintro ⟨hi, -⟩
        rw [hx] at hi
        cases hi
      dsimp only
      rw [if_neg hno]
      obtain rfl : t = s.gCurrent := ht.trans hs.current
      refine .inl ⟨.toSelf ha hx rfl ?_ ?_, hsig.unlockAuto⟩
      · rw [show s' = _ from hs']
        exact congrArg some hs.current
      · rw [show s' = _ from hs']
        exact ⟨hs.current, rfl, hs.alive, hs.nextTealet, hs.frames⟩
  | @moved fr ht hfr hres hb hcur hprev hlive hn hothers hrun =>
      obtain rfl : b = _ := hb
      have hno : ¬ (q.isExit = true ∧ fr = .api) := by
        rintro ⟨-, rfl⟩
        exact hres
      dsimp only
      rw [if_neg hno]
      have hcur₁ := hs.current
      by_cases hst : f.panic = true → fr.started = none
      · refine (finish_resumed hres hst hcur).imp ?_
        rintro _ rfl
        refine .inl ⟨.moved ha hs (hcur₁ ▸ ht) ((hs.frames t).symm.trans hfr) rfl hcur ?_ ?_ ?_ ?_,
          hsig.unlockAuto⟩
        · rw [← hcur₁]
          exact hprev
        · intro u
          refine (hlive u).trans ?_
          rw [hs.alive, hcur₁]
        · exact hn.trans hs.nextTealet
        · intro u hu hut
          exact (hothers u (hcur₁ ▸ hu) hut).trans (hs.frames u)
      · obtain ⟨hp, hst⟩ := Classical.not_imp.mp hst
        rw [hp]
        refine (finish_abandoned hst (hP s₁ t f ha hp ht fr hfr) hcur).imp ?_
        rintro p' ⟨hcur', x, ho⟩
        exact .inr ⟨ha, hs, hp, hcur₁ ▸ ht, (hs.frames t).symm.trans hfr, hst, hcur', ho⟩

theorem Last.finish {p : State × Back} (h : Last s q p) (hk : OwnFrame s q.isExit q.frame)
    (hP : ∀ s₁ t f, Attempt s q s₁ t f → f.panic = true → t ≠ s₁.gCurrent →
      ∀ fr, s₁.frameOf t = some fr → fr.started = none) :
    Returns (fun p' => Transferred s q p' ∧ Signals s p'.1) (q.finish p) := by
  refine (h.finish_any hk fun s₁ t f ha hp ht fr hfr => ?_).imp ?_
  · have hst := hP s₁ t f ha hp ht fr hfr
    cases fr with
    | run => cases hst
    | fork => cases hst
    | _ => rfl
  · rintro p' (h | ⟨ha, hlike, hp, ht, hfr, hst, -, -⟩)
    · exact h
    · have ht₁ := hP _ _ _ ha hp (by rwa [hlike.current]) _ ((hlike.frames _).trans hfr)
      exact absurd ht₁ hst

/-- A transferring call makes its attempts and finishes the last of them. -/
theorem Inv.transfer_last (I : Inv leak s a) (hL : cl.Legal s) (hq : cl.request s = some (s₀, q))
    {P : State × Outcome → Prop}
    (hP : ∀ p, Last s₀ q p → OwnFrame s₀ q.isExit q.frame → Returns P (q.finish p)) :
    Returns P (callStep s cl) := by
  obtain ⟨I₀, -⟩ := I.withRequest hq
  obtain ⟨halive, hsp⟩ := request_legal hq hL
  obtain ⟨fl, ar, hs₀, -⟩ := request_state hq
  obtain ⟨f, cond, inst, -, -, heq⟩ := callStep_request hq
  have halive₀ : Alive s₀ q.target := by
    rw [hs₀]
    exact halive
  rw [heq]
  refine returns_any.bind fun _ _ => returns_any.bind fun _ _ => ?_
  exact (I₀.attempts_last hsp (request_frame hq) halive₀).bind fun p hp =>
    hP p hp (request_frame hq)

/-- What every transferring call returns. -/
theorem Inv.transfer_end (I : Inv leak s a) (hL : cl.Legal s) (hq : cl.request s = some (s₀, q))
    (hP : PanicResumes True s cl) :
    Returns (fun p => Transferred s₀ q p ∧ Signals s₀ p.1) (callStep s cl) :=
  I.transfer_last hL hq fun _ hp hk => hp.finish hk fun s₁ t f ha hp ht fr hfr =>
    (hP s₁ t f _ _ (.xfer hq ha) hp ht fr hfr).2 True.intro

/-- ... and when a start may be resumed under PANIC. -/
theorem Inv.transfer_any (I : Inv leak s a) (hL : cl.Legal s) (hq : cl.request s = some (s₀, q))
    (hP : PanicResumes False s cl) :
    Returns (fun p => Transferred s₀ q p ∨ Abandoned s₀ q p) (callStep s cl) := by
  refine I.transfer_last hL hq fun _ hp hk => ?_
  refine (hp.finish_any hk fun s₁ t f ha hp ht fr hfr => ?_).imp fun _ h => h.imp_left And.left
  exact (hP s₁ t f _ _ (.xfer hq ha) hp ht fr hfr).1

/-! ## Starts -/

/-- What a start of the tealet `t` in the call `k` returns: an error, after
which `t` is NEW again or was freed if it was spawned, or success. -/
inductive Launched (s : State) (t : TealetId) (k : Frame) (sw spawned : Bool)
    (p : State × Outcome) : Prop where
  | failed {e : Err} (ho : p.2 = .returned (.err e) none) (he : e ≠ .panic)
      (hcur : p.1.gCurrent = s.gCurrent)
      (hprev : p.1.gPrevious =
        if spawned = true ∧ s.gPrevious = some t then none else s.gPrevious)
      (hlive : ∀ u, Alive p.1 u ↔ Alive s u ∧ ¬ (spawned = true ∧ u = t))
      (hn : p.1.nextTealet = s.nextTealet)
      (hframes : ∀ u, p.1.frameOf u = s.frameOf u)
  | started (ho : p.2 = startOutcome t k) (hcur : p.1.gCurrent = if sw then t else s.gCurrent)
      (hprev : p.1.gPrevious = if sw then some s.gCurrent else s.gPrevious)
      (hlive : ∀ u, Alive p.1 u ↔ Alive s u) (hn : p.1.nextTealet = s.nextTealet)
      (hothers : ∀ u, u ≠ s.gCurrent → u ≠ t → p.1.frameOf u = s.frameOf u)

variable {c r : TealetSub} {sw spawned : Bool} {k : Frame} {sp : Nat} {p : State × Outcome}

theorem isSome_update (f : TealetId → Option TealetSub) {x : TealetId} (hx : (f x).isSome = true)
    (r : TealetSub) (u : TealetId) : (Function.update f x (some r) u).isSome = (f u).isSome := by
  by_cases hu : u = x
  · subst hu
    rw [Function.update_self, hx]
    rfl
  · rw [Function.update_of_ne hu]

theorem StartFailed.launched {s₁ : State} {a' : Saved} {w : View} {e : Err}
    (h : StartFailed s₁ a' w t e spawned p) (he : e ≠ .panic) (hprev : s₁.gPrevious = s.gPrevious)
    (htl : w.tealets = s.tealets) (hn : w.nextTealet = s.nextTealet) (hcur : w.current = s.gCurrent)
    (hnew : s.tealets t = some {}) (hfr : ∀ u, w.frameOf u = s.frameOf u) :
    Launched s t k sw spawned p := by
  have hview := h.view
  refine .failed h.outcome he ?_ (hprev ▸ h.previous) (fun u => ?_) ?_ fun u => ?_
  · have hc : p.1.gCurrent = _ := congrArg View.current hview
    rw [hc, ← hcur]
    split <;> rfl
  · have ht : p.1.tealets = _ := congrArg View.tealets hview
    unfold Alive
    rw [ht, ← htl]
    cases spawned with
    | false => simp
    | true =>
        by_cases hu : u = t
        · subst hu
          simp [View.setTealet]
        · simp [View.setTealet, hu]
  · have hx : p.1.nextTealet = _ := congrArg View.nextTealet hview
    rw [hx, ← hn]
    split <;> rfl
  · obtain ⟨own, H⟩ := h.rep
    rw [frameOf_view H, hview, ← hfr]
    split
    · by_cases hu : u = t
      · subst hu
        rw [hfr, State.frameOf, hnew]
        unfold View.frameOf
        rw [stackOf_setTealet, Function.update_self]
        rfl
      · exact frameOf_setTealet w none hu
    · rfl

theorem StartEnd.launched (I : Inv leak s a) (hc : s.tealets s.gCurrent = some c)
    (hnew : s.tealets t = some {}) (h : StartEnd s a t c r sw spawned s.gPrevious k sp p) :
    Launched s t k sw spawned p ∧ Signals s p.1 := by
  obtain ⟨own, H⟩ := I.rep
  cases h with
  | refused he hprev hflags ha h =>
      refine ⟨h.launched ?_ hprev rfl rfl rfl hnew fun u => (frameOf_view H u).symm,
        h.flags.trans hflags, fun hs => h.gArg.trans (ha.trans hs)⟩
      rcases he with rfl | rfl <;> nofun
  | nomem hg hfate hprev hflags ha h =>
      subst hg
      refine ⟨h.launched nofun hprev rfl rfl rfl hnew fun u => ?_, h.flags.trans hflags,
        fun _ => h.gArg.trans ha⟩
      rw [frameOf_grow, frameOf_view H]
  | @started a' own' g hsp hg hok hrep hT ha hprev hflags hout hview =>
      subst hg
      refine ⟨?_, hflags, fun _ => ha⟩
      have Hg := I.core.grow none (if sw then r.stackFar else c.stackFar) true s.heap.allocs
      have htl : p.1.tealets = _ := congrArg View.tealets hview
      have hcur : p.1.gCurrent = _ := congrArg View.current hview
      have hn : p.1.nextTealet = _ := congrArg View.nextTealet hview
      have ht : (s.tealets t).isSome = true := by rw [hnew]; rfl
      have hcs : (s.tealets s.gCurrent).isSome = true := by rw [hc]; rfl
      cases sw with
      | true =>
          refine .started hout hcur hprev (fun u => ?_) hn fun u hu hut => ?_
          · have halive : (p.1.tealets u).isSome = (s.tealets u).isSome := by
              rw [htl]
              refine (isSome_update _ ?_ r u).trans (isSome_update s.tealets hcs _ u)
              exact (isSome_update s.tealets hcs _ t).trans ht
            unfold Alive
            rw [halive]
          · rw [frameOf_view hrep, hview, frameOf_view H]
            exact (frameOf_setTealet _ (some r) hut).trans
              ((Hg.frameOf_save c r.stackFar sp k hu).trans (frameOf_grow ..))
      | false =>
          refine .started hout hcur hprev (fun u => ?_) hn fun u hu hut => ?_
          · have halive : (p.1.tealets u).isSome = (s.tealets u).isSome := by
              rw [htl]
              exact isSome_update s.tealets ht _ u
            unfold Alive
            rw [halive]
          · rw [frameOf_view hrep, hview, frameOf_view H]
            exact (Hg.frameOf_save r c.stackFar sp k hut).trans (frameOf_grow ..)

/-- A `tealet_run` of a NEW tealet is a start; any other tealet is refused. -/
theorem Inv.run_start (spawned : Bool) (I : Inv leak s a) (halive : Alive s t) {fn : RunFn}
    {parg : Option Ptr} {hint : Nat} {site : Site} (hsite : site.Inside s)
    (hhint : hint < spFurthest) :
    Returns (fun p => s.tealets t ≠ some {} ∧ p = (s, .returned (.err .inval) none) ∨
        s.tealets t = some {} ∧ ∃ c r, s.tealets s.gCurrent = some c ∧ Child r ∧
          r.stackFar = pickInitialFar site.far hint ∧
          StartEnd s.lockAuto a t c r sw spawned s.gPrevious
            (.run t s.gCurrent s.gPrevious fn (parg.getD null) sw parg.isSome spawned) site.sp p)
      (run s t fn parg hint sw spawned site) := by
  obtain ⟨r, hr⟩ := Option.isSome_iff_exists.mp halive
  obtain ⟨c, hc, -⟩ := I.sched.running
  by_cases hf : r.flags = {}
  · obtain rfl := I.empty_of_new hr hf
    rw [run_eq I.gTarget hr]
    have hchild : Child (childRecord (pickInitialFar site.far hint) { bound := true }) :=
      child_childRecord (pickInitialFar_lt hsite.2.2 hhint) ⟨rfl, rfl, rfl⟩ rfl
    refine returns_any.bind fun _ _ => ?_
    have hk : StartFrame t s.lockAuto.gCurrent s.gPrevious sw spawned
        (.run t s.gCurrent s.gPrevious fn (parg.getD null) sw parg.isSome spawned) := .run _ _ _
    refine (I.lockAuto.beginSwitch_spec (E := fun _ => True) hc hr hchild
      (Nat.lt_of_le_of_lt hsite.1 hsite.2.2) hk (External.mono fun _ _ => True.intro)
      (External.mono fun _ _ => True.intro)).imp fun p hp => ?_
    exact .inr ⟨hr, c, _, hc, hchild, rfl, hp⟩
  · unfold run
    refine Sat.run (tealet_of hr) (Sat.ite_true hf (.inl ⟨fun h => hf ?_, rfl⟩))
    rw [hr] at h
    rw [Option.some.inj h]

/-- What every `tealet_run` returns. -/
theorem Inv.run_end (spawned : Bool) (I : Inv leak s a) (halive : Alive s t) {fn : RunFn}
    {parg : Option Ptr} {hint : Nat} {site : Site} (hsite : site.Inside s)
    (hhint : hint < spFurthest) :
    Returns (fun p => s.tealets t ≠ some {} ∧ p = (s, .returned (.err .inval) none) ∨
        t ≠ s.gCurrent ∧ Launched s.lockAuto t
          (.run t s.gCurrent s.gPrevious fn (parg.getD null) sw parg.isSome spawned) sw spawned p ∧
          Signals s p.1)
      (run s t fn parg hint sw spawned site) := by
  refine (I.run_start spawned halive hsite hhint).imp fun p hp => ?_
  refine hp.imp_right ?_
  rintro ⟨hr, c, r, hc, -, -, h⟩
  obtain ⟨hl, hs⟩ := h.launched I.lockAuto hc hr
  exact ⟨(I.child_ne hr).1, hl, hs.gFlags, hs.gArg⟩

/-- A `tealet_fork` to a NEW tealet is a start, or is refused. -/
theorem Inv.fork_start (I : Inv leak s a) (halive : Alive s t) {parg : Option Ptr} {site : Site}
    (hsite : site.Inside s) :
    Returns (fun p => (∃ e, (e = .inval ∨ e = .unforkable) ∧ p = (s, .returned (.err e) none)) ∨
        s.tealets t = some {} ∧ ∃ c r, s.tealets s.gCurrent = some c ∧ Child r ∧
          StartEnd s.lockAuto a t c r sw false s.gPrevious
            (.fork t s.gCurrent s.gPrevious sw parg.isSome) site.sp p)
      (fork s t parg sw site) := by
  obtain ⟨r, hr⟩ := Option.isSome_iff_exists.mp halive
  obtain ⟨c, hc, hact, hs⟩ := I.sched.running
  have hc : s.tealets s.gCurrent = some c := hc
  by_cases hf : r.flags = {}
  · obtain rfl := I.empty_of_new hr hf
    by_cases hfar : c.stackFar = spFurthest
    · unfold fork
      refine returns_any.bind fun _ _ => Sat.run (tealet_of hr) (Sat.ite_false (by simp) ?_)
      exact Sat.run (tealet_of hc) (Sat.ite_true hfar (.inl ⟨.unforkable, .inr rfl, rfl⟩))
    · rw [fork_eq hr hc hs hfar]
      have hlt : c.stackFar < spFurthest :=
        Nat.lt_of_le_of_ne (I.core.record _ c hc).far_le hfar
      have hchild : Child (childRecord c.stackFar
          { bound := true, fork := true, mainLineage := c.flags.mainLineage }) :=
        child_childRecord hlt ⟨rfl, rfl, rfl⟩ rfl
      refine returns_any.bind fun _ _ => ?_
      have hk : StartFrame t s.lockAuto.gCurrent s.gPrevious sw false
          (.fork t s.gCurrent s.gPrevious sw parg.isSome) := .fork _ rfl
      refine (I.lockAuto.beginSwitch_spec (E := fun _ => True) hc hr hchild
        (Nat.lt_of_le_of_lt hsite.1 hsite.2.2) hk (External.mono fun _ _ => True.intro)
        (External.mono fun _ _ => True.intro)).imp fun p hp => ?_
      exact .inr ⟨hr, c, _, hc, hchild, hp⟩
  · unfold fork
    refine returns_any.bind fun _ _ => Sat.run (tealet_of hr) (Sat.ite_true hf ?_)
    exact .inl ⟨.inval, .inl rfl, rfl⟩

/-- What every `tealet_fork` returns. -/
theorem Inv.fork_end (I : Inv leak s a) (halive : Alive s t) {parg : Option Ptr} {site : Site}
    (hsite : site.Inside s) :
    Returns (fun p => (∃ e, e ≠ .panic ∧ p = (s, .returned (.err e) none)) ∨
        t ≠ s.gCurrent ∧ Launched s.lockAuto t
          (.fork t s.gCurrent s.gPrevious sw parg.isSome) sw false p ∧ Signals s p.1)
      (fork s t parg sw site) := by
  refine (I.fork_start halive hsite).imp fun p hp => ?_
  refine hp.imp ?_ ?_
  · rintro ⟨e, rfl | rfl, hp⟩
    · exact ⟨.inval, nofun, hp⟩
    · exact ⟨.unforkable, nofun, hp⟩
  rintro ⟨hr, c, r, hc, -, h⟩
  obtain ⟨hl, hs⟩ := h.launched I.lockAuto hc hr
  exact ⟨(I.child_ne hr).1, hl, hs.gFlags, hs.gArg⟩

/-- Creating a tealet touches neither the signals nor a suspended call. -/
theorem new_signals (hfresh : s.tealets s.nextTealet = none) :
    Signals s (new s).1 ∧ (new s).1.gCurrent = s.gCurrent ∧ (new s).1.gPrevious = s.gPrevious ∧
      ∀ u, (new s).1.frameOf u = s.frameOf u := by
  have hnew : ∀ u, (Function.update s.tealets s.nextTealet (some {}) u).bind TealetSub.stack =
      (s.tealets u).bind TealetSub.stack := by
    intro u
    by_cases hu : u = s.nextTealet
    · subst hu
      rw [Function.update_self, hfresh]
      rfl
    · rw [Function.update_of_ne hu]
  have hframe : ∀ s' : State, s'.heap.stackAt = s.heap.stackAt →
      (∀ u, (s'.tealets u).bind TealetSub.stack = (s.tealets u).bind TealetSub.stack) →
      ∀ u, s'.frameOf u = s.frameOf u := by
    intro s' hst htl u
    have hbind : ∀ x : State, x.frameOf u = ((x.tealets u).bind TealetSub.stack).bind
        fun k => (x.heap.stackAt k).bind fun st => some st.frame := by
      intro x
      unfold State.frameOf
      cases x.tealets u <;> rfl
    rw [hbind, hbind, htl, hst]
  unfold new alloc Heap.malloc
  rcases hal : s.lockAuto.heap.allocs with _ | ⟨_ | _, al⟩
  · exact ⟨⟨rfl, id⟩, rfl, rfl, hframe _ rfl hnew⟩
  · exact ⟨⟨rfl, id⟩, rfl, rfl, fun _ => rfl⟩
  · exact ⟨⟨rfl, id⟩, rfl, rfl, hframe _ rfl hnew⟩

/-- A `tealet_spawn` fails to create a tealet, or runs the one it created. -/
theorem Inv.spawn_run (I : Inv leak s a) {fn : RunFn} {parg : Option Ptr} {hint : Nat}
    {site : Site} (hsite : site.Inside s) {P : State × Outcome → Prop}
    (hnone : (new s).2 = none → P ((new s).1, .returned (.err .mem) none))
    (hrun : ∀ s₁ leak', new s = (s₁, some s.nextTealet) → Inv leak' s₁ a →
      s₁.tealets = Function.update s.tealets s.nextTealet (some {}) → site.Inside s₁ →
      Returns P (run s₁ s.nextTealet fn parg hint sw true site)) :
    Returns P (spawn s fn parg hint sw site) := by
  have hends : Ends (fun _ _ => True) True (s.view a) (new s).1 a := new_ends I
  obtain ⟨leak', I', -⟩ := hends.inv I
  have hspec := new_spec s a
  unfold spawn
  rcases hnew : new s with ⟨s₁, _ | t⟩ <;> rw [hnew] at I' hspec hnone
  · exact hnone rfl
  · cases hspec with
    | some hal hv hal' hprev =>
        have hcur : s₁.gCurrent = s.gCurrent := congrArg View.current hv
        have htl : s₁.tealets = Function.update s.tealets s.nextTealet (some {}) :=
          congrArg View.tealets hv
        obtain ⟨c, hc, -⟩ := I.sched.running
        have hne : s.gCurrent ≠ s.nextTealet := Nat.ne_of_lt (I.core.lt_nextTealet hc)
        have hfar : runningFar s₁ = runningFar s := by
          simp only [runningFar, hcur, htl, Function.update_of_ne hne]
        exact hrun s₁ leak' hnew I' htl ⟨hsite.1, hfar ▸ hsite.2.1, hsite.2.2⟩

/-- What every `tealet_spawn` returns: it fails to create a tealet, or it
is the start of the one it created. -/
theorem Inv.spawn_end (I : Inv leak s a) {fn : RunFn} {parg : Option Ptr} {hint : Nat}
    {site : Site} (hsite : site.Inside s) (hhint : hint < spFurthest) :
    Returns (fun p => p = ((new s).1, .returned (.err .mem) none) ∨
        s.nextTealet ≠ s.gCurrent ∧ ∃ s₁, new s = (s₁, some s.nextTealet) ∧
          s₁.tealets = Function.update s.tealets s.nextTealet (some {}) ∧
          Launched s₁.lockAuto s.nextTealet
            (.run s.nextTealet s₁.gCurrent s₁.gPrevious fn (parg.getD null) sw parg.isSome true) sw
            true p ∧ Signals s p.1)
      (spawn s fn parg hint sw site) := by
  refine I.spawn_run hsite (fun _ => .inl rfl) fun s₁ leak' hnew I' htl hsite₁ => ?_
  have ht : s₁.tealets s.nextTealet = some {} := by
    rw [htl]
    exact Function.update_self ..
  obtain ⟨c, hc, -⟩ := I.sched.running
  have hne : s.gCurrent ≠ s.nextTealet := Nat.ne_of_lt (I.core.lt_nextTealet hc)
  obtain ⟨hnews, -⟩ := new_signals (I.core.fresh _ (Nat.le_refl _))
  rw [hnew] at hnews
  refine (I'.run_end _ (Option.isSome_iff_exists.mpr ⟨_, ht⟩) hsite₁ hhint).imp ?_
  rintro p (⟨hno, -⟩ | ⟨-, hl, hs⟩)
  · exact absurd ht hno
  · exact .inr ⟨hne.symm, s₁, hnew, htl, hl, hnews.trans hs⟩

end Calls

end Tealet
