import Tealet.Attempts
import Tealet.Start

/-!
# One call

From a state that satisfies `Inv` a call does nothing but small moves and
at most one jump of the view (`callStep_spec`), and the state in which user
code gets control satisfies `Inv` again. The faults that remain possible
are those that a caller or the operating system can cause, and a freed
record that a transfer under PANIC runs into.
-/

namespace Tealet

open DList Slice Hoare Relation

/-- The attempts of the call `c` as labels of the moves. -/
def AttemptLabel (s : State) (c : Call) (v : View) (l : Label) : Prop :=
  ∃ s₁ a₁ own, HeapRep s₁.heap a₁ own ∧ v = s₁.view a₁ ∧ Attempts s c s₁ l

/-- The end of a call that started from the view `v`. -/
structure Ends (C : View → Label → Prop) (strict : Prop) (v : View) (s : State) (a : Saved) :
    Prop where
  rep : ∃ own, HeapRep s.heap a own
  gTarget : s.gTarget = none
  panic : s.gFlags.panic = false
  path : Path C strict v (s.view a)

section Requests

variable {leak : StackId → Nat} {s s₀ : State} {a : Saved} {c : Call} {q : Request}

theorem request_state (h : c.request s = some (s₀, q)) :
    ∃ fl ar, s₀ = { s with env := s.env.lockAuto, gFlags := fl, gArg := ar } ∧
      (s.gFlags.panic = false → fl.panic = false) ∧
      (s.gFlags.xfer.defer = false → fl = s.gFlags ∧ ar = s.gArg) := by
  cases c with
  | switch t parg flags sp =>
      cases h
      exact ⟨s.gFlags, s.gArg, rfl, id, fun _ => ⟨rfl, rfl⟩⟩
  | exit t arg flags sp =>
      simp only [Call.request] at h
      split at h
      · cases h
      · simp only [exitRequest] at h
        split at h
        · rename_i hd
          cases h
          refine ⟨{}, null, rfl, fun _ => rfl, fun hf => ?_⟩
          have hd : s.gFlags.xfer.defer = true := hd
          rw [hf] at hd
          cases hd
        · cases h
          exact ⟨s.gFlags, s.gArg, rfl, id, fun _ => ⟨rfl, rfl⟩⟩
  | ret p sp =>
      cases p with
      | none => cases h
      | some t =>
          simp only [Call.request, exitRequest] at h
          split at h
          · rename_i hd
            cases h
            refine ⟨{}, null, rfl, fun _ => rfl, fun hf => ?_⟩
            rw [hf] at hd
            cases hd
          · cases h
            exact ⟨s.gFlags, s.gArg, rfl, id, fun _ => ⟨rfl, rfl⟩⟩
  | _ => cases h

theorem request_frame (h : c.request s = some (s₀, q)) : OwnFrame s₀ q.isExit q.frame := by
  cases c with
  | switch t parg flags sp =>
      cases h
      exact ⟨_, rfl⟩
  | exit t arg flags sp =>
      simp only [Call.request] at h
      split at h
      · cases h
      · simp only [exitRequest] at h
        split at h <;> cases h <;> exact ⟨_, rfl⟩
  | ret p sp =>
      cases p with
      | none => cases h
      | some t =>
          simp only [Call.request, exitRequest] at h
          split at h <;> cases h <;> exact ⟨_, rfl⟩
  | _ => cases h

theorem request_legal (h : c.request s = some (s₀, q)) (hL : c.Legal s) :
    Alive s q.target ∧ q.sp < spFurthest := by
  cases c with
  | switch t parg flags sp =>
      cases h
      exact hL
  | exit t arg flags sp =>
      simp only [Call.request] at h
      split at h
      · cases h
      · simp only [exitRequest] at h
        split at h <;> cases h <;> exact hL
  | ret p sp =>
      cases p with
      | none => cases h
      | some t =>
          obtain ⟨⟨t', ht, halive⟩, hsp⟩ := hL
          cases ht
          simp only [Call.request, exitRequest] at h
          split at h <;> cases h <;> exact ⟨halive, hsp⟩
  | _ => cases h

/-- Locking and taking a pending request keep the invariant. -/
theorem Inv.withRequest (I : Inv leak s a) (h : c.request s = some (s₀, q)) :
    Inv leak s₀ a ∧ s₀.view a = s.view a := by
  obtain ⟨fl, ar, rfl, hp, -⟩ := request_state h
  exact ⟨⟨I.rep, I.core, I.sched, I.gTarget, hp I.panic⟩, rfl⟩

end Requests

/-! ## Attempts -/

section Attempts

variable {leak : StackId → Nat} {C : View → Label → Prop} {strict : Prop} {E : Fault → Prop}
  {s : State} {a : Saved} {t : TealetId} {c r : TealetSub} {flags : XFlags} {isExit : Bool}
  {sp : Nat} {k : Frame} {arg : Ptr} {p : State × Back}

/-- An attempt after which the same tealet runs. -/
structure Stays (leak : StackId → Nat) (C : View → Label → Prop) (s : State) (a : Saved)
    (c : TealetSub) (k : Frame) (p : State × Back) (a' : Saved) : Prop where
  inv : Inv leak p.1 a'
  moves : ReflTransGen (Small C) (s.view a) (p.1.view a')
  current : p.1.gCurrent = s.gCurrent
  record : p.1.tealets p.1.gCurrent = some c
  frame : p.2.frame = .api ∨ p.2.frame = k
  noPanic : p.2.frame = k → p.2.rc ≠ .err .panic

/-- An attempt after which another tealet runs, in the call `fr`. -/
structure Moves (leak : StackId → Nat) (C : View → Label → Prop) (strict : Prop) (v : View)
    (panic : Bool) (fr : Frame) (p : State × Back) (a' : Saved) : Prop where
  rep : ∃ own, HeapRep p.1.heap a' own
  gTarget : p.1.gTarget = none
  panicClear : p.1.gFlags.panic = false
  core : Core leak (p.1.view a')
  sched : Sched (p.1.view a')
  back : p.2.frame = fr ∧ p.2.rc = if panic then .err .panic else .ok
  resumable : fr.Resumable
  started : ∀ child spawned, fr.started = some (child, spawned) →
    child ≠ mainId ∧ child < p.1.nextTealet ∧ (panic = true → child ≠ p.1.gCurrent)
  capture : panic = true → fr.isCapture = false ∧ (strict → fr.started = none)
  jump : Jump C strict v ((p.1.view a').settle panic fr)

theorem frameOf_eq {own : StackId → List ChunkId} (H : HeapRep s.heap a own)
    (hr : s.tealets t = some r) {kt : StackId} {im : Image} (hk : r.stack = some kt)
    (him : a.img kt = some im) : s.frameOf t = some im.frame := by
  obtain ⟨st, hst, hrep⟩ := H.stack kt im him
  simp only [State.frameOf, hr, hk, hst, Option.bind_eq_bind, Option.bind_some, ← hrep.frame]
  rfl

theorem grow_label (hc : s.tealets s.gCurrent = some c) (hr : s.tealets t = some r)
    (ht : t ≠ s.gCurrent) (hC : C (s.view a) (.xfer t flags isExit s.heap.allocs)) {g : Growth}
    (hg : (s.view a).growth r.stack r.stackFar (mayFail s.gCurrent flags) s.heap.allocs = g)
    (hfate : (chooseFate g { c.flags with exiting := isExit, autodelete := isExit && flags.delete }
      (mayFail s.gCurrent flags) sp k).1 = none) :
    Small C (s.view a) ((s.view a).grow g) := by
  subst hg
  exact .stallXfer hC hc hr ht hfate

/-- An attempt leaves the tealet running or moves control. -/
theorem Attempted.split (I : Inv leak s a) (hc : s.tealets s.gCurrent = some c)
    (hr : s.tealets t = some r) (hsp : sp < spFurthest) (hk : OwnFrame s isExit k)
    (hC : C (s.view a) (.xfer t flags isExit s.heap.allocs))
    (hP : flags.panic = true → t ≠ s.gCurrent → ∀ fr, s.frameOf t = some fr →
      fr.isCapture = false ∧ (strict → fr.started = none))
    (h : Attempted s a t arg flags isExit k sp c r p) :
    (∃ a', Stays leak C s a c k p a') ∨
      t ≠ s.gCurrent ∧ ∃ fr a', Moves leak C strict (s.view a) flags.panic fr p a' := by
  have hown : k ≠ .api := by
    unfold OwnFrame at hk
    split at hk <;> obtain ⟨_, rfl⟩ := hk <;> simp
  cases h with
  | unbound hb hp =>
      subst hp
      exact .inl ⟨a, I, .refl, rfl, hc, .inl rfl, fun h => absurd h.symm hown⟩
  | toSelf ht hp =>
      subst hp
      refine .inl ⟨a, ?_⟩
      cases isExit with
      | true => exact ⟨I, .refl, rfl, hc, .inl rfl, fun h => absurd h.symm hown⟩
      | false =>
          exact ⟨⟨I.rep, I.core, I.sched, I.gTarget, I.panic⟩, .refl, rfl, hc, .inl rfl,
            fun h => absurd h.symm hown⟩
  | exited hx hp =>
      subst hp
      exact .inl ⟨a, I, .refl, rfl, hc, .inr rfl, fun _ => nofun⟩
  | defunct hx hd hp =>
      subst hp
      exact .inl ⟨a, I, .refl, rfl, hc, .inr rfl, fun _ => nofun⟩
  | @spoiled kt im hx hd hkt him hdim hp =>
      subst hp
      have hsmall : Small C (s.view a) ((s.setTealet t
          { r with flags := { r.flags with defunct := true } }).view a) :=
        .cache hr hkt him hdim
      have ht : t ≠ s.gCurrent := by
        rintro rfl
        rw [(I.running hr).2.1] at hkt
        cases hkt
      obtain ⟨H, S⟩ := hsmall.good I.core I.sched
      exact .inl ⟨a, ⟨I.rep, H, S, I.gTarget, I.panic⟩, .single hsmall, rfl,
        (Function.update_of_ne ht.symm _ _).trans hc, .inr rfl, fun _ => nofun⟩
  | rejected hu hrej hp =>
      subst hp
      exact .inl ⟨a, I, .refl, rfl, hc, .inr rfl, fun _ => nofun⟩
  | tampered hu hg hs he hp =>
      subst hp
      exact .inl ⟨a, ⟨I.rep, I.core, I.sched, I.gTarget, I.panic⟩, .refl, rfl, hc, .inr rfl,
        fun _ => nofun⟩
  | @nomem kt im a' own' g ht hu hg hfate hrep hal hb hT ha hprev hfl he harm hview =>
      have hsmall := grow_label hc hr ht hC hg hfate
      obtain ⟨H, S⟩ := hsmall.good I.core I.sched
      rw [← hview] at H S hsmall
      have hcur : p.1.gCurrent = s.gCurrent := congrArg View.current hview
      have htl : p.1.tealets = s.tealets := congrArg View.tealets hview
      refine .inl ⟨a', ⟨⟨own', hrep⟩, H, S, hT, hfl ▸ I.panic⟩, .single hsmall, hcur, ?_,
        .inr (by rw [hb]), fun _ => by rw [hb]; nofun⟩
      rw [hcur, htl]
      exact hc
  | @moved kt im im' a' own' g fate ht hexit hu hv hg hfate him' hrep hal hb hT ha hprev
      hfl he hview =>
      obtain ⟨own, H⟩ := I.rep
      have hbound : r.flags.bound = true := by
        by_contra hb
        have hempty := (I.core.record t r hr).unbound (by simpa using hb)
        have hst := hu.stack
        rw [hempty] at hst
        cases hst
      have hswitch : isExit = false → ∃ out, k = .switch s.gCurrent out := by
        intro hx
        rw [OwnFrame, hx, if_neg (by simp)] at hk
        exact hk
      have hlt : sp < c.stackFar := lt_of_verifyRecord hv hsp
      have hpan : flags.panic = true → im.frame.isCapture = false ∧
          (strict → im.frame.started = none) :=
        fun hp => hP hp ht im.frame (frameOf_eq H hr hu.stack hu.img)
      obtain ⟨hcore, hsched, -, hst⟩ := transfer_good I.core I.sched hc hr ht
        ⟨hbound, hu.exited, hu.defunct⟩ hu.stack hu.img hg hfate him'
        ⟨hexit, fun hf hm => by simp [mayFail, show s.gCurrent = mainId from hm] at hf, fun he => by
          obtain ⟨out, rfl⟩ := hswitch he
          exact ⟨hlt, True.intro, rfl, rfl⟩⟩
      refine .inr ⟨ht, im.frame, a', ⟨own', hrep⟩, hT, hfl ▸ I.panic, hview ▸ hcore, hview ▸ hsched,
        by rw [hb]; exact ⟨rfl, rfl⟩, (I.core.image kt im hu.img).resumable, ?_, hpan, ?_⟩
      · intro child spawned hs
        obtain ⟨h₁, h₂, h₃⟩ := hst child spawned hs
        have hn : p.1.nextTealet = s.nextTealet := by
          have h := congrArg View.nextTealet hview
          rw [restore_nextTealet, depart_nextTealet] at h
          exact h
        have hcur : p.1.gCurrent = t := congrArg View.current hview
        rw [hn, hcur]
        exact ⟨h₁, h₂, fun hp => h₃ (hpan hp).1⟩
      · rw [hview]
        exact .xfer hC hc hr ht hu.exited hu.defunct hu.stack hu.img hu.live hg hfate him'
          (fun _ => hlt) hexit hswitch (fun hp => (hpan hp).1) fun hst hp => (hpan hp).2 hst

/-- What is assumed of the attempts of a request: they satisfy `C`, and
what is resumed under PANIC is not a start. -/
structure Assumes (C : View → Label → Prop) (strict : Prop) (E : Fault → Prop) (s : State)
    (q : Request) : Prop where
  label : ∀ s₁ t f, Attempt s q s₁ t f → ∀ a₁ own, HeapRep s₁.heap a₁ own →
    C (s₁.view a₁) (.xfer t f q.isExit s₁.heap.allocs)
  resumes : ∀ s₁ t f, Attempt s q s₁ t f → f.panic = true → t ≠ s₁.gCurrent →
    ∀ fr, s₁.frameOf t = some fr → fr.isCapture = false ∧ (strict → fr.started = none)
  freed : E .freed ∨ strict ∧ ∀ s₁ t f, Attempt s q s₁ t f → f.panic = true → t ≠ s₁.gCurrent →
    ∀ g out, s₁.frameOf t = some (.switch g out) →
      Alive s₁ g ∧ (q.isExit = true → f.delete = true → g ≠ s₁.gCurrent)

theorem External.mono {e : Env} {m : Memory} {spT : Nat} (hext : ∀ f, f.internal = false → E f) :
    External E e m c r sp spT :=
  have h := external_safe e m c r sp spT
  ⟨h.verify.mono hext fun _ h => h, h.watch.mono hext fun _ h => h.mono hext fun _ h => h,
    fun e' m' he => (h.rearm e' m' he).mono hext fun _ h => h,
    fun e' m' he => (h.arm e' m' he).mono hext fun _ h => h⟩

theorem Inv.attempt (I : Inv leak s a) {q : Request} {s₀ : State} (hA : Assumes C strict E s₀ q)
    (hext : ∀ f, f.internal = false → E f) (hc : s.tealets s.gCurrent = some c)
    (hr : s.tealets t = some r) (hsp : q.sp < spFurthest) (hk : OwnFrame s q.isExit q.frame)
    (ha : Attempt s₀ q s t flags) :
    Sat E (fun p => (∃ a', Stays leak C s a c q.frame p a') ∨
        ∃ panic fr a', Moves leak C strict (s.view a) panic fr p a')
      (xferInner s t q.arg flags q.isExit q.frame q.sp) := by
  obtain ⟨own, H⟩ := I.rep
  refine (I.xferInner_spec _ hc hr hsp hk (fun _ _ => hext _ rfl)
    (fun _ _ => External.mono hext) ?_).imp ?_
  · intro hp
    refine hA.freed.imp_right fun hcallers kt im g out hkt him hfr => ?_
    have ht : t ≠ s.gCurrent := by
      rintro rfl
      rw [(I.running hr).2.1] at hkt
      cases hkt
    exact hcallers.2 s t flags ha hp ht g out (hfr ▸ frameOf_eq H hr hkt him)
  · intro p hp
    refine (hp.split I hc hr hsp hk (hA.label s t flags ha a own H)
      (hA.resumes s t flags ha)).imp_right
      ?_
    rintro ⟨ht, fr, a', h⟩
    exact ⟨_, fr, a', h⟩

theorem Inv.attempts_spec (I : Inv leak s a) {q : Request} (hA : Assumes C strict E s q)
    (hext : ∀ f, f.internal = false → E f) (hsp : q.sp < spFurthest)
    (hk : OwnFrame s q.isExit q.frame) (halive : Alive s q.target) :
    Sat E (fun p => (∃ a', Inv leak p.1 a' ∧ ReflTransGen (Small C) (s.view a) (p.1.view a') ∧
          (p.2.frame = .api ∨ p.2.frame = q.frame)) ∨
        ∃ v₁ panic fr a', ReflTransGen (Small C) (s.view a) v₁ ∧
          Moves leak C strict v₁ panic fr p a')
      (q.attempts s) := by
  obtain ⟨c, hc, -⟩ := I.sched.running
  obtain ⟨r, hr⟩ := Option.isSome_iff_exists.mp halive
  have hfirst := I.attempt hA hext hc hr hsp hk .first
  unfold Request.attempts xferAttempts
  cases hn : q.flags.nofail with
  | false =>
      refine Sat.ite_false (by simp) ?_
      have hf : q.flags.first = q.flags := if_neg (by simp [hn])
      rw [hf] at hfirst
      refine hfirst.imp ?_
      rintro p (⟨a', h⟩ | ⟨panic, fr, a', h⟩)
      · exact .inl ⟨a', h.inv, h.moves, h.frame⟩
      · exact .inr ⟨_, panic, fr, a', .refl, h⟩
  | true =>
      refine Sat.ite_true rfl ?_
      have hf : q.flags.first = { q.flags with nofail := false, force := true } := if_pos hn
      rw [hf] at hfirst
      refine hfirst.with_eq.bind ?_
      rintro ⟨s₁, b⟩ ⟨heq, hor⟩
      by_cases hb : b.rc = .err .mem ∨ b.rc = .err .defunct
      · refine Sat.ite_true hb ?_
        rcases hor with ⟨a₁, h⟩ | ⟨panic, fr, a₁, h⟩
        · obtain ⟨rm, hrm, -⟩ := h.inv.sched.main
          have hown : OwnFrame s₁ q.isExit q.frame := by
            have hcur : s₁.gCurrent = s.gCurrent := h.current
            unfold OwnFrame at hk ⊢
            rw [hcur]
            exact hk
          refine (h.inv.attempt hA hext h.record hrm hsp hown
            (.fallback hn (by rw [hf]; exact heq) hb)).imp ?_
          rintro p (⟨a₂, h'⟩ | ⟨panic, fr, a₂, h'⟩)
          · exact .inl ⟨a₂, h'.inv, h.moves.trans h'.moves, h'.frame⟩
          · exact .inr ⟨_, panic, fr, a₂, h.moves, h'⟩
        · exfalso
          rw [h.back.2] at hb
          cases panic <;> simp at hb
      · refine Sat.ite_false hb ?_
        rcases hor with ⟨a₁, h⟩ | ⟨panic, fr, a₁, h⟩
        · exact .inl ⟨a₁, h.inv, h.moves, h.frame⟩
        · exact .inr ⟨_, panic, fr, a₁, .refl, h⟩

section Fallback

variable {s₁ : State} {q : Request} {f : XFlags} {b : Back}

/-- An attempt that ends in an error other than a panic changes neither who
runs nor which records there are. -/
theorem Attempted.back {c r : TealetSub} {arg : Ptr} {isExit : Bool} {k : Frame} {sp : Nat}
    (I : Inv leak s a) (hc : s.tealets s.gCurrent = some c) (hr : s.tealets t = some r)
    (h : Attempted s a t arg f isExit k sp c r (s₁, b))
    (hrc : b.rc = .err .mem ∨ b.rc = .err .defunct) :
    ∃ a₁, Inv leak s₁ a₁ ∧ s₁.gCurrent = s.gCurrent := by
  cases h with
  | unbound hb hp => cases hp; simp at hrc
  | toSelf ht hp =>
      cases isExit <;> cases hp
      · cases hf : f.panic <;> simp [hf] at hrc
      · simp at hrc
  | exited hx hp => cases hp; simp at hrc
  | defunct hx hd hp => cases hp; exact ⟨a, I, rfl⟩
  | @spoiled kt im hx hd hkt him hdim hp =>
      cases hp
      have hsmall : Small (fun _ _ => True) (s.view a) ((s.setTealet t
          { r with flags := { r.flags with defunct := true } }).view a) :=
        .cache hr hkt him hdim
      obtain ⟨H, S⟩ := hsmall.good I.core I.sched
      exact ⟨a, ⟨I.rep, H, S, I.gTarget, I.panic⟩, rfl⟩
  | rejected hu hrej hp => cases hp; simp at hrc
  | tampered hu hg hs he hp => cases hp; simp at hrc
  | @nomem kt im a' own' g ht hu hg hfate hrep hal hb hT ha hprev hfl he harm hview =>
      have hcur : s₁.gCurrent = s.gCurrent := congrArg View.current hview
      have hsmall : Small (fun _ _ => True) (s.view a) ((s.view a).grow g) :=
        grow_label hc hr ht True.intro hg hfate
      obtain ⟨H, S⟩ := hsmall.good I.core I.sched
      exact ⟨a', ⟨⟨own', hrep⟩, hview ▸ H, hview ▸ S, hT, hfl ▸ I.panic⟩, hcur⟩
  | moved ht hexit hu hv hg hfate him' hrep hal hb =>
      rw [show b = _ from hb] at hrc
      cases hp : f.panic <;> simp [hp] at hrc

theorem Inv.xferInner_returns (I : Inv leak s a) {c r : TealetSub}
    (hc : s.tealets s.gCurrent = some c) (hr : s.tealets t = some r) (hsp : q.sp < spFurthest)
    (hk : OwnFrame s q.isExit q.frame) :
    Returns (Attempted s a t q.arg f q.isExit q.frame q.sp c r)
      (xferInner s t q.arg f q.isExit q.frame q.sp) :=
  I.xferInner_spec _ hc hr hsp hk (fun _ _ => True.intro)
    (fun _ _ => External.mono fun _ _ => True.intro) fun _ => .inl True.intro

/-- The state of an attempt satisfies the invariant. -/
theorem Attempt.inv (I : Inv leak s a) (hsp : q.sp < spFurthest)
    (hk : OwnFrame s q.isExit q.frame) (halive : Alive s q.target) (h : Attempt s q s₁ t f) :
    ∃ a₁, Inv leak s₁ a₁ ∧ OwnFrame s₁ q.isExit q.frame ∧ Alive s₁ t := by
  cases h with
  | first => exact ⟨a, I, hk, halive⟩
  | @fallback s' b hn heq hrc =>
      obtain ⟨c, hc, -⟩ := I.sched.running
      obtain ⟨r, hr⟩ := Option.isSome_iff_exists.mp halive
      obtain ⟨a₁, I₁, hcur⟩ := ((I.xferInner_returns hc hr hsp hk).result heq).back I hc hr hrc
      obtain ⟨rm, hrm, -⟩ := I₁.sched.main
      refine ⟨a₁, I₁, ?_, Option.isSome_iff_exists.mpr ⟨rm, hrm⟩⟩
      unfold OwnFrame at hk ⊢
      rw [hcur]
      exact hk

/-- A call returns from the last of its attempts. -/
theorem Request.attempts_ok {p : State × Back} (h : q.attempts s = .ok p) :
    ∃ s₁ t f, Attempt s q s₁ t f ∧ xferInner s₁ t q.arg f q.isExit q.frame q.sp = .ok p := by
  unfold Request.attempts xferAttempts at h
  cases hn : q.flags.nofail with
  | false =>
      rw [hn, if_neg Bool.false_ne_true] at h
      have hf : q.flags.first = q.flags := if_neg (by simp [hn])
      exact ⟨s, _, _, .first, by rw [hf]; exact h⟩
  | true =>
      rw [hn, if_pos rfl] at h
      have hf : q.flags.first = { q.flags with nofail := false, force := true } := if_pos hn
      rw [← hf] at h
      obtain ⟨⟨s₁, b⟩, hfirst, hrest⟩ := bind_ok h
      dsimp only at hrest
      by_cases hb : b.rc = .err .mem ∨ b.rc = .err .defunct
      · rw [if_pos hb] at hrest
        exact ⟨s₁, _, _, .fallback hn hfirst hb, hrest⟩
      · rw [if_neg hb] at hrest
        cases hrest
        exact ⟨s, _, _, .first, hfirst⟩

/-- What holds between the two ends of each attempt holds between the two
ends of the call. -/
theorem Inv.attempts_rel (I : Inv leak s a) {R : State → State → Prop}
    (htrans : ∀ {s₁ s₂ s₃}, R s₁ s₂ → R s₂ s₃ → R s₁ s₃)
    (hR : ∀ {s : State} {a t c r f p}, Attempted s a t q.arg f q.isExit q.frame q.sp c r
      p → R s p.1)
    (hsp : q.sp < spFurthest) (hk : OwnFrame s q.isExit q.frame) (halive : Alive s q.target) :
    Returns (fun p => R s p.1) (q.attempts s) := by
  obtain ⟨c, hc, -⟩ := I.sched.running
  obtain ⟨r, hr⟩ := Option.isSome_iff_exists.mp halive
  have hfirst := I.xferInner_returns (f := q.flags.first) hc hr hsp hk
  unfold Request.attempts xferAttempts
  cases hn : q.flags.nofail with
  | false =>
      rw [show q.flags.first = q.flags from if_neg (by simp [hn])] at hfirst
      exact Sat.ite_false (by simp) (hfirst.imp fun p hp => hR hp)
  | true =>
      refine Sat.ite_true rfl ?_
      have hf : q.flags.first = { q.flags with nofail := false, force := true } := if_pos hn
      rw [hf] at hfirst
      refine hfirst.with_eq.bind ?_
      rintro ⟨s₁, b⟩ ⟨heq, hp⟩
      by_cases hb : b.rc = .err .mem ∨ b.rc = .err .defunct
      · refine Sat.ite_true hb ?_
        obtain ⟨a₁, I₁, hcur⟩ := hp.back I hc hr hb
        obtain ⟨c₁, hc₁, -⟩ := I₁.sched.running
        obtain ⟨rm, hrm, -⟩ := I₁.sched.main
        have hk₁ : OwnFrame s₁ q.isExit q.frame := by
          unfold OwnFrame at hk ⊢
          rw [hcur]
          exact hk
        exact (I₁.xferInner_returns hc₁ hrm hsp hk₁).imp fun p hp₁ => htrans (hR hp) (hR hp₁)
      · exact Sat.ite_false hb (hR hp)

end Fallback

/-! ## Returning -/

/-- A transferring call that stays returns to its caller, if at all. -/
theorem finish_own {k : Frame} {b : Back} {s : State} {cur : TealetId}
    (hext : ∀ f, f.internal = false → E f)
    (hk : k = .api ∨ (∃ out, k = .switch cur out) ∨ ∃ i, k = .exit cur i) (hb : b.frame = k) :
    Sat E (fun p => p.1 = s.unlockAuto) (finish s b) := by
  unfold finish
  rw [hb]
  rcases hk with rfl | ⟨out, rfl⟩ | ⟨i, rfl⟩
  · exact rfl
  · exact rfl
  · cases i with
    | true => exact hext _ rfl
    | false => exact ((safe_require rfl).mono hext fun _ h => h).bind fun _ _ => rfl

/-- `tealet_delete` of a tealet without a stack. -/
theorem delete_empty {s : State} (hm : t ≠ mainId) (hr : s.tealets t = some {}) :
    ∃ s', delete s t = .ok s' ∧ s'.gTarget = s.gTarget ∧ s'.gFlags = s.gFlags ∧
      (∀ own, HeapRep s.heap a own → HeapRep s'.heap a own) ∧
      s'.view a = (s.view a).setTealet t none := by
  simp only [delete, require_of hm, ok_bind, State.tealet, State.lockAuto, hr, stackDecref,
    pure_eq_ok]
  exact ⟨_, rfl, rfl, rfl, fun own H => H.withAllocs _ _, rfl⟩

/-- The cleanup of a failed start. -/
theorem failStart_spec {s : State} {child creator : TealetId} {switchNow : Bool}
    (hfree : E .freed ∨ ∃ r, s.tealets child = some r) :
    Sat E (fun s' => s' = { s with
        tealets := Function.update s.tealets child (some {})
        gCurrent := if switchNow then s.gCurrent else creator })
      (failStart s child creator switchNow) := by
  unfold failStart
  cases hr : s.tealets child with
  | none =>
      refine sat_bind.mpr ?_
      simp only [State.tealet, hr, sat_error]
      refine hfree.resolve_right ?_
      rintro ⟨r, hr'⟩
      rw [hr] at hr'
      cases hr'
  | some r =>
      refine Sat.run (tealet_of hr) ?_
      cases switchNow <;> exact rfl

/-- The call that is resumed returns, with a panic after it reset its child. -/
theorem finish_moved {v : View} {panic : Bool} {fr : Frame} {a' : Saved}
    (M : Moves leak C strict v panic fr p a')
    (hfree : E .freed ∨ strict) :
    Sat E (fun p' => (∃ own, HeapRep p'.1.heap a' own) ∧ p'.1.gTarget = none ∧
        p'.1.gFlags.panic = false ∧ p'.1.view a' = (p.1.view a').settle panic fr)
      (finish p.1 p.2) := by
  obtain ⟨s₁, b⟩ := p
  obtain ⟨⟨own, H⟩, hT, hp, hcore, hsched, ⟨hfr, hrc⟩, hres, hst, hcap, -⟩ := M
  obtain ⟨bf, rc, x⟩ := b
  dsimp only at *
  subst hfr hrc
  cases bf with
  | api => exact hres.elim
  | exit => exact hres.elim
  | switch g out =>
      refine ⟨⟨own, H⟩, hT, hp, ?_⟩
      cases panic <;> rfl
  | run result current previous run arg switchNow out spawned =>
      cases panic with
      | false =>
          simp only [Bool.false_eq_true, if_false]
          cases switchNow with
          | true => exact ⟨⟨own, H⟩, hT, hp, rfl⟩
          | false =>
              obtain ⟨c, hc, hact, hs⟩ := hsched.running
              have hc' : s₁.tealets s₁.gCurrent = some c := hc
              simp only [finish]
              refine Sat.ite_true (by simp) (sat_require (fun h => by cases h) ?_)
              refine Sat.run (tealet_of hc') (sat_require hs ?_)
              exact ⟨⟨own, H⟩, hT, hp, rfl⟩
      | true =>
          obtain rfl : switchNow = true := by simpa [Frame.isCapture] using (hcap rfl).1
          obtain ⟨h₁, h₂, h₃⟩ := hst result spawned rfl
          simp only [if_true, finish]
          refine (failStart_spec
            (.inl (hfree.resolve_right fun hs => by cases (hcap rfl).2 hs))).bind ?_
          rintro _ rfl
          cases spawned with
          | false =>
              refine Sat.ite_false (by simp) ?_
              exact ⟨⟨own, H⟩, hT, hp, rfl⟩
          | true =>
              refine Sat.ite_true rfl ?_
              obtain ⟨s', hdel, hT', hp', hrep', hview'⟩ := delete_empty (a := a')
                (s := ({ s₁ with tealets := Function.update s₁.tealets result (some {}) } :
                  State).unlockAuto) h₁ (Function.update_self ..)
              refine Sat.run hdel ?_
              refine ⟨⟨own, hrep' own H⟩, hT'.trans hT, (congrArg GFlags.panic hp').trans hp, ?_⟩
              refine hview'.trans ?_
              show ((s₁.view a').setTealet result (some {})).setTealet result none = _
              simp [View.settle, Frame.started, View.setTealet]
  | fork child current previous switchNow out =>
      cases panic with
      | false =>
          have hno : ¬ (switchNow = false ∧ Rc.ok = Rc.saved) := by simp
          simp only [Bool.false_eq_true, if_false, finish, if_neg hno]
          exact ⟨⟨own, H⟩, hT, hp, rfl⟩
      | true =>
          obtain rfl : switchNow = true := by simpa [Frame.isCapture] using (hcap rfl).1
          simp only [if_true, finish]
          refine (failStart_spec
            (.inl (hfree.resolve_right fun hs => by cases (hcap rfl).2 hs))).bind ?_
          rintro _ rfl
          exact ⟨⟨own, H⟩, hT, hp, rfl⟩

theorem callStep_transfer (I : Inv leak s a) {c : Call} {q : Request} {s₀ : State}
    (hL : c.Legal s) (hext : ∀ f, f.internal = false → E f) (h : c.request s = some (s₀, q))
    (hA : Assumes C strict E s₀ q) :
    Sat E (fun p => ∃ a', Ends C strict (s.view a) p.1 a') (callStep s c) := by
  obtain ⟨I₀, hview⟩ := I.withRequest h
  obtain ⟨fl, ar, hs₀, -⟩ := request_state h
  obtain ⟨halive, hsp⟩ := request_legal h hL
  have hk := request_frame h
  have halive₀ : Alive s₀ q.target := by
    rw [hs₀]
    exact halive
  obtain ⟨f, cond, inst, hf, -, heq⟩ := callStep_request h
  obtain ⟨cr, hcr, -⟩ := I.sched.running
  rw [heq]
  have hreq : Sat E (fun _ => True) (require f cond) := by
    refine ((safe_require (f := f) ?_).mono hext fun _ _ => True.intro)
    rcases hf with rfl | rfl <;> rfl
  have hver : Sat E (fun _ => True) (verifyCurrentMatchesCaller s q.sp) := by
    rw [verifyCurrentMatchesCaller_eq hcr]
    exact (verifyRecord_safe cr q.sp).mono hext fun _ h => h
  refine hreq.bind fun _ _ => hver.bind fun _ _ => (I₀.attempts_spec hA hext hsp hk halive₀).bind ?_
  rintro p (⟨a', hI, hmoves, hframe⟩ | ⟨v₁, panic, fr, a', hmoves, M⟩)
  · have hkf : ∀ b : Back, b.frame = .api ∨ b.frame = q.frame →
        b.frame = .api ∨ (∃ out, b.frame = .switch s₀.gCurrent out) ∨
          ∃ i, b.frame = .exit s₀.gCurrent i := by
      rintro b (hb | hb)
      · exact .inl hb
      · rw [hb]
        unfold OwnFrame at hk
        split at hk
        · exact .inr (.inr hk)
        · exact .inr (.inl hk)
    have hfin : ∀ b : Back, b.frame = .api ∨ b.frame = q.frame →
        Sat E (fun p' => ∃ a', Ends C strict (s.view a) p'.1 a') (finish p.1 b) := by
      intro b hb
      refine (finish_own hext (hkf b hb) rfl).imp ?_
      rintro p' hp'
      rw [hp']
      exact ⟨a', ⟨hI.rep, hI.gTarget, hI.panic, _, hview ▸ hmoves, .inl rfl⟩⟩
    unfold Request.finish
    split
    · exact hfin _ (.inr rfl)
    · exact hfin _ hframe
  · have hres := M.resumable
    have hne : ¬ (q.isExit = true ∧ p.2.frame = .api) := by
      rintro ⟨-, hapi⟩
      rw [M.back.1] at hapi
      rw [hapi] at hres
      exact hres
    unfold Request.finish
    rw [if_neg hne]
    refine (finish_moved M (hA.freed.imp_right And.left)).imp ?_
    rintro p' ⟨hrep, hT, hp, hv'⟩
    refine ⟨a', hrep, hT, hp, v₁, hview ▸ hmoves, .inr ?_⟩
    rw [hv']
    exact M.jump

end Attempts

/-! ## Starts -/

section Starts

variable {leak : StackId → Nat} {C : View → Label → Prop} {strict : Prop} {E : Fault → Prop}
  {s : State} {a : Saved} {t : TealetId} {c r : TealetSub} {sp : Nat} {k : Frame}

/-- A start that failed with `e`: the child is NEW again, or was freed if it
was spawned, and the creator goes on. `w` is the view without the child's
record. -/
structure StartFailed (s₁ : State) (a' : Saved) (w : View) (t : TealetId) (e : Err)
    (spawned : Bool) (p : State × Outcome) : Prop where
  rep : ∃ own, HeapRep p.1.heap a' own
  gTarget : p.1.gTarget = none
  flags : p.1.gFlags = s₁.gFlags
  previous : p.1.gPrevious = if spawned = true ∧ s₁.gPrevious = some t then none else s₁.gPrevious
  gArg : p.1.gArg = s₁.gArg
  outcome : p.2 = .returned (.err e) none
  view : p.1.view a' = if spawned then w.setTealet t none else w

theorem finish_start_failed {s₁ : State} (a' : Saved) (own : StackId → List ChunkId) {w : View}
    {e : Err} {sw spawned : Bool} {creator : TealetId}
    (hk : (∃ prev fn arg out, k = .run t creator prev fn arg sw out spawned) ∨
      (spawned = false ∧ ∃ prev out, k = .fork t creator prev sw out))
    (hw : s₁.view a' = { w.setTealet t (some r) with current := if sw then w.current else t })
    (hcre : creator = w.current) (htm : t ≠ mainId) (hnew : w.tealets t = some {})
    (hrep : HeapRep s₁.heap a' own) (hT : s₁.gTarget = none) :
    Sat E (StartFailed s₁ a' w t e spawned) (finish s₁ ⟨k, .err e, none⟩) := by
  have ht : s₁.tealets t = some r := by
    rw [show s₁.tealets = (s₁.view a').tealets from rfl, hw]
    exact Function.update_self ..
  have hback : ({ s₁ with
      tealets := Function.update s₁.tealets t (some {})
      gCurrent := if sw then s₁.gCurrent else creator } : State).view a' = w := by
    have htl : s₁.tealets = Function.update w.tealets t (some r) := congrArg View.tealets hw
    have hcur : s₁.gCurrent = if sw then w.current else t := congrArg View.current hw
    obtain ⟨h₁, h₂, h₃, h₄, h₅, h₆⟩ : s₁.nextTealet = w.nextTealet ∧ a'.img = w.img ∧
        a'.prev = w.prev ∧ s₁.heap.nextStack = w.nextStack ∧ s₁.mem = w.mem ∧ s₁.live = w.live :=
      ⟨congrArg View.nextTealet hw, congrArg View.img hw, congrArg View.prev hw,
        congrArg View.nextStack hw, congrArg View.mem hw, congrArg View.live hw⟩
    simp only [State.view, htl, hcur, h₁, h₂, h₃, h₄, h₅, h₆, Function.update_idem, hcre]
    rw [← hnew, Function.update_eq_self]
    cases sw <;> rfl
  rcases hk with ⟨prev, fn, arg, out, rfl⟩ | ⟨rfl, prev, out, rfl⟩
  · simp only [finish]
    refine (failStart_spec (.inr ⟨r, ht⟩)).bind ?_
    rintro _ rfl
    cases spawned with
    | false =>
        refine Sat.ite_false (by simp) ?_
        exact ⟨⟨own, hrep⟩, hT, rfl, by simp [State.unlockAuto], rfl, by simp, hback⟩
    | true =>
        refine Sat.ite_true rfl ?_
        obtain ⟨s', hdel, hT', hp', hrep', hview'⟩ := delete_empty (a := a')
          (s := ({ s₁ with
            tealets := Function.update s₁.tealets t (some {})
            gCurrent := if sw then s₁.gCurrent else creator } : State).unlockAuto) htm
            (Function.update_self ..)
        obtain ⟨hprev, harg⟩ : (s'.gPrevious = if s₁.gPrevious = some t then none
            else s₁.gPrevious) ∧ s'.gArg = s₁.gArg := by
          simp only [delete, require_of htm, ok_bind, State.tealet, State.lockAuto,
            State.unlockAuto, Function.update_self, stackDecref, pure_eq_ok,
            Except.ok.injEq] at hdel
          rw [← hdel]
          exact ⟨rfl, rfl⟩
        refine Sat.run hdel ?_
        refine ⟨⟨own, hrep' own hrep⟩, hT'.trans hT, hp', by simp [hprev], harg, by simp, ?_⟩
        refine hview'.trans ?_
        exact congrArg (fun v => View.setTealet v t none) hback
  · have hno : ¬ (sw = false ∧ (Rc.err e) = Rc.saved) := by simp
    simp only [finish, if_neg hno]
    refine (failStart_spec (.inr ⟨r, ht⟩)).bind ?_
    rintro _ rfl
    exact ⟨⟨own, hrep⟩, hT, rfl, by simp [State.unlockAuto], rfl, by simp, hback⟩

/-- The record a started child gets. -/
def childRecord (far : Nat) (flags : TFlags) : TealetSub := { stackFar := far, flags := flags }

/-- The switch of a start: to the child, or as the child to the creator. -/
def beginSwitch (s : State) (t : TealetId) (r : TealetSub) (switchNow : Bool) (k : Frame)
    (sp : Nat) : Res (State × Back) :=
  if switchNow then switchstack (s.begin t r s.gCurrent) t null k sp
  else switchstack (s.begin t r t) s.gCurrent null k sp

theorem run_eq (hT : s.gTarget = none) (hnew : s.tealets t = some {}) (fn : RunFn)
    (parg : Option Ptr) (hint : Nat) (switchNow spawned : Bool) (site : Site) :
    run s t fn parg hint switchNow spawned site =
      verifyCurrentMatchesCaller s site.sp >>= fun _ =>
      beginSwitch s.lockAuto t (childRecord (pickInitialFar site.far hint) { bound := true })
        switchNow (.run t s.gCurrent s.gPrevious fn (parg.getD null) switchNow parg.isSome spawned)
        site.sp >>= fun p => leaveXfer p.1 p.2 >>= fun s' => finish s' p.2 := by
  have hT' : ∀ f, (s.setTealet t f).lockAuto.gTarget = none := fun f => hT
  have hbegin : ∀ cur, ({ (s.setTealet t { flags := { bound := true } }).lockAuto.setTealet t
      (childRecord (pickInitialFar site.far hint) { bound := true }) with
        gCurrent := cur } : State) =
      s.lockAuto.begin t (childRecord (pickInitialFar site.far hint) { bound := true }) cur := by
    intro cur
    simp only [State.begin, State.setTealet, State.lockAuto, Function.update_idem]
  unfold run
  simp only [tealet_of hnew, ok_bind, ne_eq, not_true_eq_false, if_false]
  congr 1
  funext _
  simp only [require_of (hT' _), ok_bind]
  rw [require_of (f := .initialstub) True.intro, ok_bind]
  cases switchNow
  · simp only [beginSwitch, Bool.false_eq_true, if_false, ← hbegin]
    rfl
  · simp only [beginSwitch, if_true, ← hbegin]
    rfl

theorem fork_eq (hnew : s.tealets t = some {})
    (hc : s.tealets s.gCurrent = some c) (hs : c.stack = none) (hfar : c.stackFar ≠ spFurthest)
    (parg : Option Ptr) (switchNow : Bool) (site : Site) :
    fork s t parg switchNow site =
      verifyCurrentMatchesCaller s site.sp >>= fun _ =>
      beginSwitch s.lockAuto t (childRecord c.stackFar
        { bound := true, fork := true, mainLineage := c.flags.mainLineage }) switchNow
        (.fork t s.gCurrent s.gPrevious switchNow parg.isSome) site.sp >>= fun p =>
      leaveXfer p.1 p.2 >>= fun s' => finish s' p.2 := by
  have hbegin : ∀ cur, ({ (s.setTealet t (childRecord c.stackFar
      { bound := true, fork := true, mainLineage := c.flags.mainLineage })).lockAuto with
        gCurrent := cur } : State) =
      s.lockAuto.begin t (childRecord c.stackFar
        { bound := true, fork := true, mainLineage := c.flags.mainLineage }) cur := fun _ => rfl
  unfold fork
  simp only [tealet_of hnew, tealet_of hc, ok_bind, ne_eq, not_true_eq_false, if_false, if_neg hfar,
    require_of hs]
  congr 1
  funext _
  cases switchNow
  · simp only [beginSwitch, Bool.false_eq_true, if_false, ← hbegin]
    rfl
  · simp only [beginSwitch, if_true, ← hbegin]
    rfl

/-- The call `k` of the running tealet `creator` starts `t`. -/
inductive StartFrame (t creator : TealetId) (prev : Option TealetId) (sw spawned : Bool) :
    Frame → Prop where
  | run (fn : RunFn) (arg : Ptr) (out : Bool) :
      StartFrame t creator prev sw spawned (.run t creator prev fn arg sw out spawned)
  | fork (out : Bool) (hs : spawned = false) :
      StartFrame t creator prev sw spawned (.fork t creator prev sw out)

/-- What user code sees when a start succeeds. -/
def startOutcome (t : TealetId) : Frame → Outcome
  | .run _ _ _ fn arg switchNow _ spawned =>
      if switchNow then .entered fn t arg
      else .returned .ok none (if spawned then some t else none)
  | .fork _ _ _ _ out => .returned .ok (if out then some null else none)
  | _ => .returned .ok none

variable {creator : TealetId} {prev : Option TealetId} {sw spawned : Bool}

theorem StartFrame.leave (h : StartFrame t creator prev sw spawned k) (s₁ : State) (rc : Rc)
    (x : Option Ptr) : leaveXfer s₁ ⟨k, rc, x⟩ = .ok s₁ := by
  cases h <;> cases rc <;> rfl

theorem StartFrame.frames (h : StartFrame t creator prev sw spawned k) :
    (∃ prev fn arg out, k = .run t creator prev fn arg sw out spawned) ∨
      (spawned = false ∧ ∃ prev out, k = .fork t creator prev sw out) := by
  cases h with
  | run fn arg out => exact .inl ⟨_, _, _, _, rfl⟩
  | fork out hs => exact .inr ⟨hs, _, _, rfl⟩

theorem StartFrame.started (h : StartFrame t creator prev sw spawned k) :
    k.started = some (t, spawned) := by
  cases h with
  | run => rfl
  | fork out hs =>
      subst hs
      rfl

theorem StartFrame.isCapture (h : StartFrame t creator prev sw spawned k) : k.isCapture = !sw := by
  cases h <;> rfl

theorem finish_started {s₁ : State} (hk : StartFrame t creator prev sw spawned k)
    (hr : sw = true → s₁.gCurrent = t ∧ ∃ r, s₁.tealets t = some r ∧ r.stack = none) :
    finish s₁ ⟨k, .saved, some null⟩ = .ok
      (({ s₁ with gPrevious := if sw then s₁.gPrevious else prev } : State).unlockAuto,
        startOutcome t k) := by
  cases hk with
  | run fn arg out =>
      cases sw with
      | true =>
          obtain ⟨rfl, r, hr, hs⟩ := hr rfl
          simp only [finish, tealet_of hr, ok_bind, require_of hs, if_true, true_and, true_or,
            startOutcome, forall_const]
          rw [require_of (f := .initialstub) True.intro, ok_bind]
          rfl
      | false => simp [finish, startOutcome]
  | fork out hs =>
      cases sw <;> simp [finish, startOutcome, pure_eq_ok]

/-- The end of a start. -/
inductive StartEnd (s : State) (a : Saved) (t : TealetId) (c r : TealetSub) (sw spawned : Bool)
    (prev : Option TealetId) (k : Frame) (sp : Nat) (p : State × Outcome) : Prop where
  | refused {s₁ : State} {a' : Saved} {e : Err} (he : e = .inval ∨ e = .integrity)
      (hprev : s₁.gPrevious = s.gPrevious) (hflags : s₁.gFlags = s.gFlags) (ha : s₁.gArg = s.gArg)
      (h : StartFailed s₁ a' (s.view a) t e spawned p)
  | nomem {s₁ : State} {a' : Saved} {g : Growth}
      (hg : (s.view a).growth none (if sw then r.stackFar else c.stackFar) true s.heap.allocs = g)
      (hfate : (chooseFate g {} true sp k).1 = none)
      (hprev : s₁.gPrevious = s.gPrevious) (hflags : s₁.gFlags = s.gFlags) (ha : s₁.gArg = null)
      (h : StartFailed s₁ a' ((s.view a).grow g) t .mem spawned p)
  | started {a' : Saved} {own' : StackId → List ChunkId} {g : Growth}
      (hsp : sp < if sw then c.stackFar else r.stackFar)
      (hg : (s.view a).growth none (if sw then r.stackFar else c.stackFar) true s.heap.allocs = g)
      (hok : g.failed = false) (hrep : HeapRep p.1.heap a' own')
      (hT : p.1.gTarget = none) (ha : p.1.gArg = null)
      (hprev : p.1.gPrevious = if sw then some s.gCurrent else prev)
      (hflags : p.1.gFlags = s.gFlags) (hout : p.2 = startOutcome t k)
      (hview : p.1.view a' = if sw then
          (((s.view a).grow g).save s.gCurrent c r.stackFar sp k).arrive t r
        else ((s.view a).grow g).save t r c.stackFar sp k)

theorem Begun.finish (I : Inv leak s a) (hnew : s.tealets t = some {})
    (hk : StartFrame t s.gCurrent prev sw spawned k) (hr : Child r) {cur : TealetId} {F far : Nat}
    {v : Growth → View} {p : State × Back} (hcur : cur = if sw then s.gCurrent else t)
    (hF : F = if sw then r.stackFar else c.stackFar)
    (hfar : far = if sw then c.stackFar else r.stackFar)
    (hv : ∀ g, v g = if sw then (((s.view a).grow g).save s.gCurrent c r.stackFar sp k).arrive t r
      else ((s.view a).grow g).save t r c.stackFar sp k)
    (h : Begun s a t cur r F far k sp v p) :
    Sat E (StartEnd s a t c r sw spawned prev k sp)
      (leaveXfer p.1 p.2 >>= fun s' => Tealet.finish s' p.2) := by
  obtain ⟨htc, htm⟩ := I.child_ne hnew
  obtain ⟨own, H⟩ := I.rep
  obtain ⟨s₁, b⟩ := p
  subst hF hfar
  cases h with
  | @refused e err herr he hp =>
      obtain ⟨rfl, rfl⟩ := Prod.mk.inj hp
      refine Sat.run (hk.leave _ _ _) ?_
      have hpr : ({ s.begin t r cur with env := e } : State).gPrevious = s.gPrevious := rfl
      refine Sat.imp (finish_start_failed (r := r) (w := s.view a) a own hk.frames ?_ rfl htm hnew
        H I.gTarget) fun p hp => .refused herr hpr rfl rfl hp
      subst hcur
      rfl
  | @nomem a' own' g hg hfate hrep hb hT ha hprev hflags he hview =>
      dsimp only at hb hview hrep hT ha hprev hflags
      subst hb
      refine Sat.run (hk.leave _ _ _) ?_
      refine Sat.imp (finish_start_failed (r := r) (w := (s.view a).grow g) a' own'
        hk.frames ?_ rfl htm hnew hrep hT) fun p hp => StartEnd.nomem hg hfate hprev hflags ha hp
      subst hcur
      exact hview
  | @begun a' own' g hsp hg hok hrep hb hT ha hprev hflags he hview =>
      dsimp only at hb hview hrep hT ha hprev hflags
      subst hb
      refine Sat.run (hk.leave _ _ _) ?_
      have hchild : sw = true → s₁.gCurrent = t ∧ ∃ r, s₁.tealets t = some r ∧ r.stack = none := by
        intro hsw
        rw [hv, if_pos hsw] at hview
        have h₁ : s₁.gCurrent = t := congrArg View.current hview
        have h₂ : s₁.tealets t = some r := by
          rw [show s₁.tealets = (s₁.view a').tealets from rfl, hview]
          exact Function.update_self ..
        exact ⟨h₁, r, h₂, hr.stack⟩
      dsimp only
      rw [finish_started hk hchild]
      refine .started hsp hg hok hrep hT ha ?_ hflags rfl ((hv g) ▸ hview)
      show (if sw = true then s₁.gPrevious else prev) = _
      cases sw with
      | true => exact hprev.trans (congrArg some hcur)
      | false => rfl

theorem Inv.beginSwitch_spec (I : Inv leak s a) (hc : s.tealets s.gCurrent = some c)
    (hnew : s.tealets t = some {}) (hr : Child r) (hsp : sp < spFurthest)
    (hk : StartFrame t s.gCurrent prev sw spawned k)
    (hE : External E s.env s.mem c r sp sp) (hE' : External E s.env s.mem r c sp sp) :
    Sat E (StartEnd s a t c r sw spawned prev k sp)
      (beginSwitch s t r sw k sp >>= fun p => leaveXfer p.1 p.2 >>= fun s' => finish s' p.2) := by
  unfold beginSwitch
  cases sw with
  | true =>
      refine (Sat.ite_true rfl (I.start_spec (k := k) hc hnew hr hsp hE)).bind fun p hp => ?_
      exact hp.finish I hnew hk hr rfl rfl rfl fun _ => rfl
  | false =>
      refine (Sat.ite_false (by simp) (I.capture_spec (k := k) hc hnew hr hsp hE')).bind
        fun p hp => ?_
      exact hp.finish I hnew hk hr rfl rfl rfl fun _ => rfl

/-- The label of a start. -/
def startLabel (sw : Bool) (t : TealetId) (far : Nat) (allocs : List Bool) : Label :=
  if sw then .start t far allocs else .capture t far allocs

theorem StartFailed.ends {s₁ : State} {a' : Saved} {w : View} {e : Err} {p : State × Outcome}
    (h : StartFailed s₁ a' w t e spawned p) (hflags : s₁.gFlags.panic = false) {v : View}
    (hw : ReflTransGen (Small C) v w) (htc : t ≠ w.current) (htm : t ≠ mainId)
    (hnew : w.tealets t = some {}) (hD : spawned = true → ∃ w, C w (.delete t)) :
    Ends C strict v p.1 a' := by
  refine ⟨h.rep, h.gTarget, h.flags ▸ hflags, _, ?_, .inl rfl⟩
  rw [h.view]
  cases spawned with
  | false => exact hw
  | true => exact hw.tail (.delete (hD rfl) hnew htc htm rfl)

theorem StartEnd.ends (I : Inv leak s a) (hc : s.tealets s.gCurrent = some c)
    (hnew : s.tealets t = some {}) (hr : Child r) (hk : StartFrame t s.gCurrent prev sw spawned k)
    (hC : C (s.view a) (startLabel sw t r.stackFar s.heap.allocs))
    (hD : spawned = true → ∃ w, C w (.delete t)) {p : State × Outcome}
    (h : StartEnd s a t c r sw spawned prev k sp p) :
    ∃ a', Ends C strict (s.view a) p.1 a' := by
  obtain ⟨htc, htm⟩ := I.child_ne hnew
  cases h with
  | refused he hprev hflags ha h => exact ⟨_, h.ends (hflags ▸ I.panic) .refl htc htm hnew hD⟩
  | @nomem s₁ a' g hg hfate hprev hflags ha h =>
      refine ⟨_, h.ends (hflags ▸ I.panic) (.single ?_) htc htm hnew hD⟩
      subst hg
      cases sw with
      | true => exact .stallStart hC hfate
      | false =>
          have hfar : (s.view a).far (s.view a).current = c.stackFar := far_eq (v := s.view a) hc
          simp only [Bool.false_eq_true, if_false, ← hfar] at hfate ⊢
          exact .stallCapture hC hfate
  | @started a' own' g hsp hg hok hrep hT ha hprev hflags hout hview =>
      refine ⟨a', ⟨own', hrep⟩, hT, hflags ▸ I.panic, s.view a, .refl, .inr ?_⟩
      rw [hview]
      cases sw with
      | true =>
          exact .start hC hc hnew hr.active.bound hr.active.exited hr.active.defunct
            hr.quiet hr.stack
            hr.far hg hok hsp ⟨spawned, hk.started⟩ hk.isCapture
      | false =>
          exact .capture hC hc hnew hr.active.bound hr.active.exited hr.active.defunct
            hr.quiet hr.far
            hg hok hsp ⟨spawned, hk.started⟩ hk.isCapture

/-- `lock_auto` keeps the invariant. -/
theorem Inv.lockAuto (I : Inv leak s a) : Inv leak s.lockAuto a :=
  ⟨I.rep, I.core, I.sched, I.gTarget, I.panic⟩

theorem Inv.empty_of_new (I : Inv leak s a) (hr : s.tealets t = some r) (hf : r.flags = {}) :
    r = {} :=
  (I.core.record t r hr).unbound (by rw [hf])

theorem child_childRecord {far : Nat} {f : TFlags} (hfar : far < spFurthest) (hb : f.Active)
    (hq : f.quiet = f) : Child (childRecord far f) := ⟨hb, hq, rfl, hfar⟩

theorem Ends.refl (I : Inv leak s a) : Ends C strict (s.view a) s a :=
  ⟨I.rep, I.gTarget, I.panic, _, .refl, .inl rfl⟩

theorem pickInitialFar_lt {far hint : Nat} (hfar : far < spFurthest) (hh : hint < spFurthest) :
    pickInitialFar far hint < spFurthest := by
  unfold pickInitialFar
  split
  · exact hfar
  · split <;> assumption

theorem run_ends (strict : Prop) (I : Inv leak s a) (hext : ∀ f, f.internal = false → E f)
    (halive : Alive s t)
    {fn : RunFn} {parg : Option Ptr} {hint : Nat} {site : Site} (hsite : site.Inside s)
    (hhint : hint < spFurthest)
    (hC : C (s.view a) (startLabel sw t (pickInitialFar site.far hint) s.heap.allocs))
    (hD : spawned = true → ∃ w, C w (.delete t)) :
    Sat E (fun p => ∃ a', Ends C strict (s.view a) p.1 a')
      (run s t fn parg hint sw spawned site) := by
  obtain ⟨r, hr⟩ := Option.isSome_iff_exists.mp halive
  obtain ⟨c, hc, -⟩ := I.sched.running
  by_cases hf : r.flags = {}
  · obtain rfl := I.empty_of_new hr hf
    rw [run_eq I.gTarget hr]
    have hver : Sat E (fun _ => True) (verifyCurrentMatchesCaller s site.sp) := by
      rw [verifyCurrentMatchesCaller_eq hc]
      exact (verifyRecord_safe c site.sp).mono hext fun _ h => h
    have hchild : Child (childRecord (pickInitialFar site.far hint) { bound := true }) :=
      child_childRecord (pickInitialFar_lt hsite.2.2 hhint) ⟨rfl, rfl, rfl⟩ rfl
    refine hver.bind fun _ _ => ?_
    have hk : StartFrame t s.lockAuto.gCurrent s.gPrevious sw spawned
        (.run t s.gCurrent s.gPrevious fn (parg.getD null) sw parg.isSome spawned) := .run _ _ _
    refine (I.lockAuto.beginSwitch_spec hc hr hchild
      (Nat.lt_of_le_of_lt hsite.1 hsite.2.2) hk (External.mono hext) (External.mono hext)).imp
      fun p hp => ?_
    exact hp.ends I.lockAuto hc hr hchild hk hC hD
  · unfold run
    refine Sat.run (tealet_of hr) (Sat.ite_true hf ?_)
    exact ⟨a, .refl I⟩

theorem fork_ends (I : Inv leak s a) (hext : ∀ f, f.internal = false → E f) (halive : Alive s t)
    {parg : Option Ptr} {site : Site} (hsite : site.Inside s)
    (hC : C (s.view a) (startLabel sw t (runningFar s) s.heap.allocs)) :
    Sat E (fun p => ∃ a', Ends C strict (s.view a) p.1 a') (fork s t parg sw site) := by
  obtain ⟨r, hr⟩ := Option.isSome_iff_exists.mp halive
  obtain ⟨c, hc, hact, hs⟩ := I.sched.running
  have hc : s.tealets s.gCurrent = some c := hc
  have hfarc : runningFar s = c.stackFar := by simp [runningFar, hc]
  have hver : Sat E (fun _ => True) (verifyCurrentMatchesCaller s site.sp) := by
    rw [verifyCurrentMatchesCaller_eq hc]
    exact (verifyRecord_safe c site.sp).mono hext fun _ h => h
  by_cases hf : r.flags = {}
  · obtain rfl := I.empty_of_new hr hf
    by_cases hfar : c.stackFar = spFurthest
    · unfold fork
      refine hver.bind fun _ _ => Sat.run (tealet_of hr) (Sat.ite_false (by simp) ?_)
      refine Sat.run (tealet_of hc) (Sat.ite_true hfar ?_)
      exact ⟨a, .refl I⟩
    · rw [fork_eq hr hc hs hfar]
      have hchild : Child (childRecord c.stackFar
          { bound := true, fork := true, mainLineage := c.flags.mainLineage }) := by
        refine child_childRecord ?_ ⟨rfl, rfl, rfl⟩ rfl
        have := (I.core.record _ c hc).far_le
        omega
      refine hver.bind fun _ _ => ?_
      have hk : StartFrame t s.lockAuto.gCurrent s.gPrevious sw false
          (.fork t s.gCurrent s.gPrevious sw parg.isSome) := .fork _ rfl
      refine (I.lockAuto.beginSwitch_spec hc hr hchild
        (Nat.lt_of_le_of_lt hsite.1 hsite.2.2) hk (External.mono hext) (External.mono hext)).imp
        fun p hp => ?_
      exact hp.ends I.lockAuto hc hr hchild hk (by rw [hfarc] at hC; exact hC) nofun
  · unfold fork
    refine hver.bind fun _ _ => Sat.run (tealet_of hr) (Sat.ite_true hf ?_)
    exact ⟨a, .refl I⟩

end Starts

end Tealet
