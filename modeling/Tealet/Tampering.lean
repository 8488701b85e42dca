import Tealet.Delivery
import Tealet.Granted
import Tealet.Previous

/-!
# What the snapshot finds

The snapshot is taken when a tealet is given the processor and compared
when it gives it away. Between the two user code may write anywhere. A
byte of the snapshot that is no longer what it was then is found by the
next call that would let another tealet run, whichever that is: the call
fails and the caller goes on. Nothing else is taken for such a change.
-/

namespace Tealet

open Slice Hoare

/-! ## The comparison -/

section Compare

variable {d : IntegrityData} {e : Env} {m g : Memory}

theorem IntegrityData.agrees_unguarded (d : IntegrityData) (m : Memory) :
    ({ d with guardBytes := 0 }).Agrees m ↔ d.Agrees m := Iff.rfl

/-- The comparison is over the bytes there are, and ends the watch. -/
theorem snapshotVerifyCurrent_compares (e : Env) (m : Memory) :
    Returns (fun p => p.1.data.snapshotBytes = 0 ∧
      (p.2 = none ∧ e.data.Agrees m ∨ p.2 = some .integrity ∧ ¬ e.data.Agrees m))
      (snapshotVerifyCurrent e m) := by
  unfold snapshotVerifyCurrent
  by_cases h0 : e.data.snapshotBytes = 0
  · rw [if_pos h0]
    exact ⟨h0, .inl ⟨rfl, fun h => absurd h0 h⟩⟩
  rw [if_neg h0]
  refine returns_require.bind fun _ hbase => ?_
  dsimp only
  by_cases hsame : e.data.snapshotBlock.take e.data.snapshotBytes =
      readSlice m e.data.stackBase e.data.snapshotBytes
  · rw [if_pos hsame]
    exact ⟨rfl, .inl ⟨rfl, fun _ => ⟨hbase, hsame⟩⟩⟩
  rw [if_neg hsame]
  have hno : ¬ e.data.Agrees m := fun h => hsame (h h0).2
  split
  · exact True.intro
  · split
    · exact ⟨rfl, .inr ⟨rfl, hno⟩⟩
    · exact True.intro

theorem release_compares (e : Env) (m : Memory) :
    Returns (fun p => p.1.data.snapshotBytes = 0 ∧
      (p.2 = none ∧ e.data.Agrees m ∨ p.2 = some .integrity ∧ ¬ e.data.Agrees m))
      (guardUnprotectCurrent e >>= fun e => snapshotVerifyCurrent e m) := by
  have hsame : Returns (fun e' => e'.data.Agrees m ↔ e.data.Agrees m)
      (guardUnprotectCurrent e) := by
    unfold guardUnprotectCurrent
    split
    · exact Iff.rfl
    · refine returns_any.bind fun _ _ => ?_
      have hdata := mprotect_data e e.data.guardBase e.data.guardBytes false
      show IntegrityData.Agrees { (e.mprotect e.data.guardBase e.data.guardBytes false).1.data with
        guardBytes := 0 } m ↔ _
      rw [hdata]
      exact e.data.agrees_unguarded m
  refine hsame.bind fun e' he' => (snapshotVerifyCurrent_compares e' m).imp fun p hp => ?_
  rw [he'] at hp
  exact hp

end Compare

/-! ## `tealet_switchstack` -/

section Switch

variable {s s' : State} {t : TealetId} {arg : Ptr} {k : Frame} {sp : Nat} {d : IntegrityData}
  {m : Memory}

/-- `tealet_switchstack` returns to its caller in an error; what the
comparison has found is not found again. -/
structure Stopped (s : State) (k : Frame) (p : State × Back) : Prop where
  current : p.1.gCurrent = s.gCurrent
  back : ∃ e, (e = .inval ∨ e = .defunct ∨ e = .integrity) ∧ p.2 = ⟨k, .err e, none⟩
  before : p.2.rc ≠ .err .integrity → p.1.env = s.env ∧ p.1.mem = s.mem
  after : p.2.rc = .err .integrity → p.1.env.data.snapshotBytes = 0

/-- With a changed snapshot stacks are not switched. -/
theorem switchstack_stopped (hno : ¬ s.env.data.Agrees s.mem) :
    Returns (Stopped s k) (switchstack s t arg k sp) := by
  have hcopy : Returns (fun p => p.1.gCurrent = s.gCurrent ∧
      (p.2 = some .integrity ∧ p.1.env.data.snapshotBytes = 0 ∨
        (p.2 = some .inval ∨ p.2 = some .defunct) ∧ p.1.env = s.env ∧ p.1.mem = s.mem))
      (copyStage s t arg sp) := by
    unfold copyStage
    refine returns_any.bind fun _ _ => returns_any.bind fun r _ => ?_
    by_cases hx : r.flags.exited = true
    · exact Sat.ite_true hx ⟨rfl, .inr ⟨.inl rfl, rfl, rfl⟩⟩
    refine Sat.ite_false hx ((isDefunct_refusal s t).bind fun p hp => ?_)
    obtain ⟨s₁, defunct⟩ := p
    have hR : Refusal s s₁ := hp.1
    by_cases hd : defunct = true
    · exact Sat.ite_true hd ⟨hR.current, .inr ⟨.inr rfl, hR.env, hR.mem⟩⟩
    refine Sat.ite_false hd (returns_any.bind fun rejected _ => ?_)
    by_cases hrej : rejected = true
    · exact Sat.ite_true hrej ⟨hR.current, .inr ⟨.inl rfl, hR.env, hR.mem⟩⟩
    refine Sat.ite_false hrej ?_
    rw [← bind_assoc]
    refine (release_compares s₁.env s₁.mem).bind ?_
    rintro ⟨e, v⟩ ⟨h0, hv⟩
    rw [hR.env, hR.mem] at hv
    rcases hv with ⟨-, ha⟩ | ⟨hv, -⟩
    · exact absurd ha hno
    · obtain rfl : v = some .integrity := hv
      exact ⟨hR.current, .inl ⟨rfl, h0⟩⟩
  rw [switchstack_eq]
  refine hcopy.bind ?_
  rintro ⟨s₁, v⟩ ⟨hcur, ⟨hv, h0⟩ | ⟨hv, henv, hmem⟩⟩
  · obtain rfl : v = some .integrity := hv
    exact ⟨hcur, ⟨.integrity, .inr (.inr rfl), rfl⟩, fun h => absurd rfl h, fun _ => h0⟩
  · rcases hv with hv | hv
    · obtain rfl : v = some .inval := hv
      exact ⟨hcur, ⟨.inval, .inl rfl, rfl⟩, fun _ => ⟨henv, hmem⟩, fun h => by cases h⟩
    · obtain rfl : v = some .defunct := hv
      exact ⟨hcur, ⟨.defunct, .inr (.inl rfl), rfl⟩, fun _ => ⟨henv, hmem⟩, fun h => by cases h⟩

/-- The watch is what it was over the memory there was, or agrees with the memory there is. -/
def State.Settled (d : IntegrityData) (m : Memory) (s : State) : Prop :=
  s.env.data = d ∧ s.mem = m ∨ s.env.data.Agrees s.mem

theorem State.Settled.congr (h : s.Settled d m) (hd : s'.env.data = s.env.data)
    (hm : s'.mem = s.mem) : s'.Settled d m := by
  unfold State.Settled
  rw [hd, hm]
  exact h

theorem State.Settled.agrees (h : s'.Settled s.env.data s.mem) (ha : s.env.data.Agrees s.mem) :
    s'.env.data.Agrees s'.mem := by
  rcases h with ⟨hd, hm⟩ | h
  · rw [hd, hm]
    exact ha
  · exact h

theorem switchstack_settled (h : s.Settled d m) :
    Returns (fun p => p.1.Settled d m) (switchstack s t arg k sp) := by
  by_cases ha : s.env.data.Agrees s.mem
  · refine (switchstack_watch ha).imp fun p hp => ?_
    cases hp with
    | refused hrc hR => exact h.congr (by rw [hR.env]) hR.mem
    | armed hrc hcfg hpage hnear hc he => exact .inr (armEnv_planned he).2
  · refine (switchstack_stopped ha).imp fun p hp => ?_
    by_cases hrc : p.2.rc = .err .integrity
    · exact .inr fun h0 => absurd (hp.after hrc) h0
    · obtain ⟨he, hm⟩ := hp.before hrc
      exact h.congr (by rw [he]) hm

theorem Env.Books.data {e e' : Env} (h : e.Books e') : e'.data = e.data := by
  obtain ⟨n, c, f, g, rfl⟩ := h
  rfl

theorem configureSet_settled (h : s.Settled d m) (request : Config) :
    (configureSet s request).1.Settled d m := by
  unfold configureSet
  dsimp only
  split
  all_goals
    rename_i e heq
    unfold snapshotEnsureCapacity at heq
  · split at heq
    · cases heq
      exact h.congr rfl rfl
    · split at heq <;> cases heq
      exact .inr fun h0 => absurd rfl h0
  · split at heq
    · cases heq
    · split at heq <;> cases heq
      exact h.congr rfl rfl

theorem settled_passes (d : IntegrityData) (m : Memory) :
    Passes (State.Settled d m) (State.Settled d m) where
  lock h := h.congr (lockAuto_data _) rfl
  unlock h := h.congr (unlockAuto_data _).1 rfl
  record _ h := h
  recordIn _ h := h
  signal h := h
  signalIn h := h
  current h := h
  previous h := h
  switch h := switchstack_settled h
  alloc {s} h := by
    refine h.congr (alloc_books s).data ?_
    unfold alloc
    rcases s.heap.malloc with ⟨_ | _, h'⟩ <;> rfl
  dup h := returns_any.imp fun _ _ => h
  drop _ _ h := returns_any.imp fun _ _ => h.congr (freeTealet_books _ _).data rfl
  configure h := configureSet_settled h _

/-- The bytes of the snapshot are those that the configuration asks for
past the boundary of the running tealet. -/
def State.Planned (s : State) : Prop :=
  ∀ x, s.env.data.InSnapshot x ↔
    runningFar s ≤ x ∧ x < runningFar s + snapshotLength s.env.pageSize s.env.cfg (runningFar s)

theorem State.Planned.congr (h : s.Planned) (he : s.env.SameConfig s'.env)
    (hd : s'.env.data = s.env.data) (hf : runningFar s' = runningFar s) : s'.Planned := by
  intro x
  rw [hd, he.cfg, he.pageSize, hf]
  exact h x

end Switch

/-! ## Transfers -/

section Transfers

variable {leak : StackId → Nat} {s s₀ s₁ : State} {a : Saved} {t : TealetId} {c r : TealetSub}
  {f : XFlags} {isExit : Bool} {k : Frame} {sp : Nat} {arg : Ptr} {b : Back} {q : Request}
  {cl : Call}

/-- An error of `tealet_switchstack` is the error of the call. -/
theorem finish_errs {s₁ : State} {b : Back} {e : Err} (hb : b.rc = .err e) :
    Returns (fun p => ∃ x cr, p.2 = .returned (.err e) x cr) (finish s₁ b) := by
  obtain ⟨fr, rc, y⟩ := b
  obtain rfl : rc = .err e := hb
  cases fr with
  | api => exact ⟨_, _, rfl⟩
  | switch g out => exact ⟨_, _, rfl⟩
  | exit g implicit =>
      cases implicit with
      | true => exact True.intro
      | false => exact returns_any.bind fun _ _ => ⟨_, _, rfl⟩
  | run result current previous fn arg sw out spawned =>
      simp only [finish]
      refine returns_any.bind fun s₂ _ => ?_
      cases spawned with
      | false => exact ⟨_, _, rfl⟩
      | true => exact returns_any.bind fun s₃ _ => ⟨_, _, rfl⟩
  | fork child current previous sw out =>
      simp only [finish]
      exact returns_any.bind fun s₂ _ => ⟨_, _, rfl⟩

/-- What a call does with the snapshot of the tealet that makes it, and
whose it leaves; `apt` is when it has to find a change. -/
structure Watches (s : State) (apt : Prop) (p : State × Outcome) : Prop where
  sound : s.env.data.Agrees s.mem → ¬ p.2.Tampered
  stays : ¬ s.env.data.Agrees s.mem → p.1.gCurrent = s.gCurrent
  finds : ¬ s.env.data.Agrees s.mem → apt → p.2.Tampered
  planned : p.1.gCurrent = s.gCurrent ∨ p.1.Planned

theorem Watches.mono {p : State × Outcome} {apt apt' : Prop} (h : Watches s apt p)
    (hapt : apt' → apt) : Watches s apt' p :=
  ⟨h.sound, h.stays, fun hno ha => h.finds hno (hapt ha), h.planned⟩

/-- The state of an attempt has the current tealet of the request. -/
theorem Attempt.current (I : Inv leak s a) (hsp : q.sp < spFurthest)
    (hk : OwnFrame s q.isExit q.frame) (halive : Alive s q.target) (h : Attempt s q s₁ t f) :
    s₁.gCurrent = s.gCurrent := by
  cases h with
  | first => rfl
  | fallback hn heq hrc =>
      obtain ⟨c, hc, -⟩ := I.sched.running
      obtain ⟨r, hr⟩ := Option.isSome_iff_exists.mp halive
      obtain ⟨-, -, hcur⟩ := ((I.xferInner_returns hc hr hsp hk).result heq).back I hc hr hrc
      exact hcur

end Transfers

/-! ## Starts -/

section Starts

variable {leak : StackId → Nat} {s s₁ : State} {a : Saved} {t : TealetId} {c r : TealetSub}
  {k : Frame} {sp : Nat} {sw spawned : Bool} {prev : Option TealetId}

theorem Watches.locked {p : State × Outcome} {apt : Prop} (h : Watches s.lockAuto apt p) :
    Watches s apt p := by
  have hagree : s.lockAuto.env.data.Agrees s.mem ↔ s.env.data.Agrees s.mem := by
    show s.env.lockAuto.data.Agrees s.mem ↔ _
    rw [lockAuto_data]
  exact ⟨fun ha => h.sound (hagree.mpr ha), fun hno => h.stays fun ha => hno (hagree.mp ha),
    fun hno => h.finds fun ha => hno (hagree.mp ha), h.planned⟩

/-- A call that is refused before it looks at the watch. -/
theorem Watches.refused {e : Err} {apt : Prop} (he : e ≠ .integrity) (hapt : ¬ apt) :
    Watches s apt (s, .returned (.err e) none) := by
  refine ⟨fun _ => ?_, fun _ => rfl, fun _ ha => absurd ha hapt, .inl rfl⟩
  rintro ⟨x, cr, h⟩
  cases h
  exact he rfl

end Starts

/-! ## Calls -/

section Calls

variable {leak : StackId → Nat} {s : State} {a : Saved} {cl : Call}

/-- The call makes the tealet that it starts. -/
def Call.makes : Call → Bool
  | .spawn .. => true
  | _ => false

/-- The call is one that switches stacks, and not one that is refused or
that fails to make the tealet it starts. -/
def Call.Switching (s : State) (allocs : List Bool) (cl : Call) : Prop :=
  cl.Transfers ∧ cl.Apt s ∧ (cl.makes = true → (nextAlloc allocs).1 = true)

/-- A call that does not switch stacks. -/
theorem Watches.quiet {p : State × Outcome} {apt : Prop} (hq : Quiet s p.1)
    (ho : ∀ x cr, p.2 ≠ .returned (.err .integrity) x cr) (hapt : ¬ apt) : Watches s apt p := by
  refine ⟨fun _ => ?_, fun _ => hq.current, fun _ ha => absurd ha hapt, .inl hq.current⟩
  rintro ⟨x, cr, h⟩
  exact ho x cr h

end Calls

/-! ## Runs -/

/-- A run whose user code may write anywhere, and the memory its last
snapshot was taken of. -/
inductive Taken (s : State) : State → Memory → Prop where
  | refl : Taken s s s.mem
  | write {s₁ : State} {g : Memory} (m : Memory) : Taken s s₁ g → Taken s { s₁ with mem := m } g
  | kept {s₁ s₂ : State} {g : Memory} {e : Event} {o : Outcome} :
      Taken s s₁ g → Legal s₁ e → e.PanicResumes True s₁ → step s₁ e = .ok (s₂, o) →
      s₂.env.data = s₁.env.data → Taken s s₂ g
  | taken {s₁ s₂ : State} {g : Memory} {e : Event} {o : Outcome} :
      Taken s s₁ g → Legal s₁ e → e.PanicResumes True s₁ → step s₁ e = .ok (s₂, o) →
      s₂.env.data ≠ s₁.env.data → Taken s s₂ s₂.mem

section Runs

variable {leak : StackId → Nat} {s s' : State} {a : Saved} {g : Memory} {mem : Memory} {env : Env}

theorem Inv.write (I : Inv leak s a) (m : Memory) : Inv leak { s with mem := m } a :=
  ⟨I.rep, I.core.goto _ _ _, I.sched.congr rfl rfl rfl (.refl _), I.gTarget, I.panic⟩

theorem Run.taken {P : State → Event → Prop} (h : Run P s s')
    (hP : ∀ s e, P s e → Legal s e ∧ e.PanicResumes True s) : ∃ g, Taken s s' g := by
  induction h with
  | refl => exact ⟨_, .refl⟩
  | @tail s₁ s₂ e o _ hp hs ih =>
      obtain ⟨g, hg⟩ := ih
      obtain ⟨hL, hR⟩ := hP _ _ hp
      by_cases hd : s₂.env.data = s₁.env.data
      · exact ⟨g, hg.kept hL hR hs hd⟩
      · exact ⟨_, hg.taken hL hR hs hd⟩

/-- The snapshot there is was taken of the memory `g`. -/
theorem Taken.snapshot (henv : env.Fresh) (h : Taken (initial mem env) s g) :
    (∃ leak a, Inv leak s a) ∧ s.env.data.Agrees g := by
  have hstep : ∀ {s₁ s₂ e o}, (∃ leak a, Inv leak s₁ a) → Legal s₁ e → e.PanicResumes True s₁ →
      step s₁ e = .ok (s₂, o) → ∃ leak a, Inv leak s₂ a := by
    rintro s₁ s₂ e o ⟨leak, a, I⟩ hL hR hs
    obtain ⟨leak', a', hstep⟩ :=
      (step_spec True (E := fun _ => True) I hL (fun _ _ => True.intro) hR
        (.inl True.intro)).result hs
    exact ⟨leak', a', hstep.inv⟩
  induction h with
  | refl =>
      refine ⟨⟨_, _, inv_initial mem env⟩, fun h0 => absurd ?_ h0⟩
      show env.data.snapshotBytes = 0
      rw [henv.data]
  | write m _ ih =>
      obtain ⟨⟨leak, a, I⟩, ha⟩ := ih
      exact ⟨⟨leak, a, I.write m⟩, ha⟩
  | kept _ hL hR hs hd ih => exact ⟨hstep ih.1 hL hR hs, hd ▸ ih.2⟩
  | @taken s₁ s₂ g e o _ hL hR hs hd ih =>
      refine ⟨hstep ih.1 hL hR hs, ?_⟩
      cases e with
      | write m =>
          cases hs
          exact absurd rfl hd
      | call cl allocs mprotects =>
          have hsettled := ((settled_passes s₁.env.data s₁.mem).callStep
            (s := s₁.withChoices allocs mprotects) (.inl ⟨rfl, rfl⟩) cl).result hs
          exact hsettled.resolve_left fun h => hd h.1

end Runs

end Tealet
