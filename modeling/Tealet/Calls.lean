import Tealet.Steps

/-!
# Every call

The calls that do not switch, and `callStep_spec`: whatever the call, the
system does small moves and at most one jump.
-/

namespace Tealet

open DList Slice Hoare Relation

variable {leak : StackId → Nat} {C : View → Label → Prop} {strict : Prop} {E : Fault → Prop}
  {s : State} {a : Saved} {t : TealetId} {c r : TealetSub}

/-! ## Records -/

/-- The ends of `tealet_alloc`. -/
inductive Alloced (s : State) (a : Saved) : State × Option TealetId → Prop where
  | none {s' : State} (hal : (nextAlloc s.heap.allocs).1 = false)
      (hs : s' = { s with heap := { s.heap with allocs := (nextAlloc s.heap.allocs).2 } }) :
      Alloced s a (s', none)
  | some {s' : State} {stats : Stats} {env : Env} (hal : (nextAlloc s.heap.allocs).1 = true)
      (hs : s' = { s with
        heap := { s.heap with allocs := (nextAlloc s.heap.allocs).2, stats := stats }
        tealets := Function.update s.tealets s.nextTealet (some {})
        nextTealet := s.nextTealet + 1
        env := env }) :
      Alloced s a (s', some s.nextTealet)

theorem alloc_spec (s : State) : Alloced s a (alloc s) := by
  unfold alloc
  rw [Heap.malloc_eq]
  cases hal : (nextAlloc s.heap.allocs).1 with
  | false => exact .none hal rfl
  | true => exact .some hal rfl

theorem new_ends (I : Inv leak s a) : Ends C strict (s.view a) (new s).1 a := by
  obtain ⟨own, H⟩ := I.rep
  have h := alloc_spec (a := a) s.lockAuto
  unfold new
  generalize alloc s.lockAuto = p at h
  cases h with
  | none hal hs =>
      subst hs
      exact ⟨⟨own, H.withAllocs _ _⟩, I.gTarget, I.panic, _, .refl, .inl rfl⟩
  | some hal hs =>
      subst hs
      exact ⟨⟨own, H.withAllocs _ _⟩, I.gTarget, I.panic, _, .single .create, .inl rfl⟩

theorem duplicate_ends (I : Inv leak s a) (halive : Alive s t) (htc : t ≠ s.gCurrent)
    (htm : t ≠ mainId) (hC : C (s.view a) (.duplicate t)) :
    Sat E (fun p => ∃ a', Ends C strict (s.view a) p.1 a') (duplicate s t) := by
  obtain ⟨own, H⟩ := I.rep
  obtain ⟨r, hr⟩ := Option.isSome_iff_exists.mp halive
  have htn : t ≠ s.nextTealet := Nat.ne_of_lt (I.core.lt_nextTealet hr)
  have h := alloc_spec (a := a) s.lockAuto
  unfold duplicate
  refine sat_require ⟨htc, htm⟩ ?_
  generalize alloc s.lockAuto = p at h
  cases h with
  | none hal hs =>
      subst hs
      exact ⟨a, ⟨own, H.withAllocs _ _⟩, I.gTarget, I.panic, _, .refl, .inl rfl⟩
  | @some s' stats env hal hs =>
      have hr' : s'.tealets t = some r := by
        rw [hs]
        exact (Function.update_of_ne htn _ _).trans hr
      have hH' : HeapRep s'.heap a own := by
        rw [hs]
        exact H.withAllocs _ _
      refine Sat.run (tealet_of hr') ?_
      cases hk : r.stack with
      | none =>
          have hrn : ({ r with stack := none } : TealetSub) = r := by rw [← hk]
          simp only [hrn, pure_eq_ok, sat_ok]
          have hm : Small C (s.view a) { s.view a with
              tealets := Function.update s.tealets s.nextTealet (some r)
              nextTealet := s.nextTealet + 1 } := .dup hC hr htc htm hk
          refine ⟨a, ⟨own, hH'⟩, ?_, ?_, _, .single hm, .inl ?_⟩
          · rw [hs]; exact I.gTarget
          · rw [hs]; exact I.panic
          · rw [hs]
            simp [State.view, State.setTealet, State.unlockAuto, State.lockAuto]
      | some k =>
          obtain ⟨im, him, -⟩ := I.core.owned t r k hr hk
          obtain ⟨h', hdup, H', hal', hns⟩ := stackDup_spec hH' him
          refine Sat.run hdup ?_
          have hm : Small C (s.view a) { s.view a with
              tealets := Function.update s.tealets s.nextTealet (some r)
              nextTealet := s.nextTealet + 1
              img := Function.update a.img k (some { im with refcount := im.refcount + 1 }) } :=
            .dupShared hC hr htc htm hk him
          refine ⟨_, ⟨own, H'⟩, ?_, ?_, _, .single hm, .inl ?_⟩
          · show s'.gTarget = none
            rw [hs]; exact I.gTarget
          · show s'.gFlags.panic = false
            rw [hs]; exact I.panic
          · have hns' : h'.nextStack = s.heap.nextStack := by rw [hns, hs]; rfl
            simp only [State.view, State.setTealet, State.unlockAuto, hns', hs,
              State.lockAuto, Function.update_idem]

theorem delete_ends (I : Inv leak s a) (halive : Alive s t) (htc : t ≠ s.gCurrent)
    (htm : t ≠ mainId) (hC : ∃ w, C w (.delete t)) :
    Sat E (fun s' => ∃ a', Ends C strict (s.view a) s' a') (delete s t) := by
  obtain ⟨own, H⟩ := I.rep
  obtain ⟨r, hr⟩ := Option.isSome_iff_exists.mp halive
  unfold delete
  refine sat_require htm (Sat.run (tealet_of (s := s.lockAuto) hr) ?_)
  cases hk : r.stack with
  | none =>
      have hm : Small C (s.view a) ((s.view a).setTealet t none) := .delete hC hr htc htm hk
      exact ⟨a, ⟨own, H.withAllocs _ _⟩, I.gTarget, I.panic, _, .single hm, .inl rfl⟩
  | some k =>
      obtain ⟨im, him, -⟩ := I.core.owned t r k hr hk
      obtain ⟨h', own', hdec, H', hal, hns⟩ := stackDecref_spec (v := s.view a) H him
      refine Sat.run hdec ?_
      have hm : Small C (s.view a) (((s.view a).release k im).setTealet t none) :=
        .deleteSaved hC hr htc htm hk him
      refine ⟨_, ⟨own', H'.withAllocs _ _⟩, I.gTarget, I.panic, _, .single hm, .inl ?_⟩
      obtain ⟨h₁, h₂, h₃, h₄, h₅, h₆⟩ := release_tealets (s.view a) k im
      simp only [State.view, View.setTealet, freeTealet, State.unlockAuto, State.lockAuto, hns, h₁,
        h₂, h₃, h₄, h₅, h₆] at *

theorem status_ends (I : Inv leak s a) (halive : Alive s t) :
    Sat E (fun p => ∃ a', Ends C strict (s.view a) p.1 a') (status s t) := by
  obtain ⟨own, H⟩ := I.rep
  obtain ⟨r, hr⟩ := Option.isSome_iff_exists.mp halive
  unfold status
  refine Sat.run (tealet_of hr) ?_
  have hrefl : Ends C strict (s.view a) s a := .refl I
  split
  · exact ⟨a, hrefl⟩
  · split
    · exact ⟨a, hrefl⟩
    · rcases isDefunct_spec H hr (fun k hk => (I.core.owned t r k hr hk).imp fun _ h => h.1) with
        ⟨-, heq⟩ | ⟨-, ⟨kt, im, hk, him, hd⟩, heq⟩ | ⟨-, heq⟩
      · exact Sat.run heq ⟨a, hrefl⟩
      · refine Sat.run heq ⟨a, ⟨own, H⟩, I.gTarget, I.panic, _, .single ?_, .inl rfl⟩
        exact .cache hr hk him hd
      · exact Sat.run heq ⟨a, hrefl⟩

theorem setFar_ends (I : Inv leak s a) (halive : Alive s t) {far : Nat} (hfar : far < spFurthest)
    (hC : t = mainId → C (s.view a) (.setFar far)) :
    Sat E (fun p => ∃ a', Ends C strict (s.view a) p.1 a') (setFar s t far) := by
  obtain ⟨r, hr⟩ := Option.isSome_iff_exists.mp halive
  unfold setFar
  refine Sat.run (tealet_of hr) ?_
  by_cases ht : t = mainId
  · subst ht
    refine Sat.ite_false (by simp) ⟨a, I.rep, I.gTarget, I.panic, _, .single ?_, .inl rfl⟩
    exact .setFar (hC rfl) hfar hr
  · exact Sat.ite_true ht ⟨a, .refl I⟩

theorem configureSet_state (s : State) (request : Config) :
    ∃ al e, (configureSet s request).1 =
      { s with heap := { s.heap with allocs := al }, env := e } := by
  unfold configureSet
  rw [Heap.malloc_eq]
  dsimp only
  by_cases hq : snapshotRequiredCapacity s.env.pageSize (configCanonicalize request) = 0 ∨
      snapshotRequiredCapacity s.env.pageSize (configCanonicalize request) ≤
        s.env.data.snapshotCapacity
  · simp only [if_pos hq]
    split <;> exact ⟨s.heap.allocs, _, rfl⟩
  · simp only [if_neg hq]
    split <;> exact ⟨(nextAlloc s.heap.allocs).2, _, rfl⟩

theorem configureSet_ends (I : Inv leak s a) (request : Config) :
    Ends C strict (s.view a) (configureSet s request).1 a := by
  obtain ⟨own, H⟩ := I.rep
  obtain ⟨al, e, heq⟩ := configureSet_state s request
  rw [heq]
  exact ⟨⟨own, H.withAllocs al s.heap.stats⟩, I.gTarget, I.panic, _, .refl, .inl rfl⟩

/-! ## Any call -/

theorem Ends.inv (I : Inv leak s a) {s' : State} {a' : Saved} (h : Ends C strict (s.view a) s' a') :
    ∃ leak', Inv leak' s' a' ∧ (strict → leak' = leak) := by
  obtain ⟨v₁, hmoves, hor⟩ := h.path
  have hgood : Core leak v₁ ∧ Sched v₁ := by
    clear hor
    induction hmoves with
    | refl => exact ⟨I.core, I.sched⟩
    | tail _ hm ih => exact hm.good ih.1 ih.2
  rcases hor with heq | hjump
  · rw [← heq] at hgood
    exact ⟨leak, ⟨h.rep, hgood.1, hgood.2, h.gTarget, h.panic⟩, fun _ => rfl⟩
  · obtain ⟨leak', H, S, hleak⟩ := hjump.good hgood.1 hgood.2
    exact ⟨leak', ⟨h.rep, H, S, h.gTarget, h.panic⟩, hleak⟩

/-- The ends of `tealet_new`. -/
inductive Created (s : State) (a : Saved) : State × Option TealetId → Prop where
  | none {s' : State} (hal : (nextAlloc s.heap.allocs).1 = false) (hv : s'.view a = s.view a)
      (hal' : s'.heap.allocs = (nextAlloc s.heap.allocs).2) (hprev : s'.gPrevious = s.gPrevious) :
      Created s a (s', none)
  | some {s' : State} (hal : (nextAlloc s.heap.allocs).1 = true)
      (hv : s'.view a = { s.view a with
        tealets := Function.update s.tealets s.nextTealet (some {})
        nextTealet := s.nextTealet + 1 })
      (hal' : s'.heap.allocs = (nextAlloc s.heap.allocs).2) (hprev : s'.gPrevious = s.gPrevious) :
      Created s a (s', some s.nextTealet)

theorem new_spec (s : State) (a : Saved) : Created s a (new s) := by
  have h := alloc_spec (a := a) s.lockAuto
  unfold new
  generalize alloc s.lockAuto = p at h
  cases h with
  | none hal hs =>
      subst hs
      exact .none hal rfl rfl rfl
  | some hal hs =>
      subst hs
      exact .some hal rfl rfl rfl

theorem spawn_ends (I : Inv leak s a) (hext : ∀ f, f.internal = false → E f)
    {fn : RunFn} {parg : Option Ptr} {hint : Nat} {sw : Bool} {site : Site} (hsite : site.Inside s)
    (hhint : hint < spFurthest)
    (hC : ∀ s₁ t, new s = (s₁, some t) →
      C (s₁.view a) (startLabel sw t (pickInitialFar site.far hint) s₁.heap.allocs))
    (hD : ∀ s₁ t, new s = (s₁, some t) → ∃ w, C w (.delete t)) :
    Sat E (fun p => ∃ a', Ends C strict (s.view a) p.1 a') (spawn s fn parg hint sw site) := by
  have hends : Ends C strict (s.view a) (new s).1 a := new_ends I
  obtain ⟨leak', I', -⟩ := hends.inv I
  have hspec := new_spec s a
  unfold spawn
  rcases hnew : new s with ⟨s₁, _ | t⟩ <;> rw [hnew] at hends I' hspec
  · exact ⟨a, hends⟩
  · cases hspec with
    | some hal hv hal' =>
        have hcur : s₁.gCurrent = s.gCurrent := congrArg View.current hv
        have htl : s₁.tealets = Function.update s.tealets s.nextTealet (some {}) :=
          congrArg View.tealets hv
        obtain ⟨c, hc, -⟩ := I.sched.running
        have hne : s.gCurrent ≠ s.nextTealet := Nat.ne_of_lt (I.core.lt_nextTealet hc)
        have hfar : runningFar s₁ = runningFar s := by
          simp only [runningFar, hcur, htl, Function.update_of_ne hne]
        have halive : Alive s₁ s.nextTealet := by
          simp [Alive, htl]
        have hsite' : site.Inside s₁ := ⟨hsite.1, hfar ▸ hsite.2.1, hsite.2.2⟩
        refine (run_ends strict I' hext halive hsite' hhint (hC s₁ _ hnew)
          fun _ => hD s₁ _ hnew).imp ?_
        rintro p ⟨a', v₁, hT, hp, hpath⟩
        refine ⟨a', v₁, hT, hp, ?_⟩
        obtain ⟨w, hw, hor⟩ := hpath
        refine ⟨w, .head ?_ hw, hor⟩
        dsimp only
        rw [hv]
        exact .create

/-- A deferred exit is only recorded. -/
theorem defer_ends (I : Inv leak s a) (hext : ∀ f, f.internal = false → E f) {arg : Ptr}
    {flags : XFlags} {sp : Nat} (hd : flags.defer = true) (implicit : Bool) :
    Sat E (fun p => ∃ a', Ends C strict (s.view a) p.1 a')
      (exit s t arg flags implicit sp) := by
  obtain ⟨c, hc, -⟩ := I.sched.running
  have hver : Sat E (fun _ => True) (verifyCurrentMatchesCaller s sp) := by
    rw [verifyCurrentMatchesCaller_eq hc]
    exact (verifyRecord_safe c sp).mono hext fun _ h => h
  have hreq : ∀ (p : Prop) [Decidable p], Sat E (fun _ => True) (require .exit p) := fun p _ =>
    (safe_require rfl).mono hext fun _ _ => True.intro
  unfold exit
  refine (hreq _).bind fun _ _ => hver.bind fun _ _ => Sat.ite_true hd ?_
  exact (hreq _).bind fun _ _ => ⟨a, I.rep, I.gTarget, rfl, _, .refl, .inl rfl⟩

/-- What is assumed of a call. -/
structure Assumed (strict : Prop) (E : Fault → Prop) (s : State) (c : Call) : Prop where
  legal : c.Legal s
  external : ∀ f, f.internal = false → E f
  resumes : PanicResumes strict s c
  freed : E .freed ∨ strict ∧ PanicCallers s c

theorem callStep_ends (I : Inv leak s a) {c : Call} (A : Assumed strict E s c) :
    Sat E (fun p => ∃ a', Ends (AttemptLabel s c) strict (s.view a) p.1 a') (callStep s c) := by
  obtain ⟨own, H⟩ := I.rep
  have hlabel : ∀ {l}, Attempts s c s l → AttemptLabel s c (s.view a) l :=
    fun h => ⟨s, a, own, H, rfl, h⟩
  have hreq : ∀ s₀ q, c.request s = some (s₀, q) →
      Sat E (fun p => ∃ a', Ends (AttemptLabel s c) strict (s.view a) p.1 a') (callStep s c) := by
    intro s₀ q hq
    refine callStep_transfer I A.legal A.external hq ⟨?_, ?_, ?_⟩
    · intro s₁ t f h a₁ own₁ H₁
      exact ⟨s₁, a₁, own₁, H₁, rfl, .xfer hq h⟩
    · intro s₁ t f h hp ht fr hfr
      exact A.resumes s₁ t f _ _ (.xfer hq h) hp ht fr hfr
    · exact A.freed.imp_right fun h => ⟨h.1, fun s₁ t f ha hp ht =>
        h.2 s₁ t f _ _ (.xfer hq ha) hp ht⟩
  have hL := A.legal
  cases c with
  | new =>
      exact ⟨a, new_ends I⟩
  | run t fn parg hint sw site =>
      refine run_ends _ I A.external hL.1 hL.2.1 hL.2.2 (hlabel ?_) nofun
      cases sw with
      | true => exact .run
      | false => exact .runDefault
  | spawn fn parg hint sw site =>
      have hends : Ends (AttemptLabel s (.spawn fn parg hint sw site)) strict (s.view a)
          (new s).1 a :=
        new_ends I
      obtain ⟨own₁, H₁⟩ := hends.rep
      refine spawn_ends I A.external hL.1 hL.2 (fun s₁ t hnew => ?_) fun s₁ t hnew => ?_
      · rw [hnew] at H₁
        refine ⟨s₁, a, own₁, H₁, rfl, ?_⟩
        cases sw with
        | true => exact .spawn hnew
        | false => exact .spawnDefault hnew
      · rw [hnew] at H₁
        exact ⟨_, s₁, a, own₁, H₁, rfl, .spawnFailed hnew⟩
  | fork t parg sw site =>
      refine fork_ends I A.external hL.1 hL.2 (hlabel ?_)
      cases sw with
      | true => exact .fork
      | false => exact .forkDefault
  | switch t parg flags sp => exact hreq _ _ rfl
  | exit t arg flags sp =>
      cases hd : flags.defer with
      | false => exact hreq _ _ (if_neg (by simp [hd]))
      | true => exact defer_ends I A.external hd false
  | ret p sp =>
      cases p with
      | none =>
          obtain ⟨⟨t, ht, -⟩, -⟩ := hL
          cases ht
      | some t => exact hreq _ _ rfl
  | duplicate t =>
      exact (duplicate_ends I hL.1 hL.2.1 hL.2.2 (hlabel .duplicate)).bind fun p hp => hp
  | delete t => exact (delete_ends I hL.1 hL.2.1 hL.2.2 ⟨_, hlabel .delete⟩).bind fun p hp => hp
  | status t => exact (status_ends I hL).bind fun p hp => hp
  | setFar t far =>
      refine Sat.bind ?_ fun p hp => hp
      refine setFar_ends I hL.1 hL.2.1 fun ht => hlabel ?_
      subst ht
      exact .setFar
  | configure request => exact ⟨a, configureSet_ends I request⟩

end Tealet
