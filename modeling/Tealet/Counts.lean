import Tealet.Ledger

/-!
# The counts of a run

With the heap's books kept by the stack routines, what is left are the
records: the circular list that starts and ends at main, its length
`g_tealets`, and the blocks of the records.
-/

namespace Tealet

open Hoare Slice CList Tally

/-- The size of the record of a tealet. -/
def Env.tealetSize (e : Env) : Nat := tealetHeader + e.gExtrasize

/-- The tealets other than main are `l`, in the order of the circular list,
and the counters are right. -/
structure State.Counted (s : State) (l : List TealetId) : Prop where
  loop : Loop s.env.nextTealet s.env.prevTealet mainId l
  alive : ∀ t, t ∈ mainId :: l ↔ Alive s t
  fresh : ∀ t, s.nextTealet ≤ t → s.tealets t = none
  gTealets : s.env.gTealets = l.length + 1
  ledger : s.heap.Ledger (mainHeader + s.env.gExtrasize + l.length * s.env.tealetSize)
    (l.length + 1)

/-- The same records are alive, in the same list, and the heap keeps its books. -/
structure State.SameCount (s s' : State) : Prop where
  alive : ∀ t, Alive s' t ↔ Alive s t
  nextTealet : s'.nextTealet = s.nextTealet
  next : s'.env.nextTealet = s.env.nextTealet
  prev : s'.env.prevTealet = s.env.prevTealet
  gTealets : s'.env.gTealets = s.env.gTealets
  gExtrasize : s'.env.gExtrasize = s.env.gExtrasize
  ledger : ∀ b n, s.heap.Ledger b n → s'.heap.Ledger b n

section States

variable {s s₁ s' : State} {l : List TealetId} {t : TealetId} {r r' : TealetSub}
  {k : Frame} {sp : Nat}

theorem alive_of (hr : s.tealets t = some r) : Alive s t := by
  rw [Alive, hr]
  rfl

theorem not_alive : ¬ Alive s t ↔ s.tealets t = none := by
  simp [Alive]

namespace State.SameCount

theorem refl (s : State) : s.SameCount s :=
  ⟨fun _ => Iff.rfl, rfl, rfl, rfl, rfl, rfl, fun _ _ h => h⟩

theorem trans (e : s.SameCount s₁) (e' : s₁.SameCount s') : s.SameCount s' :=
  ⟨fun t => (e'.alive t).trans (e.alive t), e'.nextTealet.trans e.nextTealet, e'.next.trans e.next,
    e'.prev.trans e.prev, e'.gTealets.trans e.gTealets, e'.gExtrasize.trans e.gExtrasize,
    fun b n h => e'.ledger b n (e.ledger b n h)⟩

theorem counted (e : s.SameCount s') (B : s.Counted l) : s'.Counted l := by
  refine ⟨?_, fun t => (B.alive t).trans (e.alive t).symm, fun t ht => ?_, ?_, ?_⟩
  · rw [e.next, e.prev]
    exact B.loop
  · rw [e.nextTealet] at ht
    refine not_alive.mp fun h => ?_
    exact not_alive.mpr (B.fresh t ht) ((e.alive t).mp h)
  · rw [e.gTealets]
    exact B.gTealets
  · rw [Env.tealetSize, e.gExtrasize]
    exact e.ledger _ _ B.ledger

/-- A record is written. -/
theorem setTealet (hr : s.tealets t = some r) (r' : TealetSub) :
    s.SameCount (s.setTealet t r') := by
  refine ⟨fun x => ?_, rfl, rfl, rfl, rfl, rfl, fun _ _ h => h⟩
  by_cases hx : x = t
  · subst hx
    simp [Alive, State.setTealet, hr]
  · simp only [Alive, State.setTealet, Function.update_of_ne hx]

theorem watching {e : Env} (h : s.env.Watching e) : s.SameCount { s with env := e } := by
  obtain ⟨c, d, lw, o, rfl⟩ := h
  exact ⟨fun _ => Iff.rfl, rfl, rfl, rfl, rfl, rfl, fun _ _ h => h⟩

theorem heap {h : Heap} (hh : ∀ b n, s.heap.Ledger b n → h.Ledger b n) :
    s.SameCount { s with heap := h } :=
  ⟨fun _ => Iff.rfl, rfl, rfl, rfl, rfl, rfl, hh⟩

theorem lockAuto (s : State) : s.SameCount s.lockAuto := by
  unfold State.lockAuto Env.lockAuto
  split <;> exact ⟨fun _ => Iff.rfl, rfl, rfl, rfl, rfl, rfl, fun _ _ h => h⟩

theorem unlockAuto (s : State) : s.SameCount s.unlockAuto := by
  unfold State.unlockAuto Env.unlockAuto
  split <;> exact ⟨fun _ => Iff.rfl, rfl, rfl, rfl, rfl, rfl, fun _ _ h => h⟩

end State.SameCount

namespace State.Counted

/-! ## A record more, a record less -/

theorem alloc (B : s.Counted l) : ∃ l', (alloc s).1.Counted l' := by
  unfold Tealet.alloc
  rcases hm : s.heap.malloc with ⟨_ | _, h⟩
  · have L := malloc_ledger B.ledger hm
    exact ⟨l, B.loop, B.alive, B.fresh, B.gTealets, L⟩
  · have L := malloc_ledger B.ledger hm
    have hnew : s.nextTealet ∉ mainId :: l := fun hmem =>
      not_alive.mpr (B.fresh _ (Nat.le_refl _)) ((B.alive _).mp hmem)
    refine ⟨s.nextTealet :: l, B.loop.add hnew, fun t => ?_, fun t ht => ?_, ?_, ?_⟩
    · by_cases ht : t = s.nextTealet
      · subst ht
        simp [Alive]
      · have hmem : t ∈ mainId :: s.nextTealet :: l ↔ t ∈ mainId :: l := by simp [ht]
        rw [hmem, B.alive t]
        simp only [Alive, Function.update_of_ne ht]
    · have hne : t ≠ s.nextTealet := Nat.ne_of_gt (Nat.lt_of_succ_le ht)
      exact (Function.update_of_ne hne ..).trans (B.fresh t (Nat.le_of_succ_le ht))
    · exact congrArg (· + 1) B.gTealets
    · have hbytes := L.bytesAllocated
      have hblocks := L.blocksAllocated
      refine ⟨L.freshStack, L.freshChunk, L.stackCount, L.stackChunkCount, L.stackBytes, ?_, ?_,
        Nat.le_max_right _ _, Nat.le_max_right _ _⟩
      · show h.stats.bytesAllocated + s.env.tealetSize = mainHeader + s.env.gExtrasize +
          (l.length + 1) * s.env.tealetSize + h.stackBytes
        rw [hbytes, Nat.succ_mul]
        omega
      · show h.stats.blocksAllocated + 1 = l.length + 1 + 1 + (h.stackCount + h.chunkCount)
        omega

/-- `tealet_free_tealet` with the count that goes with it. -/
theorem free (B : s.Counted l) (hm : t ≠ mainId) (ht : Alive s t) :
    (freeTealet { s with env := { s.env with gTealets := s.env.gTealets - 1 } } t).Counted
      (l.erase t) := by
  have hmem : t ∈ l := by
    rcases List.mem_cons.mp ((B.alive t).mpr ht) with rfl | h
    · exact absurd rfl hm
    · exact h
  have hlen : (l.erase t).length + 1 = l.length := List.length_erase_add_one hmem
  have L := B.ledger
  refine ⟨B.loop.remove hmem, fun x => ?_, fun x hx => ?_, ?_, ?_⟩
  · have hnd := (List.nodup_cons.mp B.loop.nodup).2
    by_cases hx : x = t
    · subst hx
      simp [Alive, freeTealet, hm, hnd.not_mem_erase]
    · simp only [Alive, freeTealet, Function.update_of_ne hx]
      rw [← Alive, ← B.alive x, List.mem_cons, List.mem_cons, List.mem_erase_of_ne hx]
  · by_cases hxt : x = t
    · subst hxt
      exact Function.update_self ..
    · exact (Function.update_of_ne hxt ..).trans (B.fresh x hx)
  · show s.env.gTealets - 1 = _
    rw [B.gTealets, hlen]
    rfl
  · have hbytes := L.bytesAllocated
    have hblocks := L.blocksAllocated
    have hbp := L.bytesPeak
    have hkp := L.blocksPeak
    rw [← hlen, Nat.succ_mul] at hbytes
    rw [← hlen] at hblocks
    refine ⟨L.freshStack, L.freshChunk, L.stackCount, L.stackChunkCount, L.stackBytes,
      ?_, ?_, ?_, ?_⟩
    · show s.heap.stats.bytesAllocated - s.env.tealetSize = mainHeader + s.env.gExtrasize +
        (l.erase t).length * s.env.tealetSize + s.heap.stackBytes
      omega
    · show s.heap.stats.blocksAllocated - 1 = (l.erase t).length + 1 +
        (s.heap.stackCount + s.heap.chunkCount)
      omega
    · exact Nat.le_trans (Nat.sub_le _ _) hbp
    · exact Nat.le_trans (Nat.sub_le _ _) hkp

end State.Counted

/-! ## Switching -/

def State.Booked (s : State) : Prop := ∃ l, s.Counted l

theorem State.SameCount.booked (e : s.SameCount s') : s.Booked → s'.Booked
  | ⟨l, B⟩ => ⟨l, e.counted B⟩

/-- Nothing else of the state matters. -/
theorem State.Booked.control (h : s.Booked) (hh : s'.heap = s.heap) (ht : s'.tealets = s.tealets)
    (hn : s'.nextTealet = s.nextTealet) (he : s'.env = s.env) : s'.Booked := by
  refine State.SameCount.booked (s := s) ⟨fun t => ?_, hn, ?_, ?_, ?_, ?_, fun b n L => ?_⟩ h
  · rw [Alive, ht]
    rfl
  · rw [he]
  · rw [he]
  · rw [he]
  · rw [he]
  · rw [hh]
    exact L

theorem State.Booked.allocs (h : s.Booked) (al : List Bool) :
    State.Booked { s with heap := { s.heap with allocs := al } } :=
  (State.SameCount.heap fun _ _ => (Heap.SameBlocks.allocs s.heap al).ledger).booked h

/-- Saving frees at most the record of a tealet that exits. -/
theorem saveState_booked (h : s.Booked) : Returns (fun p => p.1.Booked) (saveState s k sp) := by
  unfold saveState
  split
  · exact True.intro
  refine returns_any.bind fun _ _ => returns_any.bind fun _ _ =>
    (returns_tealet s s.gCurrent).bind fun current hc => returns_any.bind fun _ _ =>
    returns_any.bind fun _ _ => returns_any.bind fun _ _ => ?_
  obtain ⟨l, B⟩ := h
  have e₁ := State.SameCount.setTealet hc
    { current with flags := { current.flags with saveforce := false } }
  refine (stackGrowList_ledger _ _ _ _ _ _ (e₁.counted B).ledger _).bind fun p hp => ?_
  obtain ⟨h, fail⟩ := p
  -- the state after the list was grown
  let s₂ : State := { s.setTealet s.gCurrent
    { current with flags := { current.flags with saveforce := false } } with heap := h }
  have B₂ : s₂.Counted l := by
    have B₁ := e₁.counted B
    exact ⟨B₁.loop, B₁.alive, B₁.fresh, B₁.gTealets, hp⟩
  have hc₂ : s₂.tealets s.gCurrent = some { current with
      flags := { current.flags with saveforce := false } } := Function.update_self ..
  cases fail with
  | true => exact ⟨l, B₂⟩
  | false =>
      refine Sat.ite_false Bool.false_ne_true (returns_any.bind fun _ _ => ?_)
      by_cases hx : current.flags.exiting = true
      · refine Sat.ite_true hx ((returns_require (p := s.gCurrent ≠ mainId)).bind fun _ hm => ?_)
        by_cases ha : current.flags.autodelete = true
        · exact Sat.ite_true ha ⟨_, B₂.free hm (alive_of hc₂)⟩
        · exact Sat.ite_false ha ((State.SameCount.setTealet hc₂ _).booked ⟨l, B₂⟩)
      · refine Sat.ite_false hx ?_
        refine (stackSaveto_ledger B₂.ledger _ _ _ _ _).bind fun q hq => ?_
        obtain ⟨h₃, stack, full⟩ := q
        have B₃ : State.Counted { s₂ with heap := h₃ } l :=
          ⟨B₂.loop, B₂.alive, B₂.fresh, B₂.gTealets, hq⟩
        have hset : ∀ r', ({ s₂ with heap := h₃ }.setTealet s.gCurrent r').Counted l := fun r' =>
          (State.SameCount.setTealet (s := { s₂ with heap := h₃ }) hc₂ r').counted B₃
        cases stack with
        | none =>
            dsimp only
            split
            · exact ⟨l, B₃⟩
            · exact returns_any.bind fun _ _ => ⟨l, hset _⟩
        | some st =>
            refine returns_any.bind fun _ _ => ?_
            dsimp only
            split
            · exact ⟨l, hset _⟩
            · refine (stackLink_blocks h₃ st).bind fun h₄ e₄ => ?_
              have B₄ := hset { current with
                flags := { current.flags with saveforce := false }, stack := some st }
              exact ⟨l, B₄.loop, B₄.alive, B₄.fresh, B₄.gTealets, e₄.ledger B₄.ledger⟩

theorem restoreState_booked (h : s.Booked) : Returns State.Booked (restoreState s sp) := by
  unfold restoreState
  split
  · exact True.intro
  · rename_i g hg
    refine (returns_tealet s g).bind fun r hr => ?_
    split
    · exact True.intro
    · rename_i stack hs
      refine returns_any.bind fun st _ => returns_any.bind fun _ _ => returns_any.bind fun m _ => ?_
      obtain ⟨l, B⟩ := h
      refine (stackDecref_ledger B.ledger (some stack)).bind fun h' hh' => ?_
      have B₁ := (State.SameCount.setTealet hr { r with stack := none }).counted B
      exact ⟨l, B₁.loop, B₁.alive, B₁.fresh, B₁.gTealets, hh'⟩

theorem stackmanSwitch_booked (h : s.Booked) :
    Returns (fun p => p.1.Booked) (stackmanSwitch s k sp) := by
  unfold stackmanSwitch
  refine (saveState_booked h).bind fun p hp => ?_
  obtain ⟨s₁, failed⟩ := p
  cases failed with
  | true => exact hp.control rfl rfl rfl rfl
  | false =>
      have hsw : ∀ sw, State.Booked { s₁ with gSw := sw } := fun sw =>
        hp.control rfl rfl rfl rfl
      refine Sat.ite_false Bool.false_ne_true ?_
      split
      · exact True.intro
      refine returns_any.bind fun r _ => ?_
      split
      · exact hsw .nop
      · refine returns_any.bind fun st _ => ?_
        exact (restoreState_booked (hsw .restore)).bind fun s₂ h₂ => h₂

theorem armIntegrity_booked (h : s.Booked) : Returns State.Booked (armIntegrity s sp) := by
  refine (EnvRule.armIntegrity_returns s sp).imp ?_
  rintro s' ⟨c, e, he, rfl⟩
  exact (State.SameCount.watching ((armEnv_watching _ _ _ _).result he)).booked h

theorem copyStage_booked {target : TealetId} {arg : Ptr} (h : s.Booked) :
    Returns (fun p => p.1.Booked) (copyStage s target arg sp) := by
  unfold copyStage
  refine returns_any.bind fun _ _ => (returns_tealet s target).bind fun r hr => ?_
  by_cases hx : r.flags.exited = true
  · exact Sat.ite_true hx h
  refine Sat.ite_false hx ?_
  have hdef : Returns (fun p => p.1.Booked) (isDefunct s target) := by
    unfold isDefunct
    refine (returns_tealet s target).bind fun r hr => ?_
    split
    · exact h
    · split
      · exact h
      · refine returns_any.bind fun st _ => ?_
        split
        · exact (State.SameCount.setTealet hr _).booked h
        · exact h
  refine hdef.bind fun p hp => ?_
  obtain ⟨s₁, defunct⟩ := p
  by_cases hd : defunct = true
  · exact Sat.ite_true hd hp
  refine Sat.ite_false hd (returns_any.bind fun rejected _ => ?_)
  by_cases hrej : rejected = true
  · exact Sat.ite_true hrej hp
  refine Sat.ite_false hrej ?_
  refine (guardUnprotectCurrent_watching s₁.env).bind fun e he => ?_
  refine (snapshotVerifyCurrent_watching e s₁.mem).bind fun q hq => ?_
  have hw := (State.SameCount.watching (he.trans hq)).booked hp
  obtain ⟨e₂, _ | err⟩ := q
  · exact hw.control rfl rfl rfl rfl
  · exact hw

theorem switchstack_booked {target : TealetId} {arg : Ptr} (h : s.Booked) :
    Returns (fun p => p.1.Booked) (switchstack s target arg k sp) := by
  rw [switchstack_eq]
  refine (copyStage_booked h).bind fun p hp => ?_
  obtain ⟨s₁, _ | e⟩ := p
  swap
  · exact hp.control rfl rfl rfl rfl
  refine (stackmanSwitch_booked hp).bind fun q hq => ?_
  obtain ⟨s₂, k', sp'⟩ := q
  unfold afterSwitch
  dsimp only
  split
  · refine (armIntegrity_booked (s := { s₂ with
      gPrevious := s.gPrevious, gTarget := none, gArg := null }) ?_).bind fun s' hs' => ?_
    · exact hq.control rfl rfl rfl rfl
    · exact hs'.control rfl rfl rfl rfl
  · split
    · exact True.intro
    · rename_i g hg
      refine (armIntegrity_booked (s := { s₂ with
        gCurrent := g, live := g, gTarget := none, gArg := null }) ?_).bind fun s' hs' => ?_
      · exact hq.control rfl rfl rfl rfl
      · split
        · exact hs'.control rfl rfl rfl rfl
        · exact hs'

/-! ## Runs -/

theorem passes_booked : Passes State.Booked State.Booked where
  lock h := (State.SameCount.lockAuto _).booked h
  unlock h := (State.SameCount.unlockAuto _).booked h
  record hr h := (State.SameCount.setTealet hr _).booked h
  recordIn hr h := (State.SameCount.setTealet hr _).booked h
  signal h := h.control rfl rfl rfl rfl
  signalIn h := h.control rfl rfl rfl rfl
  current h := h.control rfl rfl rfl rfl
  previous h := h.control rfl rfl rfl rfl
  switch h := switchstack_booked h
  alloc := fun ⟨_, B⟩ => B.alloc
  dup := fun ⟨l, B⟩ => (stackDup_blocks _ _).imp fun _ e =>
    ⟨l, B.loop, B.alive, B.fresh, B.gTealets, e.ledger B.ledger⟩
  drop := fun {s t r} hm hr ⟨l, B⟩ => (stackDecref_ledger B.ledger _).imp fun h L => by
    have B' : State.Counted { s with heap := h } l := ⟨B.loop, B.alive, B.fresh, B.gTealets, L⟩
    exact ⟨_, B'.free hm (alive_of hr)⟩
  configure := fun {s q} h => by
    obtain ⟨al, e, heq⟩ := configureSet_state s q
    have hw := configureSet_watching s q
    rw [heq] at hw ⊢
    let s₁ : State := { s with heap := { s.heap with allocs := al } }
    exact (State.SameCount.watching (s := s₁) hw).booked (h.allocs al)

/-- The list of a fresh environment holds main alone. -/
structure Env.Alone (e : Env) : Prop where
  next : e.nextTealet mainId = mainId
  prev : e.prevTealet mainId = mainId
  gTealets : e.gTealets = 1

theorem initial_booked (mem : Memory) {env : Env} (h : env.Alone) : (initial mem env).Booked := by
  refine ⟨[], .single h.next h.prev, fun t => ?_, fun t ht => ?_, h.gTealets, ?_⟩
  · by_cases ht : t = mainId <;> simp [Alive, initial, ht]
  · exact if_neg (Nat.ne_of_gt ht)
  · refine ⟨fun _ _ => rfl, fun _ _ => rfl, ?_, ?_, ?_, ?_, ?_, ?_, ?_⟩ <;>
      simp [initial, Heap.stackCount, Heap.chunkCount, Heap.stackBytes, tally, Stats.addAlloc]

theorem step_booked {e : Event} {o : Outcome} (h : s.Booked) (hs : step s e = .ok (s', o)) :
    s'.Booked := by
  cases e with
  | write m =>
      cases hs
      exact h.control rfl rfl rfl rfl
  | call c allocs mprotects =>
      have hw : s.env.Watching { s.env with mprotects := mprotects } := ⟨_, _, _, mprotects, rfl⟩
      have h' : (s.withChoices allocs mprotects).Booked :=
        ((State.SameCount.watching hw).booked h).allocs allocs
      exact (passes_booked.callStep h' c).result hs

end States

end Tealet
