import Tealet.EnvRule
import Tealet.Trace
import Tealet.Lib.CList
import Tealet.Lib.Tally

/-!
# The books of the allocator

The counters of `TEALET_WITH_STATS` are kept up to date by every function
that allocates or frees. Here they are compared with the blocks that are
outstanding. Nothing is assumed of the heap but that no block is in a slot
that was not handed out, so that each function below keeps the books by
itself, whatever it is called with.
-/

namespace Tealet

open Hoare Slice Tally CList

/-! ## Blocks -/

def stackSize (st : Stack) : Nat := stackHeader + st.chunk.data.length

def chunkSize (ck : Chunk) : Nat := chunkHeader + ck.data.length

namespace Heap

variable (h : Heap)

/-- The outstanding stacks, and the outstanding chunks beside the initial ones. -/
def stackCount : Nat := tally (fun _ => 1) h.stackAt h.nextStack

def chunkCount : Nat := tally (fun _ => 1) h.chunkAt h.nextChunk

def stackBytes : Nat :=
  tally stackSize h.stackAt h.nextStack + tally chunkSize h.chunkAt h.nextChunk

/-- The counters of the heap are right, with `bytes` and `blocks` for what
is allocated beside it. -/
structure Ledger (bytes blocks : Nat) : Prop where
  freshStack : ∀ k, h.nextStack ≤ k → h.stackAt k = none
  freshChunk : ∀ c, h.nextChunk ≤ c → h.chunkAt c = none
  stackCount : h.stats.stackCount = h.stackCount
  stackChunkCount : h.stats.stackChunkCount = h.stackCount + h.chunkCount
  stackBytes : h.stats.stackBytes = h.stackBytes
  bytesAllocated : h.stats.bytesAllocated = bytes + h.stackBytes
  blocksAllocated : h.stats.blocksAllocated = blocks + (h.stackCount + h.chunkCount)
  bytesPeak : h.stats.bytesAllocated ≤ h.stats.bytesAllocatedPeak
  blocksPeak : h.stats.blocksAllocated ≤ h.stats.blocksAllocatedPeak

/-- The same blocks are outstanding and the counters are the same. -/
structure SameBlocks (h' : Heap) : Prop where
  nextStack : h'.nextStack = h.nextStack
  nextChunk : h'.nextChunk = h.nextChunk
  stackAt : ∀ k, (h'.stackAt k).map stackSize = (h.stackAt k).map stackSize
  chunkAt : ∀ c, (h'.chunkAt c).map chunkSize = (h.chunkAt c).map chunkSize
  stats : h'.stats = h.stats

end Heap

section Heaps

variable {h h' h₁ : Heap} {k : StackId} {c : ChunkId} {st st' : Stack} {ck ck' : Chunk}
  {b n : Nat}

theorem elim_of_map {α : Type} {f : α → Nat} {o o' : Option α} (h : o.map f = o'.map f) :
    o.elim 0 f = o'.elim 0 f := by
  cases o <;> cases o' <;> simp_all

theorem elim_one_of_map {α : Type} {f : α → Nat} {o o' : Option α} (h : o.map f = o'.map f) :
    o.elim 0 (fun _ => 1) = o'.elim 0 (fun _ => 1) := by
  cases o <;> cases o' <;> simp_all

theorem none_of_map {α : Type} {f : α → Nat} {o o' : Option α} (h : o.map f = o'.map f)
    (ho : o' = none) : o = none := by
  cases o <;> simp_all

namespace Heap.SameBlocks

theorem refl (h : Heap) : h.SameBlocks h := ⟨rfl, rfl, fun _ => rfl, fun _ => rfl, rfl⟩

theorem allocs (h : Heap) (al : List Bool) : h.SameBlocks { h with allocs := al } :=
  ⟨rfl, rfl, fun _ => rfl, fun _ => rfl, rfl⟩

theorem trans (e : h.SameBlocks h₁) (e' : h₁.SameBlocks h') : h.SameBlocks h' :=
  ⟨e'.nextStack.trans e.nextStack, e'.nextChunk.trans e.nextChunk,
    fun k => (e'.stackAt k).trans (e.stackAt k), fun c => (e'.chunkAt c).trans (e.chunkAt c),
    e'.stats.trans e.stats⟩

/-- Writing the header of a stack. -/
theorem setStack (hst : h.stackAt k = some st) (hs : stackSize st' = stackSize st) :
    h.SameBlocks (h.setStack k st') := by
  refine ⟨rfl, rfl, fun x => ?_, fun _ => rfl, rfl⟩
  by_cases hx : x = k
  · subst hx
    simp only [Heap.setStack, Function.update_self, hst, Option.map_some, hs]
  · simp only [Heap.setStack, Function.update_of_ne hx]

theorem setChunk (hck : h.chunkAt c = some ck) (hs : chunkSize ck' = chunkSize ck) :
    h.SameBlocks (h.setChunk c ck') := by
  refine ⟨rfl, rfl, fun _ => rfl, fun x => ?_, rfl⟩
  by_cases hx : x = c
  · subst hx
    simp only [Heap.setChunk, Function.update_self, hck, Option.map_some, hs]
  · simp only [Heap.setChunk, Function.update_of_ne hx]

theorem ledger (e : h.SameBlocks h') (L : h.Ledger b n) : h'.Ledger b n := by
  have hs : h'.stackCount = h.stackCount := by
    unfold Heap.stackCount
    rw [e.nextStack]
    exact tally_congr fun i _ => elim_one_of_map (e.stackAt i)
  have hc : h'.chunkCount = h.chunkCount := by
    unfold Heap.chunkCount
    rw [e.nextChunk]
    exact tally_congr fun i _ => elim_one_of_map (e.chunkAt i)
  have hb : h'.stackBytes = h.stackBytes := by
    unfold Heap.stackBytes
    rw [e.nextStack, e.nextChunk]
    exact congrArg₂ (· + ·) (tally_congr fun i _ => elim_of_map (e.stackAt i))
      (tally_congr fun i _ => elim_of_map (e.chunkAt i))
  refine ⟨fun k hk => ?_, fun c hc => ?_, ?_, ?_, ?_, ?_, ?_, ?_, ?_⟩
  · exact none_of_map (e.stackAt k) (L.freshStack k (e.nextStack ▸ hk))
  · exact none_of_map (e.chunkAt c) (L.freshChunk c (e.nextChunk ▸ hc))
  · rw [e.stats, hs, L.stackCount]
  · rw [e.stats, hs, hc, L.stackChunkCount]
  · rw [e.stats, hb, L.stackBytes]
  · rw [e.stats, hb, L.bytesAllocated]
  · rw [e.stats, hs, hc, L.blocksAllocated]
  · rw [e.stats]
    exact L.bytesPeak
  · rw [e.stats]
    exact L.blocksPeak

end Heap.SameBlocks

theorem Heap.Ledger.setStack (L : h.Ledger b n) (hst : h.stackAt k = some st)
    (hs : stackSize st' = stackSize st) : (h.setStack k st').Ledger b n :=
  (Heap.SameBlocks.setStack hst hs).ledger L

theorem Heap.Ledger.setChunk (L : h.Ledger b n) (hck : h.chunkAt c = some ck)
    (hs : chunkSize ck' = chunkSize ck) : (h.setChunk c ck').Ledger b n :=
  (Heap.SameBlocks.setChunk hck hs).ledger L

theorem returns_stack (h : Heap) (k : StackId) :
    Returns (fun st => h.stackAt k = some st) (h.stack k) := by
  unfold Heap.stack
  split
  · assumption
  · exact True.intro

theorem returns_chunk (h : Heap) (c : ChunkId) :
    Returns (fun ck => h.chunkAt c = some ck) (h.chunk c) := by
  unfold Heap.chunk
  split
  · assumption
  · exact True.intro

theorem malloc_blocks (h : Heap) : h.SameBlocks h.malloc.2 := by
  unfold Heap.malloc
  split
  · exact .refl h
  · exact .allocs h _

/-! ## A block more, a block less -/

namespace Heap.Ledger

/-- A stack is allocated. -/
theorem addStack (L : h.Ledger b n) (st : Stack) : Ledger { h with
    stackAt := Function.update h.stackAt h.nextStack (some st)
    nextStack := h.nextStack + 1
    stats := { h.stats.addAlloc (stackSize st) with
      stackCount := h.stats.stackCount + 1
      stackChunkCount := h.stats.stackChunkCount + 1
      stackBytes := h.stats.stackBytes + stackSize st } } b n := by
  have hb := L.bytesAllocated
  have hn := L.blocksAllocated
  refine ⟨fun k hk => ?_, L.freshChunk, ?_, ?_, ?_, ?_, ?_, Nat.le_max_right _ _,
    Nat.le_max_right _ _⟩
  · have hne : k ≠ h.nextStack := Nat.ne_of_gt (Nat.lt_of_succ_le hk)
    exact (Function.update_of_ne hne ..).trans (L.freshStack k (Nat.le_of_succ_le hk))
  · simp only [Heap.stackCount, tally_push, L.stackCount]
  · simp only [Heap.stackCount, Heap.chunkCount, tally_push, L.stackChunkCount]
    omega
  · simp only [Heap.stackBytes, tally_push, L.stackBytes]
    omega
  · simp only [Heap.stackBytes, tally_push, Stats.addAlloc] at hb ⊢
    omega
  · simp only [Heap.stackCount, Heap.chunkCount, tally_push, Stats.addAlloc] at hn ⊢
    omega

theorem addChunk (L : h.Ledger b n) (ck : Chunk) : Ledger { h with
    chunkAt := Function.update h.chunkAt h.nextChunk (some ck)
    nextChunk := h.nextChunk + 1
    stats := { h.stats.addAlloc (chunkSize ck) with
      stackChunkCount := h.stats.stackChunkCount + 1
      stackBytes := h.stats.stackBytes + chunkSize ck } } b n := by
  have hb := L.bytesAllocated
  have hn := L.blocksAllocated
  refine ⟨L.freshStack, fun c hc => ?_, L.stackCount, ?_, ?_, ?_, ?_, Nat.le_max_right _ _,
    Nat.le_max_right _ _⟩
  · have hne : c ≠ h.nextChunk := Nat.ne_of_gt (Nat.lt_of_succ_le hc)
    exact (Function.update_of_ne hne ..).trans (L.freshChunk c (Nat.le_of_succ_le hc))
  · simp only [Heap.stackCount, Heap.chunkCount, tally_push, L.stackChunkCount]
    omega
  · simp only [Heap.stackBytes, tally_push, L.stackBytes]
    omega
  · simp only [Heap.stackBytes, tally_push, Stats.addAlloc] at hb ⊢
    omega
  · simp only [Heap.stackCount, Heap.chunkCount, tally_push, Stats.addAlloc] at hn ⊢
    omega

theorem lt_nextStack (L : h.Ledger b n) (hst : h.stackAt k = some st) : k < h.nextStack := by
  by_contra hk
  rw [L.freshStack k (Nat.le_of_not_lt hk)] at hst
  cases hst

theorem lt_nextChunk (L : h.Ledger b n) (hck : h.chunkAt c = some ck) : c < h.nextChunk := by
  by_contra hc
  rw [L.freshChunk c (Nat.le_of_not_lt hc)] at hck
  cases hck

/-- A stack is freed. -/
theorem freeStack (L : h.Ledger b n) (hst : h.stackAt k = some st) : Ledger { h with
    stackAt := Function.update h.stackAt k none
    stats := { h.stats.subAlloc (stackSize st) with
      stackCount := h.stats.stackCount - 1
      stackChunkCount := h.stats.stackChunkCount - 1
      stackBytes := h.stats.stackBytes - stackSize st } } b n := by
  have hk := L.lt_nextStack hst
  have hone := tally_remove (w := fun _ => 1) hk hst
  have hsize := tally_remove (w := stackSize) hk hst
  have h₁ := L.stackCount
  have h₂ := L.stackChunkCount
  have h₃ := L.stackBytes
  have h₄ := L.bytesAllocated
  have h₅ := L.blocksAllocated
  have h₆ := L.bytesPeak
  have h₇ := L.blocksPeak
  refine ⟨fun x hx => ?_, L.freshChunk, ?_, ?_, ?_, ?_, ?_, ?_, ?_⟩
  · by_cases hxk : x = k
    · subst hxk
      exact Function.update_self ..
    · exact (Function.update_of_ne hxk ..).trans (L.freshStack x hx)
  all_goals
    simp only [Heap.stackCount, Heap.chunkCount, Heap.stackBytes, Stats.subAlloc] at *
    omega

theorem freeChunk (L : h.Ledger b n) (hck : h.chunkAt c = some ck) : Ledger { h with
    chunkAt := Function.update h.chunkAt c none
    stats := { h.stats.subAlloc (chunkSize ck) with
      stackChunkCount := h.stats.stackChunkCount - 1
      stackBytes := h.stats.stackBytes - chunkSize ck } } b n := by
  have hc := L.lt_nextChunk hck
  have hone := tally_remove (w := fun _ => 1) hc hck
  have hsize := tally_remove (w := chunkSize) hc hck
  have h₁ := L.stackCount
  have h₂ := L.stackChunkCount
  have h₃ := L.stackBytes
  have h₄ := L.bytesAllocated
  have h₅ := L.blocksAllocated
  have h₆ := L.bytesPeak
  have h₇ := L.blocksPeak
  refine ⟨L.freshStack, fun x hx => ?_, h₁, ?_, ?_, ?_, ?_, ?_, ?_⟩
  · by_cases hxc : x = c
    · subst hxc
      exact Function.update_self ..
    · exact (Function.update_of_ne hxc ..).trans (L.freshChunk x hx)
  all_goals
    simp only [Heap.stackCount, Heap.chunkCount, Heap.stackBytes, Stats.subAlloc] at *
    omega

end Heap.Ledger

/-! ## The stack routines -/

theorem malloc_ledger (L : h.Ledger b n) {ok : Bool} (hm : h.malloc = (ok, h₁)) :
    h₁.Ledger b n := by
  have hl := (malloc_blocks h).ledger L
  rw [hm] at hl
  exact hl

theorem stackNew_ledger (L : h.Ledger b n) (m : Memory) (kf : Frame) (near far size : Nat) :
    (stackNew h m kf near far size).1.Ledger b n := by
  unfold stackNew
  rcases hm : h.malloc with ⟨_ | _, h₁⟩
  · exact malloc_ledger L hm
  · let st : Stack :=
      { refcount := 1, prev := none, next := none, defunct := false, stackFar := far, saved := size
        last := none, frame := kf
        chunk := { refcount := 1, next := none, stackNear := near, data := readSlice m near size } }
    have hsize : stackSize st = stackHeader + size :=
      congrArg (stackHeader + ·) (readSlice_length m near size)
    have hadd := (malloc_ledger L hm).addStack st
    rw [hsize] at hadd
    exact hadd

theorem stackGrow_ledger (L : h.Ledger b n) (m : Memory) (k : StackId) (size : Nat) :
    Returns (fun p => p.1.Ledger b n) (stackGrow h m k size) := by
  unfold stackGrow
  refine (returns_stack h k).bind fun st hst => returns_any.bind fun _ _ => ?_
  rcases hm : h.malloc with ⟨_ | _, h₁⟩
  · exact malloc_ledger L hm
  have hst₁ : h₁.stackAt k = some st := by
    have heq : h₁ = h.malloc.2 := by rw [hm]
    rw [heq]
    unfold Heap.malloc
    split <;> exact hst
  let ck : Chunk :=
    { refcount := 1, next := none, stackNear := st.chunk.stackNear + st.saved
      data := readSlice m (st.chunk.stackNear + st.saved) (size - st.saved) }
  have hsize : chunkSize ck = chunkHeader + (size - st.saved) :=
    congrArg (chunkHeader + ·) (readSlice_length ..)
  -- the heap with the new chunk, not linked yet
  let h₂ : Heap := { h₁ with
    chunkAt := Function.update h₁.chunkAt h₁.nextChunk (some ck)
    nextChunk := h₁.nextChunk + 1
    stats := { h₁.stats.addAlloc (chunkHeader + (size - st.saved)) with
      stackChunkCount := h₁.stats.stackChunkCount + 1
      stackBytes := h₁.stats.stackBytes + (chunkHeader + (size - st.saved)) } }
  have hadd : h₂.Ledger b n := by
    have h₃ := (malloc_ledger L hm).addChunk ck
    rw [hsize] at h₃
    exact h₃
  have hst₂ : h₂.stackAt k = some st := hst₁
  cases hlast : st.last with
  | none =>
      exact hadd.setStack hst₂ rfl
  | some l =>
      refine (returns_chunk h₂ l).bind fun lst hl => ?_
      have hset : (h₂.setChunk l { lst with next := some h₁.nextChunk }).Ledger _ _ :=
        hadd.setChunk hl rfl
      have hst₃ : (h₂.setChunk l { lst with next := some h₁.nextChunk }).stackAt k = some st := hst₂
      exact hset.setStack hst₃ rfl

theorem stackDup_blocks (h : Heap) (k : StackId) : Returns h.SameBlocks (stackDup h k) := by
  unfold stackDup
  exact (returns_stack h k).bind fun st hst => .setStack hst rfl

theorem stackLink_blocks (h : Heap) (k : StackId) : Returns h.SameBlocks (stackLink h k) := by
  unfold stackLink
  refine (returns_stack h k).bind fun st hst => returns_any.bind fun _ _ => ?_
  refine (returns_require (p := h.gPrev ≠ some k)).bind fun _ hne => ?_
  have hlink : ∀ h' : Heap, h.SameBlocks h' → h'.stackAt k = some st →
      h.SameBlocks { h'.setStack k { st with next := h'.gPrev, prev := some .head } with
        gPrev := some k } := by
    intro h' e hst'
    have e' : h.SameBlocks (h'.setStack k { st with next := h'.gPrev, prev := some .head }) :=
      e.trans (.setStack hst' rfl)
    exact ⟨e'.nextStack, e'.nextChunk, e'.stackAt, e'.chunkAt, e'.stats⟩
  cases hg : h.gPrev with
  | none => exact hlink h (.refl h) hst
  | some hd =>
      rw [hg] at hne
      refine (returns_stack h hd).bind fun hst' hhst => returns_any.bind fun _ _ => ?_
      have hk : k ≠ hd := fun heq => hne (by rw [heq])
      exact hlink _ (.setStack hhst rfl) ((Function.update_of_ne hk ..).trans hst)

theorem assignSlot_blocks (h : Heap) (p : DList.Slot StackId) (v : Option StackId) :
    Returns h.SameBlocks (h.assignSlot p v) := by
  unfold Heap.assignSlot
  cases p with
  | head => exact ⟨rfl, rfl, fun _ => rfl, fun _ => rfl, rfl⟩
  | next p => exact (returns_stack h p).bind fun st hst => .setStack hst rfl

theorem stackUnlink_blocks (h : Heap) (k : StackId) : Returns h.SameBlocks (stackUnlink h k) := by
  unfold stackUnlink
  refine (returns_stack h k).bind fun st hst => ?_
  cases st.prev with
  | none => exact True.intro
  | some prev =>
      refine returns_any.bind fun _ _ => returns_any.bind fun _ _ => ?_
      have hfinish : ∀ (h₁ : Heap) (next : Option StackId), h.SameBlocks h₁ → Returns h.SameBlocks
          (h₁.assignSlot prev next >>= fun h₂ => h₂.stack k >>= fun st₂ =>
            .ok (h₂.setStack k { st₂ with prev := none })) := fun h₁ next e₁ =>
        (assignSlot_blocks h₁ prev next).bind fun h₂ e₂ =>
          (returns_stack h₂ k).bind fun st₂ hst₂ => (e₁.trans e₂).trans (.setStack hst₂ rfl)
      cases st.next with
      | none => exact hfinish h none (.refl h)
      | some next =>
          refine (returns_stack h next).bind fun nst hnst => returns_any.bind fun _ _ => ?_
          exact hfinish _ (some next) (.setStack hnst rfl)

theorem chunkDecref_ledger (fuel : Nat) (L : h.Ledger b n) (o : Option ChunkId) :
    Returns (fun h' => h'.Ledger b n) (chunkDecref fuel h o) := by
  induction fuel generalizing h o with
  | zero =>
      cases o with
      | none => exact L
      | some c => exact True.intro
  | succ fuel ih =>
      cases o with
      | none => exact L
      | some c =>
          unfold chunkDecref
          refine (returns_chunk h c).bind fun ck hck => ?_
          split
          · exact L.setChunk hck rfl
          · exact ih (L.freeChunk hck) ck.next

theorem stackDecref_ledger (L : h.Ledger b n) (o : Option StackId) :
    Returns (fun h' => h'.Ledger b n) (stackDecref h o) := by
  cases o with
  | none => exact L
  | some k =>
      unfold stackDecref
      refine (returns_stack h k).bind fun st hst => ?_
      have hset : h.SameBlocks (h.setStack k { st with refcount := st.refcount - 1 }) :=
        .setStack hst rfl
      have hfree : ∀ h' : Heap,
          (h.setStack k { st with refcount := st.refcount - 1 }).SameBlocks h' →
          Returns (fun h' => h'.Ledger b n) (chunkDecref h'.nextChunk { h' with
            stackAt := Function.update h'.stackAt k none
            stats := { h'.stats.subAlloc (stackSize st) with
              stackCount := h'.stats.stackCount - 1
              stackChunkCount := h'.stats.stackChunkCount - 1
              stackBytes := h'.stats.stackBytes - stackSize st } } st.chunk.next) := by
        intro h' e
        have hsize : (h'.stackAt k).map stackSize = some (stackSize st) :=
          ((hset.trans e).stackAt k).trans (by rw [hst]; rfl)
        obtain ⟨st', hst', heq⟩ := Option.map_eq_some_iff.mp hsize
        have hfree := ((hset.trans e).ledger L).freeStack hst'
        rw [heq] at hfree
        exact chunkDecref_ledger _ hfree _
      split
      · exact L.setStack hst rfl
      · by_cases hp : st.prev = none
        · exact Sat.ite_true hp (hfree _ (.refl _))
        · exact Sat.ite_false hp ((stackUnlink_blocks _ k).bind hfree)

theorem stackDefunct_ledger (L : h.Ledger b n) (k : StackId) :
    Returns (fun h' => h'.Ledger b n) (stackDefunct h k) := by
  unfold stackDefunct
  refine (returns_stack h k).bind fun st hst => ?_
  have hset : (h.setStack k { st with
      chunk := { st.chunk with next := none }, last := none, defunct := true, saved :=
        0 }).Ledger b n :=
    L.setStack hst rfl
  exact chunkDecref_ledger h.nextChunk hset st.chunk.next

theorem stackSaveto_ledger (L : h.Ledger b n) (m : Memory) (kf : Frame) (near far saveto : Nat) :
    Returns (fun p => p.1.Ledger b n) (stackSaveto h m kf near far saveto) := by
  unfold stackSaveto
  exact returns_any.bind fun _ _ => stackNew_ledger L m kf near far _

theorem stackGrowto_ledger (L : h.Ledger b n) (m : Memory) (main : Option StackId) (k : StackId)
    (saveto : Nat) (failOk : Bool) :
    Returns (fun p => p.1.Ledger b n) (stackGrowto h m main k saveto failOk) := by
  unfold stackGrowto
  refine returns_any.bind fun st _ => returns_any.bind fun _ _ => returns_any.bind fun _ _ => ?_
  have hgrow : ∀ (size : Nat) (full : Bool), Returns (fun p => p.1.Ledger b n)
      (if size ≤ st.saved then (.ok (h, ⟨false, full⟩) : Res (Heap × Grown)) else
        stackGrow h m k size >>= fun p =>
          if p.2 then .ok (p.1, ⟨false, full⟩)
          else if failOk then .ok (p.1, ⟨true, full⟩)
          else if main = some k then .ok (p.1, ⟨true, full⟩)
          else stackDefunct p.1 k >>= fun h => .ok (h, ⟨false, true⟩)) := by
    intro size full
    split
    · exact L
    · refine (stackGrow_ledger L m k size).bind fun p hp => ?_
      split
      · exact hp
      · split
        · exact hp
        · split
          · exact hp
          · exact (stackDefunct_ledger hp k).bind fun h₂ L₂ => L₂
  exact hgrow _ _

theorem stackGrowList_ledger (m : Memory) (main : Option StackId) (saveto : Nat)
    (target : Option StackId) (failOk : Bool) (fuel : Nat) (L : h.Ledger b n) (o : Option StackId) :
    Returns (fun p => p.1.Ledger b n) (stackGrowList m main saveto target failOk fuel h o) := by
  have hunlink : ∀ {h' : Heap} (k : StackId), h'.Ledger b n →
      Returns (fun h₂ => h₂.Ledger b n) (stackUnlink h' k) := fun k L' =>
    (stackUnlink_blocks _ k).imp fun h₂ e => e.ledger L'
  induction fuel generalizing h o with
  | zero =>
      cases o with
      | none => exact L
      | some c => exact True.intro
  | succ fuel ih =>
      cases o with
      | none => exact L
      | some k =>
          unfold stackGrowList
          by_cases ht : target = some k
          · refine Sat.ite_true ht (returns_any.bind fun st _ => ?_)
            split
            · refine (stackGrowto_ledger L m main k saveto failOk).bind fun p hp => ?_
              obtain ⟨h₁, g⟩ := p
              dsimp only at hp ⊢
              split
              · exact hp
              · exact returns_any.bind fun _ _ => (hunlink k hp).bind fun h₂ L₂ => L₂
            · exact (hunlink k L).bind fun h₂ L₂ => L₂
          · refine Sat.ite_false ht ?_
            refine (stackGrowto_ledger L m main k saveto failOk).bind fun p hp => ?_
            obtain ⟨h₁, g⟩ := p
            dsimp only at hp ⊢
            split
            · exact hp
            · split
              · exact (hunlink k hp).bind fun h₂ L₂ => returns_any.bind fun st _ => ih L₂ _
              · have hp₁ : Returns (fun h₂ : Heap => h₂.Ledger b n) (pure h₁) := hp
                refine hp₁.bind fun h₂ L₂ => ?_
                exact returns_any.bind fun st _ => ih L₂ _

end Heaps

end Tealet
