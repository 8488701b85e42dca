import Mathlib.Algebra.BigOperators.Ring.Finset
import Mathlib.Algebra.Order.BigOperators.Group.Finset
import Tealet.Chunks
import Tealet.References
import Tealet.Counts

/-!
# Statistics

`tealet_get_stats` and `tealet_reset_peak_stats`. The report takes some
figures from the counters and recomputes the expanded and the naive size of
the saved stacks by walking the list of tealets and the chunks of each.

The two sizes are added up in `size_t`, that is modulo `wordMod`, as the
difference of two pointers is. Both may count the same bytes many times, so
the sums can wrap; the counters only count blocks that exist side by side
and have no bound here. What is reported is the sum modulo `wordMod`
(`walkTealets_spec`), and is compared where the sums fit.
-/

namespace Tealet

open DList Slice Hoare Refs Tally CList

/-! ## The report -/

/-- `tealet_stats_t`. -/
structure StatsReport where
  nActive : Nat
  nTotal : Nat
  bytesAllocated : Nat
  bytesAllocatedPeak : Nat
  blocksAllocated : Nat
  blocksAllocatedPeak : Nat
  blocksAllocatedTotal : Nat
  stackBytes : Nat
  stackCount : Nat
  stackChunkCount : Nat
  stackBytesExpanded : Nat
  stackBytesNaive : Nat
deriving DecidableEq, Repr

/-- `a + b` in `size_t`. -/
def addSize (a b : Nat) : Nat := (a + b) % wordMod

/-- The loop that looks for the furthest chunk, from `chunk` on. -/
def furthestChunk (h : Heap) : Nat → Option ChunkId → Nat → Res Nat
  | _, none, effectiveFar => .ok effectiveFar
  | 0, some _, _ => .error .looping
  | fuel + 1, some c, effectiveFar => do
      let ck ← h.chunk c
      let chunkFar := ck.stackNear + ck.data.length
      furthestChunk h fuel ck.next (if effectiveFar < chunkFar then chunkFar else effectiveFar)

/-- The loop that adds up the chunks. -/
def addChunks (h : Heap) : Nat → Option ChunkId → Nat → Res Nat
  | _, none, size => .ok size
  | 0, some _, _ => .error .looping
  | fuel + 1, some c, size => do
      let ck ← h.chunk c
      addChunks h fuel ck.next (addSize size (addSize chunkHeader ck.data.length))

/-- `this_naive` and `this_expanded` of one tealet with a saved stack. -/
def stackFigures (h : Heap) (k : StackId) : Res (Nat × Nat) := do
  let st ← h.stack k
  let effectiveFar ←
    if st.stackFar = spFurthest then
      furthestChunk h h.nextChunk st.chunk.next (st.chunk.stackNear + st.chunk.data.length)
    else pure st.stackFar
  let extent := (effectiveFar + wordMod - st.chunk.stackNear) % wordMod
  let expanded ← addChunks h h.nextChunk st.chunk.next
    (addSize stackHeader st.chunk.data.length)
  return (addSize stackHeader extent, expanded)

/-- What one tealet adds to the naive and the expanded size. -/
def addTealet (s : State) (t : TealetId) (sizes : Nat × Nat) : Res (Nat × Nat) := do
  let r ← s.tealet t
  match r.stack with
  | none => return sizes
  | some k => do
      let (thisNaive, thisExpanded) ← stackFigures s.heap k
      return (addSize sizes.1 thisNaive, addSize sizes.2 thisExpanded)

/-- The loop over the circular list, at the tealet `t`. -/
def walkTealets (s : State) (fuel : Nat) (t : TealetId) (sizes : Nat × Nat) :
    Res (Nat × Nat) := do
  let sizes ← addTealet s t sizes
  let next := s.env.nextTealet t
  if next = mainId then return sizes
  else
    match fuel with
    | 0 => .error .looping
    | fuel + 1 => walkTealets s fuel next sizes

/-- `tealet_get_stats`. -/
def getStats (s : State) : Res StatsReport := do
  let st := s.heap.stats
  let (naive, expanded) ← walkTealets s s.nextTealet mainId (0, 0)
  return {
    nActive := s.env.gTealets
    nTotal := s.env.gCounter
    bytesAllocated := st.bytesAllocated
    bytesAllocatedPeak := st.bytesAllocatedPeak
    blocksAllocated := st.blocksAllocated
    blocksAllocatedPeak := st.blocksAllocatedPeak
    blocksAllocatedTotal := st.blocksAllocatedTotal
    stackBytes := st.stackBytes
    stackCount := st.stackCount
    stackChunkCount := st.stackChunkCount
    stackBytesExpanded := expanded
    stackBytesNaive := naive }

/-- `tealet_reset_peak_stats`. -/
def resetPeakStats (s : State) : State :=
  { s with heap := { s.heap with stats := { s.heap.stats with
      bytesAllocatedPeak := s.heap.stats.bytesAllocated
      blocksAllocatedPeak := s.heap.stats.blocksAllocated } } }

/-! ## Sizes that do not wrap -/

/-- The naive size of the stack `k`: what it spans, in one piece. -/
def Heap.naiveSize (h : Heap) (k : StackId) : Nat :=
  (h.stackAt k).elim 0 fun st => stackHeader +
    if st.stackFar = spFurthest then ((h.chunks st).map fun ck => ck.data.length).sum
    else (st.stackFar + wordMod - st.chunk.stackNear) % wordMod

/-- The expanded size of the stack `k`: what it takes up with its chunks. -/
def Heap.expandedSize (h : Heap) (k : StackId) : Nat :=
  (h.stackAt k).elim 0 fun st => stackSize st + ((h.chunks st).tail.map chunkSize).sum

/-- The stack of a tealet, weighed by `w`. -/
def State.weigh (s : State) (w : StackId → Nat) (t : TealetId) : Nat :=
  ((s.tealets t).bind TealetSub.stack).elim 0 w

/-- The naive sizes, once per tealet. -/
def State.naiveBytes (s : State) : Nat :=
  ∑ t ∈ Finset.range s.nextTealet, s.weigh s.heap.naiveSize t

/-- The expanded sizes, once per tealet. -/
def State.expandedBytes (s : State) : Nat :=
  ∑ t ∈ Finset.range s.nextTealet, s.weigh s.heap.expandedSize t

/-- The extra chunks of each tealet's stack, once per tealet. -/
noncomputable def State.extraChunks (s : State) : Nat :=
  ∑ t ∈ Finset.range s.nextTealet, s.weigh (fun k => {c | s.heap.Holds k c}.ncard) t

/-! ## The walks -/

section Walks

variable {h : Heap} {a : Saved} {own : StackId → List ChunkId} {cur : Option ChunkId} {near : Nat}
  {cs : List ChunkId} {ds : List (List Byte)}

/-- Each chunk of a chain starts where the one before it ended, so the last is the furthest. -/
theorem Chain.furthestChunk (hc : Chain h.chunkAt cur near cs ds) {fuel : Nat}
    (hf : cs.length ≤ fuel) :
    furthestChunk h fuel cur near = .ok (near + ds.flatten.length) := by
  induction cs generalizing cur near ds fuel with
  | nil =>
      obtain ⟨rfl, rfl⟩ := hc
      cases fuel <;> rfl
  | cons c cs ih =>
      obtain ⟨ck, d, ds', rfl, rfl, hck, -, hnear, hd, hrest⟩ := hc
      obtain ⟨fuel, rfl⟩ := Nat.exists_eq_add_one_of_ne_zero (Nat.ne_of_gt (Nat.lt_of_lt_of_le
        (Nat.succ_pos _) hf))
      have hfar : (if near < ck.stackNear + ck.data.length then ck.stackNear + ck.data.length
          else near) = near + d.length := by
        rw [hnear, hd]
        split <;> omega
      rw [Tealet.furthestChunk, Heap.chunk, hck]
      simp only [ok_bind]
      rw [hfar, ih hrest (Nat.le_of_succ_le_succ hf), List.flatten_cons, List.length_append,
        Nat.add_assoc]

theorem addSize_mod (a b : Nat) :
    addSize (a % wordMod) (b % wordMod) = (a + b) % wordMod :=
  (Nat.add_mod ..).symm

theorem Chain.addChunks (hc : Chain h.chunkAt cur near cs ds) {fuel : Nat} (size : Nat)
    (hf : cs.length ≤ fuel) : addChunks h fuel cur (size % wordMod) =
      .ok ((size + cs.length * chunkHeader + ds.flatten.length) % wordMod) := by
  induction cs generalizing cur near ds fuel size with
  | nil =>
      obtain ⟨rfl, rfl⟩ := hc
      cases fuel <;> simp [Tealet.addChunks]
  | cons c cs ih =>
      obtain ⟨ck, d, ds', rfl, rfl, hck, -, hnear, rfl, hrest⟩ := hc
      obtain ⟨fuel, rfl⟩ := Nat.exists_eq_add_one_of_ne_zero (Nat.ne_of_gt (Nat.lt_of_lt_of_le
        (Nat.succ_pos _) hf))
      have hadd : addSize (size % wordMod) (addSize chunkHeader ck.data.length) =
          (size + (chunkHeader + ck.data.length)) % wordMod :=
        addSize_mod _ _
      rw [Tealet.addChunks, Heap.chunk, hck]
      simp only [ok_bind]
      rw [hadd, ih hrest _ (Nat.le_of_succ_le_succ hf), List.flatten_cons, List.length_append,
        List.length_cons, Nat.succ_mul]
      congr 2
      omega

/-- The chunks of a chain, by their sizes. -/
theorem Chain.sum_chunkSize (hc : Chain h.chunkAt cur near cs ds) :
    (cs.map fun c => (h.chunkAt c).elim 0 chunkSize).sum =
      cs.length * chunkHeader + ds.flatten.length := by
  induction cs generalizing cur near ds with
  | nil =>
      obtain ⟨rfl, rfl⟩ := hc
      rfl
  | cons c cs ih =>
      obtain ⟨ck, d, ds', rfl, rfl, hck, -, hnear, rfl, hrest⟩ := hc
      rw [List.map_cons, List.sum_cons, ih hrest, hck, List.flatten_cons, List.length_append,
        List.length_cons, Nat.succ_mul, Option.elim_some, chunkSize]
      omega

theorem Chain.length_eq (hc : Chain h.chunkAt cur near cs ds) : ds.length = cs.length := by
  induction cs generalizing cur near ds with
  | nil =>
      obtain ⟨-, rfl⟩ := hc
      rfl
  | cons c cs ih =>
      obtain ⟨ck, d, ds', rfl, -, -, -, -, -, hrest⟩ := hc
      rw [List.length_cons, List.length_cons, ih hrest]

/-- The chunks of a stack hold the bytes of its image. -/
theorem HeapRep.chunks_data (H : HeapRep h a own) {k : StackId} {im : Image}
    (him : a.img k = some im) : ∃ st, h.stackAt k = some st ∧ StackRep h.chunkAt st im (own k) ∧
      (h.chunks st).map Chunk.data = im.first :: im.rest := by
  obtain ⟨st, hst, hrep⟩ := H.stack k im him
  have hchain := hrep.chain
  rw [← hrep.near, ← hrep.first] at hchain
  refine ⟨st, hst, hrep, ?_⟩
  rw [Heap.chunks, (chunksFrom_contiguous hchain (H.own_length k)).2, hrep.first]

theorem HeapRep.naiveSize (H : HeapRep h a own) {k : StackId} {im : Image}
    (him : a.img k = some im) : h.naiveSize k = stackHeader +
      if im.far = spFurthest then im.data.length
      else (im.far + wordMod - im.near) % wordMod := by
  obtain ⟨st, hst, hrep, hdata⟩ := H.chunks_data him
  have hsum : ((h.chunks st).map fun ck => ck.data.length).sum = im.data.length := by
    have hlen := congrArg (fun ds => (ds.map List.length).sum) hdata
    simp only [List.map_map, List.map_cons, List.sum_cons] at hlen
    rw [Image.data, List.length_append, List.length_flatten]
    exact hlen
  rw [Heap.naiveSize, hst, Option.elim_some, hsum, hrep.far, hrep.near]

theorem HeapRep.expandedSize (H : HeapRep h a own) {k : StackId} {im : Image}
    (him : a.img k = some im) : h.expandedSize k =
      stackHeader + im.data.length + chunkHeader * (own k).length := by
  obtain ⟨st, hst, hrep, hdata⟩ := H.chunks_data him
  have htail : (h.chunks st).tail.map Chunk.data = im.rest := by
    rw [List.map_tail, hdata, List.tail_cons]
  have hsize : chunkSize = (fun d => chunkHeader + d.length) ∘ Chunk.data := rfl
  have hsum : ((h.chunks st).tail.map chunkSize).sum =
      im.rest.length * chunkHeader + im.rest.flatten.length := by
    rw [hsize, ← List.map_map, htail, List.length_flatten]
    induction im.rest with
    | nil => rfl
    | cons d ds ih =>
        rw [List.map_cons, List.sum_cons, ih, List.map_cons, List.sum_cons, List.length_cons,
          Nat.succ_mul]
        omega
  rw [Heap.expandedSize, hst, Option.elim_some, hsum, stackSize, hrep.first, Image.data,
    List.length_append, hrep.chain.length_eq, Nat.mul_comm chunkHeader]
  omega

theorem HeapRep.expandedSize_none (H : HeapRep h a own) {k : StackId} (hk : a.img k = none) :
    h.expandedSize k = 0 := by
  rw [Heap.expandedSize, (H.gone k hk).1]
  rfl

/-- A stack as it is counted by the running totals. -/
theorem HeapRep.expandedSize_eq (H : HeapRep h a own) (k : StackId) : h.expandedSize k =
    (h.stackAt k).elim 0 stackSize +
      ((own k).map fun c => (h.chunkAt c).elim 0 chunkSize).sum := by
  cases him : a.img k with
  | none =>
      obtain ⟨hst, hown⟩ := H.gone k him
      rw [H.expandedSize_none him, hst, hown]
      rfl
  | some im =>
      obtain ⟨st, hst, hrep⟩ := H.stack k im him
      rw [H.expandedSize him, hst, Option.elim_some, stackSize, hrep.first,
        hrep.chain.sum_chunkSize, Image.data, List.length_append, Nat.mul_comm chunkHeader]
      omega

theorem stackFigures_spec (H : HeapRep h a own) {k : StackId} {im : Image}
    (him : a.img k = some im) (hfar : im.far ≤ spFurthest) :
    stackFigures h k = .ok (h.naiveSize k % wordMod, h.expandedSize k % wordMod) := by
  obtain ⟨st, hst, hrep⟩ := H.stack k im him
  have hlen := H.own_length k
  have hdata : im.data.length = im.first.length + im.rest.flatten.length := List.length_append
  have hadd : addChunks h h.nextChunk st.chunk.next (addSize stackHeader im.first.length) =
      .ok (h.expandedSize k % wordMod) := by
    refine (hrep.chain.addChunks (stackHeader + im.first.length) hlen).trans ?_
    rw [H.expandedSize him, hdata, Nat.mul_comm chunkHeader]
    congr 2
    omega
  have hfur := hrep.chain.furthestChunk hlen
  rw [stackFigures, Heap.stack, hst, H.naiveSize him]
  simp only [ok_bind, hrep.first, hrep.near, hrep.far]
  have hbound : im.far < wordMod := Nat.lt_of_le_of_lt hfar (by decide)
  by_cases hu : im.far = spFurthest
  · rw [if_pos hu, if_pos hu, hfur]
    simp only [ok_bind, hadd]
    have hext : im.near + im.first.length + im.rest.flatten.length + wordMod - im.near =
        im.data.length + wordMod := by omega
    rw [hext, Nat.add_mod_right, addSize, Nat.add_mod_mod]
    rfl
  · rw [if_neg hu, if_neg hu]
    simp only [ok_bind, pure_eq_ok, hadd]
    rfl

/-- What is saved is within what the stack spans. -/
theorem HeapRep.expanded_le (H : HeapRep h a own) {k : StackId} {im : Image}
    (him : a.img k = some im) (hext : im.near + im.data.length ≤ max im.near im.far)
    (hfar : im.far ≤ spFurthest) :
    h.expandedSize k ≤ h.naiveSize k + chunkHeader * (own k).length := by
  have hbound : im.far < wordMod := Nat.lt_of_le_of_lt hfar (by decide)
  have hspan : im.data.length ≤ if im.far = spFurthest then im.data.length
      else (im.far + wordMod - im.near) % wordMod := by
    split
    · exact Nat.le_refl _
    · by_cases hz : im.data.length = 0
      · omega
      · have hnear : im.near + im.data.length ≤ im.far := by omega
        have heq : im.far + wordMod - im.near = (im.far - im.near) + wordMod := by omega
        rw [heq, Nat.add_mod_right, Nat.mod_eq_of_lt (by omega)]
        omega
  rw [H.expandedSize him, H.naiveSize him]
  omega

/-- All chunks belong to some stack, so the stacks with what they hold make up the heap. -/
theorem HeapRep.stackBytes (H : HeapRep h a own) :
    h.stackBytes = ∑ k ∈ Finset.range h.nextStack, h.expandedSize k := by
  have hpart : tally chunkSize h.chunkAt h.nextChunk = ∑ k ∈ Finset.range h.nextStack,
      ((own k).map fun c => (h.chunkAt c).elim 0 chunkSize).sum := by
    refine tally_partition H.nodup H.disjoint (fun k c hc => ?_) fun c _ hc => ?_
    · cases him : a.img k with
      | none => simp [(H.gone k him).2] at hc
      | some im =>
          obtain ⟨st, -, hrep⟩ := H.stack k im him
          by_contra hlt
          exact hrep.chain.alive c hc (H.freshChunk c (Nat.le_of_not_lt hlt))
    · obtain ⟨k, hk⟩ := H.owned c hc
      cases him : a.img k with
      | none => simp [(H.gone k him).2] at hk
      | some im => exact ⟨k, H.lt_nextStack him, hk⟩
  rw [Heap.stackBytes, hpart, tally, ← Finset.sum_add_distrib]
  exact Finset.sum_congr rfl fun k _ => (H.expandedSize_eq k).symm

end Walks

theorem addTealet_spec {s : State} {f g : StackId → Nat} {t : TealetId} {r : TealetSub}
    (hr : s.tealets t = some r)
    (hf : ∀ k, r.stack = some k → stackFigures s.heap k = .ok (f k % wordMod, g k % wordMod))
    (x y : Nat) : addTealet s t (x % wordMod, y % wordMod) =
      .ok ((x + s.weigh f t) % wordMod, (y + s.weigh g t) % wordMod) := by
  have hw : ∀ w, s.weigh w t = r.stack.elim 0 w := fun w => by
    rw [State.weigh, hr, Option.bind_some]
  rw [addTealet, tealet_of hr, hw, hw]
  cases hs : r.stack with
  | none =>
      simp only [ok_bind, hs]
      rfl
  | some k =>
      simp only [ok_bind, hs, hf k hs, addSize_mod]
      rfl

/-- The walk over the list reports the sums of the figures `f` and `g` of the
stacks, modulo `wordMod`. -/
theorem walkTealets_spec {s : State} {f g : StackId → Nat} {t : TealetId} {l : List TealetId}
    (hl : Arc s.env.nextTealet s.env.prevTealet t l mainId) (hm : mainId ∉ l)
    (hf : ∀ u ∈ t :: l, ∃ r, s.tealets u = some r ∧
      ∀ k, r.stack = some k → stackFigures s.heap k = .ok (f k % wordMod, g k % wordMod))
    {fuel : Nat} (hfuel : l.length ≤ fuel) (x y : Nat) :
    walkTealets s fuel t (x % wordMod, y % wordMod) = .ok
      ((x + ((t :: l).map (s.weigh f)).sum) % wordMod,
        (y + ((t :: l).map (s.weigh g)).sum) % wordMod) := by
  induction l generalizing t fuel x y with
  | nil =>
      obtain ⟨r, hr, hk⟩ := hf t List.mem_cons_self
      rw [walkTealets.eq_def, addTealet_spec hr hk]
      simp only [ok_bind, hl.1, if_true, List.map_cons, List.map_nil, List.sum_cons,
        List.sum_nil, Nat.add_zero]
      rfl
  | cons u l ih =>
      obtain ⟨hn, -, harc⟩ := hl
      obtain ⟨r, hr, hk⟩ := hf t List.mem_cons_self
      obtain ⟨fuel, rfl⟩ := Nat.exists_eq_add_one_of_ne_zero (Nat.ne_of_gt (Nat.lt_of_lt_of_le
        (Nat.succ_pos _) hfuel))
      have hu : u ≠ mainId := fun heq => hm (heq ▸ List.mem_cons_self)
      have hrest := fun x y => ih harc (fun h => hm (List.mem_cons_of_mem _ h))
        (fun v hv => hf v (List.mem_cons_of_mem _ hv)) (Nat.le_of_succ_le_succ hfuel) x y
      rw [walkTealets.eq_def, addTealet_spec hr hk]
      simp only [ok_bind, hn, if_neg hu]
      rw [hrest]
      simp only [List.map_cons, List.sum_cons, Nat.add_assoc]

/-! ## Counters and ground truth -/

/-- The runs during which the peaks may be reset. -/
inductive StatsRun (P : State → Event → Prop) (s : State) : State → Prop where
  | refl : StatsRun P s s
  | step {s₁ s₂ : State} {e : Event} {o : Outcome} :
      StatsRun P s s₁ → P s₁ e → step s₁ e = .ok (s₂, o) → StatsRun P s s₂
  | reset {s₁ : State} : StatsRun P s s₁ → StatsRun P s (resetPeakStats s₁)

theorem Run.statsRun {P : State → Event → Prop} {s s' : State} (h : Run P s s') :
    StatsRun P s s' := by
  induction h with
  | refl => exact .refl
  | tail _ hP hs ih => exact .step ih hP hs

/-- The list and the counters of the report `p` are right in the state `s`,
whose tealets but main are `l`. -/
structure StatsCounted (s : State) (l : List TealetId) (p : StatsReport) : Prop where
  loop : Loop s.env.nextTealet s.env.prevTealet mainId l
  visits : ∀ t, t ∈ mainId :: l ↔ Alive s t
  nActive : p.nActive = {t | Alive s t}.ncard
  freshStack : ∀ k, s.heap.nextStack ≤ k → s.heap.stackAt k = none
  freshChunk : ∀ c, s.heap.nextChunk ≤ c → s.heap.chunkAt c = none
  stackCount : p.stackCount = {k | s.heap.stackAt k ≠ none}.ncard
  stackChunkCount : p.stackChunkCount =
    {k | s.heap.stackAt k ≠ none}.ncard + {c | s.heap.chunkAt c ≠ none}.ncard
  stackBytes : p.stackBytes =
    tally stackSize s.heap.stackAt s.heap.nextStack +
      tally chunkSize s.heap.chunkAt s.heap.nextChunk
  bytesAllocated : p.bytesAllocated = mainHeader + s.env.gExtrasize +
    l.length * (tealetHeader + s.env.gExtrasize) + p.stackBytes
  blocksAllocated : p.blocksAllocated = p.nActive + p.stackChunkCount
  bytesPeak : p.bytesAllocated ≤ p.bytesAllocatedPeak
  blocksPeak : p.blocksAllocated ≤ p.blocksAllocatedPeak

/-- So are the sizes that are recomputed, beside the counters. -/
structure StatsExact (s : State) (l : List TealetId) (p : StatsReport) : Prop
    extends StatsCounted s l p where
  expanded : p.stackBytes ≤ p.stackBytesExpanded
  naive : p.stackBytesExpanded ≤ p.stackBytesNaive + chunkHeader * s.extraChunks
  unshared : (∀ k st, s.heap.stackAt k = some st → st.refcount = 1) →
    p.stackBytes = p.stackBytesExpanded

section Exact

variable {s s' : State} {a : Saved} {l : List TealetId}

theorem Inv.resetPeak {leak : StackId → Nat} (I : Inv leak s a) :
    Inv leak (resetPeakStats s) a := by
  obtain ⟨own, H⟩ := I.rep
  exact ⟨⟨own, H.withAllocs _ _⟩, I.core, I.sched, I.gTarget, I.panic⟩

theorem State.Counted.resetPeak (B : s.Counted l) : (resetPeakStats s).Counted l := by
  have L := B.ledger
  exact ⟨B.loop, B.alive, B.fresh, B.gTealets, L.freshStack, L.freshChunk, L.stackCount,
    L.stackChunkCount, L.stackBytes, L.bytesAllocated, L.blocksAllocated, Nat.le_refl _,
    Nat.le_refl _⟩

theorem StatsRun.inv {mem : Memory} {env : Env} (h : StatsRun NoPanic (initial mem env) s)
    (ha : env.Alone) : (∃ a, Inv (fun _ => 0) s a) ∧ s.Booked := by
  induction h with
  | refl => exact ⟨⟨_, inv_initial mem env⟩, initial_booked mem ha⟩
  | @step s₁ s₂ e o _ hp hs ih =>
      obtain ⟨⟨a, I⟩, B⟩ := ih
      obtain ⟨leak', a', hend⟩ := (step_spec True (E := fun _ => True) I hp.1
        (fun _ _ => True.intro) hp.2.resumes (.inl True.intro)).result hs
      obtain rfl := hend.exact' True.intro
      exact ⟨⟨a', hend.inv⟩, step_booked B hs⟩
  | reset _ ih =>
      obtain ⟨⟨a, I⟩, l, B⟩ := ih
      exact ⟨⟨a, I.resetPeak⟩, l, B.resetPeak⟩

/-- A sum over the list is a sum over the records. -/
theorem State.Counted.sum_weigh (B : s.Counted l) (w : StackId → Nat) :
    ((mainId :: l).map (s.weigh w)).sum = ∑ t ∈ Finset.range s.nextTealet, s.weigh w t := by
  have hlt : ∀ t ∈ mainId :: l, t < s.nextTealet := fun t ht => by
    by_contra h
    exact not_alive.mpr (B.fresh t (Nat.le_of_not_lt h)) ((B.alive t).mp ht)
  rw [← List.sum_toFinset _ B.loop.nodup]
  refine Finset.sum_subset (fun t ht => ?_) fun t _ hno => ?_
  · exact Finset.mem_range.mpr (hlt t (List.mem_toFinset.mp ht))
  · have hdead : ¬ Alive s t := fun h => hno (List.mem_toFinset.mpr ((B.alive t).mpr h))
    rw [State.weigh, not_alive.mp hdead]
    rfl

theorem State.Counted.length_lt (B : s.Counted l) : l.length < s.nextTealet := by
  have hsub : mainId :: l ⊆ List.range s.nextTealet := fun t ht => by
    by_contra h
    have hle : s.nextTealet ≤ t := by simpa using h
    exact not_alive.mpr (B.fresh t hle) ((B.alive t).mp ht)
  simpa using (List.subperm_of_subset B.loop.nodup hsub).length_le

theorem HeapRep.ncard_holds {own : StackId → List ChunkId} (H : HeapRep s.heap a own)
    (k : StackId) :
    {c | s.heap.Holds k c}.ncard = (own k).length := by
  have hset : {c | s.heap.Holds k c} = ((own k).toFinset : Set Nat) := by
    ext c
    rw [List.coe_toFinset]
    exact H.holds_iff
  rw [hset, Set.ncard_coe_finset, List.toFinset_card_of_nodup (H.nodup k)]

/-- The expanded size counts each stack as often as it is referenced. -/
theorem Inv.expandedBytes (I : Inv (fun _ => 0) s a) {own : StackId → List ChunkId}
    (H : HeapRep s.heap a own) :
    s.expandedBytes =
      ∑ k ∈ Finset.range s.heap.nextStack, (s.view a).refs k * s.heap.expandedSize k := by
  refine sum_holders _ fun t _ k hk => ?_
  obtain ⟨r, hr, hrk⟩ := tealets_of_stackOf (v := s.view a) hk
  obtain ⟨im, him, -⟩ := I.core.owned t r k hr hrk
  exact H.lt_nextStack him

theorem State.extraChunks_zero
    (h : ∀ k st, s.heap.stackAt k = some st → st.chunk.next = none) : s.extraChunks = 0 := by
  refine Finset.sum_eq_zero fun t _ => ?_
  unfold State.weigh
  cases (s.tealets t).bind TealetSub.stack with
  | none => rfl
  | some k =>
      have hempty : {c | s.heap.Holds k c} = ∅ := by
        ext c
        refine ⟨?_, False.elim⟩
        rintro ⟨st, hst, hr⟩
        rw [h k st hst] at hr
        cases hr
      rw [Option.elim_some, hempty, Set.ncard_empty]

/-- The walk reports the sizes modulo `wordMod`. -/
theorem Inv.walk (I : Inv (fun _ => 0) s a) (B : s.Counted l) :
    walkTealets s s.nextTealet mainId (0, 0) =
      .ok (s.naiveBytes % wordMod, s.expandedBytes % wordMod) := by
  obtain ⟨own, H⟩ := I.rep
  have hwalk := walkTealets_spec (s := s) (f := s.heap.naiveSize) (g := s.heap.expandedSize)
    B.loop.arc (List.nodup_cons.mp B.loop.nodup).1 (fun u hu => by
      obtain ⟨r, hr⟩ := Option.isSome_iff_exists.mp ((B.alive u).mp hu)
      refine ⟨r, hr, fun k hk => ?_⟩
      obtain ⟨im, him, -⟩ := I.core.owned u r k hr hk
      exact stackFigures_spec H him (I.core.image k im him).far_le)
    (Nat.le_of_lt B.length_lt) 0 0
  rw [B.sum_weigh, B.sum_weigh, Nat.zero_add, Nat.zero_add, Nat.zero_mod] at hwalk
  exact hwalk

/-- The sizes themselves are ordered as they should be. -/
theorem Inv.sizes (I : Inv (fun _ => 0) s a) : s.heap.stackBytes ≤ s.expandedBytes ∧
    s.expandedBytes ≤ s.naiveBytes + chunkHeader * s.extraChunks ∧
    ((∀ k st, s.heap.stackAt k = some st → st.refcount = 1) →
      s.heap.stackBytes = s.expandedBytes) := by
  obtain ⟨own, H⟩ := I.rep
  refine ⟨?_, ?_, fun hone => ?_⟩
  · rw [H.stackBytes, I.expandedBytes H]
    refine Finset.sum_le_sum fun k _ => ?_
    cases him : a.img k with
    | none =>
        rw [H.expandedSize_none him]
        exact Nat.zero_le _
    | some im =>
        have hc := I.core.counted k im him
        have hpos := (I.core.image k im him).positive
        exact Nat.le_mul_of_pos_left _ (by omega)
  · rw [State.expandedBytes, State.naiveBytes, State.extraChunks, Finset.mul_sum,
      ← Finset.sum_add_distrib]
    refine Finset.sum_le_sum fun t _ => ?_
    simp only [State.weigh]
    cases hk : (s.tealets t).bind TealetSub.stack with
    | none => exact Nat.zero_le _
    | some k =>
        obtain ⟨r, hr, hrk⟩ := tealets_of_stackOf (v := s.view a) hk
        obtain ⟨im, him, -⟩ := I.core.owned t r k hr hrk
        have hok := I.core.image k im him
        simp only [Option.elim_some, H.ncard_holds]
        exact H.expanded_le him hok.extent hok.far_le
  · rw [H.stackBytes, I.expandedBytes H]
    refine Finset.sum_congr rfl fun k _ => ?_
    cases him : a.img k with
    | none => rw [H.expandedSize_none him, Nat.mul_zero]
    | some im =>
        obtain ⟨st, hst, hrep⟩ := H.stack k im him
        have hc := I.core.counted k im him
        have h1 := hone k st hst
        rw [hrep.refcount] at h1
        have hrefs : (s.view a).refs k = 1 := by omega
        rw [hrefs, Nat.one_mul]

/-- The report of a state, by its counters and the two sizes. -/
theorem State.Counted.report (B : s.Counted l) {naive expanded : Nat}
    (hwalk : walkTealets s s.nextTealet mainId (0, 0) = .ok (naive, expanded)) :
    ∃ p, getStats s = .ok p ∧ StatsCounted s l p ∧ p.stackBytes = s.heap.stackBytes ∧
      p.stackBytesNaive = naive ∧ p.stackBytesExpanded = expanded := by
  have L := B.ledger
  have halive : {t | Alive s t}.ncard = l.length + 1 := by
    have hset : {t | Alive s t} = ((mainId :: l).toFinset : Set Nat) := by
      ext t
      rw [List.coe_toFinset]
      exact (B.alive t).symm
    rw [hset, Set.ncard_coe_finset, List.toFinset_card_of_nodup B.loop.nodup, List.length_cons]
  have hstacks : s.heap.stackCount = {k | s.heap.stackAt k ≠ none}.ncard :=
    tally_one L.freshStack
  have hchunks : s.heap.chunkCount = {c | s.heap.chunkAt c ≠ none}.ncard :=
    tally_one L.freshChunk
  refine ⟨_, by rw [getStats, hwalk]; rfl, ⟨B.loop, B.alive, ?_, L.freshStack, L.freshChunk, ?_,
    ?_, L.stackBytes, ?_, ?_, L.bytesPeak, L.blocksPeak⟩, L.stackBytes, rfl, rfl⟩
  · rw [halive]
    exact B.gTealets
  · rw [← hstacks]
    exact L.stackCount
  · rw [← hstacks, ← hchunks]
    exact L.stackChunkCount
  · show s.heap.stats.bytesAllocated = _ + s.heap.stats.stackBytes
    rw [L.stackBytes]
    exact L.bytesAllocated
  · show s.heap.stats.blocksAllocated = s.env.gTealets + s.heap.stats.stackChunkCount
    rw [L.blocksAllocated, B.gTealets, L.stackChunkCount]

end Exact

/-- In every state the list and the counters are right, and the two sizes are
reported modulo `wordMod`; where they fit in a `size_t` the report is right. -/
theorem statistics_exact {mem : Memory} {env : Env} {s : State} (ha : env.Alone)
    (h : StatsRun NoPanic (initial mem env) s) :
    ∃ l p, getStats s = .ok p ∧ StatsCounted s l p ∧
      p.stackBytesNaive = s.naiveBytes % wordMod ∧
      p.stackBytesExpanded = s.expandedBytes % wordMod ∧
      (s.naiveBytes < wordMod → s.expandedBytes < wordMod → StatsExact s l p) := by
  obtain ⟨⟨a, I⟩, l, B⟩ := h.inv ha
  obtain ⟨hexp, hnaive, hshare⟩ := I.sizes
  obtain ⟨p, hp, hcounted, hbytes, hpn, hpe⟩ := B.report (I.walk B)
  refine ⟨l, p, hp, hcounted, hpn, hpe, fun hn hx => ?_⟩
  rw [Nat.mod_eq_of_lt hn] at hpn
  rw [Nat.mod_eq_of_lt hx] at hpe
  refine ⟨hcounted, ?_, ?_, fun hone => ?_⟩
  · rw [hbytes, hpe]
    exact hexp
  · rw [hpn, hpe]
    exact hnaive
  · rw [hbytes, hpe]
    exact hshare hone

/-- A tealet that was duplicated shares its stack with its copy. -/
theorem statistics_exact_duplicate : ∃ s, StatsRun NoPanic (initial (fun _ => 0) {}) s ∧
    s.naiveBytes < wordMod ∧ s.expandedBytes < wordMod ∧ ∃ l p, getStats s = .ok p ∧
    p.stackBytes = 188 ∧ p.stackBytesExpanded = 376 ∧ StatsExact s l p := by
  obtain ⟨s, hrun, hs⟩ := exists_run_of_trace (P := NoPanic)
    (p := fun s e => e.legal s && e.panicFree s)
    (fun s e h => by
      obtain ⟨h₁, h₂⟩ := Bool.and_eq_true_iff.mp h
      exact ⟨Event.legal_spec h₁, Event.panicFree_spec h₂⟩)
    [.call .new [] [], .call (.run 1 7 none null true ⟨1000, 990⟩) [] [],
      .call (.switch 0 none {} 900) [] [], .call (.duplicate 1) [] []]
    (s := initial (fun _ => 0) {})
    (fun s => decide (s.naiveBytes < wordMod) && decide (s.expandedBytes < wordMod) &&
      decide ((getStats s).toOption.map (fun p => (p.stackBytes, p.stackBytesExpanded)) =
        some (188, 376))) (by decide +kernel)
  simp only [Bool.and_eq_true, decide_eq_true_eq] at hs
  obtain ⟨⟨hn, hx⟩, hp⟩ := hs
  obtain ⟨l, p, hstats, -, -, -, hexact⟩ := statistics_exact ⟨rfl, rfl, rfl⟩ hrun.statsRun
  rw [hstats] at hp
  obtain ⟨hbytes, hexp⟩ := Prod.mk.inj (Option.some.inj hp)
  exact ⟨s, hrun.statsRun, hn, hx, l, p, hstats, hbytes, hexp, hexact hn hx⟩

/-- Two captures span more than `size_t` counts: nothing is shared, no stack
has an extra chunk, and the naive size is reported below the expanded one. -/
theorem statistics_wrapped : ∃ s, StatsRun NoPanic (initial (fun _ => 0) {}) s ∧
    (getStats s).toOption.map (fun p => (p.stackBytes, p.stackBytesExpanded, p.stackBytesNaive)) =
      some (374, 374, 74) ∧ s.extraChunks = 0 ∧
    ¬ ∃ l p, getStats s = .ok p ∧ StatsExact s l p := by
  obtain ⟨s, hrun, hs⟩ := exists_run_of_trace (P := NoPanic)
    (p := fun s e => e.legal s && e.panicFree s)
    (fun s e h => by
      obtain ⟨h₁, h₂⟩ := Bool.and_eq_true_iff.mp h
      exact ⟨Event.legal_spec h₁, Event.panicFree_spec h₂⟩)
    [.call (.configure { maxStackSize := 0 }) [] [],
      .call .new [] [], .call (.run 1 7 none null true ⟨1000, 990⟩) [] [],
      .call .new [] [], .call (.run 2 7 none (2 ^ 63 + 800) false ⟨960, 950⟩) [] [],
      .call .new [] [], .call (.run 3 7 none (2 ^ 63 + 900) false ⟨960, 950⟩) [] []]
    (s := initial (fun _ => 0) {})
    (fun s => decide ((getStats s).toOption.map
        (fun p => (p.stackBytes, p.stackBytesExpanded, p.stackBytesNaive)) =
          some (374, 374, 74)) &&
      decide (s.heap.nextStack = 3) &&
      (List.range 3).all fun k => decide ((s.heap.stackAt k).map (·.chunk.next) = some none))
    (by decide +kernel)
  simp only [Bool.and_eq_true, decide_eq_true_eq] at hs
  obtain ⟨⟨hp, hn⟩, hk⟩ := hs
  obtain ⟨-, l, B⟩ := hrun.statsRun.inv ⟨rfl, rfl, rfl⟩
  have hextra : s.extraChunks = 0 := State.extraChunks_zero fun k st hst => by
    have hlt : k < 3 := by
      by_contra hge
      have hfresh := B.ledger.freshStack k (hn.trans_le (Nat.le_of_not_lt hge))
      rw [hst] at hfresh
      cases hfresh
    have hnext := of_decide_eq_true (List.all_eq_true.mp hk k (List.mem_range.mpr hlt))
    rw [hst] at hnext
    exact Option.some.inj hnext
  refine ⟨s, hrun.statsRun, hp, hextra, ?_⟩
  rintro ⟨l, p, hstats, hexact⟩
  rw [hstats] at hp
  obtain ⟨-, hsizes⟩ := Prod.mk.inj (Option.some.inj hp)
  obtain ⟨hexp, hnaive⟩ := Prod.mk.inj hsizes
  have hle := hexact.naive
  rw [hextra, hexp, hnaive] at hle
  omega

end Tealet
