import Mathlib.Algebra.Group.Int.Defs
import Mathlib.Algebra.Ring.Nat
import Mathlib.Logic.Relation
import Tealet.Refine

/-!
# Chunk chains

One saved stack, from `tealet_stack_saveto` on, in any heap: it is grown
any number of times, to limits in any order, and in between user code
writes nearer than what is saved. The chunks hold the bytes of the first
save: what a growth reads was not saved before, and only what is saved was
written over (`Chunked.step`). So restoring gives the first slice back
(`chunks_faithful`).

The sizes are differences of pointers, computed as `ptrdiff_t`.
`stackSavetoSigned` and `stackGrowtoSigned` compute them so, and agree with
the truncated differences of `Stack` wherever C defines the difference.
-/

namespace Tealet

open Slice Relation

/-! ## Signed sizes -/

/-- `STACKMAN_SP_DIFF(a, b)`, a `ptrdiff_t`. -/
def spDiff (a b : Nat) : Int := ((a : Int) - b).bmod (2 ^ 64)

/-- `tealet_stack_saveto`, as it computes the size. -/
def stackSavetoSigned (h : Heap) (m : Memory) (k : Frame) (stackNear stackFar saveto : Nat) :
    Res (Heap × Option StackId × Bool) := do
  let full := decide (stackFar ≤ saveto)
  let saveto := if full then stackFar else saveto
  require .stackSaveto (saveto ≠ spFurthest)
  let size := spDiff saveto stackNear
  let size := if size < 0 then 0 else size
  let (h, s) := stackNew h m k stackNear stackFar size.toNat
  return (h, s, full)

/-- `tealet_stack_growto`, as it computes the size; `tealet_stack_grow`
takes it as a `size_t`. -/
def stackGrowtoSigned (h : Heap) (m : Memory) (mainStack : Option StackId) (stack : StackId)
    (saveto : Nat) (failOk : Bool) : Res (Heap × Grown) := do
  let st ← h.stack stack
  let saved := (st.saved : Int).bmod (2 ^ 64)
  require .stackGrowto (st.stackFar = spFurthest ∨ saved < spDiff st.stackFar st.chunk.stackNear)
  let full := decide (st.stackFar ≤ saveto)
  let saveto := if full then st.stackFar else saveto
  require .stackGrowto (saveto ≠ spFurthest)
  let size := spDiff saveto st.chunk.stackNear
  if size ≤ saved then
    return (h, ⟨false, full⟩)
  else
    let (h, ok) ← stackGrow h m stack (size % 2 ^ 64).toNat
    if ok then
      return (h, ⟨false, full⟩)
    else if failOk then
      return (h, ⟨true, full⟩)
    else if mainStack = some stack then
      return (h, ⟨true, full⟩)
    else
      let h ← stackDefunct h stack
      return (h, ⟨false, true⟩)

/-- The difference of the two addresses is a `ptrdiff_t`. -/
def Representable (a b : Nat) : Prop := a < b + 2 ^ 63 ∧ b ≤ a + 2 ^ 63

theorem spDiff_of_representable {a b : Nat} (hab : Representable a b) : spDiff a b = a - b := by
  rw [Representable] at hab
  exact Int.bmod_eq_of_le (by omega) (by omega)

theorem stackSavetoSigned_eq {h : Heap} {m : Memory} {k : Frame} {near far saveto : Nat}
    (hrep : Representable (min far saveto) near) :
    stackSavetoSigned h m k near far saveto = stackSaveto h m k near far saveto := by
  have hsize : (if spDiff (min far saveto) near < 0 then 0
      else spDiff (min far saveto) near).toNat = min far saveto - near := by
    rw [spDiff_of_representable hrep]
    split <;> omega
  have hite : (if decide (far ≤ saveto) = true then far else saveto) = min far saveto := by
    simp [Nat.min_def]
  simp only [stackSavetoSigned, stackSaveto, hite, hsize]

theorem stackGrowtoSigned_eq {h : Heap} {m : Memory} {main : Option StackId} {id : StackId}
    {st : Stack} {saveto : Nat} {failOk : Bool} (hst : h.stackAt id = some st)
    (hsaved : st.saved < 2 ^ 63)
    (hfar : st.stackFar = spFurthest ∨ Representable st.stackFar st.chunk.stackNear)
    (hrep : Representable (min st.stackFar saveto) st.chunk.stackNear) :
    stackGrowtoSigned h m main id saveto failOk = stackGrowto h m main id saveto failOk := by
  have hcast : (st.saved : Int).bmod (2 ^ 64) = st.saved :=
    Int.bmod_eq_of_le (by omega) (by omega)
  have hassert : (st.stackFar = spFurthest ∨
      (st.saved : Int) < spDiff st.stackFar st.chunk.stackNear) ↔
      (st.stackFar = spFurthest ∨ st.saved < st.stackFar - st.chunk.stackNear) := by
    rcases hfar with hfar | hfar
    · simp [hfar]
    · rw [spDiff_of_representable hfar]
      exact or_congr_right (by omega)
  have hite : (if decide (st.stackFar ≤ saveto) = true then st.stackFar else saveto) =
      min st.stackFar saveto := by
    simp [Nat.min_def]
  have hle : spDiff (min st.stackFar saveto) st.chunk.stackNear ≤ st.saved ↔
      min st.stackFar saveto - st.chunk.stackNear ≤ st.saved := by
    rw [spDiff_of_representable hrep]
    omega
  simp only [stackGrowtoSigned, stackGrowto, Heap.stack, hst, bind, Except.bind, hcast, hite, hle,
    hassert]
  by_cases hneed : min st.stackFar saveto - st.chunk.stackNear ≤ st.saved
  · simp only [if_pos hneed]
  · have hsize : (spDiff (min st.stackFar saveto) st.chunk.stackNear % 2 ^ 64).toNat =
        min st.stackFar saveto - st.chunk.stackNear := by
      rw [spDiff_of_representable hrep]
      rw [Representable] at hrep
      omega
    simp only [if_neg hneed, hsize]

/-! ## The chain of a stack -/

/-- The chunks from `ck` on, in the order of `tealet_stack_restore`. -/
def Heap.chunksFrom (h : Heap) : Nat → Chunk → List Chunk
  | 0, ck => [ck]
  | fuel + 1, ck =>
      match ck.next with
      | none => [ck]
      | some c =>
          match h.chunkAt c with
          | none => [ck]
          | some next => ck :: h.chunksFrom fuel next

def Heap.chunks (h : Heap) (st : Stack) : List Chunk := h.chunksFrom h.nextChunk st.chunk

/-- `*stack->last`. -/
def Heap.lastChunk (h : Heap) (st : Stack) : Option Chunk :=
  match st.last with
  | none => some st.chunk
  | some c => h.chunkAt c

/-- Each chunk begins where the one before ends, the first at `near`. -/
def Contiguous : Nat → List Chunk → Prop
  | _, [] => True
  | near, ck :: cks => ck.stackNear = near ∧ Contiguous (near + ck.data.length) cks

section Chain

variable {h : Heap} {cs : List ChunkId} {ds : List (List Byte)} {ck : Chunk} {fuel : Nat}

theorem chunksFrom_contiguous (hc : Chain h.chunkAt ck.next (ck.stackNear + ck.data.length) cs ds)
    (hfuel : cs.length ≤ fuel) : Contiguous ck.stackNear (h.chunksFrom fuel ck) ∧
      (h.chunksFrom fuel ck).map Chunk.data = ck.data :: ds := by
  induction cs generalizing fuel ck ds with
  | nil =>
      obtain ⟨hnext, rfl⟩ := hc
      cases fuel <;> simp [Heap.chunksFrom, hnext, Contiguous]
  | cons c cs ih =>
      obtain ⟨next, d, ds', rfl, hnext, hck, -, hnear, rfl, hrest⟩ := hc
      obtain ⟨fuel, rfl⟩ : ∃ n, fuel = n + 1 := ⟨fuel - 1, by simp at hfuel; omega⟩
      rw [← hnear] at hrest
      obtain ⟨hcont, hdata⟩ := ih hrest (by simpa using hfuel)
      simp only [Heap.chunksFrom, hnext, hck]
      refine ⟨⟨rfl, hnear ▸ hcont⟩, ?_⟩
      rw [List.map_cons, hdata]

theorem chunksFrom_last (hc : Chain h.chunkAt ck.next (ck.stackNear + ck.data.length) cs ds)
    (hfuel : cs.length ≤ fuel) : ∃ last, (h.chunksFrom fuel ck).getLast? = some last ∧
      last.next = none ∧ (cs.getLast?.elim (some ck) h.chunkAt) = some last := by
  induction cs generalizing fuel ck ds with
  | nil =>
      obtain ⟨hnext, -⟩ := hc
      refine ⟨ck, ?_, hnext, rfl⟩
      cases fuel <;> simp [Heap.chunksFrom, hnext]
  | cons c cs ih =>
      obtain ⟨next, d, ds', rfl, hnext, hck, -, hnear, rfl, hrest⟩ := hc
      obtain ⟨fuel, rfl⟩ : ∃ n, fuel = n + 1 := ⟨fuel - 1, by simp at hfuel; omega⟩
      rw [← hnear] at hrest
      obtain ⟨last, hlast, hnone, hat⟩ := ih hrest (by simpa using hfuel)
      refine ⟨last, ?_, hnone, ?_⟩
      · simp only [Heap.chunksFrom, hnext, hck]
        rw [List.getLast?_cons, hlast]
        rfl
      · rw [List.getLast?_cons, ← hat]
        cases cs.getLast? with
        | none => exact hck
        | some l => rfl

end Chain

/-! ## Growing one stack -/

/-- `stackAt id` stands for the slice `[near, far)` of `m₀`, as far as it is
saved; beyond that `m` is still `m₀`. -/
structure Chunked (m₀ : Memory) (near far : Nat) (id : StackId) (h : Heap) (m : Memory) (st : Stack)
    (im : Image) (cs : List ChunkId) : Prop where
  stackAt : h.stackAt id = some st
  rep : StackRep h.chunkAt st im cs
  nodup : cs.Nodup
  known : ∀ c ∈ cs, c < h.nextChunk
  usable : im.defunct = false
  imNear : im.near = near
  imFar : im.far = far
  top : im.top ≤ far
  value : im.value m₀ = m₀
  beyond : ∀ x, im.top ≤ x → m x = m₀ x

namespace Chunked

variable {m₀ m m' : Memory} {near far F : Nat} {id : StackId} {h h' : Heap} {st : Stack}
  {im : Image} {cs : List ChunkId} {main : Option StackId} {failOk : Bool} {g : Grown}

theorem saved (C : Chunked m₀ near far id h m st im cs) : im.top = near + st.saved := by
  rw [Image.top, C.imNear, C.rep.saved]

theorem length (C : Chunked m₀ near far id h m st im cs) : cs.length ≤ h.nextChunk := by
  have hsub : cs ⊆ List.range h.nextChunk := fun c hc => List.mem_range.mpr (C.known c hc)
  simpa using (List.subperm_of_subset C.nodup hsub).length_le

/-- User code writes nearer than what is saved. -/
theorem write (C : Chunked m₀ near far id h m st im cs)
    (hm : ∀ x, near + st.saved ≤ x → m' x = m x) : Chunked m₀ near far id h m' st im cs := by
  refine { C with beyond := fun x hx => ?_ }
  rw [hm x (C.saved ▸ hx)]
  exact C.beyond x hx

theorem withAllocs (C : Chunked m₀ near far id h m st im cs) (allocs : List Bool) :
    Chunked m₀ near far id { h with allocs := allocs } m st im cs :=
  ⟨C.stackAt, C.rep, C.nodup, C.known, C.usable, C.imNear, C.imFar, C.top, C.value, C.beyond⟩

/-- Reading the next bytes of `m` is reading those of `m₀`. -/
theorem extend_value (C : Chunked m₀ near far id h m st im cs) :
    (im.extend m F).value m₀ = m₀ := by
  have hread : im.extend m F = im.extend m₀ F := by
    unfold Image.extend
    rw [readSlice_congr fun x hx _ => C.beyond x hx]
  rw [hread, Image.value_extend C.usable]
  exact C.value

/-- What `tealet_stack_growto` returns. -/
structure GrownTo (m₀ : Memory) (near far : Nat) (id : StackId) (h : Heap) (m : Memory) (st : Stack)
    (h' : Heap) (g : Grown) : Prop where
  chunked : ∃ st' im' cs', Chunked m₀ near far id h' m st' im' cs' ∧ st.saved ≤ st'.saved ∧
    (g.failed = false → (g.full = true ↔ near + st'.saved = far))
  kept : g.failed = true → h'.stackAt = h.stackAt ∧ h'.chunkAt = h.chunkAt ∧
    h'.nextChunk = h.nextChunk

theorem growto (main : Option StackId) (C : Chunked m₀ near far id h m st im cs)
    (hpart : near + st.saved < far)
    (hfin : min far F ≠ spFurthest) (hok : failOk = true ∨ (nextAlloc h.allocs).1 = true) :
    ∃ h' g, stackGrowto h m main id F failOk = .ok (h', g) ∧
      GrownTo m₀ near far id h m st h' g := by
  have hst := C.stackAt
  have hsaved := C.saved
  have htop : im.top = im.near + im.data.length := Image.top_of_not_defunct C.usable
  have hassert : far = spFurthest ∨ st.saved < far - near := .inr (by omega)
  have hsize : im.near = near := C.imNear
  simp only [stackGrowto, Heap.stack, hst, bind, Except.bind, C.rep.far, C.rep.near,
    C.imNear, C.imFar, require_of hassert, min_eq_ite, require_of hfin]
  have hfull : ∀ {top : Nat}, im.top ≤ top → top = max im.top (min far F) →
      (decide (far ≤ F) = true ↔ top = far) := by
    intro top hle heq
    rw [decide_eq_true_eq]
    omega
  by_cases hcov : im.Covers F
  · -- nothing to save
    have hle : min far F - near ≤ st.saved := by
      rw [Image.Covers, C.imFar] at hcov
      omega
    rw [if_pos hle]
    refine ⟨h, _, rfl, ⟨st, im, cs, C, Nat.le_refl _, fun _ => ?_⟩, fun h => by cases h⟩
    rw [← hsaved]
    refine hfull (Nat.le_refl _) ?_
    rw [Image.Covers, C.imFar] at hcov
    omega
  · have hle : ¬ min far F - near ≤ st.saved := by
      rw [Image.Covers, C.imFar] at hcov
      omega
    have hlt : st.saved < min far F - near := Nat.lt_of_not_le hle
    have hnew : h.nextChunk ∉ cs := fun hc => Nat.lt_irrefl _ (C.known _ hc)
    rw [if_neg hle]
    cases hal : (nextAlloc h.allocs).1 with
    | false =>
        have hfail : failOk = true := hok.resolve_right (by simp [hal])
        rw [stackGrow_none hst hlt hal, hfail]
        refine ⟨_, ⟨true, _⟩, rfl, ⟨st, im, cs, C.withAllocs _, Nat.le_refl _, fun h => by cases h⟩,
          fun _ => ?_⟩
        exact ⟨rfl, rfl, rfl⟩
    | true =>
        obtain ⟨h', st', heq, hstackAt, -, -, hrep, -, -, -, hnc, -⟩ :=
          stackGrow_some (m := m) hst C.rep C.usable hcov C.nodup hnew hal
        rw [C.imFar, C.imNear] at heq
        rw [heq]
        have htop' : (im.extend m F).top = max im.top (min far F) := by
          rw [Image.extend_top C.usable, C.imFar]
        have C' : Chunked m₀ near far id h' m st' (im.extend m F) (cs ++ [h.nextChunk]) := by
          refine ⟨?_, hrep, ?_, ?_, C.usable, C.imNear, C.imFar, ?_, C.extend_value, fun x hx => ?_⟩
          · rw [hstackAt]
            exact Function.update_self ..
          · refine List.nodup_append.mpr ⟨C.nodup, by simp, ?_⟩
            rintro c hc c' hc' rfl
            rw [List.mem_singleton.mp hc'] at hc
            exact hnew hc
          · intro c hc
            rw [hnc]
            rcases List.mem_append.mp hc with hc | hc
            · exact Nat.lt_succ_of_lt (C.known c hc)
            · rw [List.mem_singleton.mp hc]
              exact Nat.lt_succ_self _
          · rw [htop']
            exact Nat.max_le.mpr ⟨C.top, Nat.min_le_left _ _⟩
          · exact C.beyond x ((Nat.le_max_left _ _).trans (htop' ▸ hx))
        have hsaved' := C'.saved
        refine ⟨h', _, rfl, ⟨st', _, _, C', by omega, fun _ => ?_⟩, fun h => by cases h⟩
        rw [← hsaved']
        exact hfull (htop' ▸ Nat.le_max_left _ _) htop'

/-- The stack `tealet_stack_saveto` makes. -/
theorem saveto {h : Heap} (m₀ : Memory) (k : Frame) {near far : Nat} (F : Nat) (hnear : near ≤ far)
    (hal : (nextAlloc h.allocs).1 = true) :
    ∃ st, Chunked m₀ near far h.nextStack (stackNew h m₀ k near far (min far F - near)).1 m₀ st
      (.capture m₀ near far F k) [] := by
  rw [stackNew, Heap.malloc_eq, hal]
  refine ⟨_, Function.update_self .., ?_, List.nodup_nil, ?_, rfl, rfl, rfl, ?_, ?_,
    fun _ _ => rfl⟩
  · refine ⟨rfl, rfl, rfl, ?_, rfl, rfl, rfl, rfl, rfl, rfl⟩
    simp [Image.saved, Image.data, Image.capture]
  · exact fun _ hc => absurd hc List.not_mem_nil
  · simp only [Image.top, Image.saved, Image.data, Image.capture, List.flatten_nil,
      List.append_nil, readSlice_length, Bool.false_eq_true, if_false]
    omega
  · simp only [Image.value, Image.data, Image.capture, List.flatten_nil, List.append_nil]
    exact writeSlice_readSlice m₀ near _

/-- Restoring gives the slice of `m₀` back, as far as it is saved. -/
theorem restore (C : Chunked m₀ near far id h m st im cs) (m' : Memory) :
    stackRestore h m' id =
      .ok fun x => if near ≤ x ∧ x < near + st.saved then m₀ x else m' x := by
  have hchain := C.rep.chain
  have hlen : st.saved = im.data.length := by rw [C.rep.saved, Image.saved_of_not_defunct C.usable]
  rw [← C.rep.near, ← C.rep.first] at hchain
  simp only [stackRestore, Heap.stack, C.stackAt, bind, Except.bind]
  rw [restoreChunks_spec hchain C.length, C.rep.near, C.imNear, C.rep.first]
  congr 1
  funext x
  have hval := congrFun C.value x
  rw [Image.value, C.imNear] at hval
  by_cases hlo : x < near
  · rw [writeSlice_lt hlo, if_neg (by omega)]
  · by_cases hhi : near + st.saved ≤ x
    · rw [writeSlice_ge (by rw [Image.data] at hlen; omega), if_neg (by omega)]
    · rw [if_pos (by omega), ← hval]
      obtain ⟨i, rfl⟩ := Nat.exists_eq_add_of_le (Nat.le_of_not_lt hlo)
      have hi : i < im.data.length := by omega
      exact (writeSlice_add hi).trans (writeSlice_add hi).symm

end Chunked

/-! ## Runs -/

/-- One step of a run on the stack `id`: user code writes nearer than what
is saved, or `tealet_stack_growto` is called while something is missing.
`allocs` is what the allocator will do in the call; where it fails,
`fail_ok` is set. -/
inductive GrowStep (main : Option StackId) (id : StackId) : Heap × Memory → Heap × Memory → Prop
  | write {h : Heap} {m m' : Memory} {st : Stack} (hst : h.stackAt id = some st)
      (hm : ∀ x, st.chunk.stackNear + st.saved ≤ x → m' x = m x) :
      GrowStep main id (h, m) (h, m')
  | growto {h h' : Heap} {m : Memory} {st : Stack} {saveto : Nat} {allocs : List Bool}
      {failOk : Bool} {g : Grown} (hst : h.stackAt id = some st)
      (hpart : st.chunk.stackNear + st.saved < st.stackFar)
      (hfin : min st.stackFar saveto ≠ spFurthest)
      (hok : failOk = true ∨ (nextAlloc allocs).1 = true)
      (heq : stackGrowto { h with allocs := allocs } m main id saveto failOk = .ok (h', g)) :
      GrowStep main id (h, m) (h', m)

section Runs

variable {m₀ m : Memory} {near far : Nat} {id : StackId} {h : Heap} {st : Stack} {im : Image}
  {cs : List ChunkId} {main : Option StackId}

theorem Chunked.step {s : Heap × Memory} (C : Chunked m₀ near far id h m st im cs)
    (hs : GrowStep main id (h, m) s) :
    ∃ st' im' cs', Chunked m₀ near far id s.1 s.2 st' im' cs' := by
  cases hs with
  | write hst hm =>
      cases C.stackAt.symm.trans hst
      rw [C.rep.near, C.imNear] at hm
      exact ⟨st, im, cs, C.write hm⟩
  | growto hst hpart hfin hok heq =>
      cases C.stackAt.symm.trans hst
      rw [C.rep.near, C.imNear, C.rep.far, C.imFar] at hpart
      rw [C.rep.far, C.imFar] at hfin
      obtain ⟨h', g, heq', G⟩ := (C.withAllocs _).growto main hpart hfin hok
      cases heq.symm.trans heq'
      obtain ⟨st', im', cs', C', -⟩ := G.chunked
      exact ⟨st', im', cs', C'⟩

/-- The run lemma: `Chunked.step` from one end of the run to the other. -/
theorem Chunked.run {s s' : Heap × Memory} (hrun : ReflTransGen (GrowStep main id) s s')
    (C : ∃ st im cs, Chunked m₀ near far id s.1 s.2 st im cs) :
    ∃ st im cs, Chunked m₀ near far id s'.1 s'.2 st im cs := by
  induction hrun with
  | refl => exact C
  | tail _ hs ih =>
      obtain ⟨st, im, cs, C⟩ := ih
      exact C.step hs

/-- The saved stack `id` is a faithful copy of the slice of `m₀` from `near` on. -/
structure Faithful (m₀ : Memory) (near far : Nat) (h : Heap) (id : StackId)
    (st : Stack) : Prop where
  contiguous : Contiguous near (h.chunks st)
  sizes : ((h.chunks st).map fun ck => ck.data.length).sum = st.saved
  last : ∃ ck, h.lastChunk st = some ck ∧ (h.chunks st).getLast? = some ck ∧ ck.next = none
  stackFar : st.stackFar = far
  bounded : near + st.saved ≤ far
  restore : ∀ m, stackRestore h m id =
    .ok fun x => if near ≤ x ∧ x < near + st.saved then m₀ x else m x

theorem Chunked.faithful (C : Chunked m₀ near far id h m st im cs) :
    Faithful m₀ near far h id st := by
  have hchain := C.rep.chain
  have hnear : st.chunk.stackNear = near := C.rep.near.trans C.imNear
  have hlen : st.saved = im.data.length := by rw [C.rep.saved, Image.saved_of_not_defunct C.usable]
  have htop := C.top
  rw [C.saved] at htop
  rw [← C.rep.near, ← C.rep.first] at hchain
  obtain ⟨hcont, hdata⟩ := chunksFrom_contiguous hchain C.length
  obtain ⟨last, hlast, hnone, hat⟩ := chunksFrom_last hchain C.length
  refine ⟨hnear ▸ hcont, ?_, ⟨last, ?_, hlast, hnone⟩, C.rep.far.trans C.imFar, htop, C.restore⟩
  · have hsum := congrArg (fun ds => (ds.map List.length).sum) hdata
    simp only [List.map_map, Function.comp_def, List.map_cons, List.sum_cons] at hsum
    rw [Heap.chunks, hsum, hlen, Image.data, List.length_append, List.length_flatten, C.rep.first]
  · rw [Heap.lastChunk, C.rep.last]
    cases hcs : cs.getLast? with
    | none => simpa [hcs] using hat
    | some c => simpa [hcs] using hat

/-- What `tealet_stack_growto` does in the state reached: it returns, and it
does so as with signed sizes. -/
structure Grows (near far : Nat) (main : Option StackId) (id : StackId) (h : Heap) (m : Memory)
    (st : Stack) (saveto : Nat) (failOk : Bool) : Prop where
  answer : ∃ h' g st', stackGrowto h m main id saveto failOk = .ok (h', g) ∧
    h'.stackAt id = some st' ∧ st.saved ≤ st'.saved ∧
    (g.failed = false → (g.full = true ↔ near + st'.saved = far)) ∧
    (g.failed = true → h'.stackAt = h.stackAt ∧ h'.chunkAt = h.chunkAt)
  signed : st.saved < 2 ^ 63 → (far = spFurthest ∨ Representable far near) →
    Representable (min far saveto) near →
    stackGrowtoSigned h m main id saveto failOk = stackGrowto h m main id saveto failOk

theorem Chunked.grows {saveto : Nat} {failOk : Bool} (C : Chunked m₀ near far id h m st im cs)
    (hpart : near + st.saved < far) (hfin : min far saveto ≠ spFurthest)
    (hok : failOk = true ∨ (nextAlloc h.allocs).1 = true) :
    Grows near far main id h m st saveto failOk := by
  refine ⟨?_, fun hsaved hfar hrep => ?_⟩
  · obtain ⟨h', g, heq, G⟩ := C.growto main hpart hfin hok
    obtain ⟨st', im', cs', C', hmono, hfull⟩ := G.chunked
    exact ⟨h', g, st', heq, C'.stackAt, hmono, hfull, fun hf => ⟨(G.kept hf).1, (G.kept hf).2.1⟩⟩
  · apply stackGrowtoSigned_eq C.stackAt hsaved
    · rw [C.rep.far, C.imFar, C.rep.near, C.imNear]
      exact hfar
    · rw [C.rep.far, C.imFar, C.rep.near, C.imNear]
      exact hrep

/-- The stack `tealet_stack_saveto` makes is faithful in every run, and
every growth of it answers as it should. -/
theorem chunks_faithful {near far saveto : Nat} (hnear : near ≤ far)
    (hfin : min far saveto ≠ spFurthest) (h : Heap) (m₀ : Memory) (k : Frame)
    (main : Option StackId) :
    (Representable (min far saveto) near →
      stackSavetoSigned h m₀ k near far saveto = stackSaveto h m₀ k near far saveto) ∧
    ∃ h₁ s full, stackSaveto h m₀ k near far saveto = .ok (h₁, s, full) ∧
      ∀ id, s = some id → ∀ h' m', ReflTransGen (GrowStep main id) (h₁, m₀) (h', m') →
        ∃ st, h'.stackAt id = some st ∧ Faithful m₀ near far h' id st ∧
          ∀ allocs limit failOk, near + st.saved < far → min far limit ≠ spFurthest →
            (failOk = true ∨ (nextAlloc allocs).1 = true) →
            Grows near far main id { h' with allocs := allocs } m' st limit failOk := by
  refine ⟨stackSavetoSigned_eq, _, _, _, stackSaveto_spec k hfin, ?_⟩
  intro id hs h' m' hrun
  have hal : (nextAlloc h.allocs).1 = true := by
    cases hal : (nextAlloc h.allocs).1 with
    | true => rfl
    | false =>
        rw [stackNew, Heap.malloc_eq, hal] at hs
        cases hs
  have hid : id = h.nextStack := by
    rw [stackNew, Heap.malloc_eq, hal] at hs
    exact (Option.some.inj hs).symm
  obtain ⟨st₁, C₁⟩ := Chunked.saveto m₀ k saveto hnear hal
  rw [← hid] at C₁
  obtain ⟨st, im, cs, C⟩ := Chunked.run hrun ⟨st₁, _, _, C₁⟩
  exact ⟨st, C.stackAt, C.faithful, fun allocs limit failOk => (C.withAllocs allocs).grows⟩

/-- Eight of sixteen bytes are saved, then overwritten; the first growth
past `far` cannot allocate. -/
theorem chunks_faithful_overwritten :
    ∃ h₁ st, stackSaveto {} (fun _ => 7) .api 4096 4112 4104 = .ok (h₁, some 0, false) ∧
      h₁.stackAt 0 = some st ∧ st.saved = 8 ∧ Faithful (fun _ => 7) 4096 4112 h₁ 0 st ∧
      Grows 4096 4112 none 0 { h₁ with allocs := [false] } (fun x => if x < 4104 then 9 else 7) st
        4200 true := by
  obtain ⟨-, h₁, s, full, heq, hruns⟩ :=
    @chunks_faithful 4096 4112 4104 (by decide) (by decide) {} (fun _ => 7) .api none
  cases heq
  obtain ⟨st, hst, hfaithful, hgrows⟩ := hruns 0 rfl _ (fun x => if x < 4104 then 9 else 7) <| by
    refine .single (.write rfl fun x hx => if_neg ?_)
    exact Nat.not_lt.mpr hx
  cases hst
  exact ⟨_, _, rfl, rfl, rfl, hfaithful,
    hgrows [false] 4200 true (by decide) (by decide) (.inl rfl)⟩

end Runs

end Tealet
