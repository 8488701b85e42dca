import Mathlib.Logic.Function.Basic
import Tealet.Base
import Tealet.Lib.DList

/-!
# Saved stacks

The "actual stack management routines" of `tealet.c`: the chunked copy of
a stack slice, its growth, and the list `g_prev` of stacks that are saved
only in part. Each function below is the source function of the same
name; `Heap` collects what they reach through `main`.
-/

namespace Tealet

open DList Slice

/-- `tealet_chunk_t`; `size` is the length of `data`. -/
structure Chunk where
  refcount : Nat
  next : Option ChunkId
  stackNear : Nat
  data : List Byte
deriving DecidableEq, Repr

/-- `tealet_stack_t`. `last = none` is the address of the initial chunk;
`frame` is the suspended call whose locals are in the saved bytes. -/
structure Stack where
  refcount : Nat
  prev : Option (Slot StackId)
  next : Option StackId
  defunct : Bool
  stackFar : Nat
  saved : Nat
  last : Option ChunkId
  chunk : Chunk
  frame : Frame
deriving DecidableEq, Repr

/-! ## Statistics -/

structure Stats where
  bytesAllocated : Nat := 0
  bytesAllocatedPeak : Nat := 0
  blocksAllocated : Nat := 0
  blocksAllocatedPeak : Nat := 0
  blocksAllocatedTotal : Nat := 0
  stackBytes : Nat := 0
  stackCount : Nat := 0
  stackChunkCount : Nat := 0
deriving DecidableEq, Repr

/-- `STATS_ADD_ALLOC`. -/
def Stats.addAlloc (st : Stats) (size : Nat) : Stats :=
  { st with
    bytesAllocated := st.bytesAllocated + size
    blocksAllocated := st.blocksAllocated + 1
    blocksAllocatedTotal := st.blocksAllocatedTotal + 1
    bytesAllocatedPeak := max st.bytesAllocatedPeak (st.bytesAllocated + size)
    blocksAllocatedPeak := max st.blocksAllocatedPeak (st.blocksAllocated + 1) }

/-- `STATS_SUB_ALLOC`. -/
def Stats.subAlloc (st : Stats) (size : Nat) : Stats :=
  { st with
    bytesAllocated := st.bytesAllocated - size
    blocksAllocated := st.blocksAllocated - 1 }

/-- `offsetof(tealet_stack_t, chunk.data[0])` with 8 byte pointers. -/
def stackHeader : Nat := 88

/-- `offsetof(tealet_chunk_t, data[0])` with 8 byte pointers. -/
def chunkHeader : Nat := 32

/-! ## The heap -/

structure Heap where
  stackAt : StackId → Option Stack := fun _ => none
  chunkAt : ChunkId → Option Chunk := fun _ => none
  nextStack : StackId := 0
  nextChunk : ChunkId := 0
  gPrev : Option StackId := none
  /-- What the next calls of the allocator will do; past its end they succeed. -/
  allocs : List Bool := []
  stats : Stats := {}

namespace Heap

def stack (h : Heap) (s : StackId) : Res Stack :=
  match h.stackAt s with
  | some st => .ok st
  | none => .error .freed

def chunk (h : Heap) (c : ChunkId) : Res Chunk :=
  match h.chunkAt c with
  | some ck => .ok ck
  | none => .error .freed

def setStack (h : Heap) (s : StackId) (st : Stack) : Heap :=
  { h with stackAt := Function.update h.stackAt s (some st) }

def setChunk (h : Heap) (c : ChunkId) (ck : Chunk) : Heap :=
  { h with chunkAt := Function.update h.chunkAt c (some ck) }

/-- The outcome of the next allocation, consumed. -/
def malloc (h : Heap) : Bool × Heap :=
  match h.allocs with
  | [] => (true, h)
  | ok :: rest => (ok, { h with allocs := rest })

/-- The field at an address of `g_prev`'s discipline: read it ... -/
def derefSlot (h : Heap) : Slot StackId → Res (Option StackId)
  | .head => .ok h.gPrev
  | .next p => do
      let st ← h.stack p
      return st.next

/-- ... and write it. -/
def assignSlot (h : Heap) (p : Slot StackId) (v : Option StackId) : Res Heap :=
  match p with
  | .head => .ok { h with gPrev := v }
  | .next p => do
      let st ← h.stack p
      return h.setStack p { st with next := v }

end Heap

/-! ## Copying, growing, restoring -/

/-- `tealet_stack_new`; `none` when the allocation fails. -/
def stackNew (h : Heap) (m : Memory) (k : Frame) (stackNear stackFar : Nat) (size : Nat) :
    Heap × Option StackId :=
  match h.malloc with
  | (false, h) => (h, none)
  | (true, h) =>
      let tsize := stackHeader + size
      let stats := h.stats.addAlloc tsize
      let st : Stack :=
        { refcount := 1, prev := none, next := none, defunct := false
          stackFar := stackFar, saved := size, last := none
          chunk := { refcount := 1, next := none, stackNear := stackNear
                     data := readSlice m stackNear size }
          frame := k }
      ({ h with
          stackAt := Function.update h.stackAt h.nextStack (some st)
          nextStack := h.nextStack + 1
          stats := { stats with
            stackCount := stats.stackCount + 1
            stackChunkCount := stats.stackChunkCount + 1
            stackBytes := stats.stackBytes + tsize } },
        some h.nextStack)

/-- `tealet_stack_grow`; `false` is `TEALET_ERR_MEM`. -/
def stackGrow (h : Heap) (m : Memory) (stack : StackId) (size : Nat) : Res (Heap × Bool) := do
  let st ← h.stack stack
  require .stackGrow (st.saved < size)
  let diff := size - st.saved
  match h.malloc with
  | (false, h) => return (h, false)
  | (true, h) =>
      let tsize := chunkHeader + diff
      let stats := h.stats.addAlloc tsize
      let stackNear := st.chunk.stackNear + st.saved
      let ck : Chunk :=
        { refcount := 1, next := none, stackNear := stackNear, data := readSlice m stackNear diff }
      let c := h.nextChunk
      let h : Heap :=
        { h with
          chunkAt := Function.update h.chunkAt c (some ck)
          nextChunk := c + 1
          stats := { stats with
            stackChunkCount := stats.stackChunkCount + 1
            stackBytes := stats.stackBytes + tsize } }
      -- stack->last->next = chunk
      match st.last with
      | none =>
          return (h.setStack stack
            { st with chunk := { st.chunk with next := some c }, last := some c, saved := size },
            true)
      | some l => do
          let lst ← h.chunk l
          let h := h.setChunk l { lst with next := some c }
          return (h.setStack stack { st with last := some c, saved := size }, true)

/-- The loop of `tealet_stack_restore`, from the chunk `ck` on. -/
def restoreChunks (h : Heap) : Nat → Chunk → Memory → Res Memory
  | fuel, ck, m =>
      let m := writeSlice m ck.stackNear ck.data
      match ck.next, fuel with
      | none, _ => .ok m
      | some _, 0 => .error .looping
      | some c, fuel + 1 => do
          let ck ← h.chunk c
          restoreChunks h fuel ck m

/-- `tealet_stack_restore`. -/
def stackRestore (h : Heap) (m : Memory) (stack : StackId) : Res Memory := do
  let st ← h.stack stack
  restoreChunks h h.nextChunk st.chunk m

/-- `tealet_stack_dup`. -/
def stackDup (h : Heap) (stack : StackId) : Res Heap := do
  let st ← h.stack stack
  return h.setStack stack { st with refcount := st.refcount + 1 }

/-! ## The list of partially saved stacks -/

/-- `tealet_stack_link(stack, &g_main->g_prev)`. -/
def stackLink (h : Heap) (stack : StackId) : Res Heap := do
  let st ← h.stack stack
  require .stackLink (st.prev = none)
  require .stackLink (h.gPrev ≠ some stack)
  let h ← match h.gPrev with
    | none => pure h
    | some hd => do
        let hst ← h.stack hd
        require .stackLink (hst.prev = some .head)
        pure (h.setStack hd { hst with prev := some (.next stack) })
  let h := h.setStack stack { st with next := h.gPrev, prev := some .head }
  return { h with gPrev := some stack }

/-- `tealet_stack_unlink`. -/
def stackUnlink (h : Heap) (stack : StackId) : Res Heap := do
  let st ← h.stack stack
  match st.prev with
  | none => .error (.assertion .stackUnlink)
  | some prev =>
      let cur ← h.derefSlot prev
      require .stackUnlink (cur = some stack)
      let h ← match st.next with
        | none => pure h
        | some next => do
            let nst ← h.stack next
            require .stackUnlink (nst.prev = some (.next stack))
            pure (h.setStack next { nst with prev := some prev })
      let h ← h.assignSlot prev st.next
      let st ← h.stack stack
      return h.setStack stack { st with prev := none }

/-! ## Releasing -/

/-- `tealet_chunk_decref`. -/
def chunkDecref : Nat → Heap → Option ChunkId → Res Heap
  | _, h, none => .ok h
  | 0, _, some _ => .error .looping
  | fuel + 1, h, some c => do
      let ck ← h.chunk c
      if 0 < ck.refcount - 1 then
        return h.setChunk c { ck with refcount := ck.refcount - 1 }
      else
        let tsize := chunkHeader + ck.data.length
        let stats := h.stats.subAlloc tsize
        chunkDecref fuel
          { h with
            chunkAt := Function.update h.chunkAt c none
            stats := { stats with
              stackChunkCount := stats.stackChunkCount - 1
              stackBytes := stats.stackBytes - tsize } }
          ck.next

/-- `tealet_stack_decref`. -/
def stackDecref (h : Heap) (stack : Option StackId) : Res Heap :=
  match stack with
  | none => .ok h
  | some s => do
      let st ← h.stack s
      if 0 < st.refcount - 1 then
        return h.setStack s { st with refcount := st.refcount - 1 }
      else
        let h := h.setStack s { st with refcount := st.refcount - 1 }
        let h ← if st.prev = none then pure h else stackUnlink h s
        let tsize := stackHeader + st.chunk.data.length
        let stats := h.stats.subAlloc tsize
        let h : Heap :=
          { h with
            stackAt := Function.update h.stackAt s none
            stats := { stats with
              stackCount := stats.stackCount - 1
              stackChunkCount := stats.stackChunkCount - 1
              stackBytes := stats.stackBytes - tsize } }
        chunkDecref h.nextChunk h st.chunk.next

/-- `tealet_stack_defunct`. -/
def stackDefunct (h : Heap) (stack : StackId) : Res Heap := do
  let st ← h.stack stack
  let h := h.setStack stack
    { st with chunk := { st.chunk with next := none }, last := none, defunct := true, saved := 0 }
  chunkDecref h.nextChunk h st.chunk.next

/-! ## Saving up to a boundary -/

/-- What `tealet_stack_growto` reports: its result and `*full`. -/
structure Grown where
  failed : Bool
  full : Bool
deriving DecidableEq, Repr

/-- `tealet_stack_saveto`: the stack, if it could be allocated, and `*full`.
The difference is a truncated one, which is the clamp of `size` at zero. -/
def stackSaveto (h : Heap) (m : Memory) (k : Frame) (stackNear stackFar saveto : Nat) :
    Res (Heap × Option StackId × Bool) := do
  let full := decide (stackFar ≤ saveto)
  let saveto := if full then stackFar else saveto
  require .stackSaveto (saveto ≠ spFurthest)
  let (h, s) := stackNew h m k stackNear stackFar (saveto - stackNear)
  return (h, s, full)

/-- `tealet_stack_growto`; `mainStack` is `((tealet_sub_t *)main)->stack`. -/
def stackGrowto (h : Heap) (m : Memory) (mainStack : Option StackId) (stack : StackId)
    (saveto : Nat) (failOk : Bool) : Res (Heap × Grown) := do
  let st ← h.stack stack
  require .stackGrowto (st.stackFar = spFurthest ∨ st.saved < st.stackFar - st.chunk.stackNear)
  let full := decide (st.stackFar ≤ saveto)
  let saveto := if full then st.stackFar else saveto
  require .stackGrowto (saveto ≠ spFurthest)
  let size := saveto - st.chunk.stackNear
  if size ≤ st.saved then
    return (h, ⟨false, full⟩)
  else
    let (h, ok) ← stackGrow h m stack size
    if ok then
      return (h, ⟨false, full⟩)
    else if failOk then
      return (h, ⟨true, full⟩)
    else if mainStack = some stack then
      -- main's stack is never made defunct
      return (h, ⟨true, full⟩)
    else
      let h ← stackDefunct h stack
      return (h, ⟨false, true⟩)

/-- `tealet_stack_grow_list`; the result says that the list could not be grown. -/
def stackGrowList (m : Memory) (mainStack : Option StackId) (saveto : Nat)
    (target : Option StackId) (failOk : Bool) :
    Nat → Heap → Option StackId → Res (Heap × Bool)
  | _, h, none => .ok (h, false)
  | 0, _, some _ => .error .looping
  | fuel + 1, h, some list =>
      if target = some list then do
        let st ← h.stack list
        if 1 < st.refcount then
          let (h, g) ← stackGrowto h m mainStack list saveto failOk
          if g.failed then
            return (h, true)
          else
            require .stackGrowList (failOk = true → g.full = true)
            let h ← stackUnlink h list
            return (h, false)
        else
          let h ← stackUnlink h list
          return (h, false)
      else do
        let (h, g) ← stackGrowto h m mainStack list saveto failOk
        if g.failed then
          return (h, true)
        else
          let h ← if g.full then stackUnlink h list else pure h
          let st ← h.stack list
          stackGrowList m mainStack saveto target failOk fuel h st.next

end Tealet
