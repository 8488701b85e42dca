import Tealet.Refine
import Tealet.Spend

/-!
# Saved stacks, read off the heap

What a saved stack holds, whether it is saved up to its boundary and
whether it is in `g_prev`, as the fields in the heap say it, and that this
is what the images and the list say.
-/

namespace Tealet

open DList Slice

/-- The bytes of the chunks from `c` on. -/
def chunkBytes (h : Heap) : Nat → Option ChunkId → List Byte
  | _, none => []
  | 0, some _ => []
  | fuel + 1, some c =>
      match h.chunkAt c with
      | none => []
      | some ck => ck.data ++ chunkBytes h fuel ck.next

namespace Heap

/-- The first `saved` bytes of the chunks of a stack. -/
def savedBytes (h : Heap) (k : StackId) : Option (List Byte) :=
  (h.stackAt k).map fun st =>
    (st.chunk.data ++ chunkBytes h h.nextChunk st.chunk.next).take st.saved

/-- The stack `k` is not saved up to its `stack_far`. -/
def Partial (h : Heap) (k : StackId) : Prop :=
  ∃ st, h.stackAt k = some st ∧ st.chunk.stackNear + st.saved < st.stackFar

/-- The stack `k` is in `g_prev`. -/
def Linked (h : Heap) (k : StackId) : Prop := ∃ l, h.links.Rep l ∧ k ∈ l

/-- Whether the stack `k` has to grow for a tealet with the boundary `F`. -/
def uncovered (h : Heap) (F : Nat) (k : StackId) : Bool :=
  match h.stackAt k with
  | some st => decide (st.chunk.stackNear + st.saved < min st.stackFar F)
  | none => false

end Heap

theorem chunkBytes_congr {h h' : Heap} (hc : h'.chunkAt = h.chunkAt) (fuel : Nat)
    (o : Option ChunkId) : chunkBytes h' fuel o = chunkBytes h fuel o := by
  induction fuel generalizing o with
  | zero => cases o <;> rfl
  | succ fuel ih =>
      cases o with
      | none => rfl
      | some c =>
          rw [chunkBytes, chunkBytes, hc]
          cases h.chunkAt c with
          | none => rfl
          | some ck => exact congrArg (ck.data ++ ·) (ih ck.next)

theorem Heap.savedBytes_allocs (h : Heap) (al : List Bool) (k : StackId) :
    Heap.savedBytes { h with allocs := al } k = h.savedBytes k := by
  have hb := @chunkBytes_congr h { h with allocs := al } rfl h.nextChunk
  unfold Heap.savedBytes
  simp only [hb]

section Read

variable {h : Heap} {a : Saved} {own : StackId → List ChunkId} {k : StackId}

theorem Chain.bytes {cur : Option ChunkId} {near : Nat} {cs : List ChunkId} {ds : List (List Byte)}
    (hc : Chain h.chunkAt cur near cs ds) {fuel : Nat} (hf : cs.length ≤ fuel) :
    chunkBytes h fuel cur = ds.flatten := by
  induction cs generalizing cur near ds fuel with
  | nil =>
      obtain ⟨rfl, rfl⟩ := hc
      cases fuel <;> rfl
  | cons c cs ih =>
      obtain ⟨ck, d, ds', rfl, rfl, hck, -, -, rfl, hrest⟩ := hc
      obtain ⟨fuel, rfl⟩ := Nat.exists_eq_add_one_of_ne_zero (Nat.ne_of_gt (Nat.lt_of_lt_of_le
        (Nat.succ_pos _) hf))
      rw [chunkBytes, hck, List.flatten_cons]
      exact congrArg (ck.data ++ ·) (ih hrest (Nat.le_of_succ_le_succ hf))

theorem HeapRep.savedBytes (H : HeapRep h a own) (k : StackId) :
    h.savedBytes k = (a.img k).map fun im => im.data.take im.saved := by
  cases him : a.img k with
  | none => rw [Heap.savedBytes, (H.gone k him).1]; rfl
  | some im =>
      obtain ⟨st, hst, hrep⟩ := H.stack k im him
      rw [Heap.savedBytes, hst, Option.map_some, Option.map_some, hrep.chain.bytes (H.own_length k),
        hrep.first, hrep.saved]
      rfl

theorem HeapRep.partial_iff (H : HeapRep h a own) :
    h.Partial k ↔ ∃ im, a.img k = some im ∧ im.top < im.far := by
  constructor
  · rintro ⟨st, hst, hlt⟩
    obtain ⟨im, him, hrep⟩ := H.stackAt_isSome hst
    rw [hrep.near, hrep.saved, hrep.far] at hlt
    exact ⟨im, him, hlt⟩
  · rintro ⟨im, him, hlt⟩
    obtain ⟨st, hst, hrep⟩ := H.stack k im him
    refine ⟨st, hst, ?_⟩
    rw [hrep.near, hrep.saved, hrep.far]
    exact hlt

theorem HeapRep.linked_iff (H : HeapRep h a own) : h.Linked k ↔ k ∈ a.prev := by
  constructor
  · rintro ⟨l, hl, hk⟩
    exact H.list.mem_iff.mpr (hl.mem_iff.mp hk)
  · exact fun hk => ⟨a.prev, H.list, hk⟩

theorem HeapRep.uncovered_eq (H : HeapRep h a own) (F : Nat) :
    h.uncovered F = Tealet.uncovered a.img F := by
  funext k
  unfold Heap.uncovered Tealet.uncovered
  cases him : a.img k with
  | none => simp only [(H.gone k him).1]
  | some im =>
      obtain ⟨st, hst, hrep⟩ := H.stack k im him
      simp only [hst, hrep.near, hrep.saved, hrep.far]
      rw [← decide_not]
      exact decide_eq_decide.mpr Nat.not_le.symm

end Read

end Tealet
