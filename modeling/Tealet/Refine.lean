import Mathlib.Data.List.Perm.Subperm
import Mathlib.Data.List.Lattice
import Tealet.Lib.Hoare
import Tealet.Saved
import Tealet.Stack

/-!
# The heap represents the saved stacks

`HeapRep h a own` relates the heap of the code to the abstract `Saved`
model: every outstanding stack is the image of its identifier with its
bytes spread over the initial chunk and the chunks `own k`, no chunk
belongs to two stacks and none is left over, and the pointers of `g_prev`
spell out the list of partial images.

For every routine of `Stack` there is one specification: from a heap that
represents `a` it does not fault and ends in a heap that represents the
abstract result.
-/

namespace Tealet

open DList Slice Hoare

/-! ## Representation -/

/-- The chunks reached from a `next` field: `cs` with the bytes `ds`, the
first of them saved from address `near` on. -/
def Chain (chunkAt : ChunkId → Option Chunk) :
    Option ChunkId → Nat → List ChunkId → List (List Byte) → Prop
  | cur, _, [], ds => cur = none ∧ ds = []
  | cur, near, c :: cs, ds => ∃ ck d ds', ds = d :: ds' ∧ cur = some c ∧ chunkAt c = some ck ∧
      ck.refcount = 1 ∧ ck.stackNear = near ∧ ck.data = d ∧
      Chain chunkAt ck.next (near + d.length) cs ds'

structure StackRep (chunkAt : ChunkId → Option Chunk) (st : Stack) (im : Image)
    (cs : List ChunkId) : Prop where
  refcount : st.refcount = im.refcount
  defunct : st.defunct = im.defunct
  far : st.stackFar = im.far
  saved : st.saved = im.saved
  near : st.chunk.stackNear = im.near
  first : st.chunk.data = im.first
  frame : st.frame = im.frame
  last : st.last = cs.getLast?
  chain : Chain chunkAt st.chunk.next (im.near + im.first.length) cs im.rest

/-- The pointers of `g_prev`. -/
def Heap.links (h : Heap) : Links StackId where
  head := h.gPrev
  next k := (h.stackAt k).bind Stack.next
  prev k := (h.stackAt k).bind Stack.prev

structure HeapRep (h : Heap) (a : Saved) (own : StackId → List ChunkId) : Prop where
  stack : ∀ k im, a.img k = some im → ∃ st, h.stackAt k = some st ∧ StackRep h.chunkAt st im (own k)
  gone : ∀ k, a.img k = none → h.stackAt k = none ∧ own k = []
  list : h.links.Rep a.prev
  freshStack : ∀ k, h.nextStack ≤ k → h.stackAt k = none
  freshChunk : ∀ c, h.nextChunk ≤ c → h.chunkAt c = none
  nodup : ∀ k, (own k).Nodup
  disjoint : ∀ k k', k ≠ k' → (own k).Disjoint (own k')
  owned : ∀ c, h.chunkAt c ≠ none → ∃ k, c ∈ own k

/-! ## Chains -/

section Chain

variable {f g : ChunkId → Option Chunk} {cur : Option ChunkId} {near : Nat} {cs : List ChunkId}
  {ds : List (List Byte)}

theorem Chain.congr (h : Chain f cur near cs ds) (hfg : ∀ c ∈ cs, g c = f c) :
    Chain g cur near cs ds := by
  induction cs generalizing cur near ds with
  | nil => exact h
  | cons c cs ih =>
      obtain ⟨ck, d, ds', rfl, hcur, hck, href, hnear, hd, hrest⟩ := h
      refine ⟨ck, d, ds', rfl, hcur, ?_, href, hnear, hd, ?_⟩
      · rw [hfg c (by simp), hck]
      · exact ih hrest (fun c' hc' => hfg c' (List.mem_cons_of_mem _ hc'))

theorem Chain.alive (h : Chain f cur near cs ds) : ∀ c ∈ cs, f c ≠ none := by
  induction cs generalizing cur near ds with
  | nil => simp
  | cons c cs ih =>
      obtain ⟨ck, d, ds', rfl, hcur, hck, href, hnear, hd, hrest⟩ := h
      intro c' hc'
      rcases List.mem_cons.mp hc' with rfl | hc'
      · simp [hck]
      · exact ih hrest c' hc'

/-- A chunk added behind the last one. -/
theorem Chain.snoc {c l : ChunkId} {lst : Chunk} (new : Chunk) (h : Chain f cur near cs ds)
    (hnd : cs.Nodup) (hl : cs.getLast? = some l) (hlst : f l = some lst) (hc : c ∉ cs)
    (hnew : new.refcount = 1 ∧ new.next = none ∧ new.stackNear = near + ds.flatten.length)
    (hgl : g l = some { lst with next := some c }) (hgc : g c = some new)
    (hg : ∀ c' ∈ cs, c' ≠ l → g c' = f c') : Chain g cur near (cs ++ [c]) (ds ++ [new.data]) := by
  induction cs generalizing cur near ds with
  | nil => cases hl
  | cons x xs ih =>
      obtain ⟨ck, d, ds', rfl, hcur, hck, href, hnear, hd, hrest⟩ := h
      cases xs with
      | nil =>
          obtain rfl : x = l := by simpa using hl
          obtain rfl : ck = lst := Option.some.inj (hck.symm.trans hlst)
          obtain ⟨-, rfl⟩ := hrest
          refine ⟨{ ck with next := some c }, d, [new.data], rfl, hcur, hgl, href, hnear, hd, ?_⟩
          refine ⟨new, new.data, [], rfl, rfl, hgc, hnew.1, ?_, rfl, ?_⟩
          · simpa using hnew.2.2
          · exact ⟨hnew.2.1, rfl⟩
      | cons y ys =>
          have hxl : x ≠ l := by
            rintro rfl
            exact (List.nodup_cons.mp hnd).1 (List.mem_of_getLast? (by simpa using hl))
          refine ⟨ck, d, ds' ++ [new.data], rfl, hcur, ?_, href, hnear, hd, ?_⟩
          · rw [hg x (by simp) hxl, hck]
          · refine ih hrest (List.nodup_cons.mp hnd).2 (by simpa using hl)
              (fun hm => hc (List.mem_cons_of_mem _ hm)) ⟨hnew.1, hnew.2.1, ?_⟩
              (fun c' hc' => hg c' (List.mem_cons_of_mem _ hc'))
            rw [hnew.2.2, List.flatten_cons, List.length_append]
            omega

end Chain

/-! ## Changing one stack -/

section Replace

variable {h h' : Heap} {a : Saved} {own : StackId → List ChunkId}

theorem HeapRep.stackAt_isSome (R : HeapRep h a own) {k : StackId} {st : Stack}
    (hst : h.stackAt k = some st) : ∃ im, a.img k = some im ∧ StackRep h.chunkAt st im (own k) := by
  cases him : a.img k with
  | none => simp [(R.gone k him).1] at hst
  | some im =>
      obtain ⟨st', hst', hrep⟩ := R.stack k im him
      obtain rfl : st' = st := Option.some.inj (hst'.symm.trans hst)
      exact ⟨im, rfl, hrep⟩

theorem HeapRep.img_of_mem (R : HeapRep h a own) {k : StackId} (hk : k ∈ a.prev) :
    ∃ im, a.img k = some im := by
  cases him : a.img k with
  | none =>
      obtain ⟨q, hq⟩ := R.list.prev_isSome hk
      simp [Heap.links, (R.gone k him).1] at hq
  | some im => exact ⟨im, rfl⟩

theorem HeapRep.lt_nextStack (R : HeapRep h a own) {k : StackId} {im : Image}
    (him : a.img k = some im) : k < h.nextStack := by
  obtain ⟨st, hst, -⟩ := R.stack k im him
  by_contra hk
  simp [R.freshStack k (Nat.le_of_not_lt hk)] at hst

theorem HeapRep.prev_length (R : HeapRep h a own) : a.prev.length ≤ h.nextStack := by
  have hsub : a.prev ⊆ List.range h.nextStack := by
    intro k hk
    obtain ⟨im, him⟩ := R.img_of_mem hk
    exact List.mem_range.mpr (R.lt_nextStack him)
  simpa using (List.subperm_of_subset R.list.nodup hsub).length_le

theorem HeapRep.own_length (R : HeapRep h a own) (k : StackId) :
    (own k).length ≤ h.nextChunk := by
  have hsub : own k ⊆ List.range h.nextChunk := by
    intro c hc
    cases him : a.img k with
    | none => simp [(R.gone k him).2] at hc
    | some im =>
        obtain ⟨st, -, hrep⟩ := R.stack k im him
        have hne := hrep.chain.alive c hc
        by_contra hlt
        exact hne (R.freshChunk c (by simpa using hlt))
  simpa using (List.subperm_of_subset (R.nodup k) hsub).length_le

/-- One stack and the chunks it owns change, the links stay: the frame rule
of every routine that works on a single stack. -/
theorem HeapRep.replace (R : HeapRep h a own) {k : StackId} {st st' : Stack} {im' : Image}
    {cs' : List ChunkId} (hst : h.stackAt k = some st)
    (hstackAt : h'.stackAt = Function.update h.stackAt k (some st'))
    (hprev : st'.prev = st.prev) (hnext : st'.next = st.next) (hgPrev : h'.gPrev = h.gPrev)
    (hnextStack : h'.nextStack = h.nextStack)
    (hother : ∀ k' c, k' ≠ k → c ∈ own k' → h'.chunkAt c = h.chunkAt c)
    (hfresh : ∀ c, h'.nextChunk ≤ c → h'.chunkAt c = none)
    (hrep : StackRep h'.chunkAt st' im' cs') (hnd : cs'.Nodup)
    (hdisj : ∀ k', k' ≠ k → cs'.Disjoint (own k'))
    (howned : ∀ c, h'.chunkAt c ≠ none → c ∈ cs' ∨ ∃ k', k' ≠ k ∧ c ∈ own k') :
    HeapRep h' { a with img := Function.update a.img k (some im') }
      (Function.update own k cs') := by
  have hlinks : h'.links = h.links := by
    simp only [Heap.links, hgPrev, Links.mk.injEq, true_and]
    constructor <;> funext x <;> rw [hstackAt] <;> by_cases hx : x = k
    · subst hx; simp [hst, hnext]
    · simp [Function.update_of_ne hx]
    · subst hx; simp [hst, hprev]
    · simp [Function.update_of_ne hx]
  refine ⟨?_, ?_, ?_, ?_, hfresh, ?_, ?_, ?_⟩
  · intro x im him
    dsimp only at him
    by_cases hx : x = k
    · subst hx
      obtain rfl : im' = im := by simpa using him
      exact ⟨st', by simp [hstackAt], by simpa using hrep⟩
    · rw [Function.update_of_ne hx] at him
      obtain ⟨stx, hstx, hrepx⟩ := R.stack x im him
      refine ⟨stx, by simp [hstackAt, Function.update_of_ne hx, hstx], ?_⟩
      rw [Function.update_of_ne hx]
      exact { hrepx with chain := hrepx.chain.congr (fun c hc => hother x c hx hc) }
  · intro x him
    dsimp only at him
    have hx : x ≠ k := by rintro rfl; simp at him
    rw [Function.update_of_ne hx] at him
    simpa [hstackAt, Function.update_of_ne hx] using R.gone x him
  · simpa [hlinks] using R.list
  · intro x hx
    rw [hnextStack] at hx
    have hxk : x ≠ k := by rintro rfl; simp [R.freshStack x hx] at hst
    simpa [hstackAt, Function.update_of_ne hxk] using R.freshStack x hx
  · intro x
    by_cases hx : x = k
    · subst hx; simpa using hnd
    · simpa [Function.update_of_ne hx] using R.nodup x
  · intro x y hxy
    by_cases hx : x = k
    · subst hx
      simpa [Function.update_of_ne (Ne.symm hxy)] using hdisj y (Ne.symm hxy)
    · by_cases hy : y = k
      · subst hy
        simpa [Function.update_of_ne hx] using (hdisj x hx).symm
      · simpa [Function.update_of_ne hx, Function.update_of_ne hy] using R.disjoint x y hxy
  · intro c hc
    rcases howned c hc with hc' | ⟨k', hk', hc'⟩
    · exact ⟨k, by simpa using hc'⟩
    · exact ⟨k', by simpa [Function.update_of_ne hk'] using hc'⟩

end Replace

/-! ## Allocation, growth, restoring -/

theorem Heap.malloc_eq (h : Heap) :
    h.malloc = ((nextAlloc h.allocs).1, { h with allocs := (nextAlloc h.allocs).2 }) := by
  rcases h with ⟨_, _, _, _, _, _ | ⟨_, _⟩, _⟩ <;> rfl

section Routines

variable {h : Heap} {a : Saved} {own : StackId → List ChunkId} {m : Memory}

/-- `allocs` and `stats` represent nothing. -/
theorem HeapRep.withAllocs (R : HeapRep h a own) (allocs : List Bool) (stats : Stats) :
    HeapRep { h with allocs := allocs, stats := stats } a own :=
  ⟨R.stack, R.gone, R.list, R.freshStack, R.freshChunk, R.nodup, R.disjoint, R.owned⟩

theorem stackNew_none (R : HeapRep h a own) (k : Frame) (near far size : Nat)
    (hal : (nextAlloc h.allocs).1 = false) :
    ∃ h', stackNew h m k near far size = (h', none) ∧ HeapRep h' a own ∧
      h'.allocs = (nextAlloc h.allocs).2 ∧ h'.nextStack = h.nextStack := by
  refine ⟨{ h with allocs := (nextAlloc h.allocs).2 }, ?_, R.withAllocs _ h.stats, rfl, rfl⟩
  simp [stackNew, Heap.malloc_eq, hal]

theorem stackNew_some (R : HeapRep h a own) (k : Frame) (near far size : Nat)
    (hal : (nextAlloc h.allocs).1 = true) :
    ∃ h', stackNew h m k near far size = (h', some h.nextStack) ∧
      HeapRep h'
        { a with
          img := Function.update a.img h.nextStack
            (some ⟨near, far, readSlice m near size, [], 1, false, k⟩) } own ∧
      h'.allocs = (nextAlloc h.allocs).2 ∧ h'.nextStack = h.nextStack + 1 := by
  have hfresh : h.stackAt h.nextStack = none := R.freshStack _ (Nat.le_refl _)
  have hnew : a.img h.nextStack = none := by
    cases him : a.img h.nextStack with
    | none => rfl
    | some im => exact absurd (R.lt_nextStack him) (Nat.lt_irrefl _)
  simp only [stackNew, Heap.malloc_eq, hal]
  refine ⟨_, rfl, ?_, rfl, rfl⟩
  refine ⟨?_, ?_, ?_, ?_, R.freshChunk, R.nodup, R.disjoint, R.owned⟩
  · intro x im him
    by_cases hx : x = h.nextStack
    · subst hx
      dsimp only at him
      rw [Function.update_self, Option.some.injEq] at him
      subst him
      refine ⟨_, Function.update_self .., ?_⟩
      rw [(R.gone _ hnew).2]
      constructor <;> simp [Image.saved, Image.data, Chain]
    · dsimp only at him ⊢
      rw [Function.update_of_ne hx] at him
      rw [Function.update_of_ne hx]
      exact R.stack x im him
  · intro x him
    dsimp only at him ⊢
    have hx : x ≠ h.nextStack := by rintro rfl; simp at him
    rw [Function.update_of_ne hx] at him
    rw [Function.update_of_ne hx]
    exact R.gone x him
  · have hprev : ∀ x, x ∈ a.prev → x ≠ h.nextStack := by
      rintro x hx rfl
      obtain ⟨im, him⟩ := R.img_of_mem hx
      simp [hnew] at him
    refine ⟨?_, R.list.nodup, ?_⟩
    · refine R.list.seg.congr (fun x hx => ?_) (fun x hx => ?_) <;>
        simp [Heap.links, Function.update_of_ne (hprev x hx)]
    · intro x hx
      by_cases hxn : x = h.nextStack
      · subst hxn; simp [Heap.links]
      · have := R.list.off x hx
        simpa [Heap.links, Function.update_of_ne hxn] using this
  · intro x hx
    dsimp only at hx ⊢
    rw [Function.update_of_ne (Nat.ne_of_gt hx)]
    exact R.freshStack x (Nat.le_of_succ_le hx)

/-- A growth that cannot allocate changes nothing. -/
theorem stackGrow_none {k : StackId} {st : Stack} {size : Nat} (hst : h.stackAt k = some st)
    (hlt : st.saved < size) (hal : (nextAlloc h.allocs).1 = false) :
    stackGrow h m k size = .ok ({ h with allocs := (nextAlloc h.allocs).2 }, false) := by
  simp [stackGrow, Heap.stack, hst, require_of hlt, bind, Except.bind, Heap.malloc_eq, hal, pure,
    Except.pure]

/-- A growth adds a chunk behind the last one; `h` may be any heap in which
the stack is represented. -/
theorem stackGrow_some {k : StackId} {st : Stack} {im : Image} {cs : List ChunkId} {F : Nat}
    (hst : h.stackAt k = some st) (hrep : StackRep h.chunkAt st im cs) (hd : im.defunct = false)
    (hneed : ¬ im.Covers F) (hnd : cs.Nodup) (hnew : h.nextChunk ∉ cs)
    (hal : (nextAlloc h.allocs).1 = true) :
    ∃ h' st', stackGrow h m k (min im.far F - im.near) = .ok (h', true) ∧
      h'.stackAt = Function.update h.stackAt k (some st') ∧ st'.prev = st.prev ∧
      st'.next = st.next ∧ StackRep h'.chunkAt st' (im.extend m F) (cs ++ [h.nextChunk]) ∧
      (∀ c, c ∉ cs → c ≠ h.nextChunk → h'.chunkAt c = h.chunkAt c) ∧ h'.gPrev = h.gPrev ∧
      h'.nextStack = h.nextStack ∧ h'.nextChunk = h.nextChunk + 1 ∧
      h'.allocs = (nextAlloc h.allocs).2 := by
  have hsaved : st.saved = im.data.length := by
    rw [hrep.saved, Image.saved_of_not_defunct hd]
  have htop : im.top = im.near + im.data.length := Image.top_of_not_defunct hd
  have hlen : im.data.length = im.first.length + im.rest.flatten.length := by
    simp [Image.data]
  have hlt : st.saved < min im.far F - im.near := by
    rw [Image.Covers] at hneed
    omega
  have hdata : st.chunk.stackNear + st.saved = im.top := by rw [hrep.near, hsaved, htop]
  have hdiff : min im.far F - im.near - st.saved = min im.far F - im.top := by omega
  have hext : (im.extend m F).saved = min im.far F - im.near := by
    rw [Image.saved_of_not_defunct (by simpa using hd), Image.extend_data]
    simp
    omega
  cases hlast : st.last with
  | none =>
      obtain rfl : cs = [] := by
        rw [hrep.last] at hlast
        exact List.getLast?_eq_none_iff.mp hlast
      have hrest : im.rest = [] := hrep.chain.2
      simp only [stackGrow, Heap.stack, hst, require_of hlt, bind, Except.bind,
        Heap.malloc_eq, hal, hlast, pure, Except.pure, hdata, hdiff, Heap.setStack]
      refine ⟨_, _, rfl, rfl, rfl, rfl, ?_, fun c _ hc => Function.update_of_ne hc _ _,
        rfl, rfl, rfl, rfl⟩
      refine ⟨hrep.refcount, hrep.defunct, hrep.far, hext.symm, hrep.near, hrep.first, hrep.frame,
        rfl, ?_⟩
      refine ⟨_, _, [], ?_, rfl, Function.update_self .., rfl, ?_, rfl, rfl, rfl⟩
      · simp [Image.extend, hrest]
      · simp [htop, hlen, hrest]
  | some l =>
      have hl : cs.getLast? = some l := hrep.last ▸ hlast
      have hlmem : l ∈ cs := List.mem_of_getLast? hl
      obtain ⟨lst, hlst⟩ := Option.ne_none_iff_exists'.mp (hrep.chain.alive l hlmem)
      have hlc : l ≠ h.nextChunk := fun heq => hnew (heq ▸ hlmem)
      simp only [stackGrow, Heap.stack, hst, require_of hlt, bind, Except.bind,
        Heap.malloc_eq, hal, hlast, pure, Except.pure, hdata, hdiff, Heap.setStack, Heap.chunk,
        Function.update_of_ne hlc, hlst, Heap.setChunk]
      refine ⟨_, _, rfl, rfl, rfl, rfl, ?_, ?_, rfl, rfl, rfl, rfl⟩
      · refine ⟨hrep.refcount, hrep.defunct, hrep.far, hext.symm, hrep.near, hrep.first,
          hrep.frame, by simp, ?_⟩
        refine hrep.chain.snoc ⟨1, none, im.top, readSlice m im.top (min im.far F - im.top)⟩
          hnd hl hlst hnew ⟨rfl, rfl, ?_⟩ (Function.update_self ..) ?_ ?_
        · simp [htop, hlen, Nat.add_assoc]
        · simp [Function.update_of_ne (Ne.symm hlc)]
        · intro c' hc' hcl
          have hcn : c' ≠ h.nextChunk := fun heq => hnew (heq ▸ hc')
          simp [Function.update_of_ne hcl, Function.update_of_ne hcn]
      · intro c hc hcn
        have hcl : c ≠ l := fun heq => hc (heq ▸ hlmem)
        exact (Function.update_of_ne hcl _ _).trans (Function.update_of_ne hcn _ _)

theorem stackGrow_spec (R : HeapRep h a own) {k : StackId} {im : Image} {F : Nat}
    (him : a.img k = some im) (hd : im.defunct = false) (hneed : ¬ im.Covers F) :
    ∃ h', stackGrow h m k (min im.far F - im.near) = .ok (h', (nextAlloc h.allocs).1) ∧
      h'.allocs = (nextAlloc h.allocs).2 ∧ h'.nextStack = h.nextStack ∧
      if (nextAlloc h.allocs).1 then
        ∃ own', HeapRep h' { a with img := Function.update a.img k (some (im.extend m F)) } own'
      else HeapRep h' a own := by
  obtain ⟨st, hst, hrep⟩ := R.stack k im him
  cases hal : (nextAlloc h.allocs).1 with
  | false =>
      have hlt : st.saved < min im.far F - im.near := by
        rw [Image.Covers, Image.top_of_not_defunct hd] at hneed
        rw [hrep.saved, Image.saved_of_not_defunct hd]
        omega
      exact ⟨_, stackGrow_none hst hlt hal, rfl, rfl, R.withAllocs _ h.stats⟩
  | true =>
      have hcnew : ∀ x, h.nextChunk ∉ own x := by
        intro x hx
        cases hx' : a.img x with
        | none => simp [(R.gone x hx').2] at hx
        | some imx =>
            obtain ⟨stx, -, hrepx⟩ := R.stack x imx hx'
            exact hrepx.chain.alive _ hx (R.freshChunk _ (Nat.le_refl _))
      obtain ⟨h', st', heq, hstackAt, hprev, hnext, hrep', hchunks, hgPrev, hns, hnc, hal'⟩ :=
        stackGrow_some (m := m) hst hrep hd hneed (R.nodup k) (hcnew k) hal
      refine ⟨h', heq, hal', hns, Function.update own k (own k ++ [h.nextChunk]),
        R.replace hst hstackAt hprev hnext hgPrev hns ?_ ?_ hrep' ?_ ?_ ?_⟩
      · intro k' c hk' hc
        exact hchunks c (fun hck => R.disjoint k' k hk' hc hck) fun hcn => hcnew k' (hcn ▸ hc)
      · intro c hc
        rw [hnc] at hc
        have hnone : h.chunkAt c = none := R.freshChunk c (Nat.le_of_succ_le hc)
        rw [hchunks c (fun hck => hrep.chain.alive c hck hnone) (Nat.ne_of_gt hc)]
        exact hnone
      · refine List.nodup_append.mpr ⟨R.nodup k, by simp, ?_⟩
        rintro c hc c' hc' rfl
        rw [List.mem_singleton.mp hc'] at hc
        exact hcnew k hc
      · intro k' hk'
        refine List.disjoint_append_left.mpr ⟨R.disjoint k k' (Ne.symm hk'), ?_⟩
        simp [hcnew k']
      · intro c hc
        by_cases hck : c ∈ own k ++ [h.nextChunk]
        · exact .inl hck
        · obtain ⟨hck, hcn⟩ : c ∉ own k ∧ c ≠ h.nextChunk := by simpa using hck
          rw [hchunks c hck hcn] at hc
          obtain ⟨k', hk'⟩ := R.owned c hc
          exact .inr ⟨k', fun heq => hck (heq ▸ hk'), hk'⟩

theorem restoreChunks_spec {fuel : Nat} {ck : Chunk} {cs : List ChunkId} {ds : List (List Byte)}
    (hc : Chain h.chunkAt ck.next (ck.stackNear + ck.data.length) cs ds)
    (hfuel : cs.length ≤ fuel) :
    restoreChunks h fuel ck m = .ok (writeSlice m ck.stackNear (ck.data ++ ds.flatten)) := by
  induction cs generalizing fuel ck m ds with
  | nil =>
      obtain ⟨hnext, rfl⟩ := hc
      simp [restoreChunks, hnext]
  | cons c cs ih =>
      obtain ⟨ck', d, ds', rfl, hnext, hck', -, hnear, rfl, hrest⟩ := hc
      obtain ⟨fuel, rfl⟩ : ∃ n, fuel = n + 1 := ⟨fuel - 1, by simp at hfuel; omega⟩
      rw [← hnear] at hrest
      unfold restoreChunks
      simp only [hnext, Heap.chunk, hck', bind, Except.bind]
      rw [ih hrest (by simpa using hfuel), hnear, writeSlice_writeSlice]
      simp

/-- Restoring writes what the image stands for. -/
theorem stackRestore_spec (R : HeapRep h a own) {k : StackId} {im : Image}
    (him : a.img k = some im) : stackRestore h m k = .ok (im.value m) := by
  obtain ⟨st, hst, hrep⟩ := R.stack k im him
  have hc := hrep.chain
  rw [← hrep.near, ← hrep.first] at hc
  simp only [stackRestore, Heap.stack, hst, bind, Except.bind]
  rw [restoreChunks_spec hc (R.own_length k), hrep.near, hrep.first]
  rfl

/-- Only the counters of the stack `k` change. -/
theorem HeapRep.setRefcount (R : HeapRep h a own) {k : StackId} {st : Stack} {im : Image}
    (hst : h.stackAt k = some st) (him : a.img k = some im) (n : Nat) :
    HeapRep (h.setStack k { st with refcount := n })
      { a with img := Function.update a.img k (some { im with refcount := n }) } own := by
  obtain ⟨st', hst', hrep⟩ := R.stack k im him
  obtain rfl : st' = st := Option.some.inj (hst'.symm.trans hst)
  have hself : Function.update own k (own k) = own := Function.update_eq_self k own
  rw [← hself]
  refine R.replace hst rfl rfl rfl rfl rfl (fun _ _ _ _ => rfl) R.freshChunk ?_ (R.nodup k)
    (fun k' hk' => R.disjoint k k' (Ne.symm hk')) ?_
  · exact ⟨rfl, hrep.defunct, hrep.far, hrep.saved, hrep.near, hrep.first, hrep.frame, hrep.last,
      hrep.chain⟩
  · intro c hc
    obtain ⟨k', hk'⟩ := R.owned c hc
    by_cases hkk : k' = k
    · subst hkk; exact .inl hk'
    · exact .inr ⟨k', hkk, hk'⟩

theorem stackDup_spec (R : HeapRep h a own) {k : StackId} {im : Image} (him : a.img k = some im) :
    ∃ h', stackDup h k = .ok h' ∧ HeapRep h'
        { a with img := Function.update a.img k (some { im with refcount := im.refcount + 1 }) }
        own ∧
      h'.allocs = h.allocs ∧ h'.nextStack = h.nextStack := by
  obtain ⟨st, hst, hrep⟩ := R.stack k im him
  simp only [stackDup, Heap.stack, hst, bind, Except.bind, pure, Except.pure]
  refine ⟨_, rfl, ?_, rfl, rfl⟩
  rw [hrep.refcount]
  exact R.setRefcount hst him _

/-! ## The list -/

/-- A stack without its links. -/
def Stack.unlinked (st : Stack) : Stack := { st with prev := none, next := none }

/-- Two heaps that differ only in the links of `g_prev`. -/
structure Relinked (h h' : Heap) : Prop where
  stack : ∀ k, (h'.stackAt k).map Stack.unlinked = (h.stackAt k).map Stack.unlinked
  chunk : h'.chunkAt = h.chunkAt
  nextStack : h'.nextStack = h.nextStack
  nextChunk : h'.nextChunk = h.nextChunk
  allocs : h'.allocs = h.allocs

theorem Relinked.refl (h : Heap) : Relinked h h := ⟨fun _ => rfl, rfl, rfl, rfl, rfl⟩

theorem Relinked.trans {h₁ h₂ h₃ : Heap} (h₁₂ : Relinked h₁ h₂) (h₂₃ : Relinked h₂ h₃) :
    Relinked h₁ h₃ :=
  ⟨fun k => (h₂₃.stack k).trans (h₁₂.stack k), h₂₃.chunk.trans h₁₂.chunk,
    h₂₃.nextStack.trans h₁₂.nextStack, h₂₃.nextChunk.trans h₁₂.nextChunk,
    h₂₃.allocs.trans h₁₂.allocs⟩

theorem Relinked.setStack {k : StackId} {st : Stack} (st' : Stack) (hst : h.stackAt k = some st)
    (heq : st'.unlinked = st.unlinked) : Relinked h (h.setStack k st') := by
  refine ⟨fun x => ?_, rfl, rfl, rfl, rfl⟩
  by_cases hx : x = k
  · subst hx; simp [Heap.setStack, hst, heq]
  · simp [Heap.setStack, Function.update_of_ne hx]

theorem Relinked.setGPrev (v : Option StackId) : Relinked h { h with gPrev := v } :=
  ⟨fun _ => rfl, rfl, rfl, rfl, rfl⟩

theorem HeapRep.relink {h' : Heap} (R : HeapRep h a own) (hr : Relinked h h') {l : List StackId}
    (hl : h'.links.Rep l) : HeapRep h' { a with prev := l } own := by
  have hnone : ∀ k, h.stackAt k = none → h'.stackAt k = none := by
    intro k hk
    have := hr.stack k
    simpa [hk] using this
  refine ⟨?_, fun k hk => ⟨hnone k (R.gone k hk).1, (R.gone k hk).2⟩, hl, ?_, ?_, R.nodup,
    R.disjoint, ?_⟩
  · intro k im him
    obtain ⟨st, hst, hrep⟩ := R.stack k im him
    have heq := hr.stack k
    rw [hst, Option.map_some, Option.map_eq_some_iff] at heq
    obtain ⟨st', hst', heq⟩ := heq
    refine ⟨st', hst', ?_⟩
    have hfield : ∀ {α : Type} (f : Stack → α), (∀ x : Stack, f x = f x.unlinked) →
        f st' = f st := by
      intro α f hf
      rw [hf st', hf st, heq]
    rw [hr.chunk]
    have hchunk : st'.chunk = st.chunk := hfield Stack.chunk (fun _ => rfl)
    exact ⟨(hfield Stack.refcount (fun _ => rfl)).trans hrep.refcount,
      (hfield Stack.defunct (fun _ => rfl)).trans hrep.defunct,
      (hfield Stack.stackFar (fun _ => rfl)).trans hrep.far,
      (hfield Stack.saved (fun _ => rfl)).trans hrep.saved,
      hchunk ▸ hrep.near, hchunk ▸ hrep.first,
      (hfield Stack.frame (fun _ => rfl)).trans hrep.frame,
      (hfield Stack.last (fun _ => rfl)).trans hrep.last, hchunk ▸ hrep.chain⟩
  · intro k hk
    rw [hr.nextStack] at hk
    exact hnone k (R.freshStack k hk)
  · intro c hc
    rw [hr.nextChunk] at hc
    rw [hr.chunk]
    exact R.freshChunk c hc
  · intro c hc
    rw [hr.chunk] at hc
    exact R.owned c hc

/-- Writing a stack's links is writing them in the pointer structure. -/
theorem links_setStack {k : StackId} (st : Stack) :
    (h.setStack k st).links =
      { head := h.gPrev
        next := Function.update h.links.next k st.next
        prev := Function.update h.links.prev k st.prev } := by
  simp only [Heap.links, Heap.setStack, Links.mk.injEq, true_and]
  constructor <;> funext x <;> by_cases hx : x = k
  · subst hx; simp
  · simp [Function.update_of_ne hx]
  · subst hx; simp
  · simp [Function.update_of_ne hx]

theorem links_setGPrev (v : Option StackId) :
    ({ h with gPrev := v } : Heap).links = { h.links with head := v } := rfl

/-- The back pointer and the list neighbours of a member, as the asserts of
`stackLink` and `stackUnlink` read them. -/
theorem HeapRep.head_prev (R : HeapRep h a own) {hd : StackId} (hg : h.gPrev = some hd) :
    hd ∈ a.prev ∧ ∃ st, h.stackAt hd = some st ∧ st.prev = some .head := by
  have hhead : h.links.head = a.prev.head? := R.list.head_eq
  rw [show h.links.head = some hd from hg] at hhead
  have hmem : hd ∈ a.prev := List.mem_of_mem_head? hhead.symm
  obtain ⟨im, him⟩ := R.img_of_mem hmem
  obtain ⟨st, hst, -⟩ := R.stack hd im him
  refine ⟨hmem, st, hst, ?_⟩
  have hseg := R.list.seg
  cases hp : a.prev with
  | nil => simp [hp] at hmem
  | cons y ys =>
      rw [hp, List.head?_cons, Option.some.injEq] at hhead
      subst hhead
      rw [hp] at hseg
      simpa [Heap.links, hst] using hseg.2.1

theorem stackLink_spec (R : HeapRep h a own) {k : StackId} {im : Image}
    (him : a.img k = some im) (hk : k ∉ a.prev) :
    ∃ h', stackLink h k = .ok h' ∧ HeapRep h' { a with prev := k :: a.prev } own ∧
      Relinked h h' := by
  obtain ⟨st, hst, hrep⟩ := R.stack k im him
  have hprev : st.prev = none := by
    have := R.list.off k hk
    simpa [Heap.links, hst] using this
  have hlink := Links.link_rep R.list hk
  cases hg : h.gPrev with
  | none =>
      simp only [stackLink, Heap.stack, hst, bind, Except.bind, require_of hprev, hg,
        require_of (show (none : Option StackId) ≠ some k by simp), pure, Except.pure]
      have hr := (Relinked.setStack { st with next := none, prev := some .head } hst rfl).trans
        (Relinked.setGPrev (some k))
      refine ⟨_, rfl, R.relink hr ?_, hr⟩
      · have heq := links_setStack (h := h) (k := k) { st with next := none, prev := some .head }
        rw [links_setGPrev, heq]
        simpa [Links.link, Links.setPrev, show h.links.head = none from hg] using hlink
  | some hd =>
      obtain ⟨hmem, hst', hhst, hback⟩ := R.head_prev hg
      have hne : k ≠ hd := fun heq => hk (heq ▸ hmem)
      simp only [stackLink, Heap.stack, hst, hhst, bind, Except.bind, require_of hprev, hg,
        require_of (show some hd ≠ some k by simpa using hne.symm), require_of hback, pure,
        Except.pure, Heap.setStack]
      have hst₁ : (h.setStack hd { hst' with prev := some (.next k) }).stackAt k = some st :=
        (Function.update_of_ne hne _ _).trans hst
      have hr := (Relinked.setStack { hst' with prev := some (.next k) } hhst rfl).trans
        ((Relinked.setStack { st with next := some hd, prev := some .head } hst₁ rfl).trans
          (Relinked.setGPrev (some k)))
      refine ⟨_, rfl, R.relink hr ?_, hr⟩
      · have h1 := links_setStack (h := h) (k := hd) { hst' with prev := some (.next k) }
        have h2 := links_setStack (h := h.setStack hd { hst' with prev := some (.next k) }) (k := k)
          { st with next := some hd, prev := some .head }
        have hnext : Function.update h.links.next hd hst'.next = h.links.next := by
          rw [Function.update_eq_self_iff]
          simp [Heap.links, hhst]
        rw [h1, hnext] at h2
        simp only [Links.link, Links.setPrev, show h.links.head = some hd from hg] at hlink
        exact (congrArg (fun L : Links StackId => Links.Rep { L with head := some k } (k :: a.prev))
          h2).mpr hlink

theorem links_setPrev {k : StackId} {st : Stack} (hst : h.stackAt k = some st)
    (v : Option (Slot StackId)) :
    (h.setStack k { st with prev := v }).links = h.links.setPrev (some k) v := by
  have hnext : Function.update h.links.next k st.next = h.links.next := by
    rw [Function.update_eq_self_iff]
    simp [Heap.links, hst]
  rw [links_setStack, hnext]
  rfl

theorem assignSlot_spec {p : Slot StackId} (v : Option StackId)
    (hp : ∀ k, p = .next k → ∃ st, h.stackAt k = some st) :
    ∃ h', h.assignSlot p v = .ok h' ∧ h'.links = h.links.assign p v ∧ Relinked h h' ∧
      ∀ k, p ≠ .next k → h'.stackAt k = h.stackAt k := by
  cases p with
  | head => exact ⟨_, rfl, links_setGPrev v, Relinked.setGPrev v, fun _ _ => rfl⟩
  | next k =>
      obtain ⟨st, hst⟩ := hp k rfl
      simp only [Heap.assignSlot, Heap.stack, hst, bind, Except.bind, pure, Except.pure]
      refine ⟨_, rfl, ?_, Relinked.setStack _ hst rfl, ?_⟩
      · have hprev : Function.update h.links.prev k st.prev = h.links.prev := by
          rw [Function.update_eq_self_iff]
          simp [Heap.links, hst]
        rw [links_setStack, hprev]
        rfl
      · intro k' hk'
        exact Function.update_of_ne (fun heq => hk' (by rw [heq])) _ _

theorem derefSlot_spec {p : Slot StackId} {k : StackId} (hp : h.links.deref p = some k) :
    h.derefSlot p = .ok (some k) ∧ ∀ k', p = .next k' → ∃ st, h.stackAt k' = some st := by
  cases p with
  | head => exact ⟨congrArg Except.ok hp, by simp⟩
  | next k' =>
      simp only [Links.deref, Heap.links, Option.bind_eq_some_iff] at hp
      obtain ⟨st, hst, hnext⟩ := hp
      refine ⟨by simp [Heap.derefSlot, Heap.stack, hst, bind, Except.bind, hnext, pure,
        Except.pure], fun k'' hk'' => ?_⟩
      obtain rfl := Slot.next.inj hk''
      exact ⟨st, hst⟩

theorem stackUnlink_spec (R : HeapRep h a own) {k : StackId} (hk : k ∈ a.prev) :
    ∃ h', stackUnlink h k = .ok h' ∧ HeapRep h' { a with prev := a.prev.erase k } own ∧
      Relinked h h' ∧ h'.links.next k = h.links.next k := by
  obtain ⟨im, him⟩ := R.img_of_mem hk
  obtain ⟨st, hst, hrep⟩ := R.stack k im him
  obtain ⟨q, hq, hderef, hqk, hbehind⟩ := R.list.prev_spec hk
  have hstq : st.prev = some q := by simpa [Heap.links, hst] using hq
  have hstn : h.links.next k = st.next := by simp [Heap.links, hst]
  obtain ⟨hcur, hslot⟩ := derefSlot_spec hderef
  have hfinish : ∀ h₁ : Heap, Relinked h h₁ → h₁.links = h.links.setPrev st.next (some q) →
      h₁.stackAt k = some st → (∀ p, q = .next p → h₁.stackAt p = h.stackAt p) →
      ∃ h', (do
        let h₂ ← h₁.assignSlot q st.next
        let st ← h₂.stack k
        return h₂.setStack k { st with prev := none } : Res Heap) = .ok h' ∧
        HeapRep h' { a with prev := a.prev.erase k } own ∧ Relinked h h' ∧
        h'.links.next k = h.links.next k := by
    intro h₁ hr₁ hl₁ hst₁ hq₁
    obtain ⟨h₂, hassign, hl₂, hr₂, hother⟩ := assignSlot_spec (h := h₁) (p := q) st.next
      (fun p hp => by rw [hq₁ p hp]; exact hslot p hp)
    have hst₂ : h₂.stackAt k = some st := (hother k hqk).trans hst₁
    have hr := (hr₁.trans hr₂).trans (Relinked.setStack { st with prev := none } hst₂ rfl)
    simp only [hassign, bind, Except.bind, Heap.stack, hst₂, pure, Except.pure]
    have hlinks : (h₂.setStack k { st with prev := none }).links = h.links.unlink k q := by
      rw [links_setPrev hst₂, hl₂, hl₁, ← hstn]
      rfl
    refine ⟨_, rfl, R.relink hr (hlinks ▸ Links.unlink_rep R.list hk hq), hr, ?_⟩
    rw [hlinks]
    exact Links.unlink_next_self hqk
  simp only [stackUnlink, Heap.stack, hst, bind, Except.bind, hstq, hcur, require, if_true]
  cases hn : st.next with
  | none =>
      rw [hn] at hfinish
      exact hfinish h (Relinked.refl h) rfl hst (fun _ _ => rfl)
  | some y =>
      obtain ⟨hyp, hyk, hqy⟩ := hbehind y (hstn.trans hn)
      obtain ⟨sty, hsty⟩ : ∃ sty, h.stackAt y = some sty := by
        simp only [Heap.links, Option.bind_eq_some_iff] at hyp
        obtain ⟨sty, hsty, -⟩ := hyp
        exact ⟨sty, hsty⟩
      have hback : sty.prev = some (.next k) := by simpa [Heap.links, hsty] using hyp
      rw [hn] at hfinish
      have := hfinish (h.setStack y { sty with prev := some q }) (Relinked.setStack _ hsty rfl)
        (links_setPrev hsty _) ?_ ?_
      · simpa only [Heap.stack, hsty, hback, if_true, bind, Except.bind, pure, Except.pure]
          using this
      · exact (Function.update_of_ne hyk.symm _ _).trans hst
      · intro p hp
        exact Function.update_of_ne (fun heq => hqy (by rw [hp, heq])) _ _

/-! ## Releasing -/

/-- The chunks `cs` are gone. -/
def dropChunks (f : ChunkId → Option Chunk) (cs : List ChunkId) : ChunkId → Option Chunk :=
  fun c => if c ∈ cs then none else f c

theorem dropChunks_of_notMem {f : ChunkId → Option Chunk} {cs : List ChunkId} {c : ChunkId}
    (hc : c ∉ cs) : dropChunks f cs c = f c := if_neg hc

/-- A chain of unshared chunks is freed to its end. -/
theorem chunkDecref_spec (fuel : Nat) {cur : Option ChunkId} {near : Nat} {cs : List ChunkId}
    {ds : List (List Byte)} (hc : Chain h.chunkAt cur near cs ds) (hnd : cs.Nodup)
    (hfuel : cs.length ≤ fuel) :
    ∃ stats, chunkDecref fuel h cur =
      .ok { h with chunkAt := dropChunks h.chunkAt cs, stats := stats } := by
  induction cs generalizing h fuel cur near ds with
  | nil =>
      obtain ⟨rfl, -⟩ := hc
      refine ⟨h.stats, ?_⟩
      have hdrop : dropChunks h.chunkAt [] = h.chunkAt := by funext c; simp [dropChunks]
      cases fuel <;> rw [chunkDecref, hdrop]
  | cons c cs ih =>
      obtain ⟨ck, d, ds', rfl, rfl, hck, href, -, -, hrest⟩ := hc
      obtain ⟨hcs, hnd'⟩ := List.nodup_cons.mp hnd
      obtain ⟨fuel, rfl⟩ : ∃ n, fuel = n + 1 := ⟨fuel - 1, by simp at hfuel; omega⟩
      have hlast : ¬ 0 < ck.refcount - 1 := by omega
      simp only [chunkDecref, Heap.chunk, hck, bind, Except.bind, if_neg hlast]
      have hrest' : Chain (Function.update h.chunkAt c none) ck.next (near + d.length) cs ds' :=
        hrest.congr fun c' hc' => Function.update_of_ne (by rintro rfl; exact hcs hc') _ _
      have hdrop : dropChunks (Function.update h.chunkAt c none) cs =
          dropChunks h.chunkAt (c :: cs) := by
        funext x
        by_cases hx : x = c
        · subst hx; simp [dropChunks]
        · simp [dropChunks, hx]
      obtain ⟨stats, hstats⟩ := ih (h := { h with
        chunkAt := Function.update h.chunkAt c none
        stats := { h.stats.subAlloc (chunkHeader + ck.data.length) with
          stackChunkCount := (h.stats.subAlloc (chunkHeader + ck.data.length)).stackChunkCount - 1
          stackBytes := (h.stats.subAlloc (chunkHeader + ck.data.length)).stackBytes -
            (chunkHeader + ck.data.length) } }) _ hrest' hnd' (by simpa using hfuel)
      refine ⟨stats, hstats.trans ?_⟩
      rw [← hdrop]

theorem HeapRep.notMem_own (R : HeapRep h a own) {k : StackId} {c : ChunkId}
    (hc : h.nextChunk ≤ c) : c ∉ own k := by
  intro hm
  cases him : a.img k with
  | none => simp [(R.gone k him).2] at hm
  | some im =>
      obtain ⟨st, -, hrep⟩ := R.stack k im him
      exact hrep.chain.alive c hm (R.freshChunk c hc)

/-- The image without its extra chunks, marked defunct. -/
theorem stackDefunct_spec (R : HeapRep h a own) {k : StackId} {im : Image}
    (him : a.img k = some im) :
    ∃ h' own', stackDefunct h k = .ok h' ∧
      HeapRep h' { a with img := Function.update a.img k (some im.spoil) } own' ∧
      h'.allocs = h.allocs ∧ h'.nextStack = h.nextStack := by
  obtain ⟨st, hst, hrep⟩ := R.stack k im him
  obtain ⟨stats, hfree⟩ := chunkDecref_spec (h := h.setStack k
      { st with
        chunk := { st.chunk with next := none }, last := none, defunct := true, saved := 0 })
    h.nextChunk hrep.chain (R.nodup k) (R.own_length k)
  have hout : ∀ k', k' ≠ k → ∀ c ∈ own k', c ∉ own k :=
    fun k' hk' c hc hc' => R.disjoint k' k hk' hc hc'
  simp only [stackDefunct, Heap.stack, hst, bind, Except.bind]
  refine ⟨_, Function.update own k [], hfree, R.replace hst rfl rfl rfl rfl rfl ?_ ?_ ?_
    (by simp) (by simp) ?_, rfl, rfl⟩
  · exact fun k' c hk' hc => dropChunks_of_notMem (hout k' hk' c hc)
  · intro c hc
    exact (dropChunks_of_notMem (R.notMem_own hc)).trans (R.freshChunk c hc)
  · exact ⟨hrep.refcount, rfl, hrep.far, rfl, hrep.near, hrep.first, hrep.frame, rfl, rfl, rfl⟩
  · intro c hc
    by_cases hck : c ∈ own k
    · exact absurd (show dropChunks h.chunkAt (own k) c = none from if_pos hck) hc
    · obtain ⟨k', hk'⟩ := R.owned c (by rwa [← dropChunks_of_notMem (f := h.chunkAt) hck])
      exact .inr ⟨k', fun heq => hck (heq ▸ hk'), hk'⟩

/-- Dropping a reference that is not the last one. -/
theorem stackDecref_shared (R : HeapRep h a own) {k : StackId} {im : Image}
    (him : a.img k = some im) (hshared : 1 < im.refcount) :
    ∃ h', stackDecref h (some k) = .ok h' ∧ HeapRep h'
        { a with img := Function.update a.img k (some { im with refcount := im.refcount - 1 }) }
        own ∧
      h'.allocs = h.allocs ∧ h'.nextStack = h.nextStack := by
  obtain ⟨st, hst, hrep⟩ := R.stack k im him
  have href : 0 < st.refcount - 1 := by rw [hrep.refcount]; omega
  simp only [stackDecref, Heap.stack, hst, bind, Except.bind, if_pos href, pure, Except.pure]
  refine ⟨_, rfl, ?_, rfl, rfl⟩
  rw [hrep.refcount]
  exact R.setRefcount hst him _

/-- Removing a stack that is not in the list. -/
theorem HeapRep.remove (R : HeapRep h a own) {k : StackId} {im : Image} {st : Stack}
    (him : a.img k = some im) (hst : h.stackAt k = some st) (hk : k ∉ a.prev) (stats : Stats) :
    HeapRep { h with stackAt := Function.update h.stackAt k none,
                     chunkAt := dropChunks h.chunkAt (own k), stats := stats }
      { a with img := Function.update a.img k none } (Function.update own k []) := by
  have hprev : st.prev = none := by
    have := R.list.off k hk
    simpa [Heap.links, hst] using this
  have hout : ∀ k', k' ≠ k → ∀ c ∈ own k', c ∉ own k :=
    fun k' hk' c hc hc' => R.disjoint k' k hk' hc hc'
  refine ⟨?_, ?_, ?_, ?_, ?_, ?_, ?_, ?_⟩
  · intro x imx himx
    dsimp only at himx ⊢
    have hx : x ≠ k := by rintro rfl; simp at himx
    rw [Function.update_of_ne hx] at himx
    obtain ⟨stx, hstx, hrepx⟩ := R.stack x imx himx
    refine ⟨stx, (Function.update_of_ne hx _ _).trans hstx, ?_⟩
    rw [Function.update_of_ne hx]
    exact { hrepx with
      chain := hrepx.chain.congr (fun c hc => dropChunks_of_notMem (hout x hx c hc)) }
  · intro x himx
    dsimp only at himx ⊢
    by_cases hx : x = k
    · subst hx; simp
    · rw [Function.update_of_ne hx] at himx ⊢
      rw [Function.update_of_ne hx]
      exact R.gone x himx
  · have hmem : ∀ x, x ∈ a.prev → x ≠ k := fun x hx heq => hk (heq ▸ hx)
    refine ⟨?_, R.list.nodup, ?_⟩
    · refine R.list.seg.congr (fun x hx => ?_) (fun x hx => ?_) <;>
        simp [Heap.links, Function.update_of_ne (hmem x hx)]
    · intro x hx
      by_cases hxk : x = k
      · subst hxk; simp [Heap.links]
      · have := R.list.off x hx
        simpa [Heap.links, Function.update_of_ne hxk] using this
  · intro x hx
    dsimp only at hx ⊢
    by_cases hxk : x = k
    · subst hxk; simp
    · rw [Function.update_of_ne hxk]
      exact R.freshStack x hx
  · intro c hc
    exact (dropChunks_of_notMem (R.notMem_own hc)).trans (R.freshChunk c hc)
  · intro x
    by_cases hx : x = k
    · subst hx; simp
    · simpa [Function.update_of_ne hx] using R.nodup x
  · intro x y hxy
    by_cases hx : x = k
    · subst hx; simp
    · by_cases hy : y = k
      · subst hy; simp
      · simpa [Function.update_of_ne hx, Function.update_of_ne hy] using R.disjoint x y hxy
  · intro c hc
    by_cases hck : c ∈ own k
    · exact absurd (show dropChunks h.chunkAt (own k) c = none from if_pos hck) hc
    · obtain ⟨k', hk'⟩ := R.owned c (by rwa [← dropChunks_of_notMem (f := h.chunkAt) hck])
      refine ⟨k', ?_⟩
      rw [Function.update_of_ne (by rintro rfl; exact hck hk')]
      exact hk'

/-- Dropping the last reference: the stack leaves the list and the heap. -/
theorem stackDecref_last (R : HeapRep h a own) {k : StackId} {im : Image}
    (him : a.img k = some im) (hlast : im.refcount ≤ 1) :
    ∃ h' own', stackDecref h (some k) = .ok h' ∧
      HeapRep h' ⟨Function.update a.img k none, a.prev.erase k⟩ own' ∧
      h'.allocs = h.allocs ∧ h'.nextStack = h.nextStack := by
  obtain ⟨st, hst, hrep⟩ := R.stack k im him
  have href : ¬ 0 < st.refcount - 1 := by rw [hrep.refcount]; omega
  have R₁ := R.setRefcount hst him (st.refcount - 1)
  have hlink : h.links.prev k = st.prev := by simp [Heap.links, hst]
  -- the rest of the function, once the stack is in no list
  have hfinish : ∀ h₂, HeapRep h₂ ⟨Function.update a.img k
        (some { im with refcount := st.refcount - 1 }), a.prev.erase k⟩ own →
      Relinked (h.setStack k { st with refcount := st.refcount - 1 }) h₂ →
      ∃ h' own', (do
        let tsize := stackHeader + st.chunk.data.length
        let stats := h₂.stats.subAlloc tsize
        chunkDecref h₂.nextChunk { h₂ with
          stackAt := Function.update h₂.stackAt k none
          stats := { stats with
            stackCount := stats.stackCount - 1
            stackChunkCount := stats.stackChunkCount - 1
            stackBytes := stats.stackBytes - tsize } } st.chunk.next : Res Heap) = .ok h' ∧
        HeapRep h' ⟨Function.update a.img k none, a.prev.erase k⟩ own' ∧
        h'.allocs = h.allocs ∧ h'.nextStack = h.nextStack := by
    intro h₂ R₂ hr
    obtain ⟨st₂, hst₂, -⟩ := R₂.stack k _ (Function.update_self ..)
    have hk₂ : k ∉ a.prev.erase k := (R.list.nodup).not_mem_erase
    have hchain : Chain h₂.chunkAt st.chunk.next (im.near + im.first.length) (own k) im.rest := by
      rw [hr.chunk]
      exact hrep.chain
    have hfuel : (own k).length ≤ h₂.nextChunk := by
      rw [hr.nextChunk]
      exact R.own_length k
    obtain ⟨stats, hfree⟩ := chunkDecref_spec (h := { h₂ with
        stackAt := Function.update h₂.stackAt k none
        stats := { h₂.stats.subAlloc (stackHeader + st.chunk.data.length) with
          stackCount := (h₂.stats.subAlloc (stackHeader + st.chunk.data.length)).stackCount - 1
          stackChunkCount :=
            (h₂.stats.subAlloc (stackHeader + st.chunk.data.length)).stackChunkCount - 1
          stackBytes := (h₂.stats.subAlloc (stackHeader + st.chunk.data.length)).stackBytes -
            (stackHeader + st.chunk.data.length) } }) _ hchain (R.nodup k) hfuel
    refine ⟨_, Function.update own k [], hfree, ?_, hr.allocs, hr.nextStack⟩
    have R₃ := R₂.remove (Function.update_self ..) hst₂ hk₂ stats
    rw [Function.update_idem] at R₃
    exact R₃
  simp only [stackDecref, Heap.stack, hst, bind, Except.bind, if_neg href]
  by_cases hp : st.prev = none
  · have hk : k ∉ a.prev := by rw [R.list.mem_iff, hlink]; simpa using hp
    simp only [if_pos hp, pure, Except.pure]
    exact hfinish _ (by rw [List.erase_of_not_mem hk]; exact R₁) (Relinked.refl _)
  · have hk : k ∈ a.prev := by rw [R.list.mem_iff, hlink]; exact hp
    obtain ⟨h₂, heq, R₂, hr, -⟩ := stackUnlink_spec R₁ hk
    simp only [if_neg hp, heq]
    exact hfinish h₂ R₂ hr

/-! ## Saving up to a boundary -/

theorem min_eq_ite (far F : Nat) : (if decide (far ≤ F) = true then far else F) = min far F := by
  simp [Nat.min_def]

theorem stackSaveto_spec (k : Frame) {near far F : Nat} (hfin : min far F ≠ spFurthest) :
    stackSaveto h m k near far F =
      .ok ((stackNew h m k near far (min far F - near)).1,
        (stackNew h m k near far (min far F - near)).2, decide (far ≤ F)) := by
  simp only [stackSaveto, min_eq_ite, require_of hfin, bind, Except.bind, pure, Except.pure]

theorem stackGrowto_spec (m : Memory) (main : Option StackId) (failOk : Bool)
    (R : HeapRep h a own) {k : StackId} {im : Image} {F : Nat} (him : a.img k = some im)
    (hd : im.defunct = false)
    (hpart : im.top < im.far) (hfin : min im.far F ≠ spFurthest) {r : Option Image × List Bool}
    (hr : im.growto m F (failOk || decide (main = some k)) h.allocs = r) :
    ∃ h' own' full, stackGrowto h m main k F failOk = .ok (h', ⟨r.1.isNone, full⟩) ∧
      HeapRep h' { a with img := r.1.elim a.img fun im' => Function.update a.img k (some im') }
        own' ∧
      h'.allocs = r.2 ∧ h'.nextStack = h.nextStack ∧
      ∀ im', r.1 = some im' → full = !decide (im'.Stays F) := by
  obtain ⟨st, hst, hrep⟩ := R.stack k im him
  have hsaved : st.saved = im.data.length := by
    rw [hrep.saved, Image.saved_of_not_defunct hd]
  have htop : im.top = im.near + im.data.length := Image.top_of_not_defunct hd
  have hassert : im.far = spFurthest ∨ st.saved < im.far - im.near := by
    right
    omega
  have hstays : ∀ im' : Image, im'.defunct = false → im'.far = im.far →
      decide (im.far ≤ F) = !decide (im'.Stays F) := by
    intro im' hd' hfar'
    simp only [Image.Stays, hd', hfar', true_and]
    by_cases hle : im.far ≤ F
    · simp [hle]
    · simp [hle, Nat.lt_of_not_le hle]
  simp only [stackGrowto, Heap.stack, hst, bind, Except.bind, hrep.far, hrep.near,
    require_of hassert, min_eq_ite, require_of hfin]
  by_cases hcov : im.Covers F
  · rw [Image.growto, if_pos hcov] at hr
    have hle : min im.far F - im.near ≤ st.saved := by rw [Image.Covers] at hcov; omega
    have hself : Function.update a.img k (some im) = a.img := by
      rw [← him]; exact Function.update_eq_self k a.img
    subst hr
    simp only [if_pos hle, pure, Except.pure, Option.elim_some, hself]
    refine ⟨h, own, _, rfl, R, rfl, rfl, ?_⟩
    rintro im' ⟨⟩
    exact hstays im hd rfl
  · have hle : ¬ min im.far F - im.near ≤ st.saved := by rw [Image.Covers] at hcov; omega
    obtain ⟨h₁, hgrow, hal, hns, hcase⟩ := stackGrow_spec (m := m) R him hd hcov
    simp only [if_neg hle, hgrow]
    rw [Image.growto, if_neg hcov] at hr
    rcases hnext : nextAlloc h.allocs with ⟨ok, rest⟩
    rw [hnext] at hr hal hcase
    cases ok with
    | true =>
        obtain ⟨own₁, R₁⟩ := hcase
        subst hr
        refine ⟨h₁, own₁, _, rfl, R₁, hal, hns, ?_⟩
        rintro im' ⟨⟩
        exact hstays _ (by simpa using hd) rfl
    | false =>
        simp only [Bool.false_eq_true, if_false] at hcase
        cases hf : failOk with
        | true =>
            rw [hf] at hr
            subst hr
            simp only [if_true, Bool.false_eq_true, if_false, pure, Except.pure]
            exact ⟨h₁, own, _, rfl, hcase, hal, hns, by simp⟩
        | false =>
            by_cases hm : main = some k
            · rw [hf] at hr
              simp only [hm, decide_true, Bool.or_true, if_true] at hr
              subst hr
              simp only [hm, if_true, Bool.false_eq_true, if_false, pure, Except.pure]
              exact ⟨h₁, own, _, rfl, hcase, hal, hns, by simp⟩
            · rw [hf] at hr
              simp only [hm, decide_false, Bool.or_false, Bool.false_eq_true, if_false] at hr
              subst hr
              obtain ⟨h₂, own₂, hdef, R₂, hal₂, hns₂⟩ := stackDefunct_spec hcase him
              simp only [hm, if_false, Bool.false_eq_true, hdef, pure, Except.pure]
              refine ⟨h₂, own₂, _, rfl, R₂, hal₂.trans hal, hns₂.trans hns, ?_⟩
              rintro im' ⟨⟩
              simp [Image.Stays]

/-- What the growth of a list member relies on. -/
structure Growable (target : Option StackId) (F : Nat) (failOk : Bool) (k : StackId)
    (im : Image) : Prop where
  live : im.defunct = false
  partial_ : im.top < im.far
  finite : ¬ (target = some k ∧ im.refcount ≤ 1) → min im.far F ≠ spFurthest
  target_far : target = some k → 1 < im.refcount → failOk = true → im.far ≤ F

theorem HeapRep.next_eq (R : HeapRep h a own) {front back : List StackId} {k : StackId}
    (hl : a.prev = front ++ k :: back) : h.links.next k = back.head? := by
  have hrep := R.list
  rw [hl] at hrep
  exact hrep.next_of_append

/-- The loop: `front` is what earlier rounds kept. -/
theorem stackGrowList_spec (main : Option StackId) (failOk : Bool) (front : List StackId)
    {target : Option StackId} {F fuel : Nat} {l : List StackId} (R : HeapRep h a own)
    (hl : a.prev = front ++ l) (hfuel : l.length ≤ fuel)
    (hok : ∀ k ∈ l, ∀ im, a.img k = some im → Growable target F failOk k im) :
    ∃ h' own', stackGrowList m main F target failOk fuel h l.head? =
        .ok (h', (growList m main target F failOk l a.img h.allocs).failed) ∧
      HeapRep h' ⟨(growList m main target F failOk l a.img h.allocs).img,
        front ++ (growList m main target F failOk l a.img h.allocs).keep⟩ own' ∧
      h'.allocs = (growList m main target F failOk l a.img h.allocs).allocs ∧
      h'.nextStack = h.nextStack := by
  induction l generalizing h a own front fuel with
  | nil =>
      rw [List.append_nil] at hl
      subst hl
      refine ⟨h, own, ?_, by simpa [growList] using R, rfl, rfl⟩
      cases fuel <;> rfl
  | cons k ks ih =>
      obtain ⟨fuel, rfl⟩ : ∃ n, fuel = n + 1 := ⟨fuel - 1, by simp at hfuel; omega⟩
      have hk : k ∈ a.prev := by rw [hl]; simp
      obtain ⟨im, him⟩ := R.img_of_mem hk
      obtain ⟨st, hst, hrep⟩ := R.stack k im him
      have hgr := hok k (by simp) im him
      have hnd : (front ++ k :: ks).Nodup := hl ▸ R.list.nodup
      have hkf : k ∉ front := fun hm => (List.nodup_append.mp hnd).2.2 k hm k (by simp) rfl
      have hkks : k ∉ ks := (List.nodup_cons.mp (List.nodup_append.mp hnd).2.1).1
      have herase : a.prev.erase k = front ++ ks := by
        rw [hl, List.erase_append_right _ hkf, List.erase_cons_head]
      by_cases hun : target = some k ∧ im.refcount ≤ 1
      · obtain ⟨h', heq, R', hr, -⟩ := stackUnlink_spec R hk
        have href : ¬ 1 < st.refcount := by rw [hrep.refcount]; omega
        rw [herase] at R'
        rw [growList_target him hun]
        refine ⟨h', own, ?_, R', hr.allocs, hr.nextStack⟩
        simp [stackGrowList, hun.1, Heap.stack, hst, bind, Except.bind, href, heq, pure,
          Except.pure]
      · obtain ⟨h₁, own₁, full, hgrow, R₁, hal₁, hns₁, hfull⟩ :=
          stackGrowto_spec m main failOk R him hgr.live hgr.partial_ (hgr.finite hun) rfl
        rcases hg : im.growto m F (failOk || decide (main = some k)) h.allocs with ⟨r, rest⟩
        rw [hg] at hgrow R₁ hal₁ hfull
        cases r with
        | none =>
            rw [growList_failed him hun hg]
            refine ⟨h₁, own₁, ?_, hl ▸ R₁, hal₁, hns₁⟩
            by_cases ht : target = some k
            · have hlt : 1 < im.refcount := Nat.lt_of_not_le fun hle => hun ⟨ht, hle⟩
              have href : 1 < st.refcount := by rw [hrep.refcount]; exact hlt
              simp [stackGrowList, ht, Heap.stack, hst, bind, Except.bind, href, hgrow, pure,
                Except.pure]
            · simp [stackGrowList, ht, bind, Except.bind, hgrow, pure, Except.pure]
        | some im' =>
            simp only [Option.elim_some, Option.isNone_some] at R₁ hgrow
            have hfull := hfull im' rfl
            by_cases ht : target = some k
            · have hlt : 1 < im.refcount := Nat.lt_of_not_le fun hle => hun ⟨ht, hle⟩
              have href : 1 < st.refcount := by rw [hrep.refcount]; exact hlt
              have hass : failOk = true → full = true := by
                intro hf
                have hle := hgr.target_far ht hlt hf
                have hfar : im'.far = im.far := (Image.growto_kept hg).far
                have hns : ¬ im'.Stays F := fun hs => by have := hs.2; omega
                simpa [hns] using hfull
              obtain ⟨h₂, heq, R₂, hr, -⟩ := stackUnlink_spec R₁ hk
              rw [growList_shared him hun hg ht]
              simp only [herase] at R₂
              refine ⟨h₂, own₁, ?_, R₂, hr.allocs.trans hal₁, hr.nextStack.trans hns₁⟩
              simp [stackGrowList, ht, Heap.stack, hst, bind, Except.bind, href, hgrow,
                require_of hass, heq, pure, Except.pure]
            · rw [growList_next him hg ht]
              have hok' : ∀ x ∈ ks, ∀ imx, Function.update a.img k (some im') x = some imx →
                  Growable target F failOk x imx := by
                intro x hx imx himx
                rw [Function.update_of_ne (by rintro rfl; exact hkks hx)] at himx
                exact hok x (List.mem_cons_of_mem _ hx) imx himx
              have hnext₁ : h₁.links.next k = ks.head? := R₁.next_eq hl
              by_cases hs : im'.Stays F
              · obtain ⟨h₂, own₂, hrun, R₂, hal₂, hns₂⟩ := ih (front ++ [k]) R₁
                  (by simpa using hl) (by simpa using hfuel) hok'
                obtain ⟨st₁, hst₁, -⟩ := R₁.stack k im' (Function.update_self ..)
                have hstn : st₁.next = ks.head? := by
                  simpa [Heap.links, hst₁] using hnext₁
                rw [hal₁] at hrun R₂ hal₂
                refine ⟨h₂, own₂, ?_, ?_, hal₂, hns₂.trans hns₁⟩
                · simpa [stackGrowList, ht, bind, Except.bind, hgrow, hfull, hs, Heap.stack,
                    hst₁, hstn, pure, Except.pure] using hrun
                · simpa [if_pos hs] using R₂
              · obtain ⟨h₂, heq, R₂, hr, hnext₂⟩ := stackUnlink_spec R₁ hk
                simp only [herase] at R₂
                obtain ⟨h₃, own₃, hrun, R₃, hal₃, hns₃⟩ := ih front R₂ rfl
                  (by simpa using hfuel) hok'
                obtain ⟨st₂, hst₂, -⟩ := R₂.stack k im' (Function.update_self ..)
                have hstn : st₂.next = ks.head? := by
                  rw [hnext₁] at hnext₂
                  simpa [Heap.links, hst₂] using hnext₂
                rw [hr.allocs, hal₁] at hrun R₃ hal₃
                refine ⟨h₃, own₃, ?_, ?_, hal₃, (hns₃.trans hr.nextStack).trans hns₁⟩
                · simpa [stackGrowList, ht, bind, Except.bind, hgrow, hfull, hs, heq, Heap.stack,
                    hst₂, hstn, pure, Except.pure] using hrun
                · simpa [if_neg hs] using R₃

end Routines

end Tealet
