import Mathlib.Data.Set.Card
import Tealet.Trace

/-!
# Reference counts and release

In runs without a transfer under PANIC the reference counts are exact: no
reference is leaked (`Core` with nothing leaked), so every saved stack has
an owner, and a heap without owners is empty. Allocations and transfers
may fail, and any tealet may become defunct.
-/

namespace Tealet

open DList Slice Hoare Refs

/-- The chunks reached from a `next` field. -/
inductive Reach (f : ChunkId → Option Chunk) : Option ChunkId → ChunkId → Prop where
  | here (c : ChunkId) : Reach f (some c) c
  | next {c c' : ChunkId} {ck : Chunk} (h : f c = some ck) (hr : Reach f ck.next c') :
      Reach f (some c) c'

/-- `c` is an extra chunk of the stack `k`. -/
def Heap.Holds (h : Heap) (k : StackId) (c : ChunkId) : Prop :=
  ∃ st, h.stackAt k = some st ∧ Reach h.chunkAt st.chunk.next c

/-- The live records whose stack is `k`. -/
def State.owners (s : State) (k : StackId) : Set TealetId :=
  {t | ∃ r, s.tealets t = some r ∧ r.stack = some k}

/-- The heap is accounted for by the records. -/
structure State.Accounted (s : State) : Prop where
  counted : ∀ k st, s.heap.stackAt k = some st → st.refcount = (s.owners k).ncard
  positive : ∀ k st, s.heap.stackAt k = some st → 1 ≤ st.refcount
  owned : ∀ t r k, s.tealets t = some r → r.stack = some k → s.heap.stackAt k ≠ none
  chunks : ∀ c, s.heap.chunkAt c ≠ none → ∃! k, s.heap.Holds k c
  chained : ∀ k c, s.heap.Holds k c → s.heap.chunkAt c ≠ none
  prev : ∃ l, s.heap.links.Rep l ∧ ∀ k ∈ l, s.heap.stackAt k ≠ none

theorem Chain.reach_iff {f : ChunkId → Option Chunk} {cur : Option ChunkId} {near : Nat}
    {cs : List ChunkId} {ds : List (List Byte)} (h : Chain f cur near cs ds) {c : ChunkId} :
    Reach f cur c ↔ c ∈ cs := by
  induction cs generalizing cur near ds with
  | nil =>
      obtain ⟨rfl, -⟩ := h
      exact ⟨nofun, nofun⟩
  | cons x xs ih =>
      obtain ⟨ck, d, ds', rfl, rfl, hck, -, -, -, hrest⟩ := h
      constructor
      · intro hr
        cases hr with
        | here => simp
        | next hx hr =>
            obtain rfl := Option.some.inj (hck.symm.trans hx)
            exact List.mem_cons_of_mem _ ((ih hrest).mp hr)
      · intro hc
        rcases List.mem_cons.mp hc with rfl | hc
        · exact .here c
        · exact .next hck ((ih hrest).mpr hc)

theorem HeapRep.holds_iff {h : Heap} {a : Saved} {own : StackId → List ChunkId}
    (H : HeapRep h a own) {k : StackId} {c : ChunkId} : h.Holds k c ↔ c ∈ own k := by
  cases him : a.img k with
  | none =>
      obtain ⟨hnone, hown⟩ := H.gone k him
      rw [hown]
      refine ⟨?_, nofun⟩
      rintro ⟨st, hst, -⟩
      rw [hnone] at hst
      cases hst
  | some im =>
      obtain ⟨st, hst, hrep⟩ := H.stack k im him
      constructor
      · rintro ⟨st', hst', hr⟩
        obtain rfl := Option.some.inj (hst.symm.trans hst')
        exact hrep.chain.reach_iff.mp hr
      · exact fun hc => ⟨st, hst, hrep.chain.reach_iff.mpr hc⟩

/-- The number of owners, as the reference counts count them. -/
theorem ncard_owners {leak : StackId → Nat} {s : State} {a : Saved} (I : Inv leak s a)
    (k : StackId) : (s.owners k).ncard = (s.view a).refs k := by
  have hset : s.owners k = ((Finset.range s.nextTealet).filter
      fun t => (s.view a).stackOf t = some k : Finset TealetId) := by
    ext t
    simp only [State.owners, Finset.coe_filter, Finset.mem_range]
    constructor
    · rintro ⟨r, hr, hk⟩
      exact ⟨I.core.lt_nextTealet hr, (stackOf_eq (v := s.view a) hr).trans hk⟩
    · rintro ⟨-, h⟩
      exact tealets_of_stackOf h
  rw [hset, Set.ncard_coe_finset]
  rfl

theorem Inv.accounted {s : State} {a : Saved} (I : Inv (fun _ => 0) s a) : s.Accounted := by
  obtain ⟨own, H⟩ := I.rep
  refine ⟨?_, ?_, ?_, ?_, ?_, a.prev, H.list, ?_⟩
  · intro k st hst
    obtain ⟨im, him, hrep⟩ := H.stackAt_isSome hst
    rw [hrep.refcount, ncard_owners I k]
    exact (I.core.counted k im him).symm
  · intro k st hst
    obtain ⟨im, him, hrep⟩ := H.stackAt_isSome hst
    rw [hrep.refcount]
    exact (I.core.image k im him).positive
  · intro t r k hr hk
    obtain ⟨im, him, -⟩ := I.core.owned t r k hr hk
    obtain ⟨st, hst, -⟩ := H.stack k im him
    simp [hst]
  · intro c hc
    obtain ⟨k, hk⟩ := H.owned c hc
    refine ⟨k, H.holds_iff.mpr hk, fun k' hk' => ?_⟩
    by_contra hne
    exact H.disjoint k' k hne (H.holds_iff.mp hk') hk
  · intro k c hc
    have hown := H.holds_iff.mp hc
    obtain ⟨st, hst, -⟩ := hc
    obtain ⟨im, him, hrep⟩ := H.stackAt_isSome hst
    exact hrep.chain.alive c hown
  · intro k hk
    obtain ⟨im, him, -⟩ := I.core.listed k hk
    obtain ⟨st, hst, -⟩ := H.stack k im him
    simp [hst]

/-- Without owners the heap is empty. -/
theorem Inv.released {s : State} {a : Saved} (I : Inv (fun _ => 0) s a)
    (hdel : ∀ t, t ≠ mainId → s.tealets t = none) (hmain : s.gCurrent = mainId) :
    (∀ k, s.heap.stackAt k = none) ∧ ∀ c, s.heap.chunkAt c = none := by
  obtain ⟨own, H⟩ := I.rep
  have himg : ∀ k, a.img k = none := by
    intro k
    by_contra hk
    obtain ⟨im, him⟩ := Option.ne_none_iff_exists'.mp hk
    have hc := I.core.counted k im him
    have hpos := (I.core.image k im him).positive
    have hrefs : 0 < (s.view a).refs k := by omega
    obtain ⟨t, -, ht⟩ := exists_of_holders_pos hrefs
    obtain ⟨r, hr, hrk⟩ := tealets_of_stackOf ht
    by_cases htm : t = mainId
    · subst htm
      have hs := (I.sched.current_of (c := r) (by rw [← hmain] at hr; exact hr)).2
      rw [hs] at hrk
      cases hrk
    · have hr : s.tealets t = some r := hr
      rw [hdel t htm] at hr
      cases hr
  refine ⟨fun k => (H.gone k (himg k)).1, fun c => ?_⟩
  by_contra hc
  obtain ⟨k, hk⟩ := H.owned c hc
  rw [(H.gone k (himg k)).2] at hk
  cases hk

/-- The calls of runs without transfers under PANIC. -/
def NoPanic (s : State) (e : Event) : Prop := Legal s e ∧ e.PanicFree s

theorem references_exact {mem : Memory} {env : Env} {s : State}
    (h : Run NoPanic (initial mem env) s) :
    s.Accounted ∧
      (∀ e f, NoPanic s e → step s e = .error f → f ≠ .freed ∧ f.internal = false) ∧
      ((∀ t, t ≠ mainId → s.tealets t = none) → s.gCurrent = mainId →
        (∀ k, s.heap.stackAt k = none) ∧ ∀ c, s.heap.chunkAt c = none) := by
  obtain ⟨leak, a, I, hleak⟩ := h.inv' True fun s e he => ⟨he.1, he.2.resumes⟩
  obtain rfl := hleak True.intro
  refine ⟨I.accounted, ?_, I.released⟩
  intro e f he hf
  have hsafe := (step_spec True (E := fun f => f.internal = false) I he.1
    (fun _ hf => hf) he.2.resumes (.inr ⟨True.intro, he.2.callers⟩)).fault hf
  refine ⟨?_, hsafe⟩
  rintro rfl
  cases hsafe

/-- Main starts a tealet that switches back and is duplicated, and frees the original. -/
theorem references_exact_duplicate : ∃ s, Run NoPanic (initial (fun _ => 0) {}) s ∧
    (s.tealets 2).bind TealetSub.stack = some 1 ∧ s.Accounted := by
  obtain ⟨s, hrun, hs⟩ := exists_run_of_trace (P := NoPanic)
    (p := fun s e => e.legal s && e.panicFree s)
    (fun s e h => by
      obtain ⟨h₁, h₂⟩ := Bool.and_eq_true_iff.mp h
      exact ⟨Event.legal_spec h₁, Event.panicFree_spec h₂⟩)
    [.call .new [] [], .call (.run 1 7 none null true ⟨1000, 990⟩) [] [],
      .call (.switch 0 none {} 900) [] [], .call (.duplicate 1) [] [], .call (.delete 1) [] []]
    (s := initial (fun _ => 0) {})
    (fun s => decide ((s.tealets 2).bind TealetSub.stack = some 1)) (by decide +kernel)
  exact ⟨s, hrun, of_decide_eq_true hs, (references_exact hrun).1⟩

end Tealet
