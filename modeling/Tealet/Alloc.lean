import Mathlib.Logic.Relation
import Tealet.Base
import Tealet.Lib.Words

/-!
# Sizes of requests

A domain whose allocator is a `tealet_statsalloc` over a base allocator
that answers as it likes (`Serves` is all that is asked of it). The sizes
are added as `size_t`: once for a record (`tealet_alloc_raw`), once for the
header of the statistics. Neither addition is checked.

A request obtains a large enough block, or fails, exactly when its whole
size is a `size_t` or the base allocator refuses it
(`obtains_iff_fits`). As long as this is so the two counters are exact,
and the headers hold what a release subtracts (`Accurate.step`).
-/

namespace Tealet

open Slice Words Relation

/-! ## The layers of the allocator -/

/-- The machine's word and the places of `_extra` in the records. A
`size_t` fits in the 8 bytes of the header. -/
structure Layout where
  word : Nat
  word_pos : 0 < word
  word_le : word ≤ 8
  /-- `offsetof(tealet_main_t, _extra)` -/
  mainBase : Nat
  /-- `offsetof(tealet_nonmain_t, _extra)` -/
  subBase : Nat

/-- `SIZE_MAX + 1`. -/
def Layout.modulus (L : Layout) : Nat := 256 ^ L.word

/-- `tealet_statsalloc_t`, the memory, and the blocks the base allocator
has handed out. -/
structure StatsAlloc where
  nAllocs : Nat := 0
  sAllocs : Nat := 0
  mem : Memory := fun _ => 0
  blocks : List Block := []

/-- `TEALET_ALLOC_MALLOC(alloc->base, size)`; `answer` is what the base
allocator returns. -/
def baseMalloc (answer : Nat → Option Ptr) (a : StatsAlloc) (size : Nat) :
    StatsAlloc × Option Ptr :=
  match answer size with
  | none => (a, none)
  | some p => ({ a with blocks := ⟨p, size⟩ :: a.blocks }, some p)

/-- `TEALET_ALLOC_FREE(alloc->base, ptr)`. -/
def baseFree (a : StatsAlloc) (ptr : Ptr) : StatsAlloc :=
  { a with blocks := a.blocks.eraseP fun b => b.addr = ptr }

section Layers

variable (L : Layout) (answer : Nat → Option Ptr)

/-- `tealet_statsalloc_malloc`. -/
def statsallocMalloc (a : StatsAlloc) (size : Nat) : StatsAlloc × Option Ptr :=
  let nsize := (size + 8) % L.modulus
  match baseMalloc answer a nsize with
  | (a, none) => (a, none)
  | (a, some result) =>
      ({ a with
          nAllocs := (a.nAllocs + 1) % L.modulus
          sAllocs := (a.sAllocs + size) % L.modulus
          mem := writeSlice a.mem result (bytesOf L.word size) },
        some (result + 8))

/-- `tealet_statsalloc_free`. -/
def statsallocFree (a : StatsAlloc) (ptr : Ptr) : StatsAlloc :=
  if ptr = null then a
  else
    let ptr := ptr - 8
    let size := readWord a.mem ptr L.word
    let a := { a with
      nAllocs := (a.nAllocs + L.modulus - 1) % L.modulus
      sAllocs := (a.sAllocs + L.modulus - size) % L.modulus }
    baseFree a ptr

/-- `tealet_alloc_raw`: the record. -/
def tealetAllocRaw (a : StatsAlloc) (basesize extrasize : Nat) : StatsAlloc × Option Ptr :=
  let size := (basesize + extrasize) % L.modulus
  statsallocMalloc L answer a size

/-- `g->base.extra` of a record with `extrasize` extra bytes. -/
def recordExtra (g : Ptr) (basesize extrasize : Nat) : Ptr :=
  if extrasize = 0 then null else g + basesize

end Layers

/-! ## A domain -/

/-- A pointer the domain has handed out, and what was asked for:
`extrasize` bytes from `basesize` on. A block of `tealet_malloc` has no
record in front. -/
structure Grant where
  ptr : Nat
  basesize : Nat
  extrasize : Nat
deriving DecidableEq, Repr

def Grant.size (g : Grant) : Nat := g.basesize + g.extrasize

/-- A block with just the header and what was asked for. -/
def Grant.block (g : Grant) : Block := ⟨g.ptr - 8, 8 + g.size⟩

def Grant.Apart (g g' : Grant) : Prop := g.block.Apart g'.block

instance : Std.Symm Grant.Apart := ⟨fun _ _ h => h.symm⟩

structure Domain where
  alloc : StatsAlloc := {}
  /-- the main record and `g_extrasize` -/
  main : Option (Ptr × Nat) := none
  /-- what was handed out and not freed, the newest first -/
  out : List Grant := []

/-- The calls that allocate or free. `malloc` is `tealet_malloc`, or the
`tealet_int_malloc` of a stack, a chunk or a snapshot workspace. -/
inductive MemCall where
  | init (extrasize : Nat)
  | new
  | duplicate (src : Ptr)
  | malloc (size : Nat)
  | free (ptr : Ptr)
deriving DecidableEq, Repr

namespace Domain

/-- What a request asks for: the bytes in front of the payload, and the
payload. -/
def wants (L : Layout) (d : Domain) : MemCall → Option (Nat × Nat)
  | .init extrasize => some (L.mainBase, extrasize)
  | .new | .duplicate _ => d.main.map fun main => (L.subBase, main.2)
  | .malloc size => some (0, size)
  | .free _ => none

/-- The pointer an allocation returned is handed out. -/
def handOut (d : Domain) (basesize extrasize : Nat) : StatsAlloc × Option Ptr → Domain × Option Ptr
  | (a, none) => ({ d with alloc := a }, none)
  | (a, some g) => ({ d with alloc := a, out := ⟨g, basesize, extrasize⟩ :: d.out }, some g)

section Requests

variable (L : Layout) (answer : Nat → Option Ptr)

/-- `tealet_initialize`. -/
def init (d : Domain) (extrasize : Nat) : Domain × Option Ptr :=
  match d.handOut L.mainBase extrasize (tealetAllocRaw L answer d.alloc L.mainBase extrasize) with
  | (d, none) => (d, none)
  | (d, some g) => ({ d with main := some (g, extrasize) }, some g)

/-- `tealet_alloc`, for `tealet_new`. -/
def allocRecord (d : Domain) (extrasize : Nat) : Domain × Option Ptr :=
  d.handOut L.subBase extrasize (tealetAllocRaw L answer d.alloc L.subBase extrasize)

/-- `tealet_duplicate`, as far as it copies the extra area. -/
def duplicate (d : Domain) (extrasize : Nat) (src : Ptr) : Domain × Option Ptr :=
  match d.allocRecord L answer extrasize with
  | (d, none) => (d, none)
  | (d, some copy) =>
      let extra := readSlice d.alloc.mem (recordExtra src L.subBase extrasize) extrasize
      let mem := writeSlice d.alloc.mem (recordExtra copy L.subBase extrasize) extra
      (if extrasize = 0 then d else { d with alloc := { d.alloc with mem := mem } }, some copy)

/-- `tealet_malloc`. -/
def malloc (d : Domain) (size : Nat) : Domain × Option Ptr :=
  d.handOut 0 size (statsallocMalloc L answer d.alloc size)

/-- `tealet_free`, `tealet_delete` of a record, `tealet_finalize` of main's. -/
def free (d : Domain) (ptr : Ptr) : Domain :=
  { alloc := statsallocFree L d.alloc ptr
    main := d.main.filter fun main => main.1 ≠ ptr
    out := d.out.eraseP fun g => g.ptr = ptr }

def exec (d : Domain) : MemCall → Domain × Option Ptr
  | .init extrasize => d.init L answer extrasize
  | .new =>
      match d.main with
      | none => (d, none)
      | some main => d.allocRecord L answer main.2
  | .duplicate src =>
      match d.main with
      | none => (d, none)
      | some main => d.duplicate L answer main.2 src
  | .malloc size => d.malloc L answer size
  | .free ptr => (d.free L ptr, none)

end Requests

/-- The call is one the interface allows: a `size_t` is passed, `duplicate`
gets a record, `free` a pointer that was handed out, or `NULL`. -/
def Legal (L : Layout) (d : Domain) : MemCall → Prop
  | .init extrasize => d.main = none ∧ extrasize < L.modulus
  | .new => d.main ≠ none
  | .duplicate src => ∃ main, d.main = some main ∧ ⟨src, L.subBase, main.2⟩ ∈ d.out
  | .malloc size => size < L.modulus
  | .free ptr => ptr = null ∨ ∃ g ∈ d.out, g.ptr = ptr

/-- The whole request is a `size_t`, or the base allocator refuses it. -/
def Fits (L : Layout) (d : Domain) (answer : Nat → Option Ptr) (r : MemCall) : Prop :=
  ∀ basesize extrasize, d.wants L r = some (basesize, extrasize) →
    answer ((basesize + extrasize + 8) % L.modulus) = none ∨ basesize + extrasize + 8 < L.modulus

/-- The call fails, or the base allocator's block has room for the header
and all of the payload. -/
def Obtains (L : Layout) (d : Domain) (answer : Nat → Option Ptr) (r : MemCall) : Prop :=
  ∀ basesize extrasize p : Nat, d.wants L r = some (basesize, extrasize) →
    (d.exec L answer r).2 = some p →
    ∃ b, (d.exec L answer r).1.alloc.blocks = b :: d.alloc.blocks ∧ b.addr + 8 = p ∧
      p + basesize + extrasize ≤ b.addr + b.len

/-- The bytes of the domain's blocks that its users may write, and the
memory that is in none of its blocks. -/
def Writable (d : Domain) (x : Nat) : Prop :=
  (∃ g ∈ d.out, g.ptr ≤ x ∧ x < g.ptr + g.size) ∨
    ∀ b ∈ d.alloc.blocks, x < b.addr ∨ b.addr + b.len ≤ x

end Domain

/-- The contract of the base allocator: its blocks are apart, none is at
`NULL`, and one past the end of a block is an address. -/
def Serves (L : Layout) (a : StatsAlloc) (answer : Nat → Option Ptr) : Prop :=
  ∀ n p : Nat, answer n = some p → 0 < p ∧ p + n < L.modulus ∧ ∀ b ∈ a.blocks, Block.Apart ⟨p, n⟩ b

/-! ## One request -/

section MemCall

variable {L : Layout} {answer : Nat → Option Ptr} {d d' : Domain} {r : MemCall}
  {basesize extrasize n q : Nat}

/-- What an allocation does when the base allocator answers with `q` to
the request for `n` bytes. -/
structure Got (L : Layout) (d : Domain) (basesize extrasize n q : Nat) (d' : Domain) : Prop where
  blocks : d'.alloc.blocks = ⟨q, n⟩ :: d.alloc.blocks
  out : d'.out = ⟨q + 8, basesize, extrasize⟩ :: d.out
  nAllocs : d'.alloc.nAllocs = (d.alloc.nAllocs + 1) % L.modulus
  sAllocs : d'.alloc.sAllocs =
    (d.alloc.sAllocs + (basesize + extrasize) % L.modulus) % L.modulus
  header : readWord d'.alloc.mem q L.word = (basesize + extrasize) % L.modulus
  mem : ∀ x, x < q ∨ q + 8 + basesize + extrasize ≤ x → d'.alloc.mem x = d.alloc.mem x

theorem statsallocMalloc_none {a : StatsAlloc} {size : Nat}
    (hans : answer ((size + 8) % L.modulus) = none) :
    statsallocMalloc L answer a size = (a, none) := by
  rw [statsallocMalloc, baseMalloc, hans]

theorem handOut_none : d.handOut basesize extrasize (d.alloc, none) = (d, none) := rfl

theorem handOut_some {a : StatsAlloc} {size : Nat}
    (hsize : size = (basesize + extrasize) % L.modulus)
    (hans : answer ((size + 8) % L.modulus) = some q) (hd : a = d.alloc) :
    ∃ d', d.handOut basesize extrasize (statsallocMalloc L answer a size) = (d', some (q + 8)) ∧
      Got L d basesize extrasize ((size + 8) % L.modulus) q d' ∧ d'.main = d.main := by
  subst hd
  have hlt : size < 256 ^ L.word := hsize ▸ Nat.mod_lt _ (Nat.pow_pos (by decide))
  rw [statsallocMalloc, baseMalloc, hans]
  refine ⟨_, rfl, ⟨rfl, rfl, rfl, by rw [hsize], ?_, fun x hx => ?_⟩, rfl⟩
  · rw [← hsize]
    exact readWord_writeSlice _ _ _ _ hlt
  · have hword := L.word_le
    rcases hx with hx | hx
    · exact writeSlice_lt hx
    · exact writeSlice_ge (by rw [length_bytesOf]; omega)

/-- The copy of the extra area stays inside the record. -/
theorem Got.writeExtra {m : Memory} {bytes : List Byte} (G : Got L d basesize extrasize n q d')
    (hm : m = writeSlice d'.alloc.mem (q + 8 + basesize) bytes) (hlen : bytes.length = extrasize) :
    Got L d basesize extrasize n q { d' with alloc := { d'.alloc with mem := m } } := by
  have hword := L.word_le
  refine ⟨G.blocks, G.out, G.nAllocs, G.sAllocs, ?_, fun x hx => ?_⟩
  · rw [← G.header]
    exact readWord_congr fun x _ hx => hm ▸ writeSlice_lt (by omega)
  · rw [← G.mem x hx]
    dsimp only
    rcases hx with hx | hx
    · rw [hm, writeSlice_lt (by omega)]
    · rw [hm, writeSlice_ge (by omega)]

theorem exec_none (hwants : d.wants L r = some (basesize, extrasize))
    (hans : answer ((basesize + extrasize + 8) % L.modulus) = none) :
    d.exec L answer r = (d, none) := by
  have hrec : ((basesize + extrasize) % L.modulus + 8) % L.modulus =
      (basesize + extrasize + 8) % L.modulus := Nat.mod_add_mod ..
  cases r with
  | init e =>
      cases hwants
      rw [Domain.exec, Domain.init, tealetAllocRaw, statsallocMalloc_none (hrec ▸ hans)]
      rfl
  | new =>
      obtain ⟨main, hmain, heq⟩ := Option.map_eq_some_iff.mp hwants
      cases heq
      simp only [Domain.exec, hmain, Domain.allocRecord, tealetAllocRaw,
        statsallocMalloc_none (hrec ▸ hans), handOut_none]
  | duplicate src =>
      obtain ⟨main, hmain, heq⟩ := Option.map_eq_some_iff.mp hwants
      cases heq
      simp only [Domain.exec, hmain, Domain.duplicate, Domain.allocRecord, tealetAllocRaw,
        statsallocMalloc_none (hrec ▸ hans), handOut_none]
  | malloc size =>
      cases hwants
      rw [Nat.zero_add] at hans
      rw [Domain.exec, Domain.malloc, statsallocMalloc_none hans]
      rfl
  | free ptr => cases hwants

theorem exec_some (hlegal : d.Legal L r) (hwants : d.wants L r = some (basesize, extrasize))
    (hans : answer ((basesize + extrasize + 8) % L.modulus) = some q) :
    ∃ d', d.exec L answer r = (d', some (q + 8)) ∧
      Got L d basesize extrasize ((basesize + extrasize + 8) % L.modulus) q d' := by
  have hrec : ((basesize + extrasize) % L.modulus + 8) % L.modulus =
      (basesize + extrasize + 8) % L.modulus := Nat.mod_add_mod ..
  rw [← hrec] at hans ⊢
  cases r with
  | init e =>
      cases hwants
      obtain ⟨d', heq, G, -⟩ := handOut_some (d := d) rfl hans rfl
      rw [Domain.exec, Domain.init, tealetAllocRaw, heq]
      exact ⟨_, rfl, G.blocks, G.out, G.nAllocs, G.sAllocs, G.header, G.mem⟩
  | new =>
      obtain ⟨main, hmain, hpair⟩ := Option.map_eq_some_iff.mp hwants
      cases hpair
      obtain ⟨d', heq, G, -⟩ := handOut_some (d := d) rfl hans rfl
      simp only [Domain.exec, hmain, Domain.allocRecord, tealetAllocRaw, heq]
      exact ⟨_, rfl, G⟩
  | duplicate src =>
      obtain ⟨main, hmain, hpair⟩ := Option.map_eq_some_iff.mp hwants
      cases hpair
      obtain ⟨d', heq, G, -⟩ := handOut_some (d := d) rfl hans rfl
      simp only [Domain.exec, hmain, Domain.duplicate, Domain.allocRecord, tealetAllocRaw, heq]
      refine ⟨_, rfl, ?_⟩
      by_cases hzero : main.2 = 0
      · rw [if_pos hzero]
        exact G
      · rw [if_neg hzero]
        exact G.writeExtra (by rw [recordExtra, if_neg hzero]) (readSlice_length ..)
  | malloc size =>
      cases hwants
      rw [Nat.zero_add, Nat.mod_eq_of_lt hlegal] at hans ⊢
      have hsize : extrasize = (0 + extrasize) % L.modulus := by
        rw [Nat.zero_add, Nat.mod_eq_of_lt hlegal]
      obtain ⟨d', heq, G, -⟩ := handOut_some (d := d) hsize hans rfl
      exact ⟨d', heq, G⟩
  | free ptr => cases hwants

/-- A request obtains what it needs, or fails, exactly when it fits. -/
theorem obtains_iff_fits (hlegal : d.Legal L r) : d.Obtains L answer r ↔ d.Fits L answer r := by
  constructor
  · intro hobt basesize extrasize hwants
    cases hans : answer ((basesize + extrasize + 8) % L.modulus) with
    | none => exact .inl rfl
    | some q =>
        right
        obtain ⟨d', heq, G⟩ := exec_some hlegal hwants hans
        obtain ⟨b, hb, haddr, hroom⟩ := hobt basesize extrasize (q + 8) hwants (by rw [heq])
        rw [heq, G.blocks] at hb
        rw [← (List.cons.inj hb).1] at hroom
        have hle : basesize + extrasize + 8 ≤ (basesize + extrasize + 8) % L.modulus := by
          dsimp only at hroom
          omega
        exact Nat.lt_of_le_of_lt hle (Nat.mod_lt _ (Nat.pow_pos (by decide)))
  · intro hfits basesize extrasize p hwants hp
    rcases hfits basesize extrasize hwants with hans | hlt
    · rw [exec_none hwants hans] at hp
      cases hp
    · cases hans : answer ((basesize + extrasize + 8) % L.modulus) with
      | none =>
          rw [exec_none hwants hans] at hp
          cases hp
      | some q =>
          obtain ⟨d', heq, G⟩ := exec_some hlegal hwants hans
          rw [heq] at hp ⊢
          cases hp
          refine ⟨_, G.blocks, rfl, ?_⟩
          rw [Nat.mod_eq_of_lt hlt]
          dsimp only
          omega

end MemCall

/-! ## Runs -/

/-- The state of the books: every block is a header and what was asked for,
the header says how much that is, and the counters are exact. -/
structure Accurate (L : Layout) (d : Domain) : Prop where
  blocks : d.alloc.blocks = d.out.map Grant.block
  apart : d.out.Pairwise Grant.Apart
  bounded : ∀ g ∈ d.out, 8 < g.ptr ∧ g.ptr + g.size < L.modulus
  header : ∀ g ∈ d.out, readWord d.alloc.mem (g.ptr - 8) L.word = g.size
  nAllocs : d.alloc.nAllocs = d.out.length
  sAllocs : d.alloc.sAllocs = (d.out.map Grant.size).sum

/-- One step of a program: it writes to memory that is its own, or makes a
legal call; `ok` is what a run asks of its calls. -/
inductive DomainStep (L : Layout) (ok : Domain → (Nat → Option Ptr) → MemCall → Prop) :
    Domain → Domain → Prop
  | write {d : Domain} {m : Memory} (hm : ∀ x, ¬ d.Writable x → m x = d.alloc.mem x) :
      DomainStep L ok d { d with alloc := { d.alloc with mem := m } }
  | request {d : Domain} {answer : Nat → Option Ptr} {r : MemCall} (hlegal : d.Legal L r)
      (hserves : Serves L d.alloc answer) (hok : ok d answer r) :
      DomainStep L ok d (d.exec L answer r).1

section Runs

variable {L : Layout} {answer : Nat → Option Ptr} {d d' : Domain} {m : Memory} {r : MemCall}
  {basesize extrasize n q p : Nat}

/-- The blocks together are not longer than the address space. -/
theorem total_lt (hmod : 0 < L.modulus) {out : List Grant}
    (hapart : out.Pairwise Grant.Apart)
    (hbounded : ∀ g ∈ out, 8 < g.ptr ∧ g.ptr + g.size < L.modulus) :
    8 * out.length + (out.map Grant.size).sum < L.modulus := by
  have hsum : ((out.map Grant.block).map Block.len).sum =
      8 * out.length + (out.map Grant.size).sum := by
    clear hapart hbounded
    induction out with
    | nil => rfl
    | cons g out ih =>
        simp only [List.map_cons, List.sum_cons, List.length_cons, Grant.block] at ih ⊢
        omega
  have hle : ((out.map Grant.block).map Block.len).sum ≤ L.modulus - 1 := by
    apply sum_length_le
    · rw [List.pairwise_map]
      exact hapart
    · intro b hb
      obtain ⟨g, hg, rfl⟩ := List.mem_map.mp hb
      have := hbounded g hg
      simp only [Grant.block]
      omega
  omega

namespace Accurate

/-- A grant's header is in no payload, and in no memory outside the blocks. -/
theorem header_not_writable (A : Accurate L d) {g : Grant} (hg : g ∈ d.out) {x : Nat}
    (hlo : g.ptr - 8 ≤ x) (hhi : x < g.ptr) : ¬ d.Writable x := by
  have hgb := A.bounded g hg
  rintro (⟨g', hg', hlo', hhi'⟩ | hout)
  · have hgb' := A.bounded g' hg'
    by_cases heq : g = g'
    · subst heq
      omega
    · have hapart : g.block.Apart g'.block := A.apart.forall hg hg' heq
      simp only [Block.Apart, Grant.block] at hapart
      omega
  · have hx := hout g.block (A.blocks ▸ List.mem_map_of_mem hg)
    simp only [Grant.block] at hx
    omega

theorem write (A : Accurate L d) (hm : ∀ x, ¬ d.Writable x → m x = d.alloc.mem x) :
    Accurate L { d with alloc := { d.alloc with mem := m } } := by
  refine { A with header := fun g hg => ?_ }
  have hword := L.word_le
  have hgb := A.bounded g hg
  rw [← A.header g hg]
  refine readWord_congr fun x hlo hhi => hm x (A.header_not_writable hg hlo ?_)
  omega

theorem got (A : Accurate L d) (G : Got L d basesize extrasize (basesize + extrasize + 8) q d')
    (hserves : Serves L d.alloc answer) (hans : answer (basesize + extrasize + 8) = some q) :
    Accurate L d' := by
  obtain ⟨hq, hend, haparts⟩ := hserves _ _ hans
  have hmod : 0 < L.modulus := Nat.pow_pos (by decide)
  have hword := L.word_le
  have hsize : (basesize + extrasize) % L.modulus = basesize + extrasize :=
    Nat.mod_eq_of_lt (by omega)
  have hblock : (⟨q, basesize + extrasize + 8⟩ : Block) =
      Grant.block ⟨q + 8, basesize, extrasize⟩ := by
    simp only [Grant.block, Grant.size]
    congr 1
    omega
  have hapart : d'.out.Pairwise Grant.Apart := by
    rw [G.out, List.pairwise_cons]
    refine ⟨fun g hg => ?_, A.apart⟩
    rw [Grant.Apart, ← hblock]
    exact haparts _ (A.blocks ▸ List.mem_map_of_mem hg)
  have hbounded : ∀ g ∈ d'.out, 8 < g.ptr ∧ g.ptr + g.size < L.modulus := by
    rw [G.out]
    intro g hg
    rcases List.mem_cons.mp hg with rfl | hg
    · simp only [Grant.size]
      omega
    · exact A.bounded g hg
  have htotal := total_lt hmod hapart hbounded
  rw [G.out, List.map_cons, List.sum_cons, List.length_cons, Grant.size] at htotal
  dsimp only at htotal
  refine ⟨?_, hapart, hbounded, fun g hg => ?_, ?_, ?_⟩
  · rw [G.blocks, G.out, List.map_cons, A.blocks, hblock]
  · rw [G.out] at hg
    rcases List.mem_cons.mp hg with rfl | hg
    · exact G.header.trans hsize
    · rw [← A.header g hg]
      have hg' := haparts g.block (A.blocks ▸ List.mem_map_of_mem hg)
      have hgb := A.bounded g hg
      simp only [Block.Apart, Grant.block] at hg'
      refine readWord_congr fun x hlo hhi => G.mem x ?_
      omega
  · rw [G.nAllocs, G.out, A.nAllocs, List.length_cons]
    exact Nat.mod_eq_of_lt (by omega)
  · rw [G.sAllocs, G.out, A.sAllocs, hsize, List.map_cons, List.sum_cons, Grant.size,
      Nat.add_comm, Nat.mod_eq_of_lt (by omega)]

/-- A release subtracts what the request added, and gives the block back. -/
theorem free (A : Accurate L d) (hp : p = null ∨ ∃ g ∈ d.out, g.ptr = p) :
    Accurate L (d.free L p) := by
  rcases hp with rfl | ⟨g, hg, rfl⟩
  · have hkeep : d.out.eraseP (fun g => g.ptr = null) = d.out := by
      refine List.eraseP_of_forall_not fun g hg hg0 => ?_
      have hpos := (A.bounded g hg).1
      rw [of_decide_eq_true hg0] at hpos
      exact Nat.not_lt_zero _ hpos
    have halloc : statsallocFree L d.alloc null = d.alloc := if_pos rfl
    rw [Domain.free, hkeep, halloc]
    exact ⟨A.blocks, A.apart, A.bounded, A.header, A.nAllocs, A.sAllocs⟩
  · obtain ⟨g', front, back, hfront, hg', hout, herase⟩ :=
      List.exists_of_eraseP (p := fun x : Grant => decide (x.ptr = g.ptr)) hg (decide_eq_true rfl)
    have hptr : g'.ptr = g.ptr := of_decide_eq_true hg'
    have hg'mem : g' ∈ d.out := hout ▸ List.mem_append_right _ List.mem_cons_self
    have hsub : (front ++ back).Sublist d.out :=
      hout ▸ List.Sublist.append_left (List.sublist_cons_self ..) front
    have hgb := A.bounded g' hg'mem
    have hmod : 0 < L.modulus := Nat.pow_pos (by decide)
    have htotal := total_lt hmod A.apart A.bounded
    have hlength : d.out.length = (front ++ back).length + 1 := by
      rw [hout, List.length_append, List.length_append, List.length_cons, Nat.add_assoc]
    have hsum : (d.out.map Grant.size).sum = ((front ++ back).map Grant.size).sum + g'.size := by
      rw [hout]
      simp only [List.map_append, List.sum_append, List.map_cons, List.sum_cons]
      omega
    have hblocks : d.alloc.blocks.eraseP (fun b => b.addr = g.ptr - 8) =
        (front ++ back).map Grant.block := by
      rw [A.blocks, hout, List.map_append, List.map_cons, List.eraseP_append_right,
        List.eraseP_cons_of_pos, List.map_append]
      · rw [Grant.block, hptr]
        exact decide_eq_true rfl
      · intro b hb
        obtain ⟨x, hx, rfl⟩ := List.mem_map.mp hb
        have hxb := (A.bounded x (hout ▸ List.mem_append_left _ hx)).1
        have hne : x.ptr ≠ g.ptr := fun h => hfront x hx (decide_eq_true h)
        intro heq
        have haddr : x.ptr - 8 = g.ptr - 8 := of_decide_eq_true heq
        omega
    have hnull : ¬ g.ptr = null := by
      rw [null]
      omega
    have hsize : readWord d.alloc.mem (g.ptr - 8) L.word = g'.size := by
      rw [← hptr]
      exact A.header g' hg'mem
    simp only [Domain.free, statsallocFree, if_neg hnull, baseFree, hsize, hblocks, herase]
    refine ⟨rfl, A.apart.sublist hsub, fun x hx => A.bounded x (hsub.subset hx),
      fun x hx => A.header x (hsub.subset hx), ?_, ?_⟩
    · dsimp only
      rw [A.nAllocs, hlength, Nat.add_right_comm, Nat.add_sub_cancel, Nat.add_mod_right,
        Nat.mod_eq_of_lt (by omega)]
    · dsimp only
      rw [A.sAllocs, hsum, Nat.add_right_comm, Nat.add_sub_cancel, Nat.add_mod_right,
        Nat.mod_eq_of_lt (by omega)]

/-- What a request wants is what `Got` is about; `free` wants nothing. -/
theorem request (A : Accurate L d) (hlegal : d.Legal L r) (hserves : Serves L d.alloc answer)
    (hfits : d.Fits L answer r) : Accurate L (d.exec L answer r).1 := by
  rcases hwants : d.wants L r with _ | ⟨basesize, extrasize⟩
  · cases r with
    | init e => cases hwants
    | new =>
        rw [Domain.wants, Option.map_eq_none_iff] at hwants
        exact absurd hwants hlegal
    | duplicate src =>
        obtain ⟨main, hmain, -⟩ := hlegal
        rw [Domain.wants, hmain] at hwants
        cases hwants
    | malloc size => cases hwants
    | free ptr => exact A.free hlegal
  · cases hans : answer ((basesize + extrasize + 8) % L.modulus) with
    | none =>
        rw [exec_none hwants hans]
        exact A
    | some q =>
        have hlt : basesize + extrasize + 8 < L.modulus :=
          (hfits basesize extrasize hwants).resolve_left (by rw [hans]; nofun)
        obtain ⟨d', heq, G⟩ := exec_some hlegal hwants hans
        rw [Nat.mod_eq_of_lt hlt] at G hans
        rw [heq]
        exact A.got G hserves hans

theorem step (A : Accurate L d) (hs : DomainStep L (Domain.Fits L) d d') : Accurate L d' := by
  cases hs with
  | write hm => exact A.write hm
  | request hlegal hserves hfits => exact A.request hlegal hserves hfits

theorem start (m : Memory) : Accurate L { alloc := { mem := m } } :=
  ⟨rfl, .nil, nofun, nofun, rfl, rfl⟩

theorem run (A : Accurate L d) (hrun : ReflTransGen (DomainStep L (Domain.Fits L)) d d') :
    Accurate L d' := by
  induction hrun with
  | refl => exact A
  | tail _ hs ih => exact ih.step hs

end Accurate

/-- The requests that obtain less than they need, or nothing, are those that
do not fit. While all fit, the statistics are exact, every payload lies in
its block, and every header holds the size that a release subtracts. -/
theorem requests_exact (L : Layout) :
    (∀ (d : Domain) (answer : Nat → Option Ptr) (r : MemCall), d.Legal L r →
      (d.Obtains L answer r ↔ d.Fits L answer r)) ∧
    ∀ m d, ReflTransGen (DomainStep L (Domain.Fits L)) { alloc := { mem := m } } d →
      d.alloc.nAllocs = d.out.length ∧ d.alloc.sAllocs = (d.out.map Grant.size).sum ∧
      ∀ g ∈ d.out, readWord d.alloc.mem (g.ptr - 8) L.word = g.size ∧
        ∃ b ∈ d.alloc.blocks, b.addr + 8 = g.ptr ∧
          g.ptr + g.basesize + g.extrasize ≤ b.addr + b.len := by
  refine ⟨fun d answer r => obtains_iff_fits, fun m d hrun => ?_⟩
  have A := (Accurate.start m).run hrun
  refine ⟨A.nAllocs, A.sAllocs, fun g hg => ⟨A.header g hg, g.block, ?_, ?_, ?_⟩⟩
  · rw [A.blocks]
    exact List.mem_map_of_mem hg
  · have := (A.bounded g hg).1
    simp only [Grant.block]
    omega
  · have := (A.bounded g hg).1
    simp only [Grant.block, Grant.size]
    omega

end Runs

/-! ## On a 64-bit machine -/

def Layout.x64 : Layout := ⟨8, by decide, by decide, 352, 64⟩

/-- A base allocator that has 4096 bytes at `p`. -/
def serveAt (p n : Nat) : Option Ptr := if n ≤ 4096 then some p else none

theorem serveAt_serves {a : StatsAlloc} {p : Nat} (hp : 0 < p) (hend : p + 4096 < 2 ^ 64)
    (hfree : ∀ b ∈ a.blocks, b.addr + b.len ≤ p) : Serves .x64 a (serveAt p) := by
  intro n q hans
  have hmod : Layout.x64.modulus = 2 ^ 64 := by decide
  rw [serveAt] at hans
  split at hans
  · cases hans
    exact ⟨hp, by omega, fun b hb => .inr (hfree b hb)⟩
  · cases hans

/-- A record of 368 bytes and a payload of 100 are outstanding. -/
theorem requests_exact_two : ∃ d : Domain, d.out = [⟨131080, 0, 100⟩, ⟨65544, 352, 16⟩] ∧
    d.alloc.nAllocs = 2 ∧ d.alloc.sAllocs = 468 := by
  have hinit : DomainStep .x64 (Domain.Fits .x64) {}
      (Domain.exec .x64 (serveAt 65536) {} (.init 16)).1 := by
    refine .request ⟨rfl, by decide⟩ (serveAt_serves (by decide) (by decide) nofun) ?_
    rintro _ _ ⟨⟩
    exact .inr (by decide)
  have hmalloc : DomainStep .x64 (Domain.Fits .x64)
      (Domain.exec .x64 (serveAt 65536) {} (.init 16)).1 (Domain.exec .x64 (serveAt 131072)
        (Domain.exec .x64 (serveAt 65536) {} (.init 16)).1 (.malloc 100)).1 := by
    refine .request (by decide : 100 < Layout.x64.modulus)
      (serveAt_serves (by decide) (by decide) ?_) ?_
    · intro b hb
      obtain rfl : b = ⟨65536, 376⟩ := List.mem_singleton.mp hb
      decide
    · rintro _ _ ⟨⟩
      exact .inr (by decide)
  obtain ⟨hn, hs, -⟩ := (requests_exact .x64).2 _ _ (.tail (.single hinit) hmalloc)
  exact ⟨_, rfl, hn, hs⟩

/-- With 352 bytes less than the address space as extra size, the domain is
made in a block of 8 bytes. -/
theorem init_wraps :
    ¬ ∀ L d answer r, Domain.Legal L d r → Serves L d.alloc answer → d.Obtains L answer r := by
  intro hall
  obtain ⟨b, hb, -, hroom⟩ := hall .x64 {} (serveAt 65536) (.init (2 ^ 64 - 352))
    ⟨rfl, by decide⟩ (serveAt_serves (by decide) (by decide) nofun) 352 (2 ^ 64 - 352) 65544 rfl rfl
  obtain rfl : ⟨65536, 8⟩ = b := (List.cons.inj hb).1
  revert hroom
  decide

end Tealet
