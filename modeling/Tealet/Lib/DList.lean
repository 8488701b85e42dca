import Mathlib.Data.List.Nodup
import Mathlib.Logic.Function.Basic

/-!
# Intrusive doubly linked lists

The list discipline in which a node's back pointer is the address of the
`next` field that points at it: the list head for the first node, the
`next` field of its predecessor for the others. Insertion at the head and
removal need no sentinel and no search.

`Links` is the pointer structure, `Links.Rep L l` says that it represents
the list `l` of nodes: the `next` pointers from the head spell out `l`,
every back pointer names the field that points here, no node occurs twice
and nodes outside `l` are unlinked. `link_rep` and `unlink_rep` are the
two operations; `Rep.next_of_append` is what a traversal uses.
-/

namespace DList

variable {κ : Type}

/-- The address of a `next` field: the list head or a node's own. -/
inductive Slot (κ : Type) where
  | head
  | next (k : κ)
deriving DecidableEq, Repr

structure Links (κ : Type) where
  head : Option κ
  next : κ → Option κ
  prev : κ → Option (Slot κ)

namespace Links

/-- What the field at address `p` points at. -/
def deref (L : Links κ) : Slot κ → Option κ
  | .head => L.head
  | .next k => L.next k

section Update

variable [DecidableEq κ]

def assign (L : Links κ) (p : Slot κ) (v : Option κ) : Links κ :=
  match p with
  | .head => { L with head := v }
  | .next k => { L with next := Function.update L.next k v }

def setPrev (L : Links κ) (o : Option κ) (p : Option (Slot κ)) : Links κ :=
  match o with
  | none => L
  | some k => { L with prev := Function.update L.prev k p }

/-- Insert an unlinked node at the head. -/
def link (L : Links κ) (x : κ) : Links κ :=
  let L₁ := L.setPrev L.head (some (.next x))
  { head := some x,
    next := Function.update L₁.next x L.head,
    prev := Function.update L₁.prev x (some .head) }

/-- Remove a node that `p` points at; its own `next` field keeps its value. -/
def unlink (L : Links κ) (x : κ) (p : Slot κ) : Links κ :=
  ((L.setPrev (L.next x) (some p)).assign p (L.next x)).setPrev (some x) none

end Update

/-! ## Segments -/

/-- The nodes reached from a field at address `p` that holds `cur` are `l`. -/
def Seg (L : Links κ) : Slot κ → Option κ → List κ → Prop
  | _, cur, [] => cur = none
  | p, cur, x :: xs => cur = some x ∧ L.prev x = some p ∧ L.Seg (.next x) (L.next x) xs

structure Rep (L : Links κ) (l : List κ) : Prop where
  seg : L.Seg .head L.head l
  nodup : l.Nodup
  off : ∀ x, x ∉ l → L.prev x = none

variable {L L' : Links κ} {l : List κ}

theorem Seg.head_eq {p : Slot κ} {cur : Option κ} (h : L.Seg p cur l) : cur = l.head? := by
  cases l with
  | nil => exact h
  | cons x xs => exact h.1

/-- The pointers determine the segment. -/
theorem Seg.unique {l' : List κ} {p : Slot κ} {cur : Option κ} (h : L.Seg p cur l)
    (h' : L.Seg p cur l') : l = l' := by
  induction l generalizing l' p cur with
  | nil =>
      obtain rfl : cur = none := h
      cases l' with
      | nil => rfl
      | cons y ys => cases h'.1
  | cons x xs ih =>
      obtain ⟨rfl, -, hrest⟩ := h
      cases l' with
      | nil => cases h'
      | cons y ys =>
          obtain ⟨hcur, -, hrest'⟩ := h'
          obtain rfl := Option.some.inj hcur
          rw [ih hrest hrest']

/-- A segment only depends on the pointers of its own nodes. -/
theorem Seg.congr {p : Slot κ} {cur : Option κ} (h : L.Seg p cur l)
    (hn : ∀ x ∈ l, L'.next x = L.next x) (hp : ∀ x ∈ l, L'.prev x = L.prev x) :
    L'.Seg p cur l := by
  induction l generalizing p cur with
  | nil => exact h
  | cons x xs ih =>
      obtain ⟨hcur, hprev, hrest⟩ := h
      refine ⟨hcur, (hp x (by simp)).trans hprev, ?_⟩
      rw [hn x (by simp)]
      exact ih hrest (fun y hy => hn y (List.mem_cons_of_mem _ hy))
        (fun y hy => hp y (List.mem_cons_of_mem _ hy))

/-- Splitting a segment: the prefix up to a node, and the node's own view. -/
theorem Seg.split {p : Slot κ} {cur : Option κ} {front back : List κ} {x : κ}
    (h : L.Seg p cur (front ++ x :: back)) :
    ∃ q, L.prev x = some q ∧ L.Seg (.next x) (L.next x) back := by
  induction front generalizing p cur with
  | nil => exact ⟨p, h.2.1, h.2.2⟩
  | cons y ys ih => exact ih h.2.2

theorem Rep.prev_isSome (h : L.Rep l) {x : κ} (hx : x ∈ l) : ∃ q, L.prev x = some q := by
  obtain ⟨front, back, rfl⟩ := List.append_of_mem hx
  obtain ⟨q, hq, -⟩ := h.seg.split
  exact ⟨q, hq⟩

theorem Rep.mem_iff (h : L.Rep l) {x : κ} : x ∈ l ↔ L.prev x ≠ none := by
  constructor
  · intro hx
    obtain ⟨q, hq⟩ := h.prev_isSome hx
    simp [hq]
  · intro hx
    by_contra hn
    exact hx (h.off x hn)

/-- The traversal step: from a node of the list its `next` field points at
the node behind it. -/
theorem Rep.next_of_append {front back : List κ} {x : κ} (h : L.Rep (front ++ x :: back)) :
    L.next x = back.head? := by
  obtain ⟨q, -, hseg⟩ := h.seg.split
  exact hseg.head_eq

theorem Rep.head_eq (h : L.Rep l) : L.head = l.head? := h.seg.head_eq

/-- The back pointer of a node names the field that points at it, and the
node behind it points back. -/
theorem Rep.prev_spec (h : L.Rep l) {x : κ} (hx : x ∈ l) :
    ∃ q, L.prev x = some q ∧ L.deref q = some x ∧ q ≠ .next x ∧
      ∀ y, L.next x = some y → L.prev y = some (.next x) ∧ y ≠ x ∧ q ≠ .next y := by
  obtain ⟨front, back, rfl⟩ := List.append_of_mem hx
  have hbehind : ∀ y, L.next x = some y → L.prev y = some (.next x) ∧ y ≠ x := by
    intro y hy
    obtain ⟨q, -, hseg⟩ := h.seg.split
    cases back with
    | nil => rw [hseg] at hy; cases hy
    | cons z zs =>
        obtain ⟨hz, hprev, -⟩ := hseg
        obtain rfl : z = y := Option.some.inj (hz.symm.trans hy)
        have hnd := (List.nodup_append.mp h.nodup).2.1
        exact ⟨hprev, fun heq => (List.nodup_cons.mp hnd).1 (heq ▸ by simp)⟩
  rcases List.eq_nil_or_concat front with rfl | ⟨front', w, rfl⟩
  · refine ⟨.head, h.seg.2.1, h.seg.1, by simp, fun y hy => ?_⟩
    exact ⟨(hbehind y hy).1, (hbehind y hy).2, by simp⟩
  · have hseg : L.Seg .head L.head (front' ++ w :: (x :: back)) := by
      simpa using h.seg
    obtain ⟨q, -, hw, hprev, -⟩ := hseg.split
    have hnd : (w :: x :: back).Nodup := by
      have hnd := h.nodup
      rw [List.concat_eq_append, List.append_assoc] at hnd
      simpa using (List.nodup_append.mp hnd).2.1
    have hwx : w ≠ x := fun heq => (List.nodup_cons.mp hnd).1 (by simp [heq])
    refine ⟨.next w, hprev, hw, fun heq => hwx (Slot.next.inj heq), fun y hy => ?_⟩
    refine ⟨(hbehind y hy).1, (hbehind y hy).2, fun heq => ?_⟩
    have hy' := h.next_of_append
    rw [hy] at hy'
    have hmem : y ∈ back := by
      cases back with
      | nil => cases hy'
      | cons z zs => simp [Option.some.inj hy']
    exact (List.nodup_cons.mp hnd).1 (by simp [Slot.next.inj heq, hmem])

variable [DecidableEq κ]

/-! ## Linking -/

theorem link_rep (h : L.Rep l) {x : κ} (hx : x ∉ l) : (L.link x).Rep (x :: l) := by
  refine ⟨⟨rfl, by simp [link], ?_⟩, List.nodup_cons.mpr ⟨hx, h.nodup⟩, ?_⟩
  · have hnx : (L.link x).next x = L.head := by simp [link]
    rw [hnx]
    cases l with
    | nil => exact h.seg
    | cons y ys =>
        obtain ⟨hhead, -, hrest⟩ := h.seg
        have hyx : y ≠ x := fun heq => hx (by simp [heq])
        have hys : y ∉ ys := (List.nodup_cons.mp h.nodup).1
        refine ⟨hhead, ?_, ?_⟩
        · simp [link, hhead, setPrev, Function.update_of_ne hyx]
        · have hny : (L.link x).next y = L.next y := by
            simp [link, hhead, setPrev, Function.update_of_ne hyx]
          rw [hny]
          refine hrest.congr (fun z hz => ?_) (fun z hz => ?_)
          · have hzx : z ≠ x := fun heq => hx (by simp [← heq, hz])
            simp [link, hhead, setPrev, Function.update_of_ne hzx]
          · have hzx : z ≠ x := fun heq => hx (by simp [← heq, hz])
            have hzy : z ≠ y := fun heq => hys (heq ▸ hz)
            simp [link, hhead, setPrev, Function.update_of_ne hzx, Function.update_of_ne hzy]
  · intro z hz
    have hzx : z ≠ x := fun heq => hz (by simp [heq])
    have hzl : z ∉ l := fun hm => hz (List.mem_cons_of_mem _ hm)
    have hhead := h.head_eq
    cases hL : L.head with
    | none => simp [link, hL, setPrev, Function.update_of_ne hzx, h.off z hzl]
    | some y =>
        have hzy : z ≠ y := by
          rintro rfl
          rw [hL] at hhead
          exact hzl (List.mem_of_mem_head? hhead.symm)
        simp [link, hL, setPrev, Function.update_of_ne hzx, Function.update_of_ne hzy,
          h.off z hzl]

/-! ## Unlinking -/

theorem unlink_next_self {x : κ} {p : Slot κ} (hp : p ≠ .next x) :
    (L.unlink x p).next x = L.next x := by
  cases hn : L.next x <;> cases p with
  | head => simp [unlink, hn, setPrev, assign]
  | next k =>
      have hk : x ≠ k := fun heq => hp (by rw [heq])
      simp [unlink, hn, setPrev, assign, Function.update_of_ne hk]

/-- Removing the node behind a segment's prefix. `p` is the address of the
field in front of the segment, `q` the back pointer of the removed node. -/
theorem Seg.unlink {x : κ} {q : Slot κ} : ∀ {front back : List κ} {p : Slot κ} {cur : Option κ},
    L.Seg p cur (front ++ x :: back) → (front ++ x :: back).Nodup →
    (∀ k, p = .next k → k ∉ front ++ x :: back) → L.prev x = some q →
    (L.unlink x q).Seg p (if q = p then L.next x else cur) (front ++ back)
  | [], back, p, cur, h, hnd, hp, hq => by
      obtain ⟨-, hprev, hrest⟩ := h
      obtain rfl : q = p := Option.some.inj (hq.symm.trans hprev)
      rw [if_pos rfl]
      have hxb : x ∉ back := (List.nodup_cons.mp hnd).1
      cases back with
      | nil => exact hrest
      | cons y ys =>
          obtain ⟨hy, -, hseg⟩ := hrest
          have hyx : y ≠ x := fun heq => hxb (by simp [heq])
          have hys : y ∉ ys := (List.nodup_cons.mp (List.nodup_cons.mp hnd).2).1
          have hqk : ∀ z ∈ y :: ys, ∀ k, q = .next k → z ≠ k := by
            intro z hz k hk heq
            exact hp k hk (by rw [← heq]; exact List.mem_cons_of_mem _ hz)
          have hnext : ∀ z ∈ y :: ys, (L.unlink x q).next z = L.next z := by
            intro z hz
            cases q with
            | head => simp [Links.unlink, hy, setPrev, assign]
            | next k =>
                simp [Links.unlink, hy, setPrev, assign,
                  Function.update_of_ne (hqk z hz k rfl)]
          refine ⟨hy, ?_, ?_⟩
          · cases q <;>
              simp [Links.unlink, hy, setPrev, assign, Function.update_of_ne hyx]
          · rw [hnext y (by simp)]
            refine hseg.congr (fun z hz => hnext z (List.mem_cons_of_mem _ hz)) (fun z hz => ?_)
            have hzx : z ≠ x := fun heq => hxb (by simp [← heq, hz])
            have hzy : z ≠ y := fun heq => hys (heq ▸ hz)
            cases q <;>
              simp [Links.unlink, hy, setPrev, assign, Function.update_of_ne hzx,
                Function.update_of_ne hzy]
  | w :: ws, back, p, cur, h, hnd, hp, hq => by
      obtain ⟨hcur, hprev, hrest⟩ := h
      have hw : w ∉ ws ++ x :: back := (List.nodup_cons.mp hnd).1
      have hwx : w ≠ x := fun heq => hw (by simp [heq])
      have hqp : q ≠ p := by
        rintro rfl
        -- the field in front of `w` cannot also be the one in front of `x`
        cases hws : ws with
        | nil =>
            subst hws
            obtain ⟨-, hx, -⟩ := hrest
            have : Slot.next w = q := Option.some.inj (hx.symm.trans hq)
            exact hp w this.symm (by simp)
        | cons v vs =>
            obtain ⟨fr, u, hu⟩ : ∃ fr u, ws = fr ++ [u] :=
              ⟨ws.dropLast, ws.getLast (by simp [hws]),
                (List.dropLast_append_getLast (by simp [hws])).symm⟩
            have hseg : L.Seg (.next w) (L.next w) (fr ++ u :: (x :: back)) := by
              simpa [hu] using hrest
            obtain ⟨q', -, hx, hprevx, -⟩ := hseg.split
            have hqu : Slot.next u = q := Option.some.inj (hprevx.symm.trans hq)
            exact hp u hqu.symm (by simp [hu])
      rw [if_neg hqp]
      have ih := Seg.unlink (p := .next w) hrest (List.nodup_cons.mp hnd).2
        (fun k hk hmem => hw (by rw [Slot.next.inj hk]; exact hmem)) hq
      refine ⟨hcur, ?_, ?_⟩
      · have hne : ∀ y, L.next x = some y → w ≠ y := by
          intro y hy heq
          have hrest' : L.Seg (.next w) (L.next w) (ws ++ x :: back) := hrest
          obtain ⟨q', -, hseg⟩ := hrest'.split
          cases back with
          | nil => rw [hseg] at hy; cases hy
          | cons z zs =>
              obtain ⟨hz, -, -⟩ := hseg
              have hzy : z = y := Option.some.inj (hz.symm.trans hy)
              exact hw (by simp [heq, hzy])
        cases hn : L.next x with
        | none =>
            cases q <;>
              simp [Links.unlink, hn, setPrev, assign, Function.update_of_ne hwx, hprev]
        | some y =>
            cases q <;>
              simp [Links.unlink, hn, setPrev, assign, Function.update_of_ne hwx,
                Function.update_of_ne (hne y hn), hprev]
      · have hnw : (L.unlink x q).next w = if q = .next w then L.next x else L.next w := by
          by_cases hqw : q = .next w
          · subst hqw
            cases hn : L.next x <;> simp [Links.unlink, hn, setPrev, assign]
          · rw [if_neg hqw]
            cases q with
            | head => cases hn : L.next x <;> simp [Links.unlink, hn, setPrev, assign]
            | next k =>
                have hk : w ≠ k := fun heq => hqw (by rw [heq])
                cases hn : L.next x <;>
                  simp [Links.unlink, hn, setPrev, assign, Function.update_of_ne hk]
        rw [hnw]
        exact ih

theorem unlink_rep (h : L.Rep l) {x : κ} (hx : x ∈ l) {q : Slot κ} (hq : L.prev x = some q) :
    (L.unlink x q).Rep (l.erase x) := by
  obtain ⟨front, back, rfl⟩ := List.append_of_mem hx
  have hxf : x ∉ front := fun hm =>
    (List.nodup_append.mp h.nodup).2.2 x hm x (by simp) rfl
  have herase : (front ++ x :: back).erase x = front ++ back := by
    rw [List.erase_append_right _ hxf, List.erase_cons_head]
  have hnd : (front ++ back).Nodup := herase ▸ h.nodup.erase x
  have hxb : x ∉ back := (List.nodup_cons.mp (List.nodup_append.mp h.nodup).2.1).1
  rw [herase]
  refine ⟨?_, hnd, ?_⟩
  · have hseg := Seg.unlink h.seg h.nodup (fun k hk => by cases hk) hq
    have hhead : (L.unlink x q).head = if q = .head then L.next x else L.head := by
      cases q <;> cases hn : L.next x <;> simp [Links.unlink, hn, setPrev, assign]
    rw [hhead]
    exact hseg
  · intro z hz
    by_cases hzx : z = x
    · subst hzx
      cases q <;> cases hn : L.next z <;> simp [Links.unlink, hn, setPrev, assign]
    · have hzl : z ∉ front ++ x :: back := by
        simp only [List.mem_append, List.mem_cons] at hz ⊢
        tauto
      have hzn : ∀ y, L.next x = some y → z ≠ y := by
        rintro y hy rfl
        have hy' := h.next_of_append
        rw [hy] at hy'
        exact hz (List.mem_append_right _ (List.mem_of_mem_head? hy'.symm))
      cases hn : L.next x with
      | none =>
          cases q <;>
            simp [Links.unlink, hn, setPrev, assign, Function.update_of_ne hzx, h.off z hzl]
      | some y =>
          cases q <;>
            simp [Links.unlink, hn, setPrev, assign, Function.update_of_ne hzx,
              Function.update_of_ne (hzn y hn), h.off z hzl]

end Links

end DList
