import Mathlib.Data.List.Nodup

/-!
# Circular doubly linked lists

The pointers of a circular list are two functions `next` and `prev`.
`Loop next prev a l` says that following `next` from `a` visits the nodes
`l` and comes back to `a`, that `prev` goes the other way, and that no node
is visited twice.
-/

namespace CList

variable {α : Type}

/-- From `a` through `l` to `b`. -/
def Arc (next prev : α → α) : α → List α → α → Prop
  | a, [], b => next a = b ∧ prev b = a
  | a, x :: l, b => next a = x ∧ prev x = a ∧ Arc next prev x l b

structure Loop (next prev : α → α) (a : α) (l : List α) : Prop where
  arc : Arc next prev a l a
  nodup : (a :: l).Nodup

variable {next prev next' prev' : α → α} {a b c t x : α} {l l' : List α}

theorem Arc.congr (h : Arc next prev a l b) (hn : ∀ y ∈ a :: l, next' y = next y)
    (hp : ∀ y, y ∈ l ∨ y = b → prev' y = prev y) : Arc next' prev' a l b := by
  induction l generalizing a with
  | nil => exact ⟨(hn a List.mem_cons_self).trans h.1, (hp b (.inr rfl)).trans h.2⟩
  | cons x l ih =>
      obtain ⟨h₁, h₂, h₃⟩ := h
      refine ⟨(hn a List.mem_cons_self).trans h₁, (hp x (.inl List.mem_cons_self)).trans h₂,
        ih h₃ ?_ ?_⟩
      · exact fun y hy => hn y (List.mem_cons_of_mem _ hy)
      · exact fun y hy => hp y (hy.imp_left (List.mem_cons_of_mem _))

theorem arc_append : Arc next prev a (l ++ x :: l') b ↔
    Arc next prev a l x ∧ Arc next prev x l' b := by
  induction l generalizing a with
  | nil => exact ⟨fun ⟨h₁, h₂, h₃⟩ => ⟨⟨h₁, h₂⟩, h₃⟩, fun ⟨⟨h₁, h₂⟩, h₃⟩ => ⟨h₁, h₂, h₃⟩⟩
  | cons y l ih =>
      constructor
      · rintro ⟨h₁, h₂, h₃⟩
        exact ⟨⟨h₁, h₂, (ih.mp h₃).1⟩, (ih.mp h₃).2⟩
      · rintro ⟨⟨h₁, h₂, h₃⟩, h₄⟩
        exact ⟨h₁, h₂, ih.mpr ⟨h₃, h₄⟩⟩

theorem Arc.prev_mem (h : Arc next prev a l b) : prev b ∈ a :: l := by
  induction l generalizing a with
  | nil => rw [h.2]; exact List.mem_cons_self
  | cons x l ih => exact List.mem_cons_of_mem _ (ih h.2.2)

theorem Arc.next_mem (h : Arc next prev a l b) : next a ∈ l ∨ next a = b := by
  cases l with
  | nil => exact .inr h.1
  | cons x l => exact .inl (h.1 ▸ List.mem_cons_self)

/-- The last pointer of an arc is sent elsewhere. -/
theorem Arc.retarget (h : Arc next prev a l b) (hnd : (a :: l).Nodup)
    (hn : ∀ y ∈ a :: l, y ≠ prev b → next' y = next y) (hp : ∀ y ∈ l, prev' y = prev y)
    (hn' : next' (prev b) = c) (hp' : prev' c = prev b) : Arc next' prev' a l c := by
  induction l generalizing a with
  | nil =>
      have hb : prev b = a := h.2
      rw [hb] at hn' hp'
      exact ⟨hn', hp'⟩
  | cons x l ih =>
      obtain ⟨h₁, h₂, h₃⟩ := h
      obtain ⟨ha, hnd⟩ := List.nodup_cons.mp hnd
      have hne : a ≠ prev b := fun heq => ha (heq ▸ h₃.prev_mem)
      refine ⟨(hn a List.mem_cons_self hne).trans h₁, (hp x List.mem_cons_self).trans h₂, ?_⟩
      refine ih h₃ hnd (fun y hy => hn y (List.mem_cons_of_mem _ hy)) fun y hy => ?_
      exact hp y (List.mem_cons_of_mem _ hy)

theorem Loop.single (hn : next a = a) (hp : prev a = a) : Loop next prev a [] :=
  ⟨⟨hn, hp⟩, by simp⟩

section Pointers

variable [DecidableEq α]

/-- A node linked in behind `a`. -/
theorem Loop.add (h : Loop next prev a l) (ht : t ∉ a :: l) :
    Loop (fun y => if y = a then t else if y = t then next a else next y)
      (fun y => if y = next a then t else if y = t then a else prev y) a (t :: l) := by
  obtain ⟨harc, hnd⟩ := h
  obtain ⟨hta, htl⟩ : t ≠ a ∧ t ∉ l := by simpa using ht
  refine ⟨?_, ?_⟩
  · cases l with
    | nil =>
        obtain ⟨hn, -⟩ := harc
        simp [Arc, hn, hta]
    | cons x l =>
        obtain ⟨hn, hp, harc⟩ := harc
        subst hn
        have hax : a ≠ next a := fun heq => (List.nodup_cons.mp hnd).1 (heq ▸ List.mem_cons_self)
        have htx : t ≠ next a := fun heq => htl (heq ▸ List.mem_cons_self)
        refine ⟨by simp, by simp [htx], by simp [hta], by simp, harc.congr ?_ ?_⟩
        · intro y hy
          have hya : y ≠ a := fun heq => (List.nodup_cons.mp hnd).1 (heq ▸ hy)
          have hyt : y ≠ t := fun heq => htl (heq ▸ hy)
          simp [hya, hyt]
        · intro y hy
          have hyx : y ≠ next a := by
            rintro rfl
            rcases hy with hy | hy
            · exact (List.nodup_cons.mp (List.nodup_cons.mp hnd).2).1 hy
            · exact hax hy.symm
          have hyt : y ≠ t := by
            rintro rfl
            rcases hy with hy | hy
            · exact htl (List.mem_cons_of_mem _ hy)
            · exact hta hy
          simp [hyx, hyt]
  · rw [List.nodup_cons, List.nodup_cons] at *
    refine ⟨?_, htl, hnd.2⟩
    simp [hta.symm, hnd.1]

/-- A node other than `a` linked out. -/
theorem Loop.remove (h : Loop next prev a l) (ht : t ∈ l) :
    Loop (fun y => if y = prev t then next t else next y)
      (fun y => if y = next t then prev t else prev y) a (l.erase t) := by
  obtain ⟨harc, hnd⟩ := h
  obtain ⟨l₁, l₂, rfl⟩ := List.append_of_mem ht
  have hnd' : (a :: (l₁ ++ l₂)).Nodup := by
    refine hnd.sublist (List.Sublist.cons_cons a ?_)
    exact List.Sublist.append_left (List.sublist_cons_self t l₂) l₁
  have ht₁ : t ∉ l₁ := by
    have := (List.nodup_cons.mp hnd).2
    rw [List.nodup_append] at this
    exact fun hm => this.2.2 t hm t List.mem_cons_self rfl
  have hta : t ≠ a := fun heq => (List.nodup_cons.mp hnd).1 (heq ▸ ht)
  rw [List.erase_append_right _ ht₁, List.erase_cons_head]
  obtain ⟨h₁, h₂⟩ := arc_append.mp harc
  refine ⟨?_, hnd'⟩
  have hnd₁ : (a :: l₁).Nodup :=
    hnd'.sublist (List.Sublist.cons_cons a (List.sublist_append_left l₁ l₂))
  have hdisj : ∀ y ∈ a :: l₁, y ∉ l₂ := by
    intro y hy hy₂
    have := hnd'
    rw [← List.cons_append, List.nodup_append] at this
    exact this.2.2 y hy y hy₂ rfl
  have hnext : next t ∉ l₁ := by
    rcases h₂.next_mem with hm | heq
    · exact fun hm₁ => hdisj _ (List.mem_cons_of_mem _ hm₁) hm
    · rw [heq]
      exact fun hm => (List.nodup_cons.mp hnd₁).1 hm
  have hfirst : ∀ q, next t = q → Arc (fun y => if y = prev t then next t else next y)
      (fun y => if y = next t then prev t else prev y) a l₁ q := by
    rintro q rfl
    refine h₁.retarget hnd₁ (fun y _ hy => by simp [hy]) (fun y hy => ?_) (by simp) (by simp)
    have hne : y ≠ next t := fun heq => hnext (heq ▸ hy)
    simp [hne]
  cases l₂ with
  | nil =>
      rw [List.append_nil]
      exact hfirst a h₂.1
  | cons q l₂ =>
      obtain ⟨hq, hpq, h₃⟩ := h₂
      refine arc_append.mpr ⟨hfirst q hq, h₃.congr ?_ ?_⟩
      · intro y hy
        have hne : y ≠ prev t := fun heq => hdisj _ h₁.prev_mem (heq ▸ hy)
        simp [hne]
      · intro y hy
        have hne : y ≠ next t := by
          rw [hq]
          rintro rfl
          rcases hy with hy | rfl
          · have := (List.nodup_cons.mp hnd').2
            rw [List.nodup_append] at this
            exact (List.nodup_cons.mp this.2.1).1 hy
          · exact hdisj _ List.mem_cons_self List.mem_cons_self
        simp [hne]

end Pointers

end CList
