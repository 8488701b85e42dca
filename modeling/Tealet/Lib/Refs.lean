import Mathlib.Algebra.BigOperators.Group.Finset.Basic
import Mathlib.Algebra.BigOperators.Group.Finset.Piecewise
import Mathlib.Logic.Function.Basic

/-!
# Counting the holders of shared values

`holders f n k` is the number of slots below `n` whose content under `f`
is `k`. Writing a slot trades one holder of the old content for one of the
new (`holders_update`), which is what a reference count has to follow.
-/

namespace Refs

variable {κ : Type} [DecidableEq κ]

def holders (f : Nat → Option κ) (n : Nat) (k : κ) : Nat :=
  ((Finset.range n).filter fun t => f t = some k).card

variable {f g : Nat → Option κ} {n t t' : Nat} {k : κ} {o : Option κ}

theorem holders_succ : holders f (n + 1) k = holders f n k + if f n = some k then 1 else 0 := by
  unfold holders
  rw [Finset.range_add_one, Finset.filter_insert]
  split
  · rw [Finset.card_insert_of_notMem (by simp)]
  · rfl

theorem holders_congr (h : ∀ t < n, f t = some k ↔ g t = some k) :
    holders f n k = holders g n k := by
  unfold holders
  congr 1
  exact Finset.filter_congr fun t ht => h t (Finset.mem_range.mp ht)

/-- Writing a slot, as a balance. -/
theorem holders_update (ht : t < n) :
    holders (Function.update f t o) n k + (if f t = some k then 1 else 0) =
      holders f n k + if o = some k then 1 else 0 := by
  induction n with
  | zero => cases ht
  | succ n ih =>
      rw [holders_succ, holders_succ]
      rcases Nat.lt_succ_iff_lt_or_eq.mp ht with hlt | rfl
      · have hn : Function.update f t o n = f n := Function.update_of_ne (Nat.ne_of_gt hlt) _ _
        rw [hn]
        have := ih hlt
        omega
      · have hbelow : holders (Function.update f t o) t k = holders f t k :=
          holders_congr fun x hx => by rw [Function.update_of_ne (Nat.ne_of_lt hx)]
        rw [hbelow, Function.update_self]
        omega

/-- A new slot. -/
theorem holders_push (hn : f n = none) :
    holders (Function.update f n o) (n + 1) k = holders f n k + if o = some k then 1 else 0 := by
  have := holders_update (f := f) (o := o) (k := k) (Nat.lt_succ_self n)
  rw [holders_succ (f := f), hn] at this
  simpa using this

theorem exists_of_holders_pos (h : 0 < holders f n k) : ∃ t < n, f t = some k := by
  obtain ⟨t, ht⟩ := Finset.card_pos.mp h
  obtain ⟨hlt, hk⟩ := Finset.mem_filter.mp ht
  exact ⟨t, Finset.mem_range.mp hlt, hk⟩

/-- One holder is the only holder. -/
theorem unique_of_holders_le_one (h : holders f n k ≤ 1) (ht : t < n) (ht' : t' < n)
    (hk : f t = some k) (hk' : f t' = some k) : t = t' :=
  Finset.card_le_one.mp h t (Finset.mem_filter.mpr ⟨Finset.mem_range.mpr ht, hk⟩) t'
    (Finset.mem_filter.mpr ⟨Finset.mem_range.mpr ht', hk'⟩)

/-- A total over the slots is a total over the values, each as often as it is held. -/
theorem sum_holders {f : Nat → Option Nat} {m : Nat} (W : Nat → Nat)
    (hf : ∀ t < n, ∀ k, f t = some k → k < m) :
    ∑ t ∈ Finset.range n, (f t).elim 0 W = ∑ k ∈ Finset.range m, holders f n k * W k := by
  induction n with
  | zero => simp [holders]
  | succ n ih =>
      have hn := ih fun t ht => hf t (Nat.lt_succ_of_lt ht)
      rw [Finset.sum_range_succ, hn]
      simp only [holders_succ, Nat.add_mul, Finset.sum_add_distrib]
      congr 1
      cases hk : f n with
      | none => simp
      | some k =>
          have hlt : k < m := hf n (Nat.lt_succ_self n) k hk
          simp [ite_mul, Finset.sum_ite_eq, hlt]

end Refs
