import Mathlib.Algebra.BigOperators.Group.Finset.Basic
import Mathlib.Data.Set.Card
import Mathlib.Logic.Function.Basic

/-!
# Weights of finite tables

`tally w f n` is the total weight of the entries of the table `f` below
`n`. Writing a slot trades the weight of the old entry for that of the new
one (`tally_update`), which is what a running total has to follow.
-/

namespace Tally

variable {α : Type}

def tally (w : α → Nat) (f : Nat → Option α) (n : Nat) : Nat :=
  ∑ i ∈ Finset.range n, (f i).elim 0 w

variable {w : α → Nat} {f g : Nat → Option α} {n i : Nat} {x : α} {o : Option α}

theorem tally_succ : tally w f (n + 1) = tally w f n + (f n).elim 0 w :=
  Finset.sum_range_succ _ _

theorem tally_congr (h : ∀ i < n, (f i).elim 0 w = (g i).elim 0 w) : tally w f n = tally w g n :=
  Finset.sum_congr rfl fun i hi => h i (Finset.mem_range.mp hi)

/-- Writing a slot, as a balance. -/
theorem tally_update (hi : i < n) :
    tally w (Function.update f i o) n + (f i).elim 0 w = tally w f n + o.elim 0 w := by
  induction n with
  | zero => cases hi
  | succ n ih =>
      rw [tally_succ, tally_succ]
      rcases Nat.lt_succ_iff_lt_or_eq.mp hi with hlt | rfl
      · rw [Function.update_of_ne (Nat.ne_of_gt hlt)]
        have := ih hlt
        omega
      · have hbelow : tally w (Function.update f i o) i = tally w f i :=
          tally_congr fun j hj => by rw [Function.update_of_ne (Nat.ne_of_lt hj)]
        rw [hbelow, Function.update_self]
        omega

/-- A new entry. -/
theorem tally_push : tally w (Function.update f n (some x)) (n + 1) = tally w f n + w x := by
  have hbelow : tally w (Function.update f n (some x)) n = tally w f n :=
    tally_congr fun j hj => by rw [Function.update_of_ne (Nat.ne_of_lt hj)]
  rw [tally_succ, hbelow, Function.update_self]
  rfl

/-- An entry that is removed. -/
theorem tally_remove (hi : i < n) (hx : f i = some x) :
    tally w (Function.update f i none) n + w x = tally w f n := by
  have h := tally_update (w := w) (f := f) (o := none) hi
  rw [hx] at h
  exact h

/-- The number of entries of a table that has none from `n` on. -/
theorem tally_one (hf : ∀ i, n ≤ i → f i = none) :
    tally (fun _ => 1) f n = {i | f i ≠ none}.ncard := by
  have hset : {i | f i ≠ none} = ((Finset.range n).filter fun i => f i ≠ none : Finset Nat) := by
    ext i
    simp only [Set.mem_ofPred_eq, Finset.coe_filter, Finset.mem_range]
    refine ⟨fun h => ⟨?_, h⟩, fun h => h.2⟩
    by_contra hi
    exact h (hf i (Nat.le_of_not_lt hi))
  rw [hset, Set.ncard_coe_finset, Finset.card_eq_sum_ones, Finset.sum_filter]
  refine Finset.sum_congr rfl fun i _ => ?_
  cases f i <;> rfl

/-- The entries are shared out among the first `m` owners. -/
theorem tally_partition {own : Nat → List Nat} {m : Nat} (hnd : ∀ k, (own k).Nodup)
    (hdisj : ∀ k k', k ≠ k' → (own k).Disjoint (own k')) (hlt : ∀ k, ∀ i ∈ own k, i < n)
    (hcover : ∀ i < n, f i ≠ none → ∃ k < m, i ∈ own k) :
    tally w f n = ∑ k ∈ Finset.range m, ((own k).map fun i => (f i).elim 0 w).sum := by
  have hpair : (↑(Finset.range m) : Set Nat).PairwiseDisjoint fun k => (own k).toFinset := by
    intro k _ k' _ hne
    exact List.disjoint_toFinset_iff_disjoint.mpr (hdisj k k' hne)
  rw [Finset.sum_congr rfl fun k _ => (List.sum_toFinset _ (hnd k)).symm,
    ← Finset.sum_biUnion hpair, tally]
  refine (Finset.sum_subset (fun i hi => ?_) fun i hi hno => ?_).symm
  · obtain ⟨k, -, hk⟩ := Finset.mem_biUnion.mp hi
    exact Finset.mem_range.mpr (hlt k i (List.mem_toFinset.mp hk))
  · have hnone : f i = none := by
      by_contra hne
      obtain ⟨k, hk, hik⟩ := hcover i (Finset.mem_range.mp hi) hne
      exact hno (Finset.mem_biUnion.mpr ⟨k, Finset.mem_range.mpr hk, List.mem_toFinset.mpr hik⟩)
    rw [hnone]
    rfl

end Tally
