import Mathlib.Data.List.Basic
import Mathlib.Data.List.Range

/-!
# Slices of a flat memory

A memory is a function from addresses to cells. `readSlice` copies an
interval out of it, `writeSlice` copies a list back. The two facts the
rest of the development lives on:

- writing back what was read changes nothing (`writeSlice_readSlice`), so
  a saved prefix may be extended by a fresh read without changing the
  memory it stands for (`writeSlice_append_readSlice`);
- `writeSlice m a d` only looks at `m` outside `[a, a + d.length)`
  (`writeSlice_congr`), so the memory may change under a saved prefix.
-/

namespace Slice

variable {β : Type}

/-- The `n` cells from address `a` on. -/
def readSlice (m : Nat → β) (a n : Nat) : List β :=
  (List.range n).map fun i => m (a + i)

/-- The memory after the cells `d` are stored from address `a` on. -/
def writeSlice (m : Nat → β) (a : Nat) (d : List β) : Nat → β :=
  fun x => if a ≤ x then (d[x - a]?).getD (m x) else m x

@[simp] theorem readSlice_length (m : Nat → β) (a n : Nat) :
    (readSlice m a n).length = n := by
  simp [readSlice]

theorem readSlice_congr {m m' : Nat → β} {a n : Nat}
    (h : ∀ x, a ≤ x → x < a + n → m x = m' x) : readSlice m a n = readSlice m' a n := by
  refine List.map_congr_left fun i hi => h _ (Nat.le_add_right _ _) ?_
  exact Nat.add_lt_add_left (List.mem_range.mp hi) _

theorem take_readSlice (m : Nat → β) (a : Nat) {k n : Nat} (h : k ≤ n) :
    (readSlice m a n).take k = readSlice m a k := by
  rw [readSlice, ← List.map_take, List.take_range, Nat.min_eq_left h, readSlice]

theorem drop_readSlice (m : Nat → β) (a k n : Nat) :
    (readSlice m a n).drop k = readSlice m (a + k) (n - k) := by
  apply List.ext_getElem
  · simp
  · intro i hi hi'
    simp [readSlice, Nat.add_assoc]

/-! ## Inside and outside a written slice -/

theorem writeSlice_lt {m : Nat → β} {a x : Nat} {d : List β} (h : x < a) :
    writeSlice m a d x = m x := by
  simp [writeSlice, Nat.not_le.mpr h]

theorem writeSlice_ge {m : Nat → β} {a x : Nat} {d : List β} (h : a + d.length ≤ x) :
    writeSlice m a d x = m x := by
  have hnone : d[x - a]? = none := List.getElem?_eq_none (by omega)
  simp [writeSlice, hnone]

theorem writeSlice_add {m : Nat → β} {a i : Nat} {d : List β} (h : i < d.length) :
    writeSlice m a d (a + i) = d[i] := by
  simp [writeSlice, h]

@[simp] theorem writeSlice_nil (m : Nat → β) (a : Nat) : writeSlice m a [] = m := by
  funext x
  simp [writeSlice]

/-- A written slice hides the memory below it: two memories that agree
outside `[a, a + d.length)` give the same result. -/
theorem writeSlice_congr {m m' : Nat → β} {a x : Nat} {d : List β}
    (h : a ≤ x → a + d.length ≤ x → m' x = m x) (hx : a ≤ x) :
    writeSlice m' a d x = writeSlice m a d x := by
  by_cases hlt : x < a + d.length
  · obtain ⟨i, rfl⟩ := Nat.exists_eq_add_of_le hx
    have hi : i < d.length := by omega
    rw [writeSlice_add hi, writeSlice_add hi]
  · have hge : a + d.length ≤ x := by omega
    rw [writeSlice_ge hge, writeSlice_ge hge, h hx hge]

/-- What is written is read back. -/
theorem readSlice_writeSlice (m : Nat → β) (a : Nat) (d : List β) :
    readSlice (writeSlice m a d) a d.length = d := by
  apply List.ext_getElem
  · rw [readSlice_length]
  · intro i hi hd
    simp only [readSlice, List.getElem_map, List.getElem_range]
    exact writeSlice_add hd

/-! ## Composing slices -/

theorem writeSlice_writeSlice (m : Nat → β) (a : Nat) (d e : List β) :
    writeSlice (writeSlice m a d) (a + d.length) e = writeSlice m a (d ++ e) := by
  funext x
  by_cases hlo : x < a
  · rw [writeSlice_lt (by omega), writeSlice_lt hlo, writeSlice_lt hlo]
  · obtain ⟨i, rfl⟩ := Nat.exists_eq_add_of_le (Nat.le_of_not_lt hlo)
    by_cases hd : i < d.length
    · rw [writeSlice_lt (by omega), writeSlice_add hd,
        writeSlice_add (by simp; omega), List.getElem_append_left hd]
    · by_cases he : i < d.length + e.length
      · obtain ⟨j, rfl⟩ := Nat.exists_eq_add_of_le (Nat.le_of_not_lt hd)
        have hj : j < e.length := by omega
        rw [← Nat.add_assoc, writeSlice_add hj, Nat.add_assoc,
          writeSlice_add (by simp; omega), List.getElem_append_right (by omega)]
        congr 1
        omega
      · rw [writeSlice_ge (by omega), writeSlice_ge (by omega),
          writeSlice_ge (by simp; omega)]

theorem writeSlice_readSlice (m : Nat → β) (a n : Nat) :
    writeSlice m a (readSlice m a n) = m := by
  funext x
  by_cases hlo : x < a
  · exact writeSlice_lt hlo
  · by_cases hhi : a + n ≤ x
    · exact writeSlice_ge (by simpa using hhi)
    · obtain ⟨i, rfl⟩ := Nat.exists_eq_add_of_le (Nat.le_of_not_lt hlo)
      rw [writeSlice_add (by simp; omega)]
      simp [readSlice]

/-- Reading the next `n` cells behind a saved prefix and appending them
does not change the memory the prefix stands for. -/
theorem writeSlice_append_readSlice (m : Nat → β) (a n : Nat) (d : List β) :
    writeSlice m a (d ++ readSlice m (a + d.length) n) = writeSlice m a d := by
  funext x
  rw [← writeSlice_writeSlice]
  by_cases hlo : x < a + d.length
  · exact writeSlice_lt hlo
  · have hge : a + d.length ≤ x := Nat.le_of_not_lt hlo
    have hid := congrFun (writeSlice_readSlice m (a + d.length) n) x
    rw [writeSlice_congr (m := m) (fun _ _ => writeSlice_ge hge) hge, hid, writeSlice_ge hge]

end Slice
