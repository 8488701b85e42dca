import Mathlib.Data.List.TakeDrop
import Mathlib.Order.Interval.Finset.Nat
import Mathlib.Tactic.Ring
import Tealet.Lib.Slice

/-!
# Words and blocks in a flat memory

A word of `k` bytes is kept with its least significant byte first.
`bytesOf` and `wordOf` are inverse to each other up to the width
(`wordOf_bytesOf`, `bytesOf_wordOf`), and the first bytes of a word are the
word of the first bytes (`take_bytesOf`).

Blocks are intervals of addresses. Disjoint blocks below a bound are not
longer together than the bound (`sum_length_le`).
-/

namespace Words

open Slice

/-! ## Words -/

/-- The `k` low bytes of `v`. -/
def bytesOf (k v : Nat) : List UInt8 :=
  match k with
  | 0 => []
  | k + 1 => UInt8.ofNat v :: bytesOf k (v / 256)

def wordOf : List UInt8 → Nat
  | [] => 0
  | b :: bs => wordOf bs * 256 + b.toNat

@[simp] theorem length_bytesOf (k v : Nat) : (bytesOf k v).length = k := by
  induction k generalizing v with
  | zero => rfl
  | succ k ih => rw [bytesOf, List.length_cons, ih]

theorem wordOf_lt (bs : List UInt8) : wordOf bs < 256 ^ bs.length := by
  induction bs with
  | nil => exact Nat.one_pos
  | cons b bs ih =>
      have hb : b.toNat < 256 := b.toNat_lt
      rw [wordOf, List.length_cons, Nat.pow_succ]
      omega

theorem wordOf_bytesOf (k v : Nat) : wordOf (bytesOf k v) = v % 256 ^ k := by
  induction k generalizing v with
  | zero => rw [bytesOf, wordOf, Nat.pow_zero, Nat.mod_one]
  | succ k ih =>
      have hsplit : v % 256 ^ (k + 1) = v / 256 % 256 ^ k * 256 + v % 256 := by
        rw [Nat.pow_succ', Nat.mod_mul, Nat.add_comm, Nat.mul_comm 256]
      rw [bytesOf, wordOf, ih, hsplit, UInt8.toNat_ofNat']

theorem wordOf_bytesOf_of_lt {k v : Nat} (hv : v < 256 ^ k) : wordOf (bytesOf k v) = v := by
  rw [wordOf_bytesOf, Nat.mod_eq_of_lt hv]

theorem wordOf_append (as bs : List UInt8) :
    wordOf (as ++ bs) = wordOf as + 256 ^ as.length * wordOf bs := by
  induction as with
  | nil => simp [wordOf]
  | cons a as ih =>
      rw [List.cons_append, wordOf, wordOf, ih, List.length_cons, Nat.pow_succ]
      ring

/-- A word, split at a byte. -/
theorem wordOf_take_drop (j : Nat) (bs : List UInt8) :
    wordOf (bs.take j) = wordOf bs % 256 ^ j ∧ wordOf (bs.drop j) = wordOf bs / 256 ^ j := by
  by_cases hj : j ≤ bs.length
  · have hsplit := wordOf_append (bs.take j) (bs.drop j)
    have hlt := wordOf_lt (bs.take j)
    rw [List.take_append_drop, List.length_take, Nat.min_eq_left hj] at hsplit
    rw [List.length_take, Nat.min_eq_left hj] at hlt
    rw [hsplit]
    constructor
    · rw [Nat.add_mul_mod_self_left, Nat.mod_eq_of_lt hlt]
    · rw [Nat.add_mul_div_left _ _ (Nat.pow_pos (by decide)), Nat.div_eq_of_lt hlt, Nat.zero_add]
  · have hle : bs.length ≤ j := Nat.le_of_not_le hj
    have hlt : wordOf bs < 256 ^ j :=
      (wordOf_lt bs).trans_le (Nat.pow_le_pow_right (by decide) hle)
    rw [List.take_of_length_le hle, List.drop_eq_nil_of_le hle, Nat.mod_eq_of_lt hlt,
      Nat.div_eq_of_lt hlt]
    exact ⟨rfl, rfl⟩

/-! ## Fields of a struct -/

/-- The field of `k` bytes at offset `off`. -/
def field (l : List UInt8) (off k : Nat) : Nat := wordOf ((l.drop off).take k)

/-- A word whose first `j` bytes are those of `a`, and the rest those of `b`. -/
def mix (j a b : Nat) : Nat := a % 256 ^ j + 256 ^ j * (b / 256 ^ j)

theorem mix_self (j a : Nat) : mix j a a = a := Nat.mod_add_div a _

theorem mix_none (a b : Nat) : mix 0 a b = b := by
  simp [mix, Nat.mod_one]

theorem mix_zero (j a : Nat) : mix j a 0 = a % 256 ^ j := by
  simp [mix]

theorem field_lt (l : List UInt8) (off k : Nat) : field l off k < 256 ^ k := by
  refine (wordOf_lt _).trans_le (Nat.pow_le_pow_right (by decide) ?_)
  exact (List.length_take_le k _)

theorem field_append_right {as bs : List UInt8} {off k : Nat} (h : as.length ≤ off) :
    field (as ++ bs) off k = field bs (off - as.length) k := by
  rw [field, List.drop_append, List.drop_eq_nil_of_le h, List.nil_append, field]

theorem field_bytesOf (k v : Nat) (bs : List UInt8) :
    field (bytesOf k v ++ bs) 0 k = v % 256 ^ k := by
  have htake : (bytesOf k v ++ bs).take k = bytesOf k v :=
    List.take_left' (length_bytesOf k v)
  rw [field, List.drop_zero, htake, wordOf_bytesOf]

/-- Copying the first `n` bytes of one struct over another cuts each field
at the byte where the copy ends. -/
theorem field_splice {as bs : List UInt8} {n off k : Nat} (has : n ≤ as.length) :
    field (as.take n ++ bs.drop n) off k =
      mix (min k (n - off)) (field as off k) (field bs off k) := by
  have hlen : (as.take n).length = n := by rw [List.length_take, Nat.min_eq_left has]
  by_cases hoff : n ≤ off
  · -- the field is behind the copy
    rw [field_append_right (by omega), hlen, Nat.sub_eq_zero_of_le hoff, Nat.min_zero, mix_none,
      field, List.drop_drop, Nat.add_sub_cancel' hoff, field]
  · have hfront : ((as.take n ++ bs.drop n).drop off).take k =
        ((as.drop off).take k).take (min k (n - off)) ++
          ((bs.drop off).take k).drop (min k (n - off)) := by
      rw [List.drop_append_of_le_length (by omega), List.take_append, List.length_drop, hlen,
        List.drop_take, List.take_take, List.take_take, Nat.min_assoc, List.drop_take,
        List.drop_drop]
      congr 1
      · congr 1
        omega
      · by_cases hk : k ≤ n - off
        · rw [Nat.sub_eq_zero_of_le hk, Nat.min_eq_left hk, Nat.sub_self, List.take_zero,
            List.take_zero]
        · rw [Nat.min_eq_right (by omega), Nat.add_sub_cancel' (by omega)]
    have hcut : (((as.drop off).take k).take (min k (n - off))).length = min k (n - off) := by
      simp only [List.length_take, List.length_drop]
      omega
    rw [field, hfront, wordOf_append, hcut, (wordOf_take_drop _ _).1, (wordOf_take_drop _ _).2,
      mix, field, field]

/-! ## Words in memory -/

/-- The word at address `a`, in `k` bytes. -/
def readWord (m : Nat → UInt8) (a k : Nat) : Nat := wordOf (readSlice m a k)

theorem readWord_lt (m : Nat → UInt8) (a k : Nat) : readWord m a k < 256 ^ k := by
  simpa [readWord] using wordOf_lt (readSlice m a k)

theorem readWord_congr {m m' : Nat → UInt8} {a k : Nat}
    (h : ∀ x, a ≤ x → x < a + k → m x = m' x) : readWord m a k = readWord m' a k := by
  rw [readWord, readWord, readSlice_congr h]

/-- A word in memory is a field of a struct around it. -/
theorem readWord_eq_field (m : Nat → UInt8) (a : Nat) {off k n : Nat} (h : off + k ≤ n) :
    readWord m (a + off) k = field (readSlice m a n) off k := by
  rw [readWord, field, drop_readSlice, take_readSlice m (a + off) (by omega)]

theorem readWord_writeSlice (m : Nat → UInt8) (a k v : Nat) (hv : v < 256 ^ k) :
    readWord (writeSlice m a (bytesOf k v)) a k = v := by
  have h := readSlice_writeSlice m a (bytesOf k v)
  rw [length_bytesOf] at h
  rw [readWord, h, wordOf_bytesOf_of_lt hv]

/-! ## Blocks -/

/-- The block `[addr, addr + len)`. -/
structure Block where
  addr : Nat
  len : Nat
deriving DecidableEq, Repr

/-- One block ends before the other begins. -/
def Block.Apart (b c : Block) : Prop := b.addr + b.len ≤ c.addr ∨ c.addr + c.len ≤ b.addr

theorem Block.Apart.symm {b c : Block} (h : b.Apart c) : c.Apart b := Or.symm h

theorem sum_length_le_card {bs : List Block} {s : Finset Nat} (hd : bs.Pairwise Block.Apart)
    (hs : ∀ b ∈ bs, Finset.Ico b.addr (b.addr + b.len) ⊆ s) : (bs.map Block.len).sum ≤ s.card := by
  induction bs generalizing s with
  | nil => exact Nat.zero_le _
  | cons b bs ih =>
      rw [List.pairwise_cons] at hd
      have hb : Finset.Ico b.addr (b.addr + b.len) ⊆ s := hs b List.mem_cons_self
      have hrest : (bs.map Block.len).sum ≤ (s \ Finset.Ico b.addr (b.addr + b.len)).card := by
        apply ih hd.2
        intro c hc x hx
        refine Finset.mem_sdiff.mpr ⟨hs c (List.mem_cons_of_mem _ hc) hx, fun hxb => ?_⟩
        rw [Finset.mem_Ico] at hx hxb
        rcases hd.1 c hc with h | h <;> omega
      have hcard := Finset.card_le_card hb
      rw [Finset.card_sdiff_of_subset hb] at hrest
      rw [Nat.card_Ico] at hrest hcard
      rw [List.map_cons, List.sum_cons]
      omega

theorem sum_length_le {bs : List Block} {bound : Nat} (hd : bs.Pairwise Block.Apart)
    (hb : ∀ b ∈ bs, b.addr + b.len ≤ bound) : (bs.map Block.len).sum ≤ bound := by
  have h := sum_length_le_card (s := Finset.range bound) hd fun b hbs x hx => by
    have := hb b hbs
    rw [Finset.mem_Ico] at hx
    exact Finset.mem_range.mpr (by omega)
  rwa [Finset.card_range] at h

end Words
