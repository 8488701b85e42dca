import Mathlib.Data.Nat.Bitwise

/-!
# Rounding up to a power of two in machine words

`(x + mask) & ~mask` in words of `w` bits: it is the least multiple of
`mask + 1` that is not below `x`, unless the addition wraps, when it is 0.
-/

namespace Align

/-- Clearing the low bits. -/
theorem and_mask {w p y : Nat} (hp : p ≤ w) (hy : y < 2 ^ w) :
    y &&& (2 ^ w - 1 - (2 ^ p - 1)) = y / 2 ^ p * 2 ^ p := by
  have h : 2 ^ w - 1 - (2 ^ p - 1) = (2 ^ (w - p) - 1) * 2 ^ p := by
    rw [Nat.sub_mul, ← Nat.pow_add, Nat.sub_add_cancel hp]
    have := Nat.one_le_two_pow (n := p)
    omega
  rw [h]
  apply Nat.eq_of_testBit_eq
  intro i
  rw [Nat.testBit_and, Nat.testBit_mul_two_pow, Nat.testBit_mul_two_pow,
    Nat.testBit_two_pow_sub_one, Nat.testBit_div_two_pow]
  by_cases hi : p ≤ i
  · by_cases hw : i < w
    · have : i - p < w - p := by omega
      simp [hi, this, Nat.sub_add_cancel hi]
    · have hbit : y.testBit i = false :=
        Nat.testBit_lt_two_pow (Nat.lt_of_lt_of_le hy (Nat.pow_le_pow_right (by omega) (by omega)))
      simp [hi, hbit, Nat.sub_add_cancel hi]
  · simp [hi]

/-- A word is its bits outside a mask and those inside. -/
theorem and_add_and {w m y : Nat} (hm : m < 2 ^ w) (hy : y < 2 ^ w) :
    (y &&& (2 ^ w - 1 - m)) + (y &&& m) = y := by
  have hdisj : (BitVec.ofNat w y &&& ~~~BitVec.ofNat w m) &&&
      (BitVec.ofNat w y &&& BitVec.ofNat w m) = 0#w := by
    ext i hi
    simp only [BitVec.getElem_and, BitVec.getElem_not, BitVec.getElem_zero]
    cases (BitVec.ofNat w m)[i] <;> simp
  have hor : (BitVec.ofNat w y &&& ~~~BitVec.ofNat w m) |||
      (BitVec.ofNat w y &&& BitVec.ofNat w m) = BitVec.ofNat w y := by
    ext i hi
    simp only [BitVec.getElem_or, BitVec.getElem_and, BitVec.getElem_not]
    cases (BitVec.ofNat w y)[i] <;> cases (BitVec.ofNat w m)[i] <;> rfl
  have hsum := BitVec.toNat_add_of_and_eq_zero hdisj
  rw [BitVec.add_eq_or_of_and_eq_zero _ _ hdisj, hor] at hsum
  simpa [BitVec.toNat_and, BitVec.toNat_not, BitVec.toNat_ofNat, Nat.mod_eq_of_lt hm,
    Nat.mod_eq_of_lt hy] using hsum.symm

/-- Rounding up by any mask adds no more than the mask, in modular arithmetic. -/
theorem roundUp_sub_le {w m x : Nat} (hm : m < 2 ^ w) (hx : x < 2 ^ w) :
    ((((x + m) % 2 ^ w) &&& (2 ^ w - 1 - m)) + 2 ^ w - x) % 2 ^ w ≤ m := by
  have hlow : ((x + m) % 2 ^ w) &&& m ≤ m := Nat.and_le_right
  have hsplit := and_add_and hm (Nat.mod_lt (x + m) (Nat.two_pow_pos w))
  by_cases hw : x + m < 2 ^ w
  · rw [Nat.mod_eq_of_lt hw] at hlow hsplit ⊢
    have heq : (x + m &&& (2 ^ w - 1 - m)) + 2 ^ w - x = (m - (x + m &&& m)) + 2 ^ w := by omega
    rw [heq, Nat.add_mod_right]
    exact (Nat.mod_le _ _).trans (Nat.sub_le _ _)
  · have hmod : (x + m) % 2 ^ w = x + m - 2 ^ w := by
      rw [Nat.mod_eq_sub_mod (Nat.le_of_not_lt hw), Nat.mod_eq_of_lt (by omega)]
    rw [hmod] at hlow hsplit ⊢
    refine (Nat.mod_le _ _).trans ?_
    omega

/-- Rounding up, when the addition does not wrap. -/
theorem roundUp_bounds {w p x : Nat} (hp : p ≤ w) (h : x + (2 ^ p - 1) < 2 ^ w) :
    x ≤ ((x + (2 ^ p - 1)) % 2 ^ w) &&& (2 ^ w - 1 - (2 ^ p - 1)) ∧
      ((x + (2 ^ p - 1)) % 2 ^ w) &&& (2 ^ w - 1 - (2 ^ p - 1)) ≤ x + (2 ^ p - 1) := by
  rw [Nat.mod_eq_of_lt h, and_mask hp h]
  have hpos := Nat.two_pow_pos p
  have hdiv := Nat.div_add_mod (x + (2 ^ p - 1)) (2 ^ p)
  have hmod := Nat.mod_lt (x + (2 ^ p - 1)) hpos
  rw [Nat.mul_comm] at hdiv
  omega

/-- Rounding up, when it does. -/
theorem roundUp_wrap {w p x : Nat} (hp : p ≤ w) (hx : x < 2 ^ w) (h : 2 ^ w ≤ x + (2 ^ p - 1)) :
    ((x + (2 ^ p - 1)) % 2 ^ w) &&& (2 ^ w - 1 - (2 ^ p - 1)) = 0 := by
  have hpow := Nat.pow_le_pow_right (n := 2) (by omega) hp
  have hmod : (x + (2 ^ p - 1)) % 2 ^ w = x + (2 ^ p - 1) - 2 ^ w := by
    rw [Nat.mod_eq_sub_mod h, Nat.mod_eq_of_lt (by omega)]
  rw [hmod, and_mask hp (by omega), Nat.div_eq_of_lt (by omega), Nat.zero_mul]

/-- What rounding up gives is a multiple. -/
theorem dvd_roundUp {w p : Nat} (hp : p ≤ w) (y : Nat) :
    2 ^ p ∣ (y % 2 ^ w) &&& (2 ^ w - 1 - (2 ^ p - 1)) := by
  rw [and_mask hp (Nat.mod_lt _ (Nat.two_pow_pos w))]
  exact Nat.dvd_mul_left _ _

end Align
