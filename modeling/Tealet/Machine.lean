import Tealet.Integrity
import Tealet.Lib.Align
import Tealet.Lib.Hoare

/-!
# Planning on a machine of any width

`tealet_integrity_plan_for_current` and what follows it, with the width of
the address and `STACKMAN_SP_FURTHEST` as parameters. `Machine.x64` is the
machine of the other modules; there the functions are those of `Integrity`
(`x64_integrityPlan`, `x64_snapshotCaptureCurrent`).
-/

namespace Tealet

open Hoare Slice

structure Machine where
  /-- bits of a `uintptr_t` and of a `size_t` -/
  width : Nat
  /-- `STACKMAN_SP_FURTHEST` -/
  furthest : Nat

namespace Machine

def x64 : Machine := ⟨64, spFurthest⟩

variable (M : Machine)

def modulus : Nat := 2 ^ M.width

/-- `(x + page_mask) & ~page_mask`. -/
def alignUp (pageSize x : Nat) : Nat :=
  ((x + (pageSize - 1)) % M.modulus) &&& (M.modulus - 1 - (pageSize - 1))

/-- The number of watched bytes at `far`. -/
def plannedBytes (c : Config) (far : Nat) : Nat :=
  if far = M.furthest ∨ c.integrity = false then 0
  else if c.stackGuardLimit = 0 then c.stackIntegrityBytes
  else if c.stackGuardLimit ≤ far then 0
  else min c.stackIntegrityBytes (c.stackGuardLimit - far)

/-- `tealet_integrity_plan_for_current` for a running tealet with boundary `far`. -/
def integrityPlan (pageSize : Nat) (c : Config) (far : Nat) (d : IntegrityData) :
    Res IntegrityData := do
  let d := { d with stackBase := 0, snapshotBytes := 0, guardBase := 0, guardBytes := 0 }
  let n := M.plannedBytes c far
  if n = 0 then
    return d
  else
    let d := { d with stackBase := far }
    let start := far
    let stop := (start + n) % M.modulus
    let snapshotBytes := if c.snapshot then n else 0
    let (d, snapshotBytes) :=
      if c.guard ∧ pageSize ≠ 0 ∧ start < stop then
        let alignedBegin := M.alignUp pageSize start
        let alignedEnd := M.alignUp pageSize stop
        let alignedEnd := if stop ≤ alignedBegin then alignedBegin else alignedEnd
        let snapshotBytes :=
          if snapshotBytes ≠ 0 then
            min snapshotBytes ((alignedBegin + M.modulus - start) % M.modulus)
          else snapshotBytes
        if alignedBegin < alignedEnd then
          ({ d with guardBase := alignedBegin, guardBytes := alignedEnd - alignedBegin },
            snapshotBytes)
        else (d, snapshotBytes)
      else (d, snapshotBytes)
    if snapshotBytes ≠ 0 then
      require .integrityPlan (snapshotBytes ≤ d.snapshotCapacity)
      return { d with snapshotBytes := snapshotBytes }
    else
      return d

/-- `tealet_snapshot_capture_current` for a running tealet with boundary `far`. -/
def snapshotCaptureCurrent (e : Env) (m : Memory) (far : Nat) : Res Env :=
  if e.data.snapshotBytes = 0 then .ok e
  else do
    require .snapshotCapture (e.data.stackBase ≠ 0)
    require .snapshotCapture (far ≠ 0)
    require .snapshotCapture (e.data.snapshotBytes ≤ e.data.snapshotCapacity)
    if far = M.furthest then return e
    else
      return { e with data :=
        { e.data with snapshotBlock := readSlice m e.data.stackBase e.data.snapshotBytes } }

/-- Plan, capture and protect. -/
def arm (e : Env) (m : Memory) (far : Nat) : Res Env := do
  let d ← M.integrityPlan e.pageSize e.cfg far e.data
  let e ← M.snapshotCaptureCurrent { e with data := d } m far
  guardProtectCurrent e

theorem x64_integrityPlan : x64.integrityPlan = Tealet.integrityPlan := rfl

theorem x64_snapshotCaptureCurrent :
    x64.snapshotCaptureCurrent = Tealet.snapshotCaptureCurrent := rfl

/-! ## What is planned -/

/-- The window is guarded from its first page boundary on. -/
def Guarded (pageSize : Nat) (c : Config) (far : Nat) : Prop :=
  c.guard = true ∧ pageSize ≠ 0 ∧ far < (far + M.plannedBytes c far) % M.modulus

instance (pageSize : Nat) (c : Config) (far : Nat) : Decidable (M.Guarded pageSize c far) :=
  inferInstanceAs (Decidable (_ ∧ _ ∧ _))

/-- Where the pages of a guarded window end. -/
def guardEnd (pageSize : Nat) (c : Config) (far : Nat) : Nat :=
  let stop := (far + M.plannedBytes c far) % M.modulus
  if stop ≤ M.alignUp pageSize far then M.alignUp pageSize far else M.alignUp pageSize stop

/-- The number of bytes that are compared with the snapshot. -/
def snapshotLength (pageSize : Nat) (c : Config) (far : Nat) : Nat :=
  let n := if c.snapshot then M.plannedBytes c far else 0
  if M.Guarded pageSize c far ∧ n ≠ 0 then
    min n ((M.alignUp pageSize far + M.modulus - far) % M.modulus)
  else n

/-- The plan for a running tealet with boundary `far`. -/
def plannedData (pageSize : Nat) (c : Config) (far : Nat) (d : IntegrityData) : IntegrityData :=
  let pages := M.Guarded pageSize c far ∧ M.alignUp pageSize far < M.guardEnd pageSize c far
  { d with
    stackBase := if M.plannedBytes c far = 0 then 0 else far
    snapshotBytes := M.snapshotLength pageSize c far
    guardBase := if pages then M.alignUp pageSize far else 0
    guardBytes := if pages then M.guardEnd pageSize c far - M.alignUp pageSize far else 0 }

variable {M} {pageSize far : Nat} {c : Config} {d : IntegrityData}

theorem snapshotLength_le (pageSize : Nat) (c : Config) (far : Nat) :
    M.snapshotLength pageSize c far ≤ M.plannedBytes c far := by
  have hn : (if c.snapshot then M.plannedBytes c far else 0) ≤ M.plannedBytes c far := by
    split <;> omega
  unfold snapshotLength
  dsimp only
  generalize (if c.snapshot then M.plannedBytes c far else 0) = n at hn ⊢
  split
  · exact (Nat.min_le_left _ _).trans hn
  · exact hn

theorem not_guarded_of_none (h : M.plannedBytes c far = 0) : ¬ M.Guarded pageSize c far := by
  rintro ⟨-, -, hlt⟩
  rw [h, Nat.add_zero] at hlt
  exact absurd hlt (Nat.not_lt_of_le (Nat.mod_le _ _))

/-- The last step of the plan records the length of the snapshot. -/
theorem recordSnapshot_eq (d : IntegrityData) (b : Nat) (hz : d.snapshotBytes = 0) :
    (if b ≠ 0 then do
        require .integrityPlan (b ≤ d.snapshotCapacity)
        return { d with snapshotBytes := b }
      else return d : Res IntegrityData) =
      if b ≤ d.snapshotCapacity then .ok { d with snapshotBytes := b }
      else .error (.assertion .integrityPlan) := by
  by_cases hb : b = 0
  · subst hb
    rw [if_neg (by simp), if_pos (Nat.zero_le _), ← hz]
    rfl
  · rw [if_pos hb]
    by_cases hle : b ≤ d.snapshotCapacity
    · rw [if_pos hle, require_of hle]
      rfl
    · rw [if_neg hle, require, if_neg hle]
      rfl

/-- What is planned, and the only way in which planning fails. -/
theorem integrityPlan_eq : M.integrityPlan pageSize c far d =
    if M.snapshotLength pageSize c far ≤ d.snapshotCapacity then
      .ok (M.plannedData pageSize c far d)
    else .error (.assertion .integrityPlan) := by
  unfold integrityPlan
  dsimp only
  by_cases h0 : M.plannedBytes c far = 0
  · have hlen : M.snapshotLength pageSize c far = 0 := by
      have hle := M.snapshotLength_le pageSize c far
      omega
    rw [if_pos h0, if_pos (by omega)]
    simp only [plannedData, hlen, h0, not_guarded_of_none h0, false_and, if_false, if_true]
    rfl
  rw [if_neg h0]
  by_cases hg : c.guard = true ∧ pageSize ≠ 0 ∧ far < (far + M.plannedBytes c far) % M.modulus
  · have hlen : (if (if c.snapshot then M.plannedBytes c far else 0) ≠ 0 then
          min (if c.snapshot then M.plannedBytes c far else 0)
            ((M.alignUp pageSize far + M.modulus - far) % M.modulus)
        else (if c.snapshot then M.plannedBytes c far else 0)) =
          M.snapshotLength pageSize c far := by
      simp only [snapshotLength, show M.Guarded pageSize c far from hg, true_and]
    have hend : (if (far + M.plannedBytes c far) % M.modulus ≤ M.alignUp pageSize far then
          M.alignUp pageSize far
        else M.alignUp pageSize ((far + M.plannedBytes c far) % M.modulus)) =
          M.guardEnd pageSize c far := rfl
    rw [if_pos hg, hlen, hend]
    by_cases hlt : M.alignUp pageSize far < M.guardEnd pageSize c far
    · rw [if_pos hlt]
      refine (recordSnapshot_eq _ _ rfl).trans ?_
      simp only [plannedData, h0, show M.Guarded pageSize c far from hg, hlt, and_self, if_false,
        if_true]
    · rw [if_neg hlt]
      refine (recordSnapshot_eq _ _ rfl).trans ?_
      simp only [plannedData, h0, hlt, and_false, if_false]
  · have hlen : (if c.snapshot then M.plannedBytes c far else 0) =
        M.snapshotLength pageSize c far := by
      simp only [snapshotLength, show ¬ M.Guarded pageSize c far from hg, false_and, if_false]
    rw [if_neg hg, hlen]
    refine (recordSnapshot_eq _ _ rfl).trans ?_
    simp only [plannedData, h0, show ¬ M.Guarded pageSize c far from hg, false_and, if_false]

end Machine

end Tealet
