import Tealet.Base

/-!
# Stack integrity: configuration, guard pages, snapshots

The runtime configuration and the two backends that watch the bytes at
the far end of the running tealet's stack: a snapshot that is compared
before the next switch, and pages protected with `mprotect`. All of it is
bookkeeping beside the switching core: no function here touches a tealet
record, a saved stack or the bytes of a stack.

Pointer arithmetic is modulo the address width (`wordMod`). The operating
system is a parameter: the page size, and for each call of `mprotect`
whether it succeeds or which bytes a failing call leaves protected.
-/

namespace Tealet

open Slice

/-- The modulus of `uintptr_t` and `size_t`. -/
def wordMod : Nat := 2 ^ 64

/-- The `g_cfg_*` fields of the main tealet; a limit of 0 is `NULL`. -/
structure Config where
  integrity : Bool := false
  guard : Bool := false
  snapshot : Bool := false
  stackIntegrityBytes : Nat := 0
  stackGuardMode : Int := 0
  stackIntegrityFailPolicy : Int := 0
  stackGuardLimit : Nat := 0
  maxStackSize : Nat := 16 * 1024 * 1024
deriving DecidableEq, Repr

/-- `tealet_integrity_data_t`. -/
structure IntegrityData where
  stackBase : Nat := 0
  snapshotBytes : Nat := 0
  snapshotBlock : List Byte := []
  snapshotCapacity : Nat := 0
  guardBase : Nat := 0
  guardBytes : Nat := 0
deriving DecidableEq, Repr

inductive LockOp where
  | lock | unlock
deriving DecidableEq, Repr

/-- The part of the main tealet that the switching core only passes
through: configuration, watched interval, lock callbacks, statistics list. -/
structure Env where
  cfg : Config := {}
  data : IntegrityData := {}
  /-- `sysconf(_SC_PAGESIZE)`, 0 if it fails. -/
  pageSize : Nat := 4096
  /-- The bytes whose protection the library has lowered. -/
  lowered : Nat → Bool := fun _ => false
  /-- The outcomes of the next `mprotect` calls: success, or what a failing
  call leaves lowered in its range. Past the end of the list they succeed. -/
  mprotects : List (Option (Nat → Bool)) := []
  gMainStackProbe : Nat := 0
  gExtrasize : Nat := 0
  lockModeAuto : Bool := false
  hasLock : Bool := false
  hasUnlock : Bool := false
  /-- The lock callbacks made so far, newest first. -/
  lockLog : List LockOp := []
  nextTealet : TealetId → TealetId := fun _ => mainId
  prevTealet : TealetId → TealetId := fun _ => mainId
  gTealets : Nat := 1
  gCounter : Nat := 1

/-! ## Configuration -/

/-- `tealet_config_canonicalize`, with every backend compiled in. -/
def configCanonicalize (c : Config) : Config :=
  let guard := c.integrity && c.guard
  let snapshot := c.integrity && c.snapshot
  let integrity := c.integrity && (guard || snapshot)
  let watched := decide (c.stackIntegrityBytes ≠ 0)
  let guard := guard && watched
  let snapshot := snapshot && watched
  let integrity := integrity && watched
  { integrity := integrity
    guard := guard
    snapshot := snapshot
    stackIntegrityBytes := if integrity then c.stackIntegrityBytes else 0
    stackGuardMode :=
      if guard then (if c.stackGuardMode ≠ 1 ∧ c.stackGuardMode ≠ 2 then 2 else c.stackGuardMode)
      else 0
    stackIntegrityFailPolicy :=
      if c.stackIntegrityFailPolicy ≠ 0 ∧ c.stackIntegrityFailPolicy ≠ 1 ∧
          c.stackIntegrityFailPolicy ≠ 2 then 0
      else c.stackIntegrityFailPolicy
    stackGuardLimit := if integrity then c.stackGuardLimit else 0
    maxStackSize := c.maxStackSize }

/-- `tealet_snapshot_required_capacity`. -/
def snapshotRequiredCapacity (pageSize : Nat) (c : Config) : Nat :=
  let required := if c.snapshot then c.stackIntegrityBytes else 0
  if c.snapshot ∧ c.guard ∧ 1 < pageSize then min required (pageSize - 1) else required

/-! ## The plan -/

/-- `(x + page_mask) & ~page_mask`. -/
def alignUp (pageSize x : Nat) : Nat :=
  ((x + (pageSize - 1)) % wordMod) &&& (wordMod - 1 - (pageSize - 1))

/-- The number of watched bytes at `far`: `stack_integrity_bytes`, cut by
the guard limit; 0 when nothing is planned. -/
def plannedBytes (c : Config) (far : Nat) : Nat :=
  if far = spFurthest ∨ c.integrity = false then 0
  else if c.stackGuardLimit = 0 then c.stackIntegrityBytes
  else if c.stackGuardLimit ≤ far then 0
  else min c.stackIntegrityBytes (c.stackGuardLimit - far)

/-- `tealet_integrity_plan_for_current` for a running tealet with boundary `far`. -/
def integrityPlan (pageSize : Nat) (c : Config) (far : Nat) (d : IntegrityData) :
    Res IntegrityData := do
  let d := { d with stackBase := 0, snapshotBytes := 0, guardBase := 0, guardBytes := 0 }
  let n := plannedBytes c far
  if n = 0 then
    return d
  else
    let d := { d with stackBase := far }
    let start := far
    let stop := (start + n) % wordMod
    let snapshotBytes := if c.snapshot then n else 0
    let (d, snapshotBytes) :=
      if c.guard ∧ pageSize ≠ 0 ∧ start < stop then
        let alignedBegin := alignUp pageSize start
        let alignedEnd := alignUp pageSize stop
        let alignedEnd := if stop ≤ alignedBegin then alignedBegin else alignedEnd
        let snapshotBytes :=
          if snapshotBytes ≠ 0 then
            min snapshotBytes ((alignedBegin + wordMod - start) % wordMod)
          else snapshotBytes
        if alignedBegin < alignedEnd then
          ({ d with guardBase := alignedBegin, guardBytes := alignedEnd - alignedBegin },
            snapshotBytes)
        else (d, snapshotBytes)
      else (d, snapshotBytes)
    if snapshotBytes ≠ 0 then
      require .integrityPlan (snapshotBytes ≤ d.snapshotCapacity)
      return { d with snapshotBytes := snapshotBytes }
    else
      return d

/-! ## Guard pages -/

/-- `mprotect` on `[base, base + bytes)`: whether it succeeded. -/
def Env.mprotect (e : Env) (base bytes : Nat) (lower : Bool) : Env × Bool :=
  let inside (a : Nat) := decide (base ≤ a ∧ a < base + bytes)
  match e.mprotects with
  | [] => ({ e with lowered := fun a => if inside a then lower else e.lowered a }, true)
  | none :: rest =>
      ({ e with lowered := fun a => if inside a then lower else e.lowered a, mprotects := rest },
        true)
  | some left :: rest =>
      ({ e with lowered := fun a => if inside a then left a else e.lowered a, mprotects := rest },
        false)

/-- `tealet_guard_unprotect_current`. -/
def guardUnprotectCurrent (e : Env) : Res Env :=
  if e.data.guardBytes = 0 then .ok e
  else do
    require .guardUnprotect (e.data.guardBase ≠ 0)
    let (e, _) := e.mprotect e.data.guardBase e.data.guardBytes false
    return { e with data := { e.data with guardBytes := 0 } }

/-- `tealet_guard_protect_current`. -/
def guardProtectCurrent (e : Env) : Res Env :=
  if e.data.guardBytes = 0 then .ok e
  else do
    require .guardProtect (e.data.guardBase ≠ 0)
    let (e, ok) := e.mprotect e.data.guardBase e.data.guardBytes true
    if ok then return e
    else return { e with data := { e.data with guardBytes := 0 } }

/-! ## Snapshots -/

/-- `tealet_snapshot_capture_current` for a running tealet with boundary `far`. -/
def snapshotCaptureCurrent (e : Env) (m : Memory) (far : Nat) : Res Env :=
  if e.data.snapshotBytes = 0 then .ok e
  else do
    require .snapshotCapture (e.data.stackBase ≠ 0)
    require .snapshotCapture (far ≠ 0)
    require .snapshotCapture (e.data.snapshotBytes ≤ e.data.snapshotCapacity)
    if far = spFurthest then return e
    else
      return { e with data :=
        { e.data with snapshotBlock := readSlice m e.data.stackBase e.data.snapshotBytes } }

/-- `tealet_snapshot_verify_current`; the error is `TEALET_ERR_INTEGRITY`. -/
def snapshotVerifyCurrent (e : Env) (m : Memory) : Res (Env × Option Err) :=
  if e.data.snapshotBytes = 0 then .ok (e, none)
  else do
    require .snapshotVerify (e.data.stackBase ≠ 0)
    let n := e.data.snapshotBytes
    let same := e.data.snapshotBlock.take n = readSlice m e.data.stackBase n
    let e := { e with data := { e.data with snapshotBytes := 0 } }
    if same then return (e, none)
    else if e.cfg.stackIntegrityFailPolicy = 2 then .error .abort
    else if e.cfg.stackIntegrityFailPolicy = 1 then return (e, some .integrity)
    else .error (.assertion .snapshotVerify)

/-- `tealet_snapshot_ensure_capacity`: `ok` is the outcome of the allocation
of a new workspace, which is only made when `required` calls for one. -/
def snapshotEnsureCapacity (e : Env) (required : Nat) (ok : Bool) : Env × Bool :=
  if required = 0 ∨ required ≤ e.data.snapshotCapacity then (e, true)
  else if ok then
    ({ e with data := { e.data with
        snapshotBytes := 0, stackBase := 0
        snapshotBlock := [], snapshotCapacity := required } }, true)
  else (e, false)

/-! ## Locking callbacks -/

/-- `tealet_lock_auto`. -/
def Env.lockAuto (e : Env) : Env :=
  if e.lockModeAuto && e.hasLock then { e with lockLog := .lock :: e.lockLog } else e

/-- `tealet_unlock_auto`. -/
def Env.unlockAuto (e : Env) : Env :=
  if e.lockModeAuto && e.hasUnlock then { e with lockLog := .unlock :: e.lockLog } else e

/-! ## The list of all tealets -/

/-- `TEALET_LIST_ADD`. -/
def Env.listAdd (e : Env) (t : TealetId) : Env :=
  let first := e.nextTealet mainId
  { e with
    nextTealet := fun x => if x = mainId then t else if x = t then first else e.nextTealet x
    prevTealet := fun x => if x = first then t else if x = t then mainId else e.prevTealet x }

/-- `TEALET_LIST_REMOVE`. -/
def Env.listRemove (e : Env) (t : TealetId) : Env :=
  { e with
    nextTealet := fun x => if x = e.prevTealet t then e.nextTealet t else e.nextTealet x
    prevTealet := fun x => if x = e.nextTealet t then e.prevTealet t else e.prevTealet x }

end Tealet
