import Tealet.Stack
import Tealet.Integrity

/-!
# Switching

`tealet_save_state`, `tealet_restore_state`, the callback of
`stackman_switch` and `tealet_switchstack`.

`tealet_switchstack` is called in one context and returns in another: the
call saves the stack it runs on, `stackman_switch` moves the stack pointer
to the near end of the target's saved stack, and from there on the locals
are those of the call the target was suspended in. `switchstack` models
the call up to its return; `Back` says in which suspended call it returns
and with which result.
-/

namespace Tealet

open Slice

/-- `tealet_sub_t`. -/
structure TealetSub where
  stackFar : Nat := 0
  stack : Option StackId := none
  flags : TFlags := {}
deriving DecidableEq, Repr

/-- `tealet_main_t`, the heap behind it and the C stack. -/
structure State where
  heap : Heap := {}
  tealets : TealetId → Option TealetSub := fun _ => none
  nextTealet : TealetId := 0
  mem : Memory := fun _ => 0
  gCurrent : TealetId := mainId
  gPrevious : Option TealetId := none
  gTarget : Option TealetId := none
  gArg : Ptr := null
  gSw : Sw := .nop
  gFlags : GFlags := {}
  /-- The tealet whose stack the processor runs on. No function reads it:
  it records where the last `stackman_switch` went. -/
  live : TealetId := mainId
  env : Env := {}

namespace State

def tealet (s : State) (t : TealetId) : Res TealetSub :=
  match s.tealets t with
  | some r => .ok r
  | none => .error .freed

def setTealet (s : State) (t : TealetId) (r : TealetSub) : State :=
  { s with tealets := Function.update s.tealets t (some r) }

/-- `((tealet_sub_t *)main)->stack`. -/
def mainStack (s : State) : Option StackId :=
  (s.tealets mainId).bind TealetSub.stack

def clearPanic (s : State) : State :=
  { s with gFlags := { s.gFlags with panic := false } }

def lockAuto (s : State) : State := { s with env := s.env.lockAuto }

def unlockAuto (s : State) : State := { s with env := s.env.unlockAuto }

end State

/-! ## Checks -/

/-- `tealet_is_defunct`, which caches a defunct stack in the record. -/
def isDefunct (s : State) (t : TealetId) : Res (State × Bool) := do
  let r ← s.tealet t
  if r.flags.defunct then
    return (s, true)
  else
    match r.stack with
    | none => return (s, false)
    | some k =>
        let st ← s.heap.stack k
        if st.defunct then
          return (s.setTealet t { r with flags := { r.flags with defunct := true } }, true)
        else
          return (s, false)

/-- `tealet_verify_current_matches_caller`, called on the stack position `sp`. -/
def verifyCurrentMatchesCaller (s : State) (sp : Nat) : Res Unit := do
  let r ← s.tealet s.gCurrent
  require .verifyCurrent (r.flags.exited = false)
  if r.stackFar = spFurthest then
    return ()
  else
    require .verifyCurrent (r.stackFar ≠ 0)
    require .verifyCurrent (sp < r.stackFar)

/-- `tealet_abs_ptr_distance`. -/
def absPtrDistance (a b : Nat) : Nat :=
  if b < a then a - b else b - a

/-- The test of `tealet_check_caller_is_current` on a running tealet with
boundary `far`: `TEALET_ERR_INVAL` or nothing. -/
def callerRejected (e : Env) (far sp : Nat) : Bool :=
  let maxStackSize := e.cfg.maxStackSize
  if far ≠ spFurthest then
    decide (far ≤ sp) ||
      (decide (maxStackSize ≠ 0) && decide (maxStackSize < absPtrDistance far sp))
  else
    decide (maxStackSize ≠ 0) && decide (e.gMainStackProbe ≠ 0) &&
      decide (maxStackSize < absPtrDistance e.gMainStackProbe sp)

/-- `tealet_check_caller_is_current`. -/
def checkCallerIsCurrent (s : State) (sp : Nat) : Res Bool := do
  let r ← s.tealet s.gCurrent
  require .checkCaller (r.flags.exited = false)
  verifyCurrentMatchesCaller s sp
  return callerRejected s.env r.stackFar sp

/-- Plan, capture and protect, as `tealet_switchstack` does for the tealet
that is current when it returns. -/
def armIntegrity (s : State) (sp : Nat) : Res State := do
  verifyCurrentMatchesCaller s sp
  let r ← s.tealet s.gCurrent
  let d ← integrityPlan s.env.pageSize s.env.cfg r.stackFar s.env.data
  let e : Env := { s.env with data := d }
  verifyCurrentMatchesCaller s sp
  let e ← snapshotCaptureCurrent e s.mem r.stackFar
  let e ← guardProtectCurrent e
  return { s with env := e }

/-! ## Saving and restoring -/

/-- `offsetof(tealet_nonmain_t, _extra)` with 8 byte pointers. -/
def tealetHeader : Nat := 64

/-- `offsetof(tealet_main_t, _extra)` with 8 byte pointers. -/
def mainHeader : Nat := 352

/-- `tealet_free_tealet`. -/
def freeTealet (s : State) (t : TealetId) : State :=
  { s with
    gPrevious := if s.gPrevious = some t then none else s.gPrevious
    tealets := Function.update s.tealets t none
    env := s.env.listRemove t
    heap := { s.heap with stats := s.heap.stats.subAlloc (tealetHeader + s.env.gExtrasize) } }

/-- `tealet_save_state`, called at the stack pointer `sp` inside the call
`k`; the result says that it failed. -/
def saveState (s : State) (k : Frame) (sp : Nat) : Res (State × Bool) := do
  match s.gTarget with
  | none => .error .freed
  | some gTarget =>
      let target ← s.tealet gTarget
      verifyCurrentMatchesCaller s sp
      let current ← s.tealet s.gCurrent
      require .saveState (target.flags.exited = false)
      require .saveState (s.gCurrent ≠ gTarget)
      let exiting := current.flags.exiting
      let force := current.flags.saveforce
      let s := s.setTealet s.gCurrent
        { current with flags := { current.flags with saveforce := false } }
      let failOk := !force || decide (s.gCurrent = mainId)
      require .saveState (current.stackFar = spFurthest → exiting = false ∧ s.heap.gPrev = none)
      let (h, fail) ← stackGrowList s.mem s.mainStack target.stackFar target.stack failOk
        s.heap.nextStack s.heap s.heap.gPrev
      let s := { s with heap := h }
      if fail then
        return (s, true)
      else
        require .saveState (target.stackFar = spFurthest → s.heap.gPrev = none)
        if exiting then
          require .saveState (s.gCurrent ≠ mainId)
          let flags := { current.flags with
            exiting := false, autodelete := false, saveforce := false, exited := true }
          if current.flags.autodelete then
            let s := { s with env := { s.env with gTealets := s.env.gTealets - 1 } }
            return (freeTealet s s.gCurrent, false)
          else
            return (s.setTealet s.gCurrent { current with flags := flags, stack := none }, false)
        else
          let (h, stack, full) ←
            stackSaveto s.heap s.mem k sp current.stackFar target.stackFar
          let s := { s with heap := h }
          match stack with
          | none =>
              if failOk then
                return (s, true)
              else
                require .saveState (s.gCurrent ≠ mainId)
                return (s.setTealet s.gCurrent { current with flags :=
                  { current.flags with saveforce := false, defunct := true } }, false)
          | some st =>
              let s := s.setTealet s.gCurrent { current with
                flags := { current.flags with saveforce := false }, stack := some st }
              require .saveState (current.stackFar = spFurthest → full = false)
              if full then
                return (s, false)
              else
                let h ← stackLink s.heap st
                return ({ s with heap := h }, false)

/-- `tealet_restore_state`. -/
def restoreState (s : State) (sp : Nat) : Res State := do
  match s.gTarget with
  | none => .error .freed
  | some g =>
      let r ← s.tealet g
      match r.stack with
      | none => .error (.assertion .restoreState)
      | some stack =>
          let st ← s.heap.stack stack
          require .restoreState (sp = st.chunk.stackNear)
          let m ← stackRestore s.heap s.mem stack
          let h ← stackDecref s.heap (some stack)
          return { s with
            mem := m
            heap := h
            tealets := Function.update s.tealets g (some { r with stack := none }) }

/-- `stackman_switch(tealet_save_restore_cb, g_main)`: the callback with
`STACKMAN_OP_SAVE`, the new stack pointer, the callback with
`STACKMAN_OP_RESTORE`. The results are the suspended call whose frame the
stack pointer is in afterwards, and the stack pointer. -/
def stackmanSwitch (s : State) (k : Frame) (sp : Nat) : Res (State × Frame × Nat) := do
  let gTarget := s.gTarget
  let (s, failed) ← saveState s k sp
  if failed then
    return ({ s with gSw := .err }, k, sp)
  else
    match gTarget with
    | none => .error .freed
    | some g =>
        let target ← s.tealet g
        match target.stack with
        | none => return ({ s with gSw := .nop }, k, sp)
        | some stack =>
            let st ← s.heap.stack stack
            let s := { s with gSw := .restore }
            let s ← restoreState s st.chunk.stackNear
            return (s, st.frame, st.chunk.stackNear)

/-! ## `tealet_switchstack` -/

/-- A return of `tealet_switchstack`: the suspended call it returns in, its
result and, when `*out_arg` was written, the value. -/
structure Back where
  frame : Frame
  rc : Rc
  arg : Option Ptr := none
deriving DecidableEq, Repr

/-- `tealet_switchstack`, called at the stack pointer `sp` inside the call `k`. -/
def switchstack (s : State) (target : TealetId) (inArg : Ptr) (k : Frame) (sp : Nat) :
    Res (State × Back) := do
  let oldPrevious := s.gPrevious
  require .switchstack (target ≠ s.gCurrent)
  let r ← s.tealet target
  if r.flags.exited then
    return (s.clearPanic, ⟨k, .err .inval, none⟩)
  else
    let (s, defunct) ← isDefunct s target
    if defunct then
      return (s.clearPanic, ⟨k, .err .defunct, none⟩)
    else
      let rejected ← checkCallerIsCurrent s sp
      if rejected then
        return (s.clearPanic, ⟨k, .err .inval, none⟩)
      else
        let e ← guardUnprotectCurrent s.env
        let (e, verdict) ← snapshotVerifyCurrent e s.mem
        let s := { s with env := e }
        match verdict with
        | some err => return (s.clearPanic, ⟨k, .err err, none⟩)
        | none =>
            let s := { s with
              gPrevious := some s.gCurrent, gTarget := some target, gArg := inArg }
            let (s, k', sp') ← stackmanSwitch s k sp
            if s.gSw = .err then
              let s := { s with gPrevious := oldPrevious, gTarget := none, gArg := null }
              let s ← armIntegrity s sp'
              return (s.clearPanic, ⟨k', .err .mem, none⟩)
            else
              match s.gTarget with
              | none => .error .freed
              | some g =>
                  let outArg := s.gArg
                  let s := { s with gCurrent := g, live := g, gTarget := none, gArg := null }
                  let s ← armIntegrity s sp'
                  if s.gFlags.panic then
                    return (s.clearPanic, ⟨k', .err .panic, some outArg⟩)
                  else
                    return (s, ⟨k', if s.gSw = .restore then .ok else .saved, some outArg⟩)

end Tealet
