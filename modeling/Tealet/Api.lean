import Tealet.Switch

/-!
# The API

`tealet_new`, `tealet_run`, `tealet_fork`, `tealet_switch`, `tealet_exit`,
`tealet_duplicate`, `tealet_delete`, `tealet_spawn`, the return of a run
function and the configuration calls.

Each call is modelled from its first line to the point where control is
back in user code: the return of an API function, possibly of a call that
another tealet was suspended in, or the entry into a run function.
`finish` is the rest of the API function a `Back` returns to.
-/

namespace Tealet

/-- What user code sees when it gets control. -/
inductive Outcome where
  /-- an API function returns `rc`; `parg` is the value stored through its
  `parg`, `created` the handle stored through the `pcreated` of `tealet_spawn` -/
  | returned (rc : Rc) (parg : Option Ptr) (created : Option TealetId := none)
  /-- `run(t, arg)` is entered -/
  | entered (run : RunFn) (t : TealetId) (arg : Ptr)
  /-- `tealet_new` or `tealet_duplicate` returns -/
  | handle (t : Option TealetId)
deriving DecidableEq, Repr

/-! ## Records -/

/-- `tealet_alloc`. -/
def alloc (s : State) : State × Option TealetId :=
  match s.heap.malloc with
  | (false, h) => ({ s with heap := h }, none)
  | (true, h) =>
      let t := s.nextTealet
      let e := s.env.listAdd t
      ({ s with
          heap := { h with stats := h.stats.addAlloc (tealetHeader + s.env.gExtrasize) }
          tealets := Function.update s.tealets t (some {})
          nextTealet := t + 1
          env := { e with gTealets := e.gTealets + 1, gCounter := e.gCounter + 1 } },
        some t)

/-- `tealet_new`. -/
def new (s : State) : State × Option TealetId :=
  let (s, r) := alloc s.lockAuto
  (s.unlockAuto, r)

/-- `tealet_duplicate`. -/
def duplicate (s : State) (t : TealetId) : Res (State × Option TealetId) := do
  let s := s.lockAuto
  require .duplicate (t ≠ s.gCurrent ∧ t ≠ mainId)
  let (s, copy) := alloc s
  match copy with
  | none => return (s.unlockAuto, none)
  | some c =>
      let r ← s.tealet t
      match r.stack with
      | none => return ((s.setTealet c { r with stack := none }).unlockAuto, some c)
      | some k =>
          let h ← stackDup s.heap k
          return (({ s with heap := h }.setTealet c r).unlockAuto, some c)

/-- `tealet_delete`. -/
def delete (s : State) (t : TealetId) : Res State := do
  let s := s.lockAuto
  require .delete (t ≠ mainId)
  let r ← s.tealet t
  let h ← stackDecref s.heap r.stack
  let s := { s with heap := h, env := { s.env with gTealets := s.env.gTealets - 1 } }
  return (freeTealet s t).unlockAuto

/-- `tealet_finalize`; main goes with its environment. -/
def finalize (s : State) (t : TealetId) : Res Env := do
  require .finalize (t = mainId)
  require .finalize (s.gCurrent = mainId)
  let e ← guardUnprotectCurrent s.env
  return { e with data := {} }

/-! ## Returning from `tealet_switchstack` -/

/-- The rest of `tealet_xfer_inner` in the call `b` returns in: on an error
the one-shot flags of the local `g_current` are cleared. -/
def leaveXfer (s : State) (b : Back) : Res State :=
  match b.frame, b.rc with
  | .switch g _, .err _ => do
      let r ← s.tealet g
      return s.setTealet g { r with flags :=
        { r.flags with exiting := false, autodelete := false, saveforce := false } }
  | .exit g _, .err e => do
      let r ← s.tealet g
      let s := s.setTealet g { r with flags :=
        { r.flags with exiting := false, autodelete := false, saveforce := false } }
      require .xferInner (e ≠ .panic)
      return s
  | .exit _ _, _ => .error (.assertion .xferInner)
  | _, _ => .ok s

/-- The cleanup of a failed `tealet_run` or `tealet_fork`: the child is NEW
again, and with `TEALET_START_DEFAULT` the creator is current again. -/
def failStart (s : State) (child creator : TealetId) (switchNow : Bool) : Res State := do
  let _ ← s.tealet child
  let s := s.setTealet child {}
  return if switchNow then s else { s with gCurrent := creator }

/-- The rest of the API function that `b` returns to. -/
def finish (s : State) (b : Back) : Res (State × Outcome) :=
  match b.frame with
  | .api => .ok (s.unlockAuto, .returned b.rc b.arg)
  | .switch _ out =>
      .ok (s.unlockAuto, .returned b.rc (if out then b.arg else none))
  | .exit _ implicit => do
      let s := s.unlockAuto
      if implicit then
        -- `assert(!"Implicit return transfer failed")`
        .error (.assertion .initialstub)
      else
        require .exit (b.rc ≠ .ok ∧ b.rc ≠ .saved)
        return (s, .returned b.rc none)
  | .run result current previous run initialRunArg switchNow out spawned =>
      match b.rc with
      | .err e => do
          -- in `tealet_initialstub` only a panic reaches `*parg`
          let arg := if out ∧ switchNow ∧ e = .panic then b.arg else none
          let s ← failStart s result current switchNow
          let s := s.unlockAuto
          let s ← if spawned then delete s result else pure s
          return (s, .returned (.err e) arg)
      | rc =>
          if (switchNow = true ∧ rc = .saved) ∨ (switchNow = false ∧ rc = .ok) then do
            require .initialstub (switchNow = true → s.gCurrent = result)
            let r ← s.tealet s.gCurrent
            require .initialstub (r.stack = none)
            let runArg := if switchNow then initialRunArg else b.arg.getD null
            return (s.unlockAuto, .entered run s.gCurrent runArg)
          else
            let arg := if out ∧ switchNow then b.arg else none
            let s := if switchNow then s else { s with gPrevious := previous }
            .ok (s.unlockAuto, .returned .ok arg (if spawned then some result else none))
  | .fork gChild gCurrent previous switchNow out => do
      let s := if switchNow = false ∧ b.rc = .saved then { s with gPrevious := previous } else s
      let arg := if out then b.arg else none
      match b.rc with
      | .err e => do
          let s ← failStart s gChild gCurrent switchNow
          return (s.unlockAuto, .returned (.err e) arg)
      | _ => return (s.unlockAuto, .returned .ok arg)

/-! ## Starting -/

/-- `tealet_pick_initial_far`. -/
def pickInitialFar (defaultFar hint : Nat) : Nat :=
  if hint = null then defaultFar
  else if defaultFar ≤ hint then hint else defaultFar

/-- Where on the C stack a call is made: `far` is the address of a local
of the called function, `sp` the stack pointer in `stackman_switch`. -/
structure Site where
  far : Nat
  sp : Nat
deriving DecidableEq, Repr

/-- `tealet_run`, called at `site`. -/
def run (s : State) (t : TealetId) (run : RunFn) (parg : Option Ptr) (stackFar : Nat)
    (switchNow spawned : Bool) (site : Site) : Res (State × Outcome) := do
  let result ← s.tealet t
  if result.flags ≠ {} then
    return (s, .returned (.err .inval) none)
  else
    let current := s.gCurrent
    verifyCurrentMatchesCaller s site.sp
    let far := pickInitialFar site.far stackFar
    let s := s.setTealet t { result with flags := { bound := true } }
    let s := s.lockAuto
    require .run (s.gTarget = none)
    let k : Frame := .run t current s.gPrevious run (parg.getD null) switchNow parg.isSome spawned
    -- `tealet_initialstub`
    require .initialstub (result.stack = none)
    let s := s.setTealet t { result with flags := { bound := true }, stackFar := far }
    let (s, b) ←
      if switchNow then switchstack s t null k site.sp
      else switchstack { s with gCurrent := t } current null k site.sp
    let s ← leaveXfer s b
    finish s b

/-- `tealet_spawn`. -/
def spawn (s : State) (runFn : RunFn) (parg : Option Ptr) (stackFar : Nat) (switchNow : Bool)
    (site : Site) : Res (State × Outcome) :=
  match new s with
  | (s, none) => .ok (s, .returned (.err .mem) none)
  | (s, some t) => run s t runFn parg stackFar switchNow true site

/-- `tealet_fork`. -/
def fork (s : State) (t : TealetId) (parg : Option Ptr) (switchNow : Bool) (site : Site) :
    Res (State × Outcome) := do
  let gCurrent := s.gCurrent
  verifyCurrentMatchesCaller s site.sp
  let child ← s.tealet t
  if child.flags ≠ {} then
    return (s, .returned (.err .inval) none)
  else
    let current ← s.tealet gCurrent
    if current.stackFar = spFurthest then
      return (s, .returned (.err .unforkable) none)
    else
      require .fork (current.stack = none)
      let flags : TFlags :=
        { bound := true, fork := true, mainLineage := current.flags.mainLineage }
      let s := s.setTealet t { child with stackFar := current.stackFar, flags := flags }
      let s := s.lockAuto
      let k : Frame := .fork t gCurrent s.gPrevious switchNow parg.isSome
      let (s, b) ←
        if switchNow then switchstack s t null k site.sp
        else switchstack { s with gCurrent := t } gCurrent null k site.sp
      let s ← leaveXfer s b
      finish s b

/-! ## Transferring -/

/-- `tealet_xfer_inner`, called inside the call `k`, up to its return. -/
def xferInner (s : State) (target : TealetId) (inArg : Ptr) (flags : XFlags) (isExit : Bool)
    (k : Frame) (sp : Nat) : Res (State × Back) := do
  let r ← s.tealet target
  let current ← s.tealet s.gCurrent
  if r.flags.bound = false then
    return (s, ⟨.api, .err .inval, none⟩)
  else
    if isExit then
      require .xferInner (s.gCurrent ≠ mainId)
      if target = s.gCurrent then
        return (s, ⟨.api, .err .inval, none⟩)
      else
        require .xferInner (current.stack = none)
        require .xferInner (current.flags.autodelete = false)
        let s := s.setTealet s.gCurrent { current with flags :=
          { current.flags with
            exiting := true, autodelete := flags.delete
            saveforce := current.flags.saveforce || flags.force } }
        let s := if flags.panic then { s with gFlags := { s.gFlags with panic := true } } else s
        let (s, b) ← switchstack s target inArg k sp
        let s ← leaveXfer s b
        return (s, b)
    else
      if target = s.gCurrent then
        let s := { s with gPrevious := some s.gCurrent }
        return (s, ⟨.api, if flags.panic then .err .panic else .ok, none⟩)
      else
        let s := s.setTealet s.gCurrent { current with flags :=
          { current.flags with saveforce := current.flags.saveforce || flags.force } }
        let s := if flags.panic then { s with gFlags := { s.gFlags with panic := true } } else s
        let (s, b) ← switchstack s target inArg k sp
        let s ← leaveXfer s b
        return (s, b)

/-- The attempts of `tealet_switch` and `tealet_exit`: one without NOFAIL;
with it one under FORCE and, when that fails for want of memory or on a
defunct target, one to main under PANIC and FORCE. -/
def xferAttempts (s : State) (target : TealetId) (inArg : Ptr) (flags : XFlags) (isExit : Bool)
    (k : Frame) (sp : Nat) : Res (State × Back) := do
  if flags.nofail then
    let (s, b) ← xferInner s target inArg { flags with nofail := false, force := true } isExit k sp
    if b.rc = .err .mem ∨ b.rc = .err .defunct then
      xferInner s mainId inArg { flags with nofail := false, force := true, panic := true }
        isExit k sp
    else
      return (s, b)
  else
    xferInner s target inArg flags isExit k sp

/-- `tealet_switch`; `parg` is `*parg`, if `parg` is not `NULL`. -/
def switch (s : State) (target : TealetId) (parg : Option Ptr) (flags : XFlags) (sp : Nat) :
    Res (State × Outcome) := do
  require .switch (flags.delete = false ∧ flags.defer = false)
  verifyCurrentMatchesCaller s sp
  let s := s.lockAuto
  let k : Frame := .switch s.gCurrent parg.isSome
  let (s, b) ← xferAttempts s target (parg.getD null) flags false k sp
  finish s b

/-- `tealet_exit`; `implicit` when it is called by `tealet_initialstub`. -/
def exit (s : State) (target : TealetId) (arg : Ptr) (flags : XFlags) (implicit : Bool)
    (sp : Nat) : Res (State × Outcome) := do
  require .exit (¬ (flags.defer = true ∧ flags.panic = true))
  verifyCurrentMatchesCaller s sp
  let s := s.lockAuto
  if flags.defer then
    require .exit (s.gFlags = {})
    let s := { s with gArg := arg, gFlags := { xfer := flags } }
    return (s.unlockAuto, .returned .ok none)
  else
    let (s, arg, flags) :=
      if s.gFlags.xfer.defer then
        ({ s with gFlags := {}, gArg := null }, s.gArg, { s.gFlags.xfer with defer := false })
      else (s, arg, flags)
    let k : Frame := .exit s.gCurrent implicit
    let (s, b) ← xferAttempts s target arg flags true k sp
    -- a rejected call only unlocks and returns; an implicit one must not return
    finish s (if b.frame = .api then { b with frame := k } else b)

/-- The return of a run function, the end of `tealet_initialstub`. -/
def ret (s : State) (p : Option TealetId) (sp : Nat) : Res (State × Outcome) :=
  match p with
  | none => .error .freed
  | some target =>
      let (s, exitArg, exitFlags) :=
        if s.gFlags.xfer.defer then
          ({ s with gFlags := {}, gArg := null }, s.gArg, { s.gFlags.xfer with defer := false })
        else (s, null, ({} : XFlags))
      exit s target exitArg { exitFlags with nofail := true } true sp

/-! ## Status, boundary, configuration -/

inductive Status where
  | active | new | exited | defunct
deriving DecidableEq, Repr

/-- `tealet_status`. -/
def status (s : State) (t : TealetId) : Res (State × Status) := do
  let r ← s.tealet t
  if r.flags.bound = false then return (s, .new)
  else if r.flags.exited then return (s, .exited)
  else
    let (s, d) ← isDefunct s t
    return (s, if d then .defunct else .active)

/-- `tealet_set_far`; 0 or `TEALET_ERR_INVAL`. -/
def setFar (s : State) (t : TealetId) (far : Nat) : Res (State × Rc) := do
  let r ← s.tealet t
  if t ≠ mainId then return (s, .err .inval)
  else return (s.setTealet t { r with stackFar := far }, .ok)

/-- `tealet_configure_set` on a complete request. -/
def configureSet (s : State) (request : Config) : State × Rc :=
  let requested := configCanonicalize request
  let required := snapshotRequiredCapacity s.env.pageSize requested
  let (ok, h) :=
    if required = 0 ∨ required ≤ s.env.data.snapshotCapacity then (true, s.heap)
    else s.heap.malloc
  match snapshotEnsureCapacity s.env required ok with
  | (e, true) => ({ s with heap := h, env := { e with cfg := requested } }, .ok)
  | (e, false) => ({ s with heap := h, env := e }, .err .mem)

end Tealet
