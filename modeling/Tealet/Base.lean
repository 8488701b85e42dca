import Mathlib.Algebra.Group.Nat.Defs
import Tealet.Lib.Slice

/-!
# Addresses, flags, codes and suspended calls

The vocabulary of `tealet.h` and of the declarations at the top of
`tealet.c`. Addresses are natural numbers. The stack is descending: a
*nearer* address is a lower one, a *farther* address a higher one, so
`STACKMAN_SP_LS`/`STACKMAN_SP_LE` are `<`/`≤`.

Heap blocks (tealet records, saved stacks, chunks) are named by
identifiers that are never reused; looking up a block that was freed is
`Fault.freed`. An `assert` that does not hold is `Fault.assertion`, as in
a build without `NDEBUG`.

C locals live on the C stack, so what a suspended tealet will do when it
is resumed is part of its saved stack. `Frame` is that part: the library
call the tealet is suspended in, with the locals the rest of the call
still reads.
-/

namespace Tealet

abbrev Byte := UInt8
abbrev Memory := Nat → Byte

/-- A `void *` argument value; 0 is `NULL`. -/
abbrev Ptr := Nat

def null : Ptr := 0

/-- `STACKMAN_SP_FURTHEST`, `(void *)(intptr_t)-STACKMAN_STACK_ALIGN`. -/
def spFurthest : Nat := 2 ^ 64 - 16

abbrev TealetId := Nat
abbrev StackId := Nat
abbrev ChunkId := Nat

/-- A function pointer of type `tealet_run_t`. -/
abbrev RunFn := Nat

/-- The main tealet is the first record allocated. -/
def mainId : TealetId := 0

/-! ## Faults -/

/-- The functions that contain an `assert`. -/
inductive Fn where
  | verifyCurrent | integrityPlan | guardUnprotect | guardProtect
  | snapshotCapture | snapshotVerify
  | stackGrow | stackLink | stackUnlink | stackSaveto | stackGrowto | stackGrowList
  | saveState | restoreState | checkCaller | switchstack | initialstub
  | run | fork | xferInner | switch | exit | duplicate | delete | finalize
deriving DecidableEq, Repr

inductive Fault where
  | freed                -- a block was used after it was freed, or NULL was followed
  | assertion (f : Fn)   -- a failed `assert` of `f`
  | abort                -- `abort()`
  | looping              -- a loop ran past the number of blocks it can visit
deriving DecidableEq, Repr

abbrev Res (α : Type) := Except Fault α

/-- `assert(c)` in `f`. -/
def require (f : Fn) (c : Prop) [Decidable c] : Res Unit :=
  if c then .ok () else .error (.assertion f)

theorem require_of {f : Fn} {c : Prop} [Decidable c] (h : c) : require f c = .ok () := if_pos h

/-! ## Codes and flags -/

/-- The negative `TEALET_ERR_*` codes. -/
inductive Err where
  | mem | defunct | unforkable | inval | integrity | panic
deriving DecidableEq, Repr

/-- An `int` result: 0, the 1 of `tealet_switchstack` ("save only"), or an error. -/
inductive Rc where
  | ok
  | saved
  | err (e : Err)
deriving DecidableEq, Repr

/-- `TEALET_TFLAGS_*`. -/
structure TFlags where
  bound : Bool := false
  exiting : Bool := false
  exited : Bool := false
  defunct : Bool := false
  mainLineage : Bool := false
  fork : Bool := false
  autodelete : Bool := false
  saveforce : Bool := false
deriving DecidableEq, Repr

/-- `TEALET_XFER_*` and `TEALET_EXIT_*`. -/
structure XFlags where
  force : Bool := false
  panic : Bool := false
  nofail : Bool := false
  delete : Bool := false
  defer : Bool := false
deriving DecidableEq, Repr

/-- `g_flags`: the flags of a deferred exit and `TEALET_MFLAGS_PANIC`. -/
structure GFlags where
  xfer : XFlags := {}
  panic : Bool := false
deriving DecidableEq, Repr

/-- `tealet_sr_e`. -/
inductive Sw where
  | nop | restore | err
deriving DecidableEq, Repr

/-! ## Suspended calls -/

/-- The library call a context is in while it is inside
`tealet_switchstack`, with the locals its rest reads.

`out` says that `parg` is not `NULL`; `spawned` that `tealet_run` was
called by `tealet_spawn`; `implicit` that `tealet_exit` was called on the
return of a run function. `api` stands for a call that only has to unlock
and return its result. -/
inductive Frame where
  | api
  | switch (gCurrent : TealetId) (out : Bool)
  | exit (gCurrent : TealetId) (implicit : Bool)
  | run (result current : TealetId) (previous : Option TealetId) (run : RunFn)
      (initialRunArg : Ptr) (switchNow out spawned : Bool)
  | fork (gChild gCurrent : TealetId) (previous : Option TealetId) (switchNow out : Bool)
deriving DecidableEq, Repr

end Tealet
