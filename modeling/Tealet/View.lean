import Mathlib.Logic.Relation
import Tealet.Saved
import Tealet.System

/-!
# The machine of images

The library seen without its heap, its environment and its transient
fields: tealet records that own images, the list of partial images, live
memory, and who runs. A step of the system is a few `Small` moves, after
which at most one `Jump` changes who runs or captures a new image.

A transfer is grow, depart, arrive: the partial images are grown to the
boundary of the target, the tealet that leaves is saved (or lost, or it
exits), the target's image is stored back and released.
-/

namespace Tealet

structure View where
  tealets : TealetId → Option TealetSub
  nextTealet : TealetId
  img : Images
  prev : List StackId
  nextStack : StackId
  mem : Memory
  current : TealetId
  live : TealetId

/-- The view of a state whose heap stands for `a`. -/
def State.view (s : State) (a : Saved) : View where
  tealets := s.tealets
  nextTealet := s.nextTealet
  img := a.img
  prev := a.prev
  nextStack := s.heap.nextStack
  mem := s.mem
  current := s.gCurrent
  live := s.live

/-- The flags without the one-shot transfer signals. -/
def TFlags.quiet (f : TFlags) : TFlags :=
  { f with exiting := false, autodelete := false, saveforce := false }

/-- What becomes of the tealet that leaves: it is saved inside the call
`k` at `sp`, it cannot be saved, or it exits. -/
inductive Fate where
  | suspend (sp : Nat) (k : Frame)
  | lose
  | exit
  | exitDelete
deriving DecidableEq, Repr

/-- The record of the tealet that leaves, `n` being the new stack. -/
def Fate.record (c : TealetSub) (n : StackId) : Fate → Option TealetSub
  | .suspend _ _ => some { c with stack := some n }
  | .lose => some { c with flags := { c.flags with defunct := true } }
  | .exit => some { c with flags := { c.flags with exited := true }, stack := none }
  | .exitDelete => none

/-- The fate that the grown list, the flags of the tealet that leaves and
the allocator leave it; `none` is `TEALET_ERR_MEM`. -/
def chooseFate (g : Growth) (flags : TFlags) (failOk : Bool) (sp : Nat) (k : Frame) :
    Option Fate × List Bool :=
  if g.failed then (none, g.allocs)
  else if flags.exiting then
    (some (if flags.autodelete then .exitDelete else .exit), g.allocs)
  else
    match nextAlloc g.allocs with
    | (true, rest) => (some (.suspend sp k), rest)
    | (false, rest) => (if failOk then none else some .lose, rest)

/-- The child that the call `k` started, and whether it was spawned. -/
def Frame.started : Frame → Option (TealetId × Bool)
  | .run result _ _ _ _ _ _ spawned => some (result, spawned)
  | .fork gChild _ _ _ _ => some (gChild, false)
  | _ => none

/-- The call `k` is a capture: `tealet_run` or `tealet_fork` with
`TEALET_START_DEFAULT`. -/
def Frame.isCapture : Frame → Bool
  | .run _ _ _ _ _ switchNow _ _ => !switchNow
  | .fork _ _ _ switchNow _ => !switchNow
  | _ => false

namespace View

def far (v : View) (t : TealetId) : Nat := ((v.tealets t).map TealetSub.stackFar).getD 0

def stackOf (v : View) (t : TealetId) : Option StackId := (v.tealets t).bind TealetSub.stack

def setTealet (v : View) (t : TealetId) (r : Option TealetSub) : View :=
  { v with tealets := Function.update v.tealets t r }

/-- The list grown to `F`, for a transfer to a tealet that owns `target`. -/
def growth (v : View) (target : Option StackId) (F : Nat) (failOk : Bool) (allocs : List Bool) :
    Growth :=
  growList v.mem (v.stackOf mainId) target F failOk v.prev v.img allocs

theorem growth_none {v : View} {k : StackId} (him : v.img k = none) (target : Option StackId)
    (F : Nat) (failOk : Bool) (allocs : List Bool) :
    (v.growth target F failOk allocs).img k = none :=
  growList_none him

theorem growth_kept {v : View} {k : StackId} {im : Image} (him : v.img k = some im)
    (target : Option StackId) (F : Nat) (failOk : Bool) (allocs : List Bool) :
    ∃ im', (v.growth target F failOk allocs).img k = some im' ∧ im.Kept im' :=
  growList_kept him

def grow (v : View) (g : Growth) : View := { v with img := g.img, prev := g.keep }

/-- The new image of the tealet `t`, whose boundary is `far`. -/
def save (v : View) (t : TealetId) (r : TealetSub) (F sp : Nat) (k : Frame) : View :=
  { v with
    tealets := Function.update v.tealets t (some { r with stack := some v.nextStack })
    img := Function.update v.img v.nextStack (some (Image.capture v.mem sp r.stackFar F k))
    prev := if r.stackFar ≤ F then v.prev else v.nextStack :: v.prev
    nextStack := v.nextStack + 1 }

/-- The tealet that runs, with the record `c`, leaves. -/
def depart (v : View) (c : TealetSub) (F : Nat) : Fate → View
  | .suspend sp k => v.save v.current c F sp k
  | fate => v.setTealet v.current (fate.record c v.nextStack)

/-- The image without one reference, or gone. -/
def release (v : View) (k : StackId) (im : Image) : View :=
  if im.refcount ≤ 1 then
    { v with img := Function.update v.img k none, prev := v.prev.erase k }
  else
    { v with img := Function.update v.img k (some { im with refcount := im.refcount - 1 }) }

/-- The tealet `t`, with the record `r`, runs. -/
def arrive (v : View) (t : TealetId) (r : TealetSub) : View :=
  { v with
    tealets := Function.update v.tealets t (some r)
    current := t
    live := t }

/-- `t` runs again from its image. -/
def restore (v : View) (t : TealetId) (r : TealetSub) (k : StackId) (im : Image) : View :=
  ({ v with mem := im.value v.mem }.release k im).arrive t { r with stack := none }

/-- The cleanup of a call `k` that is left with `TEALET_ERR_PANIC`. -/
def settle (v : View) (panic : Bool) (k : Frame) : View :=
  if panic then
    match k.started with
    | some (child, spawned) => v.setTealet child (if spawned then none else some {})
    | none => v
  else v

end View

/-! ## Moves -/

/-- What a call is about to attempt, with the allocations in store for it. -/
inductive Label where
  /-- `tealet_xfer_inner` -/
  | xfer (target : TealetId) (flags : XFlags) (isExit : Bool) (allocs : List Bool)
  /-- a start that switches to the child, whose boundary is `far` -/
  | start (child : TealetId) (far : Nat) (allocs : List Bool)
  /-- a start that captures the child for later -/
  | capture (child : TealetId) (far : Nat) (allocs : List Bool)
  | setFar (far : Nat)
  /-- `tealet_delete`, or the end of a `tealet_spawn` that failed -/
  | delete (t : TealetId)
  | duplicate (t : TealetId)
  /-- user code writes -/
  | write

/-- Whether a transfer from `t` under `flags` may fail. -/
def mayFail (t : TealetId) (flags : XFlags) : Bool := !flags.force || decide (t = mainId)

section Moves

variable (C : View → Label → Prop)

/-- The moves after which the same tealet runs. `C` restricts what may be attempted. -/
inductive Small : View → View → Prop where
  | write {v : View} {m : Memory} (hC : C v .write)
      (hm : ∀ x, v.far v.current ≤ x → m x = v.mem x) :
      Small v { v with mem := m }
  | create {v : View} :
      Small v { v with
        tealets := Function.update v.tealets v.nextTealet (some {})
        nextTealet := v.nextTealet + 1 }
  | dup {v : View} {t : TealetId} {r : TealetSub} (hC : C v (.duplicate t))
      (ht : v.tealets t = some r) (hcur : t ≠ v.current) (hmain : t ≠ mainId)
      (hr : r.stack = none) :
      Small v { v with
        tealets := Function.update v.tealets v.nextTealet (some r)
        nextTealet := v.nextTealet + 1 }
  | dupShared {v : View} {t : TealetId} {r : TealetSub} {k : StackId} {im : Image}
      (hC : C v (.duplicate t)) (ht : v.tealets t = some r) (hcur : t ≠ v.current)
      (hmain : t ≠ mainId) (hr : r.stack = some k) (him : v.img k = some im) :
      Small v { v with
        tealets := Function.update v.tealets v.nextTealet (some r)
        nextTealet := v.nextTealet + 1
        img := Function.update v.img k (some { im with refcount := im.refcount + 1 }) }
  | delete {v : View} {t : TealetId} {r : TealetSub} (hC : ∃ w, C w (.delete t))
      (ht : v.tealets t = some r) (hcur : t ≠ v.current) (hmain : t ≠ mainId)
      (hr : r.stack = none) :
      Small v (v.setTealet t none)
  | deleteSaved {v : View} {t : TealetId} {r : TealetSub} {k : StackId} {im : Image}
      (hC : ∃ w, C w (.delete t)) (ht : v.tealets t = some r) (hcur : t ≠ v.current)
      (hmain : t ≠ mainId) (hr : r.stack = some k) (him : v.img k = some im) :
      Small v ((v.release k im).setTealet t none)
  | cache {v : View} {t : TealetId} {r : TealetSub} {k : StackId} {im : Image}
      (ht : v.tealets t = some r) (hr : r.stack = some k) (him : v.img k = some im)
      (hd : im.defunct = true) :
      Small v (v.setTealet t (some { r with flags := { r.flags with defunct := true } }))
  | setFar {v : View} {r : TealetSub} {far : Nat} (hC : C v (.setFar far))
      (hfar : far < spFurthest) (hr : v.tealets mainId = some r) :
      Small v (v.setTealet mainId (some { r with stackFar := far }))
  /-- a transfer that ends in `TEALET_ERR_MEM` -/
  | stallXfer {v : View} {t : TealetId} {c r : TealetSub} {flags : XFlags} {isExit : Bool}
      {allocs : List Bool} {sp : Nat} {k : Frame} (hC : C v (.xfer t flags isExit allocs))
      (hc : v.tealets v.current = some c) (hr : v.tealets t = some r) (ht : t ≠ v.current)
      (hfate : (chooseFate (v.growth r.stack r.stackFar (mayFail v.current flags) allocs)
        { c.flags with exiting := isExit, autodelete := isExit && flags.delete }
        (mayFail v.current flags) sp k).1 = none) :
      Small v (v.grow (v.growth r.stack r.stackFar (mayFail v.current flags) allocs))
  | stallStart {v : View} {t : TealetId} {far : Nat} {allocs : List Bool} {sp : Nat} {k : Frame}
      (hC : C v (.start t far allocs))
      (hfate : (chooseFate (v.growth none far true allocs) {} true sp k).1 = none) :
      Small v (v.grow (v.growth none far true allocs))
  | stallCapture {v : View} {t : TealetId} {far : Nat} {allocs : List Bool} {sp : Nat} {k : Frame}
      (hC : C v (.capture t far allocs))
      (hfate : (chooseFate (v.growth none (v.far v.current) true allocs) {} true sp k).1 = none) :
      Small v (v.grow (v.growth none (v.far v.current) true allocs))

/-- The moves that change who runs, or capture a new image. With `strict`
no call is left in a way that resets its child. -/
inductive Jump (strict : Prop) : View → View → Prop where
  | xfer {v : View} {t : TealetId} {c r : TealetSub} {k : StackId} {im im' : Image}
      {flags : XFlags} {isExit : Bool} {allocs : List Bool} {g : Growth} {fate : Fate} {sp : Nat}
      {kf : Frame} (hC : C v (.xfer t flags isExit allocs))
      (hc : v.tealets v.current = some c) (hr : v.tealets t = some r) (ht : t ≠ v.current)
      (hx : r.flags.exited = false) (hrd : r.flags.defunct = false)
      (hk : r.stack = some k) (him : v.img k = some im)
      (hd : im.defunct = false)
      (hg : v.growth r.stack r.stackFar (mayFail v.current flags) allocs = g)
      (hfate : (chooseFate g { c.flags with
        exiting := isExit, autodelete := isExit && flags.delete }
        (mayFail v.current flags) sp kf).1 = some fate)
      (him' : g.img k = some im')
      (hsp : isExit = false → sp < c.stackFar)
      (hexit : isExit = true → v.current ≠ mainId)
      (hkf : isExit = false → ∃ out, kf = .switch v.current out)
      (hpanic : flags.panic = true → im.frame.isCapture = false)
      (hstrict : strict → flags.panic = true → im.frame.started = none) :
      Jump strict v ((((v.grow g).depart c r.stackFar fate).restore t r k im').settle
        flags.panic im.frame)
  | start {v : View} {t : TealetId} {c r : TealetSub} {allocs : List Bool} {g : Growth}
      {sp : Nat} {kf : Frame} (hC : C v (.start t r.stackFar allocs))
      (hc : v.tealets v.current = some c) (hnew : v.tealets t = some {})
      (hb : r.flags.bound = true) (hx : r.flags.exited = false) (hrd : r.flags.defunct = false)
      (hq : r.flags.quiet = r.flags) (hk : r.stack = none) (hfar : r.stackFar < spFurthest)
      (hg : v.growth none r.stackFar true allocs = g) (hok : g.failed = false)
      (hsp : sp < c.stackFar)
      (hst : ∃ spawned, kf.started = some (t, spawned)) (hcap : kf.isCapture = false) :
      Jump strict v (((v.grow g).save v.current c r.stackFar sp kf).arrive t r)
  | capture {v : View} {t : TealetId} {c r : TealetSub} {allocs : List Bool} {g : Growth}
      {sp : Nat} {kf : Frame} (hC : C v (.capture t r.stackFar allocs))
      (hc : v.tealets v.current = some c) (hnew : v.tealets t = some {})
      (hb : r.flags.bound = true) (hx : r.flags.exited = false) (hrd : r.flags.defunct = false)
      (hq : r.flags.quiet = r.flags) (hfar : r.stackFar < spFurthest)
      (hg : v.growth none c.stackFar true allocs = g) (hok : g.failed = false)
      (hsp : sp < r.stackFar)
      (hst : ∃ spawned, kf.started = some (t, spawned)) (hcap : kf.isCapture = true) :
      Jump strict v ((v.grow g).save t r c.stackFar sp kf)

/-- One step of the system. -/
def Path (strict : Prop) (v v' : View) : Prop :=
  ∃ v₁, Relation.ReflTransGen (Small C) v v₁ ∧ (v' = v₁ ∨ Jump C strict v₁ v')

end Moves

end Tealet
