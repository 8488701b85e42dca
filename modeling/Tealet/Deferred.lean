import Tealet.Outcomes
import Tealet.Current
import Tealet.EnvRule
import Tealet.Trace

/-!
# Deferred exits

A deferred exit is kept in two fields of the main tealet: its flags in
`g_flags`, its argument in `g_arg`. `History` follows the request through a
run. The flags stay until some tealet exits or returns from its run
function, whoever asked and whatever became of it; the argument stays until
the next `stackman_switch`, which passes its own argument through `g_arg`.
The exit that finds a request is the exit that was asked for.
-/

namespace Tealet

open Hoare

/-- What a deferred exit has left. -/
structure Deferral where
  arg : Ptr
  flags : XFlags

/-- The call exits now: it is an explicit exit, or the return of a run function. -/
def Call.Exits : Call → Prop
  | .exit _ _ flags _ => flags.defer = false
  | .ret _ _ => True
  | _ => False

def Event.Exits : Event → Prop
  | .write _ => False
  | .call c _ _ => c.Exits

/-- What the event `e` makes of a pending request. -/
inductive Pends (s : State) : Event → Option Deferral → Option Deferral → Prop where
  | asked {t : TealetId} {arg : Ptr} {flags : XFlags} {sp : Nat} {allocs : List Bool}
      {mprotects : List (Option (Nat → Bool))} {d : Option Deferral} (hd : flags.defer = true) :
      Pends s (.call (.exit t arg flags sp) allocs mprotects) d (some ⟨arg, flags⟩)
  | taken {e : Event} {d : Option Deferral} (he : e.Exits) : Pends s e d none
  /-- the argument is lost when a stack is switched -/
  | passed {e : Event} {d : Option Deferral} (he : ¬ e.Exits) (hc : ∃ s₂, e.Copies s s₂) :
      Pends s e d (d.map fun x => { x with arg := null })
  | kept {e : Event} {d : Option Deferral} (he : ¬ e.Exits)
      (hd : ∀ t arg flags sp allocs mprotects, e = .call (.exit t arg flags sp) allocs mprotects →
        flags.defer = false) (hc : ¬ ∃ s₂, e.Copies s s₂) : Pends s e d d

/-- A run from `s`, and what is pending at its end. -/
inductive History (P : State → Event → Prop) (s : State) : State → Option Deferral → Prop where
  | refl : History P s s none
  | tail {s₁ s₂ : State} {e : Event} {o : Outcome} {d d' : Option Deferral} :
      History P s s₁ d → P s₁ e → step s₁ e = .ok (s₂, o) → Pends s₁ e d d' → History P s s₂ d'

theorem History.run {P : State → Event → Prop} {s s' : State} {d : Option Deferral}
    (h : History P s s' d) : Run P s s' := by
  induction h with
  | refl => exact .refl
  | tail _ hP hs _ ih => exact ih.tail hP hs

/-- The two fields hold what is pending. -/
structure State.Holds (s : State) (d : Option Deferral) : Prop where
  gFlags : s.gFlags = { xfer := (d.map Deferral.flags).getD {} }
  gArg : s.gArg = (d.map Deferral.arg).getD null
  asked : ∀ x, d = some x → x.flags.defer = true

/-! ## What passes through `g_arg` -/

/-- `s'` has the two fields of `s`. -/
structure SameFields (s s' : State) : Prop where
  gFlags : s'.gFlags = s.gFlags
  gArg : s'.gArg = s.gArg

theorem SameFields.refl (s : State) : SameFields s s := ⟨rfl, rfl⟩

theorem SameFields.trans {s₁ s₂ s₃ : State} (h : SameFields s₁ s₂) (h' : SameFields s₂ s₃) :
    SameFields s₁ s₃ :=
  ⟨h'.gFlags.trans h.gFlags, h'.gArg.trans h.gArg⟩

/-- `s'` has the flags of `s`, and its argument if nothing was `copied`. -/
structure Carried (s : State) (copied : Prop) (s' : State) : Prop where
  gFlags : s'.gFlags = { xfer := s.gFlags.xfer }
  lost : copied → s'.gArg = null
  kept : ¬ copied → s'.gArg = s.gArg

section Fields

variable {s : State} {t : TealetId} {arg : Ptr} {k : Frame} {sp : Nat} {flags : XFlags}
  {isExit : Bool} {b : Back}

end Fields

/-! ## Calls -/

section Calls

variable {s s₀ s₁ s₂ : State} {t : TealetId} {arg : Ptr} {k : Frame} {sp : Nat} {flags : XFlags}
  {isExit : Bool} {b : Back} {c c' : Prop} {q : Request} {cl : Call}

theorem Carried.refl (hp : s.gFlags.panic = false) : Carried s False s := by
  refine ⟨?_, False.elim, fun _ => rfl⟩
  rw [← hp]

theorem Carried.congr (h : Carried s c s₁) (hc : c ↔ c') : Carried s c' s₁ :=
  ⟨h.gFlags, fun h' => h.lost (hc.mpr h'), fun h' => h.kept fun h'' => h' (hc.mp h'')⟩

theorem Carried.panic (h : Carried s c s₁) : s₁.gFlags.panic = false := by
  rw [h.gFlags]

theorem Carried.same (h : Carried s c s₁) (h' : SameFields s₁ s₂) : Carried s c s₂ :=
  ⟨h'.gFlags.trans h.gFlags, fun hc => h'.gArg.trans (h.lost hc),
    fun hc => h'.gArg.trans (h.kept hc)⟩

/-- What two calls one after the other have carried. -/
theorem Carried.trans (h : Carried s c s₁) (h' : Carried s₁ c' s₂) : Carried s (c ∨ c') s₂ := by
  refine ⟨by rw [h'.gFlags, h.gFlags], fun hc => ?_, fun hc => ?_⟩
  · by_cases hc' : c'
    · exact h'.lost hc'
    · rw [h'.kept hc']
      exact h.lost (hc.resolve_right hc')
  · rw [h'.kept fun hc' => hc (.inr hc'), h.kept fun hc' => hc (.inl hc')]

variable {leak : StackId → Nat} {a : Saved} {d : Option Deferral}

/-- A deferred exit is recorded, if none is pending. -/
theorem exit_asked (hd : flags.defer = true) :
    Returns (fun p => s.gFlags = {} ∧ p.1.Holds (some ⟨arg, flags⟩) ∧ p.2 = .returned .ok none)
      (callStep s (.exit t arg flags sp)) := by
  show Returns _ (exit s t arg flags false sp)
  unfold exit
  refine returns_any.bind fun _ _ => returns_any.bind fun _ _ => Sat.ite_true hd ?_
  refine (returns_require (f := .exit) (p := s.lockAuto.gFlags = {})).bind fun _ hg => ?_
  refine ⟨hg, ⟨rfl, rfl, fun x hx => ?_⟩, rfl⟩
  cases hx
  exact hd

end Calls

/-- Two results that differ at most in the frame of a call that stays. -/
inductive ButFrame (k k' : Frame) : Res (State × Back) → Res (State × Back) → Prop where
  | fault (f : Fault) : ButFrame k k' (.error f) (.error f)
  | own (s : State) (rc : Rc) (x : Option Ptr) : ButFrame k k' (.ok (s, ⟨k, rc, x⟩))
      (.ok (s, ⟨k', rc, x⟩))
  | same (p : State × Back) : ButFrame k k' (.ok p) (.ok p)

section ButFrame

variable {s : State} {t : TealetId} {arg : Ptr} {k k' : Frame} {sp : Nat} {flags : XFlags}

/-- The record of the current tealet says that it exits. -/
def State.Exiting (s : State) : Prop := ∀ c, s.tealets s.gCurrent = some c → c.flags.exiting = true

theorem ButFrame.bind_own {x y : Res (State × Back)} {f f' : State × Back → Res (State × Back)}
    (h : ButFrame k k' x y) (hf : ∀ s rc v, ButFrame k k' (f (s, ⟨k, rc, v⟩)) (f' (s, ⟨k', rc, v⟩)))
    (hsame : ∀ p, ButFrame k k' (f p) (f' p)) : ButFrame k k' (x >>= f) (y >>= f') := by
  cases h with
  | fault f => exact .fault f
  | own s rc v => exact hf s rc v
  | same p => exact hsame p

theorem ButFrame.refl (k k' : Frame) (x : Res (State × Back)) : ButFrame k k' x x := by
  cases x with
  | ok p => exact .same p
  | error f => exact .fault f

/-- A tealet that exits is not saved, so its call is not looked at. -/
theorem saveState_exiting (hx : s.Exiting) : saveState s k sp = saveState s k' sp := by
  unfold saveState
  cases hg : s.gTarget with
  | none => rfl
  | some g =>
      dsimp only
      congr 1
      funext target
      congr 1
      funext _
      cases hc : s.tealets s.gCurrent with
      | none => simp only [State.tealet, hc]; rfl
      | some c =>
          have hexit : c.flags.exiting = true := hx c hc
          simp only [tealet_of hc, ok_bind, hexit, if_true]

theorem stackmanSwitch_alike (hx : s.Exiting) (old : Option TealetId) :
    ButFrame k k' (stackmanSwitch s k sp >>= afterSwitch old)
      (stackmanSwitch s k' sp >>= afterSwitch old) := by
  have hafter : ∀ (s : State) (sp : Nat), ButFrame k k' (afterSwitch old (s, k, sp))
      (afterSwitch old (s, k', sp)) := by
    intro s sp
    unfold afterSwitch
    dsimp only
    by_cases hsw : s.gSw = .err
    · rw [if_pos hsw, if_pos hsw]
      cases armIntegrity { s with gPrevious := old, gTarget := none, gArg := null } sp with
      | ok s' => exact .own _ _ _
      | error f => exact .fault f
    · rw [if_neg hsw, if_neg hsw]
      cases s.gTarget with
      | none => exact .fault _
      | some g =>
          dsimp only
          cases armIntegrity
            { s with gCurrent := g, live := g, gTarget := none, gArg := null } sp with
          | error f => exact .fault f
          | ok s' =>
              simp only [ok_bind]
              split <;> exact .own _ _ _
  unfold stackmanSwitch
  have hsave : saveState s k sp = saveState s k' sp := saveState_exiting hx
  rw [hsave]
  cases saveState s k' sp with
  | error f => exact .fault f
  | ok p =>
      obtain ⟨s₁, failed⟩ := p
      simp only [ok_bind]
      cases failed with
      | true => exact hafter { s₁ with gSw := .err } sp
      | false =>
          simp only [Bool.false_eq_true, if_false]
          cases s.gTarget with
          | none => exact .fault _
          | some g =>
              dsimp only
              cases s₁.tealet g with
              | error f => exact .fault f
              | ok target =>
                  simp only [ok_bind]
                  cases target.stack with
                  | none => exact hafter { s₁ with gSw := .nop } sp
                  | some stack => exact .refl _ _ _

/-- What the checks before a switch leave of the current tealet. -/
theorem copyStage_exiting (hx : s.Exiting) :
    Returns (fun p => p.1.Exiting) (copyStage s t arg sp) := by
  have hkeep : ∀ s₁ : State, s₁.gCurrent = s.gCurrent →
      s₁.tealets s.gCurrent = s.tealets s.gCurrent → s₁.Exiting := by
    intro s₁ hcur htl c hc
    rw [hcur, htl] at hc
    exact hx c hc
  unfold copyStage
  refine returns_require.bind fun _ ht => returns_any.bind fun r _ => ?_
  split
  · exact hx
  · have hdef : Returns (fun p => p.1.gCurrent = s.gCurrent ∧
        p.1.tealets s.gCurrent = s.tealets s.gCurrent) (isDefunct s t) := by
      unfold isDefunct
      refine returns_any.bind fun r _ => ?_
      split
      · exact ⟨rfl, rfl⟩
      · split
        · exact ⟨rfl, rfl⟩
        · refine returns_any.bind fun st _ => ?_
          split
          · exact ⟨rfl, Function.update_of_ne (Ne.symm ht) _ _⟩
          · exact ⟨rfl, rfl⟩
    refine hdef.bind fun p hp => ?_
    obtain ⟨s₁, defunct⟩ := p
    dsimp only at hp ⊢
    split
    · exact hkeep s₁ hp.1 hp.2
    · refine returns_any.bind fun rejected _ => ?_
      split
      · exact hkeep s₁ hp.1 hp.2
      · refine returns_any.bind fun e _ => returns_any.bind fun v _ => ?_
        obtain ⟨e', verdict⟩ := v
        cases verdict with
        | some err => exact hkeep _ hp.1 hp.2
        | none => exact hkeep _ hp.1 hp.2

theorem switchstack_alike (hx : s.Exiting) :
    ButFrame k k' (switchstack s t arg k sp) (switchstack s t arg k' sp) := by
  rw [switchstack_eq, switchstack_eq]
  cases hc : copyStage s t arg sp with
  | error f => exact .fault f
  | ok p =>
      have hx₁ : p.1.Exiting := (copyStage_exiting hx).result hc
      obtain ⟨s₁, _ | e⟩ := p
      · exact stackmanSwitch_alike hx₁ s.gPrevious
      · exact .own _ _ _

/-- An exit, implicit or not, does the same up to the return of `tealet_xfer_inner`. -/
theorem xferInner_alike (g : TealetId) (i i' : Bool) :
    ButFrame (.exit g i) (.exit g i') (xferInner s t arg flags true (.exit g i) sp)
      (xferInner s t arg flags true (.exit g i') sp) := by
  unfold xferInner
  cases s.tealet t with
  | error f => exact .fault f
  | ok r =>
  cases hc : s.tealet s.gCurrent with
  | error f => exact .fault f
  | ok c =>
  simp only [ok_bind, if_true]
  by_cases hb : r.flags.bound = false
  · rw [if_pos hb, if_pos hb]
    exact .same _
  rw [if_neg hb, if_neg hb]
  cases require .xferInner (s.gCurrent ≠ mainId) with
  | error f => exact .fault f
  | ok _ =>
  simp only [ok_bind]
  by_cases ht : t = s.gCurrent
  · rw [if_pos ht, if_pos ht]
    exact .same _
  rw [if_neg ht, if_neg ht]
  cases require .xferInner (c.stack = none) with
  | error f => exact .fault f
  | ok _ =>
  cases require .xferInner (c.flags.autodelete = false) with
  | error f => exact .fault f
  | ok _ =>
  simp only [ok_bind]
  refine (switchstack_alike ?_).bind_own ?_ fun p => .refl _ _ _
  · intro c' hc'
    have hself : (s.setTealet s.gCurrent { c with flags := { c.flags with
        exiting := true, autodelete := flags.delete
        saveforce := c.flags.saveforce || flags.force } }).tealets s.gCurrent = some c' := by
      cases hp : flags.panic <;> (rw [hp] at hc'; exact hc')
    have hself : Function.update s.tealets s.gCurrent _ s.gCurrent = some c' := hself
    rw [Function.update_self] at hself
    cases hself
    rfl
  · intro s₁ rc v
    dsimp only
    cases rc with
    | err e =>
        cases hl : leaveXfer s₁ ⟨.exit g i, .err e, v⟩ with
        | error f =>
            rw [show leaveXfer s₁ ⟨.exit g i', .err e, v⟩ =
              leaveXfer s₁ ⟨.exit g i, .err e, v⟩ from rfl, hl]
            exact .fault f
        | ok s₂ =>
            rw [show leaveXfer s₁ ⟨.exit g i', .err e, v⟩ =
              leaveXfer s₁ ⟨.exit g i, .err e, v⟩ from rfl, hl]
            exact .own _ _ _
    | _ => exact .fault _

theorem xferAttempts_alike (g : TealetId) (i i' : Bool) :
    ButFrame (.exit g i) (.exit g i') (xferAttempts s t arg flags true (.exit g i) sp)
      (xferAttempts s t arg flags true (.exit g i') sp) := by
  unfold xferAttempts
  cases flags.nofail with
  | false => exact xferInner_alike g i i'
  | true =>
      rw [if_pos rfl, if_pos rfl]
      have hretry : ∀ p : State × Back, ButFrame (.exit g i) (.exit g i')
          (if p.2.rc = .err .mem ∨ p.2.rc = .err .defunct then
            xferInner p.1 mainId arg
              { flags with nofail := false, force := true, panic := true } true (.exit g i) sp
          else pure p)
          (if p.2.rc = .err .mem ∨ p.2.rc = .err .defunct then
            xferInner p.1 mainId arg
              { flags with nofail := false, force := true, panic := true } true (.exit g i') sp
          else pure p) := by
        intro p
        split
        · exact xferInner_alike g i i'
        · exact .same p
      refine (xferInner_alike g i i').bind_own ?_ hretry
      intro s₁ rc v
      dsimp only
      by_cases hrc : rc = .err .mem ∨ rc = .err .defunct
      · rw [if_pos hrc, if_pos hrc]
        exact xferInner_alike g i i'
      · rw [if_neg hrc, if_neg hrc]
        exact .own _ _ _

/-- An exit that is not to return does what one that may would do. -/
theorem exit_explicit {r : State × Outcome} (hd : flags.defer = false)
    (h : exit s t arg flags true sp = .ok r) : exit s t arg flags false sp = .ok r := by
  rw [exit_eq _ _ _ _ _ _ hd] at h ⊢
  obtain ⟨_, hreq, h⟩ := bind_ok h
  obtain ⟨_, hver, h⟩ := bind_ok h
  obtain ⟨p, hatt, h⟩ := bind_ok h
  have hreqs : ∃ s₀ a f, ∀ i, exitRequest s.lockAuto t arg flags i sp =
      (s₀, ⟨t, a, f, true, .exit s.gCurrent i, sp⟩) := by
    unfold exitRequest
    by_cases hp : s.lockAuto.gFlags.xfer.defer = true
    · exact ⟨_, _, _, fun i => if_pos hp⟩
    · exact ⟨_, _, _, fun i => if_neg hp⟩
  obtain ⟨s₀, a, f, hq⟩ := hreqs
  rw [hq] at hatt h
  rw [hreq, ok_bind, hver, ok_bind, hq]
  unfold Request.attempts at hatt ⊢
  have halike : ButFrame (.exit s.gCurrent true) (.exit s.gCurrent false)
      (xferAttempts s₀ t a f true (.exit s.gCurrent true) sp)
      (xferAttempts s₀ t a f true (.exit s.gCurrent false) sp) :=
    xferAttempts_alike s.gCurrent true false
  dsimp only at hatt h ⊢
  rw [hatt] at halike
  revert halike
  cases hx : xferAttempts s₀ t a f true (.exit s.gCurrent false) sp with
  | error e =>
      intro halike
      cases halike
  | ok p' =>
      intro halike
      cases halike with
      | own s₁ rc v =>
          unfold Request.finish at h
          rw [if_neg (by simp)] at h
          cases h
      | same =>
          unfold Request.finish at h ⊢
          by_cases hapi : p.2.frame = .api
          · rw [if_pos ⟨rfl, hapi⟩] at h
            cases h
          · rw [if_neg fun hh => hapi hh.2] at h
            rw [ok_bind, if_neg fun hh => hapi hh.2]
            exact h

end ButFrame

/-! ## The exit that finds a request -/

/-- The state with no request pending. -/
def State.settled (s : State) : State := { s with gFlags := {}, gArg := null }

theorem State.Holds.once {s : State} {x : Deferral} (h : s.Holds (some x))
    {t : TealetId} {arg : Ptr}
    {flags : XFlags} {sp : Nat} {r : State × Outcome} (hd : flags.defer = true) :
    callStep s (.exit t arg flags sp) ≠ .ok r := by
  intro hr
  obtain ⟨hg, -⟩ := (exit_asked hd).result hr
  have hx : x.flags.defer = true := h.asked x rfl
  rw [h.gFlags] at hg
  have hx' : x.flags = {} := congrArg GFlags.xfer hg
  rw [hx'] at hx
  cases hx

/-- A run function that returns exits with what is pending, or with the defaults. -/
theorem State.Holds.returns {s : State} {d : Option Deferral} (h : s.Holds d)
    {t : TealetId} {sp : Nat} {r : State × Outcome} (hr : callStep s (.ret (some t) sp) = .ok r) :
    exit s.settled t ((d.map Deferral.arg).getD null)
      { (d.map Deferral.flags).getD {} with defer := false, nofail := true } false sp = .ok r := by
  have hr : ret s (some t) sp = .ok r := hr
  unfold ret at hr
  cases d with
  | none =>
      have hs : s.settled = s := by
        have hg := h.gFlags
        have ha := h.gArg
        cases s
        dsimp only [Option.map_none, Option.getD_none] at hg ha
        subst hg ha
        rfl
      rw [hs]
      rw [if_neg (by rw [h.gFlags]; exact Bool.false_ne_true)] at hr
      exact exit_explicit rfl hr
  | some x =>
      have hp : s.gFlags.xfer.defer = true := by
        rw [h.gFlags]
        exact h.asked x rfl
      rw [if_pos hp, h.gFlags, h.gArg] at hr
      exact exit_explicit rfl hr

end Tealet
