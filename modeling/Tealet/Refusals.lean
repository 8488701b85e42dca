import Tealet.Current
import Tealet.Lifecycle

/-!
# Requests that are refused

A start of a tealet that is not NEW, a fork from an unbounded stack, a
transfer to a tealet that cannot be resumed: the call returns the
documented code to its caller and changes nothing but a cached defunct
flag. An explicit `tealet_exit` does not keep that promise while a deferred
exit is pending, which it consumes before any check, and from main, where
`tealet_xfer_inner` asserts before it looks at the target.
-/

namespace Tealet

open DList Slice Hoare

/-- The requests that must be refused, and the codes for them. -/
inductive Refused (s : State) : Call → Err → Prop where
  | run {t : TealetId} {fn : RunFn} {parg : Option Ptr} {hint : Nat} {sw : Bool} {site : Site}
      {x : Status} (h : s.statusOf t = some x) (hx : x ≠ .new) :
      Refused s (.run t fn parg hint sw site) .inval
  | fork {t : TealetId} {parg : Option Ptr} {sw : Bool} {site : Site} {x : Status}
      (h : s.statusOf t = some x) (hx : x ≠ .new) : Refused s (.fork t parg sw site) .inval
  | unforkable {t : TealetId} {parg : Option Ptr} {sw : Bool} {site : Site}
      (h : s.statusOf t = some .new) (hfar : runningFar s = spFurthest) :
      Refused s (.fork t parg sw site) .unforkable
  | switch {t : TealetId} {parg : Option Ptr} {flags : XFlags} {sp : Nat}
      (hn : flags.nofail = false) (h : s.statusOf t = some .new ∨ s.statusOf t = some .exited) :
      Refused s (.switch t parg flags sp) .inval
  | switchDefunct {t : TealetId} {parg : Option Ptr} {flags : XFlags} {sp : Nat}
      (hn : flags.nofail = false) (h : s.statusOf t = some .defunct) :
      Refused s (.switch t parg flags sp) .defunct
  | exit {t : TealetId} {arg : Ptr} {flags : XFlags} {sp : Nat} (hd : flags.defer = false)
      (hn : flags.nofail = false) (h : s.statusOf t = some .new ∨ s.statusOf t = some .exited) :
      Refused s (.exit t arg flags sp) .inval
  | exitDefunct {t : TealetId} {arg : Ptr} {flags : XFlags} {sp : Nat} (hd : flags.defer = false)
      (hn : flags.nofail = false) (hm : s.gCurrent ≠ mainId) (h : s.statusOf t = some .defunct) :
      Refused s (.exit t arg flags sp) .defunct
  | exitSelf {arg : Ptr} {flags : XFlags} {sp : Nat} (hd : flags.defer = false)
      (hn : flags.nofail = false) : Refused s (.exit s.gCurrent arg flags sp) .inval
  | exitMain {t : TealetId} {arg : Ptr} {flags : XFlags} {sp : Nat} (hd : flags.defer = false)
      (hn : flags.nofail = false) (hm : s.gCurrent = mainId) (ht : Alive s t) :
      Refused s (.exit t arg flags sp) .inval

/-- Everything is as it was, up to the caching of a defunct stack in a record. -/
structure Untouched (s s' : State) : Prop where
  current : s'.gCurrent = s.gCurrent
  previous : s'.gPrevious = s.gPrevious
  records : ∀ t, s'.tealets t = s.tealets t ∨
    ∃ r k st, s.tealets t = some r ∧ r.stack = some k ∧ s.heap.stackAt k = some st ∧
      st.defunct = true ∧
      s'.tealets t = some { r with flags := { r.flags with defunct := true } }
  saved : s'.heap.stackAt = s.heap.stackAt
  chunks : s'.heap.chunkAt = s.heap.chunkAt
  prev : s'.heap.gPrev = s.heap.gPrev
  deferred : s'.gFlags = s.gFlags ∧ s'.gArg = s.gArg
  watch : s'.env.data = s.env.data ∧ s'.env.lowered = s.env.lowered
  mem : s'.mem = s.mem

/-- The call is made on the stack of the running tealet. -/
def Call.OnStack (s : State) : Call → Prop
  | .run _ _ _ _ _ site | .fork _ _ _ site => site.sp < runningFar s
  | .switch _ _ _ sp | .exit _ _ _ sp => sp < runningFar s
  | _ => True

/-- An explicit exit that consumes a pending one, or is made by main and
gets past the first check of the target. -/
def Call.Clobbers (s : State) : Call → Prop
  | .exit t _ _ _ =>
      s.gFlags.xfer.defer = true ∨ s.gCurrent = mainId ∧ s.statusOf t ≠ some .new
  | _ => False

section Refuse

variable {leak : StackId → Nat} {s s' : State} {a : Saved} {t : TealetId} {c r : TealetSub}
  {k : Frame} {sp : Nat} {arg : Ptr} {flags : XFlags} {isExit : Bool}

theorem Untouched.refl (s : State) : Untouched s s :=
  ⟨rfl, rfl, fun _ => .inl rfl, rfl, rfl, rfl, ⟨rfl, rfl⟩, ⟨rfl, rfl⟩, rfl⟩

/-- The environment's choices for the call are not seen. -/
theorem Untouched.of_choices {allocs : List Bool} {mprotects : List (Option (Nat → Bool))}
    (h : Untouched (s.withChoices allocs mprotects) s') : Untouched s s' :=
  ⟨h.current, h.previous, h.records, h.saved, h.chunks, h.prev, h.deferred, h.watch, h.mem⟩

theorem env_lockAuto (e : Env) : ∃ log, e.lockAuto = { e with lockLog := log } := by
  unfold Env.lockAuto
  split
  · exact ⟨_, rfl⟩
  · exact ⟨e.lockLog, rfl⟩

theorem env_unlockAuto (e : Env) : ∃ log, e.unlockAuto = { e with lockLog := log } := by
  unfold Env.unlockAuto
  split
  · exact ⟨_, rfl⟩
  · exact ⟨e.lockLog, rfl⟩

theorem Untouched.locked (h : Untouched s.lockAuto s') : Untouched s s'.unlockAuto := by
  obtain ⟨log, hlog⟩ := env_lockAuto s.env
  obtain ⟨log', hlog'⟩ := env_unlockAuto s'.env
  obtain ⟨h₁, h₂, h₃, h₄, h₅, h₆, h₇, h₈, h₉⟩ := h
  simp only [State.lockAuto, hlog] at *
  refine ⟨h₁, h₂, h₃, h₄, h₅, h₆, h₇, ?_, h₉⟩
  simp only [State.unlockAuto, hlog']
  exact h₈

theorem verifyCurrent_ok (I : Inv leak s a) (hc : s.tealets s.gCurrent = some c)
    (hsp : sp < c.stackFar) : verifyCurrentMatchesCaller s sp = .ok () := by
  rw [verifyCurrentMatchesCaller_eq hc]
  unfold verifyRecord
  rw [require_of (I.running hc).1.exited, ok_bind]
  split
  · rfl
  · rw [require_of (Nat.ne_of_gt (Nat.lt_of_le_of_lt (Nat.zero_le sp) hsp)), ok_bind,
      require_of hsp]

/-! ## A transfer that is refused -/

/-- Why a transfer to the record `r` is refused by `tealet_switchstack`. -/
inductive Dead (s : State) (t : TealetId) (r : TealetSub) : Err → State → Prop where
  | exited (hx : r.flags.exited = true) : Dead s t r .inval s
  | defunct (hx : r.flags.exited = false) (hd : r.flags.defunct = true) : Dead s t r .defunct s
  | spoiled {k : StackId} {st : Stack} (hx : r.flags.exited = false) (hd : r.flags.defunct = false)
      (hk : r.stack = some k) (hst : s.heap.stackAt k = some st) (hdst : st.defunct = true) :
      Dead s t r .defunct (s.setTealet t { r with flags := { r.flags with defunct := true } })

theorem switchstack_dead {e : Err} (ht : t ≠ s.gCurrent) (hr : s.tealets t = some r)
    (h : Dead s t r e s') :
    switchstack s t arg k sp = .ok (s'.clearPanic, ⟨k, .err e, none⟩) := by
  unfold switchstack
  simp only [require_of ht, ok_bind, tealet_of hr]
  cases h with
  | exited hx => simp only [hx, if_true]; rfl
  | defunct hx hd =>
      simp only [hx, Bool.false_eq_true, if_false, isDefunct, tealet_of hr, ok_bind, hd, if_true]
      rfl
  | spoiled hx hd hk hst hdst =>
      simp only [hx, Bool.false_eq_true, if_false, isDefunct, tealet_of hr, ok_bind, hd, hk,
        Heap.stack, hst, hdst, if_true]
      rfl

/-- `tealet_xfer_inner` takes back what it staged. -/
theorem Inv.xferInner_dead (I : Inv leak s a) (hc : s.tealets s.gCurrent = some c)
    (hr : s.tealets t = some r) (ht : t ≠ s.gCurrent) (hb : r.flags.bound = true)
    (hexit : isExit = true → s.gCurrent ≠ mainId) (hk : OwnFrame s isExit k) {e : Err}
    (he : e ≠ .panic) (h : Dead s t r e s') :
    xferInner s t arg flags isExit k sp = .ok (s', ⟨k, .err e, none⟩) := by
  obtain ⟨hact, hs, hq⟩ := I.running hc
  have hquiet : (c.flags.armed flags isExit).quiet = c.flags := by
    rw [armed_quiet _ _ hq]
  have htr : (s.armed c flags isExit).tealets t = some r := (Function.update_of_ne ht _ _).trans hr
  have hpan : s.gFlags.panic = false := I.panic
  -- the state after the refusal, before the staged flags are taken back
  have hdead : ∃ s₁, Dead (s.armed c flags isExit) t r e s₁ ∧
      s₁.clearPanic.tealets s.gCurrent = some { c with flags := c.flags.armed flags isExit } ∧
      s₁.clearPanic.setTealet s.gCurrent c = s' := by
    cases h with
    | exited hx =>
        exact ⟨_, .exited hx, Function.update_self .., armed_restore flags isExit hc hpan s.env⟩
    | defunct hx hd =>
        exact ⟨_, .defunct hx hd, Function.update_self .., armed_restore flags isExit hc hpan s.env⟩
    | spoiled hx hd hkt hst hdst =>
        refine ⟨_, .spoiled hx hd hkt hst hdst, ?_, ?_⟩
        · exact (Function.update_of_ne ht.symm _ _).trans (Function.update_self ..)
        · have hcomm := State.setTealet_comm (s := (s.armed c flags isExit).clearPanic)
            { r with flags := { r.flags with defunct := true } } c ht
          rw [show (s.armed c flags isExit).clearPanic.setTealet s.gCurrent c = s from
            armed_restore flags isExit hc hpan s.env] at hcomm
          exact hcomm
  obtain ⟨s₁, hd₁, hcur, hback⟩ := hdead
  rw [I.xferInner_armed hc hr hb ht hexit,
    switchstack_dead (s := s.armed c flags isExit) ht htr hd₁,
    ok_bind, leaveXfer_own _ hk hcur hquiet he, ok_bind, hback]

/-- A dead target keeps what it is but for the cached flag. -/
theorem Dead.untouched {e : Err} (hr : s.tealets t = some r) (h : Dead s t r e s') :
    Untouched s s' := by
  cases h with
  | exited => exact .refl s
  | defunct => exact .refl s
  | @spoiled k st hx hd hk hst hdst =>
      refine { Untouched.refl s with records := fun x => ?_ }
      by_cases hxt : x = t
      · subst hxt
        exact .inr ⟨r, k, st, hr, hk, hst, hdst, Function.update_self ..⟩
      · exact .inl (Function.update_of_ne hxt _ _)

/-! ## The status of the target -/

theorem record_of_status {x : Status} (h : s.statusOf t = some x) : ∃ r, s.tealets t = some r ∧
    r.statusWith ((r.stack.bind s.heap.stackAt).any Stack.defunct) = x :=
  Option.map_eq_some_iff.mp h

theorem bound_of_status {r : TealetSub} {d : Bool} (h : r.statusWith d ≠ .new) :
    r.flags.bound = true := by
  by_contra hb
  exact h (if_pos (by simpa using hb))

theorem unbound_of_status {r : TealetSub} {d : Bool} (h : r.statusWith d = .new) :
    r.flags.bound = false := by
  unfold TealetSub.statusWith at h
  split at h
  · assumption
  · split at h
    · cases h
    · split at h <;> cases h

theorem dead_of_exited
    (h : r.statusWith ((r.stack.bind s.heap.stackAt).any Stack.defunct) = .exited) :
    Dead s t r .inval s := by
  refine .exited ?_
  unfold TealetSub.statusWith at h
  split at h
  · cases h
  · split at h
    · assumption
    · split at h <;> cases h

theorem dead_of_defunct
    (h : r.statusWith ((r.stack.bind s.heap.stackAt).any Stack.defunct) = .defunct) :
    ∃ s', Dead s t r .defunct s' := by
  unfold TealetSub.statusWith at h
  split at h
  · cases h
  · split at h
    · cases h
    · rename_i hb hx
      have hx : r.flags.exited = false := by simpa using hx
      split at h
      · rename_i hd
        cases hrd : r.flags.defunct with
        | true => exact ⟨_, .defunct hx hrd⟩
        | false =>
            rw [hrd, Bool.false_or] at hd
            rcases hbind : r.stack.bind s.heap.stackAt with _ | st <;> rw [hbind] at hd
            · cases hd
            · obtain ⟨k, hk, hst⟩ := Option.bind_eq_some_iff.mp hbind
              exact ⟨_, .spoiled hx hrd hk hst hd⟩
      · cases h

/-! ## The calls -/

/-- A transferring call whose only attempt is refused returns the error. -/
theorem callStep_refused {s₀ s₁ : State} {cl : Call} {q : Request} {e : Err} {fr : Frame}
    (hq : cl.request s = some (s₀, q)) (hF : cl.FlagsOk)
    (hv : verifyCurrentMatchesCaller s q.sp = .ok ()) (hn : q.flags.nofail = false)
    (hx : xferInner s₀ q.target q.arg q.flags q.isExit q.frame q.sp =
      .ok (s₁, ⟨fr, .err e, none⟩)) (hfr : fr = q.frame ∨ fr = .api)
    (hframe : (q.isExit = false ∧ ∃ g out, q.frame = .switch g out) ∨
      q.isExit = true ∧ ∃ g, q.frame = .exit g false) :
    callStep s cl = .ok (s₁.unlockAuto, .returned (.err e) none) := by
  obtain ⟨f, cond, inst, -, hcond, heq⟩ := callStep_request hq
  have hatt : q.attempts s₀ = .ok (s₁, ⟨fr, .err e, none⟩) := by
    rw [Request.attempts, xferAttempts, if_neg (by simp [hn])]
    exact hx
  rw [heq, require_of (hcond hF), ok_bind, hv, ok_bind, hatt, ok_bind, Request.finish]
  rcases hframe with ⟨hi, g, out, hk⟩ | ⟨hi, g, hk⟩
  · rcases hfr with rfl | rfl
    · simp [hi, hk, Tealet.finish]
    · simp [hi, Tealet.finish]
  · rcases hfr with rfl | rfl
    · simp [hi, hk, Tealet.finish, require_of]
    · simp [hi, hk, Tealet.finish, require_of]

/-! ## The pending exit -/

theorem Attempted.gFlags {f : XFlags} {p : State × Back}
    (h : Attempted s a t arg f isExit k sp c r p) : p.1.gFlags = s.gFlags := by
  cases h with
  | toSelf ht hp => cases isExit <;> (rw [hp]; rfl)
  | nomem ht hu hg hfate hrep hal hb hT ha hprev hflags => exact hflags
  | moved ht hexit hu hv hg hfate him' hrep hal hb hT ha hprev hflags => exact hflags
  | spoiled hx hd hk him hdim hp => rw [hp]; rfl
  | _ => rename_i hp; rw [hp]

theorem finish_gFlags (s : State) (b : Back) :
    Returns (fun p => p.1.gFlags = s.gFlags) (finish s b) := by
  have hdel : ∀ s₁ t, Returns (fun s' => s'.gFlags = s₁.gFlags) (delete s₁ t) := fun s₁ t =>
    returns_any.bind fun _ _ => returns_any.bind fun _ _ => returns_any.bind fun _ _ => rfl
  have hfail : ∀ s₁ child creator sw, Returns (fun s' => s'.gFlags = s₁.gFlags)
      (failStart s₁ child creator sw) := by
    intro s₁ child creator sw
    refine returns_any.bind fun _ _ => ?_
    cases sw <;> rfl
  obtain ⟨fr, rc, x⟩ := b
  cases fr with
  | api => exact rfl
  | switch g out => exact rfl
  | exit g implicit =>
      unfold finish
      cases implicit with
      | true => exact True.intro
      | false => exact returns_any.bind fun _ _ => rfl
  | run result current previous fn arg sw out spawned =>
      simp only [finish]
      cases rc with
      | err e =>
          refine (hfail ..).bind fun s₁ h₁ => ?_
          cases spawned with
          | false => exact h₁
          | true => exact (hdel s₁.unlockAuto result).bind fun s₂ h₂ => h₂.trans h₁
      | _ =>
          cases sw
          all_goals
            dsimp only
            split
            · exact returns_any.bind fun _ _ => returns_any.bind fun _ _ =>
                returns_any.bind fun _ _ => rfl
            · exact rfl
  | fork child current previous sw out =>
      have hp : ∀ (c : Prop) (inst : Decidable c) (p : Option TealetId),
          (@ite _ c inst { s with gPrevious := p } s).gFlags = s.gFlags := by
        intro c inst p
        split <;> rfl
      simp only [finish]
      cases rc with
      | err e => exact (hfail ..).bind fun s₁ h₁ => h₁.trans (hp _ _ _)
      | _ => exact hp _ _ _

/-- An explicit exit leaves no exit pending, whether it is refused or not. -/
theorem exit_clears (I : Inv leak s a) (halive : Alive s t) (hd : flags.defer = false)
    (hsp : sp < spFurthest) (hp : s.gFlags.xfer.defer = true) :
    Returns (fun p => p.1.gFlags.xfer.defer = false) (callStep s (.exit t arg flags sp)) := by
  rcases hreq : exitRequest s.lockAuto t arg flags false sp with ⟨s₀, q⟩
  have hq : (Call.exit t arg flags sp).request s = some (s₀, q) := by
    rw [← hreq]
    exact if_neg (by simp [hd])
  have hclear : s₀.gFlags = {} := by
    rw [exitRequest, if_pos (show s.lockAuto.gFlags.xfer.defer = true from hp)] at hreq
    cases hreq
    rfl
  obtain ⟨I₀, -⟩ := I.withRequest hq
  obtain ⟨_, _, _, -, -, heq⟩ := callStep_request hq
  obtain ⟨halive₀, hsp₀⟩ := request_legal (c := .exit t arg flags sp) hq ⟨halive, hsp⟩
  obtain ⟨fl, ar, hs₀, -⟩ := request_state hq
  have halive₁ : Alive s₀ q.target := by
    rw [hs₀]
    exact halive₀
  rw [heq]
  refine returns_any.bind fun _ _ => returns_any.bind fun _ _ => ?_
  refine (I₀.attempts_rel (R := fun s s' => s'.gFlags = s.gFlags) (fun h h' => h'.trans h)
    (fun h => h.gFlags) hsp₀ (request_frame hq) halive₁).bind fun p hp => ?_
  refine (finish_gFlags _ _).imp fun p' hp' => ?_
  rw [hp', hp, hclear]

/-! ## The calls that must be refused -/

theorem statusOf_withChoices {allocs : List Bool} {mprotects : List (Option (Nat → Bool))} :
    (s.withChoices allocs mprotects).statusOf t = s.statusOf t := rfl

/-- A start of a tealet that is not NEW. -/
theorem run_refused {x : Status} (h : s.statusOf t = some x) (hx : x ≠ .new) (fn : RunFn)
    (parg : Option Ptr) (hint : Nat) (sw spawned : Bool) (site : Site) :
    run s t fn parg hint sw spawned site = .ok (s, .returned (.err .inval) none) := by
  obtain ⟨r, hr, hst⟩ := record_of_status h
  have hf : r.flags ≠ {} := by
    intro hf
    have hb := bound_of_status (hst.symm ▸ hx)
    rw [hf] at hb
    cases hb
  unfold run
  rw [tealet_of hr, ok_bind, if_pos hf]
  rfl

theorem fork_refused (I : Inv leak s a) {site : Site} (hsp : site.sp < runningFar s) {x : Status}
    (h : s.statusOf t = some x) (parg : Option Ptr) (sw : Bool) {e : Err}
    (hx : x ≠ .new ∧ e = .inval ∨ x = .new ∧ runningFar s = spFurthest ∧ e = .unforkable) :
    fork s t parg sw site = .ok (s, .returned (.err e) none) := by
  obtain ⟨c, hc, -⟩ := I.sched.running
  have hc : s.tealets s.gCurrent = some c := hc
  have hrf : runningFar s = c.stackFar := by
    simp only [runningFar, hc, Option.map_some, Option.getD_some]
  obtain ⟨r, hr, hst⟩ := record_of_status h
  unfold fork
  rw [verifyCurrent_ok I hc (hrf ▸ hsp), ok_bind, tealet_of hr, ok_bind]
  rcases hx with ⟨hx, rfl⟩ | ⟨rfl, hfar, rfl⟩
  · have hf : r.flags ≠ {} := by
      intro hf
      have hb := bound_of_status (hst.symm ▸ hx)
      rw [hf] at hb
      cases hb
    rw [if_pos hf]
    rfl
  · have hf : r.flags = {} := by
      rw [(I.core.record t r hr).unbound (unbound_of_status hst)]
    rw [if_neg (not_not_intro hf), tealet_of hc, ok_bind, if_pos (hrf.symm.trans hfar)]
    rfl

/-- The target of a transfer that must be refused. -/
inductive Untaken (s : State) (isExit : Bool) (t : TealetId) : Err → Prop where
  | new (h : s.statusOf t = some .new) : Untaken s isExit t .inval
  | exited (h : s.statusOf t = some .exited) : Untaken s isExit t .inval
  | defunct (h : s.statusOf t = some .defunct) : Untaken s isExit t .defunct
  | self (h : t = s.gCurrent) (hx : isExit = true) : Untaken s isExit t .inval

/-- An attempt to transfer to it. -/
theorem Inv.xferInner_untaken (I : Inv leak s a) (arg : Ptr) (flags : XFlags) (sp : Nat)
    (hk : OwnFrame s isExit k)
    (hexit : isExit = true → s.statusOf t = some .new ∨ s.gCurrent ≠ mainId) {e : Err}
    (h : Untaken s isExit t e) : ∃ s₁ fr, xferInner s t arg flags isExit k sp =
      .ok (s₁, ⟨fr, .err e, none⟩) ∧ (fr = k ∨ fr = .api) ∧ Untouched s s₁ := by
  obtain ⟨c, hc, hact, hs⟩ := I.sched.running
  have hc : s.tealets s.gCurrent = some c := hc
  have hcst : c.statusWith ((c.stack.bind s.heap.stackAt).any Stack.defunct) = .active := by
    rw [hs]
    exact statusWith_active hact
  have hnot : ∀ {x}, s.statusOf t = some x → x ≠ .active → t ≠ s.gCurrent := by
    rintro x hst hx rfl
    obtain ⟨r, hr, hst⟩ := record_of_status hst
    obtain rfl := Option.some.inj (hr.symm.trans hc)
    exact hx (hst.symm.trans hcst)
  have hdead : ∀ {x} {r}, s.statusOf t = some x → x ≠ .active → x ≠ .new → s.tealets t = some r →
      e ≠ .panic → (∃ s₁, Dead s t r e s₁) → ∃ s₁ fr, xferInner s t arg flags isExit k sp =
        .ok (s₁, ⟨fr, .err e, none⟩) ∧ (fr = k ∨ fr = .api) ∧ Untouched s s₁ := by
    rintro x r hst hx hxn hr he ⟨s₁, hd⟩
    obtain ⟨r', hr', hst'⟩ := record_of_status hst
    obtain rfl := Option.some.inj (hr'.symm.trans hr)
    have hm : isExit = true → s.gCurrent ≠ mainId := fun hi => (hexit hi).resolve_left fun hn => by
      rw [hst] at hn
      exact hxn (Option.some.inj hn)
    exact ⟨s₁, k,
      I.xferInner_dead hc hr (hnot hst hx) (bound_of_status (hst'.symm ▸ hxn)) hm hk he hd,
      .inl rfl, hd.untouched hr⟩
  cases h with
  | new h =>
      obtain ⟨r, hr, hst⟩ := record_of_status h
      refine ⟨s, .api, ?_, .inr rfl, .refl s⟩
      unfold xferInner
      rw [tealet_of hr, ok_bind, tealet_of hc, ok_bind, if_pos (unbound_of_status hst)]
      rfl
  | exited h =>
      obtain ⟨r, hr, hst⟩ := record_of_status h
      exact hdead h nofun nofun hr nofun ⟨s, dead_of_exited hst⟩
  | defunct h =>
      obtain ⟨r, hr, hst⟩ := record_of_status h
      exact hdead h nofun nofun hr nofun (dead_of_defunct hst)
  | self h hx =>
      subst h hx
      have hm : s.gCurrent ≠ mainId := (hexit rfl).resolve_left fun hn => hnot hn nofun rfl
      refine ⟨s, .api, ?_, .inr rfl, .refl s⟩
      unfold xferInner
      rw [tealet_of hc, ok_bind, ok_bind, if_neg (by simp [hact.bound]), if_pos rfl, require_of hm,
        ok_bind, if_pos rfl]
      rfl

/-- A transferring call that must be refused is, and leaves no trace. -/
theorem Inv.transfer_refused (I : Inv leak s a) (cl : Call) {s₀ : State} {q : Request}
    (hq : cl.request s = some (s₀, q)) (hF : cl.FlagsOk) (hs₀ : s₀ = s.lockAuto)
    (hsp : q.sp < runningFar s) (hn : q.flags.nofail = false)
    (hframe : (q.isExit = false ∧ ∃ g out, q.frame = .switch g out) ∨
      q.isExit = true ∧ ∃ g, q.frame = .exit g false)
    (hexit : q.isExit = true → s.statusOf q.target = some .new ∨ s.gCurrent ≠ mainId) {e : Err}
    (h : Untaken s q.isExit q.target e) :
    ∃ s', callStep s cl = .ok (s', .returned (.err e) none) ∧ Untouched s s' := by
  obtain ⟨c, hc, -⟩ := I.sched.running
  have hc : s.tealets s.gCurrent = some c := hc
  have hrf : runningFar s = c.stackFar := by
    simp only [runningFar, hc, Option.map_some, Option.getD_some]
  obtain ⟨I₀, -⟩ := I.withRequest hq
  have hk := request_frame hq
  subst hs₀
  have h₀ : Untaken s.lockAuto q.isExit q.target e := by
    cases h with
    | new h => exact .new h
    | exited h => exact .exited h
    | defunct h => exact .defunct h
    | self h hx => exact .self h hx
  obtain ⟨s₁, fr, hx, hfr, hU⟩ := I₀.xferInner_untaken q.arg q.flags q.sp hk hexit h₀
  exact ⟨_, callStep_refused hq hF (verifyCurrent_ok I hc (hrf ▸ hsp)) hn hx hfr hframe, hU.locked⟩

/-- From main an exit stops at an assertion, unless the target is NEW. -/
theorem xferInner_main (hrun : ∃ r, s.tealets s.gCurrent = some r ∧ r.flags.Active ∧ r.stack = none)
    (hm : s.gCurrent = mainId) (hr : s.tealets t = some r) (hb : r.flags.bound = true)
    {p : State × Back} : xferInner s t arg flags true k sp ≠ .ok p := by
  obtain ⟨c, hc, -⟩ := hrun
  unfold xferInner
  rw [tealet_of hr, ok_bind, tealet_of hc, ok_bind, if_neg (by simp [hb]), if_pos rfl, require,
    if_neg (not_not_intro hm), error_bind]
  exact fun h => by cases h

end Refuse

/-- The requests that must be refused are, with the code for them and
without a trace, but for the exits that clobber. -/
theorem refused_iff {mem : Memory} {env : Env} {s : State}
    (hrun : Run NoPanicCapture (initial mem env) s) {c : Call} {e : Err} (hL : c.Legal s)
    (hS : c.OnStack s) (hF : c.FlagsOk) (h : Refused s c e) (allocs : List Bool)
    (mprotects : List (Option (Nat → Bool))) :
    (∃ s', step s (.call c allocs mprotects) = .ok (s', .returned (.err e) none) ∧ Untouched s s') ↔
      ¬ c.Clobbers s := by
  obtain ⟨leak, a, I, -⟩ := hrun.inv' False fun s e he => he
  replace I := I.withChoices allocs mprotects
  have hL' : c.Legal (s.withChoices allocs mprotects) := by
    cases c <;> exact hL
  have hchoices : ∀ {t x}, s.statusOf t = some x →
      (s.withChoices allocs mprotects).statusOf t = some x := fun h => h
  have hdone : ∀ s', Untouched (s.withChoices allocs mprotects) s' → Untouched s s' :=
    fun _ h => h.of_choices
  show (∃ s', callStep (s.withChoices allocs mprotects) c = _ ∧ _) ↔ _
  -- a switch that must be refused
  have hswitch : ∀ t parg flags sp, c = .switch t parg flags sp → flags.nofail = false →
      Untaken (s.withChoices allocs mprotects) false t e →
      ∃ s', callStep (s.withChoices allocs mprotects) c = .ok (s', .returned (.err e) none) ∧
        Untouched s s' := by
    rintro t parg flags sp rfl hn hu
    obtain ⟨s', h₁, h₂⟩ := I.transfer_refused (.switch t parg flags sp) rfl hF rfl hS hn
      (.inl ⟨rfl, _, _, rfl⟩) (fun h => by cases h) hu
    exact ⟨s', h₁, hdone s' h₂⟩
  have hreq : ∀ {t arg flags sp}, flags.defer = false → s.gFlags.xfer.defer = false →
      (Call.exit t arg flags sp).request (s.withChoices allocs mprotects) =
        some ((s.withChoices allocs mprotects).lockAuto,
          ⟨t, arg, flags, true, .exit s.gCurrent false, sp⟩) := by
    intro t arg flags sp hd hp
    show (if flags.defer = true then none else _) = _
    rw [if_neg (by simp [hd]), exitRequest, if_neg (by
      rw [show (s.withChoices allocs mprotects).lockAuto.gFlags = s.gFlags from rfl, hp]
      exact Bool.false_ne_true)]
    rfl
  -- an exit that must be refused, when nothing is pending
  have hexit : ∀ t arg flags sp, c = .exit t arg flags sp → flags.defer = false →
      flags.nofail = false → (s.statusOf t = some .new ∨ s.gCurrent ≠ mainId) →
      Untaken (s.withChoices allocs mprotects) true t e → ¬ c.Clobbers s →
      ∃ s', callStep (s.withChoices allocs mprotects) c = .ok (s', .returned (.err e) none) ∧
        Untouched s s' := by
    rintro t arg flags sp rfl hd hn hm hu hno
    have hp : s.gFlags.xfer.defer = false := by
      by_contra hp
      exact hno (.inl (by simpa using hp))
    obtain ⟨s', h₁, h₂⟩ := I.transfer_refused _ (hreq hd hp) hF rfl hS hn (.inr ⟨rfl, _, rfl⟩)
      (fun _ => hm) hu
    exact ⟨s', h₁, hdone s' h₂⟩
  -- one that clobbers
  have hclob : ∀ t arg flags sp, c = .exit t arg flags sp → flags.defer = false →
      flags.nofail = false → c.Clobbers s →
      ¬ ∃ s', callStep (s.withChoices allocs mprotects) c = .ok (s', .returned (.err e) none) ∧
        Untouched s s' := by
    rintro t arg flags sp rfl hd hn hcl ⟨s', hok, hU⟩
    by_cases hp : s.gFlags.xfer.defer = true
    · have hclear := (exit_clears I hL'.1 hd hL'.2 hp).result hok
      have hflags := hU.deferred.1
      dsimp only at hclear
      rw [hflags, hp] at hclear
      cases hclear
    · obtain ⟨hm, hst⟩ := hcl.resolve_left hp
      obtain ⟨r, hr⟩ := Option.isSome_iff_exists.mp hL.1
      have hb : r.flags.bound = true := by
        by_contra hb
        refine hst ?_
        rw [State.statusOf, hr, Option.map_some, TealetSub.statusWith, if_pos (by simpa using hb)]
      obtain ⟨_, _, _, -, -, heq⟩ := callStep_request (hreq hd (by simpa using hp))
      rw [heq] at hok
      obtain ⟨-, -, hok⟩ := bind_ok hok
      obtain ⟨-, -, hok⟩ := bind_ok hok
      obtain ⟨p, hatt, -⟩ := bind_ok hok
      rw [Request.attempts, xferAttempts, if_neg (by simp [hn])] at hatt
      exact xferInner_main (s := (s.withChoices allocs mprotects).lockAuto) I.sched.running
        hm hr hb hatt
  cases h with
  | run h hx =>
      exact iff_of_true ⟨_, run_refused (hchoices h) hx .., hdone _ (.refl _)⟩ id
  | fork h hx =>
      exact iff_of_true ⟨_, fork_refused I hS (hchoices h) _ _ (.inl ⟨hx, rfl⟩),
        hdone _ (.refl _)⟩ id
  | unforkable h hfar =>
      have hfar' : runningFar (s.withChoices allocs mprotects) = spFurthest := hfar
      exact iff_of_true ⟨_, fork_refused I hS (hchoices h) _ _ (.inr ⟨rfl, hfar', rfl⟩),
        hdone _ (.refl _)⟩ id
  | switch hn h =>
      refine iff_of_true (hswitch _ _ _ _ rfl hn ?_) id
      rcases h with h | h
      · exact .new h
      · exact .exited h
  | switchDefunct hn h => exact iff_of_true (hswitch _ _ _ _ rfl hn (.defunct h)) id
  | @exit t arg flags sp hd hn h =>
      refine ⟨fun hok hcl => hclob _ _ _ _ rfl hd hn hcl hok, fun hno => ?_⟩
      rcases h with h | h
      · exact hexit _ _ _ _ rfl hd hn (.inl h) (.new h) hno
      · have hm : s.gCurrent ≠ mainId := fun hm => hno (.inr ⟨hm, by rw [h]; decide⟩)
        exact hexit _ _ _ _ rfl hd hn (.inr hm) (.exited h) hno
  | exitDefunct hd hn hm h =>
      refine ⟨fun hok hcl => hclob _ _ _ _ rfl hd hn hcl hok, fun hno => ?_⟩
      exact hexit _ _ _ _ rfl hd hn (.inr hm) (.defunct h) hno
  | exitSelf hd hn =>
      refine ⟨fun hok hcl => hclob _ _ _ _ rfl hd hn hcl hok, fun hno => ?_⟩
      obtain ⟨c, hc, hact, hs⟩ := I.sched.running
      have hst : s.statusOf s.gCurrent ≠ some .new := by
        intro h
        obtain ⟨r, hr, hst⟩ := record_of_status h
        obtain rfl := Option.some.inj (hr.symm.trans hc)
        have hb := unbound_of_status hst
        rw [hact.bound] at hb
        cases hb
      have hm : s.gCurrent ≠ mainId := fun hm => hno (.inr ⟨hm, hst⟩)
      exact hexit _ _ _ _ rfl hd hn (.inr hm) (.self rfl rfl) hno
  | @exitMain t arg flags sp hd hn hm ht =>
      refine ⟨fun hok hcl => hclob _ _ _ _ rfl hd hn hcl hok, fun hno => ?_⟩
      have hst : s.statusOf t = some .new := by
        by_contra hst
        exact hno (.inr ⟨hm, hst⟩)
      exact hexit _ _ _ _ rfl hd hn (.inl hst) (.new hst) hno

/-- Main asks for a tealet that is NEW. -/
theorem refused_iff_new : ∃ s, Run NoPanicCapture (initial (fun _ => 0) {}) s ∧
    ((∃ s', step s (.call (.switch 1 (some 5) {} 900) [] []) =
        .ok (s', .returned (.err .inval) none) ∧ Untouched s s') ↔
      ¬ (Call.switch 1 (some 5) {} 900).Clobbers s) := by
  obtain ⟨s, hrun, hs⟩ := exists_run_of_trace (P := NoPanicCapture)
    (p := fun s e => e.legal s && e.panicResumes s)
    (fun s e h => by
      obtain ⟨h₁, h₂⟩ := Bool.and_eq_true_iff.mp h
      exact ⟨Event.legal_spec h₁, Event.panicResumes_spec h₂⟩)
    [.call .new [] []] (s := initial (fun _ => 0) {})
    (fun s => decide (Alive s 1) && decide (900 < runningFar s) &&
      decide (s.statusOf 1 = some .new))
    (by decide +kernel)
  simp only [Bool.and_eq_true, decide_eq_true_eq] at hs
  have hL : (Call.switch 1 (some 5) {} 900).Legal s := ⟨hs.1.1, by decide⟩
  exact ⟨s, hrun, refused_iff hrun hL hs.1.2 ⟨rfl, rfl⟩ (.switch rfl (.inl hs.2)) _ _⟩

/-- An exit to a tealet that is NEW loses the pending exit, and an exit from
main stops at an assertion. -/
theorem refused_clobbers :
    (∃ s, Run NoPanicCapture (initial (fun _ => 0) {}) s ∧
      (Call.exit 2 null {} 880).Legal s ∧ (Call.exit 2 null {} 880).OnStack s ∧
      Refused s (.exit 2 null {} 880) .inval ∧
      ¬ ∃ s', step s (.call (.exit 2 null {} 880) [] []) =
        .ok (s', .returned (.err .inval) none) ∧ Untouched s s') ∧
    Refused (initial (fun _ => 0) {}) (.exit mainId null {} 880) .inval ∧
    ∃ f, step (initial (fun _ => 0) {}) (.call (.exit mainId null {} 880) [] []) = .error f := by
  refine ⟨?_, .exitMain rfl rfl rfl rfl, .assertion .xferInner, rfl⟩
  obtain ⟨s, hrun, hs⟩ := exists_run_of_trace (P := NoPanicCapture)
    (p := fun s e => e.legal s && e.panicResumes s)
    (fun s e h => by
      obtain ⟨h₁, h₂⟩ := Bool.and_eq_true_iff.mp h
      exact ⟨Event.legal_spec h₁, Event.panicResumes_spec h₂⟩)
    [.call .new [] [], .call (.run 1 7 none null true ⟨1000, 990⟩) [] [],
      .call .new [] [], .call (.exit mainId 5 { defer := true } 900) [] []]
    (s := initial (fun _ => 0) {})
    (fun s => decide (Alive s 2) && decide (880 < runningFar s) &&
      decide (s.statusOf 2 = some .new) &&
      s.gFlags.xfer.defer &&
      endsIn (step s (.call (.exit 2 null {} 880) [] [])) fun p => !p.1.gFlags.xfer.defer)
    (by decide +kernel)
  simp only [Bool.and_eq_true, decide_eq_true_eq] at hs
  obtain ⟨⟨⟨⟨halive, hsp⟩, hst⟩, hd⟩, hs⟩ := hs
  refine ⟨s, hrun, ⟨halive, by decide⟩, hsp, .exit rfl rfl (.inl hst), ?_⟩
  rintro ⟨s', hok, hU⟩
  rw [hok] at hs
  have hno : s'.gFlags.xfer.defer = false := by simpa [endsIn] using hs
  rw [hU.deferred.1, hd] at hno
  cases hno

end Tealet
