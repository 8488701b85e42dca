import Tealet.Survival
import Tealet.Waiting
import Tealet.Granted

/-!
# Start modes

`TEALET_START_SWITCH` enters the child at once; `TEALET_START_DEFAULT`
captures it, and a later `tealet_switch` enters it. For the machine of
coroutines a start is a capture and a transfer (`Ideal.Step.start_of_capture`).
The library saves other parts of other stacks in the two cases, and yet the
states it ends in stand for the same coroutines (`start_modes_agree`).
-/

namespace Tealet

open DList Slice Hoare Simulation

/-! ## The machine -/

namespace Ideal

/-- The coroutine `t` is suspended with the stack `p`. -/
def put (i : Ideal) (t : TealetId) (p : Private) : Ideal :=
  { i with life := Function.update i.life t (some (.suspended p)) }

section Modes

variable {i i₁ i' : Ideal} {act : Act} {acts : List Act} {t : TealetId} {far : Nat}
  {life : TealetId → Option Life} {p : Private}

theorem Step.next_le (h : Step act i i') : i.next ≤ i'.next := by
  cases h <;> first | exact Nat.le_refl _ | exact Nat.le_succ _

/-- Steps that create nothing, and do something else that is no more if it is repeated. -/
theorem Step.once (h : Steps Step i acts i') (hacts : ∀ x ∈ acts, x = .create ∨ x = act)
    (htrans : ∀ {i₁ i₂ i₃}, Step act i₁ i₂ → Step act i₂ i₃ → Step act i₁ i₃)
    (hn : i'.next ≤ i.next) : i' = i ∨ Step act i i' := by
  induction h with
  | nil => exact .inl rfl
  | @snoc ls l i₁ i₂ h hs ih =>
      have hle : i.next ≤ i₁.next :=
        h.invariant (I := fun x => i.next ≤ x.next) (Nat.le_refl _) fun _ _ _ hx hs =>
          Nat.le_trans hx hs.next_le
      have hacts₁ : ∀ x ∈ ls, x = .create ∨ x = act := fun x hx =>
        hacts x (List.mem_append_left _ hx)
      have ih := ih hacts₁ (Nat.le_trans hs.next_le hn)
      rcases hacts l (List.mem_append_right _ List.mem_cons_self) with rfl | rfl
      · cases hs with
        | create => exact absurd (Nat.le_trans hn hle) (Nat.not_succ_le_self _)
      · rcases ih with rfl | h₁
        · exact .inr hs
        · exact .inr (htrans h₁ hs)

theorem Step.start_trans (h : Step (.start t far) i i₁) (h' : Step (.start t far) i₁ i') :
    Step (.start t far) i i' := by
  cases h with
  | start hl =>
      cases h' with
      | start hl' => cases (Function.update_self t _ _).symm.trans hl'

theorem Step.capture_trans (h : Step (.capture t far) i i₁) (h' : Step (.capture t far) i₁ i') :
    Step (.capture t far) i i' := by
  cases h with
  | capture hl =>
      cases h' with
      | capture hl' => cases (Function.update_self t _ _).symm.trans hl'

theorem Step.write_trans (h : Step .write i i₁) (h' : Step .write i₁ i') : Step .write i i' := by
  cases h with
  | write hm =>
      cases h' with
      | write hm' => exact .write fun x hx => (hm' x hx).trans (hm x hx)

/-- Nothing is lost without FORCE. -/
theorem Loses.eq (h : i.Loses {} life) : life = i.life := by
  funext t
  rcases h t with h | ⟨h, -⟩
  · exact h
  · cases h.1

theorem Step.transfer_trans (h : Step (.transfer t {} false) i i₁)
    (h' : Step (.transfer t {} false) i₁ i') : Step (.transfer t {} false) i i' := by
  cases h with
  | fail hl =>
      obtain rfl := Loses.eq hl
      exact h'
  | transfer hl hp ht hleft =>
      cases h' with
      | fail hl' =>
          obtain rfl := Loses.eq hl'
          exact .transfer hl hp ht hleft
      | transfer _ _ ht' => exact absurd rfl ht'

/-- A stack that is what memory is. -/
theorem over_same (near far : Nat) (m : Memory) : Private.over ⟨near, far, m⟩ m = m := by
  funext x
  exact ite_self _

/-- A start is a capture and a transfer to what was captured. The coroutine
that starts the other is left where it makes each of the calls. -/
theorem Step.start_of_capture {iA iB : Ideal} (hrun : i.life i.current = some .running)
    (hA : Step (.start t far) i iA) (h₁ : i₁ = i ∨ Step (.capture t far) i i₁)
    (h₂ : Step (.transfer t {} false) i₁ iB) (ht : iB.current = t) :
    ∃ nA nB, iA.life i.current = some (.suspended ⟨nA, i.far, i.mem⟩) ∧
      iB = iA.put i.current ⟨nB, i.far, i.mem⟩ := by
  cases hA with
  | @start _ _ _ nA hl hnA =>
      have hct : i.current ≠ t := fun h => by
        rw [← h, hrun] at hl
        cases hl
      rcases h₁ with rfl | h₁
      · cases h₂ with
        | fail => exact absurd ht hct
        | transfer hlose hp =>
            obtain rfl := Loses.eq hlose
            cases hl.symm.trans hp
      cases h₁ with
      | capture hl₁ hn₁ =>
          cases h₂ with
          | fail => exact absurd ht hct
          | transfer hlose hp _ hleft =>
              obtain rfl := Loses.eq hlose
              have hp := (Function.update_self t _ _).symm.trans hp
              obtain rfl := Life.suspended.inj (Option.some.inj hp)
              cases hleft with
              | lose hlose => cases hlose.1
              | @suspend nB hnB =>
                  refine ⟨nA, nB, ?_, ?_⟩
                  · exact (Function.update_of_ne hct _ _).trans (Function.update_self ..)
                  · unfold put
                    rw [over_same]
                    simp only [Ideal.mk.injEq, and_true]
                    rw [Function.update_comm hct, Function.update_idem]
                    conv_rhs => rw [Function.update_comm hct.symm, Function.update_idem]
                    exact Function.update_comm hct.symm ..

end Modes

end Ideal

/-! ## The library -/

/-- The call starts the tealet `t` at `sp`, with the boundary `far`, in the call `k`. -/
inductive Call.Starts (s : State) (t : TealetId) (sw : Bool) : Call → Frame → Nat → Nat → Prop where
  | run {fn : RunFn} {parg : Option Ptr} {hint : Nat} {site : Site} :
      Starts s t sw (.run t fn parg hint sw site)
        (.run t s.gCurrent s.gPrevious fn (parg.getD null) sw parg.isSome false)
        (pickInitialFar site.far hint) site.sp
  | fork {parg : Option Ptr} {site : Site} :
      Starts s t sw (.fork t parg sw site) (.fork t s.gCurrent s.gPrevious sw parg.isSome)
        (runningFar s) site.sp

/-- The first call starts `t` at once; the second one captures it in the same
place, for a `tealet_switch` with `arg`. User code sees `o` either way. -/
inductive Modes (t : TealetId) (arg : Ptr) : Outcome → Nat → Call → Call → Prop where
  | run {fn : RunFn} {parg parg' : Option Ptr} {hint : Nat} {site : Site}
      (h : parg.getD null = arg) : Modes t arg (.entered fn t arg) site.sp
        (.run t fn parg hint true site) (.run t fn parg' hint false site)
  | fork {parg : Option Ptr} {site : Site} (h : arg = null) :
      Modes t arg (.returned .ok (parg.map fun _ => null)) site.sp
        (.fork t parg true site) (.fork t parg false site)

/-- Where the saved stack of `t` ends near. -/
def State.nearOf (s : State) (t : TealetId) : Option Nat :=
  (s.saved t).map fun st => st.chunk.stackNear

section Library

variable {leak : StackId → Nat} {s s₁ s' : State} {a a' : Saved} {t u : TealetId} {c r : TealetSub}
  {cl fast slow : Call} {k : Frame} {far sp near : Nat} {sw : Bool} {arg : Ptr} {o : Outcome}
  {i : Ideal} {e : Event} {p : Private} {own : StackId → List ChunkId} {im : Image}
  {x : StackId}

theorem Modes.starts (h : Modes t arg o sp fast slow) (s : State) :
    ∃ kf ks far, fast.Starts s t true kf far sp ∧ slow.Starts s t false ks far sp ∧
      startOutcome t kf = o ∧ ks.delivers t arg false = o := by
  cases h with
  | run h =>
      subst h
      exact ⟨_, _, _, .run, .run, rfl, rfl⟩
  | @fork parg site h =>
      subst h
      refine ⟨_, _, _, .fork, .fork, ?_, ?_⟩
      · cases parg <;> rfl
      · cases parg <;> rfl

theorem Call.Starts.withChoices (h : cl.Starts s t sw k far sp) (allocs : List Bool)
    (mprotects : List (Option (Nat → Bool))) :
    cl.Starts (s.withChoices allocs mprotects) t sw k far sp := by
  cases h with
  | run => exact .run
  | fork => exact .fork

theorem Call.Starts.label (h : cl.Starts s t sw k far sp) {l : Label} (ha : Attempts s cl s₁ l) :
    l.act = if sw then .start t far else .capture t far := by
  cases h with
  | run =>
      cases ha with
      | xfer hq => cases hq
      | _ => rfl
  | fork =>
      cases ha with
      | xfer hq => cases hq
      | _ => rfl

theorem nearOf_view (H : HeapRep s.heap a own) (hk : (s.view a).stackOf t = some x)
    (him : a.img x = some im) : s.nearOf t = some im.near := by
  obtain ⟨st, hst, -, hrep⟩ := saved_eq H hk him
  rw [State.nearOf, hst, Option.map_some, hrep.near]

theorem Shows.nearOf (h : Shows s t (some (.suspended p))) : s.nearOf t = some p.near := by
  cases h with
  | suspended ht hs hr hk hst hb hn =>
      simp only [State.nearOf, State.saved, hr, hk, hst, Option.bind_some, Option.map_some, hn]

/-- The tealet that starts another one is saved from where it does so. -/
theorem StartEnd.nearOf {prev : Option TealetId} {q : State × Outcome} (ht : t ≠ s.gCurrent)
    (h : StartEnd s a t c r true false prev k sp q) (hcur : q.1.gCurrent = t) :
    q.1.nearOf s.gCurrent = some sp := by
  cases h with
  | refused he hprev hflags ha h =>
      exact absurd ((congrArg View.current h.view).symm.trans hcur) ht.symm
  | nomem hg hfate hprev hflags ha h =>
      exact absurd ((congrArg View.current h.view).symm.trans hcur) ht.symm
  | started hsp hg hok hrep hT ha hprev hflags hout hview =>
      rw [if_pos rfl] at hview
      refine nearOf_view hrep ?_
        ((congrFun (congrArg View.img hview) _).trans (Function.update_self ..))
      rw [hview]
      exact stackOf_eq (r := { c with stack := some (s.view a).nextStack })
        ((Function.update_of_ne ht.symm _ _).trans (Function.update_self ..))

theorem Inv.starts (I : Inv leak s a) (hL : cl.Legal s) (h : cl.Starts s t sw k far sp) :
    Returns (fun p => (p.1 = s ∧ ∃ e, p.2 = .returned (.err e) none) ∨
        s.tealets t = some {} ∧ ∃ c r, s.tealets s.gCurrent = some c ∧ Child r ∧
          StartEnd s.lockAuto a t c r sw false s.gPrevious k sp p)
      (callStep s cl) := by
  cases h with
  | run =>
      refine (I.run_start false hL.1 hL.2.1 hL.2.2).imp ?_
      rintro _ (⟨-, rfl⟩ | ⟨hnew, c, r, hc, hr, -, h⟩)
      · exact .inl ⟨rfl, _, rfl⟩
      · exact .inr ⟨hnew, c, r, hc, hr, h⟩
  | fork =>
      refine (I.fork_start hL.1 hL.2).imp ?_
      rintro _ (⟨e, -, rfl⟩ | h)
      · exact .inl ⟨rfl, e, rfl⟩
      · exact .inr h

/-- A start that enters the child. -/
theorem Inv.started (I : Inv leak s a) (hL : cl.Legal s) (h : cl.Starts s t true k far sp)
    (ht : t ≠ s.gCurrent) (hs : callStep s cl = .ok (s', o)) (hcur : s'.gCurrent = t) :
    o = startOutcome t k ∧ s'.gPrevious = some s.gCurrent ∧ s'.nextTealet = s.nextTealet ∧
      s'.nearOf s.gCurrent = some sp := by
  rcases (I.starts hL h).result hs with ⟨h, -⟩ | ⟨hnew, c, r, hc, -, h⟩
  · exact absurd ((congrArg State.gCurrent h).symm.trans hcur) ht.symm
  · obtain ⟨hl, -⟩ := h.launched I.lockAuto hc hnew
    cases hl with
    | failed ho he hcur' => exact absurd (hcur'.symm.trans hcur) ht.symm
    | started ho hcur' hprev hlive hn => exact ⟨ho, hprev, hn, h.nearOf (s := s.lockAuto) ht hcur⟩

/-- A start that captures the child. -/
theorem Inv.captured (I : Inv leak s a) (hL : cl.Legal s) (h : cl.Starts s t false k far sp)
    (hnew : s.tealets t = some {}) (hs : callStep s cl = .ok (s', o)) :
    s'.gCurrent = s.gCurrent ∧ s'.nextTealet = s.nextTealet ∧
      ∀ fr, s'.frameOf t = some fr → fr = k := by
  have hnone : s.frameOf t = none := by simp [State.frameOf, hnew]
  rcases (I.starts hL h).result hs with ⟨h, -⟩ | ⟨-, c, r, hc, hr, h⟩
  · obtain rfl : s' = s := h
    exact ⟨rfl, rfl, fun fr hfr => by rw [hnone] at hfr; cases hfr⟩
  · have hlaunched : s'.gCurrent = s.gCurrent ∧ s'.nextTealet = s.nextTealet := by
      cases (h.launched I.lockAuto hc hnew).1 with
      | failed ho he hcur hprev hlive hn => exact ⟨hcur, hn⟩
      | started ho hcur hprev hlive hn => exact ⟨hcur, hn⟩
    refine ⟨hlaunched.1, hlaunched.2, fun fr hfr => ?_⟩
    cases h.captures I hnew hr with
    | failed ho hw =>
        obtain ⟨x, hw'⟩ := waits_of_frameOf hfr
        exact absurd hw' (hw x fr)
    | captured ho hw => exact Option.some.inj (hfr.symm.trans hw.frameOf)

/-- The tealet that makes a transfer is saved from where it does so. -/
theorem Attempted.nearOf {q : State × Back} (I : Inv leak s a)
    (h : Attempted s a t arg {} false k sp c r q) (hcur : q.1.gCurrent ≠ s.gCurrent) :
    q.1.nearOf s.gCurrent = some sp := by
  cases h with
  | unbound hb hp => exact absurd (congrArg (State.gCurrent ∘ Prod.fst) hp) hcur
  | toSelf ht hp => exact absurd (congrArg (State.gCurrent ∘ Prod.fst) hp) hcur
  | exited hx hp => exact absurd (congrArg (State.gCurrent ∘ Prod.fst) hp) hcur
  | defunct hx hd hp => exact absurd (congrArg (State.gCurrent ∘ Prod.fst) hp) hcur
  | spoiled hx hd hk him hdim hp => exact absurd (congrArg (State.gCurrent ∘ Prod.fst) hp) hcur
  | rejected hu hrej hp => exact absurd (congrArg (State.gCurrent ∘ Prod.fst) hp) hcur
  | tampered hu hg hs he hp => exact absurd (congrArg (State.gCurrent ∘ Prod.fst) hp) hcur
  | nomem ht hu hg hfate hrep hal hb hT ha hprev hflags he harm hview =>
      exact absurd (congrArg View.current hview) hcur
  | @moved kt im im' a' own' g fate ht hexit hu hv hg hfate him' hrep hal hb hT ha hprev hflags he
      hview =>
      have hkt : (s.view a).nextStack ≠ kt := (Nat.ne_of_lt (I.core.lt_nextStack hu.img)).symm
      obtain ⟨-, hch⟩ := chosen_of_chooseFate hfate
      cases hch with
      | lose _ hf => cases hf
      | exit hx => cases hx
      | exitDelete hx => cases hx
      | suspend =>
          have hstack : (q.1.view a').stackOf s.gCurrent = some (s.view a).nextStack := by
            rw [hview]
            refine stackOf_eq (r := { c with stack := some (s.view a).nextStack }) ?_
            rw [restore_tealets_of_ne ht.symm]
            exact Function.update_self ..
          have himg : a'.img (s.view a).nextStack =
              some (Image.capture s.mem sp c.stackFar r.stackFar k) := by
            refine (congrFun (congrArg View.img hview) _).trans ?_
            show (View.release _ kt im').img _ = _
            rw [release_img, Function.update_of_ne hkt]
            exact Function.update_self ..
          exact nearOf_view hrep hstack himg

/-- A switch that arrives. -/
theorem Inv.switch_arrives {parg : Option Ptr} (I : Inv leak s a)
    (hL : Call.Legal s (.switch t parg {} sp)) (ht : t ≠ s.gCurrent)
    (hs : callStep s (.switch t parg {} sp) = .ok (s', o)) (hcur : s'.gCurrent = t) :
    s'.gPrevious = some s.gCurrent ∧ s'.nextTealet = s.nextTealet ∧
      s'.nearOf s.gCurrent = some sp ∧
      ∃ fr, s.frameOf t = some fr ∧ o = fr.delivers t (parg.getD null) false := by
  obtain ⟨c, hc, -⟩ := I.sched.running
  have hc : s.tealets s.gCurrent = some c := hc
  obtain ⟨halive, hsp⟩ := hL
  obtain ⟨r, hr⟩ := Option.isSome_iff_exists.mp halive
  have hk : OwnFrame s.lockAuto false (.switch s.gCurrent parg.isSome) := ⟨_, rfl⟩
  obtain ⟨f, cond, inst, -, -, heq⟩ := callStep_request (c := .switch t parg {} sp) (s := s) rfl
  rw [heq] at hs
  obtain ⟨-, -, hs⟩ := bind_ok hs
  obtain ⟨-, -, hs⟩ := bind_ok hs
  obtain ⟨⟨s₁, b⟩, hx, hs⟩ := bind_ok hs
  have hatt : Attempted s.lockAuto a t (parg.getD null) {} false _ sp c r (s₁, b) :=
    (I.lockAuto.xferInner_returns hc hr hsp hk).result hx
  have hfin : finish s₁ b = .ok (s', o) := hs
  cases hatt.ended I.lockAuto hc hr with
  | failed hfr hb he hlike =>
      have hp := (finish_failed hb (hfr.imp_right fun h => .inl ⟨_, _, h⟩)).result hfin
      obtain ⟨rfl, -⟩ := Prod.mk.inj hp
      exact absurd (hlike.current.symm.trans hcur) ht.symm
  | toSelf hself => exact absurd hself ht
  | @moved fr _ hfr hres hb hcur₁ hprev hlive hn =>
      subst hb
      have hdel : Returns (fun p => p = (s₁.unlockAuto, fr.delivers t (parg.getD null) false))
          (finish s₁ ⟨fr, if false then .err .panic else .ok, some (parg.getD null)⟩) :=
        finish_resumed hres (fun h => absurd h Bool.false_ne_true) hcur₁
      obtain ⟨rfl, rfl⟩ := Prod.mk.inj (hdel.result hfin)
      exact ⟨hprev, hn, hatt.nearOf I.lockAuto (hcur₁ ▸ ht), fr, hfr, rfl⟩

/-- A step that attempts one thing is one step of the machine, or none. -/
theorem State.Kept.forward (K : s.Kept) (hi : Agrees s i) (he : Conserving s e)
    (hs : step s e = .ok (s', o)) (hn : s'.nextTealet = s.nextTealet) {act : Act}
    (hatt : ∀ s₁ l, e.Attempts s s₁ l → l.act = act) (htrans : ∀ {i₁ i₂ i₃},
      Ideal.Step act i₁ i₂ → Ideal.Step act i₂ i₃ → Ideal.Step act i₁ i₃) :
    ∃ i', Agrees s' i' ∧ (i' = i ∨ Ideal.Step act i i') := by
  obtain ⟨a, I, Is⟩ := K
  obtain ⟨acts, i', hacts, hsteps, -, -, -, hi'⟩ :=
    library_forward e s s' i ⟨a, I, Is, hi⟩ ⟨he, o, hs⟩
  have hle : i'.next ≤ i.next := by rw [hi'.next, hi.next, hn]
  refine ⟨i', hi', Ideal.Step.once hsteps (fun x hx => (hacts x hx).imp_right ?_) htrans hle⟩
  rintro ⟨s₁, l, ha, rfl⟩
  exact hatt s₁ l ha

/-- What user code writes. -/
theorem State.Kept.writes (K : s.Kept) (hi : Agrees s i) {m : Memory}
    (hm : ∀ x, runningFar s ≤ x → m x = s.mem x) :
    Agrees { s with mem := m } { i with mem := m } := by
  obtain ⟨i', hi', h⟩ : ∃ i', Agrees { s with mem := m } i' ∧ (i' = i ∨ Ideal.Step .write i i') :=
    K.forward hi (.write hm) rfl rfl (fun s₁ l ha => by rw [ha.2]; rfl) Ideal.Step.write_trans
  have hmem : i'.mem = m := hi'.mem
  have heq : i' = { i with mem := m } := by
    rcases h with rfl | h
    · rw [← hmem]
    · cases h with
      | write => rw [← hmem]
  rw [← heq]
  exact hi'

theorem Run.agrees {mem : Memory} {env : Env} (h : Run Conserving (initial mem env) s) :
    ∃ i, Agrees s i := by
  obtain ⟨es, hes⟩ := h.steps
  obtain ⟨acts, i, -, -, -, -, -, hi⟩ := library_forward.run hes
    ⟨_, inv_initial mem env, isolated_initial mem env, agrees_initial mem env⟩
  exact ⟨i, hi⟩

/-- The coroutine that runs. -/
theorem State.Kept.runs (K : s.Kept) (hi : Agrees s i) : i.life i.current = some .running := by
  obtain ⟨a, I, Is⟩ := K
  rw [hi.current]
  exact (((shows_iff I Is).mp (hi.life _)).running_iff I.sched).mpr rfl

end Library

/-- `TEALET_START_SWITCH` is `TEALET_START_DEFAULT` and a `tealet_switch`.
User code sees the same, the same tealet runs after the same one, and the
states stand for the same coroutines, but for where the creator's stack
ends; and so they do whatever the child writes to its stack. -/
theorem start_modes_agree {mem : Memory} {env : Env} {s sA s₁ sB : State} {oA o₁ oB o : Outcome}
    {t : TealetId} {arg : Ptr} {sp near : Nat} {fast slow : Call} {al al₁ al₂ : List Bool}
    {mp mp₁ mp₂ : List (Option (Nat → Bool))} (hrun : Run Conserving (initial mem env) s)
    (hmodes : Modes t arg o sp fast slow) (hnew : s.statusOf t = some .new)
    (heA : Conserving s (.call fast al mp)) (hsA : step s (.call fast al mp) = .ok (sA, oA))
    (hA : sA.gCurrent = t) (he₁ : Conserving s (.call slow al₁ mp₁))
    (hs₁ : step s (.call slow al₁ mp₁) = .ok (s₁, o₁))
    (he₂ : Conserving s₁ (.call (.switch t (some arg) {} near) al₂ mp₂))
    (hs₂ : step s₁ (.call (.switch t (some arg) {} near) al₂ mp₂) = .ok (sB, oB))
    (hB : sB.gCurrent = t) :
    (oA = o ∧ oB = o) ∧ (sA.gPrevious = some s.gCurrent ∧ sB.gPrevious = some s.gCurrent) ∧
      (sA.mem = s.mem ∧ sB.mem = s.mem) ∧
      ∃ i : Ideal, i.life s.gCurrent = some (.suspended ⟨sp, runningFar s, s.mem⟩) ∧
        ∀ m, (∀ x, runningFar sA ≤ x → m x = s.mem x) →
          Agrees { sA with mem := m } { i with mem := m } ∧
          Agrees { sB with mem := m }
            (Ideal.put { i with mem := m } s.gCurrent ⟨near, runningFar s, s.mem⟩) := by
  have K := kept_run hrun
  have K₁ := K.next he₁ hs₁
  have KA := K.next heA hsA
  have KB := K₁.next he₂ hs₂
  obtain ⟨i, hi⟩ := hrun.agrees
  obtain ⟨kf, ks, far, hfast, hslow, rfl, hos⟩ := hmodes.starts s
  have hrunning := K.runs hi
  obtain ⟨a, I, -⟩ := id K
  obtain ⟨a₁, I₁, -⟩ := id K₁
  have ht : t ≠ s.gCurrent := by
    rintro rfl
    cases I.running_active.symm.trans hnew
  obtain ⟨hoA, hprevA, hnA, hnearA⟩ := (I.withChoices al mp).started (Legal.withChoices heA.legal)
    (hfast.withChoices al mp) ht hsA hA
  obtain ⟨hcur₁, hn₁, hframe⟩ := (I.withChoices al₁ mp₁).captured (Legal.withChoices he₁.legal)
    (hslow.withChoices al₁ mp₁) (I.record_new hnew) hs₁
  have hcur₁ : s₁.gCurrent = s.gCurrent := hcur₁
  have ht₁ : t ≠ s₁.gCurrent := hcur₁ ▸ ht
  obtain ⟨hprevB, hnB, hnearB, fr, hfr, hoB⟩ := (I₁.withChoices al₂ mp₂).switch_arrives
    (Legal.withChoices he₂.legal) ht₁ hs₂ hB
  obtain rfl := hframe fr hfr
  -- the three steps are steps of the machine
  obtain ⟨iA, hiA, hA'⟩ := K.forward hi heA hsA hnA
    (fun _ l ha => (hfast.withChoices al mp).label ha) Ideal.Step.start_trans
  obtain ⟨i₁, hi₁, h₁'⟩ := K.forward hi he₁ hs₁ hn₁
    (fun _ l ha => (hslow.withChoices al₁ mp₁).label ha) Ideal.Step.capture_trans
  obtain ⟨iB, hiB, hB'⟩ : ∃ iB, Agrees sB iB ∧
      (iB = i₁ ∨ Ideal.Step (.transfer t {} false) i₁ iB) := by
    refine K₁.forward hi₁ he₂ hs₂ hnB (fun s₂ l ha => ?_) Ideal.Step.transfer_trans
    cases ha with
    | xfer hq ha =>
        cases hq
        cases ha with
        | first => rfl
        | fallback hn => cases hn
  have hA' : Ideal.Step (.start t far) i iA := by
    refine hA'.resolve_left ?_
    rintro rfl
    exact ht (hA.symm.trans (hiA.current.symm.trans hi.current))
  have hB' : Ideal.Step (.transfer t {} false) i₁ iB := by
    refine hB'.resolve_left ?_
    rintro rfl
    exact ht₁ (hB.symm.trans (hiB.current.symm.trans hi₁.current))
  obtain ⟨nA, nB, hcreator, rfl⟩ := Ideal.Step.start_of_capture hrunning hA' h₁' hB'
    (hiB.current.trans hB)
  rw [hi.current] at hcreator hiB
  -- the calls say where the stack of the creator ends
  have hlifeA := hiA.life s.gCurrent
  rw [hcreator] at hlifeA
  have hlifeB := hiB.life s.gCurrent
  rw [show (iA.put s.gCurrent _).life s.gCurrent = _ from Function.update_self ..] at hlifeB
  obtain rfl : sp = nA := Option.some.inj (hnearA.symm.trans hlifeA.nearOf)
  obtain rfl : near = nB := Option.some.inj ((hcur₁ ▸ hnearB).symm.trans hlifeB.nearOf)
  have hmemA : iA.mem = s.mem := by
    cases hA' with
    | start => exact hi.mem
  rw [hi.far, hi.mem] at hcreator hiB
  have hmA : sA.mem = s.mem := hiA.mem.symm.trans hmemA
  have hmB : sB.mem = s.mem := hiB.mem.symm.trans hmemA
  refine ⟨⟨hoA, hoB.trans hos⟩, ⟨hprevA, hprevB.trans (congrArg some hcur₁)⟩, ⟨hmA, hmB⟩, iA,
    hcreator, fun m hm => ?_⟩
  have hfar : runningFar sB = runningFar sA := hiB.far.symm.trans hiA.far
  refine ⟨KA.writes hiA fun x hx => ?_, KB.writes hiB fun x hx => ?_⟩
  · rw [hmA]
    exact hm x hx
  · rw [hmB]
    exact hm x (hfar ▸ hx)

/-- A tealet that main started forks itself, in each mode. -/
theorem start_modes_agree_fork : ∃ s sA s₁ sB oA o₁ oB,
    Run Conserving (initial (fun _ => 0) {}) s ∧
    step s (.call (.fork 2 (some 5) true ⟨1000, 980⟩) [] []) = .ok (sA, oA) ∧
    step s (.call (.fork 2 (some 5) false ⟨1000, 980⟩) [] []) = .ok (s₁, o₁) ∧
    step s₁ (.call (.switch 2 (some null) {} 970) [] []) = .ok (sB, oB) ∧
    (oA = .returned .ok (some null) ∧ oB = .returned .ok (some null)) ∧
    ∃ i : Ideal, i.life 1 = some (.suspended ⟨980, 1000, s.mem⟩) ∧
      ∀ m, (∀ x, 1000 ≤ x → m x = s.mem x) → Agrees { sA with mem := m } { i with mem := m } ∧
        Agrees { sB with mem := m } (Ideal.put { i with mem := m } 1 ⟨970, 1000, s.mem⟩) := by
  obtain ⟨s, hrun, hq⟩ := exists_run_of_trace (p := Event.conserving)
    (fun _ _ => Event.conserving_spec)
    [.call .new [] [], .call .new [] [], .call (.run 1 7 none null true ⟨1000, 990⟩) [] []]
    (s := initial (fun _ => 0) {})
    (fun s => decide (s.gCurrent = 1 ∧ runningFar s = 1000 ∧ s.statusOf 2 = some .new) &&
      Event.conserving s (.call (.fork 2 (some 5) true ⟨1000, 980⟩) [] []) &&
      Event.conserving s (.call (.fork 2 (some 5) false ⟨1000, 980⟩) [] []) &&
      endsIn (step s (.call (.fork 2 (some 5) true ⟨1000, 980⟩) [] []))
        (fun p => decide (p.1.gCurrent = 2 ∧ runningFar p.1 = 1000)) &&
      endsIn (step s (.call (.fork 2 (some 5) false ⟨1000, 980⟩) [] [])) fun p =>
        Event.conserving p.1 (.call (.switch 2 (some null) {} 970) [] []) &&
        endsIn (step p.1 (.call (.switch 2 (some null) {} 970) [] [])) fun p' =>
          decide (p'.1.gCurrent = 2)) (by decide +kernel)
  simp only [Bool.and_eq_true] at hq
  obtain ⟨⟨⟨⟨hq, heA⟩, he₁⟩, hstepA⟩, hstep₁⟩ := hq
  obtain ⟨hcur, hfar, hnew⟩ := of_decide_eq_true hq
  obtain ⟨⟨sA, oA⟩, hsA, hqA⟩ := endsIn_spec hstepA
  obtain ⟨hA, hfarA⟩ := of_decide_eq_true hqA
  obtain ⟨⟨s₁, o₁⟩, hs₁, hq₁⟩ := endsIn_spec hstep₁
  obtain ⟨he₂, hstepB⟩ := Bool.and_eq_true_iff.mp hq₁
  obtain ⟨⟨sB, oB⟩, hsB, hB⟩ := endsIn_spec hstepB
  have hmodes : Modes 2 null (.returned .ok ((some 5).map fun _ => null)) (Site.sp ⟨1000, 980⟩)
      (.fork 2 (some 5) true ⟨1000, 980⟩) (.fork 2 (some 5) false ⟨1000, 980⟩) := .fork rfl
  obtain ⟨ho, -, -, i, hi, hagree⟩ := start_modes_agree hrun hmodes hnew
    (Event.conserving_spec heA) hsA hA (Event.conserving_spec he₁) hs₁ (Event.conserving_spec he₂)
    hsB (of_decide_eq_true hB)
  rw [hcur, hfar] at hi hagree
  rw [show runningFar sA = 1000 from hfarA] at hagree
  exact ⟨s, sA, s₁, sB, oA, o₁, oB, hrun, hsA, hs₁, hsB, ho, i, hi, hagree⟩

end Tealet
