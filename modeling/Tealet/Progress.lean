import Tealet.NoFail
import Tealet.Beyond

/-!
# Every call comes back

No call of a careful caller ends in an `assert`, an `abort` or a freed
block: user code gets control again. `Steady` is what a state needs for a
transfer by the running tealet to be attempted. A first attempt that fails
leaves it steady for the one to main; whatever tealet is resumed stands
below its boundary and can be watched; the call it was suspended in
returns. Only the return of a run function must not fail, as there is
nobody to return to.
-/

namespace Tealet

open DList Slice Hoare Relation

/-- The running tealet, with the record `c`, may ask for a transfer at `sp`,
and every tealet that has begun may be resumed. -/
structure Steady (leak : StackId → Nat) (s : State) (a : Saved) (c : TealetSub) (sp : Nat) :
    Prop where
  inv : Inv leak s a
  standing : (s.view a).Standing
  ready : s.env.Ready
  fits : ∀ t r, s.tealets t = some r → r.flags.bound = true → s.env.Fits r.stackFar
  watched : s.Watched
  record : s.tealets s.gCurrent = some c
  near : sp < c.stackFar

section Watch

variable {leak : StackId → Nat} {s s' : State} {a a' : Saved} {t : TealetId} {c c' r : TealetSub}
  {sp spT : Nat}

/-- The check of the watch passes. -/
theorem State.Watched.intact (h : s.Watched) (hc : s.tealets s.gCurrent = some c)
    (hpos : 0 < c.stackFar) : ∃ e₁ e₂, guardUnprotectCurrent s.env = .ok e₁ ∧
      snapshotVerifyCurrent e₁ s.mem = .ok (e₂, none) := by
  by_cases h0 : s.env.data.guardBytes = 0
  · obtain ⟨e₂, he₂⟩ := snapshotVerifyCurrent_agrees h.agrees
    exact ⟨s.env, e₂, if_pos h0, he₂⟩
  · have hbase : c.stackFar ≤ s.env.data.guardBase :=
      (h.own c hc).beyond _ (.inr ⟨Nat.le_refl _, Nat.lt_add_of_pos_right (Nat.pos_of_ne_zero h0)⟩)
    have hne : s.env.data.guardBase ≠ 0 := Nat.ne_of_gt (Nat.lt_of_lt_of_le hpos hbase)
    have hdata := mprotect_data s.env s.env.data.guardBase s.env.data.guardBytes false
    obtain ⟨e₂, he₂⟩ := snapshotVerifyCurrent_agrees (m := s.mem) (e :=
      { (s.env.mprotect s.env.data.guardBase s.env.data.guardBytes false).1 with
        data := { (s.env.mprotect s.env.data.guardBase s.env.data.guardBytes false).1.data with
          guardBytes := 0 } }) (by
        simp only [hdata]
        exact h.agrees)
    refine ⟨_, e₂, ?_, he₂⟩
    rw [guardUnprotectCurrent, if_neg h0, require_of hne, ok_bind]
    rfl

/-- The checks around a transfer between two tealets that stand below their
boundaries. -/
theorem external_of_intact {e : Env} {m : Memory} (hr : e.Ready)
    (hi : ∃ e₁ e₂, guardUnprotectCurrent e = .ok e₁ ∧ snapshotVerifyCurrent e₁ m = .ok (e₂, none))
    (hcx : c.flags.exited = false) (hc : sp < c.stackFar) (hcf : e.Fits c.stackFar)
    (hrx : r.flags.exited = false) (hrs : spT < r.stackFar) (hrf : e.Fits r.stackFar) :
    External (fun _ => False) e m c r sp spT := by
  have hok : ∀ {α : Type} {x : Res α} {y : α}, x = .ok y →
      Sat (fun _ => False) (fun _ => True) x := by
    rintro α x y rfl
    exact True.intro
  obtain ⟨e₁, e₂, h₁, h₂⟩ := hi
  refine ⟨hok (verifyRecord_ok hcx hc), ?_, fun e' m' he => ?_, fun e' m' he => ?_⟩
  · rw [h₁]
    exact hok h₂
  · obtain ⟨e'', h⟩ := armEnv_ready (m := m') hcx hc (hr.congr he) (hcf.congr he)
    exact hok h
  · obtain ⟨e'', h⟩ := armEnv_ready (m := m') hrx hrs (hr.congr he) (hrf.congr he)
    exact hok h

namespace Steady

theorem intact (P : Steady leak s a c sp) : ∃ e₁ e₂, guardUnprotectCurrent s.env = .ok e₁ ∧
    snapshotVerifyCurrent e₁ s.mem = .ok (e₂, none) :=
  P.watched.intact P.record (Nat.lt_of_le_of_lt (Nat.zero_le sp) P.near)

theorem sp_lt (P : Steady leak s a c sp) : sp < spFurthest :=
  Nat.lt_of_lt_of_le P.near (P.inv.core.record _ c P.record).far_le

/-- Where a suspended tealet is resumed lies below its boundary. -/
theorem resume_lt (P : Steady leak s a c sp) (hr : s.tealets t = some r) (ht : t ≠ s.gCurrent)
    (hb : r.flags.bound = true) (hx : r.flags.exited = false) (hu : Usable a r) (k : Frame)
    (failOk : Bool) (allocs : List Bool) :
    (((s.view a).growth r.stack r.stackFar failOk allocs).resume r k sp).2 < r.stackFar := by
  cases hk : r.stack with
  | none => exact absurd hk (P.inv.sched.suspended t r hr ht ⟨hb, hx, hu.1⟩)
  | some kt =>
      obtain ⟨im, him, -⟩ := P.inv.core.owned t r kt hr hk
      obtain ⟨im', him', hkept⟩ :=
        View.growth_kept (v := s.view a) him (some kt) r.stackFar failOk allocs
      have hres : ((s.view a).growth (some kt) r.stackFar failOk allocs).resume r k sp =
          (im'.frame, im'.near) := by
        simp only [Growth.resume, hk, Option.bind_some]
        rw [show ((s.view a).growth (some kt) r.stackFar failOk allocs).img kt = some im' from him']
      rw [hres]
      show im'.near < r.stackFar
      rw [hkept.near]
      exact (P.standing t r kt im hr hk him).below

/-- A state with the same boundaries is as steady. -/
theorem congr (P : Steady leak s a c sp) (I : Inv leak s' a') (hstand : (s'.view a').Standing)
    (he : s.env.SameConfig s'.env) (hw : s'.Watched) (hc : s'.tealets s'.gCurrent = some c')
    (hfar : c'.stackFar = c.stackFar)
    (hrec : ∀ t r', s'.tealets t = some r' → r'.flags.bound = true →
      ∃ r, s.tealets t = some r ∧ r.flags.bound = true ∧ r'.stackFar = r.stackFar) :
    Steady leak s' a' c' sp := by
  refine ⟨I, hstand, P.ready.congr he, fun t r' hr' hb' => ?_, hw, hc, by rw [hfar]; exact P.near⟩
  obtain ⟨r, hr, hb, heq⟩ := hrec t r' hr' hb'
  rw [heq]
  exact (P.fits t r hr hb).congr he

end Steady

end Watch

/-! ## Attempts -/

section Attempts

variable {leak : StackId → Nat} {s s₀ s₁ : State} {a : Saved} {t : TealetId} {c r : TealetSub}
  {flags f : XFlags} {isExit : Bool} {sp : Nat} {k : Frame} {arg : Ptr} {p : State × Back}
  {q : Request}

/-- An attempt returns. -/
theorem Steady.attempt (P : Steady leak s a c sp) (arg : Ptr) (hr : s.tealets t = some r)
    (hk : OwnFrame s isExit k) (hmain : isExit = true → s.gCurrent ≠ mainId)
    (hpan : t ≠ s.gCurrent → PanicSafe s a r flags isExit fun _ => False) :
    ∃ p, xferInner s t arg flags isExit k sp = .ok p := by
  by_cases hb : r.flags.bound = false
  · unfold xferInner
    simp only [tealet_of hr, tealet_of P.record, ok_bind, if_pos hb]
    exact ⟨_, rfl⟩
  by_cases ht : t = s.gCurrent
  · unfold xferInner
    simp only [tealet_of hr, tealet_of P.record, ok_bind, if_neg hb, if_pos ht]
    cases isExit with
    | false => exact ⟨_, rfl⟩
    | true =>
        rw [if_pos rfl, require_of (hmain rfl), ok_bind]
        exact ⟨_, rfl⟩
  have hb : r.flags.bound = true := by simpa using hb
  have hspec := P.inv.xferInner_spec (E := fun _ => False) arg P.record hr P.sp_lt hk
    (fun hx hm => hmain hx hm) (fun hx hu => external_of_intact P.ready P.intact
      (P.inv.running P.record).1.exited P.near
        (P.fits _ c P.record (P.inv.running P.record).1.bound)
      hx (P.resume_lt hr ht hb hx hu k _ _) (P.fits t r hr hb)) (hpan ht)
  cases hres : xferInner s t arg flags isExit k sp with
  | ok p => exact ⟨p, rfl⟩
  | error f => exact (hspec.fault hres).elim

/-- After an attempt that allows the one to main the state is steady again. -/
theorem Steady.fallen (P : Steady leak s a c sp) (hr : s.tealets t = some r)
    (hk : OwnFrame s isExit k) (hx : xferInner s t arg flags isExit k sp = .ok p)
    (hrc : p.2.rc = .err .mem ∨ p.2.rc = .err .defunct) :
    (∃ a', Steady leak p.1 a' c sp) ∧ p.1.gCurrent = s.gCurrent := by
  have hw : p.1.Watched := ((xferInner_watched P.watched).result hx).1
  -- the labels of a transfer move no boundary
  have hfar : FarFits fun _ l => ∃ t f e al, l = .xfer t f e al := by
    rintro v far ⟨_, _, _, _, h⟩
    cases h
  cases (P.inv.xferInner_spec (E := fun _ => True) arg P.record hr P.sp_lt hk
    (fun _ _ => True.intro)
    (fun _ _ => External.mono fun _ _ => True.intro) fun _ => .inl True.intro).result hx with
  | unbound hb hp => subst hp; simp at hrc
  | toSelf ht hp =>
      subst hp
      cases isExit
      · cases hf : flags.panic <;> simp [hf] at hrc
      · simp at hrc
  | exited hx hp => subst hp; simp at hrc
  | rejected hu hrej hp => subst hp; simp at hrc
  | tampered hu hg hs he hp => subst hp; simp at hrc
  | moved ht hexit hu hv hg hfate him' hrep hal hb =>
      rw [hb] at hrc
      cases hp : flags.panic <;> simp [hp] at hrc
  | defunct hx hd hp =>
      subst hp
      exact ⟨⟨a, P⟩, rfl⟩
  | @spoiled kt im hx hd hkt him hdim hp =>
      subst hp
      have ht : t ≠ s.gCurrent := by
        rintro rfl
        rw [(P.inv.running hr).2.1] at hkt
        cases hkt
      have hsmall : Small (fun _ l => ∃ t f e al, l = .xfer t f e al) (s.view a) ((s.setTealet t
          { r with flags := { r.flags with defunct := true } }).view a) := .cache hr hkt him hdim
      obtain ⟨H, S⟩ := hsmall.good P.inv.core P.inv.sched
      refine ⟨⟨a, P.congr ⟨P.inv.rep, H, S, P.inv.gTarget, P.inv.panic⟩
        (hsmall.standing hfar P.inv.core P.standing) (.refl _) hw
        ((Function.update_of_ne ht.symm _ _).trans P.record) rfl fun u r' hr' hb' => ?_⟩, rfl⟩
      by_cases hu : u = t
      · subst hu
        have hr' : Function.update s.tealets u _ u = some r' := hr'
        rw [Function.update_self] at hr'
        cases hr'
        exact ⟨r, hr, hb', rfl⟩
      · exact ⟨r', (Function.update_of_ne hu _ _).symm.trans hr', hb', rfl⟩
  | @nomem kt im a' own' g ht hu hg hfate hrep hal hb hT ha hprev hfl he harm hview =>
      have hsmall := grow_label (C := fun _ l => ∃ t f e al, l = .xfer t f e al) P.record hr ht
        ⟨_, _, _, _, rfl⟩ hg hfate
      obtain ⟨H, S⟩ := hsmall.good P.inv.core P.inv.sched
      have hstand := hsmall.standing hfar P.inv.core P.standing
      rw [← hview] at H S hstand
      have hcur : p.1.gCurrent = s.gCurrent := congrArg View.current hview
      have htl : p.1.tealets = s.tealets := congrArg View.tealets hview
      refine ⟨⟨a', P.congr ⟨⟨own', hrep⟩, H, S, hT, hfl ▸ P.inv.panic⟩ hstand he hw ?_ rfl
        fun u r' hr' hb' => ⟨r', htl ▸ hr', hb', rfl⟩⟩, hcur⟩
      rw [hcur, htl]
      exact P.record

/-- The state of an attempt is steady. -/
theorem Attempt.steady (P : Steady leak s a c q.sp) (hk : OwnFrame s q.isExit q.frame)
    (halive : Alive s q.target) (h : Attempt s q s₁ t f) :
    (∃ a₁, Steady leak s₁ a₁ c q.sp) ∧ s₁.gCurrent = s.gCurrent ∧ Alive s₁ t := by
  cases h with
  | first => exact ⟨⟨a, P⟩, rfl, halive⟩
  | @fallback s' b hn hx hrc =>
      obtain ⟨r, hr⟩ := Option.isSome_iff_exists.mp halive
      obtain ⟨⟨a₁, P₁⟩, hcur⟩ := P.fallen hr hk hx hrc
      obtain ⟨rm, hrm, -⟩ := P₁.inv.sched.main
      exact ⟨⟨a₁, P₁⟩, hcur, Option.isSome_iff_exists.mpr ⟨rm, hrm⟩⟩

theorem OwnFrame.congr (hk : OwnFrame s isExit k) (hcur : s₁.gCurrent = s.gCurrent) :
    OwnFrame s₁ isExit k := by
  unfold OwnFrame at hk ⊢
  rw [hcur]
  exact hk

/-- What is asked of the attempts of a request: nobody is resumed under
PANIC in a start or in a call of a tealet that was freed. -/
structure Harmless (s : State) (q : Request) : Prop where
  resumes : ∀ s₁ t f, Attempt s q s₁ t f → f.panic = true → t ≠ s₁.gCurrent →
    ∀ fr, s₁.frameOf t = some fr → fr.isCapture = false ∧ (True → fr.started = none)
  callers : ∀ s₁ t f, Attempt s q s₁ t f → f.panic = true → t ≠ s₁.gCurrent →
    ∀ g out, s₁.frameOf t = some (.switch g out) →
      Alive s₁ g ∧ (q.isExit = true → f.delete = true → g ≠ s₁.gCurrent)

/-- Every attempt of a request returns. -/
theorem Steady.attempt_returns (P : Steady leak s a c q.sp) (hk : OwnFrame s q.isExit q.frame)
    (halive : Alive s q.target) (hmain : q.isExit = true → s.gCurrent ≠ mainId)
    (hq : Harmless s q) (h : Attempt s q s₁ t f) :
    ∃ p, xferInner s₁ t q.arg f q.isExit q.frame q.sp = .ok p := by
  obtain ⟨⟨a₁, P₁⟩, hcur, halive₁⟩ := h.steady P hk halive
  obtain ⟨r, hr⟩ := Option.isSome_iff_exists.mp halive₁
  obtain ⟨own, H⟩ := P₁.inv.rep
  refine P₁.attempt q.arg hr (hk.congr hcur) (fun hx => by rw [hcur]; exact hmain hx)
    fun ht hp => ?_
  exact .inr fun kt im g out hkt him hfr =>
    hq.callers s₁ t f h hp ht g out (hfr ▸ frameOf_eq H hr hkt him)

theorem Steady.attempts (P : Steady leak s a c q.sp) (hk : OwnFrame s q.isExit q.frame)
    (halive : Alive s q.target) (hmain : q.isExit = true → s.gCurrent ≠ mainId)
    (hq : Harmless s q) : ∃ p, q.attempts s = .ok p := by
  obtain ⟨⟨s₁, b⟩, hp⟩ := P.attempt_returns hk halive hmain hq .first
  unfold Request.attempts xferAttempts
  cases hn : q.flags.nofail with
  | false =>
      rw [XFlags.first, if_neg (by simp [hn])] at hp
      rw [if_neg Bool.false_ne_true]
      exact ⟨_, hp⟩
  | true =>
      have hp' := hp
      rw [XFlags.first, if_pos hn] at hp'
      rw [if_pos rfl, hp', ok_bind]
      dsimp only
      by_cases hb : b.rc = .err .mem ∨ b.rc = .err .defunct
      · rw [if_pos hb]
        exact P.attempt_returns hk halive hmain hq (.fallback hn hp hb)
      · rw [if_neg hb]
        exact ⟨_, rfl⟩

/-- An exit that does not leave ends in an error. -/
theorem Attempted.exit_failed
    (h : Attempted s a t arg f true k sp c r p) (hcur : p.1.gCurrent = s.gCurrent) :
    ∃ e, p.2.rc = .err e := by
  cases h with
  | unbound hb hp => subst hp; exact ⟨_, rfl⟩
  | toSelf ht hp => subst hp; exact ⟨_, rfl⟩
  | exited hx hp => subst hp; exact ⟨_, rfl⟩
  | defunct hx hd hp => subst hp; exact ⟨_, rfl⟩
  | spoiled hx hd hk him hdim hp => subst hp; exact ⟨_, rfl⟩
  | rejected hu hrej hp => subst hp; exact ⟨_, rfl⟩
  | tampered hu hg hs he hp => subst hp; exact ⟨_, rfl⟩
  | nomem ht hu hg hfate hrep hal hb => rw [hb]; exact ⟨_, rfl⟩
  | moved ht hexit hu hv hg hfate him' hrep hal hb hT ha hprev hfl he hview =>
      exact absurd ((congrArg View.current hview).symm.trans hcur) ht

/-- A request of a steady state comes back, if it is not the return of a run
function that stays. -/
theorem Steady.request (P : Steady leak s a c q.sp) (hk : OwnFrame s q.isExit q.frame)
    (halive : Alive s q.target) (hmain : q.isExit = true → s.gCurrent ≠ mainId)
    (hq : Harmless s q) (himp : (∃ g, q.frame = .exit g true) →
      ∀ p, q.attempts s = .ok p → p.1.gCurrent ≠ s.gCurrent) :
    ∃ p, (q.attempts s >>= q.finish) = .ok p := by
  obtain ⟨p, hp⟩ := P.attempts hk halive hmain hq
  rw [hp, ok_bind]
  obtain ⟨s₁, t, f, ha, hx⟩ := Request.attempts_ok hp
  obtain ⟨⟨a₁, P₁⟩, hcur, halive₁⟩ := ha.steady P hk halive
  obtain ⟨r, hr⟩ := Option.isSome_iff_exists.mp halive₁
  have hatt : Attempted s₁ a₁ t q.arg f q.isExit q.frame q.sp c r p :=
    (P₁.inv.xferInner_spec (E := fun _ => True) q.arg P₁.record hr P₁.sp_lt (hk.congr hcur)
      (fun _ _ => True.intro) (fun _ _ => External.mono fun _ _ => True.intro)
      fun _ => .inl True.intro).result hx
  have hsplit : (∃ a', Stays leak (fun _ _ => True) s₁ a₁ c q.frame p a') ∨ t ≠ s₁.gCurrent ∧
      ∃ fr a', Moves leak (fun _ _ => True) True (s₁.view a₁) f.panic fr p a' :=
    hatt.split P₁.inv P₁.record hr P₁.sp_lt (hk.congr hcur) True.intro (hq.resumes s₁ t f ha)
  rcases hsplit with ⟨a', hst⟩ | ⟨ht, fr, a', M⟩
  · have hcur' : p.1.gCurrent = s₁.gCurrent := hst.current
    have hown : ∀ b : Back, (b.frame = .api ∧ q.isExit = false) ∨ b.frame = q.frame →
        b.rc = p.2.rc → ∃ p', finish p.1 b = .ok p' := by
      rintro ⟨fr, rc, x⟩ (⟨rfl, -⟩ | hfr) hrc
      · exact ⟨_, rfl⟩
      · dsimp only at hfr hrc
        subst hfr
        cases hxq : q.isExit with
        | false =>
            rw [OwnFrame, hxq, if_neg Bool.false_ne_true] at hk
            obtain ⟨out, hk⟩ := hk
            rw [hk]
            exact ⟨_, rfl⟩
        | true =>
            rw [OwnFrame, hxq, if_pos rfl] at hk
            obtain ⟨i, hk⟩ := hk
            obtain ⟨e, he⟩ := (hxq ▸ hatt).exit_failed hcur'
            rw [hk, hrc, he]
            cases i with
            | true => exact absurd (hcur'.trans hcur) (himp ⟨_, hk⟩ p hp)
            | false => exact ⟨_, rfl⟩
    unfold Request.finish
    by_cases hapi : q.isExit = true ∧ p.2.frame = .api
    · rw [if_pos hapi]
      exact hown _ (.inr rfl) rfl
    · rw [if_neg hapi]
      refine hown _ (hst.frame.imp_left fun h => ⟨h, ?_⟩) rfl
      cases hxq : q.isExit with
      | false => rfl
      | true => exact absurd ⟨hxq, h⟩ hapi
  · have hne : ¬ (q.isExit = true ∧ p.2.frame = .api) := by
      rintro ⟨-, hapi⟩
      have hres := M.resumable
      rw [← M.back.1, hapi] at hres
      exact hres
    unfold Request.finish
    rw [if_neg hne]
    have hfin := finish_moved (E := fun _ => False) M (.inr True.intro)
    cases hres : finish p.1 p.2 with
    | ok p' => exact ⟨p', rfl⟩
    | error f => exact (hfin.fault hres).elim

end Attempts

/-! ## Starts -/

section Starts

variable {leak : StackId → Nat} {s : State} {a : Saved} {t : TealetId} {c r : TealetSub} {sp : Nat}
  {k : Frame} {sw spawned : Bool}

theorem Steady.locked (P : Steady leak s a c sp) : Steady leak s.lockAuto a c sp :=
  P.congr P.inv.lockAuto P.standing (lockAuto_sameConfig _) P.watched.locked P.record rfl
    fun _ r hr hb => ⟨r, hr, hb, rfl⟩

/-- A start returns or enters the run function. -/
theorem Steady.begin {prev : Option TealetId} (P : Steady leak s a c sp)
    (hnew : s.tealets t = some {}) (hr : Child r)
    (hk : StartFrame t s.gCurrent prev sw spawned k) (hsp : sp < r.stackFar)
    (hf : s.env.Fits r.stackFar) :
    ∃ p, (beginSwitch s t r sw k sp >>= fun p => leaveXfer p.1 p.2 >>= fun s' => finish s' p.2) =
      .ok p := by
  have hact := (P.inv.running P.record).1
  have hfc := P.fits _ c P.record hact.bound
  have hspec := P.inv.beginSwitch_spec (E := fun _ => False) P.record hnew hr P.sp_lt hk
    (external_of_intact P.ready P.intact hact.exited P.near hfc hr.active.exited hsp hf)
    (external_of_intact P.ready P.intact hr.active.exited hsp hf hact.exited P.near hfc)
  cases hres : (beginSwitch s t r sw k sp >>= fun p =>
      leaveXfer p.1 p.2 >>= fun s' => finish s' p.2) with
  | ok p => exact ⟨p, rfl⟩
  | error f => exact (hspec.fault hres).elim

theorem Steady.verified (P : Steady leak s a c sp) : verifyCurrentMatchesCaller s sp = .ok () := by
  rw [verifyCurrentMatchesCaller_eq P.record]
  exact verifyRecord_ok (P.inv.running P.record).1.exited P.near

theorem Steady.run {site : Site} {hint : Nat} (P : Steady leak s a c site.sp) (halive : Alive s t)
    (fn : RunFn) (parg : Option Ptr) (hfar : site.far < spFurthest) (hhint : hint < spFurthest)
    (hsp : site.sp < site.far) (hf : s.env.Fits (pickInitialFar site.far hint)) :
    ∃ p, Tealet.run s t fn parg hint sw spawned site = .ok p := by
  obtain ⟨r, hr⟩ := Option.isSome_iff_exists.mp halive
  by_cases hnew : r.flags = {}
  · obtain rfl := P.inv.empty_of_new hr hnew
    rw [run_eq P.inv.gTarget hr, P.verified, ok_bind]
    have hle : site.far ≤ pickInitialFar site.far hint := by
      unfold pickInitialFar
      split
      · exact Nat.le_refl _
      · split
        · assumption
        · exact Nat.le_refl _
    exact P.locked.begin hr (child_childRecord (pickInitialFar_lt hfar hhint) ⟨rfl, rfl, rfl⟩ rfl)
      (.run _ _ _) (Nat.lt_of_lt_of_le hsp hle) (hf.congr (lockAuto_sameConfig _))
  · unfold Tealet.run
    rw [tealet_of hr, ok_bind, if_pos hnew]
    exact ⟨_, rfl⟩

theorem Steady.fork {site : Site} (P : Steady leak s a c site.sp) (halive : Alive s t)
    (parg : Option Ptr) : ∃ p, Tealet.fork s t parg sw site = .ok p := by
  obtain ⟨r, hr⟩ := Option.isSome_iff_exists.mp halive
  by_cases hnew : r.flags = {}
  · obtain rfl := P.inv.empty_of_new hr hnew
    by_cases hfar : c.stackFar = spFurthest
    · unfold Tealet.fork
      simp only [P.verified, tealet_of hr, tealet_of P.record, ok_bind, if_neg (not_not.mpr hnew),
        if_pos hfar]
      exact ⟨_, rfl⟩
    · rw [fork_eq hr P.record (P.inv.running P.record).2.1 hfar, P.verified, ok_bind]
      have hlt : c.stackFar < spFurthest :=
        Nat.lt_of_le_of_ne (P.inv.core.record _ c P.record).far_le hfar
      exact P.locked.begin hr (child_childRecord hlt ⟨rfl, rfl, rfl⟩ rfl) (.fork _ rfl) P.near
        (P.locked.fits _ c P.record (P.inv.running P.record).1.bound)
  · unfold Tealet.fork
    simp only [P.verified, tealet_of hr, ok_bind, if_pos hnew]
    exact ⟨_, rfl⟩

end Starts

/-! ## Careful callers -/

/-- What a caller has to mind for a call to come back. Calls are made below
the boundary of the running tealet, and what is watched of a new tealet
does not wrap around the address space. Main does not exit, only one exit
is deferred at a time, and a run function returns to a tealet that can be
transferred to. -/
def Call.Careful (s : State) : Call → Prop
  | .run _ _ _ hint _ site | .spawn _ _ hint _ site =>
      site.sp < site.far ∧ s.env.Fits (pickInitialFar site.far hint)
  | .fork _ _ _ site => site.sp < runningFar s
  | .switch _ _ flags sp => (flags.delete = false ∧ flags.defer = false) ∧ sp < runningFar s
  | .exit _ _ flags sp => sp < runningFar s ∧
      if flags.defer then flags.panic = false ∧ s.gFlags = {} else s.gCurrent ≠ mainId
  | .ret p sp => s.gCurrent ≠ mainId ∧ callerRejected s.env (runningFar s) sp = false ∧
      ∃ t r, p = some t ∧ t ≠ s.gCurrent ∧ s.tealets t = some r ∧ r.flags.bound = true ∧
        r.flags.exited = false
  | _ => True

def Event.Careful (s : State) : Event → Prop
  | .write _ => True
  | .call c _ _ => c.Careful s

section Calls

variable {leak : StackId → Nat} {s s₀ : State} {a : Saved} {c : TealetSub} {cl : Call} {q : Request}

theorem request_harmless (hR : PanicResumes True s cl) (hC : PanicCallers s cl)
    (hq : cl.request s = some (s₀, q)) : Harmless s₀ q :=
  ⟨fun s₁ t f ha hp ht => hR s₁ t f _ _ (.xfer hq ha) hp ht,
    fun s₁ t f ha hp ht => hC s₁ t f _ _ (.xfer hq ha) hp ht⟩

/-- A transferring call of a steady state comes back. -/
theorem Steady.transfer (P : Steady leak s a c q.sp) (hL : cl.Legal s) (hflags : cl.FlagsOk)
    (hR : PanicResumes True s cl) (hC : PanicCallers s cl) (hq : cl.request s = some (s₀, q))
    (hmain : q.isExit = true → s.gCurrent ≠ mainId)
    (himp : (∃ g, q.frame = .exit g true) →
      ∀ p, q.attempts s₀ = .ok p → p.1.gCurrent ≠ s.gCurrent) :
    ∃ p, callStep s cl = .ok p := by
  obtain ⟨I₀, hview⟩ := P.inv.withRequest hq
  obtain ⟨fl, ar, hs₀, -⟩ := request_state hq
  obtain ⟨f, cond, inst, -, hcond, heq⟩ := callStep_request hq
  obtain ⟨halive, -⟩ := request_legal hq hL
  have htl : s₀.tealets = s.tealets := by rw [hs₀]
  have hcur : s₀.gCurrent = s.gCurrent := by rw [hs₀]
  have hcfg : s.env.SameConfig s₀.env := by
    rw [hs₀]
    exact lockAuto_sameConfig _
  have P₀ : Steady leak s₀ a c q.sp := P.congr I₀ (hview ▸ P.standing) hcfg
    (request_watched hq P.watched) (by rw [htl, hcur]; exact P.record) rfl
    fun u r hr hb => ⟨r, htl ▸ hr, hb, rfl⟩
  have halive₀ : Alive s₀ q.target := by
    rw [Alive, htl]
    exact halive
  rw [heq, require_of (hcond hflags), ok_bind, P.verified, ok_bind]
  exact P₀.request (request_frame hq) halive₀ (fun hx => by rw [hcur]; exact hmain hx)
    (request_harmless hR hC hq) fun hi p hp => by rw [hcur]; exact himp hi p hp

/-- The return of a run function arrives. -/
theorem Steady.leaves (P : Steady leak s a c q.sp) (hfits : ∀ t r, s.tealets t = some r →
    s.env.Fits r.stackFar) (hq : cl.request s = some (s₀, q)) (hn : q.flags.nofail = true)
    (hC : PanicCallers s cl) (hrun : s.gCurrent ≠ mainId) (ht : q.target ≠ s.gCurrent)
    {r : TealetSub} (hr : s.tealets q.target = some r) (hb : r.flags.bound = true)
    (hx : r.flags.exited = false) (hnear : callerRejected s.env c.stackFar q.sp = false)
    {p : State × Back} (hp : q.attempts s₀ = .ok p) : p.1.gCurrent ≠ s.gCurrent := by
  obtain ⟨I₀, hview⟩ := P.inv.withRequest hq
  obtain ⟨fl, ar, hs₀, -⟩ := request_state hq
  have htl : s₀.tealets = s.tealets := by rw [hs₀]
  have hcur : s₀.gCurrent = s.gCurrent := by rw [hs₀]
  have hcfg : s.env.SameConfig s₀.env := by
    rw [hs₀]
    exact lockAuto_sameConfig _
  have hc₀ : s₀.tealets s₀.gCurrent = some c := by rw [htl, hcur]; exact P.record
  have hr₀ : s₀.tealets q.target = some r := htl ▸ hr
  have hfar : c.stackFar ≠ spFurthest :=
    Nat.ne_of_lt ((P.inv.core.record _ c P.record).far_lt hrun)
  have P₀ : Poised leak s₀ a c q.sp := by
    refine ⟨I₀, hview ▸ P.standing, P.ready.congr hcfg, fun t rt hrt => ?_, hc₀,
      by rw [hcur]; exact hrun, by rw [callerRejected_congr hcfg hfar]; exact hnear,
      (request_watched hq P.watched).intact hc₀ (Nat.lt_of_le_of_lt (Nat.zero_le _) P.near)⟩
    rw [htl] at hrt
    exact (hfits t rt hrt).congr hcfg
  obtain ⟨own, H⟩ := I₀.rep
  have hpan : PanicSafe s₀ a r q.flags q.isExit fun _ => False := by
    intro hpf
    refine .inr fun kt im g out hkt him hfr => ?_
    have hff : q.flags.first.panic = true ∧ q.flags.first.delete = q.flags.delete := by
      rw [XFlags.first, if_pos hn]
      exact ⟨hpf, rfl⟩
    obtain ⟨h₁, h₂⟩ := hC s₀ q.target q.flags.first q.isExit _ (.xfer hq .first) hff.1
      (by rw [hcur]; exact ht) g out (hfr ▸ frameOf_eq H hr₀ hkt him)
    exact ⟨h₁, fun he hd => h₂ he (hff.2.trans hd)⟩
  obtain ⟨p', hp', hdel⟩ := P₀.delivered hn hr₀ (by rw [hcur]; exact ht) hb hx P.sp_lt
    (request_frame hq) hpan
  cases hp.symm.trans hp'
  cases hdel with
  | target h => rw [h.current]; exact ht
  | main _ _ _ h => rw [h.current]; exact hrun.symm

/-- The tealet that was just made is NEW. -/
theorem Steady.new {s₁ : State} {t : TealetId} {sp : Nat} (P : Steady leak s a c sp)
    (h : Tealet.new s = (s₁, some t)) : Steady leak s₁ a c sp ∧ Alive s₁ t := by
  have hends : Ends (fun _ _ => True) True (s.view a) (Tealet.new s).1 a := new_ends P.inv
  obtain ⟨leak', I', hleak⟩ := hends.inv P.inv
  obtain rfl := hleak True.intro
  have hspec := new_spec s a
  have hw := new_watched P.inv P.watched
  have hcfg := new_config s
  rw [h] at I' hspec hw hcfg
  cases hspec with
  | some hal hv hal' =>
      have htl : s₁.tealets = Function.update s.tealets s.nextTealet (some {}) :=
        congrArg View.tealets hv
      have hcur : s₁.gCurrent = s.gCurrent := congrArg View.current hv
      have hne : s.gCurrent ≠ s.nextTealet := Nat.ne_of_lt (P.inv.core.lt_nextTealet P.record)
      have hsmall : Small (fun _ _ => False) (s.view a) { s.view a with
        tealets := Function.update s.tealets s.nextTealet (some {})
        nextTealet := s.nextTealet + 1 } := .create
      have hstand := hsmall.standing nofun P.inv.core P.standing
      rw [← hv] at hstand
      refine ⟨P.congr I' hstand hcfg hw ?_ rfl fun u r' hr' hb' => ?_, by simp [Alive, htl]⟩
      · rw [hcur, htl, Function.update_of_ne hne]
        exact P.record
      · rw [htl] at hr'
        by_cases hu : u = s.nextTealet
        · subst hu
          rw [Function.update_self] at hr'
          cases hr'
          cases hb'
        · rw [Function.update_of_ne hu] at hr'
          exact ⟨r', hr', hb', rfl⟩

theorem exists_ok_of_sat {α : Type} {Q : α → Prop} {x : Res α} (h : Sat (fun _ => False) Q x) :
    ∃ y, x = .ok y := by
  cases hx : x with
  | ok y => exact ⟨y, rfl⟩
  | error f => exact (h.fault hx).elim

end Calls

/-- Whether a call is careful. -/
def Call.careful (s : State) : Call → Bool
  | .run _ _ _ hint _ site | .spawn _ _ hint _ site =>
      decide (site.sp < site.far) &&
        decide (pickInitialFar site.far hint +
          plannedBytes s.env.cfg (pickInitialFar site.far hint) <
          wordMod)
  | .fork _ _ _ site => decide (site.sp < runningFar s)
  | .switch _ _ flags sp =>
      (decide (flags.delete = false) && decide (flags.defer = false)) && decide (sp < runningFar s)
  | .exit _ _ flags sp => decide (sp < runningFar s) &&
      if flags.defer then decide (flags.panic = false) && decide (s.gFlags = {})
      else decide (s.gCurrent ≠ mainId)
  | .ret p sp => decide (s.gCurrent ≠ mainId) &&
      (decide (callerRejected s.env (runningFar s) sp = false) &&
        p.any fun t => decide (t ≠ s.gCurrent) && (s.tealets t).any fun r =>
          decide (r.flags.bound = true) && decide (r.flags.exited = false))
  | _ => true

end Tealet
