import Tealet.EnvRule
import Tealet.Pages
import Tealet.Watch
import Tealet.Plan
import Tealet.Forced

/-!
# Whose stack is watched

The watch is armed for the tealet that is current at the end of
`tealet_switchstack`. Between calls that has to be the one that runs: then
the watched bytes lie at or beyond its boundary, and what it writes nearer
never makes a comparison fail. A start with `TEALET_START_DEFAULT` that
fails for want of memory arms the watch for the child, and
`tealet_set_far` moves the boundary of a main that runs under its watch.
-/

namespace Tealet

open Slice Hoare Align

/-- A snapshot or guarded pages are recorded. -/
def IntegrityData.Armed (d : IntegrityData) : Prop := d.snapshotBytes ≠ 0 ∨ d.guardBytes ≠ 0

/-- What is watched lies at or beyond the boundary `far` of a bounded stack. -/
structure IntegrityData.Beyond (d : IntegrityData) (far : Nat) : Prop where
  bounded : d.Armed → far ≠ spFurthest
  beyond : ∀ x, d.InSnapshot x ∨ d.InGuard x → far ≤ x

/-- The page size is unknown or a power of two. -/
def Env.Paged (e : Env) : Prop := e.pageSize = 0 ∨ ∃ p < 64, e.pageSize = 2 ^ p

section Data

variable {d d' : IntegrityData} {far far' pageSize p : Nat} {cfg : Config} {m m' : Memory}
  {e e' : Env}

/-- A part of the watch. -/
structure IntegrityData.PartOf (d' d : IntegrityData) : Prop where
  armed : d'.Armed → d.Armed
  snapshot : ∀ x, d'.InSnapshot x → d.InSnapshot x
  guard : ∀ x, d'.InGuard x → d.InGuard x

theorem IntegrityData.Beyond.part (h : d.Beyond far) (hd : d'.PartOf d) : d'.Beyond far :=
  ⟨fun ha => h.bounded (hd.armed ha),
    fun x hx => h.beyond x (hx.imp (hd.snapshot x) (hd.guard x))⟩

/-- What is planned for a boundary lies beyond it. -/
theorem plannedData_beyond (hpage : pageSize = 0 ∨ ∃ p < 64, pageSize = 2 ^ p) :
    (plannedData pageSize cfg far d).Beyond far := by
  have hlen := snapshotLength_le pageSize cfg far
  have hplan : (plannedData pageSize cfg far d).Armed → plannedBytes cfg far ≠ 0 := by
    rintro (h | h) h0
    · exact h (Nat.le_zero.mp (h0 ▸ hlen))
    · exact h (if_neg fun hg => not_guarded_of_none h0 hg.1)
  refine ⟨fun ha hfar => hplan ha (by rw [plannedBytes, if_pos (.inl hfar)]), ?_⟩
  rintro x (⟨hx, hlt⟩ | ⟨hx, hlt⟩)
  · have h0 : plannedBytes cfg far ≠ 0 := hplan <| .inl fun h => by
      rw [h] at hlt
      omega
    exact (if_neg h0).symm.le.trans hx
  · by_cases hg : Guarded pageSize cfg far ∧ alignUp pageSize far < guardEnd pageSize cfg far
    swap
    · simp only [plannedData, hg, if_false] at hx hlt
      omega
    simp only [plannedData, hg, and_self, if_true] at hx
    obtain ⟨⟨-, hno, hfits⟩, hend⟩ := hg
    obtain ⟨p, hp, rfl⟩ := hpage.resolve_left hno
    have hword : (far + plannedBytes cfg far) % wordMod < wordMod := Nat.mod_lt _ (by decide)
    by_cases hw : far + (2 ^ p - 1) < wordMod
    · exact (alignUp_bounds far (Nat.le_of_lt hp) hw).1.trans hx
    · -- rounding up wraps around for both ends, and nothing is guarded
      have hstop : alignUp (2 ^ p) ((far + plannedBytes cfg far) % wordMod) = 0 := by
        refine roundUp_wrap (Nat.le_of_lt hp) hword ?_
        have : wordMod ≤ far + (2 ^ p - 1) := Nat.le_of_not_lt hw
        exact this.trans (Nat.add_le_add_right (Nat.le_of_lt hfits) _)
      unfold guardEnd at hend
      dsimp only at hend
      split at hend <;> omega

/-- The interval that is planned does not depend on the one before. -/
theorem IntegrityData.Beyond.replan (h : (plannedData pageSize cfg far d).Beyond far') :
    (plannedData pageSize cfg far d').Beyond far' :=
  ⟨h.bounded, h.beyond⟩

theorem IntegrityData.PartOf.refl (d : IntegrityData) : d.PartOf d := ⟨id, fun _ => id, fun _ => id⟩

theorem IntegrityData.PartOf.unguarded (d : IntegrityData) :
    ({ d with guardBytes := 0 }).PartOf d := by
  refine ⟨fun h => .inl (h.resolve_right fun h => h rfl), fun x h => h, ?_⟩
  rintro x ⟨h₁, h₂⟩
  dsimp only at h₁ h₂
  omega

theorem snapshotCaptureCurrent_part : Returns (fun e' => e'.data.PartOf e.data)
    (snapshotCaptureCurrent e m far) := by
  unfold snapshotCaptureCurrent
  split
  · exact .refl _
  · refine returns_any.bind fun _ _ => returns_any.bind fun _ _ => returns_any.bind fun _ _ => ?_
    split
    · exact .refl _
    · exact ⟨id, fun _ => id, fun _ => id⟩

theorem guardProtectCurrent_part : Returns (fun e' => e'.data.PartOf e.data)
    (guardProtectCurrent e) := by
  unfold guardProtectCurrent
  split
  · exact .refl _
  · refine returns_any.bind fun _ _ => ?_
    have hdata := mprotect_data e e.data.guardBase e.data.guardBytes true
    dsimp only
    split
    · show IntegrityData.PartOf _ _
      rw [hdata]
      exact .refl _
    · show IntegrityData.PartOf _ _
      rw [hdata]
      exact .unguarded _

/-- What is armed is part of the plan and agrees with memory. -/
theorem armEnv_planned {c : TealetSub} {sp : Nat} (h : armEnv e m c sp = .ok e') :
    e'.data.PartOf (plannedData e.pageSize e.cfg c.stackFar e.data) ∧ e'.data.Agrees m := by
  obtain ⟨-, -, hplan⟩ := bind_ok h
  obtain ⟨d, hd, hverify⟩ := bind_ok hplan
  obtain ⟨-, -, harm⟩ := bind_ok hverify
  obtain ⟨e₁, hcap, hprotect⟩ := bind_ok harm
  have hfar : c.stackFar ≠ spFurthest ∨ d.snapshotBytes = 0 := by
    by_cases hfar : c.stackFar = spFurthest
    · rw [hfar] at hd
      exact .inr (integrityPlan_unbounded hd)
    · exact .inl hfar
  rw [integrityPlan_eq] at hd
  split at hd <;> cases hd
  have h₁ := snapshotCaptureCurrent_part.result hcap
  have h₂ := guardProtectCurrent_part.result hprotect
  refine ⟨⟨fun ha => h₁.armed (h₂.armed ha), fun x hx => h₁.snapshot x (h₂.snapshot x hx),
    fun x hx => h₁.guard x (h₂.guard x hx)⟩, ?_⟩
  exact (guardProtectCurrent_data (snapshotCaptureCurrent_agrees (e := { e with
    data := plannedData e.pageSize e.cfg c.stackFar e.data }) hfar hcap) hprotect).1

theorem armEnv_beyond {c : TealetSub} {sp : Nat} (hp : e.Paged) (h : armEnv e m c sp = .ok e') :
    e'.data.Beyond c.stackFar :=
  (plannedData_beyond hp).part (armEnv_planned h).1

/-- A snapshot that agrees with memory passes the comparison. -/
theorem IntegrityData.Agrees.passes (h : e.data.Agrees m) : Returns (fun p => p.2 = none)
    (guardUnprotectCurrent e >>= fun e => snapshotVerifyCurrent e m) := by
  refine Sat.bind (Q := fun e' => e'.data.Agrees m) ?_ fun e' h' => ?_
  · unfold guardUnprotectCurrent
    split
    · exact h
    · refine returns_any.bind fun _ _ => ?_
      have hdata := mprotect_data e e.data.guardBase e.data.guardBytes false
      show IntegrityData.Agrees { (e.mprotect e.data.guardBase e.data.guardBytes false).1.data with
        guardBytes := 0 } m
      rw [hdata]
      exact h
  · obtain ⟨e₂, he₂⟩ := snapshotVerifyCurrent_agrees h'
    rw [he₂]
    rfl

/-- Writes nearer than the boundary do not reach what is watched. -/
theorem IntegrityData.Beyond.write (h : d.Beyond far) (ha : d.Agrees m)
    (hm : ∀ x, far ≤ x → m' x = m x) : d.Agrees m' := by
  intro h0
  obtain ⟨hbase, hsame⟩ := ha h0
  refine ⟨hbase, hsame.trans (readSlice_congr fun x hx hlt => ?_)⟩
  exact (hm x (h.beyond x (.inl ⟨hx, hlt⟩))).symm

theorem IntegrityData.beyond_zero (d : IntegrityData) : d.Beyond 0 :=
  ⟨fun _ => by decide, fun x _ => Nat.zero_le x⟩

end Data

/-! ## The watch of the current tealet -/

/-- The boundaries that the records of `s'` have are those of `s`, or 0. -/
def SameFars (s s' : State) : Prop :=
  ∀ t r', s'.tealets t = some r' → r'.stackFar = 0 ∨ ∃ r, s.tealets t = some r ∧
    r'.stackFar = r.stackFar

/-- The watch is that of the current tealet. -/
structure State.Watched (s : State) : Prop where
  paged : s.env.Paged
  agrees : s.env.data.Agrees s.mem
  own : ∀ c, s.tealets s.gCurrent = some c → s.env.data.Beyond c.stackFar

section Watched

variable {s s' : State} {t : TealetId} {r r' : TealetSub} {arg : Ptr} {k : Frame}
  {sp : Nat} {b : Back} {flags : XFlags} {isExit : Bool}

theorem SameFars.refl (s : State) : SameFars s s := fun _ r h => .inr ⟨r, h, rfl⟩

theorem SameFars.record (hr : s.tealets t = some r)
    (hfar : r'.stackFar = 0 ∨ r'.stackFar = r.stackFar) :
    SameFars s (s.setTealet t r') := by
  intro u x hx
  by_cases hu : u = t
  · subst hu
    have hx : Function.update s.tealets u (some r') u = some x := hx
    rw [Function.update_self] at hx
    obtain rfl := Option.some.inj hx
    exact hfar.imp_right fun h => ⟨r, hr, h⟩
  · exact .inr ⟨x, (Function.update_of_ne hu ..).symm.trans hx, rfl⟩

theorem SameFars.free (s : State) (t : TealetId) : SameFars s (freeTealet s t) := by
  intro u x hx
  by_cases hu : u = t
  · subst hu
    have hx : Function.update s.tealets u none u = some x := hx
    rw [Function.update_self] at hx
    cases hx
  · exact .inr ⟨x, (Function.update_of_ne hu ..).symm.trans hx, rfl⟩

theorem State.Watched.congr (h : s.Watched) (hp : s'.env.pageSize = s.env.pageSize)
    (hd : s'.env.data = s.env.data) (hm : s'.mem = s.mem) (hc : s'.gCurrent = s.gCurrent)
    (hf : SameFars s s') : s'.Watched := by
  refine ⟨?_, ?_, fun c hcur => ?_⟩
  · rw [Env.Paged, hp]
    exact h.paged
  · rw [hd, hm]
    exact h.agrees
  · rw [hd]
    rw [hc] at hcur
    rcases hf _ c hcur with h0 | ⟨r, hr, hfar⟩
    · rw [h0]
      exact s.env.data.beyond_zero
    · rw [hfar]
      exact h.own r hr

theorem State.Watched.record (h : s.Watched) (hr : s.tealets t = some r)
    (hfar : r'.stackFar = 0 ∨ r'.stackFar = r.stackFar) : (s.setTealet t r').Watched :=
  h.congr rfl rfl rfl rfl (.record hr hfar)

/-- The record of another tealet does not matter. -/
theorem State.Watched.other (h : s.Watched) (ht : t ≠ s.gCurrent) (r : TealetSub) :
    (s.setTealet t r).Watched :=
  ⟨h.paged, h.agrees, fun c hc => h.own c ((Function.update_of_ne ht.symm ..).symm.trans hc)⟩

theorem lockAuto_pageSize (e : Env) : e.lockAuto.pageSize = e.pageSize := by
  unfold Env.lockAuto
  split <;> rfl

theorem State.Watched.locked (h : s.Watched) : s.lockAuto.Watched :=
  h.congr (lockAuto_pageSize _) (lockAuto_data _) rfl rfl fun _ r hr => .inr ⟨r, hr, rfl⟩

theorem unlockAuto_data (e : Env) :
    e.unlockAuto.data = e.data ∧ e.unlockAuto.pageSize = e.pageSize := by
  unfold Env.unlockAuto
  split <;> exact ⟨rfl, rfl⟩

theorem State.Watched.unlocked (h : s.Watched) : s.unlockAuto.Watched :=
  h.congr (unlockAuto_data _).2 (unlockAuto_data _).1 rfl rfl fun _ r hr => .inr ⟨r, hr, rfl⟩

/-! ## `tealet_switchstack` -/

/-- A call that is refused changes no boundary, and leaves the watch. -/
structure Refusal (s s' : State) : Prop where
  env : s'.env = s.env
  mem : s'.mem = s.mem
  current : s'.gCurrent = s.gCurrent
  fars : SameFars s s'

theorem isDefunct_refusal (s : State) (t : TealetId) :
    Returns (fun p => Refusal s p.1 ∧ ∀ u, u ≠ t → p.1.tealets u = s.tealets u)
      (isDefunct s t) := by
  have hsame : Refusal s s := ⟨rfl, rfl, rfl, .refl s⟩
  unfold isDefunct
  refine (returns_tealet s t).bind fun r hr => ?_
  split
  · exact ⟨hsame, fun _ _ => rfl⟩
  · split
    · exact ⟨hsame, fun _ _ => rfl⟩
    · refine returns_any.bind fun st _ => ?_
      split
      · exact ⟨⟨rfl, rfl, rfl, .record hr (.inr rfl)⟩, fun u hu => Function.update_of_ne hu ..⟩
      · exact ⟨hsame, fun _ _ => rfl⟩

/-- Up to the copying the call is refused, or the caller is accepted and the comparison passes. -/
theorem copyStage_watch (ha : s.env.data.Agrees s.mem) :
    Returns (fun p => (∀ e, p.2 = some e → (e = .inval ∨ e = .defunct) ∧ Refusal s p.1) ∧
        (p.2 = none → s.env.SameConfig p.1.env ∧
          ∀ c, s.tealets s.gCurrent = some c → callerRejected s.env c.stackFar sp = false))
      (copyStage s t arg sp) := by
  unfold copyStage
  refine (returns_require (p := t ≠ s.gCurrent)).bind fun _ hne => returns_any.bind fun r _ => ?_
  by_cases hx : r.flags.exited = true
  · refine Sat.ite_true hx ⟨?_, nofun⟩
    rintro e h
    cases h
    exact ⟨.inl rfl, rfl, rfl, rfl, .refl s⟩
  refine Sat.ite_false hx ((isDefunct_refusal s t).bind fun p hp => ?_)
  obtain ⟨s₁, defunct⟩ := p
  obtain ⟨hR, hsame⟩ := hp
  have hstop : ∀ {e : Err}, e = .inval ∨ e = .defunct → Returns (fun p : State × Option Err =>
      (∀ e, p.2 = some e → (e = .inval ∨ e = .defunct) ∧ Refusal s p.1) ∧
        (p.2 = none → s.env.SameConfig p.1.env ∧
          ∀ c, s.tealets s.gCurrent = some c → callerRejected s.env c.stackFar sp = false))
      (.ok (s₁, some e)) := by
    intro e he
    refine ⟨?_, nofun⟩
    rintro e' h
    cases h
    exact ⟨he, hR⟩
  by_cases hd : defunct = true
  · exact Sat.ite_true hd (hstop (.inr rfl))
  refine Sat.ite_false hd ?_
  have hcheck : Returns (fun rejected => ∀ c, s.tealets s.gCurrent = some c →
      callerRejected s.env c.stackFar sp = rejected) (checkCallerIsCurrent s₁ sp) := by
    unfold checkCallerIsCurrent
    refine (returns_tealet s₁ s₁.gCurrent).bind fun c hc => returns_any.bind fun _ _ =>
      returns_any.bind fun _ _ => ?_
    intro c' hc'
    rw [hR.current, hsame _ hne.symm] at hc
    obtain rfl := Option.some.inj (hc.symm.trans hc')
    rw [hR.env]
  refine hcheck.bind fun rejected hrej => ?_
  by_cases hrej' : rejected = true
  · exact Sat.ite_true hrej' (hstop (.inl rfl))
  refine Sat.ite_false hrej' ?_
  rw [← bind_assoc]
  have ha₁ : s₁.env.data.Agrees s₁.mem := by
    rw [hR.env, hR.mem]
    exact ha
  have hcfg : Returns (fun p => s₁.env.SameConfig p.1)
      (guardUnprotectCurrent s₁.env >>= fun e => snapshotVerifyCurrent e s₁.mem) :=
    (guardUnprotectCurrent_config s₁.env).bind fun e he =>
      (snapshotVerifyCurrent_config e s₁.mem).imp fun p hp => he.trans hp.1
  refine (ha₁.passes.and hcfg).bind ?_
  rintro ⟨e, v⟩ ⟨hv, he⟩
  obtain rfl : v = none := hv
  refine ⟨nofun, fun _ => ⟨?_, fun c hc => ?_⟩⟩
  · exact hR.env ▸ he
  · rw [hrej c hc]
    simpa using hrej'

/-- How `tealet_switchstack` leaves the watch. -/
inductive Rewatched (s : State) (sp : Nat) (p : State × Back) : Prop where
  | refused (hrc : p.2.rc = .err .inval ∨ p.2.rc = .err .defunct) (h : Refusal s p.1)
  | armed {e : Env} {c : TealetSub} {spT : Nat}
      (hrc : p.2.rc ≠ .err .integrity ∧ p.2.rc ≠ .err .inval)
      (hcfg : e.cfg = s.env.cfg) (hpage : e.pageSize = s.env.pageSize)
      (hnear : ∀ c, s.tealets s.gCurrent = some c → callerRejected s.env c.stackFar sp = false)
      (hc : p.1.tealets p.1.gCurrent = some c)
      (he : armEnv e p.1.mem c spT = .ok p.1.env)

theorem switchstack_watch (ha : s.env.data.Agrees s.mem) :
    Returns (Rewatched s sp) (switchstack s t arg k sp) := by
  rw [switchstack_eq]
  refine (copyStage_watch ha).bind ?_
  rintro ⟨s₁, _ | e⟩ ⟨hstop, hgo⟩
  · obtain ⟨hcfg, hnear⟩ := hgo rfl
    refine (stackmanSwitch_books s₁ k sp).bind ?_
    rintro ⟨s₂, k', sp'⟩ hbooks
    obtain ⟨n, cnt, f, g, heq⟩ := hbooks
    have hcfg₂ : s₂.env.cfg = s.env.cfg := by
      rw [show s₂.env = _ from heq]
      exact hcfg.cfg
    have hpage₂ : s₂.env.pageSize = s.env.pageSize := by
      rw [show s₂.env = _ from heq]
      exact hcfg.pageSize
    have harm : ∀ s₃ : State, s₃.env = s₂.env →
        Returns (fun s' => ∃ c, s'.tealets s'.gCurrent = some c ∧
        armEnv s₂.env s'.mem c sp' = .ok s'.env) (armIntegrity s₃ sp') := by
      intro s₃ he₃
      cases hc : s₃.tealets s₃.gCurrent with
      | none =>
          unfold armIntegrity verifyCurrentMatchesCaller State.tealet
          rw [hc]
          exact True.intro
      | some c =>
          rw [armIntegrity_eq hc]
          refine Sat.bind (Q := fun e => armEnv s₃.env s₃.mem c sp' = .ok e)
            (returns_any.with_eq.imp fun e he => he.1) fun e he => ⟨c, hc, he₃ ▸ he⟩
    unfold afterSwitch
    dsimp only
    by_cases hsw : s₂.gSw = .err
    · refine Sat.ite_true hsw ((harm { s₂ with
        gPrevious := s.gPrevious, gTarget := none, gArg := null } rfl).bind ?_)
      rintro s₃ ⟨c, hc, he⟩
      exact .armed ⟨nofun, nofun⟩ hcfg₂ hpage₂ hnear hc he
    · refine Sat.ite_false hsw ?_
      split
      · exact True.intro
      · rename_i g hg
        refine (harm { s₂ with gCurrent := g, live := g, gTarget := none, gArg := null }
          rfl).bind ?_
        rintro s₃ ⟨c, hc, he⟩
        split
        · exact .armed ⟨nofun, nofun⟩ hcfg₂ hpage₂ hnear hc he
        · refine .armed ?_ hcfg₂ hpage₂ hnear hc he
          dsimp only
          split <;> exact ⟨nofun, nofun⟩
  · obtain ⟨he, hR⟩ := hstop e rfl
    refine .refused ?_ ⟨hR.env, hR.mem, hR.current, hR.fars⟩
    rcases he with rfl | rfl
    · exact .inl rfl
    · exact .inr rfl

/-- Once it is armed the watch is that of the tealet that is current then. -/
theorem watched_of_armed {e : Env} {c : TealetSub} (hp : e.Paged)
    (hc : s.tealets s.gCurrent = some c) (he : armEnv e s.mem c sp = .ok s.env) : s.Watched := by
  have hkept := (armEnv_config e s.mem c sp).result he
  refine ⟨?_, (armEnv_planned he).2, fun c' hc' => ?_⟩
  · rw [Env.Paged, hkept.pageSize]
    exact hp
  · obtain rfl := Option.some.inj (hc.symm.trans hc')
    exact armEnv_beyond hp he

theorem Env.Paged.congr {e e' : Env} (h : e.Paged) (hp : e'.pageSize = e.pageSize) : e'.Paged := by
  rw [Env.Paged, hp]
  exact h

theorem Rewatched.watched {p : State × Back} (h : Rewatched s sp p) (hw : s.Watched) :
    p.1.Watched ∧ p.2.rc ≠ .err .integrity := by
  cases h with
  | refused hrc hR =>
      refine ⟨hw.congr (by rw [hR.env]) (by rw [hR.env]) hR.mem hR.current hR.fars, ?_⟩
      rcases hrc with h | h <;> rw [h] <;> decide
  | armed hrc hcfg hpage hnear hc he =>
      exact ⟨watched_of_armed (hw.paged.congr hpage) hc he, hrc.1⟩

/-! ## Transfers -/

theorem leaveXfer_watched (h : s.Watched) : Returns State.Watched (leaveXfer s b) := by
  unfold leaveXfer
  split
  · exact (returns_tealet s _).bind fun r hr => h.record hr (.inr rfl)
  · exact (returns_tealet s _).bind fun r hr => returns_any.bind fun _ _ => h.record hr (.inr rfl)
  · exact True.intro
  · exact h

theorem stage_watched (h : s.Watched) :
    Returns (fun o => ∀ s₁, o = some s₁ → s₁.Watched) (xferStage s t flags isExit) := by
  refine (xferStage_state s t flags isExit).imp fun o ho s₁ hs => ?_
  obtain ⟨c, fl, gf, hc, rfl⟩ := ho s₁ hs
  have hrec : (s.setTealet s.gCurrent { c with flags := fl }).Watched := h.record hc (.inr rfl)
  exact hrec.congr rfl rfl rfl rfl (.refl _)

theorem xferInner_watched (h : s.Watched) :
    Returns (fun p => p.1.Watched ∧ p.2.rc ≠ .err .integrity)
    (xferInner s t arg flags isExit k sp) := by
  rcases xferInner_stage s t arg flags isExit k sp with
    ⟨s₁, hs, heq⟩ | ⟨-, p, rc, hrc, heq⟩ | ⟨f, heq⟩
  · rw [heq]
    have h₁ : s₁.Watched := (stage_watched h).result hs s₁ rfl
    refine (switchstack_watch h₁.agrees).bind fun p hp => ?_
    obtain ⟨hw, hrc⟩ := hp.watched h₁
    exact (leaveXfer_watched hw).bind fun s' hs' => ⟨hs', hrc⟩
  · rw [heq]
    refine ⟨h.congr rfl rfl rfl rfl (.refl s), ?_⟩
    rcases hrc with rfl | rfl | rfl <;> nofun
  · rw [heq]
    exact True.intro

theorem delete_watched (h : s.Watched) : Returns State.Watched (delete s t) := by
  unfold delete
  refine returns_any.bind fun _ _ => returns_any.bind fun r _ => returns_any.bind fun h' _ => ?_
  have hdrop : ({ s.lockAuto with
      heap := h'
      env := { s.lockAuto.env with gTealets := s.lockAuto.env.gTealets - 1 } } : State).Watched :=
    h.locked.congr rfl rfl rfl rfl (.refl _)
  exact State.Watched.unlocked (hdrop.congr rfl rfl rfl rfl (.free _ t))

/-- Returning to a start that is not left as a capture that failed. -/
theorem finish_watched (h : s.Watched) (hcap : b.frame.isCapture = true → ∀ e, b.rc ≠ .err e) :
    Returns (fun p => p.1.Watched) (finish s b) := by
  obtain ⟨fr, rc, x⟩ := b
  cases fr with
  | api => exact h.unlocked
  | switch g out => exact h.unlocked
  | exit g implicit =>
      cases implicit with
      | true => exact True.intro
      | false => exact returns_any.bind fun _ _ => h.unlocked
  | run result current previous fn arg sw out spawned =>
      simp only [finish]
      cases rc with
      | err e =>
          cases sw with
          | false => exact absurd rfl (hcap rfl e)
          | true =>
              have hfail : Returns State.Watched (failStart s result current true) :=
                (returns_tealet s result).bind fun r hr => h.record hr (.inl rfl)
              refine hfail.bind fun s₁ h₁ => ?_
              cases spawned with
              | false => exact h₁.unlocked
              | true => exact (delete_watched h₁.unlocked).bind fun s₂ h₂ => h₂
      | _ =>
          cases sw
          all_goals
            dsimp only
            split
            · exact returns_any.bind fun _ _ => returns_any.bind fun _ _ =>
                returns_any.bind fun _ _ => h.unlocked
            · exact State.Watched.unlocked (h.congr rfl rfl rfl rfl (.refl s))
  | fork child current previous sw out =>
      simp only [finish]
      cases rc with
      | err e =>
          cases sw with
          | false => exact absurd rfl (hcap rfl e)
          | true =>
              have hfail : Returns State.Watched (failStart s child current true) :=
                (returns_tealet s child).bind fun r hr => h.record hr (.inl rfl)
              exact hfail.bind fun s₁ h₁ => h₁.unlocked
      | _ =>
          dsimp only
          split
          · exact State.Watched.unlocked (h.congr rfl rfl rfl rfl (.refl s))
          · exact h.unlocked

/-- A capture that failed: the creator is current again, and what is armed
has to lie beyond its boundary. -/
theorem finish_capture_failed {creator : TealetId} {prev : Option TealetId}
    {spawned : Bool} {e : Err}
    {x : Option Ptr} (hk : StartFrame t creator prev false spawned k) (hp : s.env.Paged)
    (ha : s.env.data.Agrees s.mem)
    (hown : ∀ c, s.tealets creator = some c → s.env.data.Beyond c.stackFar) :
    Returns (fun p => p.1.Watched) (finish s ⟨k, .err e, x⟩) := by
  have hback : ({ s with gCurrent := creator } : State).Watched := ⟨hp, ha, hown⟩
  have hfail : Returns State.Watched (failStart s t creator false) :=
    (returns_tealet s t).bind fun r hr =>
      show ({ s with gCurrent := creator }.setTealet t {}).Watched from hback.record hr (.inl rfl)
  cases hk with
  | run fn arg out =>
      simp only [finish]
      refine hfail.bind fun s₁ h₁ => ?_
      cases spawned with
      | false => exact h₁.unlocked
      | true => exact (delete_watched h₁.unlocked).bind fun s₂ h₂ => h₂
  | fork out hs =>
      simp only [finish, reduceCtorEq, and_false, if_false]
      exact hfail.bind fun s₁ h₁ => h₁.unlocked

end Watched

/-! ## Starts -/

/-- The start of a child with the boundary `far` by `TEALET_START_DEFAULT`,
called at `sp`, is rejected, has the memory it takes, or plans nothing for
the child that is not beyond the creator's boundary. -/
def CapturePlanned (s : State) (far sp : Nat) : Prop :=
  callerRejected s.env far sp = true ∨
    (∀ l, s.heap.links.Rep l →
      Paid (l.countP (s.heap.uncovered (runningFar s)) + 1) s.heap.allocs) ∨
    (plannedData s.env.pageSize s.env.cfg far s.env.data).Beyond (runningFar s)

/-- The call returns `TEALET_ERR_INTEGRITY`. -/
def Outcome.Tampered (o : Outcome) : Prop := ∃ x cr, o = .returned (.err .integrity) x cr

section Starts

variable {leak : StackId → Nat} {s : State} {a : Saved} {t : TealetId} {c r : TealetSub} {k : Frame}
  {sp : Nat} {prev : Option TealetId} {sw spawned : Bool} {b : Back}

theorem finish_untampered (hb : b.rc ≠ .err .integrity) :
    Returns (fun p => ¬ p.2.Tampered) (finish s b) :=
  (finish_err s b .integrity).imp fun _ hp ⟨x, cr, ho⟩ => hb (hp x cr ho)

theorem Rewatched.untampered {p : State × Back} (h : Rewatched s sp p) :
    p.2.rc ≠ .err .integrity := by
  cases h with
  | refused hrc hR => rcases hrc with h | h <;> rw [h] <;> decide
  | armed hrc => exact hrc.1

theorem Begun.frame {cur : TealetId} {F far : Nat} {v : Growth → View} {p : State × Back}
    (h : Begun s a t cur r F far k sp v p) : p.2.frame = k := by
  cases h with
  | refused herr he hp => rw [hp]
  | nomem hg hfate hrep hb => rw [hb]
  | begun hsp hg hok hrep hb => rw [hb]

/-- With the memory for it a capture does not fail. -/
theorem Inv.capture_paid (I : Inv leak s a) {F : Nat}
    (hpaid : ∀ l, s.heap.links.Rep l → Paid (l.countP (s.heap.uncovered F) + 1) s.heap.allocs) :
    (chooseFate ((s.view a).growth none F true s.heap.allocs) {} true sp k).1 ≠ none := by
  obtain ⟨own, H⟩ := I.rep
  have h := hpaid a.prev H.list
  rw [H.uncovered_eq] at h
  obtain ⟨hf, halloc⟩ : ((s.view a).growth none F true s.heap.allocs).failed = false ∧
      Paid 1 ((s.view a).growth none F true s.heap.allocs).allocs :=
    (growList_paid (fun x hx => (I.core.listed x hx).imp fun _ h => ⟨h.1, h.2.1⟩)
      I.core.nodup 1).mpr h
  obtain ⟨hnext, -⟩ := paid_succ.mp halloc
  unfold chooseFate
  rw [if_neg (by rw [hf]; nofun), if_neg (by nofun)]
  generalize nextAlloc ((s.view a).growth none F true s.heap.allocs).allocs = q at hnext
  obtain ⟨ok, rest⟩ := q
  obtain rfl : ok = true := hnext
  nofun

theorem Inv.beginSwitch_watched (I : Inv leak s a) (hw : s.Watched)
    (hc : s.tealets s.gCurrent = some c) (hnew : s.tealets t = some {}) (hr : Child r)
    (hsp : sp < spFurthest) (hk : StartFrame t s.gCurrent prev sw spawned k)
    (hplan : sw = false → CapturePlanned s r.stackFar sp) :
    Returns (fun p => p.1.Watched)
      (beginSwitch s t r sw k sp >>= fun p => leaveXfer p.1 p.2 >>= fun s' => finish s' p.2) := by
  obtain ⟨htc, -⟩ := I.child_ne hnew
  have hleave : ∀ (s₁ : State) (b : Back), b.frame = k → leaveXfer s₁ b = .ok s₁ := by
    rintro s₁ ⟨fr, rc, x⟩ rfl
    exact hk.leave s₁ rc x
  unfold beginSwitch
  cases sw with
  | true =>
      have hw₁ : (s.begin t r s.gCurrent).Watched := hw.other htc r
      have hspec := I.start_spec (k := k) hc hnew hr hsp (External.mono fun _ _ => True.intro)
      refine (Sat.ite_true rfl (hspec.and (switchstack_watch hw₁.agrees))).bind ?_
      rintro ⟨s₁, b⟩ ⟨hbegun, hre⟩
      refine Sat.run (hleave s₁ b hbegun.frame) (finish_watched (hre.watched hw₁).1 fun hcap => ?_)
      rw [hbegun.frame, hk.isCapture] at hcap
      cases hcap
  | false =>
      have hspec := I.capture_spec (k := k) hc hnew hr hsp (External.mono fun _ _ => True.intro)
      have ha₁ : (s.begin t r t).env.data.Agrees (s.begin t r t).mem := hw.agrees
      refine (Sat.ite_false Bool.false_ne_true (hspec.and (switchstack_watch ha₁))).bind ?_
      rintro ⟨s₁, b⟩ ⟨hbegun, hre⟩
      refine Sat.run (hleave s₁ b hbegun.frame) ?_
      have hcreator : ∀ {s₂ : State}, s₂.tealets = Function.update s.tealets t (some r) →
          ∀ c', s₂.tealets s.gCurrent = some c' → c' = c := by
        intro s₂ htl c' hc'
        rw [htl, Function.update_of_ne htc.symm] at hc'
        exact Option.some.inj (hc'.symm.trans hc)
      cases hbegun with
      | @refused e err herr he hp =>
          obtain ⟨rfl, rfl⟩ := Prod.mk.inj hp
          cases hre with
          | armed hrc => rcases herr with rfl | rfl <;> simp at hrc
          | refused hrc hR =>
              have henv : e = s.env := hR.env
              subst henv
              refine finish_capture_failed hk hw.paged hw.agrees fun c' hc' => ?_
              rw [hcreator rfl c' hc']
              exact hw.own c hc
      | @nomem a' own' g hg hfate hrep hb hT ha hprev hflags he hview =>
          obtain rfl : b = _ := hb
          cases hre with
          | refused hrc => simp at hrc
          | @armed e c₁ spT hrc hcfg hpage hnear hc₁ hea =>
              have htl : s₁.tealets = Function.update s.tealets t (some r) :=
                congrArg View.tealets hview
              have hcur : s₁.gCurrent = t := congrArg View.current hview
              dsimp only at hc₁ hea
              rw [hcur, htl, Function.update_self] at hc₁
              obtain rfl := Option.some.inj hc₁
              have hpaged : e.Paged := hw.paged.congr hpage
              have hw₁ := watched_of_armed hpaged (by rw [hcur, htl, Function.update_self]) hea
              refine finish_capture_failed hk hw₁.paged hw₁.agrees fun c' hc' => ?_
              rw [hcreator htl c' hc']
              have hfar : runningFar s = c.stackFar := by simp [runningFar, hc]
              rcases hplan rfl with h | h | h
              · rw [show callerRejected s.env r.stackFar sp = _ from
                  hnear r (Function.update_self ..)] at h
                cases h
              · rw [hfar] at h
                exact absurd (hg ▸ hfate) (I.capture_paid h)
              · rw [hfar] at h
                refine IntegrityData.Beyond.part ?_ (armEnv_planned hea).1
                rw [hpage, hcfg]
                exact h.replan
      | begun hsp' hg hok hrep hb =>
          obtain rfl : b = _ := hb
          cases hre with
          | refused hrc => simp at hrc
          | armed hrc hcfg hpage hnear hc₁ hea =>
              exact finish_watched (watched_of_armed (hw.paged.congr hpage) hc₁ hea)
                fun _ _ h => by cases h

theorem beginSwitch_untampered (ha : s.env.data.Agrees s.mem) : Returns (fun p => ¬ p.2.Tampered)
    (beginSwitch s t r sw k sp >>= fun p => leaveXfer p.1 p.2 >>= fun s' => finish s' p.2) := by
  have hswitch : Returns (fun p => p.2.rc ≠ .err .integrity) (beginSwitch s t r sw k sp) := by
    unfold beginSwitch
    cases sw with
    | true =>
        exact Sat.ite_true rfl ((switchstack_watch (s := s.begin t r s.gCurrent) ha).imp
          fun _ h => h.untampered)
    | false =>
        exact Sat.ite_false Bool.false_ne_true ((switchstack_watch (s := s.begin t r t) ha).imp
          fun _ h => h.untampered)
  exact hswitch.bind fun p hp => returns_any.bind fun _ _ => finish_untampered hp

end Starts

/-! ## Calls -/

/-- A capture is planned, and the boundary of a main that runs is not moved
past what is watched. -/
def Call.Minds (s : State) : Call → Prop
  | .run t _ _ hint false site =>
      s.tealets t = some {} → CapturePlanned s (pickInitialFar site.far hint) site.sp
  | .spawn _ _ hint false site =>
      ∀ s₁ t, Tealet.new s = (s₁, some t) → CapturePlanned s₁ (pickInitialFar site.far hint) site.sp
  | .setFar t far => t = mainId → s.gCurrent = mainId → s.env.data.Beyond far
  | _ => True

section Calls

variable {leak : StackId → Nat} {s s₀ s₁ : State} {a : Saved} {t : TealetId}
  {q : Request} {cl : Call} {f : XFlags} {sw : Bool}

theorem CapturePlanned.locked {far sp : Nat} (h : CapturePlanned s far sp) :
    CapturePlanned s.lockAuto far sp := by
  obtain ⟨log, hlog⟩ := env_lockAuto s.env
  unfold CapturePlanned State.lockAuto
  rw [hlog]
  exact h

theorem Attempt.watched (h : Attempt s q s₁ t f) (hw : s.Watched) : s₁.Watched := by
  cases h with
  | first => exact hw
  | fallback hn hx hrc => exact ((xferInner_watched hw).result hx).1

theorem request_watched (hq : cl.request s = some (s₀, q)) (hw : s.Watched) : s₀.Watched := by
  obtain ⟨fl, ar, rfl, -⟩ := request_state hq
  exact hw.locked.congr rfl rfl rfl rfl (.refl _)

theorem Request.finish_back (q : Request) (p : State × Back) :
    ∃ b : Back, q.finish p = Tealet.finish p.1 b ∧
    b.rc = p.2.rc ∧ (b.frame = p.2.frame ∨ b.frame = q.frame) := by
  unfold Request.finish
  split
  · exact ⟨{ p.2 with frame := q.frame }, rfl, rfl, .inr rfl⟩
  · exact ⟨p.2, rfl, rfl, .inl rfl⟩

/-- A transferring call leaves the watch to the tealet it ends in. -/
theorem Inv.transfer_watched (I : Inv leak s a) (hw : s.Watched) (hL : cl.Legal s)
    (hP : PanicResumes False s cl) (hq : cl.request s = some (s₀, q)) :
    Returns (fun p => p.1.Watched) (callStep s cl) := by
  obtain ⟨I₀, -⟩ := I.withRequest hq
  obtain ⟨halive, hsp⟩ := request_legal hq hL
  obtain ⟨fl, ar, hs₀, -⟩ := request_state hq
  have halive₀ : Alive s₀ q.target := by
    rw [hs₀]
    exact halive
  have hk := request_frame hq
  obtain ⟨fn, cond, inst, -, -, heq⟩ := callStep_request hq
  rw [heq]
  refine returns_any.bind fun _ _ => returns_any.bind fun _ _ => returns_any.with_eq.bind ?_
  rintro ⟨s₂, b⟩ ⟨hatt, -⟩
  obtain ⟨s₁, t, f, ha, hx⟩ := Request.attempts_ok hatt
  obtain ⟨hw₂, -⟩ := (xferInner_watched (ha.watched (request_watched hq hw))).result hx
  obtain ⟨a₁, I₁, hk₁, hlive⟩ := ha.inv I₀ hsp hk halive₀
  obtain ⟨c, hc, -⟩ := I₁.sched.running
  obtain ⟨r, hr⟩ := Option.isSome_iff_exists.mp hlive
  have hrc : b.frame.isCapture = true → b.rc = .ok := by
    intro hcap
    rcases ((I₁.xferInner_returns hc hr hsp hk₁).result hx).returns I₁ hr hk₁ with
      hno | ⟨ht, hfr, hrc⟩
    · rw [hno] at hcap
      cases hcap
    · cases hp : f.panic with
      | false => rw [hrc, hp, if_neg Bool.false_ne_true]
      | true =>
          have hno := (hP s₁ t f q.isExit _ (.xfer hq ha) hp ht b.frame hfr).1
          rw [hno] at hcap
          cases hcap
  have hown : q.frame.isCapture = false := by
    unfold OwnFrame at hk
    split at hk <;> obtain ⟨_, hk⟩ := hk <;> rw [hk] <;> rfl
  obtain ⟨b', hfin, hrc', hfr'⟩ := q.finish_back (s₂, b)
  rw [hfin]
  refine finish_watched hw₂ fun hcap e he => ?_
  rcases hfr' with h | h
  · rw [h] at hcap
    rw [hrc', hrc hcap] at he
    cases he
  · rw [h, hown] at hcap
    cases hcap

theorem transfer_untampered (hw : s.Watched) (hq : cl.request s = some (s₀, q)) :
    Returns (fun p => ¬ p.2.Tampered) (callStep s cl) := by
  obtain ⟨fn, cond, inst, -, -, heq⟩ := callStep_request hq
  rw [heq]
  refine returns_any.bind fun _ _ => returns_any.bind fun _ _ => returns_any.with_eq.bind ?_
  rintro ⟨s₂, b⟩ ⟨hatt, -⟩
  obtain ⟨s₁, t, f, ha, hx⟩ := Request.attempts_ok hatt
  obtain ⟨-, hrc⟩ := (xferInner_watched (ha.watched (request_watched hq hw))).result hx
  obtain ⟨b', hfin, hrc', -⟩ := q.finish_back (s₂, b)
  rw [hfin]
  exact finish_untampered (hrc' ▸ hrc)

theorem Inv.run_watched (I : Inv leak s a) (hw : s.Watched) (halive : Alive s t) {fn : RunFn}
    {parg : Option Ptr} {hint : Nat} {spawned : Bool} {site : Site} (hsite : site.Inside s)
    (hhint : hint < spFurthest) :
    Returns (fun p => ¬ p.2.Tampered ∧ ((sw = false → s.tealets t = some {} →
        CapturePlanned s (pickInitialFar site.far hint) site.sp) → p.1.Watched))
      (run s t fn parg hint sw spawned site) := by
  obtain ⟨r, hr⟩ := Option.isSome_iff_exists.mp halive
  obtain ⟨c, hc, -⟩ := I.sched.running
  by_cases hf : r.flags = {}
  · obtain rfl := I.empty_of_new hr hf
    rw [run_eq I.gTarget hr]
    have hchild : Child (childRecord (pickInitialFar site.far hint) { bound := true }) :=
      child_childRecord (pickInitialFar_lt hsite.2.2 hhint) ⟨rfl, rfl, rfl⟩ rfl
    have hk : StartFrame t s.lockAuto.gCurrent s.gPrevious sw spawned
        (.run t s.gCurrent s.gPrevious fn (parg.getD null) sw parg.isSome spawned) := .run _ _ _
    refine returns_any.bind fun _ _ =>
      (beginSwitch_untampered (s := s.lockAuto) hw.locked.agrees).with_eq.imp fun p hp => ?_
    refine ⟨hp.2, fun hplan => ?_⟩
    refine (I.lockAuto.beginSwitch_watched hw.locked hc hr hchild
      (Nat.lt_of_le_of_lt hsite.1 hsite.2.2) hk fun hsw => (hplan hsw hr).locked).result hp.1
  · unfold run
    refine Sat.run (tealet_of hr) (Sat.ite_true hf ⟨?_, fun _ => hw⟩)
    rintro ⟨x, cr, h⟩
    cases h

theorem Inv.fork_watched (I : Inv leak s a) (hw : s.Watched) (halive : Alive s t)
    {parg : Option Ptr} {site : Site} (hsite : site.Inside s) :
    Returns (fun p => ¬ p.2.Tampered ∧ p.1.Watched) (fork s t parg sw site) := by
  obtain ⟨r, hr⟩ := Option.isSome_iff_exists.mp halive
  obtain ⟨c, hc, hact, hs⟩ := I.sched.running
  have hc : s.tealets s.gCurrent = some c := hc
  have hstay : ∀ e, e ≠ .integrity →
      Returns (fun p : State × Outcome => ¬ p.2.Tampered ∧ p.1.Watched)
      (.ok (s, .returned (.err e) none)) := by
    rintro e he
    refine ⟨?_, hw⟩
    rintro ⟨x, cr, h⟩
    cases h
    exact he rfl
  by_cases hf : r.flags = {}
  · obtain rfl := I.empty_of_new hr hf
    by_cases hfar : c.stackFar = spFurthest
    · unfold fork
      refine returns_any.bind fun _ _ => Sat.run (tealet_of hr) (Sat.ite_false (by simp) ?_)
      exact Sat.run (tealet_of hc) (Sat.ite_true hfar (hstay _ (by decide)))
    · rw [fork_eq hr hc hs hfar]
      have hlt : c.stackFar < spFurthest :=
        Nat.lt_of_le_of_ne (I.core.record _ c hc).far_le hfar
      have hchild : Child (childRecord c.stackFar
          { bound := true, fork := true, mainLineage := c.flags.mainLineage }) :=
        child_childRecord hlt ⟨rfl, rfl, rfl⟩ rfl
      have hk : StartFrame t s.lockAuto.gCurrent s.gPrevious sw false
          (.fork t s.gCurrent s.gPrevious sw parg.isSome) := .fork _ rfl
      refine returns_any.bind fun _ _ =>
        (beginSwitch_untampered (s := s.lockAuto) hw.locked.agrees).with_eq.imp
          fun p hp => ⟨hp.2, ?_⟩
      refine (I.lockAuto.beginSwitch_watched hw.locked hc hr hchild
        (Nat.lt_of_le_of_lt hsite.1 hsite.2.2) hk fun _ => .inr (.inr ?_)).result hp.1
      -- the child has its creator's boundary
      have hrun : runningFar s.lockAuto = c.stackFar := by simp [runningFar, State.lockAuto, hc]
      rw [hrun]
      exact plannedData_beyond hw.locked.paged
  · unfold fork
    exact returns_any.bind fun _ _ => Sat.run (tealet_of hr) (Sat.ite_true hf (hstay _ (by decide)))

theorem alloc_watched (I : Inv leak s a) (hw : s.Watched) : (alloc s).1.Watched := by
  obtain ⟨c, hc, -⟩ := I.sched.running
  have hne : s.gCurrent ≠ s.nextTealet := Nat.ne_of_lt (I.core.lt_nextTealet hc)
  unfold alloc
  rcases s.heap.malloc with ⟨_ | _, h⟩
  · exact hw.congr rfl rfl rfl rfl (.refl _)
  · exact (hw.other hne.symm {}).congr rfl rfl rfl rfl (.refl _)

theorem new_watched (I : Inv leak s a) (hw : s.Watched) : (new s).1.Watched :=
  (alloc_watched I.lockAuto hw.locked).unlocked

theorem duplicate_watched (I : Inv leak s a) (hw : s.Watched) :
    Returns (fun p => p.1.Watched) (duplicate s t) := by
  obtain ⟨c, hc, -⟩ := I.sched.running
  have hne : s.gCurrent ≠ s.nextTealet := Nat.ne_of_lt (I.core.lt_nextTealet hc)
  have hw₁ := alloc_watched I.lockAuto hw.locked
  have hspec := alloc_spec (a := a) s.lockAuto
  unfold duplicate
  refine returns_any.bind fun _ _ => ?_
  rcases halloc : alloc s.lockAuto with ⟨s₁, _ | u⟩ <;> rw [halloc] at hw₁ hspec
  · exact hw₁.unlocked
  · obtain ⟨hcur, hu⟩ : s₁.gCurrent = s.gCurrent ∧ u = s.nextTealet := by
      cases hspec with
      | some hal hs => exact ⟨by rw [hs]; rfl, rfl⟩
    have hother : u ≠ s₁.gCurrent := by
      rw [hcur, hu]
      exact hne.symm
    refine returns_any.bind fun r _ => ?_
    cases r.stack with
    | none => exact (hw₁.other hother _).unlocked
    | some k =>
        refine returns_any.bind fun h' _ => ?_
        have hheap : ({ s₁ with heap := h' } : State).Watched := hw₁.congr rfl rfl rfl rfl (.refl _)
        exact (hheap.other hother _).unlocked

theorem status_watched (hw : s.Watched) : Returns (fun p => p.1.Watched) (status s t) := by
  unfold status
  refine returns_any.bind fun r _ => ?_
  split
  · exact hw
  · split
    · exact hw
    · refine (isDefunct_refusal s t).bind fun p hp => ?_
      have hR := hp.1
      exact hw.congr (by rw [hR.env]) (by rw [hR.env]) hR.mem hR.current hR.fars

theorem setFar_watched (hw : s.Watched) {far : Nat} :
    Returns (fun p => (p.2 = .ok ∨ p.2 = .err .inval) ∧
        ((t = mainId → s.gCurrent = mainId → s.env.data.Beyond far) → p.1.Watched))
      (setFar s t far) := by
  unfold setFar
  refine returns_any.bind fun r _ => ?_
  by_cases ht : t ≠ mainId
  · exact Sat.ite_true ht ⟨.inr rfl, fun _ => hw⟩
  refine Sat.ite_false ht ⟨.inl rfl, fun hfar => ?_⟩
  have ht : t = mainId := not_not.mp ht
  by_cases hcur : t = s.gCurrent
  · refine ⟨hw.paged, hw.agrees, fun c hc => ?_⟩
    have hc : Function.update s.tealets t (some { r with stackFar := far }) s.gCurrent = some c :=
      hc
    rw [← hcur, Function.update_self] at hc
    obtain rfl := Option.some.inj hc
    exact hfar ht (hcur.symm.trans ht)
  · exact hw.other hcur _

/-- A larger space for snapshots drops the one there is. -/
theorem configureSet_watched (hw : s.Watched) (request : Config) :
    (configureSet s request).1.Watched ∧
    ((configureSet s request).2 = .ok ∨ (configureSet s request).2 = .err .mem) := by
  unfold configureSet
  dsimp only
  split
  all_goals
    rename_i e heq
    unfold snapshotEnsureCapacity at heq
  · split at heq
    · cases heq
      exact ⟨hw.congr rfl rfl rfl rfl (.refl _), .inl rfl⟩
    · split at heq <;> cases heq
      refine ⟨⟨hw.paged, fun h => absurd rfl h, fun c hc => ?_⟩, .inl rfl⟩
      refine (hw.own c hc).part ⟨fun h => .inr (h.resolve_left fun h => h rfl), fun x hx => ?_,
        fun _ h => h⟩
      obtain ⟨h₁, h₂⟩ := hx
      dsimp only at h₁ h₂
      omega
  · split at heq
    · cases heq
    · split at heq <;> cases heq
      exact ⟨hw.congr rfl rfl rfl rfl (.refl _), .inr rfl⟩

/-- From a state with the watch of the running tealet no call finds its
stack changed, and the calls that mind the watch leave it so. -/
theorem Inv.callStep_watched (I : Inv leak s a) (hw : s.Watched) (hL : cl.Legal s) :
    Returns (fun p => ¬ p.2.Tampered ∧ (PanicResumes False s cl → cl.Minds s → p.1.Watched))
      (callStep s cl) := by
  have hreq : ∀ s₀ q, cl.request s = some (s₀, q) → Returns (fun p => ¬ p.2.Tampered ∧
      (PanicResumes False s cl → cl.Minds s → p.1.Watched)) (callStep s cl) := by
    intro s₀ q hq
    refine (transfer_untampered hw hq).with_eq.imp fun p hp => ⟨hp.2, fun hP _ => ?_⟩
    exact (I.transfer_watched hw hL hP hq).result hp.1
  have hstay : ∀ {s' : State} {o : Outcome}, s'.Watched → (∀ rc x cr, o = .returned rc x cr →
      rc ≠ .err .integrity) → Returns (fun p => ¬ p.2.Tampered ∧
        (PanicResumes False s cl → cl.Minds s → p.1.Watched)) (.ok (s', o)) := by
    intro s' o hw' ho
    refine ⟨?_, fun _ _ => hw'⟩
    rintro ⟨x, cr, rfl⟩
    exact ho _ x cr rfl rfl
  cases cl with
  | new => exact hstay (new_watched I hw) fun rc x cr h => by cases h
  | run t fn parg hint sw site =>
      refine (I.run_watched hw hL.1 hL.2.1 hL.2.2).imp fun p hp => ⟨hp.1, fun _ hm => hp.2 ?_⟩
      rintro rfl
      exact hm
  | spawn fn parg hint sw site =>
      have hends : Ends (fun _ _ => True) True (s.view a) (new s).1 a := new_ends I
      obtain ⟨leak', I', -⟩ := hends.inv I
      have hspec := new_spec s a
      have hw' := new_watched I hw
      show Returns _ (spawn s fn parg hint sw site)
      unfold spawn
      rcases hnew : new s with ⟨s₁, _ | t⟩ <;> rw [hnew] at I' hspec hw'
      · exact hstay hw' (by rintro rc x cr h; cases h; decide)
      · cases hspec with
        | some hal hv hal' =>
            have htl : s₁.tealets = Function.update s.tealets s.nextTealet (some {}) :=
              congrArg View.tealets hv
            have hcur : s₁.gCurrent = s.gCurrent := congrArg View.current hv
            obtain ⟨c, hc, -⟩ := I.sched.running
            have hne : s.gCurrent ≠ s.nextTealet := Nat.ne_of_lt (I.core.lt_nextTealet hc)
            have hfar : runningFar s₁ = runningFar s := by
              simp only [runningFar, hcur, htl, Function.update_of_ne hne]
            have halive : Alive s₁ s.nextTealet := by simp [Alive, htl]
            have hsite : site.Inside s₁ := ⟨hL.1.1, hfar ▸ hL.1.2.1, hL.1.2.2⟩
            refine (I'.run_watched hw' halive hsite hL.2).imp fun p hp =>
              ⟨hp.1, fun _ hm => hp.2 ?_⟩
            rintro rfl -
            exact hm _ _ hnew
  | fork t parg sw site =>
      exact (I.fork_watched hw hL.1 hL.2).imp fun p hp => ⟨hp.1, fun _ _ => hp.2⟩
  | switch t parg flags sp => exact hreq _ _ rfl
  | exit t arg flags sp =>
      cases hd : flags.defer with
      | false => exact hreq _ _ (if_neg (by simp [hd]))
      | true =>
          show Returns _ (exit s t arg flags false sp)
          unfold exit
          refine returns_any.bind fun _ _ => returns_any.bind fun _ _ => Sat.ite_true hd ?_
          refine returns_any.bind fun _ _ => hstay ?_ (by rintro rc x cr h; cases h; decide)
          exact State.Watched.unlocked (hw.locked.congr rfl rfl rfl rfl (.refl _))
  | ret p sp =>
      cases p with
      | none => exact True.intro
      | some t => exact hreq _ _ rfl
  | duplicate t =>
      exact (duplicate_watched I hw).bind fun p hp => hstay hp fun rc x cr h => by cases h
  | delete t =>
      exact (delete_watched hw).bind fun s' hs' => hstay hs' (by rintro rc x cr h; cases h; decide)
  | status t =>
      exact (status_watched hw).bind fun p hp => hstay hp (by rintro rc x cr h; cases h; decide)
  | setFar t far =>
      refine (setFar_watched hw).bind fun p hp => ⟨?_, fun _ hm => hp.2 hm⟩
      rintro ⟨x, cr, h⟩
      obtain ⟨h, -, -⟩ := Outcome.returned.inj h
      rcases hp.1 with h' | h' <;> rw [h] at h' <;> cases h'
  | configure request =>
      obtain ⟨hw', hrc⟩ := configureSet_watched hw request
      have heq : callStep s (.configure request) =
          .ok ((configureSet s request).1, .returned (configureSet s request).2 none) := rfl
      rw [heq]
      refine hstay hw' fun rc x cr h => ?_
      obtain ⟨rfl, -, -⟩ := Outcome.returned.inj h
      rcases hrc with h | h <;> rw [h] <;> decide

end Calls

/-! ## Runs -/

/-- A call minds the watch. -/
def Event.Minds (s : State) : Event → Prop
  | .write _ => True
  | .call c allocs mprotects => c.Minds (s.withChoices allocs mprotects)

/-- The steps of runs in which every call minds the watch. -/
def Watchful (s : State) (e : Event) : Prop := NoPanicCapture s e ∧ e.Minds s

theorem State.Watched.write {s : State} (hw : s.Watched) {m : Memory}
    (hm : ∀ x, runningFar s ≤ x → m x = s.mem x) (hrun : Alive s s.gCurrent) :
    ({ s with mem := m } : State).Watched := by
  obtain ⟨c, hc⟩ := Option.isSome_iff_exists.mp hrun
  have hfar : runningFar s = c.stackFar := by simp [runningFar, hc]
  rw [hfar] at hm
  exact ⟨hw.paged, (hw.own c hc).write hw.agrees hm, hw.own⟩

theorem Env.Fresh.watched {mem : Memory} {env : Env} (henv : env.Fresh) (hpage : env.Paged) :
    (initial mem env).Watched := by
  have hdata : (initial mem env).env.data = {} := henv.data
  refine ⟨hpage, ?_, fun c _ => ?_⟩
  · rw [hdata]
    exact fun h => absurd rfl h
  · rw [hdata]
    refine ⟨fun h => (h.elim (absurd rfl) (absurd rfl)), ?_⟩
    rintro x (⟨-, h⟩ | ⟨-, h⟩) <;> exact absurd h (Nat.not_lt_zero x)

section Steps

variable {leak : StackId → Nat} {s s' : State} {a : Saved} {e : Event} {o : Outcome}

theorem State.Watched.withChoices (hw : s.Watched) (allocs : List Bool)
    (mprotects : List (Option (Nat → Bool))) : (s.withChoices allocs mprotects).Watched :=
  hw.congr rfl rfl rfl rfl (.refl _)

theorem Legal.withChoices {c : Call} {allocs : List Bool} {mprotects : List (Option (Nat → Bool))}
    (hL : Legal s (.call c allocs mprotects)) : c.Legal (s.withChoices allocs mprotects) := by
  cases c <;> exact hL

theorem Inv.step_watched (I : Inv leak s a) (hw : s.Watched) (hL : Legal s e)
    (hs : step s e = .ok (s', o)) :
    ¬ o.Tampered ∧ (e.PanicResumes False s → e.Minds s → s'.Watched) := by
  cases e with
  | write m =>
      cases hs
      obtain ⟨c, hc, -⟩ := I.sched.running
      refine ⟨?_, fun _ _ => hw.write hL (Option.isSome_iff_exists.mpr ⟨c, hc⟩)⟩
      rintro ⟨x, cr, h⟩
      cases h
  | call c allocs mprotects =>
      obtain ⟨ho, hw'⟩ := ((I.withChoices allocs mprotects).callStep_watched
        (hw.withChoices allocs mprotects) hL.withChoices).result hs
      exact ⟨ho, hw'⟩

end Steps

/-- The watch is that of the running tealet in every state of such a run. -/
theorem Run.watched {mem : Memory} {env : Env} {s : State} (henv : env.Fresh) (hpage : env.Paged)
    (h : Run Watchful (initial mem env) s) : (∃ leak a, Inv leak s a) ∧ s.Watched := by
  induction h with
  | refl => exact ⟨⟨_, _, inv_initial mem env⟩, henv.watched hpage⟩
  | tail _ he hs ih =>
      obtain ⟨⟨leak, a, I⟩, hw⟩ := ih
      obtain ⟨⟨hL, hP⟩, hm⟩ := he
      obtain ⟨leak', a', hstep⟩ :=
        (step_spec False (E := fun _ => True) I hL (fun _ _ => True.intro) hP
          (.inl True.intro)).result hs
      exact ⟨⟨leak', a', hstep.inv⟩, (I.step_watched hw hL hs).2 hP hm⟩

theorem new_agrees {s : State} (ha : s.env.data.Agrees s.mem) :
    (new s).1.env.data.Agrees (new s).1.mem := by
  unfold new alloc
  rcases s.lockAuto.heap.malloc with ⟨_ | _, h⟩
  · show (s.env.lockAuto.unlockAuto.data).Agrees s.mem
    rw [(unlockAuto_data _).1, lockAuto_data]
    exact ha
  · show IntegrityData.Agrees (Env.unlockAuto _).data s.mem
    rw [(unlockAuto_data _).1]
    show s.env.lockAuto.data.Agrees s.mem
    rw [lockAuto_data]
    exact ha

/-- Whatever calls `tealet_switchstack` finds the snapshot unchanged. -/
theorem Switches.passes {s : State} {c : Call} {w : Switching} (hw : s.Watched)
    (h : Switches s c w) :
    Returns (fun p => p.2 = none)
      (guardUnprotectCurrent w.state.env >>= fun e => snapshotVerifyCurrent e w.state.mem) := by
  have hstart :
      ∀ {s₁ : State} {t : TealetId} {r : TealetSub} {sw : Bool}, s₁.env.data.Agrees s₁.mem →
      (startStage s₁ t r sw).env.data.Agrees (startStage s₁ t r sw).mem := by
    intro s₁ t r sw ha
    rw [startStage_data]
    cases sw <;> exact ha
  refine IntegrityData.Agrees.passes ?_
  cases h with
  | xfer hq ha hs =>
      exact ((stage_watched (ha.watched (request_watched hq hw))).result hs _ rfl).agrees
  | run ht => exact hstart hw.agrees
  | @spawn s₁ t fn parg hint sw site hnew ht =>
      refine hstart ?_
      have hagrees := new_agrees hw.agrees
      rw [hnew] at hagrees
      exact hagrees
  | fork ht hc hfar => exact hstart hw.agrees

/-- In every state of a run in which captures that lack memory plan nothing
of their creator's stack, and the boundary of main is not moved past its own
watch, what is watched lies at or beyond the boundary of the tealet that
runs. No call then finds its stack changed. -/
theorem watch_is_own {mem : Memory} {env : Env} {s : State} (henv : env.Fresh) (hpage : env.Paged)
    (h : Run Watchful (initial mem env) s) :
    (∃ r, s.tealets s.live = some r ∧ s.env.data.Beyond r.stackFar) ∧
    (∀ e s' o, Legal s e → step s e = .ok (s', o) → ¬ o.Tampered) ∧
    (∀ c allocs mprotects w, Switches (s.withChoices allocs mprotects) c w →
      Returns (fun p => p.2 = none)
        (guardUnprotectCurrent w.state.env >>= fun e => snapshotVerifyCurrent e w.state.mem)) := by
  obtain ⟨⟨leak, a, I⟩, hw⟩ := h.watched henv hpage
  obtain ⟨c, hc, -⟩ := I.sched.running
  refine ⟨⟨c, ?_, hw.own c hc⟩, fun e s' o hL hs => (I.step_watched hw hL hs).1, ?_⟩
  · have hlive : s.live = s.gCurrent := I.sched.live
    rw [hlive]
    exact hc
  · intro c allocs mprotects w h
    exact h.passes (hw.withChoices allocs mprotects)

/-- Whether a call minds the watch because it is no capture and moves no boundary. -/
def Event.plain : Event → Bool
  | .write _ => true
  | .call c _ _ =>
      match c with
      | .run _ _ _ _ false _ | .spawn _ _ _ false _ | .setFar _ _ => false
      | _ => true

theorem Event.plain_spec {s : State} {e : Event} (h : e.plain = true) : e.Minds s := by
  cases e with
  | write m => exact True.intro
  | call c allocs mprotects =>
      cases c with
      | run t fn parg hint sw site =>
          cases sw with
          | true => exact True.intro
          | false => cases h
      | spawn fn parg hint sw site =>
          cases sw with
          | true => exact True.intro
          | false => cases h
      | setFar t far => cases h
      | _ => exact True.intro

/-- Main starts a tealet, whose stack is watched from its boundary on. -/
theorem watch_is_own_started : ∃ s, Run Watchful (initial (fun _ => 0) {}) s ∧ s.live = 1 ∧
    s.env.data.snapshotBytes = 16 ∧ ∃ r, s.tealets s.live = some r ∧
    s.env.data.Beyond r.stackFar := by
  obtain ⟨s, hrun, hs⟩ := exists_run_of_trace (P := Watchful)
    (p := fun s e => e.legal s && e.panicResumes s && e.plain)
    (fun s e h => by
      obtain ⟨h, h₃⟩ := Bool.and_eq_true_iff.mp h
      obtain ⟨h₁, h₂⟩ := Bool.and_eq_true_iff.mp h
      exact ⟨⟨Event.legal_spec h₁, Event.panicResumes_spec h₂⟩, Event.plain_spec h₃⟩)
    [.call (.configure { integrity := true, snapshot := true, stackIntegrityBytes := 16 }) [] [],
      .call .new [] [], .call (.run 1 7 none null true ⟨1000, 990⟩) [] []]
    (s := initial (fun _ => 0) {})
    (fun s => decide (s.live = 1) && decide (s.env.data.snapshotBytes = 16)) (by decide +kernel)
  obtain ⟨hlive, hbytes⟩ := Bool.and_eq_true_iff.mp hs
  exact ⟨s, hrun, of_decide_eq_true hlive, of_decide_eq_true hbytes,
    (watch_is_own ⟨rfl, rfl⟩ (.inr ⟨12, by decide, rfl⟩) hrun).1⟩

/-- Main, whose stack has no boundary, captures a tealet and the save fails:
the tealet's stack is watched, which is main's own. Main writes to it, and
its next call finds its stack changed. -/
theorem watch_is_foreign : ∃ s m s' o, Run NoPanicCapture (initial (fun _ => 0) {}) s ∧
    ¬ (∃ r, s.tealets s.live = some r ∧ s.env.data.Beyond r.stackFar) ∧
    Legal s (.write m) ∧
    Legal { s with mem := m } (.call (.run 1 7 none null true ⟨1000, 990⟩) [] []) ∧
    step { s with mem := m } (.call (.run 1 7 none null true ⟨1000, 990⟩) [] []) = .ok (s', o) ∧
    o.Tampered := by
  obtain ⟨s, hrun, hs⟩ := exists_run_of_trace (P := NoPanicCapture)
    (p := fun s e => e.legal s && e.panicResumes s)
    (fun s e h => by
      obtain ⟨h₁, h₂⟩ := Bool.and_eq_true_iff.mp h
      exact ⟨Event.legal_spec h₁, Event.panicResumes_spec h₂⟩)
    [.call (.configure { integrity := true, snapshot := true, stackIntegrityBytes := 16
                         stackIntegrityFailPolicy := 1 }) [] [],
      .call .new [] [], .call (.run 1 7 none null false ⟨1000, 990⟩) [false] []]
    (s := initial (fun _ => 0) {})
    (fun s => decide ((s.tealets s.live).map TealetSub.stackFar = some spFurthest) &&
      decide (s.live = s.gCurrent) && decide (s.env.data.snapshotBytes = 16) &&
      Event.legal { s with mem := fun x => if x = 1005 then 1 else s.mem x }
        (.call (.run 1 7 none null true ⟨1000, 990⟩) [] []) &&
      endsIn (step { s with mem := fun x => if x = 1005 then 1 else s.mem x }
        (.call (.run 1 7 none null true ⟨1000, 990⟩) [] []))
        fun p => decide (p.2 = .returned (.err .integrity) none)) (by decide +kernel)
  simp only [Bool.and_eq_true, decide_eq_true_eq] at hs
  obtain ⟨⟨⟨⟨hfar, hcur⟩, hbytes⟩, hlegal⟩, hstep⟩ := hs
  have hrunning : runningFar s = spFurthest := by
    rw [runningFar, ← hcur, hfar]
    rfl
  obtain ⟨⟨s', o⟩, heq, ho⟩ := endsIn_spec hstep
  refine ⟨s, _, s', o, hrun, ?_, fun x hx => if_neg ?_, Event.legal_spec hlegal, heq,
    none, none, of_decide_eq_true ho⟩
  · rintro ⟨r, hr, hbeyond⟩
    rw [hr] at hfar
    exact hbeyond.bounded (.inl (by rw [hbytes]; decide)) (Option.some.inj hfar)
  · rintro rfl
    rw [hrunning] at hx
    exact absurd hx (by decide)

end Tealet
