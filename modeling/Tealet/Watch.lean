import Tealet.Calls
import Tealet.Passes
import Tealet.Lib.Align

/-!
# Arming the watch

With the space for snapshots reserved that the configuration asks for,
arming the watch of a tealet whose watched bytes do not wrap around the
address space succeeds, and what was armed verifies as long as memory is
what it was. Every call keeps the configuration, or sets one together with
the space it asks for.
-/

namespace Tealet

open Slice Hoare Align

/-- The page size is unknown or a power of two, and the space for snapshots is reserved. -/
structure Env.Ready (e : Env) : Prop where
  pages : e.pageSize = 0 ∨ ∃ p < 64, e.pageSize = 2 ^ p
  reserved : snapshotRequiredCapacity e.pageSize e.cfg ≤ e.data.snapshotCapacity

/-- The watched bytes at `far` lie below the end of the address space. -/
def Env.Fits (e : Env) (far : Nat) : Prop := far + plannedBytes e.cfg far < wordMod

theorem Env.Ready.congr {e e' : Env} (h : e.Ready) (hs : e.SameConfig e') : e'.Ready :=
  ⟨hs.pageSize ▸ h.pages, by rw [hs.pageSize, hs.cfg, hs.capacity]; exact h.reserved⟩

theorem Env.Fits.congr {e e' : Env} {far : Nat} (h : e.Fits far) (hs : e.SameConfig e') :
    e'.Fits far := by
  unfold Env.Fits
  rw [hs.cfg]
  exact h

theorem of_require {f : Fn} {p : Prop} [Decidable p] {u : Unit} (h : require f p = .ok u) : p := by
  unfold require at h
  split at h
  · assumption
  · cases h

section Plan

variable {e : Env} {far : Nat}

/-- What a plan has to satisfy to be armed. -/
structure Armable (far : Nat) (d : IntegrityData) : Prop where
  base : d.snapshotBytes ≠ 0 → d.stackBase = far ∧ far ≠ spFurthest
  space : d.snapshotBytes ≤ d.snapshotCapacity
  guard : d.guardBytes ≠ 0 → d.guardBase ≠ 0

theorem plannedBytes_le (c : Config) (far : Nat) : plannedBytes c far ≤ c.stackIntegrityBytes := by
  unfold plannedBytes
  split
  · exact Nat.zero_le _
  · split
    · exact Nat.le_refl _
    · split
      · exact Nat.zero_le _
      · exact Nat.min_le_left _ _

theorem integrityPlan_ready (hr : e.Ready) (hf : e.Fits far) (hfar : far ≠ 0) :
    ∃ d, integrityPlan e.pageSize e.cfg far e.data = .ok d ∧ Armable far d := by
  have hle := plannedBytes_le e.cfg far
  unfold Env.Fits at hf
  unfold integrityPlan
  dsimp only
  generalize hn : plannedBytes e.cfg far = n at *
  by_cases h0 : n = 0
  · rw [if_pos h0]
    exact ⟨_, rfl, ⟨fun h => absurd rfl h, Nat.zero_le _, fun h => absurd rfl h⟩⟩
  rw [if_neg h0]
  have hfin : far ≠ spFurthest := by
    rintro rfl
    rw [plannedBytes, if_pos (.inl rfl)] at hn
    exact h0 hn.symm
  have hstop : (far + n) % wordMod = far + n := Nat.mod_eq_of_lt hf
  rw [hstop]
  -- the snapshot part of any plan that fits
  have hdone : ∀ p : IntegrityData × Nat, (p.1.stackBase = far ∧ p.1.snapshotBytes = 0 ∧
      p.2 ≤ p.1.snapshotCapacity ∧ (p.1.guardBytes ≠ 0 → p.1.guardBase ≠ 0)) →
      ∃ d', (if p.2 ≠ 0 then do
          require .integrityPlan (p.2 ≤ p.1.snapshotCapacity)
          return { p.1 with snapshotBytes := p.2 }
        else return p.1 : Res IntegrityData) = .ok d' ∧ Armable far d' := by
    rintro ⟨d, b⟩ ⟨hbase, hzero, hb, hguard⟩
    dsimp only at *
    by_cases hb0 : b = 0
    · exact ⟨d, if_neg (by simpa using hb0), ⟨fun h => absurd hzero h, by omega, hguard⟩⟩
    · refine ⟨{ d with snapshotBytes := b }, ?_, ⟨fun _ => ⟨hbase, hfin⟩, hb, hguard⟩⟩
      rw [if_pos hb0, require_of hb]
      rfl
  have hsnap : e.cfg.guard = false ∨ ¬ 1 < e.pageSize →
      (if e.cfg.snapshot then n else 0) ≤ e.data.snapshotCapacity := by
    intro hor
    have hres := hr.reserved
    unfold snapshotRequiredCapacity at hres
    split
    · rename_i hs
      have hno : ¬ (e.cfg.snapshot = true ∧ e.cfg.guard = true ∧ 1 < e.pageSize) := by
        rintro ⟨-, hg, hp⟩
        rcases hor with h | h
        · rw [hg] at h
          cases h
        · exact h hp
      rw [if_neg hno, if_pos hs] at hres
      omega
    · exact Nat.zero_le _
  by_cases hg : e.cfg.guard = true ∧ e.pageSize ≠ 0 ∧ far < far + n
  · rw [if_pos hg]
    obtain ⟨hguard, hps, -⟩ := hg
    obtain ⟨p, hp, hpage⟩ := hr.pages.resolve_left hps
    have hbegin : alignUp e.pageSize far = 0 ∧ 2 ^ 64 ≤ far + (2 ^ p - 1) ∨
        far ≤ alignUp e.pageSize far ∧ alignUp e.pageSize far ≤ far + (2 ^ p - 1) := by
      rw [hpage]
      by_cases hw : far + (2 ^ p - 1) < 2 ^ 64
      · exact .inr (roundUp_bounds (Nat.le_of_lt hp) hw)
      · refine .inl ⟨roundUp_wrap (Nat.le_of_lt hp) ?_ (Nat.le_of_not_lt hw), Nat.le_of_not_lt hw⟩
        exact Nat.lt_of_le_of_lt (Nat.le_add_right far n) hf
    have hspace : (if (if e.cfg.snapshot then n else 0) ≠ 0 then
        min (if e.cfg.snapshot then n else 0)
          ((alignUp e.pageSize far + wordMod - far) % wordMod)
        else (if e.cfg.snapshot then n else 0)) ≤ e.data.snapshotCapacity := by
      have hword : wordMod = 2 ^ 64 := rfl
      have hlt : far < 2 ^ 64 := Nat.lt_of_le_of_lt (Nat.le_add_right far n) hf
      have hgap : (alignUp e.pageSize far + wordMod - far) % wordMod ≤ e.pageSize - 1 := by
        rw [hpage] at hbegin ⊢
        rcases hbegin with ⟨h₁, h₂⟩ | ⟨h₁, h₂⟩
        · refine (Nat.mod_le _ _).trans ?_
          omega
        · rw [show alignUp (2 ^ p) far + wordMod - far = (alignUp (2 ^ p) far - far) + wordMod by
            omega, Nat.add_mod_right]
          refine (Nat.mod_le _ _).trans ?_
          omega
      have hres := hr.reserved
      unfold snapshotRequiredCapacity at hres
      by_cases hs : e.cfg.snapshot = true
      · by_cases h1 : 1 < e.pageSize
        · rw [if_pos ⟨hs, hguard, h1⟩, if_pos hs] at hres
          rw [if_pos hs, if_pos h0]
          omega
        · rw [if_neg fun h => h1 h.2.2, if_pos hs] at hres
          rw [if_pos hs, if_pos h0]
          omega
      · simp [hs]
    have hguardBase : ∀ stop, alignUp e.pageSize far < stop →
        (if far + n ≤ alignUp e.pageSize far then alignUp e.pageSize far
          else alignUp e.pageSize (far + n)) = stop → alignUp e.pageSize far ≠ 0 := by
      rintro stop hlt rfl h
      rcases hbegin with ⟨-, h₂⟩ | ⟨h₁, -⟩
      · rw [h] at hlt
        split at hlt
        · omega
        · rw [hpage, alignUp, show wordMod = 2 ^ 64 from rfl,
            roundUp_wrap (Nat.le_of_lt hp) hf (by omega)] at hlt
          omega
      · omega
    refine hdone _ ?_
    by_cases hlt : alignUp e.pageSize far <
        (if far + n ≤ alignUp e.pageSize far then alignUp e.pageSize far
          else alignUp e.pageSize (far + n))
    · rw [if_pos hlt]
      exact ⟨rfl, rfl, hspace, fun _ => hguardBase _ hlt rfl⟩
    · rw [if_neg hlt]
      exact ⟨rfl, rfl, hspace, fun h => absurd rfl h⟩
  · rw [if_neg hg]
    refine hdone (_, _) ⟨rfl, rfl, hsnap ?_, fun h => absurd rfl h⟩
    by_cases hguard : e.cfg.guard = true
    · refine .inr fun hps => hg ⟨hguard, by omega, by omega⟩
    · exact .inl (by simpa using hguard)

theorem verifyRecord_ok {c : TealetSub} {sp : Nat} (hx : c.flags.exited = false)
    (hsp : sp < c.stackFar) : verifyRecord c sp = .ok () := by
  unfold verifyRecord
  rw [require_of hx, ok_bind]
  split
  · rfl
  · rw [require_of (Nat.ne_of_gt (Nat.lt_of_le_of_lt (Nat.zero_le sp) hsp)), ok_bind,
      require_of hsp]

/-- The watch of a tealet on its own stack can be armed. -/
theorem armEnv_ready {m : Memory} {c : TealetSub} {sp : Nat} (hx : c.flags.exited = false)
    (hsp : sp < c.stackFar) (hr : e.Ready) (hf : e.Fits c.stackFar) :
    ∃ e', armEnv e m c sp = .ok e' := by
  have hfar : c.stackFar ≠ 0 := Nat.ne_of_gt (Nat.lt_of_le_of_lt (Nat.zero_le sp) hsp)
  obtain ⟨d, hd, ha⟩ := integrityPlan_ready hr hf hfar
  simp only [armEnv, verifyRecord_ok hx hsp, hd, ok_bind]
  have hcap : ∃ b, snapshotCaptureCurrent { e with data := d } m c.stackFar =
      .ok { e with data := { d with snapshotBlock := b } } := by
    unfold snapshotCaptureCurrent
    by_cases h0 : d.snapshotBytes = 0
    · exact ⟨_, if_pos h0⟩
    · obtain ⟨hb, hfin⟩ := ha.base h0
      rw [if_neg h0, require_of (by rw [hb]; exact hfar), ok_bind, require_of hfar, ok_bind,
        require_of ha.space, ok_bind, if_neg hfin]
      exact ⟨_, rfl⟩
  obtain ⟨b, hcap⟩ := hcap
  rw [hcap, ok_bind]
  unfold guardProtectCurrent
  by_cases h0 : d.guardBytes = 0
  · exact ⟨_, if_pos h0⟩
  · rw [if_neg h0, require_of (ha.guard h0), ok_bind]
    dsimp only
    split
    · exact ⟨_, rfl⟩
    · exact ⟨_, rfl⟩

/-- The snapshot agrees with memory. -/
def IntegrityData.Agrees (d : IntegrityData) (m : Memory) : Prop :=
  d.snapshotBytes ≠ 0 → d.stackBase ≠ 0 ∧
    d.snapshotBlock.take d.snapshotBytes = readSlice m d.stackBase d.snapshotBytes

theorem snapshotVerifyCurrent_agrees {m : Memory} (h : e.data.Agrees m) :
    ∃ e', snapshotVerifyCurrent e m = .ok (e', none) := by
  unfold snapshotVerifyCurrent
  by_cases h0 : e.data.snapshotBytes = 0
  · exact ⟨_, if_pos h0⟩
  · obtain ⟨hbase, hsame⟩ := h h0
    rw [if_neg h0, require_of hbase, ok_bind]
    dsimp only
    rw [if_pos hsame]
    exact ⟨_, rfl⟩

theorem mprotect_data (e : Env) (base bytes : Nat) (lower : Bool) :
    (e.mprotect base bytes lower).1.data = e.data := by
  unfold Env.mprotect
  split <;> rfl

theorem snapshotCaptureCurrent_agrees {e' : Env} {m : Memory} (hfar : far ≠ spFurthest ∨
    e.data.snapshotBytes = 0) (h : snapshotCaptureCurrent e m far = .ok e') :
    e'.data.Agrees m := by
  unfold snapshotCaptureCurrent at h
  by_cases h0 : e.data.snapshotBytes = 0
  · rw [if_pos h0] at h
    cases h
    exact fun h => absurd h0 h
  · rw [if_neg h0] at h
    obtain ⟨_, hbase, h⟩ := bind_ok h
    obtain ⟨-, -, h⟩ := bind_ok h
    obtain ⟨-, -, h⟩ := bind_ok h
    rw [if_neg (hfar.resolve_right h0)] at h
    cases h
    exact fun _ => ⟨of_require hbase, List.take_of_length_le (Nat.le_of_eq (readSlice_length ..))⟩

theorem guardProtectCurrent_data {e' : Env} {m : Memory} (ha : e.data.Agrees m)
    (h : guardProtectCurrent e = .ok e') :
    e'.data.Agrees m ∧ (e'.data.guardBytes ≠ 0 → e'.data.guardBase ≠ 0) := by
  unfold guardProtectCurrent at h
  by_cases h0 : e.data.guardBytes = 0
  · rw [if_pos h0] at h
    cases h
    exact ⟨ha, fun h => absurd h0 h⟩
  · rw [if_neg h0] at h
    obtain ⟨_, hbase, h⟩ := bind_ok h
    have hbase : e.data.guardBase ≠ 0 := of_require hbase
    have hdata := mprotect_data e e.data.guardBase e.data.guardBytes true
    dsimp only at h
    split at h <;> cases h
    · rw [hdata]
      exact ⟨ha, fun _ => hbase⟩
    · rw [hdata]
      exact ⟨ha, fun h => absurd rfl h⟩

theorem integrityPlan_unbounded {d' : IntegrityData} {pageSize : Nat} {c : Config}
    {d : IntegrityData} (h : integrityPlan pageSize c spFurthest d = .ok d') :
    d'.snapshotBytes = 0 := by
  unfold integrityPlan at h
  dsimp only at h
  rw [if_pos (by rw [plannedBytes, if_pos (.inl rfl)])] at h
  cases h
  rfl

/-- What was armed verifies as long as memory stays what it was. -/
theorem armEnv_verified {e' : Env} {m : Memory} {c : TealetSub} {sp : Nat}
    (h : armEnv e m c sp = .ok e') :
    ∃ e₁ e₂, guardUnprotectCurrent e' = .ok e₁ ∧ snapshotVerifyCurrent e₁ m = .ok (e₂, none) := by
  obtain ⟨-, -, h⟩ := bind_ok h
  obtain ⟨d, hd, h⟩ := bind_ok h
  obtain ⟨-, -, h⟩ := bind_ok h
  obtain ⟨e₁, hcap, h⟩ := bind_ok h
  have hfar : c.stackFar ≠ spFurthest ∨ d.snapshotBytes = 0 := by
    by_cases hfar : c.stackFar = spFurthest
    · rw [hfar] at hd
      exact .inr (integrityPlan_unbounded hd)
    · exact .inl hfar
  obtain ⟨ha, hguard⟩ := guardProtectCurrent_data
    (snapshotCaptureCurrent_agrees (e := { e with data := d }) hfar hcap) h
  by_cases h0 : e'.data.guardBytes = 0
  · obtain ⟨e₂, he₂⟩ := snapshotVerifyCurrent_agrees ha
    exact ⟨e', e₂, if_pos h0, he₂⟩
  · have hdata := mprotect_data e' e'.data.guardBase e'.data.guardBytes false
    obtain ⟨e₂, he₂⟩ := snapshotVerifyCurrent_agrees (m := m) (e :=
      { (e'.mprotect e'.data.guardBase e'.data.guardBytes false).1 with
        data := { (e'.mprotect e'.data.guardBase e'.data.guardBytes false).1.data with
          guardBytes := 0 } }) (by
        simp only [hdata]
        exact ha)
    refine ⟨_, e₂, ?_, he₂⟩
    unfold guardUnprotectCurrent
    rw [if_neg h0, require_of (hguard h0), ok_bind]
    rfl

end Plan

/-! ## What the calls keep -/

section Config

variable {leak : StackId → Nat} {s s₀ : State} {a : Saved} {t : TealetId} {c r : TealetSub}
  {q : Request} {b : Back}

theorem lockAuto_sameConfig (e : Env) : e.SameConfig e.lockAuto := by
  unfold Env.lockAuto
  split <;> exact ⟨rfl, rfl, rfl⟩

theorem unlockAuto_sameConfig (e : Env) : e.SameConfig e.unlockAuto := by
  unfold Env.unlockAuto
  split <;> exact ⟨rfl, rfl, rfl⟩

theorem leaveXfer_config (s : State) (b : Back) :
    Returns (fun s' => s'.env = s.env) (leaveXfer s b) := by
  unfold leaveXfer
  split
  · exact returns_any.bind fun _ _ => rfl
  · exact returns_any.bind fun _ _ => returns_any.bind fun _ _ => rfl
  · exact True.intro
  · rfl

theorem delete_config (s : State) (t : TealetId) :
    Returns (fun s' => s.env.SameConfig s'.env) (delete s t) := by
  unfold delete
  refine returns_any.bind fun _ _ => returns_any.bind fun _ _ => returns_any.bind fun _ _ => ?_
  have h₁ : s.env.SameConfig s.env.lockAuto := lockAuto_sameConfig s.env
  have h₂ : s.env.lockAuto.SameConfig
      ({ s.env.lockAuto with gTealets := s.env.lockAuto.gTealets - 1 }.listRemove t) :=
        ⟨rfl, rfl, rfl⟩
  exact (h₁.trans h₂).trans (unlockAuto_sameConfig _)

theorem failStart_config (s : State) (child creator : TealetId) (sw : Bool) :
    Returns (fun s' => s'.env = s.env) (failStart s child creator sw) := by
  unfold failStart
  refine returns_any.bind fun _ _ => ?_
  cases sw <;> rfl

theorem finish_config (s : State) (b : Back) :
    Returns (fun p => s.env.SameConfig p.1.env) (finish s b) := by
  obtain ⟨fr, rc, x⟩ := b
  cases fr with
  | api => exact unlockAuto_sameConfig _
  | switch g out => exact unlockAuto_sameConfig _
  | exit g implicit =>
      unfold finish
      cases implicit with
      | true => exact True.intro
      | false => exact returns_any.bind fun _ _ => unlockAuto_sameConfig _
  | run result current previous fn arg sw out spawned =>
      simp only [finish]
      cases rc with
      | err e =>
          refine (failStart_config ..).bind fun s₁ h₁ => ?_
          have h₁ : s.env.SameConfig s₁.unlockAuto.env := h₁ ▸ unlockAuto_sameConfig s₁.env
          cases spawned with
          | false => exact h₁
          | true => exact (delete_config s₁.unlockAuto result).bind fun s₂ h₂ => h₁.trans h₂
      | _ =>
          cases sw
          all_goals
            dsimp only
            split
            · exact returns_any.bind fun _ _ => returns_any.bind fun _ _ =>
                returns_any.bind fun _ _ => unlockAuto_sameConfig s.env
            · exact unlockAuto_sameConfig s.env
  | fork child current previous sw out =>
      have hp : ∀ (c : Prop) (inst : Decidable c) (p : Option TealetId),
          (@ite _ c inst { s with gPrevious := p } s).env = s.env := by
        intro c inst p
        split <;> rfl
      simp only [finish]
      cases rc with
      | err e =>
          refine (failStart_config ..).bind fun s₁ h₁ => ?_
          rw [hp] at h₁
          exact h₁ ▸ unlockAuto_sameConfig s₁.env
      | _ =>
          have h := unlockAuto_sameConfig s.env
          dsimp only
          show s.env.SameConfig (State.unlockAuto _).env
          unfold State.unlockAuto
          dsimp only
          rw [hp]
          exact h

theorem Attempted.config {arg : Ptr} {f : XFlags} {isExit : Bool} {k : Frame} {sp : Nat}
    {p : State × Back} (h : Attempted s a t arg f isExit k sp c r p) :
    s.env.SameConfig p.1.env := by
  cases h with
  | toSelf ht hp => cases isExit <;> (rw [hp]; exact .refl _)
  | tampered hu hg hs he hp => rw [hp]; exact he
  | nomem ht hu hg hfate hrep hal hb hT ha hprev hflags he => exact he
  | moved ht hexit hu hv hg hfate him' hrep hal hb hT ha hprev hflags he => exact he
  | _ => rename_i hp; rw [hp]; exact .refl _

theorem Inv.attempts_config (I : Inv leak s a) (hsp : q.sp < spFurthest)
    (hk : OwnFrame s q.isExit q.frame) (halive : Alive s q.target) :
    Returns (fun p => s.env.SameConfig p.1.env) (q.attempts s) :=
  I.attempts_rel (R := fun s s' => s.env.SameConfig s'.env) .trans (fun h => h.config) hsp hk halive

theorem Begun.config {cur : TealetId} {F far : Nat} {k : Frame} {sp : Nat} {v : Growth → View}
    {p : State × Back} (h : Begun s a t cur r F far k sp v p) : s.env.SameConfig p.1.env := by
  cases h with
  | refused herr he hp => rw [hp]; exact he
  | nomem hg hfate hrep hb hT ha hprev hflags he => exact he
  | begun hsp hg hok hrep hb hT ha hprev hflags he => exact he

theorem Inv.beginSwitch_config (I : Inv leak s a) (hc : s.tealets s.gCurrent = some c)
    (hnew : s.tealets t = some {}) (hr : Child r) {k : Frame} {sp : Nat} (hsp : sp < spFurthest)
    (sw : Bool) :
    Returns (fun p => s.env.SameConfig p.1.env)
      (beginSwitch s t r sw k sp >>= fun p => leaveXfer p.1 p.2 >>= fun s' => finish s' p.2) := by
  have hbegin : Returns (fun p => s.env.SameConfig p.1.env) (beginSwitch s t r sw k sp) := by
    unfold beginSwitch
    cases sw with
    | true =>
        exact Sat.ite_true rfl ((I.start_spec (k := k) hc hnew hr hsp
          (External.mono fun _ _ => True.intro)).imp fun p hp => hp.config)
    | false =>
        exact Sat.ite_false (by simp) ((I.capture_spec (k := k) hc hnew hr hsp
          (External.mono fun _ _ => True.intro)).imp fun p hp => hp.config)
  refine hbegin.bind fun p hp => (leaveXfer_config p.1 p.2).bind fun s' hs' => ?_
  exact (finish_config s' p.2).imp fun p' hp' => hp.trans (hs' ▸ hp')

theorem Inv.run_config (I : Inv leak s a) (halive : Alive s t) {fn : RunFn} {parg : Option Ptr}
    {hint : Nat} {sw spawned : Bool} {site : Site} (hsite : site.Inside s)
    (hhint : hint < spFurthest) :
    Returns (fun p => s.env.SameConfig p.1.env) (run s t fn parg hint sw spawned site) := by
  obtain ⟨r, hr⟩ := Option.isSome_iff_exists.mp halive
  obtain ⟨c, hc, -⟩ := I.sched.running
  by_cases hf : r.flags = {}
  · obtain rfl := I.empty_of_new hr hf
    rw [run_eq I.gTarget hr]
    have hchild : Child (childRecord (pickInitialFar site.far hint) { bound := true }) :=
      child_childRecord (pickInitialFar_lt hsite.2.2 hhint) ⟨rfl, rfl, rfl⟩ rfl
    refine returns_any.bind fun _ _ => ?_
    exact (I.lockAuto.beginSwitch_config hc hr hchild
      (Nat.lt_of_le_of_lt hsite.1 hsite.2.2) sw).imp fun p hp => (lockAuto_sameConfig _).trans hp
  · unfold run
    exact Sat.run (tealet_of hr) (Sat.ite_true hf (.refl _))

theorem Inv.fork_config (I : Inv leak s a) (halive : Alive s t) {parg : Option Ptr} {sw : Bool}
    {site : Site} (hsite : site.Inside s) :
    Returns (fun p => s.env.SameConfig p.1.env) (fork s t parg sw site) := by
  obtain ⟨r, hr⟩ := Option.isSome_iff_exists.mp halive
  obtain ⟨c, hc, hact, hs⟩ := I.sched.running
  have hc : s.tealets s.gCurrent = some c := hc
  by_cases hf : r.flags = {}
  · obtain rfl := I.empty_of_new hr hf
    by_cases hfar : c.stackFar = spFurthest
    · unfold fork
      refine returns_any.bind fun _ _ => Sat.run (tealet_of hr) (Sat.ite_false (by simp) ?_)
      exact Sat.run (tealet_of hc) (Sat.ite_true hfar (.refl _))
    · rw [fork_eq hr hc hs hfar]
      have hlt : c.stackFar < spFurthest :=
        Nat.lt_of_le_of_ne (I.core.record _ c hc).far_le hfar
      have hchild : Child (childRecord c.stackFar
          { bound := true, fork := true, mainLineage := c.flags.mainLineage }) :=
        child_childRecord hlt ⟨rfl, rfl, rfl⟩ rfl
      refine returns_any.bind fun _ _ => ?_
      exact (I.lockAuto.beginSwitch_config hc hr hchild
        (Nat.lt_of_le_of_lt hsite.1 hsite.2.2) sw).imp fun p hp => (lockAuto_sameConfig _).trans hp
  · unfold fork
    refine returns_any.bind fun _ _ => Sat.run (tealet_of hr) (Sat.ite_true hf (.refl _))

theorem alloc_config (s : State) : s.env.SameConfig (alloc s).1.env := by
  unfold alloc
  rw [Heap.malloc_eq]
  cases (nextAlloc s.heap.allocs).1 <;> exact ⟨rfl, rfl, rfl⟩

theorem new_config (s : State) : s.env.SameConfig (new s).1.env :=
  ((lockAuto_sameConfig s.env).trans (alloc_config s.lockAuto)).trans (unlockAuto_sameConfig _)

theorem snapshotEnsureCapacity_reserved {e : Env} {required : Nat} {ok : Bool} {e' : Env}
    (h : snapshotEnsureCapacity e required ok = (e', true)) :
    e'.cfg = e.cfg ∧ e'.pageSize = e.pageSize ∧ required ≤ e'.data.snapshotCapacity := by
  unfold snapshotEnsureCapacity at h
  split at h
  · rename_i hor
    cases h
    exact ⟨rfl, rfl, by omega⟩
  · split at h <;> cases h
    exact ⟨rfl, rfl, Nat.le_refl _⟩

theorem configureSet_ready (request : Config) (h : s.env.Ready) :
    (configureSet s request).1.env.Ready := by
  unfold configureSet
  dsimp only
  generalize (if snapshotRequiredCapacity s.env.pageSize (configCanonicalize request) = 0 ∨
    snapshotRequiredCapacity s.env.pageSize (configCanonicalize request) ≤
      s.env.data.snapshotCapacity then (true, s.heap) else s.heap.malloc) = p
  split
  · rename_i e heq
    obtain ⟨-, hpage, hcap⟩ := snapshotEnsureCapacity_reserved heq
    refine ⟨?_, ?_⟩
    · show e.pageSize = 0 ∨ _
      rw [hpage]
      exact h.pages
    · show snapshotRequiredCapacity e.pageSize _ ≤ _
      rw [hpage]
      exact hcap
  · rename_i e heq
    have he : e = s.env := by
      unfold snapshotEnsureCapacity at heq
      split at heq
      · cases heq
      · split at heq <;> cases heq
        rfl
    rw [he]
    exact h

/-- Every call leaves the watch in a state from which it can be armed. -/
theorem callStep_ready (I : Inv leak s a) {c : Call} (hL : c.Legal s) (h : s.env.Ready) :
    Returns (fun p => p.1.env.Ready) (callStep s c) := by
  have hsame : ∀ {x : Res (State × Outcome)}, Returns (fun p => s.env.SameConfig p.1.env) x →
      Returns (fun p => p.1.env.Ready) x := fun hx => hx.imp fun p hp => h.congr hp
  have hreq : ∀ s₀ q, c.request s = some (s₀, q) →
      Returns (fun p => p.1.env.Ready) (callStep s c) := by
    intro s₀ q hq
    obtain ⟨I₀, -⟩ := I.withRequest hq
    obtain ⟨halive, hsp⟩ := request_legal hq hL
    obtain ⟨fl, ar, hs₀, -⟩ := request_state hq
    obtain ⟨f, cond, inst, -, -, heq⟩ := callStep_request hq
    have halive₀ : Alive s₀ q.target := by
      rw [hs₀]
      exact halive
    rw [heq]
    refine hsame (returns_any.bind fun _ _ => returns_any.bind fun _ _ => ?_)
    refine (I₀.attempts_config hsp (request_frame hq) halive₀).bind fun p hp => ?_
    refine (finish_config _ _).imp fun p' hp' => ?_
    have henv : s.env.SameConfig s₀.env := by
      rw [hs₀]
      exact lockAuto_sameConfig s.env
    exact (henv.trans hp).trans hp'
  cases c with
  | new => exact h.congr (new_config s)
  | run t fn parg hint sw site => exact hsame (I.run_config hL.1 hL.2.1 hL.2.2)
  | spawn fn parg hint sw site =>
      have hends : Ends (fun _ _ => True) True (s.view a) (new s).1 a := new_ends I
      obtain ⟨leak', I', -⟩ := hends.inv I
      have hspec := new_spec s a
      have hcfg := new_config s
      refine hsame ?_
      show Returns _ (spawn s fn parg hint sw site)
      unfold spawn
      rcases hnew : new s with ⟨s₁, _ | t⟩ <;> rw [hnew] at I' hspec hcfg
      · exact hcfg
      · cases hspec with
        | some hal hv hal' =>
            have htl : s₁.tealets = Function.update s.tealets s.nextTealet (some {}) :=
              congrArg View.tealets hv
            have hcur : s₁.gCurrent = s.gCurrent := congrArg View.current hv
            obtain ⟨c, hc, -⟩ := I.sched.running
            have hne : s.gCurrent ≠ s.nextTealet := Nat.ne_of_lt (I.core.lt_nextTealet hc)
            have hfar : runningFar s₁ = runningFar s := by
              simp only [runningFar, hcur, htl, Function.update_of_ne hne]
            have halive : Alive s₁ s.nextTealet := by simp [Alive, htl]
            have hsite : site.Inside s₁ := ⟨hL.1.1, hfar ▸ hL.1.2.1, hL.1.2.2⟩
            exact (I'.run_config halive hsite hL.2).imp fun p hp => hcfg.trans hp
  | fork t parg sw site => exact hsame (I.fork_config hL.1 hL.2)
  | switch t parg flags sp => exact hreq _ _ rfl
  | exit t arg flags sp =>
      cases hd : flags.defer with
      | false => exact hreq _ _ (if_neg (by simp [hd]))
      | true =>
          refine hsame ?_
          show Returns _ (exit s t arg flags false sp)
          unfold exit
          refine returns_any.bind fun _ _ => returns_any.bind fun _ _ => Sat.ite_true hd ?_
          exact returns_any.bind fun _ _ =>
            (lockAuto_sameConfig s.env).trans (unlockAuto_sameConfig _)
  | ret p sp =>
      cases p with
      | none => exact True.intro
      | some t => exact hreq _ _ rfl
  | duplicate t =>
      have hcfg := ((lockAuto_sameConfig s.env).trans (alloc_config s.lockAuto)).trans
        (unlockAuto_sameConfig _)
      refine hsame (Sat.bind (Q := fun p : State × Option TealetId => s.env.SameConfig p.1.env) ?_
        fun p hp => hp)
      unfold duplicate
      refine returns_any.bind fun _ _ => ?_
      rcases halloc : alloc s.lockAuto with ⟨s₁, _ | u⟩ <;> rw [halloc] at hcfg
      · exact hcfg
      · refine returns_any.bind fun r _ => ?_
        cases r.stack with
        | none => exact hcfg
        | some k => exact returns_any.bind fun _ _ => hcfg
  | delete t =>
      exact hsame ((delete_config s t).bind fun s' hs' => hs')
  | status t =>
      refine hsame (Sat.bind (Q := fun p : State × Status => s.env.SameConfig p.1.env) ?_
        fun p hp => hp)
      unfold status
      refine returns_any.bind fun r _ => ?_
      split
      · exact .refl _
      · split
        · exact .refl _
        · refine Sat.bind (Q := fun p : State × Bool => p.1.env = s.env) ?_ fun p hp => hp ▸ .refl _
          unfold isDefunct
          refine returns_any.bind fun r _ => ?_
          split
          · rfl
          · split
            · rfl
            · refine returns_any.bind fun st _ => ?_
              split <;> rfl
  | setFar t far =>
      refine hsame (Sat.bind (Q := fun p : State × Rc => s.env.SameConfig p.1.env) ?_
        fun p hp => hp)
      unfold setFar
      refine returns_any.bind fun r _ => ?_
      split <;> exact .refl _
  | configure request => exact configureSet_ready request h

end Config

end Tealet
