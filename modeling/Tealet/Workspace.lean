import Mathlib.Logic.Relation
import Tealet.EnvRule
import Tealet.Plan

/-!
# The workspace for snapshots

The environment on a machine of any width, with `tealet_configure_set`
called at any time, and the watch released and armed for boundaries in any
order. The workspace is as large as the configuration in force asks for
(`Reserved`), whatever was configured before and whether or not a request
could be served.

That is enough for every plan but one kind: where snapshot and guard are
both on, a window that wraps around the end of the address space is not
guarded, and then all of it is to be compared (`Overruns`,
`snapshotLength_le_iff`).
-/

namespace Tealet

open Hoare Align Relation

/-! ## The environment on its own -/

/-- The configuration fits the machine's words. -/
structure Config.Words (M : Machine) (c : Config) : Prop where
  bytes : c.stackIntegrityBytes < M.modulus
  limit : c.stackGuardLimit < M.modulus

/-- `tealet_configure_set` on a complete request; `ok` is the outcome of the
allocation of a new workspace. -/
def configureEnv (e : Env) (request : Config) (ok : Bool) : Env :=
  let requested := configCanonicalize request
  match snapshotEnsureCapacity e (snapshotRequiredCapacity e.pageSize requested) ok with
  | (e, true) => { e with cfg := requested }
  | (e, false) => e

/-- Guard and snapshot are released, as before a transfer. -/
def releaseEnv (e : Env) (m : Memory) : Res (Env × Option Err) := do
  let e ← guardUnprotectCurrent e
  snapshotVerifyCurrent e m

/-- A step of the environment. `P` holds of the requests. -/
inductive EnvStep (M : Machine) (P : Config → Prop) (e : Env) : Env → Prop
  | configure {request : Config} (ok : Bool) (hP : P request) :
      EnvStep M P e (configureEnv e request ok)
  | release {m : Memory} {e' : Env} {verdict : Option Err}
      (heq : releaseEnv e m = .ok (e', verdict)) : EnvStep M P e e'
  | arm {m : Memory} {far : Nat} {e' : Env} (heq : M.arm e m far = .ok e') : EnvStep M P e e'
  /-- what has nothing to do with the watch -/
  | other {e' : Env} (hcfg : e'.cfg = e.cfg) (hdata : e'.data = e.data)
      (hpage : e'.pageSize = e.pageSize) : EnvStep M P e e'

/-- The workspace has the size the configuration asks for, and what is
captured in it fits. -/
structure Reserved (e : Env) : Prop where
  required : snapshotRequiredCapacity e.pageSize e.cfg ≤ e.data.snapshotCapacity
  active : e.data.snapshotBytes ≤ e.data.snapshotCapacity

section Steps

variable {M : Machine} {P : Config → Prop} {e e' : Env} {m : Memory} {far : Nat}

/-- The configuration and the workspace stay, and no more is captured than before. -/
structure Env.Eased (e e' : Env) : Prop where
  same : e.SameConfig e'
  bytes : e'.data.snapshotBytes ≤ e.data.snapshotBytes

theorem Env.Eased.refl (e : Env) : e.Eased e := ⟨.refl e, Nat.le_refl _⟩

theorem Env.Eased.trans {e₁ e₂ e₃ : Env} (h : e₁.Eased e₂) (h' : e₂.Eased e₃) : e₁.Eased e₃ :=
  ⟨h.same.trans h'.same, h'.bytes.trans h.bytes⟩

theorem Reserved.eased (h : Reserved e) (he : e.Eased e') : Reserved e' := by
  constructor
  · rw [he.same.pageSize, he.same.cfg, he.same.capacity]
    exact h.required
  · rw [he.same.capacity]
    exact he.bytes.trans h.active

theorem mprotect_eased (e : Env) (base bytes : Nat) (lower : Bool) :
    e.Eased (e.mprotect base bytes lower).1 := by
  unfold Env.mprotect
  split <;> exact ⟨⟨rfl, rfl, rfl⟩, Nat.le_refl _⟩

theorem guardUnprotectCurrent_eased (e : Env) : Returns e.Eased (guardUnprotectCurrent e) := by
  unfold guardUnprotectCurrent
  split
  · exact .refl e
  · refine returns_any.bind fun _ _ => ?_
    have h := mprotect_eased e e.data.guardBase e.data.guardBytes false
    exact ⟨⟨h.same.cfg, h.same.pageSize, h.same.capacity⟩, h.bytes⟩

theorem guardProtectCurrent_eased (e : Env) : Returns e.Eased (guardProtectCurrent e) := by
  unfold guardProtectCurrent
  split
  · exact .refl e
  · refine returns_any.bind fun _ _ => ?_
    have h := mprotect_eased e e.data.guardBase e.data.guardBytes true
    dsimp only
    split
    · exact h
    · exact ⟨⟨h.same.cfg, h.same.pageSize, h.same.capacity⟩, h.bytes⟩

theorem snapshotVerifyCurrent_eased (e : Env) (m : Memory) :
    Returns (fun p => e.Eased p.1) (snapshotVerifyCurrent e m) := by
  have hclear : e.Eased { e with data := { e.data with snapshotBytes := 0 } } :=
    ⟨⟨rfl, rfl, rfl⟩, Nat.zero_le _⟩
  unfold snapshotVerifyCurrent
  split
  · exact .refl e
  · refine returns_any.bind fun _ _ => ?_
    dsimp only
    split
    · exact hclear
    · split
      · exact True.intro
      · split
        · exact hclear
        · exact True.intro

theorem releaseEnv_eased (e : Env) (m : Memory) :
    Returns (fun p => e.Eased p.1) (releaseEnv e m) :=
  (guardUnprotectCurrent_eased e).bind fun e₁ h₁ =>
    (snapshotVerifyCurrent_eased e₁ m).imp fun _ h => h₁.trans h

theorem snapshotCaptureCurrent_eased (e : Env) (m : Memory) (far : Nat) :
    Returns e.Eased (M.snapshotCaptureCurrent e m far) := by
  unfold Machine.snapshotCaptureCurrent
  split
  · exact .refl e
  · refine returns_any.bind fun _ _ => returns_any.bind fun _ _ => returns_any.bind fun _ _ => ?_
    split
    · exact .refl e
    · exact ⟨⟨rfl, rfl, rfl⟩, Nat.le_refl _⟩

/-- A plan that is made fits the workspace. -/
theorem Reserved.plan {d : IntegrityData} (h : Reserved e)
    (hplan : M.integrityPlan e.pageSize e.cfg far e.data = .ok d) :
    Reserved { e with data := d } := by
  rw [Machine.integrityPlan_eq] at hplan
  split at hplan
  · rename_i hle
    cases hplan
    exact ⟨h.required, hle⟩
  · cases hplan

theorem Reserved.arm (h : Reserved e) : Returns Reserved (M.arm e m far) := by
  unfold Machine.arm
  cases hplan : M.integrityPlan e.pageSize e.cfg far e.data with
  | error f => exact True.intro
  | ok d =>
      refine (snapshotCaptureCurrent_eased _ m far).bind fun e₁ h₁ => ?_
      exact (guardProtectCurrent_eased e₁).imp fun e₂ h₂ => (h.plan hplan).eased (h₁.trans h₂)

theorem arm_config : Returns (fun e' => e'.cfg = e.cfg ∧ e'.pageSize = e.pageSize)
    (M.arm e m far) := by
  unfold Machine.arm
  refine returns_any.bind fun d _ => ?_
  refine (snapshotCaptureCurrent_eased _ m far).bind fun e₁ h₁ => ?_
  exact (guardProtectCurrent_eased e₁).imp fun e₂ h₂ =>
    ⟨(h₁.trans h₂).same.cfg, (h₁.trans h₂).same.pageSize⟩

/-- A request is refused as a whole, or set together with the space it needs. -/
theorem configureEnv_cases (e : Env) (request : Config) (ok : Bool) :
    configureEnv e request ok = e ∨
      (configureEnv e request ok).cfg = configCanonicalize request ∧
        (configureEnv e request ok).pageSize = e.pageSize ∧
        (snapshotRequiredCapacity e.pageSize (configCanonicalize request) ≤
          e.data.snapshotCapacity ∧ (configureEnv e request ok).data = e.data ∨
        (configureEnv e request ok).data = { e.data with
          snapshotBytes := 0, stackBase := 0, snapshotBlock := []
          snapshotCapacity :=
            snapshotRequiredCapacity e.pageSize (configCanonicalize request) }) := by
  unfold configureEnv
  dsimp only
  generalize snapshotRequiredCapacity e.pageSize (configCanonicalize request) = required
  unfold snapshotEnsureCapacity
  by_cases hroom : required = 0 ∨ required ≤ e.data.snapshotCapacity
  · rw [if_pos hroom]
    exact .inr ⟨rfl, rfl, .inl ⟨by omega, rfl⟩⟩
  · rw [if_neg hroom]
    cases ok
    · exact .inl rfl
    · exact .inr ⟨rfl, rfl, .inr rfl⟩

theorem Reserved.configure (h : Reserved e) (request : Config) (ok : Bool) :
    Reserved (configureEnv e request ok) := by
  rcases configureEnv_cases e request ok with heq | ⟨hcfg, hpage, ⟨hle, hdata⟩ | hdata⟩
  · rw [heq]
    exact h
  · constructor
    · rw [hcfg, hpage, hdata]
      exact hle
    · rw [hdata]
      exact h.active
  · constructor
    · rw [hcfg, hpage, hdata]
    · exact hdata ▸ Nat.zero_le _

theorem Reserved.step (h : Reserved e) (hs : EnvStep M P e e') : Reserved e' := by
  cases hs with
  | configure ok hP => exact h.configure _ ok
  | release heq => exact h.eased ((releaseEnv_eased e _).result heq)
  | arm heq => exact h.arm.result heq
  | other hcfg hdata hpage =>
      constructor
      · rw [hcfg, hdata, hpage]
        exact h.required
      · rw [hdata]
        exact h.active

theorem Config.Words.canonicalize {c : Config} (h : c.Words M) :
    (configCanonicalize c).Words M := by
  have hpos : 0 < M.modulus := Nat.two_pow_pos _
  constructor
  · show (if _ then c.stackIntegrityBytes else 0) < _
    split
    · exact h.bytes
    · exact hpos
  · show (if _ then c.stackGuardLimit else 0) < _
    split
    · exact h.limit
    · exact hpos

/-- The configuration in force comes from a request of the run. -/
theorem EnvStep.words (hs : EnvStep M (Config.Words M) e e') (h : e.cfg.Words M) :
    e'.cfg.Words M ∧ e'.pageSize = e.pageSize := by
  cases hs with
  | @configure request ok hP =>
      rcases configureEnv_cases e request ok with heq | ⟨hcfg, hpage, -⟩
      · rw [heq]
        exact ⟨h, rfl⟩
      · rw [hcfg]
        exact ⟨hP.canonicalize, hpage⟩
  | release heq =>
      have he := ((releaseEnv_eased e _).result heq).same
      rw [he.cfg]
      exact ⟨h, he.pageSize⟩
  | arm heq =>
      obtain ⟨hcfg, hpage⟩ := arm_config.result heq
      rw [hcfg]
      exact ⟨h, hpage⟩
  | other hcfg hdata hpage =>
      rw [hcfg]
      exact ⟨h, hpage⟩

theorem Reserved.fresh (h : e.Fresh) : Reserved e := by
  constructor
  · rw [h.cfg]
    exact Nat.zero_le _
  · rw [h.data]

theorem Reserved.run (h : Reserved e) (hrun : ReflTransGen (EnvStep M P) e e') : Reserved e' := by
  induction hrun with
  | refl => exact h
  | tail _ hs ih => exact ih.step hs

theorem EnvStep.run_words (h : e.cfg.Words M)
    (hrun : ReflTransGen (EnvStep M (Config.Words M)) e e') :
    e'.cfg.Words M ∧ e'.pageSize = e.pageSize := by
  induction hrun with
  | refl => exact ⟨h, rfl⟩
  | tail _ hs ih =>
      obtain ⟨hw, hpage⟩ := hs.words ih.1
      exact ⟨hw, hpage.trans ih.2⟩

end Steps

/-! ## The two formulas -/

/-- The window at `far` wraps around the end of the address space while
both backends are on, and it is larger than the workspace. -/
structure Overruns (M : Machine) (e : Env) (far : Nat) : Prop where
  integrity : e.cfg.integrity = true
  guard : e.cfg.guard = true
  snapshot : e.cfg.snapshot = true
  bounded : far ≠ M.furthest
  unlimited : e.cfg.stackGuardLimit = 0
  pages : 1 < e.pageSize
  wraps : M.modulus ≤ far + e.cfg.stackIntegrityBytes
  short : e.data.snapshotCapacity < e.cfg.stackIntegrityBytes

section Formulas

variable {M : Machine} {P : Config → Prop} {e e' : Env} {m : Memory} {far : Nat}

theorem machine_plannedBytes_le (M : Machine) (c : Config) (far : Nat) :
    M.plannedBytes c far ≤ c.stackIntegrityBytes := by
  unfold Machine.plannedBytes
  split
  · exact Nat.zero_le _
  · split
    · exact Nat.le_refl _
    · split
      · exact Nat.zero_le _
      · exact Nat.min_le_left _ _

/-- A window that is cut by a limit does not wrap. -/
theorem not_wraps_of_limit {c : Config} (hw : c.Words M) (hfar : far < M.modulus)
    (hlim : c.stackGuardLimit ≠ 0) : far + M.plannedBytes c far < M.modulus := by
  have hl := hw.limit
  unfold Machine.plannedBytes
  rw [if_neg hlim]
  split
  · exact hfar
  · split
    · exact hfar
    · omega

/-- The prefix that is left to the snapshot is shorter than a page. -/
theorem machine_prefix_le (hpage : e.pageSize ≤ M.modulus) (hfar : far < M.modulus) :
    (M.alignUp e.pageSize far + M.modulus - far) % M.modulus ≤ e.pageSize - 1 := by
  have hpos : 0 < M.modulus := Nat.two_pow_pos _
  exact roundUp_sub_le (w := M.width) (show e.pageSize - 1 < M.modulus by omega) hfar

theorem snapshotLength_le_iff (h : Reserved e) (hw : e.cfg.Words M)
    (hpage : e.pageSize ≤ M.modulus) (hfar : far < M.modulus) :
    M.snapshotLength e.pageSize e.cfg far ≤ e.data.snapshotCapacity ↔ ¬ Overruns M e far := by
  have hreq := h.required
  have hbytes := machine_plannedBytes_le M e.cfg far
  have hlen := M.snapshotLength_le e.pageSize e.cfg far
  constructor
  · -- the wrapped window is not guarded, so all of it is compared
    rintro hle ⟨hi, hg, hs, hb, hl, -, hwraps, hshort⟩
    have hn : M.plannedBytes e.cfg far = e.cfg.stackIntegrityBytes := by
      unfold Machine.plannedBytes
      rw [if_neg (by simp [hi, hb]), if_pos hl]
    have hng : ¬ M.Guarded e.pageSize e.cfg far := by
      rintro ⟨-, -, hlt⟩
      have hword := hw.bytes
      rw [hn, Nat.mod_eq_sub_mod hwraps, Nat.mod_eq_of_lt (by omega)] at hlt
      omega
    have hall : M.snapshotLength e.pageSize e.cfg far = e.cfg.stackIntegrityBytes := by
      simp only [Machine.snapshotLength, hng, hs, hn, false_and, if_false, if_true]
    omega
  · intro hno
    by_cases hs : e.cfg.snapshot = true
    swap
    · have hzero : M.snapshotLength e.pageSize e.cfg far = 0 := by
        simp [Machine.snapshotLength, hs]
      omega
    unfold snapshotRequiredCapacity at hreq
    simp only [hs, if_true, true_and] at hreq
    by_cases hcut : e.cfg.guard = true ∧ 1 < e.pageSize
    swap
    · rw [if_neg hcut] at hreq
      omega
    rw [if_pos hcut] at hreq
    by_cases h0 : M.plannedBytes e.cfg far = 0
    · omega
    by_cases hwraps : far + M.plannedBytes e.cfg far < M.modulus
    · -- what is left to the snapshot is shorter than a page
      have hguarded : M.Guarded e.pageSize e.cfg far :=
        ⟨hcut.1, by omega, by rw [Nat.mod_eq_of_lt hwraps]; omega⟩
      have hprefix := machine_prefix_le hpage hfar
      have hmin : M.snapshotLength e.pageSize e.cfg far = min (M.plannedBytes e.cfg far)
          ((M.alignUp e.pageSize far + M.modulus - far) % M.modulus) := by
        simp only [Machine.snapshotLength, hguarded, hs, h0, ne_eq, not_false_eq_true, and_self,
          if_true]
      omega
    · have hl : e.cfg.stackGuardLimit = 0 := by
        by_contra hl
        exact hwraps (not_wraps_of_limit hw hfar hl)
      have hon : ¬ (far = M.furthest ∨ e.cfg.integrity = false) := by
        intro hoff
        exact h0 (if_pos hoff)
      have hn : M.plannedBytes e.cfg far = e.cfg.stackIntegrityBytes := by
        unfold Machine.plannedBytes
        rw [if_neg hon, if_pos hl]
      by_contra hgt
      refine hno ⟨?_, hcut.1, hs, fun hf => hon (.inl hf), hl, hcut.2, by omega, by omega⟩
      simpa using fun hi => hon (.inr hi)

/-- In every environment that configuring and transferring lead to, a plan
fits the workspace unless its window overruns it, and the only capacity
assertion that fires is the plan's, in this case. -/
theorem workspace_suffices_iff (M : Machine) {e₀ e : Env} {far : Nat} (hfresh : e₀.Fresh)
    (hpage : e₀.pageSize ≤ M.modulus) (hrun : ReflTransGen (EnvStep M (Config.Words M)) e₀ e)
    (hfar : far < M.modulus) :
    (M.snapshotLength e.pageSize e.cfg far ≤ e.data.snapshotCapacity ↔ ¬ Overruns M e far) ∧
    (M.integrityPlan e.pageSize e.cfg far e.data = .error (.assertion .integrityPlan) ↔
      Overruns M e far) ∧
    e.data.snapshotBytes ≤ e.data.snapshotCapacity ∧
    ∀ d, M.integrityPlan e.pageSize e.cfg far e.data = .ok d →
      d.snapshotBytes ≤ d.snapshotCapacity := by
  have hstart : e₀.cfg.Words M := by
    rw [hfresh.cfg]
    exact ⟨Nat.two_pow_pos _, Nat.two_pow_pos _⟩
  obtain ⟨hw, hpages⟩ := EnvStep.run_words hstart hrun
  have hres : Reserved e := (Reserved.fresh hfresh).run hrun
  have hiff := snapshotLength_le_iff hres hw (hpages ▸ hpage) hfar
  refine ⟨hiff, ?_, hres.active, fun d hd => (hres.plan hd).active⟩
  rw [Machine.integrityPlan_eq]
  by_cases hle : M.snapshotLength e.pageSize e.cfg far ≤ e.data.snapshotCapacity
  · rw [if_pos hle]
    exact ⟨nofun, fun hover => absurd hover (hiff.mp hle)⟩
  · rw [if_neg hle]
    exact ⟨fun _ => by_contra fun hno => hle (hiff.mpr hno), fun _ => rfl⟩

/-- 8192 bytes are watched near the top of a 32-bit address space; a page is
reserved. -/
theorem workspace_suffices_page :
    Machine.snapshotLength ⟨32, 2 ^ 32 - 16⟩ 4096 (watchBoth 8192 0) 0xffff8010 ≤ 4095 := by
  have hconf : EnvStep ⟨32, 2 ^ 32 - 16⟩ (Config.Words ⟨32, 2 ^ 32 - 16⟩) {}
      (configureEnv {} (watchBoth 8192 0) true) := .configure true ⟨by decide, by decide⟩
  refine (workspace_suffices_iff ⟨32, 2 ^ 32 - 16⟩ ⟨rfl, rfl⟩ (by decide) (.single hconf)
    (by decide)).1.mpr fun hover => ?_
  exact absurd hover.wraps (by decide)

/-- All of memory is watched: what is reserved is a page, and a snapshot of
all of it is planned. -/
theorem workspace_overrun :
    ¬ ∀ (M : Machine) (e₀ e : Env) (far : Nat), e₀.Fresh → e₀.pageSize ≤ M.modulus →
      ReflTransGen (EnvStep M (Config.Words M)) e₀ e → far < M.modulus →
      M.snapshotLength e.pageSize e.cfg far ≤ e.data.snapshotCapacity := by
  intro hall
  have hconf : EnvStep .x64 (Config.Words .x64) {}
      (configureEnv {} (watchBoth (2 ^ 64 - 1) 0) true) := .configure true ⟨by decide, by decide⟩
  have hle := hall .x64 {} _ 0x7ffff0000000 ⟨rfl, rfl⟩ (by decide) (.single hconf) (by decide)
  revert hle
  decide

end Formulas

/-! ## The environment in a run -/

section Runs

variable {e₀ e : Env} {s s' : State}

/-- `e` is reached from `e₀` on the machine of the other modules. -/
def Env.Reaches (e₀ e : Env) : Prop := ReflTransGen (EnvStep .x64 fun _ => True) e₀ e

theorem Env.Reaches.other {e' : Env} (h : e₀.Reaches e) (hcfg : e'.cfg = e.cfg)
    (hdata : e'.data = e.data) (hpage : e'.pageSize = e.pageSize) : e₀.Reaches e' :=
  h.tail (.other hcfg hdata hpage)

theorem armEnv_arm (e : Env) (m : Memory) (c : TealetSub) (sp : Nat) :
    Returns (fun e' => Machine.x64.arm e m c.stackFar = .ok e') (armEnv e m c sp) := by
  cases hv : verifyRecord c sp with
  | error f =>
      rw [armEnv, hv]
      exact True.intro
  | ok u =>
      cases he : armEnv e m c sp with
      | error f => exact True.intro
      | ok e' =>
          rw [armEnv, hv] at he
          exact he

theorem configureSet_env (s : State) (request : Config) :
    ∃ ok, (configureSet s request).1.env = configureEnv s.env request ok := by
  unfold configureSet configureEnv
  dsimp only
  generalize (if snapshotRequiredCapacity s.env.pageSize (configCanonicalize request) = 0 ∨
    snapshotRequiredCapacity s.env.pageSize (configCanonicalize request) ≤
      s.env.data.snapshotCapacity then (true, s.heap) else s.heap.malloc) = p
  refine ⟨p.1, ?_⟩
  rcases snapshotEnsureCapacity s.env
    (snapshotRequiredCapacity s.env.pageSize (configCanonicalize request)) p.1 with
      ⟨e, _ | _⟩ <;> rfl

/-- The pieces of a call are steps of the environment. -/
theorem Env.Reaches.rule (e₀ : Env) : EnvRule e₀.Reaches e₀.Reaches e₀.Reaches where
  lock {e} h := by
    unfold Env.lockAuto
    split
    · exact h.other rfl rfl rfl
    · exact h
  unlock {e} h := by
    unfold Env.unlockAuto
    split
    · exact h.other rfl rfl rfl
    · exact h
  books h hb := by
    obtain ⟨n, c, f, g, rfl⟩ := hb
    exact h.other rfl rfl rfl
  copying h hb := by
    obtain ⟨n, c, f, g, rfl⟩ := hb
    exact h.other rfl rfl rfl
  release {e m} h := by
    cases heq : releaseEnv e m with
    | error f =>
        rw [releaseEnv] at heq
        rw [heq]
        exact True.intro
    | ok p =>
        have hp : e₀.Reaches p.1 := h.tail (.release heq)
        rw [releaseEnv] at heq
        rw [heq]
        exact ⟨fun _ => hp, fun _ => hp⟩
  arm {e m c sp} h := (armEnv_arm e m c sp).imp fun _ heq => h.tail (.arm heq)
  configure {s q} h := by
    obtain ⟨ok, heq⟩ := configureSet_env s q
    rw [heq]
    exact h.tail (.configure ok True.intro)

theorem Env.Reaches.step {ev : Event} {o : Outcome} (h : e₀.Reaches s.env)
    (hs : step s ev = .ok (s', o)) : e₀.Reaches s'.env := by
  cases ev with
  | write m =>
      cases hs
      exact h
  | call c allocs mprotects =>
      have h' : e₀.Reaches (s.withChoices allocs mprotects).env := h.other rfl rfl rfl
      exact ((Env.Reaches.rule e₀).passes.callStep h' c).result hs

/-- In every run the workspace is as large as the configuration in force
asks for, and what is captured fits. -/
theorem Run.reserved {P : State → Event → Prop} (hfresh : s.env.Fresh) (h : Run P s s') :
    Reserved s'.env := by
  have hreach : s.env.Reaches s'.env :=
    h.invariant (I := fun s' => s.env.Reaches s'.env) .refl fun _ _ _ _ h₁ _ hs => h₁.step hs
  exact (Reserved.fresh hfresh).run hreach

end Runs

end Tealet
