import Tealet.Lib.Hoare
import Tealet.View

/-!
# Checks and watched stacks around a transfer

`tealet_switchstack` checks the caller before a transfer and arms the watch
of the tealet that runs after it. Neither touches tealet records or saved
stacks: they read the record of the running tealet, change the environment
and may fault. `External` collects which of their faults have to be
considered, so that one specification of a transfer serves both for runs
that may end in such a fault and for runs that cannot.
-/

namespace Tealet

open Slice Hoare

/-- The faults that would be the library's own: a block used after it was
freed, a loop past its blocks, an `assert` of the storage routines or of
the switch itself. -/
def Fault.internal : Fault → Bool
  | .freed => true
  | .looping => true
  | .abort => false
  | .assertion f =>
      match f with
      | .stackGrow | .stackLink | .stackUnlink | .stackSaveto | .stackGrowto | .stackGrowList
      | .saveState | .restoreState | .checkCaller | .switchstack | .run | .fork => true
      | _ => false

/-- `Sat` with no internal fault. -/
abbrev Safe {α : Type} (Q : α → Prop) (x : Res α) : Prop := Sat (fun f => f.internal = false) Q x

theorem safe_require {f : Fn} {p : Prop} [Decidable p]
    (hf : (Fault.assertion f).internal = false) : Safe (fun _ => p) (require f p) := by
  unfold require
  split
  · assumption
  · exact hf

theorem sat_require {α : Type} {E : Fault → Prop} {Q : α → Prop} {f : Fn} {p : Prop}
    {inst : Decidable p} {x : Unit → Res α} (hp : p) (hx : Sat E Q (x ())) :
    Sat E Q (require f p >>= x) := by
  rw [require_of hp]
  exact hx

theorem tealet_of {s : State} {t : TealetId} {r : TealetSub} (h : s.tealets t = some r) :
    s.tealet t = .ok r := by
  simp only [State.tealet, h]

/-! ## The running tealet -/

/-- `tealet_verify_current_matches_caller` on the record of the running tealet. -/
def verifyRecord (c : TealetSub) (sp : Nat) : Res Unit := do
  require .verifyCurrent (c.flags.exited = false)
  if c.stackFar = spFurthest then
    return ()
  else
    require .verifyCurrent (c.stackFar ≠ 0)
    require .verifyCurrent (sp < c.stackFar)

/-- Arming the watch, as far as the environment is concerned. -/
def armEnv (e : Env) (m : Memory) (c : TealetSub) (sp : Nat) : Res Env := do
  verifyRecord c sp
  let d ← integrityPlan e.pageSize e.cfg c.stackFar e.data
  verifyRecord c sp
  let e ← snapshotCaptureCurrent { e with data := d } m c.stackFar
  guardProtectCurrent e

section Current

variable {s : State} {c : TealetSub} {sp : Nat}

theorem verifyCurrentMatchesCaller_eq (hc : s.tealets s.gCurrent = some c) :
    verifyCurrentMatchesCaller s sp = verifyRecord c sp := by
  simp only [verifyCurrentMatchesCaller, verifyRecord, tealet_of hc, ok_bind]

theorem armIntegrity_eq (hc : s.tealets s.gCurrent = some c) :
    armIntegrity s sp = armEnv s.env s.mem c sp >>= fun e => .ok { s with env := e } := by
  simp only [armIntegrity, armEnv, verifyCurrentMatchesCaller_eq hc, tealet_of hc, ok_bind,
    bind_assoc]
  rfl

theorem checkCallerIsCurrent_eq (hc : s.tealets s.gCurrent = some c)
    (hx : c.flags.exited = false) :
    checkCallerIsCurrent s sp =
      verifyRecord c sp >>= fun _ => .ok (callerRejected s.env c.stackFar sp) := by
  simp only [checkCallerIsCurrent, tealet_of hc, ok_bind, require_of hx,
    verifyCurrentMatchesCaller_eq hc]
  rfl

/-- The one-shot signals do not matter to the check. -/
theorem verifyRecord_congr {c' : TealetSub} (hfar : c'.stackFar = c.stackFar)
    (hx : c'.flags.exited = c.flags.exited) : verifyRecord c' sp = verifyRecord c sp := by
  simp only [verifyRecord, hfar, hx]

theorem sat_armEnv_congr {E : Fault → Prop} {Q : Env → Prop} {c' : TealetSub} {e : Env}
    {m : Memory} (hfar : c'.stackFar = c.stackFar) (hx : c'.flags.exited = c.flags.exited)
    (h : Sat E Q (armEnv e m c sp)) : Sat E Q (armEnv e m c' sp) := by
  simp only [armEnv, verifyRecord_congr hfar hx, hfar]
  exact h

end Current

/-! ## What the environment keeps -/

/-- The configuration, and the space reserved for snapshots under it. -/
structure Env.SameConfig (e e' : Env) : Prop where
  cfg : e'.cfg = e.cfg
  pageSize : e'.pageSize = e.pageSize
  capacity : e'.data.snapshotCapacity = e.data.snapshotCapacity

theorem Env.SameConfig.refl (e : Env) : e.SameConfig e := ⟨rfl, rfl, rfl⟩

theorem Env.SameConfig.trans {e₁ e₂ e₃ : Env} (h : e₁.SameConfig e₂) (h' : e₂.SameConfig e₃) :
    e₁.SameConfig e₃ :=
  ⟨h'.cfg.trans h.cfg, h'.pageSize.trans h.pageSize, h'.capacity.trans h.capacity⟩

/-- Partial correctness. -/
abbrev Returns {α : Type} (Q : α → Prop) (x : Res α) : Prop := Sat (fun _ => True) Q x

theorem returns_any {α : Type} {x : Res α} : Returns (fun _ => True) x := by
  cases x <;> exact True.intro

theorem returns_require {f : Fn} {p : Prop} [Decidable p] : Returns (fun _ => p) (require f p) := by
  unfold require
  split
  · assumption
  · exact True.intro

theorem mprotect_sameConfig (e : Env) (base bytes : Nat) (lower : Bool) :
    e.SameConfig (e.mprotect base bytes lower).1 := by
  unfold Env.mprotect
  split <;> exact ⟨rfl, rfl, rfl⟩

theorem guardUnprotectCurrent_config (e : Env) :
    Returns e.SameConfig (guardUnprotectCurrent e) := by
  unfold guardUnprotectCurrent
  split
  · exact .refl e
  · refine returns_require.bind fun _ _ => ?_
    have h := mprotect_sameConfig e e.data.guardBase e.data.guardBytes false
    exact ⟨h.cfg, h.pageSize, h.capacity⟩

theorem snapshotVerifyCurrent_config (e : Env) (m : Memory) :
    Returns (fun p => e.SameConfig p.1 ∧ (p.2 = none ∨ p.2 = some .integrity))
      (snapshotVerifyCurrent e m) := by
  unfold snapshotVerifyCurrent
  split
  · exact ⟨.refl e, .inl rfl⟩
  · refine returns_require.bind fun _ _ => ?_
    dsimp only
    split
    · exact ⟨⟨rfl, rfl, rfl⟩, .inl rfl⟩
    · split
      · exact True.intro
      · split
        · exact ⟨⟨rfl, rfl, rfl⟩, .inr rfl⟩
        · exact True.intro

theorem integrityPlan_capacity (pageSize : Nat) (cfg : Config) (far : Nat) (d : IntegrityData) :
    Returns (fun d' => d'.snapshotCapacity = d.snapshotCapacity)
      (integrityPlan pageSize cfg far d) := by
  have hplan : ∀ p : IntegrityData × Nat, p.1.snapshotCapacity = d.snapshotCapacity →
      Returns (fun d' => d'.snapshotCapacity = d.snapshotCapacity) (if p.2 ≠ 0 then do
          require .integrityPlan (p.2 ≤ p.1.snapshotCapacity)
          return { p.1 with snapshotBytes := p.2 }
        else return p.1) := by
    intro p hp
    split
    · exact returns_require.bind fun _ _ => hp
    · exact hp
  unfold integrityPlan
  dsimp only
  by_cases hn : plannedBytes cfg far = 0
  · rw [if_pos hn]
    exact rfl
  · rw [if_neg hn]
    have hite : ∀ {q : Prop} {inst : Decidable q} {x y : IntegrityData × Nat},
        x.1.snapshotCapacity = d.snapshotCapacity → y.1.snapshotCapacity = d.snapshotCapacity →
        (ite q x y).1.snapshotCapacity = d.snapshotCapacity := by
      intro q inst x y hx hy
      split <;> assumption
    exact hplan _ (hite (hite rfl rfl) rfl)

theorem armEnv_config (e : Env) (m : Memory) (c : TealetSub) (sp : Nat) :
    Returns e.SameConfig (armEnv e m c sp) := by
  have hany : ∀ {x : Res Unit}, Returns (fun _ => True) x := fun {x} => by
    cases x <;> exact True.intro
  refine hany.bind fun _ _ => (integrityPlan_capacity ..).bind fun d hd => hany.bind fun _ _ => ?_
  have hcap : Returns (e.SameConfig)
      (snapshotCaptureCurrent { e with data := d } m c.stackFar) := by
    unfold snapshotCaptureCurrent
    split
    · exact ⟨rfl, rfl, hd⟩
    · refine hany.bind fun _ _ => hany.bind fun _ _ => hany.bind fun _ _ => ?_
      split <;> exact ⟨rfl, rfl, hd⟩
  refine hcap.bind fun e' he' => ?_
  unfold guardProtectCurrent
  split
  · exact he'
  · refine hany.bind fun _ _ => ?_
    have hm := mprotect_sameConfig e' e'.data.guardBase e'.data.guardBytes true
    have h := he'.trans hm
    dsimp only
    split
    · exact h
    · exact ⟨h.cfg, h.pageSize, h.capacity⟩

theorem armIntegrity_sat {E : Fault → Prop} {s : State} {c : TealetSub} {sp : Nat}
    (hc : s.tealets s.gCurrent = some c) (harm : Sat E (fun _ => True) (armEnv s.env s.mem c sp)) :
    Sat E (fun s' => ∃ e, s.env.SameConfig e ∧ armEnv s.env s.mem c sp = .ok e ∧
      s' = { s with env := e }) (armIntegrity s sp) := by
  rw [armIntegrity_eq hc]
  refine (harm.with_eq.and (armEnv_config ..)).bind ?_
  rintro e ⟨⟨heq, -⟩, he⟩
  exact ⟨e, he, heq, rfl⟩

/-! ## External faults -/

/-- `E` allows the faults of the checks before a transfer by the running
tealet with the record `c` from `sp`, and of arming the watch after it, for
that tealet or for the target with the record `r` at `spT`. -/
structure External (E : Fault → Prop) (e : Env) (m : Memory) (c r : TealetSub) (sp spT : Nat) :
    Prop where
  verify : Sat E (fun _ => True) (verifyRecord c sp)
  watch : Sat E (fun e' => Sat E (fun _ => True) (snapshotVerifyCurrent e' m))
    (guardUnprotectCurrent e)
  rearm : ∀ e' m', e.SameConfig e' → Sat E (fun _ => True) (armEnv e' m' c sp)
  arm : ∀ e' m', e.SameConfig e' → Sat E (fun _ => True) (armEnv e' m' r spT)

theorem verifyRecord_safe (c : TealetSub) (sp : Nat) :
    Safe (fun _ => True) (verifyRecord c sp) := by
  unfold verifyRecord
  refine (safe_require rfl).bind fun _ _ => ?_
  split
  · trivial
  · exact (safe_require rfl).bind fun _ _ => (safe_require rfl).imp fun _ _ => trivial

theorem snapshotPlan_safe (p : IntegrityData × Nat) :
    Safe (fun _ => True) (if p.2 ≠ 0 then do
        require .integrityPlan (p.2 ≤ p.1.snapshotCapacity)
        return { p.1 with snapshotBytes := p.2 }
      else return p.1) := by
  split
  · exact (safe_require rfl).bind fun _ _ => True.intro
  · exact True.intro

theorem integrityPlan_safe (pageSize : Nat) (cfg : Config) (far : Nat) (d : IntegrityData) :
    Safe (fun _ => True) (integrityPlan pageSize cfg far d) := by
  unfold integrityPlan
  dsimp only
  by_cases hn : plannedBytes cfg far = 0
  · rw [if_pos hn]
    exact True.intro
  · rw [if_neg hn]
    exact snapshotPlan_safe _

theorem guardUnprotectCurrent_safe (e : Env) : Safe (fun _ => True) (guardUnprotectCurrent e) := by
  unfold guardUnprotectCurrent
  split
  · trivial
  · exact (safe_require rfl).bind fun _ _ => trivial

theorem guardProtectCurrent_safe (e : Env) : Safe (fun _ => True) (guardProtectCurrent e) := by
  unfold guardProtectCurrent
  split
  · trivial
  · refine (safe_require rfl).bind fun _ _ => ?_
    split
    split <;> trivial

theorem snapshotCaptureCurrent_safe (e : Env) (m : Memory) (far : Nat) :
    Safe (fun _ => True) (snapshotCaptureCurrent e m far) := by
  unfold snapshotCaptureCurrent
  split
  · trivial
  · refine (safe_require rfl).bind fun _ _ => (safe_require rfl).bind fun _ _ =>
      (safe_require rfl).bind fun _ _ => ?_
    split <;> trivial

theorem snapshotVerifyCurrent_safe (e : Env) (m : Memory) :
    Safe (fun _ => True) (snapshotVerifyCurrent e m) := by
  unfold snapshotVerifyCurrent
  split
  · exact True.intro
  · refine (safe_require rfl).bind fun _ _ => ?_
    dsimp only
    split
    · exact True.intro
    · split
      · rfl
      · split
        · exact True.intro
        · rfl

theorem armEnv_safe (e : Env) (m : Memory) (c : TealetSub) (sp : Nat) :
    Safe (fun _ => True) (armEnv e m c sp) :=
  (verifyRecord_safe c sp).bind fun _ _ => (integrityPlan_safe ..).bind fun _ _ =>
    (verifyRecord_safe c sp).bind fun _ _ => (snapshotCaptureCurrent_safe ..).bind fun _ _ =>
    guardProtectCurrent_safe _

/-- None of these faults is internal. -/
theorem external_safe (e : Env) (m : Memory) (c r : TealetSub) (sp spT : Nat) :
    External (fun f => f.internal = false) e m c r sp spT where
  verify := verifyRecord_safe c sp
  watch := (guardUnprotectCurrent_safe e).imp fun e' _ => snapshotVerifyCurrent_safe e' m
  rearm e' m' _ := armEnv_safe e' m' c sp
  arm e' m' _ := armEnv_safe e' m' r spT

end Tealet
