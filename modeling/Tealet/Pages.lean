import Tealet.EnvRule
import Tealet.Plan
import Tealet.Trace

/-!
# Guarded pages

The recorded interval is all the library knows of the pages it has
protected. A call that releases the watch unprotects that interval, and
nothing else ever is unprotected; so stacks can only be copied safely if
whatever is protected lies inside it. A failing `mprotect` that protected
some of its pages breaks this, because the interval is forgotten.
-/

namespace Tealet

open Hoare

/-- What is protected lies in the recorded interval. -/
def Env.Contained (e : Env) : Prop := ∀ a, e.lowered a = true → e.data.InGuard a

def Env.Unprotected (e : Env) : Prop := ∀ a, e.lowered a = false

/-- A call of `mprotect` that fails leaves nothing protected in its range. -/
def FailuresUndone (mprotects : List (Option (Nat → Bool))) : Prop :=
  ∀ left, some left ∈ mprotects → ∀ a, left a = false

def Event.FailuresUndone : Event → Prop
  | .write _ => True
  | .call _ _ mprotects => Tealet.FailuresUndone mprotects

def Event.noFailures : Event → Bool
  | .write _ => true
  | .call _ _ mprotects => mprotects.all Option.isNone

theorem Event.noFailures_spec {e : Event} (h : e.noFailures = true) : e.FailuresUndone := by
  cases e with
  | write m => exact True.intro
  | call c allocs mprotects =>
      intro left hl
      exact absurd (List.all_eq_true.mp h _ hl) (by simp)

section Protection

variable {e e' : Env} {base bytes : Nat}

theorem Env.Unprotected.contained (h : e.Unprotected) : e.Contained := by
  intro a ha
  rw [h a] at ha
  cases ha

theorem Env.Contained.unprotected (h : e.Contained) (h0 : e.data.guardBytes = 0) :
    e.Unprotected := by
  intro a
  by_contra ha
  obtain ⟨h₁, h₂⟩ := h a (Bool.eq_true_of_not_eq_false ha)
  rw [h0] at h₂
  omega

theorem mprotect_undone {lower : Bool} (h : FailuresUndone e.mprotects) :
    FailuresUndone (e.mprotect base bytes lower).1.mprotects := by
  unfold Env.mprotect
  split
  · exact h
  all_goals
    rename_i heq
    rw [heq] at h
    exact fun l hl => h l (List.mem_cons_of_mem _ hl)

/-- Lifting the protection of a range clears it, whether the call succeeds or not. -/
theorem mprotect_lift (h : FailuresUndone e.mprotects) (a : Nat) :
    (e.mprotect base bytes false).1.lowered a =
      (e.lowered a && !decide (base ≤ a ∧ a < base + bytes)) := by
  unfold Env.mprotect
  split
  · by_cases ha : base ≤ a ∧ a < base + bytes <;> simp [ha]
  · by_cases ha : base ≤ a ∧ a < base + bytes <;> simp [ha]
  · rename_i left rest heq
    have hleft : left a = false := h left (by rw [heq]; exact List.mem_cons_self) a
    by_cases ha : base ≤ a ∧ a < base + bytes <;> simp [ha, hleft]

/-- Protecting a range of an unprotected memory protects it, or nothing if the call fails. -/
theorem mprotect_lower (base bytes : Nat) (h : FailuresUndone e.mprotects) (hu : e.Unprotected)
    (a : Nat) :
    (e.mprotect base bytes true).1.lowered a =
      ((e.mprotect base bytes true).2 && decide (base ≤ a ∧ a < base + bytes)) := by
  unfold Env.mprotect
  split
  · by_cases ha : base ≤ a ∧ a < base + bytes <;> simp [ha, hu a]
  · by_cases ha : base ≤ a ∧ a < base + bytes <;> simp [ha, hu a]
  · rename_i left rest heq
    have hleft : left a = false := h left (by rw [heq]; exact List.mem_cons_self) a
    by_cases ha : base ≤ a ∧ a < base + bytes <;> simp [ha, hleft, hu a]

/-- Releasing the guard leaves nothing protected. -/
theorem guardUnprotectCurrent_unprotected (h : e.Contained) (hf : FailuresUndone e.mprotects) :
    Returns (fun e' => e'.Unprotected ∧ FailuresUndone e'.mprotects) (guardUnprotectCurrent e) := by
  unfold guardUnprotectCurrent
  by_cases h0 : e.data.guardBytes = 0
  · exact Sat.ite_true h0 ⟨h.unprotected h0, hf⟩
  · refine Sat.ite_false h0 (returns_any.bind fun _ _ => ⟨fun a => ?_, mprotect_undone hf⟩)
    refine (mprotect_lift hf a).trans ?_
    by_cases ha : e.lowered a = true
    · obtain ⟨h₁, h₂⟩ := h a ha
      simp [ha, h₁, h₂]
    · simp [ha]

/-- What is protected was recorded; a failing call records nothing and protects nothing. -/
theorem guardProtectCurrent_contained (hu : e.Unprotected) (hf : FailuresUndone e.mprotects) :
    Returns (fun e' => e'.Contained ∧ FailuresUndone e'.mprotects) (guardProtectCurrent e) := by
  unfold guardProtectCurrent
  by_cases h0 : e.data.guardBytes = 0
  · exact Sat.ite_true h0 ⟨hu.contained, hf⟩
  refine Sat.ite_false h0 (returns_any.bind fun _ _ => ?_)
  have hlow := mprotect_lower e.data.guardBase e.data.guardBytes hf hu
  have hdata : (e.mprotect e.data.guardBase e.data.guardBytes true).1.data = e.data := by
    unfold Env.mprotect
    split <;> rfl
  have hundone : FailuresUndone (e.mprotect e.data.guardBase e.data.guardBytes true).1.mprotects :=
    mprotect_undone hf
  revert hlow hdata hundone
  generalize e.mprotect e.data.guardBase e.data.guardBytes true = p
  rintro hlow hdata hundone
  obtain ⟨e₁, ok⟩ := p
  cases ok with
  | true =>
      refine ⟨fun a ha => ?_, hundone⟩
      rw [hlow a] at ha
      rw [IntegrityData.InGuard, hdata]
      simpa using ha
  | false => exact ⟨Env.Unprotected.contained fun a => by simpa using hlow a, hundone⟩

theorem snapshotVerifyCurrent_pages (e : Env) (m : Memory) :
    Returns (fun p => p.1.lowered = e.lowered ∧ p.1.mprotects = e.mprotects)
      (snapshotVerifyCurrent e m) := by
  unfold snapshotVerifyCurrent
  split
  · exact ⟨rfl, rfl⟩
  · refine returns_any.bind fun _ _ => ?_
    dsimp only
    split
    · exact ⟨rfl, rfl⟩
    · split
      · exact True.intro
      · split
        · exact ⟨rfl, rfl⟩
        · exact True.intro

theorem snapshotCaptureCurrent_pages (e : Env) (m : Memory) (far : Nat) :
    Returns (fun e' => e'.lowered = e.lowered ∧ e'.mprotects = e.mprotects)
      (snapshotCaptureCurrent e m far) := by
  unfold snapshotCaptureCurrent
  split
  · exact ⟨rfl, rfl⟩
  · refine returns_any.bind fun _ _ => returns_any.bind fun _ _ => returns_any.bind fun _ _ => ?_
    split <;> exact ⟨rfl, rfl⟩

theorem armEnv_contained {m : Memory} {c : TealetSub} {sp : Nat} (hu : e.Unprotected)
    (hf : FailuresUndone e.mprotects) :
    Returns (fun e' => e'.Contained ∧ FailuresUndone e'.mprotects) (armEnv e m c sp) := by
  unfold armEnv
  refine returns_any.bind fun _ _ => returns_any.bind fun d _ => returns_any.bind fun _ _ => ?_
  refine (snapshotCaptureCurrent_pages { e with data := d } m c.stackFar).bind fun e₁ h₁ => ?_
  have hu₁ : e₁.Unprotected := by
    intro a
    rw [h₁.1]
    exact hu a
  exact guardProtectCurrent_contained hu₁ (by rw [h₁.2]; exact hf)

/-- A new configuration leaves the recorded interval alone. -/
theorem configureSet_pages (s : State) (request : Config) :
    (configureSet s request).1.env.lowered = s.env.lowered ∧
    (configureSet s request).1.env.mprotects = s.env.mprotects ∧
    (configureSet s request).1.env.data.guardBase = s.env.data.guardBase ∧
    (configureSet s request).1.env.data.guardBytes = s.env.data.guardBytes := by
  unfold configureSet
  dsimp only
  split
  all_goals
    rename_i e heq
    unfold snapshotEnsureCapacity at heq
    split at heq
    · cases heq
      try exact ⟨rfl, rfl, rfl, rfl⟩
    · split at heq <;> cases heq
      exact ⟨rfl, rfl, rfl, rfl⟩

end Protection

/-! ## Runs -/

/-- Inside a call and between calls what is protected is recorded; while
stacks are copied nothing is. -/
theorem pagesRule : EnvRule (fun e => e.Contained ∧ FailuresUndone e.mprotects)
    (fun e => e.Contained ∧ FailuresUndone e.mprotects)
    (fun e => e.Unprotected ∧ FailuresUndone e.mprotects) where
  lock {e} h := by
    unfold Env.lockAuto
    split <;> exact h
  unlock {e} h := by
    unfold Env.unlockAuto
    split <;> exact h
  books {e e'} h hb := by
    obtain ⟨n, c, f, g, rfl⟩ := hb
    exact h
  copying {e e'} h hb := by
    obtain ⟨n, c, f, g, rfl⟩ := hb
    exact h
  release {e m} h := by
    refine (guardUnprotectCurrent_unprotected h.1 h.2).bind fun e₁ h₁ => ?_
    refine (snapshotVerifyCurrent_pages e₁ m).imp fun p hp => ?_
    have hu : p.1.Unprotected := by
      intro a
      rw [hp.1]
      exact h₁.1 a
    have hf : FailuresUndone p.1.mprotects := by
      rw [hp.2]
      exact h₁.2
    exact ⟨fun _ => ⟨hu, hf⟩, fun _ => ⟨hu.contained, hf⟩⟩
  arm h := armEnv_contained h.1 h.2
  configure {s q} h := by
    obtain ⟨hl, hm, hb, hn⟩ := configureSet_pages s q
    refine ⟨fun a ha => ?_, hm ▸ h.2⟩
    rw [hl] at ha
    rw [IntegrityData.InGuard, hb, hn]
    exact h.1 a ha

theorem Env.Contained.step {s s' : State} {e : Event} {o : Outcome} (h : s.env.Contained)
    (he : e.FailuresUndone) (hs : step s e = .ok (s', o)) : s'.env.Contained := by
  cases e with
  | write m =>
      cases hs
      exact h
  | call c allocs mprotects =>
      exact ((pagesRule.passes.callStep (s := s.withChoices allocs mprotects) ⟨h, he⟩
        c).result hs).1

/-- If every failing `mprotect` call leaves nothing protected in its range, then between
calls what is protected lies in the recorded interval, nothing is protected while
stacks are saved, grown and restored, and nothing is after `tealet_finalize`. -/
theorem guarded_pages {mem : Memory} {env : Env} {s : State} (hlow : env.Unprotected)
    (h : Run (fun _ e => e.FailuresUndone) (initial mem env) s) :
    s.env.Contained ∧
    (∀ (e : Event) s₂, e.FailuresUndone → e.Copies s s₂ →
      s₂.env.Unprotected ∧
      ∀ k sp, Returns (fun p => p.1.env.Unprotected) (stackmanSwitch s₂ k sp)) ∧
    ∀ t mprotects, FailuresUndone mprotects →
      Returns Env.Unprotected (finalize (s.withChoices [] mprotects) t) := by
  have hcont : s.env.Contained := h.invariant (I := fun s => s.env.Contained) hlow.contained
    fun _ _ _ _ h₁ he hs => h₁.step he hs
  refine ⟨hcont, ?_, ?_⟩
  · intro e s₂ he hc
    cases e with
    | write m => exact hc.elim
    | call c allocs mprotects =>
        have hu : s₂.env.Unprotected :=
          (pagesRule.copies (s := s.withChoices allocs mprotects) ⟨hcont, he⟩ hc).1
        refine ⟨hu, fun k sp => (stackmanSwitch_books s₂ k sp).imp fun p hp => ?_⟩
        obtain ⟨n, c, f, g, heq⟩ := hp
        rw [heq]
        exact hu
  · intro t mprotects hm
    unfold finalize
    refine returns_any.bind fun _ _ => returns_any.bind fun _ _ => ?_
    exact (guardUnprotectCurrent_unprotected (e := (s.withChoices [] mprotects).env) hcont hm).bind
      fun e₁ h₁ => h₁.1

/-- Main starts a guarded tealet and is switched back to: the guard is protected, and lifted
again. -/
theorem guarded_pages_lifted : ∃ s s' o,
    Run (fun _ e => e.FailuresUndone) (initial (fun _ => 0) {}) s ∧
    s.gCurrent = 1 ∧ s.env.data.guardBytes = 8192 ∧ s.env.lowered 5000 = true ∧
    s.env.Contained ∧ step s (.call (.switch 0 none {} 980) [] []) = .ok (s', o) ∧
    s'.gCurrent = 0 ∧ s'.env.lowered 5000 = false ∧ s'.env.Contained := by
  obtain ⟨s, hrun, hs⟩ := exists_run_of_trace (P := fun _ e => e.FailuresUndone)
    (p := fun _ e => e.noFailures) (fun _ e h => Event.noFailures_spec h)
    [.call (.configure { integrity := true, guard := true, stackIntegrityBytes := 8192 }) [] [],
      .call .new [] [], .call (.run 1 7 none null true ⟨1000, 990⟩) [] []]
    (s := initial (fun _ => 0) {})
    (fun s => decide (s.gCurrent = 1) && decide (s.env.data.guardBytes = 8192) &&
      s.env.lowered 5000 && endsIn (step s (.call (.switch 0 none {} 980) [] [])) fun p =>
        decide (p.1.gCurrent = 0) && !p.1.env.lowered 5000) (by decide +kernel)
  simp only [Bool.and_eq_true, decide_eq_true_eq] at hs
  obtain ⟨⟨⟨hcur, hbytes⟩, hlow⟩, hstep⟩ := hs
  obtain ⟨⟨s', o⟩, heq, hp⟩ := endsIn_spec hstep
  simp only [Bool.and_eq_true, decide_eq_true_eq, Bool.not_eq_true'] at hp
  have hrun' := hrun.tail (Event.noFailures_spec rfl) heq
  exact ⟨s, s', o, hrun, hcur, hbytes, hlow, (guarded_pages (fun _ => rfl) hrun).1, heq, hp.1,
    hp.2, (guarded_pages (fun _ => rfl) hrun').1⟩

/-! ## A failing call that protects some pages -/

/-- The `mprotect` call that releases a guard succeeds. -/
def Event.UnprotectsSucceed (s : State) : Event → Prop
  | .write _ => True
  | .call c allocs mprotects => ∀ w, Switches (s.withChoices allocs mprotects) c w →
      w.state.env.data.guardBytes ≠ 0 → ∀ left rest, w.state.env.mprotects ≠ some left :: rest

/-- No guard is to be released in a call that is no transfer. -/
def Event.unguarded (s : State) : Event → Bool
  | .write _ => false
  | .call c _ _ =>
      decide (s.env.data.guardBytes = 0) &&
        match c with
        | .new | .run _ _ _ _ _ _ | .configure _ => true
        | _ => false

theorem lockAuto_data (e : Env) : e.lockAuto.data = e.data := by
  unfold Env.lockAuto
  split <;> rfl

theorem startStage_data (s : State) (t : TealetId) (r : TealetSub) (sw : Bool) :
    (startStage s t r sw).env.data = s.env.data := by
  have h : s.lockAuto.env.data = s.env.data := lockAuto_data s.env
  cases sw <;> exact h

theorem Event.unguarded_spec {s : State} {e : Event} (h : e.unguarded s = true) :
    e.UnprotectsSucceed s := by
  cases e with
  | write m => exact True.intro
  | call c allocs mprotects =>
      obtain ⟨h0, hc⟩ := Bool.and_eq_true_iff.mp h
      rintro w hw hg
      cases hw with
      | xfer hq =>
          have hno : c.request (s.withChoices allocs mprotects) = none := by
            cases c <;> first | rfl | cases hc
          rw [hno] at hq
          cases hq
      | run ht =>
          dsimp only at hg
          rw [startStage_data] at hg
          exact absurd (of_decide_eq_true h0) hg
      | spawn hnew ht => cases hc
      | fork ht hcur hfar => cases hc

/-- The guard of a tealet cannot be set up, and one of its pages stays protected. -/
theorem partial_protection :
    ¬ ∀ mem env s, env.Fresh → env.Unprotected →
      Run (fun s e => Legal s e ∧ e.UnprotectsSucceed s) (initial mem env) s → s.env.Contained := by
  intro h
  obtain ⟨s, hrun, hs⟩ := exists_run_of_trace
    (P := fun s e => Legal s e ∧ e.UnprotectsSucceed s)
    (p := fun s e => e.legal s && e.unguarded s)
    (fun s e h => by
      obtain ⟨h₁, h₂⟩ := Bool.and_eq_true_iff.mp h
      exact ⟨Event.legal_spec h₁, Event.unguarded_spec h₂⟩)
    [.call (.configure { integrity := true, guard := true, stackIntegrityBytes := 8192 }) [] [],
      .call .new [] [],
      .call (.run 1 7 none null true ⟨1000, 990⟩) [] [some fun a => decide (a < 8192)]]
    (s := initial (fun _ => 0) {})
    (fun s => s.env.lowered 5000 && decide (s.env.data.guardBytes = 0)) (by decide +kernel)
  simp only [Bool.and_eq_true, decide_eq_true_eq] at hs
  obtain ⟨hlow, hnone⟩ := hs
  have hin := h _ _ s ⟨rfl, rfl⟩ (fun _ => rfl) hrun 5000 hlow
  rw [IntegrityData.InGuard, hnone] at hin
  omega

end Tealet
