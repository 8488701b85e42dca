import Tealet.Conserving

/-!
# Unforced transfers that fail

A transfer without FORCE and NOFAIL that returns `TEALET_ERR_MEM` has only
grown stacks of `g_prev` (`Transparent`), and where nothing is lost on the
way every suspended tealet finds its stack when it is resumed, however much
later (`failed_transfer_transparent`). What is lost is the target that was
taken out of `g_prev`, before the save of the running tealet failed.
-/

namespace Tealet

open DList Slice Hoare

/-- A call that is made without FORCE and NOFAIL. -/
def Call.Unforced : Call → Prop
  | .switch _ _ flags _ | .exit _ _ flags _ => flags.force = false ∧ flags.nofail = false
  | .run .. | .fork .. => True
  | _ => False

/-- No pending request puts FORCE or NOFAIL into effect for an exit. -/
def Call.PendingUnforced (s : State) : Call → Prop
  | .exit .. => s.gFlags.xfer.defer = true →
      s.gFlags.xfer.force = false ∧ s.gFlags.xfer.nofail = false
  | _ => True

/-- The tealet that a call starts. -/
def Call.child : Call → Option TealetId
  | .run t .. | .fork t .. => some t
  | _ => none

/-- The call `c` in `s` failed and left `s'`. -/
structure Transparent (s s' : State) (c : Call) : Prop where
  current : s'.gCurrent = s.gCurrent
  previous : s'.gPrevious = s.gPrevious
  status : ∀ t, s'.statusOf t = s.statusOf t
  child : ∀ t, c.child = some t → s'.statusOf t = some .new

section Failed

variable {leak : StackId → Nat} {v : View} {s s₀ s' : State} {a : Saved} {c : Call} {q : Request}
  {x : Option Ptr} {cr : Option TealetId} {t : TealetId}

/-- A growth that may fail changes no status. -/
theorem Core.status_grow (H : Core leak v) (target : Option StackId) (F : Nat)
    (allocs : List Bool) (t : TealetId) :
    (v.grow (v.growth target F true allocs)).statusOf t = v.statusOf t := by
  cases hr : v.tealets t with
  | none => simp [View.statusOf, View.grow, hr]
  | some r =>
      rcases statusOf_grow H hr target F true allocs with h | ⟨-, hf, -⟩
      · exact h
      · cases hf

/-- The flags in effect are those of the call, or of the pending request. -/
theorem request_unforced (hq : c.request s = some (s₀, q)) (hU : c.Unforced)
    (hP : c.PendingUnforced s) : q.flags.force = false := by
  cases c with
  | switch t parg flags sp =>
      cases hq
      exact hU.1
  | exit t arg flags sp =>
      simp only [Call.request, exitRequest] at hq
      split at hq
      · cases hq
      · split at hq
        · rename_i hd
          cases hq
          exact (hP hd).1
        · cases hq
          exact hU.1
  | ret => exact hU.elim
  | _ => cases hq

theorem Starved.transparent {cc r : TealetSub} {kt : StackId} {im : Image} {g : Growth}
    (I : Inv leak s a) (h : Starved s a q cc r kt im g s') (hf : q.flags.force = false)
    (t : TealetId) : s'.statusOf t = s.statusOf t := by
  obtain ⟨own, H⟩ := I.rep
  obtain ⟨own', H'⟩ := h.rep
  have hmay : mayFail s.gCurrent q.flags = true := by simp [mayFail, hf]
  have hg := h.growth
  rw [hmay] at hg
  rw [statusOf_view H', statusOf_view H,
    ← I.core.status_grow r.stack r.stackFar s.heap.allocs t, hg]
  show (s'.tealets t).map _ = (s.tealets t).map _
  rw [h.tealets]
  rfl

/-- A start that failed for want of memory. -/
theorem StartEnd.transparent {cc r : TealetSub} {sw : Bool} {prev : Option TealetId} {k : Frame}
    {sp : Nat} (I : Inv leak s a) (hnew : s.tealets t = some {})
    (h : StartEnd s a t cc r sw false prev k sp (s', .returned (.err .mem) x cr)) :
    s'.gCurrent = s.gCurrent ∧ s'.gPrevious = s.gPrevious ∧
      (∀ u, s'.statusOf u = s.statusOf u) ∧ s'.statusOf t = some .new := by
  obtain ⟨own, H⟩ := I.rep
  cases h with
  | refused he hprev hflags ha h =>
      have ho := h.outcome
      rcases he with rfl | rfl <;> cases ho
  | started hsp hg hok hrep hT ha hprev hflags hout =>
      cases k <;> simp [startOutcome] at hout
      split at hout <;> cases hout
  | @nomem s₁ a' g hg hfate hprev hflags ha h =>
      obtain ⟨own', H'⟩ := h.rep
      have hview : s'.view a' = (s.view a).grow g := h.view
      have hpr : s'.gPrevious = s₁.gPrevious := by simpa using h.previous
      have hst : ∀ u, s'.statusOf u = s.statusOf u := by
        intro u
        rw [statusOf_view H', statusOf_view H, hview, ← hg]
        exact I.core.status_grow ..
      refine ⟨congrArg View.current hview, hpr.trans hprev, hst, ?_⟩
      rw [hst t, State.statusOf, hnew]
      rfl

theorem Inv.transparent (I : Inv leak s a) (hL : c.Legal s) (hU : c.Unforced)
    (hP : c.PendingUnforced s) (hs : callStep s c = .ok (s', .returned (.err .mem) x cr)) :
    Transparent s s' c := by
  have hreq : ∀ s₀ q, c.request s = some (s₀, q) → c.child = none → Transparent s s' c := by
    intro s₀ q hq hc
    obtain ⟨-, s₁, cc, r, kt, im, g, hst, rfl⟩ := I.request_starved hL hq hs
    obtain ⟨I₀, -⟩ := I.withRequest hq
    have hstatus := hst.transparent I₀ (request_unforced hq hU hP)
    obtain ⟨fl, ar, rfl, -⟩ := request_state hq
    exact ⟨hst.current, hst.previous, hstatus, fun t ht => by rw [hc] at ht; cases ht⟩
  cases c with
  | switch t parg flags sp => exact hreq _ _ rfl rfl
  | exit t arg flags sp =>
      by_cases hd : flags.defer = true
      · simp only [callStep, exit, if_pos hd] at hs
        obtain ⟨-, -, hs⟩ := bind_ok hs
        obtain ⟨-, -, hs⟩ := bind_ok hs
        obtain ⟨-, -, hs⟩ := bind_ok hs
        cases hs
      · exact hreq _ _ (if_neg hd) rfl
  | run t fn parg hint sw site =>
      rcases (I.run_start false hL.1 hL.2.1 hL.2.2).result hs with
        ⟨-, hp⟩ | ⟨hnew, cc, r, -, -, -, h⟩
      · cases hp
      · obtain ⟨h₁, h₂, h₃, h₄⟩ := h.transparent I.lockAuto hnew
        exact ⟨h₁, h₂, h₃, fun u hu => Option.some.inj hu ▸ h₄⟩
  | fork t parg sw site =>
      rcases (I.fork_start hL.1 hL.2).result hs with ⟨e, rfl | rfl, hp⟩ | ⟨hnew, cc, r, -, -, h⟩
      · cases hp
      · cases hp
      · obtain ⟨h₁, h₂, h₃, h₄⟩ := h.transparent I.lockAuto hnew
        exact ⟨h₁, h₂, h₃, fun u hu => Option.some.inj hu ▸ h₄⟩
  | _ => exact hU.elim

/-- Every stack that is not in `g_prev` is saved up to its boundary. -/
theorem Inv.linked (I : Inv leak s a) (Is : Isolated (s.view a)) {k : StackId} {st : Stack}
    (hst : s.heap.stackAt k = some st) (hd : st.defunct = false) (hlt : st.top < st.stackFar) :
    s.heap.Linked k := by
  obtain ⟨own, H⟩ := I.rep
  obtain ⟨im, him, hrep⟩ := H.stackAt_isSome hst
  refine H.linked_iff.mpr ?_
  by_contra hk
  have hfull := Is.clear.full k im him (hrep.defunct.symm.trans hd) hk id
  have htop : st.top = im.top := by
    rw [Stack.top, hrep.near, hrep.saved]
    rfl
  rw [htop, hrep.far] at hlt
  exact Nat.not_lt_of_le hfull hlt

end Failed

/-- An unforced transfer that returns `TEALET_ERR_MEM` is transparent in
runs whose calls lose no stack: nothing changed for the caller, what is not
saved in full is in `g_prev`, and whoever was suspended, the target
included, finds on its stack what was there when it was suspended. -/
theorem failed_transfer_transparent {mem : Memory} {env : Env} {s s' : State}
    {past : TealetId → Past} (hrun : RunWith Conserving (initial mem env) s past) {c : Call}
    {allocs : List Bool} {mprotects : List (Option (Nat → Bool))} {x : Option Ptr}
    {cr : Option TealetId} (he : Conserving s (.call c allocs mprotects)) (hU : c.Unforced)
    (hP : c.PendingUnforced s)
    (hs : step s (.call c allocs mprotects) = .ok (s', .returned (.err .mem) x cr)) :
    Transparent s s' c ∧
      (∀ k st, s'.heap.stackAt k = some st → st.defunct = false → st.top < st.stackFar →
        s'.heap.Linked k) ∧
      ∀ t st, s.saved t = some st → ∀ s₂ e s₃ o,
        Run (fun s e => Conserving s e ∧ s.gCurrent ≠ t) s' s₂ → s₂.gCurrent ≠ t →
        Conserving s₂ e → step s₂ e = .ok (s₃, o) → s₃.gCurrent = t →
        ∀ y, (past t).near ≤ y → y < st.stackFar → s₃.mem y = (past t).mem y := by
  obtain ⟨a, I, Is, R⟩ := hrun.recalled fun _ he => he.prudent
  obtain ⟨own, H⟩ := I.rep
  have hL : c.Legal (s.withChoices allocs mprotects) := by
    have hL := he.legal
    cases c <;> exact hL
  have hP' : c.PendingUnforced (s.withChoices allocs mprotects) := by
    cases c <;> exact hP
  obtain ⟨h₁, h₂, h₃, h₄⟩ := (I.withChoices allocs mprotects).transparent hL hU hP' hs
  obtain ⟨a', I', Is', F, L, -⟩ := he.prudent.follows I Is hs
  refine ⟨⟨h₁, h₂, h₃, h₄⟩, fun k st hst hd hlt => I'.linked Is' hst hd hlt, ?_⟩
  intro t st hst s₂ e s₃ o hcont ht₂ he₂ hs₂ ht₃
  obtain ⟨k, hk, im, him, hfar⟩ : ∃ k, (s.view a).stackOf t = some k ∧ ∃ im, a.img k = some im ∧
      im.far = st.stackFar := by
    cases hk : (s.view a).stackOf t with
    | none => simp [saved_none hk] at hst
    | some k =>
        obtain ⟨im, him⟩ := I.core.img_of_stackOf hk
        obtain ⟨st', hst', -, hrep⟩ := saved_eq H hk him
        obtain rfl := Option.some.inj (hst.symm.trans hst')
        exact ⟨k, rfl, im, him, hrep.far.symm⟩
  have hA : (s.view a).Awaits t (past t).near st.stackFar (past t).mem := by
    refine ⟨I.core.stackOf_lt hk, .inr ⟨k, im, hk, him, fun hd => ?_⟩⟩
    have hrec := R t k im hk him hd
    refine ⟨hrec.near, hfar, fun y hy hf => hrec.value y (hrec.near ▸ hy) (hfar ▸ hf)⟩
  have ht : s'.gCurrent ≠ t := by
    obtain ⟨cc, hc, -, hcs⟩ := I.sched.running
    rw [h₁]
    rintro rfl
    cases ((stackOf_eq hc).trans hcs).symm.trans hk
  obtain ⟨a₂, I₂, Is₂, hA₂⟩ := hcont.awaits I' Is' (F.awaits L I.core I'.core ht.symm hA) ht₂
  obtain ⟨a₃, I₃, -, F₃, L₃, -⟩ := he₂.prudent.follows I₂ Is₂ hs₂
  obtain ⟨c₃, hc₃, -⟩ := I₃.sched.running
  subst ht₃
  exact F₃.found L₃ he₂.sound' (by rw [hc₃]; nofun) (fun h => ht₂ h.symm) hA₂

/-- Main cannot be saved when it switches back to a tealet that it left. It
writes over that tealet's stack, and then resumes it. -/
theorem failed_transfer_transparent_main : ∃ s past s' s₃ o,
    RunWith Conserving (initial UInt8.ofNat {}) s past ∧
    step s (.call (.switch 1 none {} 900) [false] []) = .ok (s', .returned (.err .mem) none) ∧
    Transparent s s' (.switch 1 none {} 900) ∧
    Run (fun s e => Conserving s e ∧ s.gCurrent ≠ 1) s' (s'.overwritten 1000) ∧
    step (s'.overwritten 1000) (.call (.switch 1 none {} 900) [] []) = .ok (s₃, o) ∧
    s₃.gCurrent = 1 ∧ s₃.mem 950 = 182 ∧
    ∀ y, (past 1).near ≤ y → y < 1000 → s₃.mem y = (past 1).mem y := by
  obtain ⟨s, hrun, hq⟩ := exists_run_of_trace (p := Event.conserving)
    (fun _ _ => Event.conserving_spec)
    [.call .new [] [], .call (.run 1 7 none null true ⟨1000, 990⟩) [] [],
      .call (.switch 0 none {} 900) [] []]
    (s := initial UInt8.ofNat {})
    (fun s => Event.conserving s (.call (.switch 1 none {} 900) [false] []) &&
      decide ((s.saved 1).map Stack.stackFar = some 1000) &&
      endsIn (step s (.call (.switch 1 none {} 900) [false] [])) fun p =>
        decide (p.2 = .returned (.err .mem) none) &&
        decide (p.1.gCurrent = 0 ∧ runningFar p.1 = spFurthest) &&
        Event.conserving (p.1.overwritten 1000) (.call (.switch 1 none {} 900) [] []) &&
        endsIn (step (p.1.overwritten 1000) (.call (.switch 1 none {} 900) [] [])) fun p =>
          decide (p.1.gCurrent = 1) && decide (p.1.mem 950 = 182)) (by decide +kernel)
  simp only [Bool.and_eq_true, decide_eq_true_eq] at hq
  obtain ⟨⟨he, hsaved⟩, hstep⟩ := hq
  obtain ⟨st, hst, hfar⟩ := Option.map_eq_some_iff.mp hsaved
  obtain ⟨⟨s', o⟩, hs, hp⟩ := endsIn_spec hstep
  simp only [Bool.and_eq_true, decide_eq_true_eq] at hp
  obtain ⟨⟨⟨ho, hcur, hrf⟩, he'⟩, hstep'⟩ := hp
  obtain rfl : o = _ := ho
  obtain ⟨⟨s₃, o₃⟩, hs₃, hp₃⟩ := endsIn_spec hstep'
  simp only [Bool.and_eq_true, decide_eq_true_eq] at hp₃
  obtain ⟨past, hpast⟩ := hrun.runWith
  have hne : s'.gCurrent ≠ 1 := by
    rw [hcur]
    decide
  have hwrite : Conserving s' (.write (s'.overwritten 1000).mem) := .write fun y hy => by
    rw [hrf] at hy
    exact if_neg (Nat.not_lt.mpr (Nat.le_trans (by decide) hy))
  have hcont : Run (fun s e => Conserving s e ∧ s.gCurrent ≠ 1) s' (s'.overwritten 1000) :=
    Run.refl.tail ⟨hwrite, hne⟩ rfl
  obtain ⟨htransparent, -, hlater⟩ := failed_transfer_transparent hpast
    (Event.conserving_spec he) ⟨rfl, rfl⟩ True.intro hs
  refine ⟨s, past, s', s₃, o₃, hpast, hs, htransparent, hcont, hs₃, hp₃.1, hp₃.2, ?_⟩
  intro y hy hlt
  exact hlater 1 st hst _ _ _ _ hcont hne (Event.conserving_spec he') hs₃ hp₃.1 y hy
    (hfar.symm ▸ hlt)

/-- The memory with another byte at 2500. -/
def scribble (m : Memory) : Memory := fun y => if y = 2500 then 9 else m y

/-- Main was taken out of `g_prev`, and the next tealet with a boundary
beyond that of the first writes to its stack. -/
theorem failed_switch_loses_target : ∃ s s' k st s₂ s₃ o,
    Run (fun s e => Legal s e ∧ e.PanicFree s) (initial (fun _ => 0) {}) s ∧
    Legal s (.call (.switch 0 none {} 900) [false] []) ∧
    step s (.call (.switch 0 none {} 900) [false] []) = .ok (s', .returned (.err .mem) none) ∧
    (s'.heap.stackAt k = some st ∧ st.defunct = false ∧ st.top < st.stackFar ∧
      ¬ s'.heap.Linked k) ∧
    Run (fun s e => (Legal s e ∧ e.PanicFree s) ∧ s.gCurrent ≠ 0) s' s₂ ∧ s₂.gCurrent ≠ 0 ∧
    Legal s₂ (.call (.switch 0 none {} 800) [] []) ∧
    step s₂ (.call (.switch 0 none {} 800) [] []) = .ok (s₃, o) ∧ s₃.gCurrent = 0 ∧
    s.mem 2500 = 0 ∧ s₃.mem 2500 = 9 := by
  have hp : ∀ s e, (e.legal s && e.panicFree s) = true → Legal s e ∧ e.PanicFree s := fun s e h =>
    ⟨Event.legal_spec (Bool.and_eq_true_iff.mp h).1,
      Event.panicFree_spec (Bool.and_eq_true_iff.mp h).2⟩
  have hp' : ∀ s e, ((e.legal s && e.panicFree s) && decide (s.gCurrent ≠ 0)) = true →
      (Legal s e ∧ e.PanicFree s) ∧ s.gCurrent ≠ 0 := fun s e h =>
    ⟨hp s e (Bool.and_eq_true_iff.mp h).1, of_decide_eq_true (Bool.and_eq_true_iff.mp h).2⟩
  obtain ⟨s, hrun, hq⟩ := exists_run_of_trace hp
    [.call .new [] [], .call (.run 1 7 none null true ⟨1000, 990⟩) [] []]
    (s := initial (fun _ => 0) {})
    (fun s => Event.legal s (.call (.switch 0 none {} 900) [false] []) && decide (s.mem 2500 = 0) &&
      endsIn (step s (.call (.switch 0 none {} 900) [false] [])) fun p =>
        decide (p.2 = .returned (.err .mem) none) &&
        (((p.1.heap.stackAt 0).any fun (st : Stack) => !st.defunct &&
          decide (st.top < st.stackFar)) &&
          p.1.heap.gPrev.isNone) &&
        decide (((trace (fun s e => (e.legal s && e.panicFree s) && decide (s.gCurrent ≠ 0)) p.1
          [.call .new [] [], .call (.run 2 7 none 3000 true ⟨890, 880⟩) [] []]).map fun s₁ =>
            decide (runningFar s₁ = 3000 ∧ s₁.gCurrent ≠ 0 ∧ Alive s₁ 0) &&
            endsIn (step { s₁ with mem := scribble s₁.mem } (.call (.switch 0 none {} 800) [] []))
              fun p => decide (p.1.gCurrent = 0 ∧ p.1.mem 2500 = 9)) = some true))
    (by decide +kernel)
  simp only [Bool.and_eq_true, decide_eq_true_eq] at hq
  obtain ⟨⟨hL, hmem⟩, hstep⟩ := hq
  obtain ⟨⟨s', o⟩, hs, hp₁⟩ := endsIn_spec hstep
  simp only [Bool.and_eq_true, decide_eq_true_eq, Option.any_eq_true, Bool.not_eq_true'] at hp₁
  obtain ⟨⟨rfl, ⟨st, hst, hd, hlt⟩, hnone⟩, htrace⟩ := hp₁
  obtain ⟨s₁, hrun₁, hq₁⟩ := exists_run_of_trace hp' _ _ htrace
  simp only [Bool.and_eq_true, decide_eq_true_eq] at hq₁
  obtain ⟨⟨hfar, hcur, halive⟩, hlast⟩ := hq₁
  obtain ⟨⟨s₃, o₃⟩, hs₃, hp₃⟩ := endsIn_spec hlast
  obtain ⟨hcur₃, hmem₃⟩ := of_decide_eq_true hp₃
  have hw : Legal s₁ (.write (scribble s₁.mem)) := by
    intro y hy
    rw [hfar] at hy
    exact if_neg (by omega)
  refine ⟨s, s', 0, st, _, s₃, o₃, hrun, Event.legal_spec hL, hs, ⟨hst, hd, hlt, ?_⟩,
    hrun₁.tail ⟨⟨hw, ?_⟩, hcur⟩ rfl, hcur, ⟨halive, by decide⟩, hs₃, hcur₃, hmem, hmem₃⟩
  · rintro ⟨l, hl, hk⟩
    have hhead : s'.heap.gPrev = l.head? := hl.head_eq
    rw [hhead, Option.isNone_iff_eq_none, List.head?_eq_none_iff] at hnone
    rw [hnone] at hk
    cases hk
  · rintro s₁ t f isExit allocs ⟨-, h⟩
    cases h

end Tealet
