import Tealet.Coroutine

/-!
# Suspended stacks survive

The stack of a suspended tealet along a run in which it does not run
(`suspended_survives`): whatever runs, is started, duplicated, deleted or
exits meanwhile, and whichever allocations fail, it is what it was until
the tealet is resumed, which then finds it in memory. It can be lost to a
forced transfer, but not without a word: the tealet is DEFUNCT from then
on, and never runs again.
-/

namespace Tealet

open DList Slice Relation Simulation

/-- No transfer that the event attempts is forced. -/
def Event.Unforced (s : State) (e : Event) : Prop :=
  ∀ s₁ t flags isExit allocs, e.Attempts s s₁ (.xfer t flags isExit allocs) → flags.force = false

/-- The tealet `t` was freed, or is DEFUNCT. -/
def State.Over (s : State) (t : TealetId) : Prop :=
  s.tealets t = none ∨ s.statusOf t = some .defunct

/-- What becomes of a tealet that is suspended with the stack `p` and does not run. -/
inductive Survives (s : State) (e : Event) (s' : State) (t : TealetId) (p : Private) : Prop where
  | kept (h : Shows s' t (some (.suspended p)))
  | lost (h : Shows s' t (some .defunct)) (hf : ¬ e.Unforced s)
  | deleted {allocs : List Bool} {mprotects : List (Option (Nat → Bool))}
      (h : Shows s' t none) (he : e = .call (.delete t) allocs mprotects)

section Survival

variable {leak : StackId → Nat} {s s₁ s' : State} {a a' : Saved} {e : Event} {o : Outcome}
  {t : TealetId} {p : Private}

/-- The invariant of the runs that keep every stack. -/
def State.Kept (s : State) : Prop := ∃ a, Inv (fun _ => 0) s a ∧ Isolated (s.view a)

theorem kept_run {mem : Memory} {env : Env} (h : Run Conserving (initial mem env) s) : s.Kept := by
  obtain ⟨past, hpast⟩ := h.runWith
  obtain ⟨a, I, Is, -⟩ := hpast.recalled fun _ he => he.prudent
  exact ⟨a, I, Is⟩

theorem State.Kept.next (h : s.Kept) (he : Conserving s e) (hs : step s e = .ok (s', o)) :
    s'.Kept := by
  obtain ⟨a, I, Is⟩ := h
  obtain ⟨a', I', Is', -⟩ := he.prudent.follows I Is hs
  exact ⟨a', I', Is'⟩

theorem Inv.livesOn (I : Inv (fun _ => 0) s a) (hL : Legal s e) (hP : e.PanicResumes True s)
    (hs : step s e = .ok (s', o)) {x : Status} (hx : s.statusOf t = some x) (hnew : x ≠ .new) :
    LivesOn s e s' t := by
  obtain ⟨own, H⟩ := I.rep
  obtain ⟨leak', a', hstep⟩ := (step_spec True (E := fun _ => True) I hL
    (fun _ _ => True.intro) hP (.inl True.intro)).result hs
  have I' : Inv (fun _ => 0) s' a' := hstep.exact' True.intro ▸ hstep.inv
  have hlives :=
    (hstep.path.lives (t := t) I.core I.sched).1 x ((statusOf_view H t).symm.trans hx) hnew
  exact hlives.on I I' hx

/-- The tealet that runs is active. -/
theorem Inv.running_active (I : Inv leak s a) : s.statusOf s.gCurrent = some .active := by
  obtain ⟨own, H⟩ := I.rep
  rw [statusOf_view H]
  exact I.sched.status_current

/-- An active tealet that does not run has a stack. -/
theorem State.Kept.suspended (K : s.Kept) (ht : t ≠ s.gCurrent)
    (hs : s.statusOf t = some .active) : ∃ p, Shows s t (some (.suspended p)) := by
  obtain ⟨a, I, Is⟩ := K
  obtain ⟨own, H⟩ := I.rep
  have hs' : (s.view a).statusOf t = some .active := (statusOf_view H t).symm.trans hs
  obtain ⟨k, im, hk, him⟩ := I.sched.suspended_of I.core ht hs'
  exact ⟨⟨im.near, im.far, im.value s.mem⟩,
    (shows_iff I Is).mpr (.suspended ht hs' hk him rfl rfl fun _ _ _ => rfl)⟩

/-- What is over stays over, and does not run. -/
theorem State.Over.step (h : s.Over t) (K : s.Kept) (hlt : t < s.nextTealet)
    (he : Conserving s e) (hs : step s e = .ok (s', o)) :
    s'.Over t ∧ s'.gCurrent ≠ t ∧ t < s'.nextTealet := by
  obtain ⟨a, I, Is⟩ := K
  obtain ⟨a', I', -, -, L, -⟩ := he.prudent.follows I Is hs
  have hover : s'.Over t := by
    rcases h with hn | hd
    · exact .inl (L.gone t hlt hn)
    · cases I.livesOn he.legal he.panics hs hd nofun with
      | kept hs' => exact .inr (hs'.trans hd)
      | exited _ hact => cases hact.symm.trans hd
      | lost hact => cases hact.symm.trans hd
      | deleted hn => exact .inl hn
      | exitDeleted _ hact => cases hact.symm.trans hd
  refine ⟨hover, ?_, Nat.lt_of_lt_of_le hlt L.nextTealet⟩
  rintro rfl
  have hact := I'.running_active
  rcases hover with hn | hd
  · rw [State.statusOf, hn] at hact
    cases hact
  · cases hd.symm.trans hact

theorem State.Over.run (h : s.Over t) (K : s.Kept) (hlt : t < s.nextTealet) (hne : s.gCurrent ≠ t)
    (hrun : Run Conserving s s') : s'.Over t ∧ s'.gCurrent ≠ t := by
  have hall : s'.Kept ∧ s'.Over t ∧ s'.gCurrent ≠ t ∧ t < s'.nextTealet := by
    induction hrun with
    | refl => exact ⟨K, h, hne, hlt⟩
    | tail _ he hs ih =>
        obtain ⟨K₁, h₁, -, hlt₁⟩ := ih
        exact ⟨K₁.next he hs, h₁.step K₁ hlt₁ he hs⟩
  exact ⟨hall.2.1, hall.2.2.1⟩

/-- One step in which the tealet is not resumed. -/
theorem State.Kept.survives (K : s.Kept) (h : Shows s t (some (.suspended p)))
    (he : Conserving s e) (hs : step s e = .ok (s', o)) (ht' : s'.gCurrent ≠ t) :
    Survives s e s' t p := by
  obtain ⟨a, I, Is⟩ := K
  obtain ⟨a', I', Is', F, L, -⟩ := he.prudent.follows I Is hs
  have hM := (shows_iff I Is).mp h
  have hact : s.statusOf t = some .active := by
    cases h with
    | suspended _ hact => exact hact
  have ht : t ≠ s.gCurrent := by
    cases h with
    | suspended ht => exact ht
  obtain ⟨own, H⟩ := I.rep
  obtain ⟨own', H'⟩ := I'.rep
  cases I.livesOn he.legal he.panics hs hact nofun with
  | kept hs' =>
      have hlive : s'.tealets t ≠ none := by
        intro hn
        rw [State.statusOf, hn, hact] at hs'
        cases hs'
      refine .kept ((shows_iff I' Is').mpr (hM.carry F I.core I'.core ht ht'.symm ?_ ?_))
      · cases hM with
        | suspended _ _ hk =>
            rw [hk]
            exact (L.stack t _ ht'.symm hk).resolve_left hlive
      · rw [← statusOf_view H', ← statusOf_view H]
        exact hs'
  | exited htc => exact absurd htc ht
  | @lost s₁ u f isExit allocs hsa hs' ho ha hf hm =>
      refine .lost (.defunct hs') fun hno => ?_
      rw [hno s₁ u f isExit allocs ha] at hf
      cases hf
  | deleted hn he => exact .deleted (.gone hn) he
  | exitDeleted htc => exact absurd htc ht

/-- A tealet that is DEFUNCT stays so until it is deleted. -/
theorem State.Kept.stays_defunct (K : s.Kept) (hd : s.statusOf t = some .defunct)
    (he : Conserving s e) (hs : step s e = .ok (s', o))
    (hno : ∀ allocs mprotects, e ≠ .call (.delete t) allocs mprotects) :
    s'.statusOf t = some .defunct := by
  obtain ⟨a, I, -⟩ := K
  cases I.livesOn he.legal he.panics hs hd nofun with
  | kept hs' => exact hs'.trans hd
  | exited _ hact => cases hact.symm.trans hd
  | lost hact => cases hact.symm.trans hd
  | deleted _ he => exact absurd he (hno _ _)
  | exitDeleted _ hact => cases hact.symm.trans hd

/-- The step in which it is resumed. -/
theorem State.Kept.resumes (K : s.Kept) (h : Shows s t (some (.suspended p)))
    (he : Conserving s e) (hs : step s e = .ok (s', o)) (ht' : s'.gCurrent = t) :
    ∀ x, p.near ≤ x → x < p.far → s'.mem x = p.bytes x := by
  obtain ⟨a, I, Is⟩ := K
  obtain ⟨a', I', Is', F, L, -⟩ := he.prudent.follows I Is hs
  subst ht'
  have hM := (shows_iff I Is).mp h
  cases hM with
  | suspended ht hact hk him hn hf hv =>
      intro x hx hxf
      have hres := (F.resumed ht _ _ hk him).2 he.sound' x (hn ▸ hx) (hf ▸ hxf)
      exact hres.trans (hv x hx hxf)

end Survival

/-- A suspended tealet keeps its stack until it runs again, is deleted, or is
lost to a forced transfer, and then never runs again; it is DEFUNCT then
unless it was deleted; without deletes and forced transfers it keeps its
stack; and when it is resumed it finds it in memory. -/
theorem suspended_survives {mem : Memory} {env : Env} {s : State}
    (hrun : Run Conserving (initial mem env) s) {t : TealetId} {p : Private}
    (h : Shows s t (some (.suspended p))) :
    (∀ s', Run (fun s e => Conserving s e ∧ s.gCurrent ≠ t) s s' →
      (s'.gCurrent ≠ t → Shows s' t (some (.suspended p)) ∨
        ∀ s₂, Run Conserving s' s₂ → s₂.Over t ∧ s₂.gCurrent ≠ t) ∧
      (s'.gCurrent = t → ∀ x, p.near ≤ x → x < p.far → s'.mem x = p.bytes x)) ∧
    (∀ s', Run (fun s e => (Conserving s e ∧ s.gCurrent ≠ t) ∧
        ∀ allocs mprotects, e ≠ .call (.delete t) allocs mprotects) s s' →
      s'.gCurrent ≠ t →
        Shows s' t (some (.suspended p)) ∨ s'.statusOf t = some .defunct) ∧
    ∀ s', Run (fun s e => (Conserving s e ∧ s.gCurrent ≠ t) ∧ e.Unforced s ∧
        ∀ allocs mprotects, e ≠ .call (.delete t) allocs mprotects) s s' →
      s'.gCurrent ≠ t → Shows s' t (some (.suspended p)) := by
  have K := kept_run hrun
  have hlt : t < s.nextTealet := by
    obtain ⟨a, I, -⟩ := K
    cases h with
    | suspended ht hs hr => exact I.core.lt_nextTealet hr
  have hcur : s.gCurrent ≠ t := by
    cases h with
    | suspended ht => exact ht.symm
  refine ⟨?_, ?_, ?_⟩
  · intro s' hlater
    have hall : s'.Kept ∧ t < s'.nextTealet ∧ (s'.gCurrent ≠ t →
        Shows s' t (some (.suspended p)) ∨ s'.Over t) ∧
        (s'.gCurrent = t → ∀ x, p.near ≤ x → x < p.far → s'.mem x = p.bytes x) := by
      induction hlater with
      | refl => exact ⟨K, hlt, fun _ => .inl h, fun hc => absurd hc hcur⟩
      | @tail s₁ s₂ e o _ he hs ih =>
          obtain ⟨K₁, hlt₁, hor, -⟩ := ih
          have hlt₂ : t < s₂.nextTealet := by
            obtain ⟨a₁, I₁, Is₁⟩ := K₁
            obtain ⟨a₂, -, -, -, L, -⟩ := he.1.prudent.follows I₁ Is₁ hs
            exact Nat.lt_of_lt_of_le hlt₁ L.nextTealet
          refine ⟨K₁.next he.1 hs, hlt₂, fun ht => ?_, fun ht => ?_⟩
          · rcases hor he.2 with h₁ | h₁
            · cases K₁.survives h₁ he.1 hs ht with
              | kept h₂ => exact .inl h₂
              | lost h₂ =>
                  cases h₂ with
                  | defunct hd => exact .inr (.inr hd)
              | deleted h₂ =>
                  cases h₂ with
                  | gone hn => exact .inr (.inl hn)
            · exact .inr (h₁.step K₁ hlt₁ he.1 hs).1
          · rcases hor he.2 with h₁ | h₁
            · exact K₁.resumes h₁ he.1 hs ht
            · exact absurd ht (h₁.step K₁ hlt₁ he.1 hs).2.1
    obtain ⟨K', hlt', hor, hres⟩ := hall
    refine ⟨fun ht => (hor ht).imp_right fun hover s₂ hrun₂ => ?_, hres⟩
    exact hover.run K' hlt' ht hrun₂
  · intro s' hlater
    have hall : s'.Kept ∧ (s'.gCurrent ≠ t →
        Shows s' t (some (.suspended p)) ∨ s'.statusOf t = some .defunct) := by
      induction hlater with
      | refl => exact ⟨K, fun _ => .inl h⟩
      | @tail s₁ s₂ e o _ he hs ih =>
          obtain ⟨K₁, hor⟩ := ih
          refine ⟨K₁.next he.1.1 hs, fun ht => ?_⟩
          rcases hor he.1.2 with h₁ | hd
          · cases K₁.survives h₁ he.1.1 hs ht with
            | kept h₂ => exact .inl h₂
            | lost h₂ =>
                cases h₂ with
                | defunct hd => exact .inr hd
            | deleted _ hdel => exact absurd hdel (he.2 _ _)
          · exact .inr (K₁.stays_defunct hd he.1.1 hs he.2)
    exact hall.2
  · intro s' hlater
    have hall : s'.Kept ∧ (s'.gCurrent ≠ t → Shows s' t (some (.suspended p))) := by
      induction hlater with
      | refl => exact ⟨K, fun _ => h⟩
      | @tail s₁ s₂ e o _ he hs ih =>
          obtain ⟨K₁, h₁⟩ := ih
          refine ⟨K₁.next he.1.1 hs, fun ht => ?_⟩
          cases K₁.survives (h₁ he.1.2) he.1.1 hs ht with
          | kept h₂ => exact h₂
          | lost _ hf => exact absurd he.2.1 hf
          | deleted _ hd => exact absurd hd (he.2.2 _ _)
    exact hall.2

/-- Main leaves a tealet for another one, and switches back to it. -/
theorem suspended_survives_main : ∃ s s' o p, Run Conserving (initial (fun _ => 0) {}) s ∧
    Shows s 1 (some (.suspended p)) ∧
    step s (.call (.switch 1 none {} 900) [] []) = .ok (s', o) ∧ s'.gCurrent = 1 ∧
    ∀ x, p.near ≤ x → x < p.far → s'.mem x = p.bytes x := by
  obtain ⟨s, hrun, hq⟩ := exists_run_of_trace (p := Event.conserving)
    (fun _ _ => Event.conserving_spec)
    [.call .new [] [], .call .new [] [], .call (.run 1 7 none null true ⟨1000, 990⟩) [] [],
      .call (.switch 0 none {} 900) [] [], .call (.run 2 7 none null true ⟨1000, 990⟩) [] [],
      .call (.duplicate 1) [] [], .call (.switch 0 none {} 900) [] []]
    (s := initial (fun _ => 0) {})
    (fun s => decide (s.gCurrent ≠ 1 ∧ s.statusOf 1 = some .active) &&
      Event.conserving s (.call (.switch 1 none {} 900) [] []) &&
      endsIn (step s (.call (.switch 1 none {} 900) [] [])) fun p => decide (p.1.gCurrent = 1))
    (by decide +kernel)
  simp only [Bool.and_eq_true] at hq
  obtain ⟨⟨hq, he⟩, hstep⟩ := hq
  obtain ⟨hcur, hact⟩ := of_decide_eq_true hq
  obtain ⟨⟨s', o⟩, hs, hcur'⟩ := endsIn_spec hstep
  obtain ⟨p, hp⟩ := (kept_run hrun).suspended hcur.symm hact
  have hlater : Run (fun s e => Conserving s e ∧ s.gCurrent ≠ 1) s s' :=
    Run.refl.tail ⟨Event.conserving_spec he, hcur⟩ hs
  have hcur' : s'.gCurrent = 1 := of_decide_eq_true hcur'
  exact ⟨s, s', o, p, hrun, hp, hs, hcur',
    ((suspended_survives hrun hp).1 s' hlater).2 hcur'⟩

end Tealet
