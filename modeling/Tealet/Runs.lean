import Tealet.Calls

/-!
# Runs of the system

The invariant holds after initialization and every step keeps it, so it
holds in every state of a run (`Run.inv`). What a particular property adds
is an invariant of the moves, carried along the same induction.
-/

namespace Tealet

open DList Slice Hoare Relation

/-- The attempts of the event `e` as labels of the moves. -/
def EventLabel (s : State) (e : Event) (v : View) (l : Label) : Prop :=
  ∃ s₁ a₁ own, HeapRep s₁.heap a₁ own ∧ v = s₁.view a₁ ∧ e.Attempts s s₁ l

/-- No transfer to another tealet is attempted under PANIC. -/
def Event.PanicFree (s : State) (e : Event) : Prop :=
  ∀ s₁ t f isExit allocs, e.Attempts s s₁ (.xfer t f isExit allocs) → f.panic = true →
    t = s₁.gCurrent

/-- No transfer under PANIC resumes a capture, nor, if `strict`, a start. -/
def Event.PanicResumes (strict : Prop) (s : State) (e : Event) : Prop :=
  ∀ s₁ t f isExit allocs, e.Attempts s s₁ (.xfer t f isExit allocs) → f.panic = true →
    t ≠ s₁.gCurrent → ∀ fr, s₁.frameOf t = some fr →
      fr.isCapture = false ∧ (strict → fr.started = none)

theorem Event.PanicFree.resumes {strict : Prop} {s : State} {e : Event} (h : e.PanicFree s) :
    e.PanicResumes strict s := by
  intro s₁ t f isExit allocs ha hp ht
  exact absurd (h s₁ t f isExit allocs ha hp) ht

/-- A transfer under PANIC that resumes a `tealet_switch` finds the record
of the tealet that called it, which a duplicate shares with its source. -/
def Event.PanicCallers (s : State) (e : Event) : Prop :=
  ∀ s₁ t f isExit allocs, e.Attempts s s₁ (.xfer t f isExit allocs) → f.panic = true →
    t ≠ s₁.gCurrent → ∀ g out, s₁.frameOf t = some (.switch g out) →
      Alive s₁ g ∧ (isExit = true → f.delete = true → g ≠ s₁.gCurrent)

theorem Event.PanicFree.callers {s : State} {e : Event} (h : e.PanicFree s) : e.PanicCallers s := by
  intro s₁ t f isExit allocs ha hp ht
  exact absurd (h s₁ t f isExit allocs ha hp) ht

/-- Nothing is saved yet. -/
theorem inv_initial (mem : Memory) (env : Env) :
    Inv (fun _ => 0) (initial mem env) {} := by
  have hmain : (initial mem env).tealets mainId =
      some { stackFar := spFurthest, flags := { bound := true, mainLineage := true } } := rfl
  have hother : ∀ t, t ≠ mainId → (initial mem env).tealets t = none := fun t ht => if_neg ht
  have hrec : ∀ t r, (initial mem env).tealets t = some r →
      t = mainId ∧ r =
        { stackFar := spFurthest, flags := { bound := true, mainLineage := true } } := by
    intro t r hr
    by_cases ht : t = mainId
    · subst ht
      exact ⟨rfl, (Option.some.inj (hmain.symm.trans hr)).symm⟩
    · rw [hother t ht] at hr
      cases hr
  refine ⟨⟨fun _ => [], ?_⟩, ?_, ?_, rfl, rfl⟩
  · exact ⟨nofun, fun _ _ => ⟨rfl, rfl⟩, ⟨rfl, List.nodup_nil, fun _ _ => rfl⟩, fun _ _ => rfl,
      fun _ _ => rfl,
      fun _ => List.nodup_nil, fun _ _ _ => List.disjoint_nil_left _, fun _ h => absurd rfl h⟩
  · refine ⟨?_, Nat.zero_lt_one, fun _ _ => ⟨rfl, rfl⟩, ?_, ?_, nofun, nofun, List.nodup_nil, nofun⟩
    · intro t ht
      exact hother t (Nat.ne_of_gt ht)
    · intro t r hr
      obtain ⟨rfl, rfl⟩ := hrec t r hr
      exact ⟨rfl, nofun, nofun, Nat.le_refl _, fun h => absurd rfl h⟩
    · intro t r k hr hk
      obtain ⟨-, rfl⟩ := hrec t r hr
      cases hk
  · refine ⟨rfl, ⟨_, hmain, ⟨rfl, rfl, rfl⟩, rfl⟩, ⟨_, hmain, ⟨rfl, rfl, rfl⟩⟩, ?_, ?_⟩
    · intro t r hr ht
      exact absurd (hrec t r hr).1 ht
    · intro r hr _
      obtain ⟨-, rfl⟩ := hrec mainId r hr
      exact ⟨fun _ => rfl, nofun⟩

section Step

variable {leak : StackId → Nat} {strict : Prop} {E : Fault → Prop} {s : State} {a : Saved}
  {e : Event}

theorem Inv.withChoices (I : Inv leak s a) (allocs : List Bool)
    (mprotects : List (Option (Nat → Bool))) : Inv leak (s.withChoices allocs mprotects) a := by
  obtain ⟨own, H⟩ := I.rep
  exact ⟨⟨own, H.withAllocs _ _⟩, I.core, I.sched, I.gTarget, I.panic⟩

/-- The end of a step that started from the view `v`. -/
structure Stepped (leak : StackId → Nat) (C : View → Label → Prop) (strict : Prop) (v : View)
    (s : State) (leak' : StackId → Nat) (a : Saved) : Prop where
  inv : Inv leak' s a
  path : Path C strict v (s.view a)
  exact' : strict → leak' = leak

theorem step_spec (strict : Prop) (I : Inv leak s a) (hL : Legal s e)
    (hext : ∀ f, f.internal = false → E f)
    (hR : e.PanicResumes strict s) (hF : E .freed ∨ strict ∧ e.PanicCallers s) :
    Sat E (fun p => ∃ leak' a', Stepped leak (EventLabel s e) strict (s.view a) p.1 leak' a')
      (step s e) := by
  cases e with
  | write m =>
      obtain ⟨own, H⟩ := I.rep
      have hm : Small (EventLabel s (.write m)) (s.view a) { s.view a with mem := m } :=
        .write ⟨s, a, own, H, rfl, rfl, rfl⟩ hL
      obtain ⟨H, S⟩ := hm.good I.core I.sched
      exact ⟨leak, a, ⟨I.rep, H, S, I.gTarget, I.panic⟩, ⟨_, .single hm, .inl rfl⟩, fun _ => rfl⟩
  | call c allocs mprotects =>
      have hL' : c.Legal (s.withChoices allocs mprotects) := by
        cases c <;> exact hL
      refine (callStep_ends (I.withChoices allocs mprotects) ⟨hL', hext, hR, hF⟩).imp ?_
      rintro p ⟨a', h⟩
      obtain ⟨leak', I', hleak⟩ := h.inv (I.withChoices allocs mprotects)
      exact ⟨leak', a', I', h.path, hleak⟩

end Step

/-- A property of views that the paths keep holds along the runs. -/
theorem Run.inv {P : State → Event → Prop} {strict : Prop} {J : View → Prop} {mem : Memory}
    {env : Env} {s : State} (h : Run P (initial mem env) s)
    (hP : ∀ s e, P s e → Legal s e ∧ e.PanicResumes strict s)
    (h0 : J ((initial mem env).view {}))
    (hstep : ∀ s e leak a v', P s e → Inv leak s a → (strict → leak = fun _ => 0) → J (s.view a) →
      Path (EventLabel s e) strict (s.view a) v' → J v') :
    ∃ leak a, Inv leak s a ∧ (strict → leak = fun _ => 0) ∧ J (s.view a) := by
  induction h with
  | refl => exact ⟨_, _, inv_initial mem env, fun _ => rfl, h0⟩
  | @tail s₁ s₂ e o _ hp hs ih =>
      obtain ⟨leak, a, I, hleak, hJ⟩ := ih
      obtain ⟨hL, hR⟩ := hP s₁ e hp
      obtain ⟨leak', a', hstep'⟩ :=
        (step_spec _ (E := fun _ => True) I hL (fun _ _ => True.intro) hR
        (.inl True.intro)).result hs
      exact ⟨leak', a', hstep'.inv, fun hst => (hstep'.exact' hst).trans (hleak hst),
        hstep s₁ e leak a _ hp I hleak hJ hstep'.path⟩

/-- Every state of a run without other assumptions satisfies the invariant. -/
theorem Run.inv' {P : State → Event → Prop} (strict : Prop) {mem : Memory}
    {env : Env} {s : State} (h : Run P (initial mem env) s)
    (hP : ∀ s e, P s e → Legal s e ∧ e.PanicResumes strict s) :
    ∃ leak a, Inv leak s a ∧ (strict → leak = fun _ => 0) := by
  obtain ⟨leak, a, I, hleak, -⟩ := h.inv (J := fun _ => True) hP True.intro
    fun _ _ _ _ _ _ _ _ _ _ => True.intro
  exact ⟨leak, a, I, hleak⟩

end Tealet
