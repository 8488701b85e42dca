import Tealet.Runs

/-!
# Runs given by their events

`trace p s es` executes the calls `es` while the test `p` accepts them, so
that a run can be exhibited by evaluating it. User code that writes to
memory has no test; a run with writes is put together from traces.
-/

namespace Tealet

def trace (p : State → Event → Bool) (s : State) : List Event → Option State
  | [] => some s
  | e :: es =>
      if p s e then
        match step s e with
        | .ok (s', _) => trace p s' es
        | .error _ => none
      else none

theorem run_of_trace {P : State → Event → Prop} {p : State → Event → Bool}
    (hp : ∀ s e, p s e = true → P s e) {es : List Event} {s s' : State}
    (h : trace p s es = some s') : Run P s s' := by
  induction es generalizing s with
  | nil =>
      cases h
      exact .refl
  | cons e es ih =>
      rw [trace] at h
      split at h
      · rename_i hpe
        split at h
        · rename_i s₁ o hs
          exact (Run.refl.tail (hp s e hpe) hs).trans (ih h)
        · cases h
      · cases h

/-- A run whose last state has the decidable property `q`. -/
theorem exists_run_of_trace {P : State → Event → Prop} {p : State → Event → Bool}
    (hp : ∀ s e, p s e = true → P s e) (es : List Event) {s : State} (q : State → Bool)
    (h : ((trace p s es).map q) = some true) : ∃ s', Run P s s' ∧ q s' = true := by
  obtain ⟨s', hs', hq⟩ := Option.map_eq_some_iff.mp h
  exact ⟨s', run_of_trace hp hs', hq⟩

/-- The call returns, with the property `q`. -/
def endsIn {α : Type} (r : Res α) (q : α → Bool) : Bool :=
  match r with
  | .ok p => q p
  | .error _ => false

theorem endsIn_spec {α : Type} {r : Res α} {q : α → Bool} (h : endsIn r q = true) :
    ∃ p, r = .ok p ∧ q p = true := by
  cases r with
  | ok p => exact ⟨p, rfl, h⟩
  | error f => cases h

instance (s : State) (t : TealetId) : Decidable (Alive s t) :=
  inferInstanceAs (Decidable ((s.tealets t).isSome = true))

instance (site : Site) (s : State) : Decidable (site.Inside s) :=
  inferInstanceAs (Decidable (_ ∧ _ ∧ _))

/-- Whether a call is legal; writes are not tested. -/
def Event.legal (s : State) : Event → Bool
  | .write _ => false
  | .call c _ _ =>
      match c with
      | .new => true
      | .run t _ _ stackFar _ site =>
          decide (Alive s t) && decide (site.Inside s) && decide (stackFar < spFurthest)
      | .spawn _ _ stackFar _ site => decide (site.Inside s) && decide (stackFar < spFurthest)
      | .fork t _ _ site => decide (Alive s t) && decide (site.Inside s)
      | .switch t _ _ sp => decide (Alive s t) && decide (sp < spFurthest)
      | .exit t _ _ sp => decide (Alive s t) && decide (sp < spFurthest)
      | .ret p sp => p.any (fun t => decide (Alive s t)) && decide (sp < spFurthest)
      | .duplicate t | .delete t =>
          decide (Alive s t) && decide (t ≠ s.gCurrent) && decide (t ≠ mainId)
      | .status t => decide (Alive s t)
      | .setFar t far => decide (Alive s t) && decide (far < spFurthest) && decide (far ≠ 0)
      | .configure _ => true

theorem Event.legal_spec {s : State} {e : Event} (h : e.legal s = true) : Legal s e := by
  cases e with
  | write m => cases h
  | call c allocs mprotects =>
      cases c with
      | ret p sp =>
          simp only [Event.legal, Bool.and_eq_true, decide_eq_true_eq, Option.any_eq_true] at h
          exact h
      | new => exact True.intro
      | configure => exact True.intro
      | _ => simpa [Event.legal, Legal, Call.Legal, and_assoc] using h

/-- Whether the attempts of an event satisfy `p`. -/
def Event.attemptsAll (p : State → TealetId → XFlags → Bool) (s : State) (e : Event) : Bool :=
  (e.transferList s).all fun x => p x.1 x.2.1 x.2.2

theorem Event.attemptsAll_spec {p : State → TealetId → XFlags → Bool} {s s₁ : State} {e : Event}
    (h : e.attemptsAll p s = true) {t : TealetId} {f : XFlags} {isExit : Bool} {allocs : List Bool}
    (ha : e.Attempts s s₁ (.xfer t f isExit allocs)) : p s₁ t f = true :=
  List.all_eq_true.mp h _ (mem_transferList ha)

def Event.panicFree (s : State) (e : Event) : Bool :=
  e.attemptsAll (fun s₁ t f => !f.panic || decide (t = s₁.gCurrent)) s

theorem Event.panicFree_spec {s : State} {e : Event} (h : e.panicFree s = true) :
    e.PanicFree s := by
  intro s₁ t f isExit allocs ha hp
  have := Event.attemptsAll_spec h ha
  simpa [hp] using this

end Tealet
