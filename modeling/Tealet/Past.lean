import Tealet.Recall
import Tealet.Trace

/-!
# What suspended tealets have gone through

A run with its past: for every suspended tealet the memory at its
suspension and the boundaries of the tealets that control went to since.
Nothing of it is stored by the library. When a tealet is resumed its stack
is what it was in that memory (`stack_isolated`), and its saved stack ends
where its past says (`saved_extent`).
-/

namespace Tealet

open DList Slice Hoare Relation

/-- The saved stack of a tealet. -/
def State.saved (s : State) (t : TealetId) : Option Stack :=
  (s.tealets t).bind fun r => r.stack.bind s.heap.stackAt

/-- The end of what is saved. -/
def Stack.top (st : Stack) : Nat := st.chunk.stackNear + st.saved

/-- The near end of a saved stack, the memory when it was saved first, and
the boundaries of the targets of all transfers since, its own included. -/
structure Past where
  near : Nat
  mem : Memory
  fars : List Nat

/-- What is saved first, or already, by the transfers. -/
def Past.reach (p : Past) : Nat := p.fars.foldl max p.near

/-- The tealet that is duplicated. -/
def Event.source : Event → Option TealetId
  | .call (.duplicate t) _ _ => some t
  | _ => none

/-- The past after the step `e` from `s` to `s'`. A tealet that has a saved
stack now and had none before was suspended, captured or copied. -/
def remember (s : State) (e : Event) (s' : State) (past : TealetId → Past) (t : TealetId) : Past :=
  if (s.saved t).isSome then
    if s'.gCurrent = s.gCurrent then past t
    else { past t with fars := (past t).fars ++ [runningFar s'] }
  else
    match e.source with
    | some source => past source
    | none => ⟨((s'.saved t).map fun st => st.chunk.stackNear).getD 0, s.mem, [runningFar s']⟩

/-- The runs with their past. -/
inductive RunWith (P : State → Event → Prop) (s : State) : State → (TealetId → Past) → Prop where
  | refl : RunWith P s s fun _ => ⟨0, s.mem, []⟩
  | tail {s₁ s₂ : State} {e : Event} {o : Outcome} {past : TealetId → Past} :
      RunWith P s s₁ past → P s₁ e → step s₁ e = .ok (s₂, o) →
      RunWith P s s₂ (remember s₁ e s₂ past)

theorem RunWith.run {P : State → Event → Prop} {s s' : State} {past : TealetId → Past}
    (h : RunWith P s s' past) : Run P s s' := by
  induction h with
  | refl => exact .refl
  | tail _ hP hs ih => exact ih.tail hP hs

theorem Run.runWith {P : State → Event → Prop} {s s' : State} (h : Run P s s') :
    ∃ past, RunWith P s s' past := by
  induction h with
  | refl => exact ⟨_, .refl⟩
  | tail _ hP hs ih =>
      obtain ⟨past, h⟩ := ih
      exact ⟨_, h.tail hP hs⟩

/-! ## Images and their past -/

/-- The image stands for the memory of the past. -/
structure Recalls (m : Memory) (im : Image) (p : Past) : Prop where
  near : im.near = p.near
  lt : im.near < im.far
  value : ∀ x, im.near ≤ x → x < im.far → im.value m x = p.mem x

/-- The image is saved as far as the past requires, and no farther. -/
structure Reached (im : Image) (p : Past) : Prop where
  top : im.top = min im.far p.reach
  transfers : p.fars ≠ []

section Images

variable {m m' : Memory} {im im' : Image} {p p' : Past} {F : Nat}

theorem Recalls.same (h : Recalls m im p) (hs : im.Same m m' im') (hn : p'.near = p.near)
    (hm : p'.mem = p.mem) : Recalls m' im' p' := by
  refine ⟨hs.near.trans (h.near.trans hn.symm), ?_, fun x hx hf => ?_⟩
  · rw [hs.near, hs.far]
    exact h.lt
  · rw [hs.near] at hx
    rw [hs.far] at hf
    rw [hs.value x hx hf, h.value x hx hf, hm]

theorem Reached.same (h : Reached im p) (hs : im.Same m m' im') (ht : im'.top = im.top) :
    Reached im' p := by
  refine ⟨?_, h.transfers⟩
  rw [ht, hs.far]
  exact h.top

theorem Reached.moved (h : Reached im p) (hs : im.Same m m' im')
    (ht : im'.top = max im.top (min im.far F)) : Reached im' { p with fars := p.fars ++ [F] } := by
  have hreach : Past.reach { p with fars := p.fars ++ [F] } = max p.reach F := by
    simp [Past.reach]
  refine ⟨?_, by simp⟩
  have htop := h.top
  have hfar := hs.far
  rw [hreach]
  omega

theorem Reached.new (hlt : im.near < im.far) (hn : p.near = im.near) (hf : p.fars = [F])
    (ht : im.top = max im.near (min im.far F)) : Reached im p := by
  refine ⟨?_, by simp [hf]⟩
  have hreach : p.reach = max im.near F := by
    simp [Past.reach, hf, hn]
  rw [hreach]
  omega

end Images

section Step

variable {leak : StackId → Nat} {s s' : State} {a a' : Saved} {e : Event} {o : Outcome}
  {past : TealetId → Past} {t : TealetId} {k : StackId} {im : Image}

theorem saved_eq {own : StackId → List ChunkId} (H : HeapRep s.heap a own)
    (hk : (s.view a).stackOf t = some k) (him : a.img k = some im) :
    ∃ st, s.saved t = some st ∧ s.heap.stackAt k = some st ∧
      StackRep s.heap.chunkAt st im (own k) := by
  obtain ⟨st, hst, hrep⟩ := H.stack k im him
  obtain ⟨r, hr, hrk⟩ := tealets_of_stackOf hk
  have hr : s.tealets t = some r := hr
  refine ⟨st, ?_, hst, hrep⟩
  simp only [State.saved, hr, hrk, Option.bind_some, hst]

theorem saved_none (hk : (s.view a).stackOf t = none) : s.saved t = none := by
  have hk : (s.tealets t).bind TealetSub.stack = none := hk
  cases hr : s.tealets t with
  | none => simp [State.saved, hr]
  | some r =>
      rw [hr, Option.bind_some] at hk
      simp [State.saved, hr, hk]

theorem runningFar_view (s : State) (a : Saved) :
    (s.view a).far (s.view a).current = runningFar s := rfl

/-- What the step may attempt if the images are to stay as they are. -/
structure Event.Prudent (s : State) (e : Event) : Prop where
  legal : Legal s e
  panics : e.PanicResumes True s
  careful : Careful (EventLabel s e)

theorem Event.Prudent.follows (h : e.Prudent s) (I : Inv (fun _ => 0) s a)
    (Is : Isolated (s.view a)) (hs : step s e = .ok (s', o)) :
    ∃ a', Inv (fun _ => 0) s' a' ∧ Isolated (s'.view a') ∧
      Follows (EventLabel s e) (s.view a) (s'.view a') ∧ Lasting (s.view a) (s'.view a') ∧
      (Plentiful (EventLabel s e) → (s.view a).Whole → (s'.view a').Whole) := by
  obtain ⟨leak', a', hstep⟩ := (step_spec True (E := fun _ => True) I h.legal
    (fun _ _ => True.intro) h.panics (.inl True.intro)).result hs
  obtain rfl : leak' = fun _ => 0 := hstep.exact' True.intro
  have hW : (∀ w, ¬ EventLabel s e w .write) ∨ ∀ w l, EventLabel s e w l → ¬ l.Jumps w := by
    cases e with
    | write m =>
        refine .inr ?_
        rintro w l ⟨s₁, a₁, own, -, -, -, rfl⟩
        exact id
    | call c allocs mprotects =>
        refine .inl ?_
        rintro w ⟨s₁, a₁, own, -, -, ha⟩
        cases ha
  obtain ⟨Is', F, L⟩ := hstep.path.follows h.careful hW I.core I.sched Is
  exact ⟨a', hstep.inv, Is', F, L, fun hP W => hstep.path.whole hP I.core I.sched W⟩

/-! ## What a step adds to the past -/

theorem remember_kept {own : StackId → List ChunkId} (H : HeapRep s.heap a own)
    (hk : (s.view a).stackOf t = some k) (him : a.img k = some im) :
    remember s e s' past t = if s'.gCurrent = s.gCurrent then past t
      else { past t with fars := (past t).fars ++ [runningFar s'] } := by
  obtain ⟨st, hst, -⟩ := saved_eq H hk him
  rw [remember, if_pos (by simp [hst])]

theorem remember_copied {u : TealetId} {w : View} (hnone : (s.view a).stackOf t = none)
    (hC : EventLabel s e w (.duplicate u)) : remember s e s' past t = past u := by
  rw [remember, if_neg (by simp [saved_none hnone])]
  obtain ⟨s₁, a₁, own, -, -, ha⟩ := hC
  cases e with
  | write m => cases ha.2
  | call c allocs mprotects =>
      cases ha
      rfl

theorem remember_new {w : View} {l : Label} {own' : StackId → List ChunkId}
    (hnone : (s.view a).stackOf t = none) (hC : EventLabel s e w l) (hj : l.Jumps w)
    (H' : HeapRep s'.heap a' own') (hk : (s'.view a').stackOf t = some k)
    (him : a'.img k = some im) :
    remember s e s' past t = ⟨im.near, s.mem, [runningFar s']⟩ := by
  rw [remember, if_neg (by simp [saved_none hnone])]
  obtain ⟨st, hst, -, hrep⟩ := saved_eq H' hk him
  obtain ⟨s₁, a₁, own, -, -, ha⟩ := hC
  have hsource : e.source = none := by
    cases e with
    | write m => rfl
    | call c allocs mprotects =>
        cases c with
        | duplicate u =>
            cases ha with
            | xfer hq => cases hq
            | duplicate => exact hj.elim
        | _ => rfl
  simp [hsource, hst, hrep.near]

/-- Every image that is not lost recalls the past of its owners. -/
def Recalled (s : State) (a : Saved) (past : TealetId → Past) : Prop :=
  ∀ t k im, (s.view a).stackOf t = some k → a.img k = some im → im.defunct = false →
    Recalls s.mem im (past t)

theorem Recalled.step (R : Recalled s a past) (I : Inv leak s a) (I' : Inv leak s' a')
    (F : Follows (EventLabel s e) (s.view a) (s'.view a')) :
    Recalled s' a' (remember s e s' past) := by
  intro t k im' hk him' hd
  obtain ⟨own, H⟩ := I.rep
  obtain ⟨own', H'⟩ := I'.rep
  cases F.came I.core hk him' hd with
  | @kept im hk₀ him hd₀ hs htop =>
      rw [remember_kept H hk₀ him]
      split
      · exact (R t k im hk₀ him hd₀).same hs rfl rfl
      · exact (R t k im hk₀ him hd₀).same hs rfl rfl
  | @copied w u im hnone hC hu him hd₀ hs htop =>
      rw [remember_copied hnone hC]
      exact (R u k im hu him hd₀).same hs rfl rfl
  | new hnone hC hj hlt hval htop =>
      rw [remember_new hnone hC hj H' hk him']
      exact ⟨rfl, hlt, hval⟩

/-- Every image is saved as far as the past of its owners requires. -/
def Extended (s : State) (a : Saved) (past : TealetId → Past) : Prop :=
  ∀ t k im, (s.view a).stackOf t = some k → a.img k = some im → Reached im (past t)

theorem Extended.step (X : Extended s a past) (I : Inv leak s a) (I' : Inv leak s' a')
    (hP : Plentiful (EventLabel s e)) (W : (s'.view a').Whole)
    (F : Follows (EventLabel s e) (s.view a) (s'.view a')) :
    Extended s' a' (remember s e s' past) := by
  intro t k im' hk him'
  obtain ⟨own, H⟩ := I.rep
  obtain ⟨own', H'⟩ := I'.rep
  cases F.came I.core hk him' (W k im' him') with
  | @kept im hk₀ him hd₀ hs htop =>
      rw [remember_kept H hk₀ him]
      split
      · rename_i hcur
        exact (X t k im hk₀ him).same hs ((htop hP).2 hcur)
      · exact (X t k im hk₀ him).moved hs (htop hP).1
  | @copied w u im hnone hC hu him hd₀ hs htop =>
      rw [remember_copied hnone hC]
      refine (X u k im hu him).same hs (htop hP ?_)
      by_contra hcur
      obtain ⟨w', l, ⟨s₁, a₁, own₁, -, -, ha'⟩, hj⟩ := F.moved hcur
      obtain ⟨s₂, a₂, own₂, -, -, ha⟩ := hC
      cases e with
      | write m => cases ha.2
      | call c allocs mprotects =>
          cases ha
          cases ha' with
          | xfer hq => cases hq
          | duplicate => exact hj
  | new hnone hC hj hlt hval htop =>
      rw [remember_new hnone hC hj H' hk him']
      exact .new hlt rfl rfl htop

/-- A tealet that is resumed finds its past in memory. -/
theorem Recalled.resumed (R : Recalled s a past) (I : Inv (fun _ => 0) s a)
    (Is : Isolated (s.view a)) (hS : Sound (EventLabel s e))
    (F : Follows (EventLabel s e) (s.view a) (s'.view a')) {r : TealetSub} {st : Stack}
    (hcur : s'.gCurrent = t) (hne : s.gCurrent ≠ t) (hr : s.tealets t = some r)
    (hst : s.saved t = some st) :
    st.chunk.stackNear = (past t).near ∧
      ∀ x, st.chunk.stackNear ≤ x → x < r.stackFar → s'.mem x = (past t).mem x := by
  obtain ⟨own, H⟩ := I.rep
  cases hk : r.stack with
  | none => simp [State.saved, hr, hk] at hst
  | some k =>
      have hkt : (s.view a).stackOf t = some k := (stackOf_eq (v := s.view a) hr).trans hk
      obtain ⟨im, him, -⟩ := I.core.owned t r k hr hk
      obtain ⟨st', hst', -, hrep⟩ := saved_eq H hkt him
      obtain rfl := Option.some.inj (hst.symm.trans hst')
      subst hcur
      obtain ⟨hd, hres⟩ := F.resumed (fun h => hne h.symm) k im hkt him
      have hrec := R _ k im hkt him hd
      have hfar := Is.target_far I.core hr k im hk him
      rw [hrep.near]
      refine ⟨hrec.near, fun x hx hf => ?_⟩
      rw [← hfar] at hf
      exact (hres hS x hx hf).trans (hrec.value x hx hf)

end Step

/-! ## Runs -/

theorem isolated_initial (mem : Memory) (env : Env) : Isolated ((initial mem env).view {}) :=
  ⟨⟨nofun, .nil, nofun⟩, nofun⟩

theorem RunWith.recalled {P : State → Event → Prop} {mem : Memory} {env : Env} {s : State}
    {past : TealetId → Past} (hP : ∀ {s a e}, Inv (fun _ => 0) s a → P s e → e.Prudent s)
    (h : RunWith P (initial mem env) s past) :
    ∃ a, Inv (fun _ => 0) s a ∧ Isolated (s.view a) ∧ Recalled s a past := by
  induction h with
  | refl => exact ⟨_, inv_initial mem env, isolated_initial mem env, nofun⟩
  | tail _ hp hs ih =>
      obtain ⟨a, I, Is, R⟩ := ih
      obtain ⟨a', I', Is', F, -⟩ := (hP I hp).follows I Is hs
      exact ⟨a', I', Is', R.step I I' F⟩

theorem RunWith.extended {P : State → Event → Prop} {mem : Memory} {env : Env} {s : State}
    {past : TealetId → Past}
    (hP : ∀ {s a e}, Inv (fun _ => 0) s a → P s e → e.Prudent s ∧ Plentiful (EventLabel s e))
    (h : RunWith P (initial mem env) s past) :
    ∃ a, Inv (fun _ => 0) s a ∧ Isolated (s.view a) ∧ (s.view a).Whole ∧ Extended s a past ∧
      Recalled s a past := by
  induction h with
  | refl => exact ⟨_, inv_initial mem env, isolated_initial mem env, nofun, nofun, nofun⟩
  | tail _ hp hs ih =>
      obtain ⟨a, I, Is, W, X, R⟩ := ih
      obtain ⟨hprudent, hplenty⟩ := hP I hp
      obtain ⟨a', I', Is', F, -, hW⟩ := hprudent.follows I Is hs
      have W' := hW hplenty W
      exact ⟨a', I', Is', W', X.step I I' hplenty W' F, R.step I I' F⟩

/-! ## Orderly runs -/

/-- No allocation of the call fails. -/
def Event.Plenty : Event → Prop
  | .write _ => True
  | .call _ allocs _ => ∀ ok ∈ allocs, ok = true

/-- Main's boundary is set while there are no other tealets. -/
def Event.FarFirst (s : State) : Event → Prop
  | .call (.setFar t _) _ _ => t = mainId → ∀ u, u ≠ mainId → ¬ Alive s u
  | _ => True

/-- A tealet is not started farther out than the one that starts it. -/
def Event.HintNear (s : State) : Event → Prop
  | .call (.run _ _ _ stackFar _ _) _ _ | .call (.spawn _ _ stackFar _ _) _ _ =>
      stackFar ≤ runningFar s
  | _ => True

structure Orderly (s : State) (e : Event) : Prop where
  legal : Legal s e
  panicFree : e.PanicFree s
  plenty : e.Plenty
  farFirst : e.FarFirst s
  hintNear : e.HintNear s

section Orderly

variable {s s' : State} {e : Event} {o : Outcome}

theorem pickInitialFar_le {far hint F : Nat} (h : far ≤ F) (hh : hint ≤ F) :
    pickInitialFar far hint ≤ F := by
  unfold pickInitialFar
  split
  · exact h
  · split <;> assumption

/-- A new record does not move the running tealet's boundary. -/
theorem runningFar_new {leak : StackId → Nat} {a : Saved} {t : TealetId} (I : Inv leak s a)
    (h : new s = (s', some t)) :
    runningFar s' = runningFar s ∧ s'.heap.allocs = (nextAlloc s.heap.allocs).2 := by
  obtain ⟨c, hc, -⟩ := I.sched.running
  have hne : s.gCurrent ≠ s.nextTealet := Nat.ne_of_lt (I.core.lt_nextTealet hc)
  have hspec := new_spec s a
  rw [h] at hspec
  cases hspec with
  | some hal hv hal' =>
      have hcur : s'.gCurrent = s.gCurrent := congrArg View.current hv
      have htl : s'.tealets = Function.update s.tealets s.nextTealet (some {}) :=
        congrArg View.tealets hv
      refine ⟨?_, hal'⟩
      simp only [runningFar, hcur, htl, Function.update_of_ne hne]

theorem Event.plentiful {leak : StackId → Nat} {a : Saved} (I : Inv leak s a) (hF : e.PanicFree s)
    (hP : e.Plenty) : Plentiful (EventLabel s e) := by
  rintro v l ⟨s₁, a₁, own, -, rfl, ha⟩ hj
  cases e with
  | write m =>
      obtain ⟨-, rfl⟩ := ha
      exact hj.elim
  | call c allocs mprotects =>
      have hP : ∀ ok ∈ allocs, ok = true := hP
      have hfree := fun t f x al h => hF s₁ t f x al h
      cases ha with
      | @xfer _ s₀ _ q t f hq h =>
          have hall : (Event.call c allocs mprotects).Attempts s s₁
              (.xfer t f q.isExit s₁.heap.allocs) := .xfer hq h
          cases h with
          | first =>
              obtain ⟨fl, ar, rfl, -⟩ := request_state hq
              exact hP
          | fallback hn heq hrc => exact absurd (hfree _ _ _ _ hall rfl) hj
      | run => exact hP
      | runDefault => exact hP
      | spawn h =>
          have hal := (runningFar_new (I.withChoices allocs mprotects) h).2
          show ∀ ok ∈ s₁.heap.allocs, ok = true
          rw [hal]
          exact (nextAlloc_plenty hP).2
      | spawnDefault h =>
          have hal := (runningFar_new (I.withChoices allocs mprotects) h).2
          show ∀ ok ∈ s₁.heap.allocs, ok = true
          rw [hal]
          exact (nextAlloc_plenty hP).2
      | fork => exact hP
      | forkDefault => exact hP
      | _ => exact hj.elim

theorem Orderly.setFar (h : Orderly s e) : ∀ v far, EventLabel s e v (.setFar far) →
    ∀ t, t ≠ mainId → v.tealets t = none := by
  rintro v far ⟨s₁, a₁, own, -, rfl, ha⟩ t ht
  have hfirst := h.farFirst
  cases e with
  | write m => cases ha.2
  | call c allocs mprotects =>
      cases ha
      exact Option.not_isSome_iff_eq_none.mp (hfirst rfl t ht)

theorem Orderly.capture {leak : StackId → Nat} {a : Saved} (I : Inv leak s a) (h : Orderly s e) :
    ∀ v t far allocs, EventLabel s e v (.capture t far allocs) → far ≤ v.far v.current := by
  rintro v t far al ⟨s₁, a₁, own, -, rfl, ha⟩
  rw [runningFar_view]
  have hL := h.legal
  have hhint := h.hintNear
  cases e with
  | write m => cases ha.2
  | call c allocs mprotects =>
      cases ha with
      | runDefault => exact pickInitialFar_le hL.2.1.2.1 hhint
      | spawnDefault hnew =>
          rw [(runningFar_new (I.withChoices allocs mprotects) hnew).1]
          exact pickInitialFar_le hL.1.2.1 hhint
      | forkDefault => exact Nat.le_refl _

theorem Orderly.prudent {leak : StackId → Nat} {a : Saved} (I : Inv leak s a) (h : Orderly s e) :
    e.Prudent s ∧ Plentiful (EventLabel s e) := by
  have hP := Event.plentiful I h.panicFree h.plenty
  exact ⟨⟨h.legal, h.panicFree.resumes, hP.careful h.setFar (h.capture I)⟩, hP⟩

end Orderly

/-- Whether a call other than `tealet_set_far` is orderly. -/
def Event.orderly (s : State) (e : Event) : Bool :=
  e.legal s && e.panicFree s &&
    match e with
    | .write _ | .call (.setFar ..) _ _ => false
    | .call (.run _ _ _ stackFar _ _) allocs _ | .call (.spawn _ _ stackFar _ _) allocs _ =>
        allocs.all id && decide (stackFar ≤ runningFar s)
    | .call _ allocs _ => allocs.all id

theorem Event.orderly_spec {s : State} {e : Event} (h : e.orderly s = true) : Orderly s e := by
  simp only [Event.orderly, Bool.and_eq_true] at h
  obtain ⟨⟨hL, hF⟩, h⟩ := h
  have hall : ∀ {l : List Bool}, l.all id = true → ∀ ok ∈ l, ok = true := fun h =>
    List.all_eq_true.mp h
  refine ⟨Event.legal_spec hL, Event.panicFree_spec hF, ?_, ?_, ?_⟩
  all_goals
    cases e with
    | write m => cases hL
    | call c allocs mprotects => ?_
  · cases c with
    | run | spawn => exact hall (Bool.and_eq_true_iff.mp h).1
    | setFar => cases h
    | _ => exact hall h
  · cases c with
    | setFar => cases h
    | _ => exact True.intro
  · cases c with
    | run | spawn =>
        obtain ⟨-, hle⟩ := Bool.and_eq_true_iff.mp h
        exact of_decide_eq_true (p := _ ≤ runningFar s) hle
    | _ => exact True.intro

/-- Main at the start, with the boundary 2000. -/
def boundedMain (mem : Memory) : State :=
  ((initial mem {}).withChoices [] []).setTealet mainId
    { stackFar := 2000, flags := { bound := true, mainLineage := true } }

/-- An orderly run that is found by evaluating it. -/
theorem exists_orderly (mem : Memory) (es : List Event) (q : State → Bool)
    (h : ((trace Event.orderly (boundedMain mem) es).map q) = some true) :
    ∃ s past, RunWith Orderly (initial mem {}) s past ∧ q s = true := by
  obtain ⟨s, hrun, hq⟩ := exists_run_of_trace (fun s e => Event.orderly_spec) es q h
  have hfirst : Orderly (initial mem {}) (.call (.setFar mainId 2000) [] []) := by
    refine ⟨⟨rfl, by decide, by decide⟩, ?_, nofun, ?_, True.intro⟩
    · exact Event.panicFree_spec rfl
    · intro _ u hu hlive
      have hnone : (initial mem {}).tealets u = none := if_neg hu
      simp [Alive, hnone] at hlive
  have hset : Run Orderly (initial mem {}) (boundedMain mem) := Run.refl.tail hfirst rfl
  obtain ⟨past, hpast⟩ := (hset.trans hrun).runWith
  exact ⟨s, past, hpast, hq⟩

/-- Stack isolation: a tealet that is resumed finds on its stack, from its
saved near end to its boundary, the bytes that were there when it was
suspended, or its source was. -/
theorem stack_isolated {mem : Memory} {env : Env} {s s' : State} {past : TealetId → Past}
    {e : Event} {o : Outcome} {t : TealetId} {r : TealetSub} {st : Stack}
    (h : RunWith Orderly (initial mem env) s past) (he : Orderly s e)
    (hs : step s e = .ok (s', o)) (hne : s.gCurrent ≠ t) (hcur : s'.gCurrent = t)
    (hr : s.tealets t = some r) (hst : s.saved t = some st) :
    st.chunk.stackNear = (past t).near ∧
      ∀ x, st.chunk.stackNear ≤ x → x < r.stackFar → s'.mem x = (past t).mem x := by
  obtain ⟨a, I, Is, R⟩ := h.recalled fun I he => (he.prudent I).1
  obtain ⟨hprudent, hplenty⟩ := he.prudent I
  obtain ⟨a', -, -, F, -⟩ := hprudent.follows I Is hs
  exact R.resumed I Is hplenty.sound F hcur hne hr hst

theorem Orderly.write {s : State} {m : Memory} (hm : ∀ y, runningFar s ≤ y → m y = s.mem y) :
    Orderly s (.write m) :=
  ⟨hm, Event.panicFree_spec rfl, True.intro, True.intro, True.intro⟩

/-- The state after user code wrote over everything nearer than `far`. -/
def State.overwritten (s : State) (far : Nat) : State :=
  { s with mem := fun y => if y < far then 7 else s.mem y }

/-- Main starts a tealet nearer than itself, which writes over main's stack
as far as it may, and is resumed. -/
theorem stack_isolated_main : ∃ s s' past o, RunWith Orderly (initial UInt8.ofNat {}) s past ∧
    s.mem 995 = 7 ∧ step s (.call (.switch 0 none {} 900) [] []) = .ok (s', o) ∧
    s'.mem 995 = 227 ∧ ∀ x, 990 ≤ x → x < 2000 → s'.mem x = (past 0).mem x := by
  obtain ⟨s, past, hrun, hq⟩ := exists_orderly UInt8.ofNat
    [.call .new [] [], .call (.run 1 7 none null true ⟨1000, 990⟩) [] []]
    (fun s => decide (runningFar s = 1000 ∧ s.gCurrent ≠ 0) &&
      Event.orderly (s.overwritten 1000) (.call (.switch 0 none {} 900) [] []) &&
      endsIn (step (s.overwritten 1000) (.call (.switch 0 none {} 900) [] []))
        (fun p => decide (p.1.gCurrent = 0) && decide (p.1.mem 995 = 227)) &&
      decide (((s.saved 0).map fun st => st.chunk.stackNear) = some 990 ∧
        ((s.tealets 0).map TealetSub.stackFar) = some 2000)) (by decide +kernel)
  simp only [Bool.and_eq_true, decide_eq_true_eq] at hq
  obtain ⟨⟨⟨⟨hrf, hne⟩, he⟩, hstep⟩, hst, hr⟩ := hq
  obtain ⟨st, hst, hnear⟩ := Option.map_eq_some_iff.mp hst
  obtain ⟨r, hr, hfar⟩ := Option.map_eq_some_iff.mp hr
  obtain ⟨⟨s', o⟩, hs, hp⟩ := endsIn_spec hstep
  simp only [Bool.and_eq_true, decide_eq_true_eq] at hp
  have hwrite : Orderly s (.write (s.overwritten 1000).mem) := .write fun y hy =>
    if_neg (Nat.not_lt.mpr (hrf ▸ hy))
  have hover : RunWith Orderly (initial UInt8.ofNat {}) (s.overwritten 1000) _ :=
    hrun.tail hwrite rfl
  refine ⟨s.overwritten 1000, s', _, o, hover, rfl, hs, hp.2, fun x hx hf => ?_⟩
  exact (stack_isolated hover (Event.orderly_spec he) hs hne hp.1 hr hst).2 x (hnear ▸ hx)
    (hfar ▸ hf)

/-! ## How far the stacks are saved -/

/-- The law of the saved stacks and of `g_prev`. -/
structure SavedExtent (s : State) (past : TealetId → Past) : Prop where
  law : ∀ t r st, s.tealets t = some r → s.saved t = some st →
    st.stackFar = r.stackFar ∧ st.chunk.stackNear = (past t).near ∧ (past t).fars ≠ [] ∧
      st.top = min r.stackFar (past t).reach
  list : ∃ l, s.heap.links.Rep l ∧
    (∀ t r k st, s.tealets t = some r → r.stack = some k → s.heap.stackAt k = some st →
      (k ∈ l ↔ st.top < r.stackFar)) ∧
    (∀ k ∈ l, ∃ st, s.heap.stackAt k = some st ∧ runningFar s ≤ st.top ∧ st.top < st.stackFar) ∧
    l.Pairwise fun k k' => ∀ st st', s.heap.stackAt k = some st → s.heap.stackAt k' = some st' →
      st.stackFar < st'.stackFar ∧ st.stackFar ≤ st'.top ∧
        ∀ x, ¬ ((st.top ≤ x ∧ x < st.stackFar) ∧ (st'.top ≤ x ∧ x < st'.stackFar))
  unbounded : runningFar s = spFurthest → s.heap.gPrev = none

theorem Inv.savedExtent {s : State} {a : Saved} {past : TealetId → Past}
    (I : Inv (fun _ => 0) s a) (Is : Isolated (s.view a)) (W : (s.view a).Whole)
    (X : Extended s a past) (R : Recalled s a past) : SavedExtent s past := by
  obtain ⟨own, H⟩ := I.rep
  have htop : ∀ {k st im}, s.heap.stackAt k = some st → a.img k = some im →
      st.top = im.top ∧ st.stackFar = im.far ∧ st.chunk.stackNear = im.near := by
    intro k st im hst him
    obtain ⟨st', hst', hrep⟩ := H.stack k im him
    obtain rfl := Option.some.inj (hst.symm.trans hst')
    refine ⟨?_, hrep.far, hrep.near⟩
    rw [Stack.top, hrep.near, hrep.saved]
    rfl
  refine ⟨?_, ⟨a.prev, H.list, ?_, ?_, ?_⟩, ?_⟩
  · intro t r st hr hst
    obtain ⟨k, hk⟩ : ∃ k, r.stack = some k := by
      cases hk : r.stack with
      | none => simp [State.saved, hr, hk] at hst
      | some k => exact ⟨k, rfl⟩
    have hkt : (s.view a).stackOf t = some k := (stackOf_eq (v := s.view a) hr).trans hk
    obtain ⟨im, him, -⟩ := I.core.owned t r k hr hk
    obtain ⟨st', hst', hat, -⟩ := saved_eq H hkt him
    obtain rfl := Option.some.inj (hst.symm.trans hst')
    obtain ⟨h₁, h₂, h₃⟩ := htop hat him
    have hfar := Is.target_far I.core hr k im hk him
    obtain ⟨hreach, hne⟩ := X t k im hkt him
    rw [h₁, h₂, h₃, ← hfar]
    exact ⟨rfl, (R t k im hkt him (W k im him)).near, hne, hreach⟩
  · intro t r k st hr hk hst
    obtain ⟨im, him, -⟩ := I.core.owned t r k hr hk
    obtain ⟨h₁, -, -⟩ := htop hst him
    rw [h₁, ← Is.target_far I.core hr k im hk him]
    constructor
    · intro hmem
      obtain ⟨im', him', -, hlt⟩ := I.core.listed k hmem
      rwa [← Option.some.inj (him.symm.trans him')] at hlt
    · intro hlt
      by_contra hmem
      exact Nat.not_lt_of_le (Is.clear.full k im him (W k im him) hmem id) hlt
  · intro k hk
    obtain ⟨im, him, -, hlt⟩ := I.core.listed k hk
    obtain ⟨st, hst, -⟩ := H.stack k im him
    obtain ⟨h₁, h₂, -⟩ := htop hst him
    refine ⟨st, hst, ?_, by rw [h₁, h₂]; exact hlt⟩
    rw [h₁]
    exact (Is.clear.covers k hk im him).le_top hlt
  · refine List.Pairwise.imp_of_mem ?_ Is.clear.sorted
    intro k k' hk hk' hs st st' hst hst'
    obtain ⟨im, him, -, -⟩ := I.core.listed k hk
    obtain ⟨im', him', -, hlt'⟩ := I.core.listed k' hk'
    obtain ⟨h₁, h₂, -⟩ := htop hst him
    obtain ⟨h₁', h₂', -⟩ := htop hst' him'
    have hc := hs im im' him him'
    have hle := hc.le_top hlt'
    rw [h₁, h₂, h₁', h₂']
    exact ⟨hc.lt_far hlt', hle, fun x hx => by omega⟩
  · intro hF
    have hnil := Is.clear.prev_nil I.core hF
    have hseg := H.list.seg
    have hnil : a.prev = [] := hnil
    rw [hnil] at hseg
    exact hseg

/-- In orderly runs every stack is saved exactly as far as the transfers
since its suspension require, `g_prev` holds those that are not saved in
full, nearest boundary first, and no assertion of `tealet_stack_growto`
fails. -/
theorem saved_extent {mem : Memory} {env : Env} {s : State} {past : TealetId → Past}
    (h : RunWith Orderly (initial mem env) s past) :
    SavedExtent s past ∧
      ∀ e, Orderly s e → step s e ≠ .error (.assertion .stackGrowto) := by
  obtain ⟨a, I, Is, W, X, R⟩ := h.extended fun I he => he.prudent I
  refine ⟨I.savedExtent Is W X R, fun e he hf => ?_⟩
  have hsat := (step_spec True (E := fun f => f ≠ .assertion .stackGrowto) I he.legal
    (fun f hf h => by subst h; cases hf) he.panicFree.resumes (.inl nofun)).fault hf
  exact hsat rfl

/-- Main is suspended in part and linked, and nothing else is. -/
theorem saved_extent_main : ∃ s past, RunWith Orderly (initial (fun _ => 0) {}) s past ∧
    s.heap.gPrev ≠ none ∧ SavedExtent s past := by
  obtain ⟨s, past, hrun, hq⟩ := exists_orderly (fun _ => 0)
    [.call .new [] [], .call (.run 1 7 none null true ⟨1000, 990⟩) [] []]
    (fun s => decide (s.heap.gPrev ≠ none)) (by decide +kernel)
  exact ⟨s, past, hrun, of_decide_eq_true hq, (saved_extent hrun).1⟩

end Tealet
