import Tealet.Forced
import Tealet.Past

/-!
# Calls that keep every stack

A saved stack is lost without a word in five places: main's boundary is
moved out beyond what is saved, a tealet is captured that reaches beyond
it, a start is left with a panic, a transfer takes its target out of
`g_prev` and then fails, and a forced transfer cannot grow the stack of its
own target, which a duplicate shares. `Keeping` and `Conserving` are the
conditions, on the state before a call and its arguments, under which none
of them is reached.
-/

namespace Tealet

open DList Slice Hoare

/-! ## Conditions -/

/-- Every stack in `g_prev` is saved up to `F`. -/
def State.SavedTo (s : State) (F : Nat) : Prop :=
  ∀ k, s.heap.Linked k → s.heap.uncovered F k = false

/-- The saved stack of `t` is in `g_prev`, and of the allocations in store
the one fails that comes after those for the stacks in front of it. -/
structure State.Short (s : State) (t : TealetId) (allocs : List Bool) (r : TealetSub) (k : StackId)
    (st : Stack) (l : List StackId) : Prop where
  record : s.tealets t = some r
  stack : r.stack = some k
  list : s.heap.links.Rep l
  listed : k ∈ l
  saved : s.heap.stackAt k = some st
  fails : (nextAlloc (allocs.drop (s.heap.demand r.stackFar l r.stack))).1 = false

/-- A transfer that may fail takes its target out of `g_prev`, because it is
not shared, and cannot save the running tealet then. -/
def State.Drops (s : State) (t : TealetId) (flags : XFlags) (isExit : Bool)
    (allocs : List Bool) : Prop :=
  isExit = false ∧ mayFail s.gCurrent flags = true ∧ ∃ r k st l, s.Short t allocs r k st l ∧
    st.refcount ≤ 1 ∧ Paid (s.heap.demand r.stackFar l r.stack) allocs

/-- A forced transfer cannot grow the stack of its target, which is shared. -/
def State.Spoils (s : State) (t : TealetId) (flags : XFlags) (allocs : List Bool) : Prop :=
  mayFail s.gCurrent flags = false ∧ ∃ r k st l, s.Short t allocs r k st l ∧ 1 < st.refcount

/-- Main's boundary is not moved out beyond what is saved, nor while main is suspended. -/
def Event.FarSaved (s : State) : Event → Prop
  | .call (.setFar t far) _ _ => t = mainId →
      (s.tealets mainId).map TealetSub.stackFar = some far ∨ s.gCurrent = mainId ∧ s.SavedTo far
  | _ => True

/-- A tealet that is captured does not reach beyond what is saved. -/
def Event.CapturesSaved (s : State) : Event → Prop
  | .call (.run t _ _ stackFar false site) _ _ =>
      s.tealets t = some {} → s.SavedTo (pickInitialFar site.far stackFar)
  | .call (.spawn _ _ stackFar false site) _ _ => s.SavedTo (pickInitialFar site.far stackFar)
  | _ => True

structure Keeping (s : State) (e : Event) : Prop where
  legal : Legal s e
  panics : e.PanicResumes True s
  farSaved : e.FarSaved s
  capturesSaved : e.CapturesSaved s
  sound : ∀ s₁ t flags isExit allocs, e.Attempts s s₁ (.xfer t flags isExit allocs) →
    t ≠ s₁.gCurrent → ¬ s₁.Spoils t flags allocs

structure Conserving (s : State) (e : Event) : Prop extends Keeping s e where
  undropped : ∀ s₁ t flags isExit allocs, e.Attempts s s₁ (.xfer t flags isExit allocs) →
    t ≠ s₁.gCurrent → ¬ s₁.Drops t flags isExit allocs

section Conditions

variable {leak : StackId → Nat} {s s₁ : State} {a a₁ : Saved} {own : StackId → List ChunkId}
  {e : Event} {t : TealetId} {flags : XFlags} {isExit : Bool} {allocs : List Bool} {F : Nat}
  {k : StackId} {r : TealetSub} {im im' : Image}

theorem savedTo_iff (H : HeapRep s.heap a own) : (s.view a).SavedTo F ↔ s.SavedTo F := by
  unfold State.SavedTo
  simp only [H.linked_iff, H.uncovered_eq]
  constructor
  · intro h k hk
    cases him : a.img k with
    | none => simp [uncovered, him]
    | some im => simpa [uncovered, him] using h k hk im him
  · intro h k hk im him
    have him : a.img k = some im := him
    simpa [uncovered, him] using h k hk

/-- The pass over the list, cut at a member that is its target: it gets stuck
in front of the target, or comes to it. -/
theorem Core.growth_front {v : View} (H : Core leak v) (hk : k ∈ v.prev) (F : Nat) (failOk : Bool)
    (allocs : List Bool) : ∃ front back, v.prev = front ++ k :: back ∧ k ∉ front ∧
      ∀ g, v.growth (some k) F failOk allocs = g → (g.failed = true ∧ g.img k = v.img k) ∨
        ∃ img₁, img₁ k = v.img k ∧ ∀ g₁, growList v.mem (v.stackOf mainId) (some k) F failOk
            (k :: back) img₁ (allocs.drop (front.countP (uncovered v.img F))) = g₁ →
          g.img k = g₁.img k ∧ g.allocs = g₁.allocs ∧ g.failed = g₁.failed := by
  obtain ⟨front, back, hsplit⟩ := List.append_of_mem hk
  have hnd := H.nodup
  rw [hsplit, List.nodup_append] at hnd
  have hkf : k ∉ front := fun h => hnd.2.2 k h k List.mem_cons_self rfl
  refine ⟨front, back, hsplit, hkf, fun g hg => ?_⟩
  rw [View.growth, hsplit] at hg
  have hfront : ∀ x ∈ front, some k ≠ some x ∧ ∃ im, v.img x = some im := fun x hx =>
    ⟨fun h => hkf (Option.some.inj h ▸ hx),
      (H.listed x (hsplit ▸ List.mem_append_left _ hx)).imp fun _ h => h.1⟩
  rcases growList_front hfront hnd.1 g hg with ⟨hf, himg⟩ | ⟨img₁, himg, hrest⟩
  · exact .inl ⟨hf, himg k hkf⟩
  · exact .inr ⟨img₁, himg k hkf, fun g₁ hg₁ => (hrest g₁ hg₁).imp_left fun h => congrFun h k⟩

theorem demand_front {front back : List StackId} (hk : k ∉ front) (h : Heap) (F : Nat) :
    h.demand F (front ++ k :: back) (some k) = front.countP (h.uncovered F) := by
  rw [Heap.demand, takeWhile_front hk]

/-- A transfer that the moves see drop its target drops it. -/
theorem drops_of_dropped (H : HeapRep s.heap a own) (C : Core leak (s.view a))
    (hr : s.tealets t = some r) (hmay : mayFail s.gCurrent flags = true)
    (hok : ((s.view a).growth r.stack r.stackFar true allocs).failed = false)
    (hal : (nextAlloc ((s.view a).growth r.stack r.stackFar true allocs).allocs).1 = false)
    (hk : Dropped (s.view a) r.stack k) : s.Drops t flags false allocs := by
  obtain ⟨hrk, hmem, href⟩ := hk
  obtain ⟨im, him, hd, -⟩ := C.listed k hmem
  obtain ⟨st, hst, hrep⟩ := H.stack k im him
  obtain ⟨front, back, hsplit, hkf, hcut⟩ := C.growth_front hmem r.stackFar true allocs
  have hsplit : a.prev = front ++ k :: back := hsplit
  have hdemand : s.heap.demand r.stackFar a.prev r.stack =
      front.countP (uncovered a.img r.stackFar) := by
    rw [hrk, hsplit, demand_front hkf, H.uncovered_eq]
  have hlisted : ∀ x ∈ front, ∃ im, a.img x = some im ∧ im.defunct = false := fun x hx =>
    (C.listed x (show x ∈ a.prev from hsplit ▸ List.mem_append_left _ hx)).imp fun _ h =>
      ⟨h.1, h.2.1⟩
  have hnd := C.nodup
  rw [show (s.view a).prev = _ from hsplit, List.nodup_append] at hnd
  have hpaid : Paid (front.countP (uncovered a.img r.stackFar)) allocs := by
    have hreach : (growList s.mem ((s.view a).stackOf mainId) r.stack r.stackFar true
        (front ++ k :: back) a.img allocs).failed = false ↔ _ :=
      growList_reaches hrk him (href im him) hkf hlisted hnd.1
    rw [← hsplit] at hreach
    exact hreach.mp hok
  refine ⟨rfl, hmay, r, k, st, a.prev, ⟨hr, hrk, H.list, hmem, hst, ?_⟩, ?_, ?_⟩
  · rw [hrk] at hok hal
    rcases hcut _ rfl with ⟨hf, -⟩ | ⟨img₁, himg, hrest⟩
    · rw [hok] at hf
      cases hf
    · rw [(hrest _ (growList_target (himg.trans him) ⟨rfl, href im him⟩)).2.1] at hal
      rw [hdemand]
      exact hal
  · rw [hrep.refcount]
    exact href im him
  · rw [hdemand]
    exact hpaid

/-- A transfer that the moves see spoil its target spoils it. -/
theorem spoils_of_spoiled (H : HeapRep s.heap a own) (C : Core leak (s.view a))
    (hr : s.tealets t = some r) (hrk : r.stack = some k) (him : a.img k = some im)
    (hd : im.defunct = false) (him' : ((s.view a).growth r.stack r.stackFar
      (mayFail s.gCurrent flags) allocs).img k = some im') (hd' : im'.defunct = true) :
    s.Spoils t flags allocs := by
  obtain ⟨im₀, him₀, -, rfl | ⟨hmem, -, hgrew⟩⟩ := C.grown him'
  · obtain rfl := Option.some.inj (him.symm.trans him₀)
    rw [hd] at hd'
    cases hd'
  obtain rfl := Option.some.inj (him.symm.trans him₀)
  obtain ⟨st, hst, hrep⟩ := H.stack k im him
  obtain ⟨front, back, hsplit, hkf, hcut⟩ :=
    C.growth_front hmem r.stackFar (mayFail s.gCurrent flags) allocs
  have hsplit : a.prev = front ++ k :: back := hsplit
  have hdemand : s.heap.demand r.stackFar a.prev r.stack =
      front.countP (uncovered a.img r.stackFar) := by
    rw [hrk, hsplit, demand_front hkf, H.uncovered_eq]
  rw [hrk] at him'
  have hsound : ∀ {im₁ : Image}, im₁.defunct = false → some im₁ ≠ some im' := by
    rintro im₁ hd₁ heq
    rw [Option.some.inj heq, hd'] at hd₁
    cases hd₁
  rcases hcut _ rfl with ⟨-, himg⟩ | ⟨img₁, himg, hrest⟩
  · exact absurd ((himg.trans him).symm.trans him') (hsound hd)
  have himk : img₁ k = some im := himg.trans him
  by_cases href : im.refcount ≤ 1
  · have hg := (hrest _ (growList_target himk ⟨rfl, href⟩)).1
    exact absurd ((hg.trans himk).symm.trans him') (hsound hd)
  -- the target itself is grown
  have hno : ¬ (some k = some k ∧ im.refcount ≤ 1) := fun h => href h.2
  rcases hgt : im.growto s.mem r.stackFar (mayFail s.gCurrent flags ||
      decide ((s.view a).stackOf mainId = some k))
      (allocs.drop (front.countP (uncovered a.img r.stackFar))) with ⟨_ | im₁, rest⟩
  · have hg := (hrest _ (growList_failed himk hno hgt)).1
    exact absurd ((hg.trans himk).symm.trans him') (hsound hd)
  · have hg := (hrest _ (growList_shared himk hno hgt rfl)).1
    obtain rfl : im₁ = im' :=
      Option.some.inj ((Function.update_self k (some im₁) img₁).symm.trans (hg.symm.trans him'))
    rw [Image.growto] at hgt
    split at hgt
    · cases hgt
      exact absurd rfl (hsound hd)
    · split at hgt
      · cases hgt
        have hd₁ : (im.extend s.mem r.stackFar).defunct = false := hd
        exact absurd rfl (hsound hd₁)
      · rename_i rest' hnext
        split at hgt
        · cases hgt
        · rename_i hstop
          have hmay : mayFail s.gCurrent flags = false := by
            cases hm : mayFail s.gCurrent flags with
            | false => rfl
            | true => exact absurd (by simp [hm]) hstop
          refine ⟨hmay, r, k, st, a.prev, ⟨hr, hrk, H.list, hmem, hst, ?_⟩, ?_⟩
          · rw [hdemand, hnext]
          · rw [hrep.refcount]
            exact Nat.lt_of_not_le href

/-- Creating a tealet leaves the saved stacks alone. -/
theorem new_savedTo (h : new s = (s₁, some t)) (hs : s.SavedTo F) : s₁.SavedTo F := by
  have hheap : ∃ al stats, s₁.heap = { s.heap with allocs := al, stats := stats } := by
    have halloc := alloc_spec (a := ({} : Saved)) s.lockAuto
    have hfst : s₁ = (alloc s.lockAuto).1.unlockAuto := (congrArg Prod.fst h).symm
    rw [hfst]
    generalize alloc s.lockAuto = p at halloc
    cases halloc with
    | none hal hs =>
        rw [hs]
        exact ⟨_, _, rfl⟩
    | some hal hs =>
        rw [hs]
        exact ⟨_, _, rfl⟩
  obtain ⟨al, stats, hheap⟩ := hheap
  intro k hk
  rw [hheap] at hk ⊢
  exact hs k hk

theorem Keeping.sound' (h : Keeping s e) : Sound (EventLabel s e) := by
  rintro v leak t flags isExit allocs r k im' C ⟨s₁, a₁, own, H, rfl, ha⟩ hr hk ht him' hd
  by_contra hd'
  cases him : a₁.img k with
  | none =>
      rw [View.growth_none (v := s₁.view a₁) him] at him'
      cases him'
  | some im =>
      exact h.sound s₁ t flags isExit allocs ha ht
        (spoils_of_spoiled H C hr hk him (hd im him) him' (by simpa using hd'))

theorem Conserving.careful (h : Conserving s e) : Careful (EventLabel s e) := by
  refine ⟨?_, ?_, ?_⟩
  · rintro v far ⟨s₁, a₁, own, H, rfl, ha⟩
    have hfar := h.farSaved
    cases e with
    | write m => cases ha.2
    | call c allocs mprotects =>
        cases ha
        rcases hfar rfl with hsame | ⟨hcur, hs⟩
        · refine .inr (.inl ?_)
          have hsame : ((s.withChoices allocs mprotects).tealets mainId).map TealetSub.stackFar =
              some far := hsame
          simp [View.far, State.view, hsame]
        · exact .inr (.inr ⟨hcur, (savedTo_iff H).mpr hs⟩)
  · rintro v t far al ⟨s₁, a₁, own, H, rfl, ha⟩ hnew
    have hcap := h.capturesSaved
    cases e with
    | write m => cases ha.2
    | call c allocs mprotects =>
        cases ha with
        | runDefault => exact .inr ((savedTo_iff H).mpr (hcap hnew))
        | spawnDefault hnew => exact .inr ((savedTo_iff H).mpr (new_savedTo hnew hcap))
        | forkDefault => exact .inl (Nat.le_refl _)
  · rintro v t flags allocs r C ⟨s₁, a₁, own, H, rfl, ha⟩ hr ht hmay hok hal k hdrop
    exact h.undropped s₁ t flags false allocs ha ht (drops_of_dropped H C hr hmay hok hal hdrop)

theorem Conserving.prudent (h : Conserving s e) : e.Prudent s := ⟨h.legal, h.panics, h.careful⟩

theorem Event.attempts_allocs (h : e.Attempts s s₁ (.xfer t flags isExit allocs)) :
    allocs = s₁.heap.allocs := by
  cases e with
  | write m => cases h.2
  | call c al mprotects =>
      cases h
      rfl

/-- Nothing falls short with all allocations, or nothing in `g_prev`. -/
theorem not_short (h : (allocs.all id || s.heap.gPrev.isNone) = true) {st : Stack}
    {l : List StackId} : ¬ s.Short t allocs r k st l := by
  rintro ⟨-, -, hl, hk, -, hfails⟩
  rcases Bool.or_eq_true_iff.mp h with hall | hnone
  · have hplenty : ∀ ok ∈ allocs.drop (s.heap.demand r.stackFar l r.stack), ok = true :=
      fun ok hok => List.all_eq_true.mp hall ok (List.mem_of_mem_drop hok)
    rw [(nextAlloc_plenty hplenty).1] at hfails
    cases hfails
  · have hhead : s.heap.gPrev = l.head? := hl.head_eq
    rw [hhead, Option.isNone_iff_eq_none, List.head?_eq_none_iff] at hnone
    rw [hnone] at hk
    cases hk

/-- Whether a call keeps every stack for simple reasons: it moves no
boundary, captures nothing, and its transfers have all their allocations, or
nothing in `g_prev`. -/
def Event.conserving (s : State) (e : Event) : Bool :=
  e.legal s && e.panicFree s &&
    e.attemptsAll (fun s₁ _ _ => s₁.heap.allocs.all id || s₁.heap.gPrev.isNone) s &&
    match e with
    | .call (.setFar ..) _ _ | .call (.run _ _ _ _ false _) _ _
    | .call (.spawn _ _ _ false _) _ _ => false
    | _ => true

theorem Event.conserving_spec (h : e.conserving s = true) : Conserving s e := by
  simp only [Event.conserving, Bool.and_eq_true] at h
  obtain ⟨⟨⟨hL, hF⟩, hA⟩, h⟩ := h
  have hshort : ∀ {s₁ t flags isExit allocs}, e.Attempts s s₁ (.xfer t flags isExit allocs) →
      (allocs.all id || s₁.heap.gPrev.isNone) = true := by
    intro s₁ t flags isExit allocs ha
    rw [attempts_allocs ha]
    exact Event.attemptsAll_spec hA ha
  refine ⟨⟨Event.legal_spec hL, (Event.panicFree_spec hF).resumes, ?_, ?_, ?_⟩, ?_⟩
  · cases e with
    | write m => exact True.intro
    | call c allocs mprotects =>
        cases c with
        | setFar => cases h
        | _ => exact True.intro
  · cases e with
    | write m => exact True.intro
    | call c allocs mprotects =>
        cases c with
        | run t fn parg hint sw site =>
            cases sw with
            | true => exact True.intro
            | false => cases h
        | spawn fn parg hint sw site =>
            cases sw with
            | true => exact True.intro
            | false => cases h
        | _ => exact True.intro
  · rintro s₁ t flags isExit allocs ha - ⟨-, r, k, st, l, hs, -⟩
    exact not_short (hshort ha) hs
  · rintro s₁ t flags isExit allocs ha - ⟨-, -, r, k, st, l, hs, -⟩
    exact not_short (hshort ha) hs

/-- What user code writes loses nothing. -/
theorem Conserving.write {s : State} {m : Memory} (hm : ∀ y, runningFar s ≤ y → m y = s.mem y) :
    Conserving s (.write m) := by
  have hno : ∀ {s₁ t flags isExit allocs},
      ¬ (Event.write m).Attempts s s₁ (.xfer t flags isExit allocs) := fun h => by cases h.2
  exact ⟨⟨hm, (Event.panicFree_spec rfl).resumes, True.intro, True.intro,
    fun _ _ _ _ _ h => absurd h hno⟩, fun _ _ _ _ _ h => absurd h hno⟩

end Conditions

/-! ## A suspended tealet along a run -/

/-- The tealet `t` was freed, or its stack stands for `m` between `near` and
`far` unless it was lost. -/
def View.Awaits (v : View) (t : TealetId) (near far : Nat) (m : Memory) : Prop :=
  t < v.nextTealet ∧ (v.tealets t = none ∨ ∃ k im, v.stackOf t = some k ∧ v.img k = some im ∧
    (im.defunct = false → im.near = near ∧ im.far = far ∧
      ∀ x, near ≤ x → x < far → im.value v.mem x = m x))

section Awaits

variable {leak : StackId → Nat} {C : View → Label → Prop} {v v' : View} {s s' : State}
  {a : Saved} {t : TealetId} {near far : Nat} {m : Memory}

theorem Follows.awaits (F : Follows C v v') (L : Lasting v v') (H : Core leak v)
    (H' : Core leak v') (ht : t ≠ v'.current) (h : v.Awaits t near far m) :
    v'.Awaits t near far m := by
  obtain ⟨hlt, h⟩ := h
  refine ⟨Nat.lt_of_lt_of_le hlt L.nextTealet, ?_⟩
  rcases h with hn | ⟨k, im, hk, him, hsame⟩
  · exact .inl (L.gone t hlt hn)
  rcases L.stack t k ht hk with hn | hk'
  · exact .inl hn
  obtain ⟨im', him'⟩ := H'.img_of_stackOf hk'
  refine .inr ⟨k, im', hk', him', fun hd => ?_⟩
  obtain ⟨im₀, him₀, hd₀, hs, -⟩ := F.old k im' (H.lt_nextStack him) him' hd
  obtain rfl := Option.some.inj (him.symm.trans him₀)
  obtain ⟨hnear, hfar, hval⟩ := hsame hd₀
  refine ⟨hs.near.trans hnear, hs.far.trans hfar, fun x hx hf => ?_⟩
  rw [hs.value x (hnear ▸ hx) (hfar ▸ hf), hval x hx hf]

/-- It finds its stack when it is resumed. -/
theorem Follows.found (F : Follows C v v') (L : Lasting v v') (hS : Sound C)
    (hrun : v'.tealets v'.current ≠ none) (hne : v'.current ≠ v.current)
    (h : v.Awaits v'.current near far m) : ∀ x, near ≤ x → x < far → v'.mem x = m x := by
  obtain ⟨hlt, h⟩ := h
  rcases h with hn | ⟨k, im, hk, him, hsame⟩
  · exact absurd (L.gone _ hlt hn) hrun
  obtain ⟨hd, hres⟩ := F.resumed hne k im hk him
  obtain ⟨hnear, hfar, hval⟩ := hsame hd
  intro x hx hf
  rw [hres hS x (hnear ▸ hx) (hfar ▸ hf), hval x hx hf]

/-- A step that does not resume `t`. -/
theorem Inv.awaits_step {e : Event} {o : Outcome} (I : Inv (fun _ => 0) s a)
    (Is : Isolated (s.view a)) (he : Conserving s e) (hs : step s e = .ok (s', o))
    (h : (s.view a).Awaits t near far m) (ht : s'.gCurrent ≠ t) :
    ∃ a', Inv (fun _ => 0) s' a' ∧ Isolated (s'.view a') ∧ (s'.view a').Awaits t near far m := by
  obtain ⟨a', I', Is', F, L, -⟩ := he.prudent.follows I Is hs
  exact ⟨a', I', Is', F.awaits L I.core I'.core ht.symm h⟩

theorem Run.awaits (h : Run (fun s e => Conserving s e ∧ s.gCurrent ≠ t) s s')
    (I : Inv (fun _ => 0) s a) (Is : Isolated (s.view a)) (hA : (s.view a).Awaits t near far m)
    (ht : s'.gCurrent ≠ t) :
    ∃ a', Inv (fun _ => 0) s' a' ∧ Isolated (s'.view a') ∧ (s'.view a').Awaits t near far m := by
  induction h with
  | refl => exact ⟨a, I, Is, hA⟩
  | tail _ hp hs ih =>
      obtain ⟨a₁, I₁, Is₁, hA₁⟩ := ih hp.2
      exact I₁.awaits_step Is₁ hp.1 hs hA₁ ht

end Awaits

end Tealet
