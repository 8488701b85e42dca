import Tealet.Lib.Simulation
import Tealet.Conserving

/-!
# Coroutines with stacks of their own

What the library is for, without its heap: coroutines each of which has a
stack of its own, which nobody else reads or writes. One runs; the others
have not begun, are suspended, have exited or were lost. A transfer puts
the stack of its target in place and leaves the stack of the tealet that
leaves as it is.

The library keeps one memory, saves of each stack only what is in the way,
shares saved stacks among duplicates and may run out of memory at any
point. In runs whose calls are `Conserving` none of this is seen: each
step is one of these machines' (`library_refines`).
-/

namespace Tealet

open DList Slice Relation Simulation

/-! ## The machine -/

/-- The stack of a suspended coroutine. -/
structure Private where
  near : Nat
  far : Nat
  bytes : Memory

/-- The memory `m` with the stack `p` in place. -/
def Private.over (p : Private) (m : Memory) : Memory :=
  fun x => if p.near ≤ x ∧ x < p.far then p.bytes x else m x

inductive Life where
  | new
  | running
  | suspended (p : Private)
  | exited
  | defunct

structure Ideal where
  life : TealetId → Option Life
  next : TealetId
  current : TealetId
  /-- the boundary of the coroutine that runs -/
  far : Nat
  mem : Memory

inductive Act where
  | write
  | create
  | copy (t : TealetId)
  | drop (t : TealetId)
  | bound (far : Nat)
  | start (t : TealetId) (far : Nat)
  | capture (t : TealetId) (far : Nat)
  | transfer (t : TealetId) (flags : XFlags) (isExit : Bool)

def Label.act : Label → Act
  | .xfer t flags isExit _ => .transfer t flags isExit
  | .start t far _ => .start t far
  | .capture t far _ => .capture t far
  | .setFar far => .bound far
  | .delete t => .drop t
  | .duplicate t => .copy t
  | .write => .write

namespace Ideal

def initial (mem : Memory) : Ideal where
  life := fun t => if t = mainId then some .running else none
  next := 1
  current := mainId
  far := spFurthest
  mem := mem

/-- A transfer with these flags loses what it cannot save. -/
def MayLose (i : Ideal) (flags : XFlags) : Prop := flags.force = true ∧ i.current ≠ mainId

/-- Some of the suspended coroutines were lost on the way from `i` to `life`, but not main. -/
def Loses (i : Ideal) (flags : XFlags) (life : TealetId → Option Life) : Prop :=
  ∀ t, life t = i.life t ∨
    i.MayLose flags ∧ t ≠ mainId ∧ (∃ p, i.life t = some (.suspended p)) ∧ life t = some .defunct

/-- What becomes of the coroutine that leaves. -/
inductive Leaves (i : Ideal) (flags : XFlags) : Bool → Option Life → Prop where
  | suspend {near : Nat} (h : near < i.far) :
      Leaves i flags false (some (.suspended ⟨near, i.far, i.mem⟩))
  | lose (h : i.MayLose flags) : Leaves i flags false (some .defunct)
  | exit (h : i.current ≠ mainId) :
      Leaves i flags true (if flags.delete then none else some .exited)

inductive Step : Act → Ideal → Ideal → Prop where
  | write {i : Ideal} {m : Memory} (hm : ∀ x, i.far ≤ x → m x = i.mem x) :
      Step .write i { i with mem := m }
  | create {i : Ideal} :
      Step .create i { i with
        life := Function.update i.life i.next (some .new)
        next := i.next + 1 }
  | copy {i : Ideal} {t : TealetId} {l : Life} (hl : i.life t = some l) (ht : t ≠ i.current) :
      Step (.copy t) i { i with
        life := Function.update i.life i.next (some l)
        next := i.next + 1 }
  | drop {i : Ideal} {t : TealetId} {l : Life} (hl : i.life t = some l) (ht : t ≠ i.current)
      (hm : t ≠ mainId) :
      Step (.drop t) i { i with life := Function.update i.life t none }
  | bound {i : Ideal} {far : Nat} (h : i.current = mainId) :
      Step (.bound far) i { i with far := far }
  | start {i : Ideal} {t : TealetId} {far near : Nat} (hl : i.life t = some .new)
      (h : near < i.far) :
      Step (.start t far) i { i with
        life := Function.update
          (Function.update i.life i.current (some (.suspended ⟨near, i.far, i.mem⟩))) t
            (some .running)
        current := t
        far := far }
  | capture {i : Ideal} {t : TealetId} {far near : Nat} (hl : i.life t = some .new)
      (h : near < far) :
      Step (.capture t far) i { i with
        life := Function.update i.life t (some (.suspended ⟨near, far, i.mem⟩)) }
  | fail {i : Ideal} {t : TealetId} {flags : XFlags} {isExit : Bool} {life : TealetId → Option Life}
      (h : i.Loses flags life) : Step (.transfer t flags isExit) i { i with life := life }
  | transfer {i : Ideal} {t : TealetId} {flags : XFlags} {isExit : Bool}
      {life : TealetId → Option Life} {left : Option Life} {p : Private} (h : i.Loses flags life)
      (hp : life t = some (.suspended p)) (ht : t ≠ i.current)
      (hleft : i.Leaves flags isExit left) :
      Step (.transfer t flags isExit) i { i with
        life := Function.update (Function.update life i.current left) t (some .running)
        current := t
        far := p.far
        mem := p.over i.mem }

/-- One coroutine runs, and main is running or suspended. -/
structure Ok (i : Ideal) : Prop where
  running : ∀ t, i.life t = some .running ↔ t = i.current
  main : i.life mainId = some .running ∨ ∃ p, i.life mainId = some (.suspended p)
  fresh : ∀ t, i.next ≤ t → i.life t = none

section Ok

variable {i i' : Ideal} {t : TealetId} {l : Option Life} {life : TealetId → Option Life}

theorem ok_initial (mem : Memory) : (initial mem).Ok := by
  refine ⟨fun t => ?_, .inl rfl, fun t ht => if_neg ?_⟩
  · show (if t = mainId then some Life.running else none) = some .running ↔ t = mainId
    by_cases ht : t = mainId <;> simp [ht]
  · rintro rfl
    exact Nat.not_succ_le_zero 0 ht

theorem Ok.lt_next (h : i.Ok) (ht : i.life t ≠ none) : t < i.next :=
  Nat.lt_of_not_le fun hle => ht (h.fresh t hle)

/-- Another coroutine than the one that runs changes. -/
theorem Ok.update (h : i.Ok) (ht : t ≠ i.current) (hl : l ≠ some .running)
    (hm : t = mainId → ∃ p, l = some (.suspended p)) :
    (∀ u, Function.update i.life t l u = some .running ↔ u = i.current) ∧
      (Function.update i.life t l mainId = some .running ∨
        ∃ p, Function.update i.life t l mainId = some (.suspended p)) := by
  constructor
  · intro u
    by_cases hu : u = t
    · subst hu
      rw [Function.update_self]
      exact iff_of_false hl ht
    · rw [Function.update_of_ne hu]
      exact h.running u
  · by_cases hmt : mainId = t
    · rw [hmt, Function.update_self]
      exact .inr (hm hmt.symm)
    · rw [Function.update_of_ne hmt]
      exact h.main

theorem Ok.loses (h : i.Ok) {flags : XFlags} (hl : i.Loses flags life) :
    Ok { i with life := life } := by
  refine ⟨fun t => ?_, ?_, fun t ht => ?_⟩
  · rcases hl t with heq | ⟨-, -, ⟨p, hp⟩, hd⟩
    · show life t = _ ↔ _
      rw [heq]
      exact h.running t
    · show life t = _ ↔ t = i.current
      rw [hd, ← h.running t, hp]
      exact iff_of_false nofun nofun
  · show life mainId = _ ∨ ∃ p, life mainId = _
    rcases hl mainId with heq | ⟨-, hm, -⟩
    · rw [heq]
      exact h.main
    · exact absurd rfl hm
  · rcases hl t with heq | ⟨-, -, ⟨p, hp⟩, -⟩
    · exact heq.trans (h.fresh t ht)
    · rw [h.fresh t ht] at hp
      cases hp

/-- Control goes from the one that runs to another. -/
theorem Ok.passes (h : i.Ok) (ht : t ≠ i.current) (hlt : i.life t ≠ none) {left : Option Life}
    (hl : left ≠ some .running) (hm : i.current = mainId → ∃ p, left = some (.suspended p))
    (far : Nat) (m : Memory) :
    Ok { i with
      life := Function.update (Function.update i.life i.current left) t (some .running)
      current := t
      far := far
      mem := m } := by
  refine ⟨fun u => ?_, ?_, fun u hu => ?_⟩
  · show Function.update (Function.update i.life i.current left) t _ u = _ ↔ u = t
    by_cases hut : u = t
    · subst hut
      rw [Function.update_self]
      exact iff_of_true rfl rfl
    · rw [Function.update_of_ne hut]
      refine iff_of_false ?_ hut
      by_cases huc : u = i.current
      · subst huc
        rw [Function.update_self]
        exact hl
      · rw [Function.update_of_ne huc]
        exact fun hr => huc ((h.running u).mp hr)
  · show Function.update _ t _ mainId = _ ∨ ∃ p, Function.update _ t _ mainId = _
    by_cases hmt : mainId = t
    · rw [hmt, Function.update_self]
      exact .inl rfl
    · rw [Function.update_of_ne hmt]
      by_cases hmc : mainId = i.current
      · rw [hmc, Function.update_self]
        exact .inr (hm hmc.symm)
      · rw [Function.update_of_ne hmc]
        exact h.main
  · have hut : u ≠ t := by
      rintro rfl
      exact Nat.not_lt_of_le hu (h.lt_next hlt)
    have huc : u ≠ i.current := by
      rintro rfl
      have hr := (h.running i.current).mpr rfl
      exact Nat.not_lt_of_le hu (h.lt_next (by rw [hr]; nofun))
    show Function.update (Function.update i.life i.current left) t (some .running) u = none
    rw [Function.update_of_ne hut, Function.update_of_ne huc]
    exact h.fresh u hu

theorem Step.ok {act : Act} (hs : Step act i i') (h : i.Ok) : i'.Ok := by
  have hnew : i.next ≠ i.current := fun hn => by
    have hr := (h.running i.current).mpr rfl
    rw [← hn, h.fresh _ (Nat.le_refl _)] at hr
    cases hr
  have hmain : i.next ≠ mainId := fun hn => by
    have hf := h.fresh _ (Nat.le_refl _)
    rcases h.main with hm | ⟨p, hm⟩ <;> cases (hn ▸ hf).symm.trans hm
  have hpush : ∀ {l : Option Life}, l ≠ some .running → Ok { i with
      life := Function.update i.life i.next l, next := i.next + 1 } := by
    intro l hl
    obtain ⟨h₁, h₂⟩ := h.update hnew hl fun hm => absurd hm hmain
    refine ⟨h₁, h₂, fun u hu => ?_⟩
    show Function.update i.life i.next l u = none
    rw [Function.update_of_ne (Nat.ne_of_gt hu)]
    exact h.fresh u (Nat.le_of_succ_le hu)
  have hset : ∀ {t : TealetId} {l : Option Life}, t ≠ i.current → i.life t ≠ none →
      l ≠ some .running → (t = mainId → ∃ p, l = some (.suspended p)) →
      Ok { i with life := Function.update i.life t l } := by
    intro t l ht hlt hl hm
    obtain ⟨h₁, h₂⟩ := h.update ht hl hm
    refine ⟨h₁, h₂, fun u hu => ?_⟩
    have hut : u ≠ t := by
      rintro rfl
      exact Nat.not_lt_of_le hu (h.lt_next hlt)
    show Function.update i.life t l u = none
    rw [Function.update_of_ne hut]
    exact h.fresh u hu
  have hne : ∀ {t : TealetId} {l : Life}, i.life t = some l → l ≠ .running → t ≠ i.current := by
    rintro t l hl hr rfl
    rw [(h.running _).mpr rfl] at hl
    exact hr (Option.some.inj hl).symm
  cases hs with
  | write => exact ⟨h.running, h.main, h.fresh⟩
  | create => exact hpush nofun
  | @copy _ t l hl ht => exact hpush fun hr => ht ((h.running t).mp (hl.trans hr))
  | drop hl ht hm => exact hset ht (by rw [hl]; nofun) nofun fun h => absurd h hm
  | bound => exact ⟨h.running, h.main, h.fresh⟩
  | start hl =>
      exact h.passes (hne hl nofun) (by rw [hl]; nofun) (by nofun) (fun _ => ⟨_, rfl⟩) _ _
  | capture hl => exact hset (hne hl nofun) (by rw [hl]; nofun) (by nofun) fun _ => ⟨_, rfl⟩
  | fail hl => exact h.loses hl
  | transfer hl hp ht hleft =>
      refine (h.loses hl).passes ht (fun hn => by cases hp.symm.trans hn) ?_ ?_ _ _
      · cases hleft with
        | suspend => nofun
        | lose => nofun
        | exit =>
            split
            · nofun
            · nofun
      · intro hm
        cases hleft with
        | suspend => exact ⟨_, rfl⟩
        | lose hlose => exact absurd hm hlose.2
        | exit hx => exact absurd hm hx

end Ok

end Ideal

/-! ## What the view stands for -/

/-- The life of the tealet `t` in the view. -/
inductive Means (v : View) (t : TealetId) : Option Life → Prop where
  | gone (h : v.tealets t = none) : Means v t none
  | new (h : v.statusOf t = some .new) : Means v t (some .new)
  | running (h : t = v.current) : Means v t (some .running)
  | suspended {k : StackId} {im : Image} {p : Private} (ht : t ≠ v.current)
      (hs : v.statusOf t = some .active) (hk : v.stackOf t = some k) (him : v.img k = some im)
      (hn : im.near = p.near) (hf : im.far = p.far)
      (hv : ∀ x, p.near ≤ x → x < p.far → im.value v.mem x = p.bytes x) :
      Means v t (some (.suspended p))
  | exited (h : v.statusOf t = some .exited) : Means v t (some .exited)
  | defunct (h : v.statusOf t = some .defunct) : Means v t (some .defunct)

structure StandsFor (v : View) (i : Ideal) : Prop where
  life : ∀ t, Means v t (i.life t)
  next : i.next = v.nextTealet
  current : i.current = v.current
  far : i.far = v.far v.current
  mem : i.mem = v.mem

section Means

variable {leak leak' : StackId → Nat} {C : View → Label → Prop} {v v' : View} {t u : TealetId}
  {l : Option Life} {p : Private} {r c : TealetSub} {k : StackId} {im : Image}

theorem statusOf_none : v.statusOf t = none ↔ v.tealets t = none := Option.map_eq_none_iff

theorem Sched.status_current (S : Sched v) : v.statusOf v.current = some .active := by
  obtain ⟨c, hc, hact, hs⟩ := S.running
  exact statusOf_active hc hact fun k im hk => by rw [hs] at hk; cases hk

/-- The stack of an active tealet is not lost. -/
theorem sound_of_active (hs : v.statusOf t = some .active) (hk : v.stackOf t = some k)
    (him : v.img k = some im) : im.defunct = false := by
  obtain ⟨r, hr, hrk⟩ := tealets_of_stackOf hk
  rw [statusOf_eq hr] at hs
  by_contra hd
  have hany : (r.stack.bind v.img).any Image.defunct = true := by simpa [hrk, him] using hd
  rw [hany] at hs
  simp only [TealetSub.statusWith, Bool.or_true, if_true] at hs
  split at hs
  · cases hs
  · split at hs <;> cases hs

/-- A tealet that is active and does not run is suspended. -/
theorem Sched.suspended_of (S : Sched v) (H : Core leak v) (ht : t ≠ v.current)
    (hs : v.statusOf t = some .active) : ∃ k im, v.stackOf t = some k ∧ v.img k = some im := by
  obtain ⟨r, hr, hb⟩ := bound_of_statusOf hs nofun
  have hact : r.flags.Active := by
    rw [statusOf_eq hr, TealetSub.statusWith, if_neg (by simp [hb])] at hs
    split at hs
    · cases hs
    · rename_i hx
      split at hs
      · cases hs
      · rename_i hd
        exact ⟨hb, by simpa using hx, by simp_all⟩
  obtain ⟨k, hk⟩ := Option.ne_none_iff_exists'.mp (S.suspended t r hr ht hact)
  obtain ⟨im, him, -⟩ := H.owned t r k hr hk
  exact ⟨k, im, (stackOf_eq hr).trans hk, him⟩

/-- A tealet that does not run, and keeps its status and its stack. -/
theorem Means.carry (h : Means v t l) (F : Follows C v v') (H : Core leak v) (H' : Core leak' v')
    (ht : t ≠ v.current) (ht' : t ≠ v'.current) (hk' : v'.stackOf t = v.stackOf t)
    (hs' : v'.statusOf t = v.statusOf t) : Means v' t l := by
  cases h with
  | gone h => exact .gone (statusOf_none.mp (hs'.trans (statusOf_none.mpr h)))
  | new h => exact .new (hs'.trans h)
  | running h => exact absurd h ht
  | @suspended k im p _ hs hk him hn hf hv =>
      have hk₁ : v'.stackOf t = some k := hk'.trans hk
      obtain ⟨im', him'⟩ := H'.img_of_stackOf hk₁
      have hd' := sound_of_active (hs'.trans hs) hk₁ him'
      obtain ⟨im₀, him₀, -, hsame, -⟩ := F.old k im' (H.lt_nextStack him) him' hd'
      obtain rfl := Option.some.inj (him.symm.trans him₀)
      refine .suspended ht' (hs'.trans hs) hk₁ him' (hsame.near.trans hn) (hsame.far.trans hf) ?_
      intro x hx hxf
      rw [hsame.value x (hn ▸ hx) (hf ▸ hxf), hv x hx hxf]
  | exited h => exact .exited (hs'.trans h)
  | defunct h => exact .defunct (hs'.trans h)

/-- A tealet that is lost was suspended. -/
theorem Means.suspended_of_active (h : Means v t l) (ht : t ≠ v.current)
    (hs : v.statusOf t = some .active) : ∃ p, l = some (.suspended p) := by
  cases h with
  | gone h =>
      rw [statusOf_none.mpr h] at hs
      cases hs
  | new h => cases h.symm.trans hs
  | running h => exact absurd h ht
  | suspended => exact ⟨_, rfl⟩
  | exited h => cases h.symm.trans hs
  | defunct h => cases h.symm.trans hs

/-- What stands for a suspended tealet. -/
theorem Means.image (h : Means v t (some (.suspended p))) (hk : v.stackOf t = some k)
    (him : v.img k = some im) : im.near = p.near ∧ im.far = p.far ∧
      ∀ x, p.near ≤ x → x < p.far → im.value v.mem x = p.bytes x := by
  cases h with
  | suspended ht hs hk₀ him₀ hn hf hv =>
      obtain rfl := Option.some.inj (hk.symm.trans hk₀)
      obtain rfl := Option.some.inj (him.symm.trans him₀)
      exact ⟨hn, hf, hv⟩

/-- Two tealets with one record, neither of which runs. -/
theorem Means.twin (h : Means v t l) (ht : t ≠ v.current) (hu : u ≠ v.current)
    (hr : v.tealets u = v.tealets t) : Means v u l := by
  have hs : v.statusOf u = v.statusOf t := by rw [View.statusOf, hr, View.statusOf]
  cases h with
  | gone h => exact .gone (hr.trans h)
  | new h => exact .new (hs.trans h)
  | running h => exact absurd h ht
  | suspended _ hst hk him hn hf hv =>
      refine .suspended hu (hs.trans hst) ?_ him hn hf hv
      rw [View.stackOf, hr]
      exact hk
  | exited h => exact .exited (hs.trans h)
  | defunct h => exact .defunct (hs.trans h)

/-- The tealet that runs means that, and no other. -/
theorem Means.running_iff (h : Means v t l) (S : Sched v) : l = some .running ↔ t = v.current := by
  have hno : ∀ {x}, v.statusOf t = some x → x ≠ .active → t ≠ v.current := by
    rintro x hx hne rfl
    rw [S.status_current] at hx
    exact hne (Option.some.inj hx).symm
  cases h with
  | gone h =>
      refine iff_of_false nofun ?_
      rintro rfl
      have hcur := S.status_current
      rw [statusOf_none.mpr h] at hcur
      cases hcur
  | new h => exact iff_of_false nofun (hno h nofun)
  | running h => exact iff_of_true rfl h
  | suspended ht => exact iff_of_false nofun ht
  | exited h => exact iff_of_false nofun (hno h nofun)
  | defunct h => exact iff_of_false nofun (hno h nofun)

end Means

/-! ## Small moves -/

/-- What a call under `C` may do to the coroutines. -/
def Allowed (C : View → Label → Prop) (act : Act) : Prop :=
  act = .create ∨ ∃ w l, C w l ∧ l.act = act

/-- The machine in `i` goes, by what `C` allows, where the view `v'` stands for it. -/
def Simulated (C : View → Label → Prop) (i : Ideal) (v' : View) : Prop :=
  ∃ acts i', (∀ act ∈ acts, Allowed C act) ∧ Steps Ideal.Step i acts i' ∧ StandsFor v' i'

section Small

variable {leak : StackId → Nat} {C : View → Label → Prop} {v v' : View} {i : Ideal}
  {t u : TealetId} {l : Option Life} {r : TealetSub} {k : StackId} {im : Image}
  {target : Option StackId} {F : Nat} {failOk : Bool} {allocs : List Bool}

theorem Small.follows (h : Small C v v') (hC : Careful C) (H : Core (fun _ => 0) v) (S : Sched v)
    (I : Isolated v) : Follows C v v' :=
  (h.keeps H I).follows_self (h.good H S).1 (h.isolated hC H S I)

/-- A tealet keeps its stack in a small move. -/
theorem Small.same_stack (h : Small C v v') (H : Core (fun _ => 0) v) (hr : v.tealets t = some r)
    (hr' : v'.tealets t ≠ none) : v'.stackOf t = v.stackOf t := by
  have hlt := H.lt_nextTealet hr
  cases hk : v.stackOf t with
  | some k => exact (h.held.stack t k hlt hk).resolve_left hr'
  | none =>
      cases hk' : v'.stackOf t with
      | none => rfl
      | some y =>
          rcases h.stackOf hk' with h | ⟨h, -⟩
          · rw [hk] at h
            cases h
          · exact absurd hlt (Nat.not_lt_of_le h)

/-- A small move that keeps the status of a tealet keeps what it means. -/
theorem Small.means (h : Small C v v') (hC : Careful C) (H : Core (fun _ => 0) v) (S : Sched v)
    (I : Isolated v) (hM : Means v t l) (hs : v'.statusOf t = v.statusOf t) : Means v' t l := by
  by_cases ht : t = v.current
  · obtain rfl := (hM.running_iff S).mpr ht
    exact .running (ht.trans h.current.symm)
  refine hM.carry (h.follows hC H S I) H (h.good H S).1 ht (h.current ▸ ht) ?_ hs
  cases hr : v.tealets t with
  | none =>
      have hr' : v'.tealets t = none := statusOf_none.mp (hs.trans (statusOf_none.mpr hr))
      rw [View.stackOf, View.stackOf, hr, hr']
  | some r =>
      refine h.same_stack H hr fun hn => ?_
      rw [statusOf_none.mpr hn, eq_comm, statusOf_none, hr] at hs
      cases hs

/-- A tealet whose record is as it was, over images that are as sound as they were. -/
theorem status_congr (H : Core leak v) (hr : v'.tealets t = v.tealets t)
    (himg : ∀ k im, v.img k = some im → ∃ im', v'.img k = some im' ∧ im'.defunct = im.defunct) :
    v'.statusOf t = v.statusOf t := by
  cases hrt : v.tealets t with
  | none => rw [statusOf_none.mpr hrt, statusOf_none, hr, hrt]
  | some r =>
      refine statusOf_congr hrt (hr.trans hrt) rfl (any_defunct_congr (fun k im _ => himg k im) ?_)
      intro k hk
      exact (H.owned t r k hrt hk).imp fun _ h => h.1

/-- Main's stack is never lost. -/
theorem Core.main_sound (H : Core leak v) (h : ∃ r, v.tealets mainId = some r ∧ r.flags.Active) :
    v.statusOf mainId = some .active := by
  obtain ⟨r, hr, hact⟩ := h
  refine statusOf_active hr hact fun k im hk him => ?_
  exact ((H.image k im him).ofMain ((stackOf_eq hr).trans hk)).2.1

/-- A growth changes no status, but for that of suspended tealets which it loses. -/
theorem status_grow (H : Core leak v) (S : Sched v) (target : Option StackId) (F : Nat)
    (failOk : Bool) (allocs : List Bool) (t : TealetId) :
    (v.grow (v.growth target F failOk allocs)).statusOf t = v.statusOf t ∨
      v.statusOf t = some .active ∧ failOk = false ∧ t ≠ v.current ∧
        (v.grow (v.growth target F failOk allocs)).statusOf t = some .defunct := by
  cases hr : v.tealets t with
  | none => exact .inl ((statusOf_none.mpr hr).symm ▸ statusOf_none.mpr hr)
  | some r =>
      refine (statusOf_grow H hr target F failOk allocs).imp_right ?_
      rintro ⟨h₁, h₂, h₃, k, -, hk⟩
      refine ⟨h₁, h₂, ?_, h₃⟩
      rintro rfl
      rw [(S.current_of hr).2] at hk
      cases hk

theorem StandsFor.may_lose (hi : StandsFor v i) {flags : XFlags}
    (h : mayFail v.current flags = false) :
    i.MayLose flags := by
  obtain ⟨hf, hm⟩ := force_of_mayFail h
  exact ⟨hf, by rw [hi.current]; exact hm⟩

/-- What a growth loses, the machine may lose. -/
theorem StandsFor.loses (hi : StandsFor v i) (H : Core leak v) (S : Sched v) (flags : XFlags)
    {target : Option StackId} {F : Nat} {allocs : List Bool} {g : Growth}
    (hg : v.growth target F (mayFail v.current flags) allocs = g) :
    ∃ life, i.Loses flags life ∧ ∀ t,
      (v.grow g).statusOf t = v.statusOf t ∧ life t = i.life t ∨
      (v.grow g).statusOf t = some .defunct ∧ life t = some .defunct := by
  classical
  have hor := status_grow H S target F (mayFail v.current flags) allocs
  rw [hg] at hor
  refine ⟨fun t => if (v.grow g).statusOf t = v.statusOf t then i.life t else some .defunct,
    fun t => ?_, fun t => ?_⟩
  · rcases hor t with hs | ⟨hact, hf, hcur, hd⟩
    · exact .inl (if_pos hs)
    · refine .inr ⟨hi.may_lose hf, ?_, (hi.life t).suspended_of_active hcur hact, if_neg ?_⟩
      · rintro rfl
        have hHg : Core leak (v.grow g) := hg ▸ H.grow _ _ _ _
        rw [hHg.main_sound S.main] at hd
        cases hd
      · rw [hd, hact]
        nofun
  · rcases hor t with hs | ⟨hact, -, -, hd⟩
    · exact .inl ⟨hs, if_pos hs⟩
    · refine .inr ⟨hd, if_neg ?_⟩
      rw [hd, hact]
      nofun

/-- The machine makes no step. -/
theorem Simulated.stay (hi : StandsFor v' i) : Simulated C i v' :=
  ⟨[], i, nofun, .nil, hi⟩

/-- The machine makes one step. -/
theorem Simulated.act {act : Act} {i' : Ideal} (hC : Allowed C act) (hs : Ideal.Step act i i')
    (hi : StandsFor v' i') : Simulated C i v' :=
  ⟨[act], i', fun _ h => (List.mem_singleton.mp h) ▸ hC, .one hs, hi⟩

/-- A new record. -/
theorem StandsFor.pushed (hi : StandsFor v i) (hC : Careful C) (H : Core (fun _ => 0) v)
    (S : Sched v) (I : Isolated v) (h : Small C v v') {r : TealetSub}
    (htl : v'.tealets = Function.update v.tealets v.nextTealet (some r))
    (hnext : v'.nextTealet = v.nextTealet + 1) (hmem : v'.mem = v.mem)
    (himg : ∀ k im, v.img k = some im → ∃ im', v'.img k = some im' ∧ im'.defunct = im.defunct)
    {l : Life} (hl : Means v' v.nextTealet (some l)) :
    StandsFor v' { i with life := Function.update i.life i.next (some l), next := i.next + 1 } := by
  refine ⟨fun t => ?_, ?_, hi.current.trans h.current.symm, ?_, hi.mem.trans hmem.symm⟩
  · show Means v' t (Function.update i.life i.next (some l) t)
    rw [hi.next]
    by_cases ht : t = v.nextTealet
    · subst ht
      rw [Function.update_self]
      exact hl
    · rw [Function.update_of_ne ht]
      refine h.means hC H S I (hi.life t) (status_congr H ?_ himg)
      rw [htl, Function.update_of_ne ht]
  · rw [hnext, ← hi.next]
  · obtain ⟨c, hc, -⟩ := S.running
    have hne : v.current ≠ v.nextTealet := Nat.ne_of_lt (H.lt_nextTealet hc)
    rw [h.current]
    show i.far = v'.far v.current
    rw [View.far, htl, Function.update_of_ne hne]
    exact hi.far

/-- A copy of the coroutine `t`. -/
theorem StandsFor.copied (hi : StandsFor v i) (hC : Careful C) (H : Core (fun _ => 0) v)
    (S : Sched v) (I : Isolated v) (h : Small C v v') {r : TealetSub} (hd : C v (.duplicate t))
    (hr : v.tealets t = some r) (ht : t ≠ v.current)
    (htl : v'.tealets = Function.update v.tealets v.nextTealet (some r))
    (hnext : v'.nextTealet = v.nextTealet + 1) (hmem : v'.mem = v.mem)
    (himg : ∀ k im, v.img k = some im → ∃ im', v'.img k = some im' ∧ im'.defunct = im.defunct) :
    Simulated C i v' := by
  have htn : t ≠ v.nextTealet := Nat.ne_of_lt (H.lt_nextTealet hr)
  have hrt : v'.tealets t = v.tealets t := by rw [htl, Function.update_of_ne htn]
  have hM : Means v' t (i.life t) := h.means hC H S I (hi.life t) (status_congr H hrt himg)
  cases hl : i.life t with
  | none =>
      have hM := hi.life t
      rw [hl] at hM
      cases hM with
      | gone hn => cases hr.symm.trans hn
  | some l =>
      obtain ⟨c, hc, -⟩ := S.running
      have hcn : v.nextTealet ≠ v.current := (Nat.ne_of_lt (H.lt_nextTealet hc)).symm
      rw [hl] at hM
      have hM' : Means v' v.nextTealet (some l) := by
        refine hM.twin (h.current ▸ ht) (h.current ▸ hcn) ?_
        rw [hrt, htl, Function.update_self, hr]
      exact .act (.inr ⟨v, _, hd, rfl⟩) (.copy hl (hi.current ▸ ht))
        (hi.pushed hC H S I h htl hnext hmem himg hM')

/-- The coroutine `t` is gone. -/
theorem StandsFor.dropped (hi : StandsFor v i) (hC : Careful C) (H : Core (fun _ => 0) v)
    (S : Sched v) (I : Isolated v) (h : Small C v v') (hd : ∃ w, C w (.delete t))
    (hr : v.tealets t = some r) (ht : t ≠ v.current) (hm : t ≠ mainId)
    (htl : v'.tealets = Function.update v.tealets t none) (hnext : v'.nextTealet = v.nextTealet)
    (hmem : v'.mem = v.mem) (hs : ∀ u, u ≠ t → v'.statusOf u = v.statusOf u) :
    Simulated C i v' := by
  obtain ⟨w, hw⟩ := hd
  cases hl : i.life t with
  | none =>
      have hM := hi.life t
      rw [hl] at hM
      cases hM with
      | gone hn => cases hr.symm.trans hn
  | some l =>
      refine .act (.inr ⟨w, _, hw, rfl⟩) (.drop hl (hi.current ▸ ht) hm) ?_
      refine ⟨fun u => ?_, hi.next.trans hnext.symm, hi.current.trans h.current.symm, ?_,
        hi.mem.trans hmem.symm⟩
      · show Means v' u (Function.update i.life t none u)
        by_cases hu : u = t
        · subst hu
          rw [Function.update_self]
          refine .gone ?_
          rw [htl, Function.update_self]
        · rw [Function.update_of_ne hu]
          exact h.means hC H S I (hi.life u) (hs u hu)
      · rw [h.current]
        show i.far = v'.far v.current
        rw [View.far, htl, Function.update_of_ne ht.symm]
        exact hi.far

theorem status_cache (hr : v.tealets u = some r) (hk : r.stack = some k) (him : v.img k = some im)
    (hd : im.defunct = true) (t : TealetId) :
    (v.setTealet u (some { r with flags := { r.flags with defunct := true } })).statusOf t =
      v.statusOf t := by
  by_cases ht : t = u
  · subst ht
    have hany : (r.stack.bind v.img).any Image.defunct = true := by simp [hk, him, hd]
    have hself : (v.setTealet t (some { r with
        flags := { r.flags with defunct := true } })).tealets t =
        some { r with flags := { r.flags with defunct := true } } := Function.update_self ..
    rw [statusOf_eq hr, statusOf_eq hself, hany]
    simp [TealetSub.statusWith]
  · simp only [View.statusOf, View.setTealet, Function.update_of_ne ht]

theorem Small.simulated (h : Small C v v') (hC : Careful C) (H : Core (fun _ => 0) v) (S : Sched v)
    (I : Isolated v) (hi : StandsFor v i) :
    Simulated C i v' := by
  have hsame : ∀ {img : Images} k im, img k = some im → ∃ im', img k = some im' ∧
      im'.defunct = im.defunct := fun k im h => ⟨im, h, rfl⟩
  have hkeep : (∀ t, v'.statusOf t = v.statusOf t) → ∀ t, Means v' t (i.life t) :=
    fun hs t => h.means hC H S I (hi.life t) (hs t)
  have h₀ := h
  cases h with
  | @write m hw hm =>
      refine .act (.inr ⟨v, _, hw, rfl⟩) (.write (m := m) ?_)
        ⟨hkeep fun _ => rfl, hi.next, hi.current, hi.far, rfl⟩
      rw [hi.far, hi.mem]
      exact hm
  | create =>
      refine .act (.inl rfl) .create (hi.pushed hC H S I h₀ rfl rfl rfl hsame (.new ?_))
      rw [statusOf_eq (Function.update_self ..)]
      rfl
  | dup hd hr ht => exact hi.copied hC H S I h₀ hd hr ht rfl rfl rfl hsame
  | @dupShared t r k im hd hr ht hm hk him =>
      refine hi.copied hC H S I h₀ hd hr ht rfl rfl rfl fun x imx hx => ?_
      by_cases hxk : x = k
      · subst hxk
        obtain rfl := Option.some.inj (him.symm.trans hx)
        exact ⟨_, Function.update_self .., rfl⟩
      · exact ⟨imx, (Function.update_of_ne hxk _ _).trans hx, rfl⟩
  | delete hd hr ht hm =>
      refine hi.dropped hC H S I h₀ hd hr ht hm rfl rfl rfl fun u hu => ?_
      exact status_congr H (Function.update_of_ne hu _ _) hsame
  | @deleteSaved t r k im hd hr ht hm hk him =>
      obtain ⟨h₁, h₂, -, h₄, -⟩ := release_tealets v k im
      refine hi.dropped hC H S I h₀ hd hr ht hm ?_ h₂ h₄ fun u hu => ?_
      · show Function.update (v.release k im).tealets t none = _
        rw [h₁]
      · have htl : ((v.release k im).setTealet t none).tealets u = v.tealets u := by
          refine (Function.update_of_ne hu _ _).trans ?_
          rw [h₁]
        cases hru : v.tealets u with
        | none => rw [statusOf_none.mpr hru, statusOf_none, htl, hru]
        | some ru =>
            refine statusOf_congr hru (htl.trans hru) rfl (release_defunct him fun hle hrk => hu ?_)
            exact H.unique him hle ((stackOf_eq hru).trans hrk) ((stackOf_eq hr).trans hk)
  | @cache u r k im hr hk him hd =>
      refine .stay ⟨hkeep (status_cache hr hk him hd), hi.next, hi.current, ?_, hi.mem⟩
      rw [hi.far]
      show v.far v.current = View.far _ v.current
      by_cases hu : v.current = u
      · subst hu
        simp [View.far, View.setTealet, hr]
      · simp only [View.far, View.setTealet, Function.update_of_ne hu]
  | @setFar r far hf hfar hr =>
      have hs : ∀ t, (v.setTealet mainId (some { r with stackFar := far })).statusOf t =
          v.statusOf t := by
        intro t
        by_cases ht : t = mainId
        · subst ht
          have hself : (v.setTealet mainId (some { r with stackFar := far })).tealets mainId =
              some { r with stackFar := far } := rfl
          exact statusOf_congr hr hself rfl rfl
        · simp only [View.statusOf, View.setTealet, Function.update_of_ne ht]
      by_cases hcur : v.current = mainId
      · refine .act (.inr ⟨v, _, hf, rfl⟩) (.bound (hi.current.trans hcur))
          ⟨hkeep hs, hi.next, hi.current, ?_, hi.mem⟩
        show far = View.far _ v.current
        rw [hcur]
        exact (far_eq (r := { r with stackFar := far }) rfl).symm
      · refine .stay ⟨hkeep hs, hi.next, hi.current, ?_, hi.mem⟩
        rw [hi.far]
        show v.far v.current = View.far _ v.current
        simp only [View.far, View.setTealet, Function.update_of_ne hcur]
  | stallXfer hx hc hr ht hfate =>
      obtain ⟨life, hl, hor⟩ := hi.loses H S _ rfl
      refine .act (.inr ⟨v, _, hx, rfl⟩) (.fail hl) ⟨fun t => ?_, hi.next, hi.current,
        hi.far, hi.mem⟩
      show Means _ t (life t)
      rcases hor t with ⟨hs, hlt⟩ | ⟨hs, hlt⟩
      · rw [hlt]
        exact h₀.means hC H S I (hi.life t) hs
      · rw [hlt]
        exact .defunct hs
  | @stallStart t far allocs sp kf hs hfate =>
      refine .stay ⟨hkeep fun t => ?_, hi.next, hi.current, hi.far, hi.mem⟩
      refine (status_grow H S _ _ _ _ t).resolve_right ?_
      rintro ⟨-, hf, -⟩
      cases hf
  | @stallCapture t far allocs sp kf hs hfate =>
      refine .stay ⟨hkeep fun t => ?_, hi.next, hi.current, hi.far, hi.mem⟩
      refine (status_grow H S _ _ _ _ t).resolve_right ?_
      rintro ⟨-, hf, -⟩
      cases hf

end Small

/-! ## Jumps -/

section Jump

variable {leak : StackId → Nat} {C : View → Label → Prop} {v v' : View} {i : Ideal}
  {t : TealetId} {c : TealetSub} {l : Option Life} {F sp : Nat} {kf : Frame}

/-- A tealet that was saved in the jump. -/
theorem Follows.means_saved (h : Follows C v v') (ht : t ≠ v'.current) (hact : c.flags.Active)
    (hr : v'.tealets t = some { c with stack := some v.nextStack })
    (him : v'.img v.nextStack = some (Image.capture v.mem sp c.stackFar F kf)) :
    Means v' t (some (.suspended ⟨sp, c.stackFar, v.mem⟩)) := by
  obtain ⟨hd, -, hval, -⟩ := h.new v.nextStack _ (Nat.le_refl _) him
  refine .suspended ht (statusOf_active hr hact ?_) (stackOf_eq hr) him rfl rfl hval
  intro k im hk him'
  obtain rfl := Option.some.inj hk
  obtain rfl := Option.some.inj (him.symm.trans him')
  exact hd

/-- A tealet that keeps its record, and its status. -/
theorem Means.kept (h : Means v t l) (F : Follows C v v') (H : Core leak v)
    {leak' : StackId → Nat} (H' : Core leak' v') (ht : t ≠ v.current) (ht' : t ≠ v'.current)
    (hr : v'.tealets t = v.tealets t) (hs : v'.statusOf t = v.statusOf t) : Means v' t l := by
  refine h.carry F H H' ht ht' ?_ hs
  rw [View.stackOf, View.stackOf, hr]

theorem Means.new_of (h : Means v t l) (S : Sched v) (hr : v.tealets t = some {}) :
    l = some .new := by
  have hs : v.statusOf t = some .new := statusOf_eq hr
  cases h with
  | gone h => cases h.symm.trans hr
  | new => rfl
  | running h =>
      rw [h, S.status_current] at hs
      cases hs
  | suspended _ h => cases h.symm.trans hs
  | exited h => cases h.symm.trans hs
  | defunct h => cases h.symm.trans hs

/-- A capture and a start lose nothing. -/
theorem status_saved (H : Core leak v) (S : Sched v) {target : Option StackId} {G : Nat}
    {allocs : List Bool} {g : Growth} (hg : v.growth target G true allocs = g) {w : View}
    (hr : w.tealets t = v.tealets t) (himg : w.img = ((v.grow g).save t c F sp kf).img) :
    w.statusOf t = v.statusOf t := by
  have hgrow : (v.grow g).statusOf t = v.statusOf t := by
    subst hg
    refine (status_grow H S _ _ _ _ t).resolve_right ?_
    rintro ⟨-, hf, -⟩
    cases hf
  refine Eq.trans ?_ hgrow
  cases hrt : v.tealets t with
  | none => rw [statusOf_none.mpr (hr.trans hrt), eq_comm, statusOf_none]; exact hrt
  | some r =>
      refine statusOf_congr (v := v.grow g) hrt (hr.trans hrt) rfl ?_
      rw [himg]
      exact depart_defunct H hrt (w := { v.grow g with current := t }) rfl c F (.suspend sp kf)

/-- The memory when the stack of the target is back in place. -/
theorem Follows.mem_over (h : Follows C v v') (hS : Sound C) (hcur : v'.current ≠ v.current)
    {k : StackId} {im im' : Image} {p : Private} (hk : v.stackOf v'.current = some k)
    (him : v.img k = some im) (hM : Means v v'.current (some (.suspended p)))
    (hkept : im.Kept im') (he : im'.near + im'.data.length ≤ max im'.near im'.far)
    (hm : v'.mem = im'.value v.mem) : v'.mem = p.over v.mem := by
  obtain ⟨hpn, hpf, hpv⟩ := hM.image hk him
  funext x
  unfold Private.over
  split
  · rename_i hx
    rw [(h.resumed hcur k im hk him).2 hS x (hpn ▸ hx.1) (hpf ▸ hx.2)]
    exact hpv x hx.1 hx.2
  · rename_i hx
    rw [hm]
    by_cases hxn : x < p.near
    · exact writeSlice_lt ((hkept.near.trans hpn).symm ▸ hxn)
    · refine Image.value_beyond he ?_
      rw [hkept.far, hpf]
      omega

/-- What becomes of the tealet that leaves. -/
theorem StandsFor.leaves (hi : StandsFor v i) (S : Sched v) (h : Follows C v v')
    (hcur : v'.current ≠ v.current) (hc : v.tealets v.current = some c) {flags : XFlags}
    {isExit : Bool} {fate : Fate}
    (hch : Chosen { c.flags with exiting := isExit, autodelete := isExit && flags.delete }
      (mayFail v.current flags) sp kf fate)
    (hsp : isExit = false → sp < c.stackFar) (hexit : isExit = true → v.current ≠ mainId)
    (hself : v'.tealets v.current = fate.record c v.nextStack)
    (himg : fate = .suspend sp kf →
      v'.img v.nextStack = some (Image.capture v.mem sp c.stackFar F kf)) :
    ∃ left, i.Leaves flags isExit left ∧ Means v' v.current left := by
  obtain ⟨hact, hs⟩ := S.current_of hc
  have hfc : i.far = c.stackFar := hi.far.trans (far_eq hc)
  cases hch with
  | suspend he =>
      obtain rfl : isExit = false := he
      have hnear : sp < i.far := hfc ▸ hsp rfl
      refine ⟨_, .suspend hnear, ?_⟩
      rw [hfc, hi.mem]
      exact h.means_saved hcur.symm hact hself (himg rfl)
  | lose he hf =>
      obtain rfl : isExit = false := he
      refine ⟨_, .lose (hi.may_lose hf), .defunct ?_⟩
      rw [statusOf_eq hself]
      simp [TealetSub.statusWith, hact.bound, hact.exited]
  | exit he ha =>
      obtain rfl : isExit = true := he
      refine ⟨_, .exit (hi.current ▸ hexit rfl), ?_⟩
      rw [if_neg (by simpa using ha)]
      refine .exited ?_
      rw [statusOf_eq hself]
      simp [TealetSub.statusWith, hact.bound]
  | exitDelete he ha =>
      obtain rfl : isExit = true := he
      refine ⟨_, .exit (hi.current ▸ hexit rfl), ?_⟩
      rw [if_pos (by simpa using ha)]
      exact .gone hself

/-- The target of a transfer is suspended, and the growth does not lose it. -/
theorem StandsFor.target (hi : StandsFor v i) (H : Core leak v) {u : TealetId} {r : TealetSub}
    {k : StackId} {im im' : Image} {g : Growth} (hr : v.tealets u = some r) (hcur : u ≠ v.current)
    (hx : r.flags.exited = false) (hrd : r.flags.defunct = false) (hk : r.stack = some k)
    (him : v.img k = some im) (hd : im.defunct = false) (him' : g.img k = some im')
    (hd' : im'.defunct = false) :
    (∃ p, i.life u = some (.suspended p)) ∧ (v.grow g).statusOf u = some .active ∧
      v.statusOf u = some .active := by
  have hb : r.flags.bound = true := by
    by_contra hb
    rw [(H.record u r hr).unbound (by simpa using hb)] at hk
    cases hk
  have hactive : ∀ {w : View} {imw : Image}, w.tealets u = some r → w.img k = some imw →
      imw.defunct = false → w.statusOf u = some .active := by
    intro w imw hw himw hdw
    refine statusOf_active hw ⟨hb, hx, hrd⟩ fun y imy hy himy => ?_
    obtain rfl := Option.some.inj (hk.symm.trans hy)
    rwa [← Option.some.inj (himw.symm.trans himy)]
  have hs := hactive hr him hd
  exact ⟨(hi.life u).suspended_of_active hcur hs, hactive (w := v.grow g) hr him' hd', hs⟩

theorem Jump.simulated (h : Jump C True v v') (hS : Sound C) (H : Core leak v)
    (S : Sched v) (I : Isolated v) (hi : StandsFor v i) : Simulated C i v' := by
  have hF := h.follows H S I
  obtain ⟨leak', H', S', -⟩ := h.good H S
  cases h with
  | @xfer u c ru k im im' flags isExit allocs g fate sp kf hx hc hu hcur hxu hrd hk him hd hg hfate
      him' hsp hexit hkf hpanic hstrict =>
      obtain ⟨hok, hch⟩ := chosen_of_chooseFate hfate
      have hkn : k ≠ v.nextStack := Nat.ne_of_lt (H.lt_nextStack him)
      have hkt : v.stackOf u = some k := (stackOf_eq hu).trans hk
      have hd' : im'.defunct = false := by
        refine hS v leak u flags isExit allocs ru k im' H hx hu hk hcur (hg ▸ him') fun im₀ h₀ => ?_
        rwa [← Option.some.inj (him.symm.trans h₀)]
      obtain ⟨im₀, him₀, hkept, -⟩ := H.grown (hg ▸ him')
      obtain rfl := Option.some.inj (him.symm.trans him₀)
      rw [settle_of_unstarted (hstrict True.intro)] at hF H' S' ⊢
      obtain ⟨life, hl, hor⟩ := hi.loses H S flags hg
      obtain ⟨⟨p, hp⟩, hgu, hsu⟩ := hi.target H hu hcur hxu hrd hk him hd him' hd'
      have hMu : Means v u (some (.suspended p)) := hp ▸ hi.life u
      have hlu : life u = some (.suspended p) := by
        rcases hor u with ⟨-, h⟩ | ⟨h, -⟩
        · exact h.trans hp
        · rw [hgu] at h
          cases h
      have hfar : p.far = ru.stackFar :=
        (hMu.image hkt him).2.1.symm.trans (I.target_far H hu k im hk him)
      have hmem : (((v.grow g).depart c ru.stackFar fate).restore u ru k im').mem =
          p.over v.mem := by
        refine hF.mem_over hS hcur hkt him hMu hkept
          ((hg ▸ H.grow _ _ _ _ : Core leak (v.grow g)).image k im' him').extent ?_
        refine (release_tealets { (v.grow g).depart c ru.stackFar fate with
          mem := im'.value ((v.grow g).depart c ru.stackFar fate).mem } k im').2.2.2.1.trans ?_
        rw [show ((v.grow g).depart c ru.stackFar fate).mem = v.mem from depart_mem ..]
      obtain ⟨left, hleft, hM⟩ : ∃ left, i.Leaves flags isExit left ∧
          Means (((v.grow g).depart c ru.stackFar fate).restore u ru k im') v.current left := by
        refine hi.leaves (F := ru.stackFar) S hF hcur hc hch hsp hexit ?_ ?_
        · rw [restore_tealets_of_ne hcur.symm]
          cases fate <;> simp [View.depart, View.save, View.grow, View.setTealet, Fate.record]
        · rintro rfl
          show (View.release _ k im').img v.nextStack = _
          rw [release_img, Function.update_of_ne hkn.symm]
          exact Function.update_self ..
      refine .act (.inr ⟨v, _, hx, rfl⟩) (.transfer hl hlu (hi.current ▸ hcur) hleft)
        ⟨fun t => ?_, ?_, rfl, ?_, ?_⟩
      · show Means _ t (Function.update (Function.update life i.current left) u _ t)
        by_cases htu : t = u
        · subst htu
          rw [Function.update_self]
          exact .running rfl
        rw [Function.update_of_ne htu]
        by_cases htc : t = v.current
        · subst htc
          rw [hi.current, Function.update_self]
          exact hM
        rw [hi.current, Function.update_of_ne htc]
        have hr : (((v.grow g).depart c ru.stackFar fate).restore u ru k im').tealets t =
            v.tealets t := by
          rw [restore_tealets_of_ne htu, depart_tealets_of_ne (v.grow g) c _ fate htc]
          rfl
        have hst : (((v.grow g).depart c ru.stackFar fate).restore u ru k im').statusOf t =
            (v.grow g).statusOf t := by
          cases hrt : v.tealets t with
          | none =>
              rw [statusOf_none.mpr (hr.trans hrt), eq_comm, statusOf_none]
              exact hrt
          | some r => exact (H.status_transfer hrt hu hk him hg him' fate htc htu).2
        rcases hor t with ⟨h₁, h₂⟩ | ⟨h₁, h₂⟩
        · rw [h₂]
          exact (hi.life t).kept hF H H' htc htu hr (hst.trans h₁)
        · rw [h₂]
          exact .defunct (hst.trans h₁)
      · rw [restore_nextTealet, depart_nextTealet]
        exact hi.next
      · rw [show (((v.grow g).depart c ru.stackFar fate).restore u ru k im').current = u from rfl]
        exact hfar.trans (far_eq (r := { ru with stack := none }) restore_tealets_self).symm
      · rw [hmem]
        show p.over i.mem = _
        rw [hi.mem]
  | @start u c ru allocs g sp kf hst hc hnew hb hx hrd hq hk hfar hg hok hsp hsc hcap =>
      obtain ⟨hact, hs⟩ := S.current_of hc
      have hfc : i.far = c.stackFar := hi.far.trans (far_eq hc)
      have huc : v.current ≠ u := by
        rintro rfl
        cases (S.current_of hnew).1.bound
      have hnear : sp < i.far := hfc ▸ hsp
      refine .act (.inr ⟨v, _, hst, rfl⟩) (.start ((hi.life u).new_of S hnew) hnear)
        ⟨fun t => ?_, hi.next, rfl, (far_eq (Function.update_self ..)).symm, hi.mem⟩
      show Means _ t (Function.update (Function.update i.life i.current _) u _ t)
      by_cases htu : t = u
      · subst htu
        rw [Function.update_self]
        exact .running rfl
      rw [Function.update_of_ne htu]
      by_cases htc : t = v.current
      · subst htc
        rw [hi.current, Function.update_self, hfc, hi.mem]
        refine hF.means_saved htu hact ?_ (Function.update_self ..)
        exact (Function.update_of_ne htu _ _).trans (Function.update_self ..)
      · rw [hi.current, Function.update_of_ne htc]
        have hr : (((v.grow g).save v.current c ru.stackFar sp kf).arrive u ru).tealets t =
            v.tealets t :=
          (Function.update_of_ne htu _ _).trans (Function.update_of_ne htc _ _)
        exact (hi.life t).kept hF H H' htc htu hr (status_saved H S hg hr rfl)
  | @capture u c ru allocs g sp kf hst hc hnew hb hx hrd hq hfar hg hok hsp hsc hcap =>
      have huc : v.current ≠ u := by
        rintro rfl
        cases (S.current_of hnew).1.bound
      have hfc : View.far ((v.grow g).save u ru c.stackFar sp kf) v.current = v.far v.current := by
        simp only [View.far]
        rw [show ((v.grow g).save u ru c.stackFar sp kf).tealets v.current =
          v.tealets v.current from
          Function.update_of_ne huc _ _]
      refine .act (.inr ⟨v, _, hst, rfl⟩) (.capture ((hi.life u).new_of S hnew) hsp)
        ⟨fun t => ?_, hi.next, hi.current, hi.far.trans hfc.symm, hi.mem⟩
      show Means _ t (Function.update i.life u _ t)
      by_cases htu : t = u
      · subst htu
        rw [Function.update_self, hi.mem]
        exact hF.means_saved huc.symm ⟨hb, hx, hrd⟩ (Function.update_self ..)
          (Function.update_self ..)
      rw [Function.update_of_ne htu]
      by_cases htc : t = v.current
      · rw [((hi.life t).running_iff S).mpr htc]
        exact .running htc
      · have hr : ((v.grow g).save u ru c.stackFar sp kf).tealets t = v.tealets t :=
          Function.update_of_ne htu _ _
        exact (hi.life t).kept hF H H' htc htc hr (status_saved H S hg hr rfl)

end Jump

/-! ## Paths -/

section Path

variable {C : View → Label → Prop} {v v₁ v' : View} {i : Ideal}

/-- A path of the view is followed by steps of the machine. -/
theorem paths_refine :
    Forward (fun C v v' => Careful C ∧ Sound C ∧ Path C True v v') Ideal.Step
      (fun _ C act => Allowed C act)
      fun v i => Core (fun _ => 0) v ∧ Sched v ∧ Isolated v ∧ StandsFor v i := by
  rintro C v v' i ⟨H, S, I, hi⟩ ⟨hC, hS, v₁, hmoves, hor⟩
  obtain ⟨H₁, S₁, I₁, acts, i₁, hacts, hsteps, hi₁⟩ :
      Core (fun _ => 0) v₁ ∧ Sched v₁ ∧ Isolated v₁ ∧ Simulated C i v₁ := by
    clear hor
    induction hmoves with
    | refl => exact ⟨H, S, I, .stay hi⟩
    | tail _ hm ih =>
        obtain ⟨H₁, S₁, I₁, acts, i₁, hacts, hsteps, hi₁⟩ := ih
        obtain ⟨H₂, S₂⟩ := hm.good H₁ S₁
        obtain ⟨acts', i₂, hacts', hsteps', hi₂⟩ := hm.simulated hC H₁ S₁ I₁ hi₁
        refine ⟨H₂, S₂, hm.isolated hC H₁ S₁ I₁, acts ++ acts', i₂, fun act h => ?_,
          hsteps.append hsteps', hi₂⟩
        exact (List.mem_append.mp h).elim (hacts act) (hacts' act)
  rcases hor with rfl | hjump
  · exact ⟨acts, i₁, hacts, hsteps, H₁, S₁, I₁, hi₁⟩
  · obtain ⟨leak', H', S', hleak⟩ := hjump.good H₁ S₁
    obtain rfl := hleak True.intro
    obtain ⟨acts', i₂, hacts', hsteps', hi₂⟩ := hjump.simulated hS H₁ S₁ I₁ hi₁
    refine ⟨acts ++ acts', i₂, fun act h => ?_, hsteps.append hsteps', H', S',
      hjump.isolated hC H₁ S₁ I₁, hi₂⟩
    exact (List.mem_append.mp h).elim (hacts act) (hacts' act)

end Path

/-! ## The library -/

/-- The life of the tealet `t`, read off the records and the heap. -/
inductive Shows (s : State) (t : TealetId) : Option Life → Prop where
  | gone (h : s.tealets t = none) : Shows s t none
  | new (h : s.statusOf t = some .new) : Shows s t (some .new)
  | running (h : t = s.gCurrent) : Shows s t (some .running)
  /-- what is saved, over memory, is the stack -/
  | suspended {r : TealetSub} {k : StackId} {st : Stack} {bs : List Byte} {p : Private}
      (ht : t ≠ s.gCurrent) (hs : s.statusOf t = some .active) (hr : s.tealets t = some r)
      (hk : r.stack = some k) (hst : s.heap.stackAt k = some st)
      (hb : s.heap.savedBytes k = some bs)
      (hn : st.chunk.stackNear = p.near) (hf : r.stackFar = p.far)
      (hv : ∀ x, p.near ≤ x → x < p.far → writeSlice s.mem p.near bs x = p.bytes x) :
      Shows s t (some (.suspended p))
  | exited (h : s.statusOf t = some .exited) : Shows s t (some .exited)
  | defunct (h : s.statusOf t = some .defunct) : Shows s t (some .defunct)

structure Agrees (s : State) (i : Ideal) : Prop where
  life : ∀ t, Shows s t (i.life t)
  next : i.next = s.nextTealet
  current : i.current = s.gCurrent
  far : i.far = runningFar s
  mem : i.mem = s.mem

/-- What the event `e` may do to the coroutines. -/
def Event.Allows (s : State) (e : Event) (act : Act) : Prop :=
  act = .create ∨ ∃ s₁ l, e.Attempts s s₁ l ∧ l.act = act

section Library

variable {leak : StackId → Nat} {s s' : State} {a : Saved} {i : Ideal} {t : TealetId}
  {l : Option Life} {e : Event} {o : Outcome}

theorem shows_iff (I : Inv leak s a) (Is : Isolated (s.view a)) :
    Shows s t l ↔ Means (s.view a) t l := by
  obtain ⟨own, H⟩ := I.rep
  have hs : s.statusOf t = (s.view a).statusOf t := statusOf_view H t
  constructor
  · intro h
    cases h with
    | gone h => exact .gone h
    | new h => exact .new (hs.symm.trans h)
    | running h => exact .running h
    | @suspended r k st bs p ht hact hr hk hst hb hn hf hv =>
        have hkt : (s.view a).stackOf t = some k := (stackOf_eq (v := s.view a) hr).trans hk
        obtain ⟨im, him, -⟩ := I.core.owned t r k hr hk
        have hd := sound_of_active (hs.symm.trans hact) hkt him
        obtain ⟨st', hst', hrep⟩ := H.stack k im him
        obtain rfl := Option.some.inj (hst.symm.trans hst')
        rw [H.savedBytes, show a.img k = some im from him, Option.map_some,
          Image.saved_of_not_defunct hd, List.take_length] at hb
        obtain rfl := Option.some.inj hb
        have hnear : im.near = p.near := hrep.near.symm.trans hn
        refine .suspended ht (hs.symm.trans hact) hkt him hnear
          ((Is.target_far I.core hr k im hk him).trans hf) fun x hx hxf => ?_
        rw [← hv x hx hxf, ← hnear]
        rfl
    | exited h => exact .exited (hs.symm.trans h)
    | defunct h => exact .defunct (hs.symm.trans h)
  · intro h
    cases h with
    | gone h => exact .gone h
    | new h => exact .new (hs.trans h)
    | running h => exact .running h
    | @suspended k im p ht hact hkt him hn hf hv =>
        obtain ⟨r, hr, hk⟩ := tealets_of_stackOf hkt
        have hd := sound_of_active hact hkt him
        obtain ⟨st, hst, hrep⟩ := H.stack k im him
        have hb : s.heap.savedBytes k = some im.data := by
          rw [H.savedBytes, show a.img k = some im from him, Option.map_some,
            Image.saved_of_not_defunct hd, List.take_length]
        refine .suspended ht (hs.trans hact) hr hk hst hb (hrep.near.trans hn)
          ((Is.target_far I.core hr k im hk him).symm.trans hf) fun x hx hxf => ?_
        rw [← hv x hx hxf, ← hn]
        rfl
    | exited h => exact .exited (hs.trans h)
    | defunct h => exact .defunct (hs.trans h)

theorem agrees_iff (I : Inv leak s a) (Is : Isolated (s.view a)) :
    Agrees s i ↔ StandsFor (s.view a) i :=
  ⟨fun h => ⟨fun t => (shows_iff I Is).mp (h.life t), h.next, h.current, h.far, h.mem⟩,
    fun h => ⟨fun t => (shows_iff I Is).mpr (h.life t), h.next, h.current, h.far, h.mem⟩⟩

/-- A step of the library is a path of the view. -/
theorem steps_refine :
    Forward (fun e s s' => Conserving s e ∧ ∃ o, step s e = .ok (s', o))
      (fun C v v' => Careful C ∧ Sound C ∧ Path C True v v') (fun s e C => C = EventLabel s e)
      fun s v => ∃ a, Inv (fun _ => 0) s a ∧ v = s.view a := by
  rintro e s s' v ⟨a, I, rfl⟩ ⟨he, o, hs⟩
  obtain ⟨leak', a', hstep⟩ := (step_spec True (E := fun _ => True) I he.legal
    (fun _ _ => True.intro) he.panics (.inl True.intro)).result hs
  obtain rfl : leak' = fun _ => 0 := hstep.exact' True.intro
  refine ⟨[EventLabel s e], s'.view a', ?_, .one ⟨he.careful, he.sound', hstep.path⟩, a',
    hstep.inv, rfl⟩
  exact fun C h => List.mem_singleton.mp h

/-- ... and is followed by steps of the machine. -/
theorem library_forward :
    Forward (fun e s s' => Conserving s e ∧ ∃ o, step s e = .ok (s', o)) Ideal.Step Event.Allows
      fun s i => ∃ a, Inv (fun _ => 0) s a ∧ Isolated (s.view a) ∧ Agrees s i := by
  rintro e s s' i ⟨a, I, Is, hi⟩ hs
  obtain ⟨acts, i', hacts, hsteps, v', ⟨a', I', rfl⟩, -, -, Is', hi'⟩ :=
    (steps_refine.comp paths_refine) e s s' i
      ⟨s.view a, ⟨a, I, rfl⟩, I.core, I.sched, Is, (agrees_iff I Is).mp hi⟩ hs
  refine ⟨acts, i', fun act hact => ?_, hsteps, a', I', Is', (agrees_iff I' Is').mpr hi'⟩
  obtain ⟨-, C, rfl, h⟩ := hacts act hact
  exact h.imp_right fun ⟨w, l, ⟨s₁, a₁, own, H₁, hw, he⟩, hl⟩ => ⟨s₁, l, he, hl⟩

theorem agrees_initial (mem : Memory) (env : Env) :
    Agrees (initial mem env) (Ideal.initial mem) := by
  refine ⟨fun t => ?_, rfl, rfl, rfl, rfl⟩
  by_cases ht : t = mainId
  · show Shows _ t (if t = mainId then _ else _)
    rw [if_pos ht]
    exact .running ht
  · show Shows _ t (if t = mainId then _ else _)
    rw [if_neg ht]
    exact .gone (if_neg ht)

theorem Run.steps {P : State → Event → Prop} (h : Run P s s') :
    ∃ es, Steps (fun e s s' => P s e ∧ ∃ o, step s e = .ok (s', o)) s es s' := by
  induction h with
  | refl => exact ⟨[], .nil⟩
  | @tail s₁ s₂ e o _ hP hs ih =>
      obtain ⟨es, h⟩ := ih
      exact ⟨es ++ [e], h.snoc ⟨hP, o, hs⟩⟩

end Library

/-- The library refines coroutines with stacks of their own: every run whose
calls lose no stack is a run of the machine, and whatever state of the
machine a state agrees with, the machine goes along with the next step. -/
theorem library_refines {mem : Memory} {env : Env} {s : State}
    (hrun : Run Conserving (initial mem env) s) :
    (∃ acts i, Steps Ideal.Step (Ideal.initial mem) acts i ∧ i.Ok ∧ Agrees s i) ∧
      ∀ i e s' o, Agrees s i → Conserving s e → step s e = .ok (s', o) →
        ∃ acts i', (∀ act ∈ acts, e.Allows s act) ∧ Steps Ideal.Step i acts i' ∧ Agrees s' i' := by
  constructor
  · obtain ⟨es, hes⟩ := hrun.steps
    obtain ⟨acts, i, -, hsteps, -, -, -, hi⟩ := library_forward.run hes
      ⟨_, inv_initial mem env, isolated_initial mem env, agrees_initial mem env⟩
    exact ⟨acts, i, hsteps, hsteps.invariant (Ideal.ok_initial mem) fun _ _ _ h hs => hs.ok h, hi⟩
  · intro i e s' o hi he hs
    obtain ⟨past, hpast⟩ := hrun.runWith
    obtain ⟨a, I, Is, -⟩ := hpast.recalled fun _ he => he.prudent
    obtain ⟨acts, i', hacts, hsteps, -, -, -, hi'⟩ :=
      library_forward e s s' i ⟨a, I, Is, hi⟩ ⟨he, o, hs⟩
    exact ⟨acts, i', hacts, hsteps, hi'⟩

/-- Main starts a tealet, which switches back to it. -/
theorem library_refines_main : ∃ s, Run Conserving (initial (fun _ => 0) {}) s ∧
    s.gCurrent = mainId ∧ s.statusOf 1 = some .active ∧
    ∃ acts i, Steps Ideal.Step (Ideal.initial fun _ => 0) acts i ∧ i.Ok ∧ Agrees s i := by
  obtain ⟨s, hrun, hq⟩ := exists_run_of_trace (p := Event.conserving)
    (fun _ _ => Event.conserving_spec)
    [.call .new [] [], .call (.run 1 7 none null true ⟨1000, 990⟩) [] [],
      .call (.switch 0 none {} 900) [] []]
    (s := initial (fun _ => 0) {})
    (fun s => decide (s.gCurrent = mainId ∧ s.statusOf 1 = some .active)) (by decide +kernel)
  obtain ⟨hcur, hact⟩ := of_decide_eq_true hq
  exact ⟨s, hrun, hcur, hact, (library_refines hrun).1⟩

end Tealet
