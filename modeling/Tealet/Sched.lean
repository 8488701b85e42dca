import Tealet.Core

/-!
# Who runs

`Sched v` says that the current tealet is the one whose stack is live and
that every other active tealet has a stack to be resumed from. Together
with `Core` it is an invariant of the moves: a small move changes neither
who runs nor the counts, and a jump moves control from a tealet that is
saved, lost or exits to one that gives up its stack.
-/

namespace Tealet

open Relation

/-- BOUND, not EXITED, not DEFUNCT. -/
structure TFlags.Active (f : TFlags) : Prop where
  bound : f.bound = true
  exited : f.exited = false
  defunct : f.defunct = false

structure Sched (v : View) : Prop where
  live : v.live = v.current
  running : ∃ c, v.tealets v.current = some c ∧ c.flags.Active ∧ c.stack = none
  main : ∃ r, v.tealets mainId = some r ∧ r.flags.Active
  suspended : ∀ t r, v.tealets t = some r → t ≠ v.current → r.flags.Active → r.stack ≠ none
  /-- while main's stack has no boundary, no partial image lies behind it -/
  unbounded : ∀ r, v.tealets mainId = some r → r.stackFar = spFurthest →
    (v.current = mainId → v.prev = []) ∧ ∀ k x, r.stack = some k → ¬ [k, x].Sublist v.prev

section Facts

variable {leak : StackId → Nat} {v : View} {t : TealetId} {c r : TealetSub} {k : StackId}

theorem Sched.current_of (S : Sched v) (hc : v.tealets v.current = some c) :
    c.flags.Active ∧ c.stack = none := by
  obtain ⟨c', hc', hact, hs⟩ := S.running
  obtain rfl := Option.some.inj (hc'.symm.trans hc)
  exact ⟨hact, hs⟩

theorem Sched.main_of (S : Sched v) (hr : v.tealets mainId = some r) : r.flags.Active := by
  obtain ⟨r', hr', hact⟩ := S.main
  obtain rfl := Option.some.inj (hr'.symm.trans hr)
  exact hact

theorem Sched.ne_main_of_unbound (S : Sched v) (hr : v.tealets t = some r)
    (hb : r.flags.bound = false) : t ≠ mainId := by
  rintro rfl
  rw [(S.main_of hr).bound] at hb
  cases hb

theorem RecordOk.empty : RecordOk t {} :=
  ⟨rfl, fun _ => rfl, nofun, Nat.zero_le _, fun _ => by decide⟩

end Facts

/-! ## Changes that leave who runs alone -/

section Small

variable {leak : StackId → Nat} {v : View} {t : TealetId} {r r' : TealetSub} {k : StackId}
  {im : Image}

/-- What the list has to keep for `Sched.unbounded`. -/
def Sorts (v v' : View) : Prop :=
  ∀ r, v.tealets mainId = some r → r.stackFar = spFurthest →
    (v.current = mainId → v'.prev = []) ∧ ∀ k x, r.stack = some k → ¬ [k, x].Sublist v'.prev

theorem Sched.sorts (S : Sched v) {v' : View} (hp : v'.prev.Sublist v.prev) : Sorts v v' := by
  intro r hr hfar
  obtain ⟨h₁, h₂⟩ := S.unbounded r hr hfar
  refine ⟨fun hm => ?_, fun k x hk hs => h₂ k x hk (hs.trans hp)⟩
  rw [h₁ hm] at hp
  exact List.sublist_nil.mp hp

/-- A change of the list that only takes members out. -/
theorem Sched.congr (S : Sched v) {v' : View} (ht : v'.tealets = v.tealets)
    (hc : v'.current = v.current) (hl : v'.live = v.live) (hp : v'.prev.Sublist v.prev) :
    Sched v' := by
  refine ⟨by rw [hl, hc, S.live], by rw [ht, hc]; exact S.running, by rw [ht]; exact S.main,
    by rw [ht, hc]; exact S.suspended, ?_⟩
  rw [ht, hc]
  exact S.sorts hp

/-- Another tealet than the running one and main gets a record that is not
active, or has a stack. -/
theorem Sched.setOther (S : Sched v) (v' : View) {o : Option TealetSub} (hne : t ≠ v.current)
    (hm : t ≠ mainId) (ht : v'.tealets = Function.update v.tealets t o)
    (hc : v'.current = v.current) (hl : v'.live = v.live) (hp : Sorts v v')
    (ho : ∀ r', o = some r' → r'.flags.Active → r'.stack ≠ none) : Sched v' := by
  have hsame : ∀ x, x ≠ t → v'.tealets x = v.tealets x := fun x hx => by
    rw [ht, Function.update_of_ne hx]
  refine ⟨by rw [hl, hc, S.live], ?_, ?_, ?_, ?_⟩
  · rw [hc, hsame _ hne.symm]
    exact S.running
  · rw [hsame _ hm.symm]
    exact S.main
  · rw [hc]
    intro x rx hx hxc hact
    by_cases hxt : x = t
    · subst hxt
      rw [ht, Function.update_self] at hx
      exact ho rx hx hact
    · rw [hsame x hxt] at hx
      exact S.suspended x rx hx hxc hact
  · rw [hsame _ hm.symm, hc]
    exact hp

theorem Sched.setFar (S : Sched v) {far : Nat} (hr : v.tealets mainId = some r)
    (hfar : far < spFurthest) : Sched (v.setTealet mainId (some { r with stackFar := far })) := by
  have hset : (v.setTealet mainId (some { r with stackFar := far })).tealets mainId =
      some { r with stackFar := far } := by simp [View.setTealet]
  have hsame : ∀ x, x ≠ mainId →
      (v.setTealet mainId (some { r with stackFar := far })).tealets x = v.tealets x :=
    fun x hx => Function.update_of_ne hx _ _
  have hmain := S.main_of hr
  refine ⟨S.live, ?_, ⟨_, hset, hmain⟩, ?_, ?_⟩
  · show ∃ c, (v.setTealet mainId _).tealets v.current = some c ∧ _
    by_cases hm : v.current = mainId
    · have hcur := S.current_of (c := r) (by rw [hm]; exact hr)
      rw [hm, hset]
      exact ⟨_, rfl, hcur.1, hcur.2⟩
    · rw [hsame _ hm]
      exact S.running
  · intro x rx hx hxc hact
    by_cases hxm : x = mainId
    · subst hxm
      rw [hset] at hx
      obtain rfl := Option.some.inj hx
      exact S.suspended mainId r hr hxc hact
    · rw [hsame x hxm] at hx
      exact S.suspended x rx hx hxc hact
  · intro r' hr' hfar'
    rw [hset] at hr'
    obtain rfl := Option.some.inj hr'
    exact absurd hfar' (Nat.ne_of_lt hfar)

theorem Small.good {C : View → Label → Prop} {v' : View} (h : Small C v v') (H : Core leak v)
    (S : Sched v) : Core leak v' ∧ Sched v' := by
  cases h with
  | write hC hm => exact ⟨H.goto _ _ _, S.congr rfl rfl rfl (.refl _)⟩
  | create =>
      have hne : v.nextTealet ≠ v.current := by
        obtain ⟨c, hc, -⟩ := S.running
        exact (Nat.ne_of_lt (H.lt_nextTealet hc)).symm
      have hm : v.nextTealet ≠ mainId := (Nat.ne_of_lt H.mainKnown).symm
      refine ⟨H.push RecordOk.empty (fun _ _ => rfl) nofun,
        S.setOther { v with
          tealets := Function.update v.tealets v.nextTealet (some {})
          nextTealet := v.nextTealet + 1 } (t := v.nextTealet) (o := some {})
          hne hm rfl rfl rfl (S.sorts (.refl _)) ?_⟩
      rintro r' hr' hact
      obtain rfl := Option.some.inj hr'
      cases hact.bound
  | @dup t r hC ht hcur hmain hr =>
      have hne : v.nextTealet ≠ v.current := by
        obtain ⟨c, hc, -⟩ := S.running
        exact (Nat.ne_of_lt (H.lt_nextTealet hc)).symm
      have hm : v.nextTealet ≠ mainId := (Nat.ne_of_lt H.mainKnown).symm
      have hok := H.record t r ht
      refine ⟨H.push ⟨hok.quiet, hok.unbound, hok.exited, hok.far_le, fun _ => hok.far_lt hmain⟩
        (fun _ _ => rfl) (by rw [hr]; nofun),
        S.setOther { v with
          tealets := Function.update v.tealets v.nextTealet (some r)
          nextTealet := v.nextTealet + 1 } (t := v.nextTealet) (o := some r)
          hne hm rfl rfl rfl (S.sorts (.refl _)) ?_⟩
      rintro r' hr' hact
      obtain rfl := Option.some.inj hr'
      exact S.suspended t r ht hcur hact
  | @dupShared t r k im hC ht hcur hmain hr him =>
      have hne : v.nextTealet ≠ v.current := by
        obtain ⟨c, hc, -⟩ := S.running
        exact (Nat.ne_of_lt (H.lt_nextTealet hc)).symm
      have hm : v.nextTealet ≠ mainId := (Nat.ne_of_lt H.mainKnown).symm
      have hok := H.record t r ht
      have hkt : v.stackOf t = some k := (stackOf_eq ht).trans hr
      refine ⟨H.push ⟨hok.quiet, hok.unbound, hok.exited, hok.far_le, fun _ => hok.far_lt hmain⟩
        ?_ ?_, ?_⟩
      · intro x hx
        rw [hr] at hx
        exact Function.update_of_ne (by rintro rfl; exact hx rfl) _ _
      · intro k' hk'
        obtain rfl := Option.some.inj (hr.symm.trans hk')
        obtain ⟨im', him', hfar⟩ := H.owned t r k ht hr
        obtain rfl := Option.some.inj (him.symm.trans him')
        exact ⟨Nat.ne_of_lt (H.lt_nextStack him),
          fun hm => H.ne_main_of_ne hm hmain hkt, im, him, hfar hmain,
          Function.update_self ..⟩
      · refine S.setOther _ (t := v.nextTealet) (o := some r) hne hm rfl rfl rfl
          (S.sorts (.refl _)) ?_
        rintro r' hr' -
        obtain rfl := Option.some.inj hr'
        rw [hr]
        simp
  | delete hC ht hcur hmain hr =>
      exact ⟨H.free ht hmain hr, S.setOther _ hcur hmain rfl rfl rfl (S.sorts (.refl _)) nofun⟩
  | @deleteSaved t r k im hC ht hcur hmain hr him =>
      obtain ⟨h₁, -, -, -, h₅, h₆⟩ := release_tealets v k im
      refine ⟨H.release ht hr him (fun _ => hmain) nofun,
        S.setOther _ (t := t) (o := none) hcur hmain ?_ h₅ h₆ (S.sorts (release_sublist ..)) nofun⟩
      show Function.update (v.release k im).tealets t none = _
      rw [h₁]
  | @cache t r k im ht hr him hd =>
      have hkt : v.stackOf t = some k := (stackOf_eq ht).trans hr
      have hmain : t ≠ mainId := by
        rintro rfl
        have h := ((H.image k im him).ofMain hkt).2.1
        rw [hd] at h
        cases h
      have hcur : t ≠ v.current := by
        rintro rfl
        rw [(S.current_of ht).2] at hr
        cases hr
      have hok := H.record t r ht
      refine ⟨H.setRecord ht ⟨?_, ?_, hok.exited, hok.far_le, hok.far_lt⟩ rfl fun _ _ _ => rfl,
        S.setOther _ hcur hmain rfl rfl rfl (S.sorts (.refl _)) ?_⟩
      · have hq := hok.quiet
        simp only [TFlags.quiet] at hq ⊢
        rw [← hq]
      · intro hb
        have hempty := hok.unbound hb
        rw [hempty] at hr
        cases hr
      · rintro r' hr' hact
        obtain rfl := Option.some.inj hr'
        cases hact.defunct
  | @setFar r far hC hfar hr =>
      have hok := H.record mainId r hr
      refine ⟨H.setRecord hr ⟨hok.quiet, ?_, hok.exited, Nat.le_of_lt hfar, fun _ => hfar⟩ rfl
        fun _ _ h => absurd rfl h, S.setFar hr hfar⟩
      intro hb
      rw [(S.main_of hr).bound] at hb
      cases hb
  | stallXfer =>
      obtain ⟨pre, post, G⟩ := H.growSplit _ _ _ _
      exact ⟨H.grow _ _ _ _, S.congr rfl rfl rfl G.keep_sublist⟩
  | stallStart =>
      obtain ⟨pre, post, G⟩ := H.growSplit _ _ _ _
      exact ⟨H.grow _ _ _ _, S.congr rfl rfl rfl G.keep_sublist⟩
  | stallCapture =>
      obtain ⟨pre, post, G⟩ := H.growSplit _ _ _ _
      exact ⟨H.grow _ _ _ _, S.congr rfl rfl rfl G.keep_sublist⟩

end Small

/-! ## Changes of who runs -/

section Jump

variable {leak : StackId → Nat} {v : View} {t : TealetId} {c r : TealetSub} {k : StackId}
  {im : Image} {g : Growth} {F sp : Nat} {kf : Frame} {fate : Fate} {flags : TFlags}
  {failOk : Bool}

/-- The fates a transfer leaves to choose from. -/
inductive Chosen (flags : TFlags) (failOk : Bool) (sp : Nat) (kf : Frame) : Fate → Prop where
  | suspend (he : flags.exiting = false) : Chosen flags failOk sp kf (.suspend sp kf)
  | lose (he : flags.exiting = false) (hf : failOk = false) : Chosen flags failOk sp kf .lose
  | exit (he : flags.exiting = true) (ha : flags.autodelete = false) :
      Chosen flags failOk sp kf .exit
  | exitDelete (he : flags.exiting = true) (ha : flags.autodelete = true) :
      Chosen flags failOk sp kf .exitDelete

theorem chosen_of_chooseFate (h : (chooseFate g flags failOk sp kf).1 = some fate) :
    g.failed = false ∧ Chosen flags failOk sp kf fate := by
  unfold chooseFate at h
  split at h
  · cases h
  · rename_i hf
    refine ⟨by simpa using hf, ?_⟩
    split at h
    · rename_i he
      split at h
      · rename_i ha
        cases h
        exact .exitDelete he ha
      · rename_i ha
        cases h
        exact .exit he (by simpa using ha)
    · rename_i he
      have he : flags.exiting = false := by simpa using he
      split at h
      · cases h
        exact .suspend he
      · split at h
        · cases h
        · rename_i hfo
          cases h
          exact .lose he (by simpa using hfo)

/-- No tealet runs: the one that left is saved, lost or has exited. -/
structure Parked (v : View) : Prop where
  main : ∃ r, v.tealets mainId = some r ∧ r.flags.Active
  suspended : ∀ t r, v.tealets t = some r → r.flags.Active → r.stack ≠ none
  unbounded : ∀ r, v.tealets mainId = some r → r.stackFar = spFurthest →
    ∀ k x, r.stack = some k → ¬ [k, x].Sublist v.prev

/-- Growing a list keeps main's stack last. -/
theorem Core.keep_sublist (H : Core leak v) (target : Option StackId) (F : Nat) (failOk : Bool)
    (allocs : List Bool) : (v.growth target F failOk allocs).keep.Sublist v.prev := by
  obtain ⟨pre, post, G⟩ := H.growSplit target F failOk allocs
  exact G.keep_sublist

/-- Nothing stays partial under an unbounded main. -/
theorem Sched.keep_nil (H : Core leak v) (S : Sched v) (hr : v.tealets mainId = some r)
    (hfar : r.stackFar = spFurthest) {failOk : Bool} {allocs : List Bool}
    (hf : (v.growth r.stack r.stackFar failOk allocs).failed = false) :
    (v.growth r.stack r.stackFar failOk allocs).keep = [] := by
  obtain ⟨pre, post, G⟩ := H.growSplit r.stack r.stackFar failOk allocs
  rw [G.keep, hf]
  simp only [Bool.false_eq_true, if_false, List.append_eq_nil_iff]
  constructor
  · rw [List.filter_eq_nil_iff]
    intro x hx
    obtain ⟨-, im, im', him, him', hg⟩ := G.grown x hx
    have hle : im'.far ≤ spFurthest := hg.kept.far ▸ (H.image x im him).far_le
    have hno : ¬ im'.Stays spFurthest := fun h => Nat.not_lt_of_le hle h.2
    rw [hfar] at him' ⊢
    simp [staysIn, him', hno]
  · cases post with
    | nil => rfl
    | cons x xs =>
        obtain ⟨k, -, -, hk, ht, -⟩ := G.done hf (by simp)
        obtain rfl := Option.some.inj hk
        cases xs with
        | nil => rfl
        | cons y ys =>
            refine absurd ?_ ((S.unbounded r hr hfar).2 x y ht)
            rw [G.split]
            exact List.Sublist.trans (by simp) (List.sublist_append_right _ _)

theorem sublist_cons_of_ne {α : Type} {n k x : α} {l : List α} (hk : k ≠ n)
    (h : [k, x].Sublist (n :: l)) : [k, x].Sublist l := by
  cases h with
  | cons _ h => exact h
  | cons_cons => exact absurd rfl hk

/-- The running tealet leaves. -/
theorem Sched.depart (H : Core leak v) (S : Sched v) (hc : v.tealets v.current = some c)
    (hg : g.keep.Sublist v.prev) (hch : Chosen flags failOk sp kf fate)
    (hexit : flags.exiting = true → v.current ≠ mainId)
    (hlose : failOk = false → v.current ≠ mainId) :
    Parked ((v.grow g).depart c F fate) := by
  obtain ⟨hact, hs⟩ := S.current_of hc
  obtain ⟨rm, hrm, hmact⟩ := S.main
  have hne : ∀ x, x ≠ v.current → ((v.grow g).depart c F fate).tealets x = v.tealets x :=
    fun x hx => depart_tealets_of_ne (v.grow g) c F fate hx
  have hself : ((v.grow g).depart c F fate).tealets v.current = fate.record c v.nextStack := by
    cases fate <;> simp [View.depart, View.save, View.grow, View.setTealet, Fate.record]
  have hstay : v.current = mainId → ∃ sp kf, fate = .suspend sp kf := by
    intro hm
    cases hch with
    | suspend => exact ⟨_, _, rfl⟩
    | lose _ hf => exact absurd hm (hlose hf)
    | exit he => exact absurd hm (hexit he)
    | exitDelete he => exact absurd hm (hexit he)
  have hrec : ∀ r', fate.record c v.nextStack = some r' → r'.flags.Active →
      r'.stack = some v.nextStack ∧ r'.stackFar = c.stackFar := by
    intro r' hr' hact'
    cases hch <;> simp only [Fate.record, Option.some.injEq, reduceCtorEq] at hr' <;> subst hr'
    · exact ⟨rfl, rfl⟩
    · cases hact'.defunct
    · cases hact'.exited
  refine ⟨?_, ?_, ?_⟩
  · by_cases hm : mainId = v.current
    · obtain ⟨sp, kf, rfl⟩ := hstay hm.symm
      rw [hm, hself]
      exact ⟨_, rfl, hact⟩
    · rw [hne _ hm]
      exact ⟨rm, hrm, hmact⟩
  · intro x rx hx hxact
    by_cases hxc : x = v.current
    · subst hxc
      rw [hself] at hx
      rw [(hrec rx hx hxact).1]
      simp
    · rw [hne x hxc] at hx
      exact S.suspended x rx hx hxc hxact
  · intro r' hr' hfar k x hk hsub
    have hprev : ((v.grow g).depart c F fate).prev = g.keep ∨
        ((v.grow g).depart c F fate).prev = v.nextStack :: g.keep := by
      cases fate with
      | suspend =>
          simp only [View.depart, View.save, View.grow]
          split
          · exact .inl rfl
          · exact .inr rfl
      | _ => exact .inl rfl
    by_cases hm : mainId = v.current
    · obtain ⟨sp, kf, rfl⟩ := hstay hm.symm
      rw [hm, hself] at hr'
      have hc' : c.stackFar = spFurthest := by
        obtain rfl := Option.some.inj hr'
        exact hfar
      have hnil : v.prev = [] := (S.unbounded c (hm ▸ hc) hc').1 hm.symm
      rw [hnil] at hg
      rw [List.sublist_nil.mp hg] at hprev
      rcases hprev with h | h <;> rw [h] at hsub <;> simpa using hsub.length_le
    · rw [hne _ hm] at hr'
      have hk' : v.stackOf mainId = some k := (stackOf_eq hr').trans hk
      have hkn : k ≠ v.nextStack := by
        rintro rfl
        exact H.stackOf_ne_next hk'
      refine (S.unbounded r' hr' hfar).2 k x hk (List.Sublist.trans ?_ hg)
      rcases hprev with h | h <;> rw [h] at hsub
      · exact hsub
      · exact sublist_cons_of_ne hkn hsub

/-- A tealet without a stack takes over. -/
theorem Parked.arrive (P : Parked v) {v' : View}
    (ht : v'.tealets = Function.update v.tealets t (some r))
    (hc : v'.current = t) (hl : v'.live = t) (hact : r.flags.Active) (hs : r.stack = none)
    (hp : v'.prev.Sublist v.prev) (hnil : t = mainId → r.stackFar = spFurthest → v'.prev = []) :
    Sched v' := by
  have hself : v'.tealets t = some r := by rw [ht, Function.update_self]
  have hne : ∀ x, x ≠ t → v'.tealets x = v.tealets x := fun x hx => by
    rw [ht, Function.update_of_ne hx]
  refine ⟨hl.trans hc.symm, ⟨r, by rw [hc]; exact hself, hact, hs⟩, ?_, ?_, ?_⟩
  · by_cases hm : mainId = t
    · rw [hm]
      exact ⟨r, hself, hact⟩
    · rw [hne _ hm]
      exact P.main
  · intro x rx hx hxc hxact
    rw [hc] at hxc
    rw [hne x hxc] at hx
    exact P.suspended x rx hx hxact
  · intro r' hr' hfar
    by_cases hm : mainId = t
    · rw [hm, hself] at hr'
      obtain rfl := Option.some.inj hr'
      refine ⟨fun _ => hnil hm.symm hfar, fun k x hk => ?_⟩
      rw [hs] at hk
      cases hk
    · rw [hne _ hm] at hr'
      refine ⟨fun h => absurd (h.symm.trans hc) hm, fun k x hk hsub => ?_⟩
      exact P.unbounded r' hr' hfar k x hk (hsub.trans hp)

theorem TFlags.quiet_eq {f : TFlags} : f.quiet = f ↔
    f.exiting = false ∧ f.autodelete = false ∧ f.saveforce = false := by
  cases f
  simp [TFlags.quiet, eq_comm]

/-- An active record under other flags, or with another stack. -/
theorem RecordOk.active {r' : TealetSub} (h : RecordOk t r) (hb : r'.flags.bound = true)
    (hq : r'.flags.quiet = r'.flags) (hx : r'.flags.exited = true → r'.stack = none)
    (hf : r'.stackFar = r.stackFar) : RecordOk t r' := by
  refine ⟨hq, fun h' => ?_, hx, hf ▸ h.far_le, hf ▸ h.far_lt⟩
  rw [hb] at h'
  cases h'

/-- The running tealet leaves. -/
theorem Core.depart (H : Core leak v) (hc : v.tealets v.current = some c) (hact : c.flags.Active)
    (hs : c.stack = none) (hch : Chosen flags failOk sp kf fate)
    (hexit : flags.exiting = true → v.current ≠ mainId)
    (hsp : flags.exiting = false → sp < c.stackFar ∧ kf.Resumable ∧ kf.started = none ∧
      kf.isCapture = false) : Core leak (v.depart c F fate) := by
  have hok := H.record _ c hc
  obtain ⟨hq₁, hq₂, hq₃⟩ := TFlags.quiet_eq.mp hok.quiet
  cases hch with
  | suspend he =>
      obtain ⟨h₁, h₂, h₃, h₄⟩ := hsp he
      refine H.save hc hs (hok.active hact.bound hok.quiet (fun hx => ?_) rfl) h₁ h₂ ?_ fun _ => h₄
      · rw [hact.exited] at hx
        cases hx
      · intro child spawned hst
        rw [h₃] at hst
        cases hst
  | lose =>
      exact H.setRecord hc (hok.active hact.bound (TFlags.quiet_eq.mpr ⟨hq₁, hq₂, hq₃⟩)
        (fun _ => hs) rfl) rfl fun _ _ _ => rfl
  | exit =>
      exact H.setRecord hc (hok.active hact.bound (TFlags.quiet_eq.mpr ⟨hq₁, hq₂, hq₃⟩)
        (fun _ => rfl) rfl) hs.symm fun _ _ _ => rfl
  | exitDelete he => exact H.free hc (hexit he) hs

/-- A tealet is resumed from its image. -/
theorem Core.restore (H : Core leak v) (hr : v.tealets t = some r) (hact : r.flags.Active)
    (hk : r.stack = some k) (him : v.img k = some im) : Core leak (v.restore t r k im) := by
  have hok := H.record t r hr
  refine ((H.goto (im.value v.mem) v.current v.live).release (o := some { r with stack := none })
    hr hk him nofun ?_).goto _ t t
  intro r' hr'
  obtain rfl := Option.some.inj hr'
  exact ⟨hok.active hact.bound hok.quiet (fun _ => rfl) rfl, rfl⟩

theorem Parked.restore (P : Parked v) (hact : r.flags.Active)
    (hnil : t = mainId → r.stackFar = spFurthest → v.prev = []) :
    Sched (v.restore t r k im) := by
  obtain ⟨h₁, -⟩ := release_tealets { v with mem := im.value v.mem } k im
  have hsub := release_sublist { v with mem := im.value v.mem } k im
  refine P.arrive (t := t) (r := { r with stack := none }) ?_ rfl rfl hact rfl hsub ?_
  · show Function.update (View.release _ k im).tealets t _ = _
    rw [h₁]
  · intro hm hfar
    have hnil' := hnil hm hfar
    refine List.sublist_nil.mp (hsub.trans ?_)
    rw [← hnil']

/-- The cleanup of a panic has nothing to do when no child was being started. -/
theorem settle_of_unstarted {panic : Bool} (h : panic = true → kf.started = none) :
    v.settle panic kf = v := by
  cases panic with
  | false => rfl
  | true => simp [View.settle, h rfl]

/-- The child of a call that is left with a panic is reset. -/
theorem Core.settle (H : Core leak v) (S : Sched v) (panic : Bool) (kf : Frame)
    (hst : ∀ child spawned, panic = true → kf.started = some (child, spawned) →
      child ≠ mainId ∧ child < v.nextTealet ∧ child ≠ v.current) :
    ∃ leak', Core leak' (v.settle panic kf) ∧ Sched (v.settle panic kf) ∧
      ((panic = true → kf.started = none) → leak' = leak) := by
  cases panic with
  | false => exact ⟨leak, H, S, fun _ => rfl⟩
  | true =>
      rcases hk : kf.started with _ | ⟨child, spawned⟩
      · rw [settle_of_unstarted fun _ => hk]
        exact ⟨leak, H, S, fun _ => rfl⟩
      · obtain ⟨h₁, h₂, h₃⟩ := hst child spawned rfl hk
        have heq : v.settle true kf = v.setTealet child (if spawned then none else some {}) := by
          simp [View.settle, hk]
        rw [heq]
        refine ⟨_, H.forget h₁ h₂ ?_, S.setOther _ h₃ h₁ rfl rfl rfl (S.sorts (.refl _)) ?_,
          fun h => by cases h rfl⟩
        · intro r' hr'
          cases spawned <;> cases hr'
          exact ⟨RecordOk.empty, rfl⟩
        · intro r' hr' hact
          cases spawned <;> cases hr'
          cases hact.bound

theorem resumable_of_started {child : TealetId} {spawned : Bool}
    (h : kf.started = some (child, spawned)) : kf.Resumable := by
  cases kf <;> simp_all [Frame.started, Frame.Resumable]

/-- What the call that leaves has to be if the tealet is to be resumed in it. -/
structure Leaves (flags : TFlags) (failOk : Bool) (main : Prop) (c : TealetSub) (sp : Nat)
    (kf : Frame) : Prop where
  exit : flags.exiting = true → ¬ main
  lose : failOk = false → ¬ main
  call : flags.exiting = false → sp < c.stackFar ∧ kf.Resumable ∧ kf.started = none ∧
    kf.isCapture = false

/-- Grow, depart and arrive keep the invariant, and the call that is
resumed started a third tealet, if any. -/
theorem transfer_good (H : Core leak v) (S : Sched v) {allocs : List Bool} {im' : Image}
    (hc : v.tealets v.current = some c) (hr : v.tealets t = some r) (ht : t ≠ v.current)
    (hract : r.flags.Active) (hk : r.stack = some k) (him : v.img k = some im)
    (hg : v.growth r.stack r.stackFar failOk allocs = g)
    (hfate : (chooseFate g flags failOk sp kf).1 = some fate) (him' : g.img k = some im')
    (hl : Leaves flags failOk (v.current = mainId) c sp kf) :
    Core leak (((v.grow g).depart c r.stackFar fate).restore t r k im') ∧
      Sched (((v.grow g).depart c r.stackFar fate).restore t r k im') ∧
      im'.frame = im.frame ∧
      ∀ child spawned, im.frame.started = some (child, spawned) →
        child ≠ mainId ∧ child < v.nextTealet ∧ (im.frame.isCapture = false → child ≠ t) := by
  obtain ⟨hact, hs⟩ := S.current_of hc
  obtain ⟨hnf, hch⟩ := chosen_of_chooseFate hfate
  have hHg : Core leak (v.grow g) := hg ▸ H.grow _ _ _ _
  have hHd : Core leak ((v.grow g).depart c r.stackFar fate) :=
    hHg.depart hc hact hs hch hl.exit hl.call
  have hP : Parked ((v.grow g).depart c r.stackFar fate) :=
    S.depart H hc (hg ▸ H.keep_sublist _ _ _ _) hch hl.exit hl.lose
  have hr' : ((v.grow g).depart c r.stackFar fate).tealets t = some r :=
    (depart_tealets_of_ne (v.grow g) c _ _ ht).trans hr
  have hkn : k ≠ v.nextStack := Nat.ne_of_lt (H.lt_nextStack him)
  have himd : ((v.grow g).depart c r.stackFar fate).img k = some im' :=
    (depart_img_of_ne (v.grow g) c _ _ hkn).trans him'
  refine ⟨hHd.restore hr' hract hk himd, hP.restore hract fun hm hfar => ?_, ?_, ?_⟩
  · subst hm
    have hnil : g.keep = [] := by
      rw [← hg]
      refine S.keep_nil H hr hfar ?_
      rw [hg]
      exact hnf
    have hle : c.stackFar ≤ r.stackFar := by
      rw [hfar]
      exact (H.record _ c hc).far_le
    cases hch <;> simp [View.depart, View.save, View.grow, View.setTealet, hle, hnil]
  · obtain ⟨im₀, him₀, hkept, -⟩ := H.grown (hg ▸ him')
    obtain rfl := Option.some.inj (him₀.symm.trans him)
    exact hkept.frame
  · intro child spawned hst
    have hst' := (H.image k im him).started child spawned hst
    refine ⟨hst'.notMain, hst'.known, ?_⟩
    rintro hcap rfl
    exact hst'.other hcap ((stackOf_eq hr).trans hk)

theorem restore_nextTealet : (v.restore t r k im).nextTealet = v.nextTealet := by
  obtain ⟨-, hn, -⟩ := release_tealets { v with mem := im.value v.mem } k im
  exact hn

theorem depart_nextTealet : (v.depart c F fate).nextTealet = v.nextTealet := by
  cases fate <;> rfl

/-- A transfer that takes place. -/
theorem Jump.good {C : View → Label → Prop} {strict : Prop} {v' : View} (h : Jump C strict v v')
    (H : Core leak v) (S : Sched v) :
    ∃ leak', Core leak' v' ∧ Sched v' ∧ (strict → leak' = leak) := by
  cases h with
  | @xfer t c r k im im' flags isExit allocs g fate sp kf hC hc hr ht hx hrd hk him hd hg hfate him'
      hsp hexit hkf hpanic hstrict =>
      have hbound : r.flags.bound = true := by
        by_contra hb
        have hempty := (H.record t r hr).unbound (by simpa using hb)
        rw [hempty] at hk
        cases hk
      obtain ⟨H', S', -, hst⟩ := transfer_good H S hc hr ht ⟨hbound, hx, hrd⟩ hk him hg hfate him'
        ⟨hexit, fun hf hm => by simp [mayFail, hm] at hf, fun he => by
          obtain ⟨out, rfl⟩ := hkf he
          exact ⟨hsp he, True.intro, rfl, rfl⟩⟩
      obtain ⟨leak', H'', S'', hleak⟩ := H'.settle S' flags.panic im.frame <| by
        intro child spawned hp hs
        obtain ⟨h₁, h₂, h₃⟩ := hst child spawned hs
        refine ⟨h₁, ?_, h₃ (hpanic hp)⟩
        rw [restore_nextTealet, depart_nextTealet]
        exact h₂
      exact ⟨leak', H'', S'', fun hst => hleak (hstrict hst)⟩
  | @start t c r allocs g sp kf hC hc hnew hb hx hrd hq hk hfar hg hok hsp hst hcap =>
      obtain ⟨hact, hs⟩ := S.current_of hc
      obtain ⟨spawned, hst⟩ := hst
      have hHg : Core leak (v.grow g) := hg ▸ H.grow _ _ _ _
      have htm : t ≠ mainId := S.ne_main_of_unbound hnew rfl
      have htc : t ≠ v.current := by
        rintro rfl
        cases (S.current_of hnew).1.bound
      have hHd : Core leak ((v.grow g).save v.current c r.stackFar sp kf) := by
        refine hHg.save hc hs ((H.record _ c hc).active hact.bound (H.record _ c hc).quiet
          (fun hx => ?_) rfl) hsp (resumable_of_started hst) ?_ fun _ => hcap
        · rw [hact.exited] at hx
          cases hx
        · intro child sp' hst'
          obtain ⟨rfl, -⟩ := Prod.mk.inj (Option.some.inj (hst.symm.trans hst'))
          exact ⟨htm, H.lt_nextTealet hnew, fun _ => htc⟩
      have hP : Parked ((v.grow g).depart c r.stackFar (.suspend sp kf)) :=
        S.depart H hc (hg ▸ H.keep_sublist _ _ _ _)
          (show Chosen {} true sp kf (.suspend sp kf) from .suspend rfl) nofun nofun
      have hr' : ((v.grow g).save v.current c r.stackFar sp kf).tealets t = some {} :=
        (Function.update_of_ne htc _ _).trans hnew
      refine ⟨leak, ?_, hP.arrive rfl rfl rfl ⟨hb, hx, hrd⟩ hk (.refl _) ?_, fun _ => rfl⟩
      · refine (hHd.setRecord hr' ⟨hq, fun h => ?_, fun _ => hk, Nat.le_of_lt hfar, fun _ => hfar⟩
          hk nofun).goto _ t t
        rw [hb] at h
        cases h
      · exact fun hm => absurd hm htm
  | @capture t c r allocs g sp kf hC hc hnew hb hx hrd hq hfar hg hok hsp hst hcap =>
      obtain ⟨hact, hs⟩ := S.current_of hc
      obtain ⟨spawned, hst⟩ := hst
      have hHg : Core leak (v.grow g) := hg ▸ H.grow _ _ _ _
      have hkeep : g.keep.Sublist v.prev := hg ▸ H.keep_sublist _ _ _ _
      have htm : t ≠ mainId := S.ne_main_of_unbound hnew rfl
      have htc : t ≠ v.current := by
        rintro rfl
        cases (S.current_of hnew).1.bound
      refine ⟨leak, hHg.save hnew rfl ⟨hq, fun h => ?_, fun h => ?_, Nat.le_of_lt hfar,
        fun _ => hfar⟩ hsp (resumable_of_started hst) ?_ fun h => absurd h htm,
        S.setOther _ htc htm rfl rfl rfl ?_ ?_, fun _ => rfl⟩
      · rw [hb] at h
        cases h
      · rw [hx] at h
        cases h
      · intro child sp' hst'
        obtain ⟨rfl, -⟩ := Prod.mk.inj (Option.some.inj (hst.symm.trans hst'))
        refine ⟨htm, H.lt_nextTealet hnew, fun h => ?_⟩
        rw [hcap] at h
        cases h
      · intro rm hrm hmfar
        have hprev : ((v.grow g).save t r c.stackFar sp kf).prev =
            if r.stackFar ≤ c.stackFar then g.keep else v.nextStack :: g.keep := rfl
        obtain ⟨h₁, h₂⟩ := S.unbounded rm hrm hmfar
        rw [hprev]
        constructor
        · intro hm
          rw [h₁ hm] at hkeep
          obtain rfl := Option.some.inj ((hm ▸ hc).symm.trans hrm)
          rw [if_pos (by rw [hmfar]; exact Nat.le_of_lt hfar)]
          exact List.sublist_nil.mp hkeep
        · intro k x hk hsub
          have hkn : k ≠ v.nextStack := by
            rintro rfl
            exact H.stackOf_ne_next ((stackOf_eq hrm).trans hk)
          refine h₂ k x hk (List.Sublist.trans ?_ hkeep)
          split at hsub
          · exact hsub
          · exact sublist_cons_of_ne hkn hsub
      · rintro r' hr' -
        obtain rfl := Option.some.inj hr'
        simp

end Jump

end Tealet
