import Tealet.Outcomes
import Tealet.Recall

/-!
# Tealets that wait to be entered

A tealet captured with `TEALET_START_DEFAULT` and its duplicates share one
saved stack, and each waits for the transfer that enters it. `Waits v t k
fr` says that `t` is suspended in the call `fr`, saved as the stack `k`. A
move lets a tealet wait where it waits (`Waited`), unless it resumes or
frees it, and lets nothing wait that did not wait before, but for
duplicates and the stack the move saves (`Arose`).
-/

namespace Tealet

open Slice Hoare Relation

structure View.Waits (v : View) (t : TealetId) (k : StackId) (fr : Frame) : Prop where
  stack : v.stackOf t = some k
  image : ∃ im, v.img k = some im ∧ im.frame = fr

/-- No call resumed under PANIC started the tealet `t`. -/
def View.Kin (v : View) (t : TealetId) : Prop :=
  ∀ u k fr, v.Waits u k fr → fr.isCapture = false → ∀ spawned, fr.started ≠ some (t, spawned)

section Facts

variable {leak : StackId → Nat} {v v' : View} {t : TealetId} {k : StackId} {fr : Frame}

theorem View.Waits.unique {k' : StackId} {fr' : Frame} (h : v.Waits t k fr)
    (h' : v.Waits t k' fr') :
    k' = k ∧ fr' = fr := by
  obtain ⟨im, him, rfl⟩ := h.image
  obtain ⟨im', him', rfl⟩ := h'.image
  obtain rfl := Option.some.inj (h.stack.symm.trans h'.stack)
  obtain rfl := Option.some.inj (him.symm.trans him')
  exact ⟨rfl, rfl⟩

/-- Who waits does not run. -/
theorem View.Waits.ne_current (h : v.Waits t k fr) (S : Sched v) : t ≠ v.current := by
  rintro rfl
  obtain ⟨c, hc, -, hs⟩ := S.running
  have hk := h.stack
  rw [stackOf_eq hc, hs] at hk
  cases hk

/-- An owner of a stack waits in the call of its image. -/
theorem Core.waits_of (H : Core leak v) (hk : v.stackOf t = some k)
    (h : ∀ im, v.img k = some im → im.frame = fr) : v.Waits t k fr := by
  obtain ⟨im, him⟩ := H.img_of_stackOf hk
  exact ⟨hk, im, him, h im him⟩

end Facts

/-! ## What waits after a move -/

/-- What a move under `C` makes of a tealet that waits. -/
inductive Waited (C : View → Label → Prop) (t : TealetId) (k : StackId) (fr : Frame)
    (v v' : View) : Prop where
  | waits (hw : v'.Waits t k fr) (hs : v.statusOf t = some .active → v'.statusOf t = some .active ∨
      k ∈ v.prev ∧ ∃ w u f isExit allocs, C w (.xfer u f isExit allocs) ∧ f.force = true)
  | deleted {w : View} (hC : C w (.delete t))
  | resumed {w : View} {f : XFlags} {isExit : Bool} {allocs : List Bool}
      (hC : C w (.xfer t f isExit allocs))

/-- Why a tealet waits after a move under `C`. -/
inductive Arose (C : View → Label → Prop) (v v' : View) (t : TealetId) (k : StackId) (fr : Frame) :
    Prop where
  | old (hw : v.Waits t k fr)
  | copied {w : View} {u : TealetId} (ht : v.nextTealet ≤ t) (hC : C w (.duplicate u))
      (hw : v.Waits u k fr)
  | left {out : Bool} (hk : v.nextStack ≤ k) (ht : t = v.current) (hfr : fr = .switch t out)
  | created {w : View} {c : TealetId} {spawned : Bool} {far : Nat} {allocs : List Bool}
      (hk : v.nextStack ≤ k) (ht : t = v.current) (hC : C w (.start c far allocs))
      (hfr : fr.started = some (c, spawned)) (hcap : fr.isCapture = false)
      (hrun : v'.stackOf c = none)
  | captured {w : View} {far : Nat} {allocs : List Bool} (hk : v.nextStack ≤ k)
      (ht : t ≠ v.current) (hC : C w (.capture t far allocs)) (hfr : fr.isCapture = true)

section Moves

variable {leak : StackId → Nat} {C : View → Label → Prop} {strict : Prop} {v v₁ v' : View}
  {t : TealetId} {k : StackId} {fr : Frame}

/-- A small move changes no frame. -/
theorem Small.frame (h : Small C v v') (H : Core leak v) {im' : Image}
    (him' : v'.img k = some im') :
    ∃ im, v.img k = some im ∧ im'.frame = im.frame := by
  have hgrow : ∀ {target F failOk allocs}, (v.growth target F failOk allocs).img k = some im' →
      ∃ im, v.img k = some im ∧ im'.frame = im.frame := by
    intro target F failOk allocs h
    obtain ⟨im, him, hkept, -⟩ := H.grown h
    exact ⟨im, him, hkept.frame⟩
  cases h with
  | @dupShared u ru x im hC hu hcur hmain hs him =>
      by_cases hx : k = x
      · subst hx
        have h : Function.update v.img k (some { im with refcount := im.refcount + 1 }) k =
            some im' :=
          him'
        rw [Function.update_self] at h
        cases h
        exact ⟨im, him, rfl⟩
      · exact ⟨im', (Function.update_of_ne hx _ _).symm.trans him', rfl⟩
  | @deleteSaved u ru x im hC hu hcur hmain hs him =>
      obtain ⟨im₀, h₀, ⟨-, rfl⟩ | ⟨-, -, rfl, rfl⟩⟩ := img_of_release him him'
      · exact ⟨_, h₀, rfl⟩
      · exact ⟨_, h₀, rfl⟩
  | stallXfer => exact hgrow him'
  | stallStart => exact hgrow him'
  | stallCapture => exact hgrow him'
  | _ => exact ⟨im', him', rfl⟩

theorem Small.nextStack (h : Small C v v') : v'.nextStack = v.nextStack := by
  cases h with
  | deleteSaved => exact (release_tealets v _ _).2.2.1
  | _ => rfl

theorem Small.waited (h : Small C v v') (H : Core leak v) (S : Sched v) (hw : v.Waits t k fr) :
    Waited C t k fr v v' := by
  obtain ⟨r, hr, hrk⟩ := tealets_of_stackOf hw.stack
  obtain ⟨im, him, rfl⟩ := hw.image
  have hmain : t ≠ v.current := hw.ne_current S
  have hkeep : v'.tealets t ≠ none → v'.Waits t k im.frame := by
    intro hsome
    have hk := (h.held.stack t k (H.lt_nextTealet hr) hw.stack).resolve_left hsome
    refine (h.good H S).1.waits_of hk fun im' him' => ?_
    obtain ⟨im₀, him₀, hfr⟩ := h.frame H him'
    rw [hfr, Option.some.inj (him₀.symm.trans him)]
  rcases h.kept_or_stalled H hr with ⟨hs, -⟩ | ⟨-, w, hC⟩ |
    ⟨u, flags, isExit, allocs, target, F, hC, rfl⟩
  · refine .waits (hkeep fun hn => ?_) fun hact => .inl (hs.trans hact)
    rw [statusOf_eq hr, View.statusOf, hn] at hs
    cases hs
  · exact .deleted hC
  · refine .waits (hkeep fun hn => ?_) fun hact => ?_
    · cases hr.symm.trans hn
    · rcases statusOf_grow H hr target F (mayFail v.current flags) allocs with
        h | ⟨-, hf, -, k', hmem, hk'⟩
      · exact .inl (h.trans hact)
      · obtain rfl : k' = k := Option.some.inj (hk'.symm.trans hrk)
        exact .inr ⟨hmem, _, _, _, _, _, hC, (force_of_mayFail hf).1⟩

/-- A small move adds nothing to the list. -/
theorem Small.prev (h : Small C v v') (H : Core leak v) (hk : k ∈ v'.prev) : k ∈ v.prev := by
  cases h with
  | deleteSaved => exact (release_sublist _ _ _).subset hk
  | stallXfer => exact (H.keep_sublist _ _ _ _).subset hk
  | stallStart => exact (H.keep_sublist _ _ _ _).subset hk
  | stallCapture => exact (H.keep_sublist _ _ _ _).subset hk
  | _ => exact hk

/-- A small move lets duplicates wait. -/
theorem Small.arose (h : Small C v v') (H : Core leak v) (hw : v'.Waits t k fr) :
    v.Waits t k fr ∨ v.nextTealet ≤ t ∧ ∃ w u, C w (.duplicate u) ∧ v.Waits u k fr := by
  obtain ⟨im', him', rfl⟩ := hw.image
  obtain ⟨im, him, hfr⟩ := h.frame H him'
  rcases h.stackOf hw.stack with hk | ⟨ht, w, u, hC, hk⟩
  · exact .inl ⟨hk, im, him, hfr.symm⟩
  · exact .inr ⟨ht, w, u, hC, hk, im, him, hfr.symm⟩

/-- What a transfer leaves of the images, but for the one it makes. -/
theorem transfer_img (H : Core leak v) {u : TealetId} {c ru : TealetSub} {x : StackId}
    {im im' : Image} {g : Growth} {failOk : Bool} {allocs : List Bool} (him : v.img x = some im)
    (hg : v.growth ru.stack ru.stackFar failOk allocs = g) (him' : g.img x = some im') (fate : Fate)
    (hk : k ≠ v.nextStack) {imk : Image}
    (hres : (((v.grow g).depart c ru.stackFar fate).restore u ru x im').img k = some imk) :
    ∃ im₀, v.img k = some im₀ ∧ imk.frame = im₀.frame := by
  have hxn : x ≠ v.nextStack := Nat.ne_of_lt (H.lt_nextStack him)
  have himd : ((v.grow g).depart c ru.stackFar fate).img x = some im' :=
    (depart_img_of_ne (v.grow g) c _ fate hxn).trans him'
  have hgrown : ∀ {im₁}, ((v.grow g).depart c ru.stackFar fate).img k = some im₁ →
      ∃ im₀, v.img k = some im₀ ∧ im₁.frame = im₀.frame := by
    intro im₁ h₁
    rw [depart_img_of_ne (v.grow g) c _ fate hk] at h₁
    obtain ⟨im₀, h₀, hkept, -⟩ := H.grown (hg ▸ h₁)
    exact ⟨im₀, h₀, hkept.frame⟩
  obtain ⟨im₁, h₁, ⟨-, rfl⟩ | ⟨-, -, rfl, rfl⟩⟩ :=
    img_of_release (v := { (v.grow g).depart c ru.stackFar fate with
      mem := im'.value ((v.grow g).depart c ru.stackFar fate).mem }) himd hres
  · exact hgrown h₁
  · obtain ⟨im₀, h₀, hfr⟩ := hgrown h₁
    exact ⟨im₀, h₀, hfr⟩

/-- What a start leaves of the images, but for the one it makes. -/
theorem start_img (H : Core leak v) {F : Nat} {o : Option Image} {g : Growth}
    {target : Option StackId} {failOk : Bool} {allocs : List Bool}
    (hg : v.growth target F failOk allocs = g) (hk : k ≠ v.nextStack) {imk : Image}
    (h : Function.update g.img v.nextStack o k = some imk) :
    ∃ im₀, v.img k = some im₀ ∧ imk.frame = im₀.frame := by
  rw [Function.update_of_ne hk] at h
  obtain ⟨im₀, h₀, hkept, -⟩ := H.grown (hg ▸ h)
  exact ⟨im₀, h₀, hkept.frame⟩

/-- The cleanup of a panic changes the record of the child only, which has no stack then. -/
theorem settle_other {panic : Bool} {kf : Frame}
    (h : panic = true → ∀ spawned, kf.started ≠ some (t, spawned)) :
    (v.settle panic kf).tealets t = v.tealets t := by
  cases panic with
  | false => rfl
  | true =>
      rcases hst : kf.started with _ | ⟨child, spawned⟩
      · rw [settle_of_unstarted fun _ => hst]
      · have hne : t ≠ child := by
          rintro rfl
          exact h rfl spawned hst
        simp only [View.settle, hst, if_true, View.setTealet, Function.update_of_ne hne]

theorem settle_img (panic : Bool) (kf : Frame) :
    (v.settle panic kf).img = v.img ∧ (v.settle panic kf).nextStack = v.nextStack := by
  cases panic with
  | false => exact ⟨rfl, rfl⟩
  | true =>
      unfold View.settle
      rw [if_pos rfl]
      split <;> exact ⟨rfl, rfl⟩

theorem settle_prev (panic : Bool) (kf : Frame) : (v.settle panic kf).prev = v.prev := by
  cases panic with
  | false => rfl
  | true =>
      unfold View.settle
      rw [if_pos rfl]
      split <;> rfl

theorem settle_stackOf {panic : Bool} {kf : Frame} (h : (v.settle panic kf).stackOf t = some k) :
    v.stackOf t = some k := by
  cases panic with
  | false => exact h
  | true =>
      rcases hst : kf.started with _ | ⟨child, spawned⟩
      · rwa [settle_of_unstarted fun _ => hst] at h
      · have heq : v.settle true kf = v.setTealet child (if spawned then none else some {}) := by
          simp [View.settle, hst]
        rw [heq] at h
        rcases stackOf_update (v := v) rfl h with ⟨-, h⟩ | ⟨-, h⟩
        · exact h
        · cases spawned <;> cases h

/-- Whoever waits and is not the target of the jump waits on. -/
theorem Jump.waited (h : Jump C strict v v') (H : Core leak v) (S : Sched v) (hw : v.Waits t k fr)
    (hkin : v.Kin t) : Waited C t k fr v v' := by
  obtain ⟨r, hr, hrk⟩ := tealets_of_stackOf hw.stack
  obtain ⟨im, him, rfl⟩ := hw.image
  have htc : t ≠ v.current := hw.ne_current S
  have hkn : k ≠ v.nextStack := Nat.ne_of_lt (H.lt_nextStack him)
  obtain ⟨leak', H', -⟩ := h.good H S
  have hdone : v'.tealets t = some r → (∀ im', v'.img k = some im' → im'.frame = im.frame) →
      v'.Waits t k im.frame := fun htl hfr => H'.waits_of ((stackOf_eq htl).trans hrk) hfr
  cases h with
  | @xfer u c ru x imx im' flags isExit allocs g fate sp kf hC hc hu hcur hx hrd hk himx hd hg hfate
      him' hsp hexit hkf hpanic hstrict =>
      by_cases htu : t = u
      · subst htu
        exact .resumed hC
      obtain ⟨hres, hst⟩ := H.status_transfer hr (c := c) hu hk himx hg him' fate htc htu
      have hset : ((((v.grow g).depart c ru.stackFar fate).restore u ru x im').settle flags.panic
          imx.frame).tealets t = some r := by
        refine (settle_other fun hp => ?_).trans hres
        exact hkin u x _ ⟨(stackOf_eq hu).trans hk, imx, himx, rfl⟩ (hpanic hp)
      refine .waits (hdone hset fun imk himk => ?_) fun hact => ?_
      · rw [(settle_img _ _).1] at himk
        obtain ⟨im₀, him₀, hfr⟩ := transfer_img H himx hg him' fate hkn himk
        rw [hfr, Option.some.inj (him₀.symm.trans him)]
      · have hst' : ((((v.grow g).depart c ru.stackFar fate).restore u ru x im').settle flags.panic
            imx.frame).statusOf t = (v.grow g).statusOf t := by
          rw [← hst, View.statusOf, View.statusOf, hset, hres, (settle_img _ _).1]
        subst hg
        rcases statusOf_grow H hr ru.stack ru.stackFar (mayFail v.current flags) allocs with
          h | ⟨-, hf, -, k', hmem, hk'⟩
        · exact .inl (hst'.trans (h.trans hact))
        · obtain rfl : k' = k := Option.some.inj (hk'.symm.trans hrk)
          exact .inr ⟨hmem, _, _, _, _, _, hC, (force_of_mayFail hf).1⟩
  | @start u c ru allocs g sp kf hC hc hnew hb hx hrd hq hk hfar hg hok hsp hst hcap =>
      have htu : t ≠ u := by
        rintro rfl
        cases (stackOf_eq hnew).symm.trans hw.stack
      have htl : (((v.grow g).save v.current c ru.stackFar sp kf).arrive u ru).tealets t = some r :=
        (Function.update_of_ne htu _ _).trans ((Function.update_of_ne htc _ _).trans hr)
      refine .waits (hdone htl fun imk himk => ?_) fun hact => .inl ?_
      · obtain ⟨im₀, him₀, hfr⟩ := start_img H hg hkn himk
        rw [hfr, Option.some.inj (him₀.symm.trans him)]
      · refine (statusOf_congr (v := v.grow g) hr htl rfl ?_).trans ?_
        · exact depart_defunct H hr (w := v.grow g) rfl c ru.stackFar (.suspend sp kf)
        · subst hg
          rcases statusOf_grow H hr none ru.stackFar true allocs with h | ⟨-, h, -⟩
          · exact h.trans hact
          · cases h
  | @capture u c ru allocs g sp kf hC hc hnew hb hx hrd hq hfar hg hok hsp hst hcap =>
      have htu : t ≠ u := by
        rintro rfl
        cases (stackOf_eq hnew).symm.trans hw.stack
      have htl : ((v.grow g).save u ru c.stackFar sp kf).tealets t = some r :=
        (Function.update_of_ne htu _ _).trans hr
      refine .waits (hdone htl fun imk himk => ?_) fun hact => .inl ?_
      · obtain ⟨im₀, him₀, hfr⟩ := start_img H hg hkn himk
        rw [hfr, Option.some.inj (him₀.symm.trans him)]
      · refine (statusOf_congr (v := v.grow g) hr htl rfl ?_).trans ?_
        · exact depart_defunct H hr (w := { v.grow g with current := u }) rfl ru c.stackFar
            (.suspend sp kf)
        · subst hg
          rcases statusOf_grow H hr none c.stackFar true allocs with h | ⟨-, h, -⟩
          · exact h.trans hact
          · cases h

/-- A jump makes no one wait but in the stack it saves. -/
theorem Jump.arose (h : Jump C strict v v') (H : Core leak v) (S : Sched v)
    (hw : v'.Waits t k fr) : Arose C v v' t k fr := by
  obtain ⟨im', him', rfl⟩ := hw.image
  have hstack := hw.stack
  have hnone : v.stackOf t ≠ some v.nextStack := H.stackOf_ne_next
  cases h with
  | @xfer u c ru x imx imx' flags isExit allocs g fate sp kf hC hc hu hcur hx hrd hk
      himx hd hg hfate
      himx' hsp hexit hkf hpanic hstrict =>
      obtain ⟨-, hs⟩ := S.current_of hc
      obtain ⟨-, hch⟩ := chosen_of_chooseFate hfate
      rw [(settle_img _ _).1] at him'
      have hres := settle_stackOf hstack
      have htu : t ≠ u := by
        rintro rfl
        cases (stackOf_eq (r := { ru with stack := none }) restore_tealets_self).symm.trans hres
      rw [View.stackOf, restore_tealets_of_ne htu] at hres
      have hold : v.stackOf t = some k → v.Waits t k im'.frame := by
        intro hk'
        have hkn : k ≠ v.nextStack := by
          rintro rfl
          exact hnone hk'
        obtain ⟨im₀, him₀, hfr⟩ := transfer_img H himx hg himx' fate hkn him'
        exact ⟨hk', im₀, him₀, hfr.symm⟩
      by_cases htc : t = v.current
      · subst htc
        cases hch with
        | suspend he =>
            have hself : ((v.grow g).depart c ru.stackFar (.suspend sp kf)).tealets v.current =
                some { c with stack := some v.nextStack } := Function.update_self ..
            rw [hself] at hres
            obtain rfl : v.nextStack = k := Option.some.inj hres
            obtain ⟨out, rfl⟩ := hkf he
            have hxn : v.nextStack ≠ x := (Nat.ne_of_lt (H.lt_nextStack himx)).symm
            have himg : (((v.grow g).depart c ru.stackFar (.suspend sp
                (.switch v.current out))).restore u ru x imx').img v.nextStack =
                some (Image.capture v.mem sp c.stackFar ru.stackFar (.switch v.current out)) := by
              show (View.release _ x imx').img v.nextStack = _
              rw [release_img, Function.update_of_ne hxn]
              exact Function.update_self ..
            obtain rfl := Option.some.inj (himg.symm.trans him')
            exact .left (Nat.le_refl _) rfl rfl
        | lose =>
            have hself : ((v.grow g).depart c ru.stackFar .lose).tealets v.current =
                some { c with flags := { c.flags with defunct := true } } := Function.update_self ..
            rw [hself, Option.bind_some, hs] at hres
            cases hres
        | exit =>
            have hself : ((v.grow g).depart c ru.stackFar .exit).tealets v.current =
                some { c with flags := { c.flags with exited := true }, stack := none } :=
              Function.update_self ..
            rw [hself] at hres
            cases hres
        | exitDelete =>
            have hself : ((v.grow g).depart c ru.stackFar .exitDelete).tealets v.current = none :=
              Function.update_self ..
            rw [hself] at hres
            cases hres
      · rw [depart_tealets_of_ne (v.grow g) c _ fate htc] at hres
        exact .old (hold hres)
  | @start u c ru allocs g sp kf hC hc hnew hb hx hrd hq hk hfar hg hok hsp hst hcap =>
      obtain ⟨spawned, hst⟩ := hst
      rcases stackOf_update (v := (v.grow g).save v.current c ru.stackFar sp kf) rfl hstack with
        ⟨htu, hres⟩ | ⟨-, hres⟩
      · rcases stackOf_update (v := v) rfl hres with ⟨-, hk'⟩ | ⟨rfl, hk'⟩
        · have hkn : k ≠ v.nextStack := by
            rintro rfl
            exact hnone hk'
          obtain ⟨im₀, him₀, hfr⟩ := start_img H hg hkn him'
          exact .old ⟨hk', im₀, him₀, hfr.symm⟩
        · obtain rfl : v.nextStack = k := Option.some.inj hk'
          have himg :
              (((v.grow g).save v.current c ru.stackFar sp kf).arrive u ru).img v.nextStack =
              some (Image.capture v.mem sp c.stackFar ru.stackFar kf) := Function.update_self ..
          obtain rfl := Option.some.inj (himg.symm.trans him')
          refine .created (Nat.le_refl _) rfl hC hst hcap ?_
          exact (stackOf_eq (Function.update_self ..)).trans hk
      · rw [Option.bind_some, hk] at hres
        cases hres
  | @capture u c ru allocs g sp kf hC hc hnew hb hx hrd hq hfar hg hok hsp hst hcap =>
      rcases stackOf_update (v := v) rfl hstack with ⟨-, hk'⟩ | ⟨rfl, hk'⟩
      · have hkn : k ≠ v.nextStack := by
          rintro rfl
          exact hnone hk'
        obtain ⟨im₀, him₀, hfr⟩ := start_img H hg hkn him'
        exact .old ⟨hk', im₀, him₀, hfr.symm⟩
      · obtain rfl : v.nextStack = k := Option.some.inj hk'
        have himg : ((v.grow g).save t ru c.stackFar sp kf).img v.nextStack =
            some (Image.capture v.mem sp ru.stackFar c.stackFar kf) := Function.update_self ..
        obtain rfl := Option.some.inj (himg.symm.trans him')
        refine .captured (Nat.le_refl _) ?_ hC hcap
        rintro rfl
        cases (S.current_of hnew).1.bound

/-! ## Steps -/

theorem Waited.trans (h : Waited C t k fr v v₁) (hp : k ∈ v₁.prev → k ∈ v.prev)
    (h' : v₁.Waits t k fr → Waited C t k fr v₁ v') : Waited C t k fr v v' := by
  cases h with
  | deleted hC => exact .deleted hC
  | resumed hC => exact .resumed hC
  | waits hw hs =>
      cases h' hw with
      | deleted hC => exact .deleted hC
      | resumed hC => exact .resumed hC
      | waits hw' hs' =>
          refine .waits hw' fun hact => ?_
          rcases hs hact with h₁ | hforced
          · exact (hs' h₁).imp_right (And.imp_left hp)
          · exact .inr hforced

/-- The small moves of a step. -/
structure Waiting (C : View → Label → Prop) (leak : StackId → Nat) (v v' : View) : Prop where
  core : Core leak v'
  sched : Sched v'
  nextStack : v'.nextStack = v.nextStack
  nextTealet : v.nextTealet ≤ v'.nextTealet
  current : v'.current = v.current
  prev : ∀ k ∈ v'.prev, k ∈ v.prev
  waited : ∀ t k fr, v.Waits t k fr → Waited C t k fr v v'
  arose : ∀ t k fr, v'.Waits t k fr →
    v.Waits t k fr ∨ v.nextTealet ≤ t ∧ ∃ w u, C w (.duplicate u) ∧ v.Waits u k fr

theorem waiting_moves (h : ReflTransGen (Small C) v v') (H : Core leak v) (S : Sched v) :
    Waiting C leak v v' := by
  induction h with
  | refl =>
      exact ⟨H, S, rfl, Nat.le_refl _, rfl, fun _ h => h, fun _ _ _ hw => .waits hw .inl,
        fun _ _ _ hw => .inl hw⟩
  | @tail v₁ v₂ _ hm ih =>
      obtain ⟨H₂, S₂⟩ := hm.good ih.core ih.sched
      refine ⟨H₂, S₂, hm.nextStack.trans ih.nextStack, ih.nextTealet.trans hm.nextTealet,
        hm.current.trans ih.current, fun k hk => ih.prev k (hm.prev ih.core hk), ?_, ?_⟩
      · intro t k fr hw
        exact (ih.waited t k fr hw).trans (ih.prev k) fun hw₁ => hm.waited ih.core ih.sched hw₁
      · intro t k fr hw
        rcases hm.arose ih.core hw with hw₁ | ⟨ht, w, u, hC, hw₁⟩
        · exact ih.arose t k fr hw₁
        · refine .inr ⟨ih.nextTealet.trans ht, ?_⟩
          rcases ih.arose u k fr hw₁ with hw₀ | ⟨-, hdup⟩
          · exact ⟨w, u, hC, hw₀⟩
          · exact hdup

/-- Small moves start no one. -/
theorem Waiting.kin (W : Waiting C leak v v') (h : v.Kin t) : v'.Kin t := by
  intro u k fr hw
  rcases W.arose u k fr hw with hw | ⟨-, w, x, -, hw⟩
  · exact h u k fr hw
  · exact h x k fr hw

theorem Path.waited (h : Path C strict v v') (H : Core leak v) (S : Sched v)
    (hw : v.Waits t k fr) (hkin : v.Kin t) : Waited C t k fr v v' := by
  obtain ⟨v₁, hmoves, hor⟩ := h
  have W := waiting_moves hmoves H S
  rcases hor with rfl | hjump
  · exact W.waited t k fr hw
  · exact (W.waited t k fr hw).trans (W.prev k) fun hw₁ =>
      hjump.waited W.core W.sched hw₁ (W.kin hkin)

/-- A stack that is not in the list is not put there. -/
theorem Path.unlisted (h : Path C strict v v') (H : Core leak v) (S : Sched v)
    (hk : k < v.nextStack) (hp : k ∉ v.prev) : k ∉ v'.prev := by
  obtain ⟨v₁, hmoves, hor⟩ := h
  have W := waiting_moves hmoves H S
  have hp₁ : k ∉ v₁.prev := fun h => hp (W.prev k h)
  have hkn : k ≠ v₁.nextStack := Nat.ne_of_lt (W.nextStack ▸ hk)
  have hgrow : ∀ {target F failOk allocs}, k ∉ (v₁.growth target F failOk allocs).keep := fun h =>
    hp₁ ((W.core.keep_sublist _ _ _ _).subset h)
  -- the list that is left, with the stack that is saved in front or not
  have hsave : ∀ {l : List StackId} {far F : Nat}, k ∉ l →
      k ∉ if far ≤ F then l else v₁.nextStack :: l := by
    intro l far F hl
    split
    · exact hl
    · exact fun h => (List.mem_cons.mp h).elim hkn hl
  rcases hor with rfl | hjump
  · exact hp₁
  · cases hjump with
    | @xfer u c ru x im im' flags isExit allocs g fate sp kf hC hc hu hcur hx hrd hxk himx hd hg =>
        subst hg
        rw [settle_prev]
        refine fun h => ?_
        have h := (release_sublist _ x im').subset h
        cases fate with
        | suspend => exact hsave hgrow h
        | _ => exact hgrow h
    | start hC hc hnew hb hx hrd hq hxk hfar hg =>
        subst hg
        exact hsave hgrow
    | capture hC hc hnew hb hx hrd hq hfar hg =>
        subst hg
        exact hsave hgrow

theorem Path.arose (h : Path C strict v v') (H : Core leak v) (S : Sched v)
    (hw : v'.Waits t k fr) : Arose C v v' t k fr := by
  obtain ⟨v₁, hmoves, hor⟩ := h
  have W := waiting_moves hmoves H S
  have hold : ∀ u, v₁.Waits u k fr → v.Waits u k fr ∨
      ∃ w x, C w (.duplicate x) ∧ v.Waits x k fr := by
    intro u hu
    rcases W.arose u k fr hu with hu | ⟨-, w, x, hC, hx⟩
    · exact .inl hu
    · exact .inr ⟨w, x, hC, hx⟩
  have hmid : v₁.Waits t k fr → Arose C v v' t k fr := by
    intro hw₁
    rcases W.arose t k fr hw₁ with hw₀ | ⟨ht, w, x, hC, hx⟩
    · exact .old hw₀
    · exact .copied ht hC hx
  rcases hor with rfl | hjump
  · exact hmid hw
  · cases hjump.arose W.core W.sched hw with
    | old hw₁ => exact hmid hw₁
    | copied ht hC hu =>
        rcases hold _ hu with hu | ⟨w, x, hx, hwx⟩
        · exact .copied (W.nextTealet.trans ht) hC hu
        · exact .copied (W.nextTealet.trans ht) hx hwx
    | left hk ht hfr => exact .left (W.nextStack ▸ hk) (W.current ▸ ht) hfr
    | created hk ht hC hfr hcap hrun =>
        exact .created (W.nextStack ▸ hk) (W.current ▸ ht) hC hfr hcap hrun
    | captured hk ht hC hfr => exact .captured (W.nextStack ▸ hk) (W.current ▸ ht) hC hfr

theorem Path.nextStack (h : Path C strict v v') (H : Core leak v) (S : Sched v) :
    v.nextStack ≤ v'.nextStack := by
  obtain ⟨v₁, hmoves, hor⟩ := h
  rw [← (waiting_moves hmoves H S).nextStack]
  rcases hor with rfl | hjump
  · exact Nat.le_refl _
  · cases hjump with
    | @xfer u c ru x im im' flags isExit allocs g fate sp kf =>
        rw [(settle_img _ _).2]
        have hrel := (release_tealets { (v₁.grow g).depart c ru.stackFar fate with
          mem := im'.value ((v₁.grow g).depart c ru.stackFar fate).mem } x im').2.2.1
        refine Nat.le_trans ?_ (Nat.le_of_eq hrel.symm)
        cases fate with
        | suspend => exact Nat.le_succ _
        | _ => exact Nat.le_refl _
    | start => exact Nat.le_succ _
    | capture => exact Nat.le_succ _

end Moves

/-! ## Captures -/

def State.stackOf (s : State) (t : TealetId) : Option StackId := (s.tealets t).bind TealetSub.stack

/-- `View.Waits`, read off the state. -/
structure State.Waits (s : State) (t : TealetId) (k : StackId) (fr : Frame) : Prop where
  stack : s.stackOf t = some k
  frame : (s.heap.stackAt k).map Stack.frame = some fr

/-- The stack `k` is in `g_prev`: it is not saved whole. -/
def State.Listed (s : State) (k : StackId) : Prop := s.heap.links.prev k ≠ none

/-- The run function a frame or a call names. -/
def Frame.fn : Frame → Option RunFn
  | .run _ _ _ fn _ _ _ _ => some fn
  | _ => none

def Call.fn : Call → Option RunFn
  | .run _ fn _ _ _ _ | .spawn fn _ _ _ _ => some fn
  | _ => none

section Captures

variable {leak : StackId → Nat} {s s₁ s' : State} {a a' : Saved} {own : StackId → List ChunkId}
  {t : TealetId} {k : StackId} {fr : Frame} {c r : TealetSub} {spawned : Bool}
  {prev : Option TealetId} {sp : Nat} {p : State × Outcome} {cl : Call}

theorem waits_view (H : HeapRep s.heap a own) : s.Waits t k fr ↔ (s.view a).Waits t k fr := by
  have hframe : (s.heap.stackAt k).map Stack.frame = some fr ↔ ∃ im, a.img k = some im ∧
      im.frame = fr := by
    rcases him : a.img k with _ | im
    · rw [(H.gone k him).1]
      simp
    · obtain ⟨st, hst, hrep⟩ := H.stack k im him
      rw [hst, Option.map_some, hrep.frame]
      simp
  exact ⟨fun h => ⟨h.stack, hframe.mp h.frame⟩, fun h => ⟨h.stack, hframe.mpr h.image⟩⟩

theorem State.Waits.unique {k' : StackId} {fr' : Frame} (h : s.Waits t k fr)
    (h' : s.Waits t k' fr') :
    k' = k ∧ fr' = fr := by
  obtain rfl : k = k' := Option.some.inj (h.stack.symm.trans h'.stack)
  exact ⟨rfl, Option.some.inj (h'.frame.symm.trans h.frame)⟩

theorem State.Waits.frameOf (h : s.Waits t k fr) : s.frameOf t = some fr := by
  obtain ⟨r, hr, hk⟩ := Option.bind_eq_some_iff.mp h.stack
  obtain ⟨st, hst, rfl⟩ := Option.map_eq_some_iff.mp h.frame
  simp [State.frameOf, hr, hk, hst]

theorem waits_withChoices {allocs : List Bool} {mprotects : List (Option (Nat → Bool))} :
    (s.withChoices allocs mprotects).Waits t k fr ↔ s.Waits t k fr :=
  ⟨fun h => ⟨h.stack, h.frame⟩, fun h => ⟨h.stack, h.frame⟩⟩

theorem waits_of_frameOf (h : s.frameOf t = some fr) : ∃ k, s.Waits t k fr := by
  obtain ⟨r, hr, h⟩ := Option.bind_eq_some_iff.mp h
  obtain ⟨k, hk, h⟩ := Option.bind_eq_some_iff.mp h
  obtain ⟨st, hst, h⟩ := Option.bind_eq_some_iff.mp h
  refine ⟨k, ?_, ?_⟩
  · rw [State.stackOf, hr, Option.bind_some, hk]
  · rw [hst]
    exact h

theorem not_waits_of_empty (h : s.stackOf t = none) : ¬ s.Waits t k fr := by
  intro hw
  rw [hw.stack] at h
  cases h

/-- What a start with `TEALET_START_DEFAULT` leaves of the tealet it captures
in the call `kf`; under `full` its stack is saved whole. -/
inductive Captures (full : Prop) (n : StackId) (t : TealetId) (kf : Frame) (p : State × Outcome) :
    Prop where
  | failed {e : Err} (ho : p.2 = .returned (.err e) none) (hw : ∀ k fr, ¬ p.1.Waits t k fr)
  | captured (ho : p.2 = startOutcome t kf) (hw : p.1.Waits t n kf)
      (hs : p.1.statusOf t = some .active) (hl : full → ¬ p.1.Listed n)

theorem StartEnd.captures (I : Inv leak s a) (hnew : s.tealets t = some {}) (hr : Child r)
    (h : StartEnd s.lockAuto a t c r false spawned prev fr sp p) :
    Captures (r.stackFar ≤ c.stackFar) s.heap.nextStack t fr p := by
  have hfailed : ∀ {s₁ a' w e}, w.tealets = s.tealets → StartFailed s₁ a' w t e spawned p →
      Captures (r.stackFar ≤ c.stackFar) s.heap.nextStack t fr p := by
    intro s₁ a' w e htl h
    refine .failed h.outcome fun x fr' => not_waits_of_empty ?_
    have hp : p.1.tealets = _ := congrArg View.tealets h.view
    rw [State.stackOf, hp]
    cases spawned with
    | true => simp [View.setTealet]
    | false => simp [htl, hnew]
  cases h with
  | refused he hprev hflags ha h => exact hfailed rfl h
  | nomem hg hfate hprev hflags ha h => exact hfailed rfl h
  | @started a' own' g hsp hg hok hrep hT ha hprev hflags hout hview =>
      have htl : (p.1.view a').tealets t = some { r with stack := some s.heap.nextStack } := by
        rw [hview]
        exact Function.update_self ..
      have himg : (p.1.view a').img s.heap.nextStack =
          some (Image.capture s.mem sp r.stackFar c.stackFar fr) := by
        rw [hview]
        exact Function.update_self ..
      refine .captured hout ((waits_view hrep).mpr ⟨stackOf_eq htl, _, himg, rfl⟩) ?_ ?_
      · rw [statusOf_view hrep]
        refine statusOf_active htl hr.active fun k im hk him => ?_
        obtain rfl : s.heap.nextStack = k := Option.some.inj hk
        obtain rfl := Option.some.inj (himg.symm.trans him)
        rfl
      · intro hfull hlisted
        have hprev' : a'.prev = g.keep := by
          have hp : (p.1.view a').prev = _ := congrArg View.prev hview
          exact hp.trans (if_pos hfull)
        have hmem : s.heap.nextStack ∈ g.keep := hprev' ▸ hrep.list.mem_iff.mpr hlisted
        have hmem : s.heap.nextStack ∈ (s.view a).prev := by
          rw [← hg] at hmem
          exact (I.core.keep_sublist _ _ _ _).subset hmem
        obtain ⟨im, him, -⟩ := I.core.listed _ hmem
        exact Nat.lt_irrefl _ (I.core.lt_nextStack him)

/-- A `tealet_spawn` with `TEALET_START_DEFAULT` captures a tealet that did
not exist, whole if its boundary is not beyond the running tealet's. -/
theorem Inv.spawn_captures (I : Inv leak s a) {fn : RunFn} {parg : Option Ptr} {hint : Nat}
    {site : Site} (hsite : site.Inside s) (hhint : hint < spFurthest) :
    Returns (fun p => ∃ kf, kf.fn = some fn ∧ kf.isCapture = true ∧
        startOutcome s.nextTealet kf = .returned .ok none (some s.nextTealet) ∧
        Captures (pickInitialFar site.far hint ≤ runningFar s) s.heap.nextStack s.nextTealet kf p)
      (spawn s fn parg hint false site) := by
  refine I.spawn_run hsite (fun hnone => ?_) fun s₁ leak' hnew I' htl hsite₁ => ?_
  · refine ⟨.run s.nextTealet s.gCurrent s.gPrevious fn (parg.getD null) false
      parg.isSome true, rfl, rfl, rfl, .failed rfl fun k fr => not_waits_of_empty ?_⟩
    have hspec := new_spec s a
    rw [show new s = ((new s).1, none) from Prod.ext rfl hnone] at hspec
    cases hspec with
    | none hal hv =>
        have hp : (new s).1.tealets = s.tealets := congrArg View.tealets hv
        rw [State.stackOf, hp,
          show s.tealets s.nextTealet = none from I.core.fresh _ (Nat.le_refl _)]
        rfl
  · have ht : s₁.tealets s.nextTealet = some {} := by
      rw [htl]
      exact Function.update_self ..
    have hspec := new_spec s a
    rw [hnew] at hspec
    obtain ⟨hn, hcur⟩ : s₁.heap.nextStack = s.heap.nextStack ∧ s₁.gCurrent = s.gCurrent := by
      cases hspec with
      | some hal hv => exact ⟨congrArg View.nextStack hv, congrArg View.current hv⟩
    refine (I'.run_start _ (Option.isSome_iff_exists.mpr ⟨_, ht⟩) hsite₁ hhint).imp ?_
    rintro p (⟨hno, -⟩ | ⟨-, c, r, hc, hr, hfar, h⟩)
    · exact absurd ht hno
    · have hrun : runningFar s = c.stackFar := by
        obtain ⟨c₀, hc₀, -⟩ := I.sched.running
        have hc₀ : s.tealets s.gCurrent = some c₀ := hc₀
        have hne : s.gCurrent ≠ s.nextTealet := Nat.ne_of_lt (I.core.lt_nextTealet hc₀)
        rw [hcur, htl, Function.update_of_ne hne] at hc
        rw [runningFar, hc]
        rfl
      have hcap := h.captures I' ht hr
      rw [hn, hfar, ← hrun] at hcap
      exact ⟨_, rfl, rfl, rfl, hcap⟩

/-- A tealet that a call captures waits in the run function of the call. -/
theorem Inv.captured_fn (I : Inv leak s a) (hL : cl.Legal s) {far : Nat} {allocs : List Bool}
    (ha : Attempts s cl s₁ (.capture t far allocs)) :
    Returns (fun p => ∀ k fr, p.1.Waits t k fr → s.Waits t k fr ∨ fr.fn = cl.fn)
      (callStep s cl) := by
  have hdone : ∀ {full n kf p}, Captures full n t kf p → kf.fn = cl.fn →
      ∀ k fr, p.1.Waits t k fr → s.Waits t k fr ∨ fr.fn = cl.fn := by
    intro full n kf p h hfn k fr hw
    cases h with
    | failed ho hno => exact absurd hw (hno k fr)
    | captured ho hw' =>
        obtain ⟨-, rfl⟩ := hw'.unique hw
        exact .inr hfn
  cases ha with
  | runDefault =>
      refine (I.run_start false hL.1 hL.2.1 hL.2.2).imp ?_
      rintro p (⟨-, rfl⟩ | ⟨hnew, c, r, -, hr, -, h⟩)
      · exact fun k fr hw => .inl hw
      · exact hdone (h.captures I hnew hr) rfl
  | @spawnDefault _ _ fn parg hint site hnew =>
      refine (I.spawn_captures hL.1 hL.2).imp ?_
      rintro p ⟨kf, hfn, -, -, h⟩
      have hspec := new_spec s a
      rw [hnew] at hspec
      cases hspec
      exact hdone h hfn
  | forkDefault =>
      refine (I.fork_start hL.1 hL.2).imp ?_
      rintro p (⟨e, -, rfl⟩ | ⟨hnew, c, r, -, hr, h⟩)
      · exact fun k fr hw => .inl hw
      · exact hdone (h.captures I hnew hr) rfl

/-- A duplicate waits in the stack of its source, and is as fit as it is. -/
theorem Inv.duplicate_waits (I : Inv leak s a) (htc : t ≠ s.gCurrent) (htm : t ≠ mainId)
    (hw : s.Waits t k fr) :
    Returns (fun p => ∀ c, p.2 = some c → c = s.nextTealet ∧ p.1.Waits c k fr ∧
      p.1.statusOf c = s.statusOf t) (duplicate s t) := by
  obtain ⟨own, H⟩ := I.rep
  obtain ⟨r, hr, hrk⟩ := Option.bind_eq_some_iff.mp hw.stack
  obtain ⟨im, him, hfr⟩ := ((waits_view H).mp hw).image
  have him : a.img k = some im := him
  have htn : t ≠ s.nextTealet := Nat.ne_of_lt (I.core.lt_nextTealet hr)
  have h := alloc_spec (a := a) s.lockAuto
  unfold duplicate
  refine sat_require ⟨htc, htm⟩ ?_
  generalize alloc s.lockAuto = p at h
  cases h with
  | none => exact nofun
  | @some s' stats env hal hs =>
      have hr' : s'.tealets t = some r := by
        rw [hs]
        exact (Function.update_of_ne htn _ _).trans hr
      have hH' : HeapRep s'.heap a own := by
        rw [hs]
        exact H.withAllocs _ _
      refine Sat.run (tealet_of hr') ?_
      cases hk : r.stack with
      | none =>
          rw [hk] at hrk
          cases hrk
      | some k' =>
          obtain rfl : k' = k := Option.some.inj (hk.symm.trans hrk)
          -- the copy has the record of its source
          have hcopy : ∀ {s₂ : State} {a₂ : Saved}, HeapRep s₂.heap a₂ own →
              s₂.tealets s.nextTealet = some r →
              a₂.img k' = some { im with refcount := im.refcount + 1 } →
              s₂.Waits s.nextTealet k' fr ∧ s₂.statusOf s.nextTealet = s.statusOf t := by
            intro s₂ a₂ H₂ hrec himg
            refine ⟨(waits_view H₂).mpr ⟨(stackOf_eq (v := s₂.view a₂) hrec).trans hk, _,
              himg, hfr⟩, ?_⟩
            rw [statusOf_view H₂, statusOf_view H, statusOf_eq (v := s₂.view a₂) hrec,
              statusOf_eq (v := s.view a) hr, hk]
            simp only [State.view, Option.bind_some, himg, him, Option.any_some]
          obtain ⟨h', hdup, H', -, -⟩ := stackDup_spec hH' him
          refine Sat.run hdup ?_
          rintro c hc
          obtain rfl : s.nextTealet = c := Option.some.inj hc
          exact ⟨rfl, hcopy H' (Function.update_self ..) (Function.update_self ..)⟩

end Captures

/-! ## Who gets control -/

/-- The attempt may end in another tealet. -/
def Label.Switches : Label → Prop
  | .xfer .. | .start .. => True
  | _ => False

theorem Path.current {C : View → Label → Prop} {strict : Prop} {v v' : View}
    (h : Path C strict v v') :
    v'.current = v.current ∨ ∃ w l, C w l ∧ l.Switches := by
  obtain ⟨v₁, hmoves, hor⟩ := h
  have hcur : v₁.current = v.current := by
    clear hor
    induction hmoves with
    | refl => rfl
    | tail _ hm ih => exact hm.current.trans ih
  rcases hor with rfl | hjump
  · exact .inl hcur
  · cases hjump with
    | xfer hC => exact .inr ⟨_, _, hC, True.intro⟩
    | start hC => exact .inr ⟨_, _, hC, True.intro⟩
    | capture => exact .inl hcur

def Event.fn : Event → Option RunFn
  | .call cl _ _ => cl.fn
  | .write _ => none

/-- Which tealet runs after a step and what it sees: the same one, one
that was started, or one that was suspended. -/
inductive Seen (s : State) (e : Event) (s' : State) (o : Outcome) : Prop where
  | stays (hcur : s'.gCurrent = s.gCurrent) (ho : ∀ fn t arg, o ≠ .entered fn t arg)
  | starts (hs : ∀ k fr, ¬ s.Waits s'.gCurrent k fr)
      (ho : ∀ fn t arg, o = .entered fn t arg → e.fn = some fn)
  | resumes {s₁ : State} {fr : Frame} {f : XFlags} {isExit : Bool} {allocs : List Bool}
      (hfr : s.frameOf s'.gCurrent = some fr)
      (hx : e.Attempts s s₁ (.xfer s'.gCurrent f isExit allocs))
      (ho : (∃ arg, o = fr.delivers s'.gCurrent arg f.panic) ∨
        fr.started ≠ none ∧ ∃ arg, o = .returned (.err .panic) arg)

section Control

variable {leak : StackId → Nat} {s s' s₀ : State} {a : Saved} {e : Event} {o : Outcome} {cl : Call}
  {q : Request} {t : TealetId} {p : State × Outcome}

theorem Transferred.seen {allocs : List Bool} {mprotects : List (Option (Nat → Bool))}
    (h : Transferred s₀ q p ∨ Abandoned s₀ q p)
    (hq : cl.request (s.withChoices allocs mprotects) = some (s₀, q)) :
    Seen s (.call cl allocs mprotects) p.1 p.2 := by
  obtain ⟨fl, ar, rfl, -⟩ := request_state hq
  rcases h with h | h
  · cases h with
    | failed ho he hs => exact .stays hs.current fun _ _ _ => by rw [ho]; nofun
    | toSelf ha hx ho hprev hs => exact .stays hs.current fun _ _ _ => by rw [ho]; nofun
    | moved ha hlike ht hfr ho hcur =>
        subst hcur
        exact .resumes hfr (.xfer hq ha) (.inl ⟨_, ho⟩)
  · cases h with
    | mk ha hlike hp ht hfr hst hcur ho =>
        subst hcur
        exact .resumes hfr (.xfer hq ha) (.inr ⟨hst, _, ho⟩)

theorem Launched.seen {k : Frame} {sw spawned : Bool} (h : Launched s₀ t k sw spawned p)
    (hcur₀ : s₀.gCurrent = s.gCurrent) (hnew : ∀ k fr, ¬ s.Waits t k fr) (hk : k.fn = e.fn)
    (hout : ∀ fn u arg, startOutcome t k = .entered fn u arg → sw = true ∧ k.fn = some fn) :
    Seen s e p.1 p.2 := by
  cases h with
  | failed ho he hcur => exact .stays (hcur.trans hcur₀) fun _ _ _ => by rw [ho]; nofun
  | started ho hcur =>
      cases sw with
      | false =>
          refine .stays (hcur.trans hcur₀) fun fn u arg h => ?_
          obtain ⟨hsw, -⟩ := hout fn u arg (ho ▸ h)
          cases hsw
      | true =>
          refine .starts ?_ fun fn u arg h => ?_
          · rw [show p.1.gCurrent = t from hcur]
            exact hnew
          · rw [← hk]
            exact (hout fn u arg (ho ▸ h)).2

/-- The run function of a start is entered at once only if it switches. -/
theorem startOutcome_run {cur : TealetId} {prev : Option TealetId} {fn fn' : RunFn} {x arg : Ptr}
    {sw out spawned : Bool} {u : TealetId}
    (h : startOutcome t (.run t cur prev fn x sw out spawned) = .entered fn' u arg) :
    sw = true ∧ some fn = some fn' := by
  cases sw with
  | false => cases h
  | true =>
      cases h
      exact ⟨rfl, rfl⟩

theorem returned_not_entered {rc : Rc} {x : Option Ptr} {c : Option TealetId} :
    ∀ fn t arg, Outcome.returned rc x c ≠ .entered fn t arg := nofun

theorem handle_not_entered {c : Option TealetId} :
    ∀ fn t arg, Outcome.handle c ≠ .entered fn t arg := nofun

/-- Whoever gets control is the tealet that ran, one that was started or
one that was suspended. -/
theorem Inv.step_seen (I : Inv leak s a) (hL : Legal s e) (hP : e.PanicResumes False s) :
    Returns (fun p => Seen s e p.1 p.2) (step s e) := by
  have hpath := step_spec False (E := fun _ => True) I hL (fun _ _ => True.intro) hP
    (.inl True.intro)
  cases e with
  | write m => exact .stays rfl returned_not_entered
  | call cl allocs mprotects =>
      have I' := I.withChoices allocs mprotects
      have hL' : cl.Legal (s.withChoices allocs mprotects) := by
        cases cl <;> exact hL
      rcases hq : cl.request (s.withChoices allocs mprotects) with _ | ⟨s₀, q⟩
      · -- a call that makes no attempt leaves the same tealet running
        have hquiet : (∀ s₁ l, Attempts (s.withChoices allocs mprotects) cl s₁ l → ¬ l.Switches) →
            Returns (fun p => ∀ fn t arg, p.2 ≠ .entered fn t arg)
              (callStep (s.withChoices allocs mprotects) cl) →
            Returns (fun p => Seen s (.call cl allocs mprotects) p.1 p.2)
              (step s (.call cl allocs mprotects)) := by
          intro hno hret
          refine (hpath.and hret).imp ?_
          rintro p ⟨⟨leak', a', hstep⟩, ho⟩
          rcases hstep.path.current with hcur | ⟨w, l, ⟨s₁, -, -, -, -, ha⟩, hl⟩
          · exact .stays hcur ho
          · exact absurd hl (hno s₁ l ha)
        show Returns _ (callStep _ cl)
        cases cl with
        | switch => cases hq
        | ret p sp =>
            obtain ⟨⟨t, rfl, -⟩, -⟩ := hL'
            cases hq
        | run t fn parg hint sw site =>
            refine ((I'.run_start false hL'.1 hL'.2.1 hL'.2.2).and
              (I'.run_end false hL'.1 hL'.2.1 hL'.2.2)).imp ?_
            rintro p ⟨⟨-, rfl⟩ | ⟨hnew, -⟩, ⟨-, hp⟩ | ⟨-, hl, -⟩⟩
            · exact .stays rfl returned_not_entered
            · exact .stays rfl returned_not_entered
            · rw [hp]
              exact .stays rfl returned_not_entered
            · refine hl.seen rfl (fun k fr => not_waits_of_empty ?_) rfl fun fn' u arg h =>
                startOutcome_run h
              exact congrArg (Option.bind · TealetSub.stack) hnew
        | spawn fn parg hint sw site =>
            obtain ⟨-, hcur, -⟩ := new_signals (s := s.withChoices allocs mprotects)
              (I'.core.fresh _ (Nat.le_refl _))
            refine (I'.spawn_end hL'.1 hL'.2).imp ?_
            rintro p (rfl | ⟨-, s₁, hnew, -, hl, -⟩)
            · exact .stays hcur returned_not_entered
            · rw [hnew] at hcur
              refine hl.seen hcur (fun k fr => not_waits_of_empty ?_) rfl fun fn' u arg h =>
                startOutcome_run h
              have hfresh : s.tealets s.nextTealet = none := I.core.fresh _ (Nat.le_refl _)
              exact congrArg (Option.bind · TealetSub.stack) hfresh
        | fork t parg sw site =>
            refine ((I'.fork_start hL'.1 hL'.2).and (I'.fork_end hL'.1 hL'.2)).imp ?_
            rintro p ⟨⟨err, -, rfl⟩ | ⟨hnew, -⟩, ⟨err', -, hp⟩ | ⟨-, hl, -⟩⟩
            · exact .stays rfl returned_not_entered
            · exact .stays rfl returned_not_entered
            · rw [hp]
              exact .stays rfl returned_not_entered
            · refine hl.seen rfl (fun k fr => not_waits_of_empty ?_) rfl fun fn' u arg h =>
                by cases h
              exact congrArg (Option.bind · TealetSub.stack) hnew
        | exit t arg flags sp =>
            have hd : flags.defer = true := by
              by_contra hd
              rw [Call.request, if_neg hd] at hq
              cases hq
            refine hquiet ?_ ?_
            · rintro s₁ l (⟨hq', -⟩)
              rw [hq] at hq'
              cases hq'
            · show Returns _ (exit _ t arg flags false sp)
              unfold exit
              refine returns_any.bind fun _ _ => returns_any.bind fun _ _ => ?_
              exact Sat.ite_true hd (returns_any.bind fun _ _ => returned_not_entered)
        | new =>
            refine hquiet ?_ handle_not_entered
            rintro s₁ l (⟨hq', -⟩)
            cases hq'
        | duplicate t =>
            refine hquiet ?_ (returns_any.bind fun _ _ => handle_not_entered)
            rintro s₁ l (⟨hq', -⟩ | -)
            · cases hq'
            · exact id
        | delete t =>
            refine hquiet ?_ (returns_any.bind fun _ _ => returned_not_entered)
            rintro s₁ l (⟨hq', -⟩ | -)
            · cases hq'
            · exact id
        | status t =>
            refine hquiet ?_ (returns_any.bind fun _ _ => returned_not_entered)
            rintro s₁ l (⟨hq', -⟩)
            cases hq'
        | setFar t far =>
            refine hquiet ?_ (returns_any.bind fun _ _ => returned_not_entered)
            rintro s₁ l (⟨hq', -⟩ | -)
            · cases hq'
            · exact id
        | configure request =>
            refine hquiet ?_ returned_not_entered
            rintro s₁ l (⟨hq', -⟩)
            cases hq'
      · exact (I'.transfer_any hL' hq hP).imp fun p hp => Transferred.seen hp hq

end Control

end Tealet
