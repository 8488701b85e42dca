import Tealet.Current
import Tealet.Lifecycle
import Tealet.Watch

/-!
# NOFAIL

A transfer under NOFAIL arrives: at its target, or at main with a panic
after the first attempt failed for want of memory or on a defunct target.
Under FORCE only main's own stack can make the growth of the list fail, and
when main is the target its stack is not grown. What arrives is checked
again before user code runs: it has to stand below its boundary, and its
watch has to be armed.
-/

namespace Tealet

open DList Slice Hoare Relation

/-! ## Where the suspended tealets stand -/

/-- The tealet `t` stands below its boundary, and main in a call of its own. -/
structure Stands (t : TealetId) (r : TealetSub) (im : Image) : Prop where
  below : im.near < r.stackFar
  call : t = mainId → ∀ g out, im.frame = .switch g out → g = mainId

def View.Standing (v : View) : Prop :=
  ∀ t r k im, v.tealets t = some r → r.stack = some k → v.img k = some im → Stands t r im

/-- Main's boundary is not moved nearer than main's saved stack. -/
def FarFits (C : View → Label → Prop) : Prop :=
  ∀ v far, C v (.setFar far) → ∀ k im, v.stackOf mainId = some k → v.img k = some im →
    im.near < far

section Standing

variable {leak : StackId → Nat} {C : View → Label → Prop} {v v' : View} {t : TealetId}
  {r : TealetSub} {k : StackId} {im : Image}

theorem Stands.congr {r' : TealetSub} {im' : Image} (h : Stands t r im)
    (hfar : r'.stackFar = r.stackFar) (hn : im'.near = im.near) (hf : im'.frame = im.frame) :
    Stands t r' im' :=
  ⟨by rw [hn, hfar]; exact h.below, fun hm g out => by rw [hf]; exact h.call hm g out⟩

/-- Each image keeps its place and its frame, and each record that has one its boundary. -/
theorem View.Standing.congr (S : v.Standing)
    (himg : ∀ k im', v'.img k = some im' → ∃ im, v.img k = some im ∧ im'.near = im.near ∧
      im'.frame = im.frame)
    (hrec : ∀ t r' k, v'.tealets t = some r' → r'.stack = some k →
      ∃ r, v.tealets t = some r ∧ r.stack = some k ∧ r'.stackFar = r.stackFar) : v'.Standing := by
  intro t r' k im' hr' hk him'
  obtain ⟨r, hr, hrk, hfar⟩ := hrec t r' k hr' hk
  obtain ⟨im, him, hn, hf⟩ := himg k im' him'
  exact (S t r k im hr hrk him).congr hfar hn hf

theorem place_of_release (him : v.img k = some im) {x : StackId} {im' : Image}
    (h : (v.release k im).img x = some im') :
    ∃ im₀, v.img x = some im₀ ∧ im'.near = im₀.near ∧ im'.frame = im₀.frame := by
  obtain ⟨im₀, him₀, ⟨-, rfl⟩ | ⟨-, -, rfl, rfl⟩⟩ := img_of_release him h
  · exact ⟨_, him₀, rfl, rfl⟩
  · exact ⟨_, him₀, rfl, rfl⟩

theorem place_of_grow (H : Core leak v) {target : Option StackId} {F : Nat} {failOk : Bool}
    {allocs : List Bool} {x : StackId} {im' : Image}
    (h : (v.growth target F failOk allocs).img x = some im') :
    ∃ im₀, v.img x = some im₀ ∧ im'.near = im₀.near ∧ im'.frame = im₀.frame := by
  obtain ⟨im₀, him₀, hkept, -⟩ := H.grown h
  exact ⟨im₀, him₀, hkept.near, hkept.frame⟩

theorem Small.standing (h : Small C v v') (hfar : FarFits C) (H : Core leak v) (S : v.Standing) :
    v'.Standing := by
  have hid : ∀ k im', v.img k = some im' → ∃ im, v.img k = some im ∧ im'.near = im.near ∧
      im'.frame = im.frame := fun k im' h => ⟨im', h, rfl, rfl⟩
  have hupd : ∀ {x : TealetId} {o : Option TealetSub},
      (∀ r', o = some r' → r'.stack = none) → ∀ t r' k,
        Function.update v.tealets x o t = some r' → r'.stack = some k →
        ∃ r, v.tealets t = some r ∧ r.stack = some k ∧ r'.stackFar = r.stackFar := by
    intro x o ho t r' k hr' hk
    by_cases htx : t = x
    · subst htx
      rw [Function.update_self] at hr'
      rw [ho r' hr'] at hk
      cases hk
    · rw [Function.update_of_ne htx] at hr'
      exact ⟨r', hr', hk, rfl⟩
  have hgrow : ∀ {target F failOk allocs},
      (v.grow (v.growth target F failOk allocs)).Standing := fun {target F failOk allocs} =>
    S.congr (fun k im' h => place_of_grow H h) fun t r' k hr' hk => ⟨r', hr', hk, rfl⟩
  cases h with
  | write => exact S.congr hid fun t r' k hr' hk => ⟨r', hr', hk, rfl⟩
  | create => exact S.congr hid (hupd (by rintro r' h; cases h; rfl))
  | dup hC hu hcur hmain hs => exact S.congr hid (hupd (by rintro r' h; cases h; exact hs))
  | @dupShared u ru k im hC hu hcur hmain hs him =>
      intro t r' y im' hr' hy him'
      have hplace : ∃ im₀, v.img y = some im₀ ∧ im'.near = im₀.near ∧ im'.frame = im₀.frame := by
        by_cases hyk : y = k
        · subst hyk
          have him' : Function.update v.img y (some { im with refcount := im.refcount + 1 }) y =
              some im' := him'
          rw [Function.update_self] at him'
          cases him'
          exact ⟨im, him, rfl, rfl⟩
        · exact ⟨im', (Function.update_of_ne hyk _ _).symm.trans him', rfl, rfl⟩
      obtain ⟨im₀, him₀, hn, hf⟩ := hplace
      by_cases htn : t = v.nextTealet
      · subst htn
        have hr' : Function.update v.tealets v.nextTealet (some ru) v.nextTealet = some r' := hr'
        rw [Function.update_self] at hr'
        cases hr'
        have hm : v.nextTealet ≠ mainId := Nat.ne_of_gt H.mainKnown
        exact ⟨by rw [hn]; exact (S u ru y im₀ hu hy him₀).below, fun h => absurd h hm⟩
      · have hr' : v.tealets t = some r' := (Function.update_of_ne htn _ _).symm.trans hr'
        exact (S t r' y im₀ hr' hy him₀).congr rfl hn hf
  | delete => exact S.congr hid (hupd nofun)
  | @deleteSaved u ru k im hC hu hcur hmain hs him =>
      refine S.congr (fun y im' h => place_of_release him h) ?_
      have hsame := (release_tealets v k im).1
      intro t r' y hr' hy
      have hr' : Function.update (v.release k im).tealets u none t = some r' := hr'
      rw [hsame] at hr'
      exact hupd (o := none) nofun t r' y hr' hy
  | @cache u ru k im hu hs him hd =>
      refine S.congr hid fun t r' y hr' hy => ?_
      by_cases htu : t = u
      · subst htu
        have hr' : Function.update v.tealets t (some { ru with
          flags := { ru.flags with defunct := true } }) t = some r' := hr'
        rw [Function.update_self] at hr'
        cases hr'
        exact ⟨ru, hu, hy, rfl⟩
      · exact ⟨r', (Function.update_of_ne htu _ _).symm.trans hr', hy, rfl⟩
  | @setFar rm far hC hlt hrm =>
      intro t r' y im' hr' hy him'
      by_cases htm : t = mainId
      · subst htm
        have hr' : Function.update v.tealets mainId (some { rm with stackFar := far }) mainId =
            some r' := hr'
        rw [Function.update_self] at hr'
        cases hr'
        exact ⟨hfar v far hC y im' ((stackOf_eq hrm).trans hy) him',
          (S mainId rm y im' hrm hy him').call⟩
      · exact S t r' y im' ((Function.update_of_ne htm _ _).symm.trans hr') hy him'
  | stallXfer => exact hgrow
  | stallStart => exact hgrow
  | stallCapture => exact hgrow

/-- A tealet is saved, at `sp` in the call `kf`. -/
theorem View.Standing.save (H : Core leak v) (S : v.Standing) {u : TealetId} {c : TealetSub}
    {F sp : Nat} {kf : Frame} (hsp : sp < c.stackFar)
    (hcall : u = mainId → ∀ g out, kf = .switch g out → g = mainId) :
    (v.save u c F sp kf).Standing := by
  intro t r' y im' hr' hy him'
  have hlook : ∀ x, x ≠ v.nextStack → (v.save u c F sp kf).img x = v.img x :=
    fun x hx => Function.update_of_ne hx _ _
  by_cases htu : t = u
  · subst htu
    have hr' : Function.update v.tealets t (some { c with stack := some v.nextStack }) t =
          some r' :=
        hr'
    rw [Function.update_self] at hr'
    cases hr'
    obtain rfl : v.nextStack = y := Option.some.inj hy
    have him' : Function.update v.img v.nextStack (some (Image.capture v.mem sp c.stackFar F kf))
        v.nextStack = some im' := him'
    rw [Function.update_self] at him'
    cases him'
    exact ⟨hsp, hcall⟩
  · have hr' : v.tealets t = some r' := (Function.update_of_ne htu _ _).symm.trans hr'
    obtain ⟨im, him, -⟩ := H.owned t r' y hr' hy
    rw [hlook y (Nat.ne_of_lt (H.lt_nextStack him))] at him'
    exact S t r' y im' hr' hy him'

theorem View.Standing.setTealet (S : v.Standing) {o : Option TealetSub}
    (ho : ∀ r', o = some r' → r'.stack = none) : (v.setTealet t o).Standing := by
  intro x r' y im' hr' hy him'
  by_cases hxt : x = t
  · subst hxt
    have hr' : Function.update v.tealets x o x = some r' := hr'
    rw [Function.update_self] at hr'
    rw [ho r' hr'] at hy
    cases hy
  · exact S x r' y im' ((Function.update_of_ne hxt _ _).symm.trans hr') hy him'

theorem Jump.standing {strict : Prop} (h : Jump C strict v v') (H : Core leak v) (Sc : Sched v)
    (S : v.Standing) : v'.Standing := by
  have hgrow : ∀ {target F failOk allocs},
      (v.grow (v.growth target F failOk allocs)).Standing := fun {target F failOk allocs} =>
    S.congr (fun k im' h => place_of_grow H h) fun t r' k hr' hk => ⟨r', hr', hk, rfl⟩
  cases h with
  | @xfer u c ru k im im' flags isExit allocs g fate sp kf hC hc hu hcur hx hrd hk him hd hg hfate
      him' hsp hexit hkf hpanic hstrict =>
      obtain ⟨hact, hs⟩ := Sc.current_of hc
      obtain ⟨-, hch⟩ := chosen_of_chooseFate hfate
      have hHg : Core leak (v.grow g) := hg ▸ H.grow _ _ _ _
      have hSg : (v.grow g).Standing := hg ▸ hgrow
      have hdep : ((v.grow g).depart c ru.stackFar fate).Standing := by
        cases hch with
        | suspend he =>
            obtain ⟨out, rfl⟩ := hkf he
            refine hSg.save hHg (hsp he) fun hm g' out' h => ?_
            cases h
            exact hm
        | lose he hf => exact hSg.setTealet fun r' h => by cases h; exact hs
        | exit => exact hSg.setTealet fun r' h => by cases h; rfl
        | exitDelete => exact hSg.setTealet nofun
      have hkn : k ≠ v.nextStack := Nat.ne_of_lt (H.lt_nextStack him)
      have himd : ((v.grow g).depart c ru.stackFar fate).img k = some im' :=
        (depart_img_of_ne (v.grow g) c _ fate hkn).trans him'
      have hres : (((v.grow g).depart c ru.stackFar fate).restore u ru k im').Standing := by
        refine hdep.congr (fun y imy h => ?_) fun t r' y hr' hy => ?_
        · exact place_of_release (v := { (v.grow g).depart c ru.stackFar fate with
            mem := im'.value ((v.grow g).depart c ru.stackFar fate).mem }) himd h
        · by_cases htu : t = u
          · subst htu
            rw [restore_tealets_self] at hr'
            cases hr'
            cases hy
          · rw [restore_tealets_of_ne htu] at hr'
            exact ⟨r', hr', hy, rfl⟩
      unfold View.settle
      split
      · split
        · rename_i child spawned hst
          refine hres.setTealet fun r' h => ?_
          cases spawned <;> cases h
          rfl
        · exact hres
      · exact hres
  | @start u c ru allocs g sp kf hC hc hnew hb hx hrd hq hk hfar hg hok hsp hst hcap =>
      obtain ⟨spawned, hst⟩ := hst
      have hHg : Core leak (v.grow g) := hg ▸ H.grow _ _ _ _
      have hSg : (v.grow g).Standing := hg ▸ hgrow
      have hsave : ((v.grow g).save v.current c ru.stackFar sp kf).Standing := by
        refine hSg.save hHg hsp fun _ g' out h => ?_
        rw [h] at hst
        cases hst
      exact hsave.setTealet (t := u) (o := some ru) fun r' h => by cases h; exact hk
  | @capture u c ru allocs g sp kf hC hc hnew hb hx hrd hq hfar hg hok hsp hst hcap =>
      have hHg : Core leak (v.grow g) := hg ▸ H.grow _ _ _ _
      have hSg : (v.grow g).Standing := hg ▸ hgrow
      exact hSg.save hHg hsp fun hm => absurd hm (Sc.ne_main_of_unbound hnew rfl)

theorem Path.standing {strict : Prop} (h : Path C strict v v') (hfar : FarFits C) (H : Core leak v)
    (Sc : Sched v) (S : v.Standing) : v'.Standing := by
  obtain ⟨v₁, hmoves, hor⟩ := h
  have hmid : Core leak v₁ ∧ Sched v₁ ∧ v₁.Standing := by
    clear hor
    induction hmoves with
    | refl => exact ⟨H, Sc, S⟩
    | tail _ hm ih =>
        obtain ⟨H₁, Sc₁⟩ := hm.good ih.1 ih.2.1
        exact ⟨H₁, Sc₁, hm.standing hfar ih.1 ih.2.2⟩
  rcases hor with rfl | hjump
  · exact hmid.2.2
  · exact hjump.standing hmid.1 hmid.2.1 hmid.2.2

end Standing

/-! ## One attempt -/

section Growth

variable {m : Memory} {main target : Option StackId} {F : Nat} {img : Images} {allocs : List Bool}
  {g : Growth} {flags : TFlags} {sp : Nat} {k : Frame}

/-- Under FORCE the list can be grown for a transfer to main. -/
theorem growList_to_main {l : List StackId} (ht : target = main)
    (href : ∀ k im, target = some k → img k = some im → im.refcount ≤ 1) :
    (growList m main target F false l img allocs).failed = false := by
  induction l generalizing img allocs with
  | nil => rfl
  | cons k ks ih =>
      cases him : img k with
      | none => simp only [growList, him]
      | some im =>
          by_cases hk : target = some k
          · rw [growList_target him ⟨hk, href k im hk him⟩]
          · rcases hg : im.growto m F (false || decide (main = some k)) allocs with ⟨_ | im', rest⟩
            · obtain ⟨-, hs⟩ := Image.growto_stuck hg
              exact absurd (by simpa [ht] using hs) hk
            · rw [growList_next him hg hk]
              refine ih fun x imx hx himx => href x imx hx ?_
              rwa [Function.update_of_ne (by rintro rfl; exact hk hx)] at himx

theorem chooseFate_forced (flags : TFlags) (sp : Nat) (k : Frame) (hf : g.failed = false) :
    ∃ fate, (chooseFate g flags false sp k).1 = some fate := by
  unfold chooseFate
  rw [if_neg (by simp [hf])]
  split
  · exact ⟨_, rfl⟩
  · split <;> exact ⟨_, rfl⟩

end Growth

theorem callerRejected_congr {e e' : Env} {far sp : Nat} (h : e.SameConfig e')
    (hfar : far ≠ spFurthest) : callerRejected e' far sp = callerRejected e far sp := by
  simp only [callerRejected, if_pos hfar, h.cfg]

theorem lt_of_not_rejected {e : Env} {far sp : Nat} (hfar : far ≠ spFurthest)
    (h : callerRejected e far sp = false) : sp < far := by
  simp only [callerRejected, if_pos hfar, Bool.or_eq_false_iff, decide_eq_false_iff_not] at h
  exact Nat.lt_of_not_le h.1

/-- A state in which the tealet that runs, not main, may ask for a transfer
at `sp`, and in which every tealet may be resumed. -/
structure Poised (leak : StackId → Nat) (s : State) (a : Saved) (c : TealetSub) (sp : Nat) :
    Prop where
  inv : Inv leak s a
  standing : (s.view a).Standing
  ready : s.env.Ready
  fits : ∀ t r, s.tealets t = some r → s.env.Fits r.stackFar
  record : s.tealets s.gCurrent = some c
  running : s.gCurrent ≠ mainId
  near : callerRejected s.env c.stackFar sp = false
  intact : ∃ e₁ e₂, guardUnprotectCurrent s.env = .ok e₁ ∧
    snapshotVerifyCurrent e₁ s.mem = .ok (e₂, none)

/-- The transfer to `t` takes place. -/
structure Arrived (s : State) (t : TealetId) (arg : Ptr) (panic : Bool) (p : State × Back) :
    Prop where
  current : p.1.gCurrent = t
  live : p.1.live = t
  frame : s.frameOf t = some p.2.frame
  rc : p.2.rc = if panic then .err .panic else .ok
  arg : p.2.arg = some arg

/-- An attempt that failed in a way that lets the caller fall back to main. -/
structure Fallen (leak : StackId → Nat) (s : State) (c : TealetSub) (sp : Nat) (p : State × Back) :
    Prop where
  rc : p.2.rc = .err .mem ∨ p.2.rc = .err .defunct
  poised : ∃ a', Poised leak p.1 a' c sp
  current : p.1.gCurrent = s.gCurrent
  frame : p.1.frameOf mainId = s.frameOf mainId

section Poised

variable {leak : StackId → Nat} {s : State} {a : Saved} {t : TealetId} {c r : TealetSub}
  {flags : XFlags} {isExit : Bool} {sp : Nat} {k : Frame} {arg : Ptr}

namespace Poised

theorem far_ne (P : Poised leak s a c sp) : c.stackFar ≠ spFurthest :=
  Nat.ne_of_lt ((P.inv.core.record _ c P.record).far_lt P.running)

theorem lt (P : Poised leak s a c sp) : sp < c.stackFar := lt_of_not_rejected P.far_ne P.near

theorem external (P : Poised leak s a c sp) (hr : s.tealets t = some r) (ht : t ≠ s.gCurrent)
    (hb : r.flags.bound = true) (hx : r.flags.exited = false) (hu : Usable a r)
    (failOk : Bool) (allocs : List Bool) :
    External (fun _ => False) s.env s.mem c r sp
      (((s.view a).growth r.stack r.stackFar failOk allocs).resume r k sp).2 := by
  have hcx : c.flags.exited = false := (P.inv.running P.record).1.exited
  have hok : ∀ {α : Type} {x : Res α} {y : α}, x = .ok y →
      Sat (fun _ => False) (fun _ => True) x := by
    rintro α x y rfl
    exact True.intro
  have hnear : (((s.view a).growth r.stack r.stackFar failOk allocs).resume r k sp).2 <
      r.stackFar := by
    cases hk : r.stack with
    | none => exact absurd hk (P.inv.sched.suspended t r hr ht ⟨hb, hx, hu.1⟩)
    | some kt =>
        obtain ⟨im, him, -⟩ := P.inv.core.owned t r kt hr hk
        obtain ⟨im', him', hkept⟩ :=
          View.growth_kept (v := s.view a) him (some kt) r.stackFar failOk allocs
        have hres : ((s.view a).growth (some kt) r.stackFar failOk allocs).resume r k sp =
            (im'.frame, im'.near) := by
          simp only [Growth.resume, hk, Option.bind_some]
          rw [show ((s.view a).growth (some kt) r.stackFar failOk allocs).img kt =
            some im' from him']
        rw [hres]
        show im'.near < r.stackFar
        rw [hkept.near]
        exact (P.standing t r kt im hr hk him).below
  obtain ⟨e₁, e₂, h₁, h₂⟩ := P.intact
  refine ⟨hok (verifyRecord_ok hcx P.lt), ?_, fun e' m' he => ?_, fun e' m' he => ?_⟩
  · rw [h₁]
    exact hok h₂
  · obtain ⟨e'', h⟩ := armEnv_ready (m := m') hcx P.lt (P.ready.congr he)
      ((P.fits _ c P.record).congr he)
    exact hok h
  · obtain ⟨e'', h⟩ := armEnv_ready (m := m') hx hnear (P.ready.congr he)
      ((P.fits t r hr).congr he)
    exact hok h

end Poised

theorem frameOf_congr {s' : State} {a' : Saved} {own own' : StackId → List ChunkId}
    (H : HeapRep s.heap a own) (H' : HeapRep s'.heap a' own') (hr : s.tealets t = some r)
    (hr' : s'.tealets t = some r)
    (himg : ∀ kt im, r.stack = some kt → a.img kt = some im → ∃ im', a'.img kt = some im' ∧
      im'.frame = im.frame) (hown : ∀ kt, r.stack = some kt → ∃ im, a.img kt = some im) :
    s'.frameOf t = s.frameOf t := by
  cases hk : r.stack with
  | none => simp [State.frameOf, hr, hr', hk]
  | some kt =>
      obtain ⟨im, him⟩ := hown kt hk
      obtain ⟨im', him', hf⟩ := himg kt im hk him
      rw [frameOf_eq H hr hk him, frameOf_eq H' hr' hk him', hf]

/-- An attempt to transfer to another tealet arrives or lets the caller fall back. -/
theorem Poised.attempt (P : Poised leak s a c sp) (arg : Ptr) (flags : XFlags)
    (hr : s.tealets t = some r) (ht : t ≠ s.gCurrent)
    (hb : r.flags.bound = true) (hx : r.flags.exited = false) (hsp : sp < spFurthest)
    (hk : OwnFrame s isExit k) (hpan : PanicSafe s a r flags isExit fun _ => False) :
    ∃ p, xferInner s t arg flags isExit k sp = .ok p ∧ (Arrived s t arg flags.panic p ∨
      Fallen leak s c sp p ∧ (t = mainId → flags.force = false)) := by
  have hspec := P.inv.xferInner_spec arg P.record hr hsp hk
    (fun _ hm => absurd hm P.running) (fun _ hu => P.external hr ht hb hx hu _ _) hpan
  obtain ⟨p, hp⟩ : ∃ p, xferInner s t arg flags isExit k sp = .ok p := by
    cases hres : xferInner s t arg flags isExit k sp with
    | ok p => exact ⟨p, rfl⟩
    | error f => exact (hspec.fault hres).elim
  refine ⟨p, hp, ?_⟩
  obtain ⟨own, H⟩ := P.inv.rep
  obtain ⟨rm, hrm, hmact⟩ := P.inv.sched.main
  have hrm : s.tealets mainId = some rm := hrm
  cases hspec.result hp with
  | unbound hb' => rw [hb] at hb'; cases hb'
  | toSelf ht' => exact absurd ht' ht
  | exited hx' => rw [hx] at hx'; cases hx'
  | defunct hx hd hp =>
      subst hp
      refine .inr ⟨⟨.inr rfl, ⟨a, P⟩, rfl, rfl⟩, fun hm => ?_⟩
      rw [(P.inv.sched.main_of (r := r) (hm ▸ hr)).defunct] at hd
      cases hd
  | @spoiled kt im hx hd hkt him hdim hp =>
      subst hp
      have htm : t ≠ mainId := by
        rintro rfl
        have h := ((P.inv.core.image kt im him).ofMain
          ((stackOf_eq (v := s.view a) hr).trans hkt)).2.1
        rw [hdim] at h
        cases h
      have hsmall : Small (fun _ _ => False) (s.view a) ((s.setTealet t
          { r with flags := { r.flags with defunct := true } }).view a) := .cache hr hkt him hdim
      obtain ⟨H', S'⟩ := hsmall.good P.inv.core P.inv.sched
      have hm' : (s.setTealet t { r with flags := { r.flags with defunct := true } }).tealets
          mainId = some rm := (Function.update_of_ne htm.symm _ _).trans hrm
      refine .inr ⟨⟨.inr rfl, ⟨a, ⟨P.inv.rep, H', S', P.inv.gTarget, P.inv.panic⟩,
        hsmall.standing nofun P.inv.core P.standing, P.ready, ?_,
        (Function.update_of_ne ht.symm _ _).trans P.record, P.running, P.near, P.intact⟩, rfl, ?_⟩,
        fun hm => absurd hm htm⟩
      · intro x rx hrx
        by_cases hxt : x = t
        · subst hxt
          have hrx : Function.update s.tealets x (some { r with
            flags := { r.flags with defunct := true } }) x = some rx := hrx
          rw [Function.update_self] at hrx
          cases hrx
          exact P.fits x r hr
        · exact P.fits x rx ((Function.update_of_ne hxt _ _).symm.trans hrx)
      · exact frameOf_congr H H hrm hm' (fun kt im _ him => ⟨im, him, rfl⟩) fun kt hk =>
          (P.inv.core.owned mainId rm kt hrm hk).imp fun _ h => h.1
  | rejected hu hrej => rw [P.near] at hrej; cases hrej
  | @tampered kt im e e' hu hg hs he hp =>
      obtain ⟨e₁, e₂, h₁, h₂⟩ := P.intact
      cases h₁.symm.trans hg
      cases h₂.symm.trans hs
  | @nomem kt im a' own' g ht hu hg hfate hrep hal hb' hT ha hprev hfl he harm hview =>
      obtain ⟨e, -, harm⟩ := harm
      have hsmall := grow_label (C := fun _ _ => True) P.record hr ht True.intro hg hfate
      obtain ⟨H', S'⟩ := hsmall.good P.inv.core P.inv.sched
      have hstand := (grow_label (C := fun _ l => ∃ t f e al, l = .xfer t f e al) P.record hr ht
        ⟨_, _, _, _, rfl⟩ hg hfate).standing
        (by rintro v far ⟨_, _, _, _, h⟩; cases h) P.inv.core P.standing
      rw [← hview] at H' S' hstand
      have hcur : p.1.gCurrent = s.gCurrent := congrArg View.current hview
      have htl : p.1.tealets = s.tealets := congrArg View.tealets hview
      have hmem : p.1.mem = s.mem := congrArg View.mem hview
      have himg : a'.img = g.img := congrArg View.img hview
      refine .inr ⟨⟨.inl (by rw [hb']), ⟨a', ⟨⟨own', hrep⟩, H', S', hT, hfl ▸ P.inv.panic⟩, hstand,
        P.ready.congr he, ?_, ?_, ?_, ?_, ?_⟩, hcur, ?_⟩, ?_⟩
      · intro x rx hrx
        rw [htl] at hrx
        exact (P.fits x rx hrx).congr he
      · rw [hcur, htl]
        exact P.record
      · rw [hcur]
        exact P.running
      · rw [callerRejected_congr he P.far_ne]
        exact P.near
      · rw [hmem]
        exact armEnv_verified harm
      · refine frameOf_congr H hrep hrm (by rw [htl]; exact hrm) ?_ fun kt hk =>
          (P.inv.core.owned mainId rm kt hrm hk).imp fun _ h => h.1
        intro x imx hx himx
        obtain ⟨im', him', hkept⟩ := View.growth_kept (v := s.view a) himx r.stack r.stackFar
          (mayFail s.gCurrent flags) s.heap.allocs
        refine ⟨im', ?_, hkept.frame⟩
        rw [himg, ← hg]
        exact him'
      · rintro rfl
        by_contra hforce
        have hmay : mayFail s.gCurrent flags = false := by
          simp only [mayFail, Bool.or_eq_false_iff, Bool.not_eq_false', decide_eq_false_iff_not]
          exact ⟨by simpa using hforce, P.running⟩
        rw [hmay] at hg hfate
        have hnf : g.failed = false := by
          rw [← hg]
          refine growList_to_main (stackOf_eq (v := s.view a) hr).symm fun x imx hx himx => ?_
          exact Nat.le_of_eq ((P.inv.core.image x imx himx).ofMain
            ((stackOf_eq (v := s.view a) hr).trans hx)).1
        obtain ⟨fate, hfate'⟩ := chooseFate_forced
          { c.flags with exiting := isExit, autodelete := isExit && flags.delete } sp k hnf
        rw [hfate'] at hfate
        cases hfate
  | @moved kt im im' a' own' g fate ht hexit hu hv hg hfate him' hrep hal hb' hT ha hprev hfl he
      hview =>
      refine .inl ⟨congrArg View.current hview, congrArg View.live hview, ?_, by rw [hb'],
        by rw [hb']⟩
      rw [hb']
      exact frameOf_eq H hr hu.stack hu.img

/-- Main's call is its own. -/
theorem Poised.panicSafe_main (P : Poised leak s a c sp) (hr : s.tealets mainId = some r) :
    PanicSafe s a r flags isExit fun _ => False := by
  refine fun _ => .inr fun kt im g out hk him hfr => ?_
  obtain rfl := (P.standing mainId r kt im hr hk him).call rfl g out hfr
  exact ⟨Option.isSome_iff_exists.mpr ⟨r, hr⟩, fun _ _ => P.running.symm⟩

end Poised

/-! ## NOFAIL -/

/-- The call `c`, attempted from `s₀` on as the request `q`, asks for a
transfer under NOFAIL that the checks of the caller let pass. -/
structure NofailAsked (s : State) (c : Call) (s₀ : State) (q : Request) : Prop where
  request : c.request s = some (s₀, q)
  /-- these are the flags of a pending deferred exit, if there is one -/
  nofail : q.flags.nofail = true
  legal : c.Legal s
  flagsOk : c.FlagsOk
  running : s.gCurrent ≠ mainId
  target : ∃ r, s.tealets q.target = some r ∧ r.flags.bound = true ∧ r.flags.exited = false
  other : q.target ≠ s.gCurrent
  near : callerRejected s.env (runningFar s) q.sp = false
  intact : ∃ e₁ e₂, guardUnprotectCurrent s₀.env = .ok e₁ ∧
    snapshotVerifyCurrent e₁ s₀.mem = .ok (e₂, none)
  fits : ∀ t r, s.tealets t = some r → s.env.Fits r.stackFar
  callers : q.flags.panic = true → ∀ g out, s.frameOf q.target = some (.switch g out) →
    Alive s g ∧ (q.isExit = true → q.flags.delete = true → g ≠ s.gCurrent)

/-- Where the request `q` arrives: at its target, or at main after the
first attempt failed for want of memory or on a defunct target. -/
inductive Delivered (s : State) (q : Request) (p : State × Back) : Prop where
  | target (h : Arrived s q.target q.arg q.flags.panic p)
  | main {p₁ : State × Back} (hm : q.target ≠ mainId)
      (hfirst : xferInner s q.target q.arg q.flags.first q.isExit q.frame q.sp = .ok p₁)
      (hrc : p₁.2.rc = .err .mem ∨ p₁.2.rc = .err .defunct) (h : Arrived s mainId q.arg true p)

theorem Poised.delivered {leak : StackId → Nat} {s : State} {a : Saved} {c r : TealetSub}
    {q : Request} (P : Poised leak s a c q.sp) (hn : q.flags.nofail = true)
    (hr : s.tealets q.target = some r) (ht : q.target ≠ s.gCurrent) (hb : r.flags.bound = true)
    (hx : r.flags.exited = false) (hsp : q.sp < spFurthest) (hk : OwnFrame s q.isExit q.frame)
    (hpan : PanicSafe s a r q.flags q.isExit fun _ => False) :
    ∃ p, q.attempts s = .ok p ∧ Delivered s q p := by
  have hf : q.flags.first = { q.flags with nofail := false, force := true } := if_pos hn
  obtain ⟨p, hp, hor⟩ := P.attempt q.arg q.flags.first hr ht hb hx hsp hk
    (by rw [hf]; exact hpan)
  have heq : q.attempts s = if p.2.rc = .err .mem ∨ p.2.rc = .err .defunct then
      xferInner p.1 mainId q.arg q.flags.fallback q.isExit q.frame q.sp else .ok p := by
    unfold Request.attempts xferAttempts
    rw [if_pos hn, ← hf, hp, ok_bind]
    rfl
  rcases hor with h | ⟨h, hmain⟩
  · have hno : ¬ (p.2.rc = .err .mem ∨ p.2.rc = .err .defunct) := by
      rw [h.rc]
      split <;> simp
    refine ⟨p, heq.trans (if_neg hno), .target ?_⟩
    rw [hf] at h
    exact h
  · have htm : q.target ≠ mainId := fun hm => by
      have h := hmain hm
      rw [hf] at h
      cases h
    obtain ⟨a₁, P₁⟩ := h.poised
    obtain ⟨rm, hrm, hmact⟩ := P₁.inv.sched.main
    have hk₁ : OwnFrame p.1 q.isExit q.frame := by
      unfold OwnFrame at hk ⊢
      rw [h.current]
      exact hk
    obtain ⟨p₂, hp₂, hor⟩ :=
      P₁.attempt q.arg q.flags.fallback hrm P₁.running.symm hmact.bound hmact.exited hsp hk₁
      (P₁.panicSafe_main hrm)
    refine ⟨p₂, heq.trans ((if_pos h.rc).trans hp₂), ?_⟩
    rcases hor with h₂ | ⟨-, hno⟩
    · exact .main htm hp h.rc ⟨h₂.current, h₂.live, h.frame ▸ h₂.frame, h₂.rc, h₂.arg⟩
    · cases hno rfl

/-- Main's boundary is not moved nearer than main's saved stack. -/
def Event.FarOk (s : State) (e : Event) : Prop :=
  ∀ s₁ far, e.Attempts s s₁ (.setFar far) → ∀ r k st, s₁.tealets mainId = some r →
    r.stack = some k → s₁.heap.stackAt k = some st → st.chunk.stackNear < far

/-- The steps of runs in which NOFAIL is kept. -/
def NofailKept (s : State) (e : Event) : Prop :=
  Legal s e ∧ e.PanicResumes False s ∧ e.FarOk s

theorem Event.FarOk.fits {s : State} {e : Event} (h : e.FarOk s) : FarFits (EventLabel s e) := by
  rintro v far ⟨s₁, a₁, own, H, rfl, he⟩ k im hk him
  obtain ⟨r, hr, hrk⟩ := tealets_of_stackOf hk
  obtain ⟨st, hst, hrep⟩ := H.stack k im him
  rw [← hrep.near]
  exact h s₁ far he r k st hr hrk hst

theorem Env.SameConfig.withChoices (s : State) (allocs : List Bool)
    (mprotects : List (Option (Nat → Bool))) :
    s.env.SameConfig (s.withChoices allocs mprotects).env := ⟨rfl, rfl, rfl⟩

theorem step_ready {leak : StackId → Nat} {s s' : State} {a : Saved} {e : Event} {o : Outcome}
    (I : Inv leak s a) (hL : Legal s e) (h : s.env.Ready) (hs : step s e = .ok (s', o)) :
    s'.env.Ready := by
  cases e with
  | write m =>
      cases hs
      exact h
  | call c allocs mprotects =>
      have hL' : c.Legal (s.withChoices allocs mprotects) := by
        cases c <;> exact hL
      exact (callStep_ready (I.withChoices allocs mprotects) hL'
        (h.congr (Env.SameConfig.withChoices s allocs mprotects))).result hs

/-- The invariant of runs in which NOFAIL is kept. -/
theorem Run.poised {mem : Memory} {env : Env} {s : State} (henv : env.Fresh)
    (hpage : env.pageSize = 0 ∨ ∃ p < 64, env.pageSize = 2 ^ p)
    (h : Run NofailKept (initial mem env) s) :
    ∃ leak a, Inv leak s a ∧ (s.view a).Standing ∧ s.env.Ready := by
  induction h with
  | refl =>
      refine ⟨_, _, inv_initial mem env, fun t r k im _ _ him => (nomatch him), hpage, ?_⟩
      show snapshotRequiredCapacity env.pageSize env.cfg ≤ env.data.snapshotCapacity
      rw [henv.cfg]
      exact Nat.zero_le _
  | tail _ he hs ih =>
      obtain ⟨leak, a, I, hstand, hready⟩ := ih
      obtain ⟨hL, hR, hF⟩ := he
      obtain ⟨leak', a', hstep⟩ := (step_spec _ (E := fun _ => True) I hL (fun _ _ => True.intro) hR
        (.inl True.intro)).result hs
      exact ⟨leak', a', hstep.inv, hstep.path.standing hF.fits I.core I.sched hstand,
        step_ready I hL hready hs⟩

theorem nofail_delivers {mem : Memory} {env : Env} {s : State} (henv : env.Fresh)
    (hpage : env.pageSize = 0 ∨ ∃ p < 64, env.pageSize = 2 ^ p)
    (h : Run NofailKept (initial mem env) s) :
    s.statusOf mainId = some .active ∧
      ∀ c allocs mprotects s₀ q, NofailAsked (s.withChoices allocs mprotects) c s₀ q →
        ∃ p, q.attempts s₀ = .ok p ∧ Delivered s₀ q p ∧
          step s (.call c allocs mprotects) = q.finish p := by
  obtain ⟨leak, a, I, hstand, hready⟩ := h.poised henv hpage
  refine ⟨I.main_active, ?_⟩
  intro c allocs mprotects s₀ q A
  obtain ⟨I₀, hview⟩ := (I.withChoices allocs mprotects).withRequest A.request
  obtain ⟨halive, hsp⟩ := request_legal A.request A.legal
  obtain ⟨f, cond, inst, -, hcond, heq⟩ := callStep_request A.request
  obtain ⟨fl, ar, hs₀, -⟩ := request_state A.request
  have hk := request_frame A.request
  obtain ⟨cr, hc, -⟩ := I₀.sched.running
  obtain ⟨r, hr, hb, hx⟩ := A.target
  have htl : s₀.tealets = s.tealets := by rw [hs₀]; rfl
  have hcur : s₀.gCurrent = s.gCurrent := by rw [hs₀]; rfl
  have hcfg : s.env.SameConfig s₀.env := by
    rw [hs₀]
    exact (Env.SameConfig.withChoices s allocs mprotects).trans (lockAuto_sameConfig _)
  have hfar : runningFar (s.withChoices allocs mprotects) = cr.stackFar := by
    have hc' : s.tealets s.gCurrent = some cr := by rw [← htl, ← hcur]; exact hc
    show ((s.tealets s.gCurrent).map TealetSub.stackFar).getD 0 = _
    rw [hc', Option.map_some, Option.getD_some]
  have hne : cr.stackFar ≠ spFurthest := by
    refine Nat.ne_of_lt ((I₀.core.record _ cr hc).far_lt ?_)
    show s₀.gCurrent ≠ mainId
    rw [hcur]
    exact A.running
  have P : Poised leak s₀ a cr q.sp := by
    refine ⟨I₀, hview ▸ hstand, hready.congr hcfg, ?_, hc, by rw [hcur]; exact A.running, ?_,
      A.intact⟩
    · intro t rt hrt
      rw [htl] at hrt
      exact (show s.env.Fits rt.stackFar from A.fits t rt hrt).congr hcfg
    · rw [callerRejected_congr hcfg hne, ← hfar]
      exact A.near
  have hr₀ : s₀.tealets q.target = some r := htl ▸ hr
  have hpan : PanicSafe s₀ a r q.flags q.isExit fun _ => False := by
    intro hp
    refine .inr fun kt im g out hkt him hfr => ?_
    obtain ⟨own, H⟩ := I₀.rep
    have hframe : s₀.frameOf q.target = some (.switch g out) := hfr ▸ frameOf_eq H hr₀ hkt him
    have hsame : s₀.frameOf q.target = (s.withChoices allocs mprotects).frameOf q.target := by
      rw [hs₀]
      rfl
    obtain ⟨h₁, h₂⟩ := A.callers hp g out (hsame ▸ hframe)
    refine ⟨?_, by rw [hcur]; exact h₂⟩
    rw [Alive, htl]
    exact h₁
  obtain ⟨p, hp, hdel⟩ := P.delivered A.nofail hr₀ (by rw [hcur]; exact A.other) hb hx hsp hk hpan
  refine ⟨p, hp, hdel, ?_⟩
  have hverify : verifyCurrentMatchesCaller (s.withChoices allocs mprotects) q.sp = .ok () := by
    rw [verifyCurrentMatchesCaller_eq (c := cr) (by
      show s.tealets s.gCurrent = _
      rw [← htl, ← hcur]
      exact hc)]
    exact verifyRecord_ok (I₀.running hc).1.exited P.lt
  show callStep (s.withChoices allocs mprotects) c = _
  rw [heq, require_of (hcond A.flagsOk), ok_bind, hverify, ok_bind, hp, ok_bind]

def Event.farOk : Event → Bool
  | .call (.setFar ..) _ _ => false
  | _ => true

theorem Event.farOk_spec {s : State} {e : Event} (h : e.farOk = true) : e.FarOk s := by
  intro s₁ far he
  cases e with
  | write m => cases he.2
  | call c allocs mprotects =>
      cases he
      cases h

/-- Nothing is watched while integrity checks are off. -/
theorem fits_of_off {e : Env} {far : Nat} (h : e.cfg.integrity = false) (hfar : far ≤ spFurthest) :
    e.Fits far := by
  unfold Env.Fits
  rw [plannedBytes, if_pos (.inr h)]
  exact Nat.lt_of_le_of_lt hfar (by decide)

/-- A tealet that cannot be saved switches to main. -/
theorem nofail_delivers_lost : ∃ s s₀ q, Run NofailKept (initial (fun _ => 0) {}) s ∧
    NofailAsked (s.withChoices [false] []) (.switch 0 none { nofail := true } 900) s₀ q ∧
    ∃ p, q.attempts s₀ = .ok p ∧ Delivered s₀ q p := by
  obtain ⟨s, hrun, hs⟩ := exists_run_of_trace (P := NofailKept)
    (p := fun s e => e.legal s && (e.panicResumes s && e.farOk))
    (fun s e h => by
      obtain ⟨h₁, h₂⟩ := Bool.and_eq_true_iff.mp h
      obtain ⟨h₂, h₃⟩ := Bool.and_eq_true_iff.mp h₂
      exact ⟨Event.legal_spec h₁, Event.panicResumes_spec h₂, Event.farOk_spec h₃⟩)
    [.call .new [] [], .call (.run 1 7 none null true ⟨1000, 990⟩) [] []]
    (s := initial (fun _ => 0) {})
    (fun s => (s.tealets 0).any (fun r => r.flags.bound && !r.flags.exited) &&
      decide (s.gCurrent = 1) && !callerRejected s.env (runningFar s) 900 &&
      decide ((s.withChoices [false] []).lockAuto.env.data = {}) && !s.env.cfg.integrity)
    (by decide +kernel)
  simp only [Bool.and_eq_true, decide_eq_true_eq, Bool.not_eq_true', Option.any_eq_true] at hs
  obtain ⟨⟨⟨⟨⟨r, hr, hb, hx⟩, hcur⟩, hnear⟩, hdata⟩, hoff⟩ := hs
  obtain ⟨leak, a, I, -⟩ := hrun.poised ⟨rfl, rfl⟩ (.inr ⟨12, by decide, rfl⟩)
  have A : NofailAsked (s.withChoices [false] []) (.switch 0 none { nofail := true } 900)
      (s.withChoices [false] []).lockAuto
      ⟨0, null, { nofail := true }, false, .switch s.gCurrent false, 900⟩ := by
    refine ⟨rfl, rfl, ⟨Option.isSome_iff_exists.mpr ⟨r, hr⟩, by decide⟩, ⟨rfl, rfl⟩, ?_,
      ⟨r, hr, hb, hx⟩, ?_, hnear, ⟨(s.withChoices [false] []).lockAuto.env,
        (s.withChoices [false] []).lockAuto.env, if_pos (by rw [hdata]), if_pos (by rw [hdata])⟩,
      ?_, nofun⟩
    · show s.gCurrent ≠ mainId
      rw [hcur]
      decide
    · show 0 ≠ s.gCurrent
      rw [hcur]
      decide
    · exact fun t rt hrt => fits_of_off hoff (I.core.record t rt hrt).far_le
  obtain ⟨p, hp, hdel, -⟩ :=
    (nofail_delivers ⟨rfl, rfl⟩ (.inr ⟨12, by decide, rfl⟩) hrun).2 _ _ _ _ _ A
  exact ⟨s, _, _, hrun, A, p, hp, hdel⟩

/-- A pending deferred exit without NOFAIL takes the place of the flags of an
exit under NOFAIL, which then fails for want of memory. -/
theorem nofail_lost_to_pending :
    ¬ ∀ mem env s target arg flags sp allocs mprotects, env.Fresh → Run Legal (initial mem env) s →
      flags.nofail = true → flags.defer = false → Alive s target → sp < spFurthest →
      s.gCurrent ≠ mainId → target ≠ s.gCurrent → s.statusOf target = some .active →
      callerRejected s.env (runningFar s) sp = false →
      s.env.data.guardBytes = 0 → s.env.data.snapshotBytes = 0 →
      ∃ s' o, step s (.call (.exit target arg flags sp) allocs mprotects) = .ok (s', o) ∧
        (s'.gCurrent = target ∨ s'.gCurrent = mainId) := by
  intro h
  obtain ⟨s, hrun, hs⟩ := exists_run_of_trace (P := Legal) (p := fun s e => e.legal s)
    (fun s e h => Event.legal_spec h)
    [.call .new [] [], .call (.run 1 7 none null true ⟨1000, 990⟩) [] [],
      .call (.exit 0 5 { defer := true } 950) [] [], .call .new [] [],
      .call (.run 2 7 none null true ⟨900, 890⟩) [] []]
    (s := initial (fun _ => 0) {})
    (fun s => decide (Alive s 0) && decide (s.gCurrent = 2) &&
      decide (s.statusOf 0 = some .active) && !callerRejected s.env (runningFar s) 880 &&
      decide (s.env.data.guardBytes = 0) && decide (s.env.data.snapshotBytes = 0) &&
      endsIn (step s (.call (.exit 0 null { nofail := true } 880) [false] []))
        fun p => decide (p.1.gCurrent = 2)) (by decide +kernel)
  simp only [Bool.and_eq_true, decide_eq_true_eq, Bool.not_eq_true'] at hs
  obtain ⟨⟨⟨⟨⟨⟨halive, hcur⟩, hact⟩, hnear⟩, hguard⟩, hsnap⟩, hstep⟩ := hs
  obtain ⟨s', o, heq, hor⟩ :=
    h _ _ s 0 null { nofail := true } 880 [false] [] ⟨rfl, rfl⟩ hrun rfl rfl
    halive (by decide) (by rw [hcur]; decide) (by rw [hcur]; decide) hact hnear hguard hsnap
  rw [heq] at hstep
  have hcur' : s'.gCurrent = 2 := of_decide_eq_true hstep
  rcases hor with h | h <;> rw [hcur'] at h <;> cases h

end Tealet
