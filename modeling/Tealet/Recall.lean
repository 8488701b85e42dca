import Tealet.Isolation

/-!
# What moves make of the saved images

A small move makes no image and, but for user code, leaves memory alone:
`Keeps`. A jump makes at most one, of the memory as it is, and a tealet
that is resumed finds its image in memory: `Follows`. In both every image
that is still usable stands for what it stood for, and a jump saves each
up to the boundary of the tealet that runs afterwards, neither less nor
more.
-/

namespace Tealet

open Slice Relation

/-! ## Small moves -/

structure Keeps (C : View → Label → Prop) (v v' : View) : Prop where
  image : ∀ k im', v'.img k = some im' → im'.defunct = false → ∃ im, v.img k = some im ∧
    im.defunct = false ∧ im.Same v.mem v'.mem im' ∧ (Plentiful C → im'.top = im.top)
  stack : ∀ t k, v'.stackOf t = some k → v.stackOf t = some k ∨
    v.nextTealet ≤ t ∧ ∃ w u, C w (.duplicate u) ∧ v.stackOf u = some k
  mem : (∀ w, ¬ C w .write) → v'.mem = v.mem
  nextStack : v'.nextStack = v.nextStack
  nextTealet : v.nextTealet ≤ v'.nextTealet
  current : v'.current = v.current

section Keeps

variable {leak : StackId → Nat} {C : View → Label → Prop} {v v₁ v' : View} {t : TealetId}
  {k : StackId} {im : Image}

theorem Keeps.refl (C : View → Label → Prop) (v : View) : Keeps C v v :=
  ⟨fun _ im h hd => ⟨im, h, hd, .refl _ _, fun _ => rfl⟩, fun _ _ h => .inl h, fun _ => rfl, rfl,
    Nat.le_refl _, rfl⟩

theorem Keeps.trans (h : Keeps C v v₁) (h' : Keeps C v₁ v') : Keeps C v v' := by
  refine ⟨?_, ?_, fun hW => (h'.mem hW).trans (h.mem hW), h'.nextStack.trans h.nextStack,
    Nat.le_trans h.nextTealet h'.nextTealet, h'.current.trans h.current⟩
  · intro k im' him' hd
    obtain ⟨im₁, him₁, hd₁, hs₁, ht₁⟩ := h'.image k im' him' hd
    obtain ⟨im, him, hd₀, hs, ht⟩ := h.image k im₁ him₁ hd₁
    exact ⟨im, him, hd₀, hs.trans hs₁, fun hP => (ht₁ hP).trans (ht hP)⟩
  · intro t k hk
    rcases h'.stack t k hk with hk | ⟨ht, w, u, hw, hu⟩
    · exact h.stack t k hk
    · refine .inr ⟨Nat.le_trans h.nextTealet ht, ?_⟩
      rcases h.stack u k hu with hu | ⟨-, hdup⟩
      · exact ⟨w, u, hw, hu⟩
      · exact hdup

/-- A move that changes no image. -/
theorem Keeps.of_images (hi : v'.img = v.img) (hm : v'.mem = v.mem)
    (hs : ∀ t k, v'.stackOf t = some k → v.stackOf t = some k ∨
      v.nextTealet ≤ t ∧ ∃ w u, C w (.duplicate u) ∧ v.stackOf u = some k)
    (hk : v'.nextStack = v.nextStack) (ht : v.nextTealet ≤ v'.nextTealet)
    (hc : v'.current = v.current) : Keeps C v v' := by
  refine ⟨fun k im h hd => ?_, hs, fun _ => hm, hk, ht, hc⟩
  rw [hi] at h
  rw [hm]
  exact ⟨im, h, hd, .refl _ _, fun _ => rfl⟩

/-- A record is written whose stack is that of the old one. -/
theorem stackOf_update {o : Option TealetSub} (hv : v'.tealets = Function.update v.tealets t o)
    {x : TealetId} (h : v'.stackOf x = some k) :
    x ≠ t ∧ v.stackOf x = some k ∨ x = t ∧ o.bind TealetSub.stack = some k := by
  rw [View.stackOf, hv] at h
  by_cases hx : x = t
  · subst hx
    rw [Function.update_self] at h
    exact .inr ⟨rfl, h⟩
  · rw [Function.update_of_ne hx] at h
    exact .inl ⟨hx, h⟩

/-- A small move gives a stack to a duplicate only. -/
theorem Small.stackOf (h : Small C v v') {x : TealetId} {y : StackId} (hy : v'.stackOf x = some y) :
    v.stackOf x = some y ∨ v.nextTealet ≤ x ∧ ∃ w u, C w (.duplicate u) ∧ v.stackOf u = some y := by
  cases h with
  | create =>
      rcases stackOf_update (v := v) rfl hy with ⟨-, h⟩ | ⟨-, h⟩
      · exact .inl h
      · cases h
  | dup hC hu hcur hmain hs =>
      rcases stackOf_update (v := v) rfl hy with ⟨-, h⟩ | ⟨-, h⟩
      · exact .inl h
      · rw [Option.bind_some, hs] at h
        cases h
  | @dupShared u ru k im hC hu =>
      rcases stackOf_update (v := v) rfl hy with ⟨-, h⟩ | ⟨rfl, h⟩
      · exact .inl h
      · exact .inr ⟨Nat.le_refl _, v, u, hC, (stackOf_eq hu).trans h⟩
  | delete =>
      rcases stackOf_update (v := v) rfl hy with ⟨-, h⟩ | ⟨-, h⟩
      · exact .inl h
      · cases h
  | @deleteSaved u ru k im =>
      rcases stackOf_update (v := v.release k im) rfl hy with ⟨-, h⟩ | ⟨-, h⟩
      · rw [View.stackOf, (release_tealets v k im).1] at h
        exact .inl h
      · cases h
  | cache hu =>
      rcases stackOf_update (v := v) rfl hy with ⟨-, h⟩ | ⟨rfl, h⟩
      · exact .inl h
      · exact .inl ((stackOf_eq hu).trans h)
  | setFar hC hfar hr =>
      rcases stackOf_update (v := v) rfl hy with ⟨-, h⟩ | ⟨rfl, h⟩
      · exact .inl h
      · exact .inl ((stackOf_eq hr).trans h)
  | _ => exact .inl hy

theorem Small.keeps (h : Small C v v') (H : Core leak v) (I : Isolated v) : Keeps C v v' := by
  have hstack : ∀ t k, v'.stackOf t = some k → v.stackOf t = some k ∨
      v.nextTealet ≤ t ∧ ∃ w u, C w (.duplicate u) ∧ v.stackOf u = some k := fun _ _ => h.stackOf
  have hgrow : ∀ {target F failOk allocs}, ¬ Plentiful C →
      Keeps C v (v.grow (v.growth target F failOk allocs)) := by
    intro target F failOk allocs hP
    refine ⟨fun k im' him' hd => ?_, fun _ _ h => .inl h, fun _ => rfl, rfl, Nat.le_refl _, rfl⟩
    obtain ⟨im, him, hd₀, hs, -⟩ := H.still him' hd
    exact ⟨im, him, hd₀, hs, fun h => absurd h hP⟩
  -- with enough memory nothing stalls
  have hfate : ∀ {target F failOk flags sp kf allocs}, (∀ ok ∈ allocs, ok = true) →
      (chooseFate (v.growth target F failOk allocs) flags failOk sp kf).1 ≠ none :=
    fun h => chooseFate_plenty (growList_plenty h) _ _ _
  cases h with
  | write hC hm =>
      refine ⟨fun k im him hd => ⟨im, him, hd, ?_, fun _ => rfl⟩, hstack,
        fun hW => absurd hC (hW _), rfl, Nat.le_refl _, rfl⟩
      exact (I.clear.image_covers him hd id).same hd hm
  | create => exact .of_images rfl rfl hstack rfl (Nat.le_succ _) rfl
  | dup => exact .of_images rfl rfl hstack rfl (Nat.le_succ _) rfl
  | @dupShared u ru k im hC hu hcur hmain hs him =>
      refine ⟨fun x im' h hd => ?_, hstack, fun _ => rfl, rfl, Nat.le_succ _, rfl⟩
      by_cases hx : x = k
      · subst hx
        have h : Function.update v.img x (some { im with refcount := im.refcount + 1 }) x =
            some im' :=
          h
        rw [Function.update_self] at h
        cases h
        exact ⟨im, him, hd, .counted v.mem im _, fun _ => rfl⟩
      · exact ⟨im', (Function.update_of_ne hx _ _).symm.trans h, hd, .refl _ _, fun _ => rfl⟩
  | delete => exact .of_images rfl rfl hstack rfl (Nat.le_refl _) rfl
  | @deleteSaved u ru k im hC hu hcur hmain hs him =>
      obtain ⟨-, h₂, h₃, h₄, h₅, -⟩ := release_tealets v k im
      refine ⟨fun x im' h hd => ?_, hstack, fun _ => h₄, h₃, Nat.le_of_eq h₂.symm, h₅⟩
      show ∃ im₀, v.img x = some im₀ ∧ _ ∧ im₀.Same v.mem (v.release k im).mem im' ∧ _
      rw [h₄]
      obtain ⟨im₀, h₀, ⟨-, rfl⟩ | ⟨-, -, rfl, rfl⟩⟩ := img_of_release him h
      · exact ⟨_, h₀, hd, .refl _ _, fun _ => rfl⟩
      · exact ⟨_, h₀, hd, .counted _ _ _, fun _ => rfl⟩
  | cache => exact .of_images rfl rfl hstack rfl (Nat.le_refl _) rfl
  | setFar => exact .of_images rfl rfl hstack rfl (Nat.le_refl _) rfl
  | stallXfer hC hc hu hcur hf => exact hgrow fun hP => hfate (hP _ _ hC hcur) hf
  | stallStart hC hf => exact hgrow fun hP => hfate (hP _ _ hC True.intro) hf
  | stallCapture hC hf => exact hgrow fun hP => hfate (hP _ _ hC True.intro) hf

/-- A tealet keeps its stack until it is freed. -/
structure Held (v v' : View) : Prop where
  stack : ∀ t k, t < v.nextTealet → v.stackOf t = some k →
    v'.tealets t = none ∨ v'.stackOf t = some k
  gone : ∀ t, t < v.nextTealet → v.tealets t = none → v'.tealets t = none
  nextTealet : v.nextTealet ≤ v'.nextTealet

theorem Held.refl (v : View) : Held v v :=
  ⟨fun _ _ _ h => .inr h, fun _ _ h => h, Nat.le_refl _⟩

theorem Held.trans (h : Held v v₁) (h' : Held v₁ v') : Held v v' := by
  refine ⟨fun t k ht hk => ?_, fun t ht hn => ?_, Nat.le_trans h.nextTealet h'.nextTealet⟩
  · have ht' := Nat.lt_of_lt_of_le ht h.nextTealet
    rcases h.stack t k ht hk with hn | hk
    · exact .inl (h'.gone t ht' hn)
    · exact h'.stack t k ht' hk
  · exact h'.gone t (Nat.lt_of_lt_of_le ht h.nextTealet) (h.gone t ht hn)

theorem Small.held (h : Small C v v') : Held v v' := by
  refine ⟨fun t k ht hk => ?_, fun t ht hn => h.gone hn ht, h.nextTealet⟩
  have hpush : ∀ {o : Option TealetSub}, (Function.update v.tealets v.nextTealet o t).bind
      TealetSub.stack = some k := by
    intro o
    rw [Function.update_of_ne (Nat.ne_of_lt ht)]
    exact hk
  have hset : ∀ {u : TealetId} {ru r' : TealetSub}, v.tealets u = some ru → r'.stack = ru.stack →
      (v.setTealet u (some r')).stackOf t = some k := by
    intro u ru r' hu hs
    rw [stackOf_setTealet, Option.bind_some, hs, ← stackOf_eq hu, Function.update_eq_self]
    exact hk
  cases h with
  | create => exact .inr hpush
  | dup => exact .inr hpush
  | dupShared => exact .inr hpush
  | @delete u =>
      by_cases htu : t = u
      · subst htu
        exact .inl (Function.update_self ..)
      · refine .inr ?_
        rw [stackOf_setTealet, Function.update_of_ne htu]
        exact hk
  | @deleteSaved u ru y im =>
      by_cases htu : t = u
      · subst htu
        exact .inl (Function.update_self ..)
      · refine .inr ?_
        rw [stackOf_setTealet, Function.update_of_ne htu, View.stackOf,
          (release_tealets v y im).1]
        exact hk
  | cache hu => exact .inr (hset hu rfl)
  | setFar hC hfar hr => exact .inr (hset hr rfl)
  | _ => exact .inr hk

theorem Keeps.moves (h : ReflTransGen (Small C) v v') (hC : Careful C) (H : Core (fun _ => 0) v)
    (S : Sched v) (I : Isolated v) :
    Core (fun _ => 0) v' ∧ Sched v' ∧ Isolated v' ∧ Keeps C v v' ∧ Held v v' := by
  induction h with
  | refl => exact ⟨H, S, I, .refl C v, .refl v⟩
  | tail _ hm ih =>
      obtain ⟨H₁, S₁, I₁, K₁, L₁⟩ := ih
      obtain ⟨H₂, S₂⟩ := hm.good H₁ S₁
      exact ⟨H₂, S₂, hm.isolated hC H₁ S₁ I₁, K₁.trans (hm.keeps H₁ I₁), L₁.trans hm.held⟩

end Keeps

/-! ## Jumps -/

/-- No transfer spoils the image of its target. -/
def Sound (C : View → Label → Prop) : Prop :=
  ∀ v leak t flags isExit allocs r k im', Core leak v → C v (.xfer t flags isExit allocs) →
    v.tealets t = some r → r.stack = some k → t ≠ v.current →
    (v.growth r.stack r.stackFar (mayFail v.current flags) allocs).img k = some im' →
    (∀ im, v.img k = some im → im.defunct = false) → im'.defunct = false

structure Follows (C : View → Label → Prop) (v v' : View) : Prop where
  old : ∀ k im', k < v.nextStack → v'.img k = some im' → im'.defunct = false →
    ∃ im, v.img k = some im ∧ im.defunct = false ∧ im.Same v.mem v'.mem im' ∧
      (Plentiful C → im'.top = max im.top (min im.far (v'.far v'.current)) ∧
        (v'.current = v.current → im'.top = im.top))
  new : ∀ k im', v.nextStack ≤ k → v'.img k = some im' →
    im'.defunct = false ∧ im'.near < im'.far ∧
    (∀ x, im'.near ≤ x → x < im'.far → im'.value v'.mem x = v.mem x) ∧
    im'.top = max im'.near (min im'.far (v'.far v'.current))
  stack : ∀ t k, v'.stackOf t = some k → v.stackOf t = some k ∨
    (v.stackOf t = none ∧ v.nextStack ≤ k ∧ ∃ w l, C w l ∧ l.Jumps w) ∨
    v.nextTealet ≤ t ∧ ∃ w u, C w (.duplicate u) ∧ v.stackOf u = some k
  moved : v'.current ≠ v.current → ∃ w l, C w l ∧ l.Jumps w
  resumed : v'.current ≠ v.current → ∀ k im, v.stackOf v'.current = some k → v.img k = some im →
    im.defunct = false ∧
      (Sound C → ∀ x, im.near ≤ x → x < im.far → v'.mem x = im.value v.mem x)

section Jumps

variable {leak : StackId → Nat} {C : View → Label → Prop} {v v₁ v' : View} {t : TealetId}
  {k : StackId} {im im' : Image} {c r : TealetSub} {F sp : Nat} {kf : Frame}

/-- An image that covers `F` and the one it is over a memory that differs nearer than `F`. -/
theorem Image.Reaches.over {m m' : Memory} (h : im.Reaches m F im') (hd : im'.defunct = false)
    (hm : ∀ x, F ≤ x → m' x = m x) : im.Same m m' im' :=
  h.same.trans (h.covers.same hd hm)

/-- The new image, over a memory that differs nearer than `F` only. -/
theorem capture_new {m m' : Memory} (sp far F : Nat) (kf : Frame) (hm : ∀ x, F ≤ x → m' x = m x)
    (x : Nat) (hx : sp ≤ x) (hf : x < far) : (Image.capture m sp far F kf).value m' x = m x := by
  have hc : (Image.capture m sp far F kf).Covers F := by
    rw [Image.Covers, capture_top]
    exact Nat.le_max_right _ _
  rw [(hc.same rfl hm).value x hx hf, Image.value_capture]

/-- After the growth and the save of the tealet that leaves. -/
structure Left (v : View) (F : Nat) (target : Option StackId) (w : View) : Prop where
  old : ∀ k im', k < v.nextStack → w.img k = some im' → im'.defunct = false →
    ¬ Dropped v target k → ∃ im, v.img k = some im ∧ im.defunct = false ∧ im.Reaches v.mem F im'
  new : ∀ k im', v.nextStack ≤ k → w.img k = some im' → ∃ sp far kf,
    sp < far ∧ im' = Image.capture v.mem sp far F kf
  mem : w.mem = v.mem

theorem Isolated.left_save (I : Isolated v) (H : Core leak v) {target : Option StackId}
    {failOk : Bool} {allocs : List Bool} {g : Growth}
    (hT : ∀ k im, target = some k → v.img k = some im → im.far = F)
    (hg : v.growth target F failOk allocs = g) (hok : g.failed = false) (hsp : sp < r.stackFar) :
    Left v F target ((v.grow g).save t r F sp kf) := by
  subst hg
  refine ⟨fun k im' hk him' hd hdrop => ?_, fun k im' hk him' => ?_, rfl⟩
  · have hne : k ≠ v.nextStack := Nat.ne_of_lt hk
    exact I.clear.grown H hT hok ((Function.update_of_ne hne _ _).symm.trans him') hd hdrop
  · by_cases hne : k = v.nextStack
    · subst hne
      have him' : Function.update (v.growth target F failOk allocs).img v.nextStack
          (some (Image.capture v.mem sp r.stackFar F kf)) v.nextStack = some im' := him'
      rw [Function.update_self] at him'
      exact ⟨sp, r.stackFar, kf, hsp, (Option.some.inj him').symm⟩
    · have him' : (v.growth target F failOk allocs).img k = some im' :=
        (Function.update_of_ne hne _ _).symm.trans him'
      obtain ⟨im, him, -⟩ := H.grown him'
      exact absurd (H.lt_nextStack him) (Nat.not_lt_of_le hk)

theorem Isolated.left (I : Isolated v) (H : Core leak v) {target : Option StackId}
    {failOk : Bool} {allocs : List Bool} {g : Growth}
    (hT : ∀ k im, target = some k → v.img k = some im → im.far = F)
    (hg : v.growth target F failOk allocs = g) (hok : g.failed = false) (fate : Fate)
    (hsp : ∀ sp kf, fate = .suspend sp kf → sp < c.stackFar) :
    Left v F target ((v.grow g).depart c F fate) := by
  have hkeep : ∀ o, Left v F target ((v.grow g).setTealet (v.grow g).current o) := by
    subst hg
    intro o
    refine ⟨fun k im' hk him' hd hdrop => I.clear.grown H hT hok him' hd hdrop,
      fun k im' hk him' => ?_, rfl⟩
    obtain ⟨im, him, -⟩ := H.grown him'
    exact absurd (H.lt_nextStack him) (Nat.not_lt_of_le hk)
  cases fate with
  | suspend => exact I.left_save H hT hg hok (hsp _ _ rfl)
  | _ => exact hkeep _

/-- What the rest of the jump has to do. -/
theorem Left.follows {target : Option StackId} {w : View} (L : Left v F target w)
    (I : Isolated v) (hF : v'.far v'.current = F) (hjump : ∃ w l, C w l ∧ l.Jumps w)
    (hstay : v'.current = v.current → F = v.far v.current) (hm : ∀ x, F ≤ x → v'.mem x = v.mem x)
    (himg : ∀ k im', v'.img k = some im' → ∃ im₁ n, w.img k = some im₁ ∧
      im' = { im₁ with refcount := n } ∧ ¬ Dropped v target k)
    (hstack : ∀ t k, v'.stackOf t = some k → v.stackOf t = some k ∨
      v.stackOf t = none ∧ v.nextStack ≤ k)
    (hres : v'.current ≠ v.current → ∀ k im, v.stackOf v'.current = some k → v.img k = some im →
      im.defunct = false ∧
        (Sound C → ∀ x, im.near ≤ x → x < im.far → v'.mem x = im.value v.mem x)) :
    Follows C v v' := by
  refine ⟨?_, ?_, fun t k h => (hstack t k h).imp_right fun h => .inl ⟨h.1, h.2, hjump⟩,
    fun _ => hjump, hres⟩
  · intro k im' hk him' hd
    obtain ⟨im₁, n, him₁, rfl, hdrop⟩ := himg k im' him'
    obtain ⟨im, him, hd₀, hr⟩ := L.old k im₁ hk him₁ hd hdrop
    refine ⟨im, him, hd₀, (hr.over hd hm).trans (.counted _ _ _), fun _ => ⟨?_, fun hc => ?_⟩⟩
    · rw [hF]
      exact hr.top
    · have hcov := I.clear.image_covers him hd₀ id
      rw [← hstay hc] at hcov
      unfold Image.Covers at hcov
      refine hr.top.trans ?_
      omega
  · intro k im' hk him'
    obtain ⟨im₁, n, him₁, rfl, -⟩ := himg k im' him'
    obtain ⟨sp, far, kf, hlt, rfl⟩ := L.new k im₁ hk him₁
    refine ⟨rfl, hlt, fun x hx hf => capture_new sp far F kf hm x hx hf, ?_⟩
    rw [hF]
    exact capture_top v.mem sp far F kf

theorem Jump.follows (h : Jump C True v v') (H : Core leak v) (S : Sched v) (I : Isolated v) :
    Follows C v v' := by
  have hkeep : ∀ {w : View} {target : Option StackId}, target = none → ∀ k im', w.img k = some im' →
      ∃ im₁ n, w.img k = some im₁ ∧ im' = { im₁ with refcount := n } ∧ ¬ Dropped v target k := by
    rintro w target rfl k im' h
    exact ⟨im', im'.refcount, h, rfl, fun hd => by cases hd.1⟩
  cases h with
  | @xfer u c ru k im im' flags isExit allocs g fate sp kf hC hc hu hcur hx hrd hk him hd hg hfate
      him' hsp hexit hkf hpanic hstrict =>
      obtain ⟨-, hs⟩ := S.current_of hc
      obtain ⟨hok, hch⟩ := chosen_of_chooseFate hfate
      have hfar := I.target_far H hu
      have hL := I.left (c := c) H hfar hg hok fate fun sp' kf' h => by
        cases hch with
        | suspend he =>
            cases h
            exact hsp he
        | _ => cases h
      have hHg : Core leak (v.grow g) := hg ▸ H.grow _ _ _ _
      have hkn : k ≠ v.nextStack := Nat.ne_of_lt (H.lt_nextStack him)
      have himd : ((v.grow g).depart c ru.stackFar fate).img k = some im' :=
        (depart_img_of_ne (v.grow g) c _ fate hkn).trans him'
      obtain ⟨im₀, him₀, hkept, -⟩ := H.grown (hg ▸ him')
      obtain rfl := Option.some.inj (him.symm.trans him₀)
      rw [settle_of_unstarted (hstrict True.intro)]
      have hmem : (((v.grow g).depart c ru.stackFar fate).restore u ru k im').mem =
          im'.value v.mem := by
        have h₄ := (release_tealets { (v.grow g).depart c ru.stackFar fate with
          mem := im'.value ((v.grow g).depart c ru.stackFar fate).mem } k im').2.2.2.1
        refine h₄.trans ?_
        show im'.value ((v.grow g).depart c ru.stackFar fate).mem = _
        rw [hL.mem]
      have hcur' : (((v.grow g).depart c ru.stackFar fate).restore u ru k im').current = u := rfl
      refine hL.follows I ?_ ⟨v, _, hC, hcur⟩
        (fun h => absurd (hcur'.symm.trans h) hcur) ?_ ?_ ?_ ?_
      · rw [hcur']
        exact far_eq (r := { ru with stack := none }) restore_tealets_self
      · intro x hx
        rw [hmem]
        refine Image.value_beyond (hHg.image k im' him').extent ?_
        rw [hkept.far, hfar k im hk him]
        exact hx
      · intro y imy hy
        obtain ⟨im₁, h₁, ⟨hne, rfl⟩ | ⟨rfl, hlt, rfl, rfl⟩⟩ :=
          img_of_release (v := { (v.grow g).depart c ru.stackFar fate with
            mem := im'.value ((v.grow g).depart c ru.stackFar fate).mem }) himd hy
        · refine ⟨_, _, h₁, rfl, fun hdrop => hne ?_⟩
          exact Option.some.inj (hdrop.1.symm.trans hk)
        · refine ⟨_, _, h₁, rfl, fun hdrop => Nat.not_lt_of_le (hdrop.2.2 im him) ?_⟩
          rwa [← hkept.refcount]
      · intro x y hy
        by_cases hxu : x = u
        · subst hxu
          cases (stackOf_eq (r := { ru with stack := none }) restore_tealets_self).symm.trans hy
        · rw [View.stackOf, restore_tealets_of_ne hxu] at hy
          by_cases hxc : x = v.current
          · subst hxc
            refine .inr ⟨(stackOf_eq hc).trans hs, ?_⟩
            cases hch with
            | suspend =>
                have hself : ((v.grow g).depart c ru.stackFar (.suspend sp kf)).tealets v.current =
                    some { c with stack := some v.nextStack } := Function.update_self ..
                rw [hself] at hy
                exact Nat.le_of_eq (Option.some.inj hy)
            | lose =>
                have hself : ((v.grow g).depart c ru.stackFar .lose).tealets v.current =
                    some { c with flags := { c.flags with defunct := true } } :=
                  Function.update_self ..
                rw [hself, Option.bind_some, hs] at hy
                cases hy
            | exit =>
                have hself : ((v.grow g).depart c ru.stackFar .exit).tealets v.current =
                    some { c with flags := { c.flags with exited := true }, stack := none } :=
                  Function.update_self ..
                rw [hself] at hy
                cases hy
            | exitDelete =>
                have hself : ((v.grow g).depart c ru.stackFar .exitDelete).tealets v.current =
                    none :=
                  Function.update_self ..
                rw [hself] at hy
                cases hy
          · rw [depart_tealets_of_ne (v.grow g) c _ fate hxc] at hy
            exact .inl hy
      · intro _ y imy hy himy
        rw [hcur'] at hy
        obtain rfl := Option.some.inj (((stackOf_eq hu).trans hk).symm.trans hy)
        obtain rfl := Option.some.inj (him.symm.trans himy)
        refine ⟨hd, fun hsound x hx hxf => ?_⟩
        have hd' : im'.defunct = false := by
          refine hsound v leak u flags isExit allocs ru k im' H hC hu hk hcur
            (by rw [hg]; exact him') ?_
          intro im₂ h₂
          rwa [← Option.some.inj (him.symm.trans h₂)]
        obtain ⟨im₁, him₁, -, hsame, -⟩ := H.still (hg ▸ him') hd'
        obtain rfl := Option.some.inj (him.symm.trans him₁)
        rw [hmem]
        exact hsame.value x hx hxf
  | @start u c ru allocs g sp kf hC hc hnew hb hx hrd hq hk hfar hg hok hsp hst hcap =>
      obtain ⟨-, hs⟩ := S.current_of hc
      have hL : Left v ru.stackFar none ((v.grow g).save v.current c ru.stackFar sp kf) :=
        I.left_save H (fun _ _ h => by cases h) hg hok hsp
      have htc : u ≠ v.current := by
        rintro rfl
        cases (S.current_of hnew).1.bound
      refine hL.follows I (far_eq (Function.update_self ..)) ⟨v, _, hC, True.intro⟩
        (fun h => absurd h htc) (fun _ _ => rfl) (hkeep rfl) ?_ ?_
      · intro x y hy
        rcases stackOf_update (v := (v.grow g).save v.current c ru.stackFar sp kf) rfl hy with
          ⟨-, hy⟩ | ⟨-, hy⟩
        · rcases stackOf_update (v := v) rfl hy with ⟨-, hold⟩ | ⟨rfl, hnew'⟩
          · exact .inl hold
          · exact .inr ⟨(stackOf_eq hc).trans hs, Nat.le_of_eq (Option.some.inj hnew')⟩
        · rw [Option.bind_some, hk] at hy
          cases hy
      · intro _ y imy hy
        cases (stackOf_eq hnew).symm.trans hy
  | @capture u c ru allocs g sp kf hC hc hnew hb hx hrd hq hfar hg hok hsp hst hcap =>
      have htc : v.current ≠ u := by
        rintro rfl
        cases (S.current_of hnew).1.bound
      have hL : Left v c.stackFar none ((v.grow g).save u ru c.stackFar sp kf) :=
        I.left_save H (fun _ _ h => by cases h) hg hok hsp
      refine hL.follows I (far_eq ((Function.update_of_ne htc _ _).trans hc))
        ⟨v, _, hC, True.intro⟩ (fun _ => (far_eq hc).symm) (fun _ _ => rfl) (hkeep rfl) ?_
        fun hne => absurd rfl hne
      intro x y hy
      rcases stackOf_update (v := v) rfl hy with ⟨-, hold⟩ | ⟨rfl, hself⟩
      · exact .inl hold
      · exact .inr ⟨stackOf_eq hnew, Nat.le_of_eq (Option.some.inj hself)⟩

/-! ## Paths -/

theorem Keeps.follows (K : Keeps C v v₁) (L : Held v v₁) (H : Core leak v) (H₁ : Core leak v₁)
    (hm : v₁.mem = v.mem) (hgone : ∀ t, v₁.tealets t = none → v'.tealets t = none)
    (hrun : v'.tealets v'.current ≠ none) (F : Follows C v₁ v') : Follows C v v' := by
  refine ⟨?_, ?_, ?_, fun h => F.moved (K.current ▸ h), ?_⟩
  · intro k im' hk him' hd
    obtain ⟨im₁, him₁, hd₁, hs₁, ht₁⟩ := F.old k im' (K.nextStack ▸ hk) him' hd
    obtain ⟨im, him, hd₀, hs, ht⟩ := K.image k im₁ him₁ hd₁
    refine ⟨im, him, hd₀, hs.trans hs₁, fun hP => ?_⟩
    rw [← ht hP, ← hs.far, ← K.current]
    exact ht₁ hP
  · intro k im' hk him'
    rw [← hm]
    exact F.new k im' (K.nextStack ▸ hk) him'
  · intro t k hk
    rcases F.stack t k hk with h | ⟨hnone, hle, hjump⟩ | ⟨ht, w, u, hw, hu⟩
    · exact (K.stack t k h).imp_right .inr
    · refine .inr (.inl ⟨?_, K.nextStack ▸ hle, hjump⟩)
      cases hs : v.stackOf t with
      | none => rfl
      | some y =>
          exfalso
          have hlt := H.stackOf_lt hs
          rcases L.stack t y hlt hs with h | h
          · obtain ⟨r, hr, -⟩ := tealets_of_stackOf hk
            rw [hgone t h] at hr
            cases hr
          · rw [hnone] at h
            cases h
    · refine .inr (.inr ⟨Nat.le_trans L.nextTealet ht, ?_⟩)
      rcases K.stack u k hu with hu | ⟨-, hdup⟩
      · exact ⟨w, u, hw, hu⟩
      · exact hdup
  · intro hcur k im hk him
    rw [← K.current] at hcur
    have hk₁ : v₁.stackOf v'.current = some k := by
      rcases L.stack _ k (H.stackOf_lt hk) hk with hn | hk₁
      · exact absurd (hgone _ hn) hrun
      · exact hk₁
    obtain ⟨im₁, him₁⟩ := H₁.img_of_stackOf hk₁
    obtain ⟨hd₁, hres⟩ := F.resumed hcur k im₁ hk₁ him₁
    obtain ⟨im₀, him₀, hd₀, hs, -⟩ := K.image k im₁ him₁ hd₁
    obtain rfl := Option.some.inj (him.symm.trans him₀)
    refine ⟨hd₀, fun hsound x hx hf => ?_⟩
    rw [hres hsound x (hs.near ▸ hx) (hs.far ▸ hf), hs.value x hx hf]

/-- No jump. -/
theorem Keeps.follows_self (K : Keeps C v v') (H' : Core leak v') (I' : Isolated v') :
    Follows C v v' := by
  refine ⟨?_, ?_, fun t k hk => (K.stack t k hk).imp_right .inr, fun hne => absurd K.current hne,
    fun hne => absurd K.current hne⟩
  · intro k im' _ him' hd
    obtain ⟨im, him, hd₀, hs, ht⟩ := K.image k im' him' hd
    refine ⟨im, him, hd₀, hs, fun hP => ⟨?_, fun _ => ht hP⟩⟩
    have hc := I'.clear.image_covers him' hd id
    unfold Image.Covers at hc
    rw [← ht hP, ← hs.far]
    omega
  · intro k im' hk him'
    exact absurd (H'.lt_nextStack him') (Nat.not_lt_of_le (K.nextStack ▸ hk))

theorem Jump.label (h : Jump C True v v') : ∃ w l, C w l ∧ l.Jumps w := by
  cases h with
  | xfer hC hc hr ht => exact ⟨v, _, hC, ht⟩
  | start hC => exact ⟨v, _, hC, True.intro⟩
  | capture hC => exact ⟨v, _, hC, True.intro⟩

/-- A tealet that does not run then keeps its stack until it is freed. -/
structure Lasting (v v' : View) : Prop where
  stack : ∀ t k, t ≠ v'.current → v.stackOf t = some k →
    v'.tealets t = none ∨ v'.stackOf t = some k
  gone : ∀ t, t < v.nextTealet → v.tealets t = none → v'.tealets t = none
  nextTealet : v.nextTealet ≤ v'.nextTealet

theorem Jump.stack (h : Jump C True v v') (S : Sched v) (ht : t ≠ v'.current)
    (hk : v.stackOf t = some k) : v'.stackOf t = some k := by
  have htc : t ≠ v.current := by
    rintro rfl
    obtain ⟨c, hc, -, hs⟩ := S.running
    cases ((stackOf_eq hc).trans hs).symm.trans hk
  cases h with
  | @xfer u c ru y im im' flags isExit allocs g fate sp kf hC hc hu hcur hx hrd hy him hd hg hfate
      him' hsp hexit hkf hpanic hstrict =>
      rw [settle_of_unstarted (hstrict True.intro)] at ht ⊢
      have ht : t ≠ u := ht
      rw [View.stackOf, restore_tealets_of_ne ht, depart_tealets_of_ne (v.grow g) c _ fate htc]
      exact hk
  | start =>
      refine Eq.trans (congrArg (Option.bind · TealetSub.stack) ?_) hk
      exact (Function.update_of_ne ht _ _).trans (Function.update_of_ne htc _ _)
  | @capture u c ru allocs g sp kf hC hc hnew =>
      refine Eq.trans (congrArg (Option.bind · TealetSub.stack) (Function.update_of_ne ?_ _ _)) hk
      rintro rfl
      cases (stackOf_eq hnew).symm.trans hk

theorem Held.lasting (L : Held v v₁) (H : Core leak v) (S₁ : Sched v₁) (h : Jump C True v₁ v') :
    Lasting v v' := by
  refine ⟨fun t k ht hk => ?_, fun t hlt hn => h.gone (L.gone t hlt hn),
    Nat.le_trans L.nextTealet h.nextTealet⟩
  rcases L.stack t k (H.stackOf_lt hk) hk with hn | hk₁
  · exact .inl (h.gone hn)
  · exact .inr (h.stack S₁ ht hk₁)

/-- User code writes or a call is made, not both. -/
theorem Path.follows (h : Path C True v v') (hC : Careful C)
    (hW : (∀ w, ¬ C w .write) ∨ ∀ w l, C w l → ¬ l.Jumps w)
    (H : Core (fun _ => 0) v) (S : Sched v) (I : Isolated v) :
    Isolated v' ∧ Follows C v v' ∧ Lasting v v' := by
  obtain ⟨v₁, hmoves, hor⟩ := h
  obtain ⟨H₁, S₁, I₁, K, L⟩ := Keeps.moves hmoves hC H S I
  rcases hor with rfl | hjump
  · exact ⟨I₁, K.follows_self H₁ I₁, fun t k _ hk => L.stack t k (H.stackOf_lt hk) hk, L.gone,
      L.nextTealet⟩
  · obtain ⟨w, l, hl, hj⟩ := hjump.label
    have hW := hW.resolve_right fun h => h w l hl hj
    obtain ⟨leak', H', S', -⟩ := hjump.good H₁ S₁
    obtain ⟨c, hc, -⟩ := S'.running
    refine ⟨hjump.isolated hC H₁ S₁ I₁, ?_, L.lasting H S₁ hjump⟩
    exact K.follows L H H₁ (K.mem hW) (fun t ht => hjump.gone ht) (by simp [hc])
      (hjump.follows H₁ S₁ I₁)

/-- Where the image of a suspended tealet comes from. -/
inductive Came (C : View → Label → Prop) (v v' : View) (t : TealetId) (k : StackId) (im' : Image) :
    Prop where
  | kept {im : Image} (hk : v.stackOf t = some k) (him : v.img k = some im)
      (hd : im.defunct = false) (hs : im.Same v.mem v'.mem im')
      (htop : Plentiful C → im'.top = max im.top (min im.far (v'.far v'.current)) ∧
        (v'.current = v.current → im'.top = im.top))
  | copied {w : View} {u : TealetId} {im : Image} (hnone : v.stackOf t = none)
      (hC : C w (.duplicate u)) (hk : v.stackOf u = some k) (him : v.img k = some im)
      (hd : im.defunct = false) (hs : im.Same v.mem v'.mem im')
      (htop : Plentiful C → v'.current = v.current → im'.top = im.top)
  | new {w : View} {l : Label} (hnone : v.stackOf t = none) (hC : C w l) (hj : l.Jumps w)
      (hlt : im'.near < im'.far)
      (hval : ∀ x, im'.near ≤ x → x < im'.far → im'.value v'.mem x = v.mem x)
      (htop : im'.top = max im'.near (min im'.far (v'.far v'.current)))

theorem Follows.came (F : Follows C v v') (H : Core leak v) (hk : v'.stackOf t = some k)
    (him' : v'.img k = some im') (hd : im'.defunct = false) : Came C v v' t k im' := by
  rcases F.stack t k hk with h | ⟨hnone, hle, w, l, hC, hj⟩ | ⟨ht, w, u, hC, hu⟩
  · obtain ⟨im₀, him₀⟩ := H.img_of_stackOf h
    obtain ⟨im, him, hd₀, hs, htop⟩ := F.old k im' (H.lt_nextStack him₀) him' hd
    exact .kept h him hd₀ hs htop
  · obtain ⟨-, hlt, hval, htop⟩ := F.new k im' hle him'
    exact .new hnone hC hj hlt hval htop
  · obtain ⟨im₀, him₀⟩ := H.img_of_stackOf hu
    obtain ⟨im, him, hd₀, hs, htop⟩ := F.old k im' (H.lt_nextStack him₀) him' hd
    refine .copied ?_ hC hu him hd₀ hs fun hP => (htop hP).2
    rw [View.stackOf, H.fresh t ht]
    rfl

end Jumps

/-! ## When every allocation succeeds -/

/-- No image was lost. -/
def View.Whole (v : View) : Prop := ∀ k im, v.img k = some im → im.defunct = false

section Whole

variable {leak : StackId → Nat} {C : View → Label → Prop} {v v' : View} {target : Option StackId}
  {F : Nat} {failOk : Bool} {allocs : List Bool}

theorem Plentiful.sound (hP : Plentiful C) : Sound C := by
  intro v leak t flags isExit allocs r k im' _ hC hr hk ht him' hd
  obtain ⟨im, him, heq⟩ := (growList_plenty (hP v _ hC ht)).unspoiled k im' him'
  exact heq.trans (hd im him)

/-- With enough memory only main's boundary and captures need care. -/
theorem Plentiful.careful (hP : Plentiful C)
    (hfar : ∀ v far, C v (.setFar far) → ∀ t, t ≠ mainId → v.tealets t = none)
    (hcap : ∀ v t far allocs, C v (.capture t far allocs) → far ≤ v.far v.current) : Careful C := by
  refine ⟨fun v far h => .inl (hfar v far h),
    fun v t far allocs h _ => .inl (hcap v t far allocs h), ?_⟩
  intro v t flags allocs r _ hC hr ht _ _ hal
  have hA : Affords v.img (v.growth r.stack r.stackFar true allocs) :=
    growList_plenty (hP v _ hC ht)
  have hok := (nextAlloc_plenty hA.allocs).1
  rw [hal] at hok
  cases hok

theorem View.Whole.grow (W : v.Whole) (h : ∀ ok ∈ allocs, ok = true) :
    (v.grow (v.growth target F failOk allocs)).Whole := by
  intro k im' him'
  obtain ⟨im, him, heq⟩ := (growList_plenty h).unspoiled k im' him'
  exact heq.trans (W k im him)

theorem View.Whole.release (W : v.Whole) {k : StackId} {im : Image} (him : v.img k = some im) :
    (v.release k im).Whole := by
  intro x im' h
  obtain ⟨im₀, h₀, ⟨-, rfl⟩ | ⟨-, -, rfl, rfl⟩⟩ := img_of_release him h
  · exact W x _ h₀
  · exact W x im₀ h₀

theorem View.Whole.save (W : v.Whole) {t : TealetId} {r : TealetSub} {sp : Nat} {kf : Frame} :
    (v.save t r F sp kf).Whole := by
  intro x im' h
  have h : Function.update v.img v.nextStack (some (Image.capture v.mem sp r.stackFar F kf)) x =
      some im' := h
  by_cases hx : x = v.nextStack
  · subst hx
    rw [Function.update_self] at h
    cases h
    rfl
  · rw [Function.update_of_ne hx] at h
    exact W x im' h

theorem View.Whole.depart (W : v.Whole) {c : TealetSub} {fate : Fate} :
    (v.depart c F fate).Whole := by
  cases fate with
  | suspend => exact W.save
  | _ => exact W

theorem Small.whole (h : Small C v v') (hP : Plentiful C) (W : v.Whole) : v'.Whole := by
  cases h with
  | @dupShared u ru k im hC hu hcur hmain hs him =>
      intro x im' h
      have h : Function.update v.img k (some { im with refcount := im.refcount + 1 }) x =
          some im' := h
      by_cases hx : x = k
      · subst hx
        rw [Function.update_self] at h
        cases h
        exact W x im him
      · rw [Function.update_of_ne hx] at h
        exact W x im' h
  | deleteSaved hC hu hcur hmain hs him => exact W.release him
  | stallXfer hC hc hu hcur => exact W.grow (hP _ _ hC hcur)
  | stallStart hC => exact W.grow (hP _ _ hC True.intro)
  | stallCapture hC => exact W.grow (hP _ _ hC True.intro)
  | _ => exact W

theorem Jump.whole (h : Jump C True v v') (H : Core leak v) (hP : Plentiful C) (W : v.Whole) :
    v'.Whole := by
  cases h with
  | @xfer u c ru k im im' flags isExit allocs g fate sp kf hC hc hu hcur hx hrd hk him hd hg hfate
      him' hsp hexit hkf hpanic hstrict =>
      have hWg : (v.grow g).Whole := hg ▸ W.grow (hP _ _ hC hcur)
      have himd : ((v.grow g).depart c ru.stackFar fate).img k = some im' :=
        (depart_img_of_ne (v.grow g) c _ fate (Nat.ne_of_lt (H.lt_nextStack him))).trans him'
      rw [settle_of_unstarted (hstrict True.intro)]
      have hWm : View.Whole { (v.grow g).depart c ru.stackFar fate with
          mem := im'.value ((v.grow g).depart c ru.stackFar fate).mem } := hWg.depart
      exact hWm.release himd
  | @start u c ru allocs g sp kf hC hc hnew hb hx hrd hq hk hfar hg =>
      have hWg : (v.grow g).Whole := hg ▸ W.grow (hP _ _ hC True.intro)
      exact hWg.save (t := v.current)
  | @capture u c ru allocs g sp kf hC hc hnew hb hx hrd hq hfar hg =>
      have hWg : (v.grow g).Whole := hg ▸ W.grow (hP _ _ hC True.intro)
      exact hWg.save (t := u)

theorem Path.whole (h : Path C True v v') (hP : Plentiful C) (H : Core leak v) (S : Sched v)
    (W : v.Whole) : v'.Whole := by
  obtain ⟨v₁, hmoves, hor⟩ := h
  have hmid : Core leak v₁ ∧ Sched v₁ ∧ v₁.Whole := by
    clear hor
    induction hmoves with
    | refl => exact ⟨H, S, W⟩
    | tail _ hm ih =>
        obtain ⟨H₁, S₁⟩ := hm.good ih.1 ih.2.1
        exact ⟨H₁, S₁, hm.whole hP ih.2.2⟩
  rcases hor with rfl | hjump
  · exact hmid.2.2
  · exact hjump.whole hmid.1 hP hmid.2.2

end Whole

end Tealet
