import Tealet.Lib.Refs
import Tealet.View

/-!
# Who owns what

`Core leak v` is the invariant of the storage side of a view: records are
well formed, every saved stack that a record owns exists, reference counts
are the number of owners, and the list holds partial images only. `leak`
counts references without an owner: with `leak = fun _ => 0` the counts are
exact.

For each of the changes a move is made of there is one lemma that says it
keeps `Core`.
-/

namespace Tealet

open Slice Refs

/-- The suspended call is one a tealet can be resumed in. -/
def Frame.Resumable : Frame → Prop
  | .switch _ _ | .run .. | .fork .. => True
  | _ => False

def View.refs (v : View) (k : StackId) : Nat := holders v.stackOf v.nextTealet k

structure RecordOk (t : TealetId) (r : TealetSub) : Prop where
  quiet : r.flags.quiet = r.flags
  unbound : r.flags.bound = false → r = {}
  exited : r.flags.exited = true → r.stack = none
  far_le : r.stackFar ≤ spFurthest
  far_lt : t ≠ mainId → r.stackFar < spFurthest

/-- The call an image is suspended in started `child`, another tealet than
the owner; a capture belongs to the child itself. -/
structure StartedOk (v : View) (k : StackId) (im : Image) (child : TealetId) : Prop where
  notMain : child ≠ mainId
  known : child < v.nextTealet
  other : im.frame.isCapture = false → v.stackOf child ≠ some k

structure ImageOk (v : View) (k : StackId) (im : Image) : Prop where
  positive : 0 < im.refcount
  extent : im.near + im.data.length ≤ max im.near im.far
  far_le : im.far ≤ spFurthest
  unbounded : im.far = spFurthest → v.stackOf mainId = some k
  resumable : im.frame.Resumable
  started : ∀ child spawned, im.frame.started = some (child, spawned) → StartedOk v k im child
  ofMain : v.stackOf mainId = some k → im.refcount = 1 ∧ im.defunct = false ∧
    im.frame.isCapture = false

structure Core (leak : StackId → Nat) (v : View) : Prop where
  fresh : ∀ t, v.nextTealet ≤ t → v.tealets t = none
  mainKnown : mainId < v.nextTealet
  freshStack : ∀ k, v.nextStack ≤ k → v.img k = none ∧ leak k = 0
  record : ∀ t r, v.tealets t = some r → RecordOk t r
  owned : ∀ t r k, v.tealets t = some r → r.stack = some k →
    ∃ im, v.img k = some im ∧ (t ≠ mainId → im.far = r.stackFar)
  image : ∀ k im, v.img k = some im → ImageOk v k im
  counted : ∀ k im, v.img k = some im → v.refs k + leak k = im.refcount
  nodup : v.prev.Nodup
  listed : ∀ k ∈ v.prev, ∃ im, v.img k = some im ∧ im.defunct = false ∧ im.top < im.far

section Facts

variable {leak : StackId → Nat} {v : View} {t t' : TealetId} {r : TealetSub} {k : StackId}
  {im : Image}

theorem stackOf_eq (hr : v.tealets t = some r) : v.stackOf t = r.stack := by
  simp only [View.stackOf, hr, Option.bind_some]

theorem tealets_of_stackOf (h : v.stackOf t = some k) :
    ∃ r, v.tealets t = some r ∧ r.stack = some k :=
  Option.bind_eq_some_iff.mp h

theorem far_eq (hr : v.tealets t = some r) : v.far t = r.stackFar := by
  simp only [View.far, hr, Option.map_some, Option.getD_some]

theorem stackOf_setTealet (o : Option TealetSub) :
    (v.setTealet t o).stackOf = Function.update v.stackOf t (o.bind TealetSub.stack) := by
  funext x
  by_cases hx : x = t
  · subst hx
    simp [View.stackOf, View.setTealet]
  · simp [View.stackOf, View.setTealet, Function.update_of_ne hx]

theorem depart_tealets_of_ne (v : View) (c : TealetSub) (F : Nat) (fate : Fate) {t : TealetId}
    (ht : t ≠ v.current) : (v.depart c F fate).tealets t = v.tealets t := by
  cases fate <;> simp [View.depart, View.save, View.setTealet, Function.update_of_ne ht]

theorem depart_img_of_ne (v : View) (c : TealetSub) (F : Nat) (fate : Fate) {k : StackId}
    (hk : k ≠ v.nextStack) : (v.depart c F fate).img k = v.img k := by
  cases fate <;> simp [View.depart, View.save, View.setTealet, Function.update_of_ne hk]

theorem depart_mem (v : View) (c : TealetSub) (F : Nat) (fate : Fate) :
    (v.depart c F fate).mem = v.mem := by
  cases fate <;> rfl

theorem release_tealets (v : View) (k : StackId) (im : Image) :
    (v.release k im).tealets = v.tealets ∧ (v.release k im).nextTealet = v.nextTealet ∧
      (v.release k im).nextStack = v.nextStack ∧ (v.release k im).mem = v.mem ∧
      (v.release k im).current = v.current ∧ (v.release k im).live = v.live := by
  unfold View.release
  split <;> simp

namespace Core

variable (H : Core leak v)

include H

theorem lt_nextTealet (hr : v.tealets t = some r) : t < v.nextTealet := by
  refine Nat.lt_of_not_le fun hle => ?_
  rw [H.fresh t hle] at hr
  cases hr

theorem img_of_stackOf (h : v.stackOf t = some k) : ∃ im, v.img k = some im := by
  obtain ⟨r, hr, hk⟩ := tealets_of_stackOf h
  exact (H.owned t r k hr hk).imp fun _ h => h.1

theorem stackOf_lt (h : v.stackOf t = some k) : t < v.nextTealet := by
  obtain ⟨r, hr, -⟩ := tealets_of_stackOf h
  exact H.lt_nextTealet hr

theorem lt_nextStack (him : v.img k = some im) : k < v.nextStack := by
  refine Nat.lt_of_not_le fun hle => ?_
  rw [(H.freshStack k hle).1] at him
  cases him

theorem stackOf_ne_next : v.stackOf t ≠ some v.nextStack := by
  intro h
  obtain ⟨im, him⟩ := H.img_of_stackOf h
  exact Nat.lt_irrefl _ (H.lt_nextStack him)

/-- The only owner of an image whose count is 1. -/
theorem unique (him : v.img k = some im) (hle : im.refcount ≤ 1) (ht : v.stackOf t = some k)
    (ht' : v.stackOf t' = some k) : t = t' := by
  have hc := H.counted k im him
  rw [View.refs] at hc
  exact unique_of_holders_le_one (by omega) (H.stackOf_lt ht) (H.stackOf_lt ht') ht ht'

theorem ne_main_of_ne (hm : v.stackOf mainId = some k) (ht : t ≠ mainId) :
    v.stackOf t ≠ some k := by
  intro hk
  obtain ⟨im, him⟩ := H.img_of_stackOf hm
  obtain ⟨href, -⟩ := (H.image k im him).ofMain hm
  exact ht (H.unique him (Nat.le_of_eq href) hk hm)

end Core

end Facts

/-! ## Changing a record -/

section Records

variable {leak : StackId → Nat} {v : View} {t : TealetId} {r r' : TealetSub} {k : StackId}
  {im : Image}

theorem ImageOk.congr {v v' : View} (h : ImageOk v k im) (hn : v.nextTealet ≤ v'.nextTealet)
    (hm : v'.stackOf mainId = some k ↔ v.stackOf mainId = some k)
    (hs : ∀ t < v.nextTealet, v'.stackOf t = some k → v.stackOf t = some k) : ImageOk v' k im where
  positive := h.positive
  extent := h.extent
  far_le := h.far_le
  unbounded hf := hm.mpr (h.unbounded hf)
  resumable := h.resumable
  started child spawned hst :=
    have h' := h.started child spawned hst
    ⟨h'.notMain, Nat.lt_of_lt_of_le h'.known hn,
      fun hc hk => h'.other hc (hs child h'.known hk)⟩
  ofMain h' := h.ofMain (hm.mp h')

/-- `Core` reads neither memory nor who runs. -/
theorem Core.goto (H : Core leak v) (m : Memory) (c l : TealetId) :
    Core leak { v with mem := m, current := c, live := l } :=
  ⟨H.fresh, H.mainKnown, H.freshStack, H.record, H.owned,
    fun k im him => (H.image k im him).congr (Nat.le_refl _) Iff.rfl fun _ _ h => h, H.counted,
    H.nodup, H.listed⟩

/-- A record changes, but not its stack, nor the boundary of a saved one. -/
theorem Core.setRecord (H : Core leak v) (hr : v.tealets t = some r) (hok : RecordOk t r')
    (hs : r'.stack = r.stack) (hf : ∀ k, r.stack = some k → t ≠ mainId → r'.stackFar = r.stackFar) :
    Core leak (v.setTealet t (some r')) := by
  have hstack : (v.setTealet t (some r')).stackOf = v.stackOf := by
    rw [stackOf_setTealet, Option.bind_some, hs, ← stackOf_eq hr, Function.update_eq_self]
  have hlook : ∀ x rx, (v.setTealet t (some r')).tealets x = some rx →
      (x = t ∧ rx = r') ∨ (x ≠ t ∧ v.tealets x = some rx) := by
    intro x rx hx
    by_cases hxt : x = t
    · subst hxt
      exact .inl ⟨rfl, by simpa [View.setTealet] using hx.symm⟩
    · exact .inr ⟨hxt, by simpa [View.setTealet, Function.update_of_ne hxt] using hx⟩
  refine ⟨?_, H.mainKnown, H.freshStack, ?_, ?_, ?_, ?_, H.nodup, H.listed⟩
  · intro x hx
    have hxt : x ≠ t := by
      rintro rfl
      rw [H.fresh x hx] at hr
      cases hr
    simpa [View.setTealet, Function.update_of_ne hxt] using H.fresh x hx
  · intro x rx hx
    rcases hlook x rx hx with ⟨rfl, rfl⟩ | ⟨-, hx⟩
    · exact hok
    · exact H.record x rx hx
  · intro x rx k hx hk
    rcases hlook x rx hx with ⟨rfl, rfl⟩ | ⟨-, hx⟩
    · obtain ⟨im, him, hfar⟩ := H.owned x r k hr (hs.symm.trans hk)
      exact ⟨im, him, fun hm => (hfar hm).trans (hf k (hs.symm.trans hk) hm).symm⟩
    · exact H.owned x rx k hx hk
  · intro k im him
    exact (H.image k im him).congr (Nat.le_refl _) (by rw [hstack]) (by simp [hstack])
  · intro k im him
    rw [View.refs, hstack]
    exact H.counted k im him

/-- A record without a stack is freed. -/
theorem Core.free (H : Core leak v) (hr : v.tealets t = some r) (hm : t ≠ mainId)
    (hs : r.stack = none) : Core leak (v.setTealet t none) := by
  have hstack : (v.setTealet t none).stackOf = v.stackOf := by
    rw [stackOf_setTealet, Option.bind_none, ← hs, ← stackOf_eq hr, Function.update_eq_self]
  have hlook : ∀ x rx, (v.setTealet t none).tealets x = some rx → v.tealets x = some rx := by
    intro x rx hx
    by_cases hxt : x = t
    · subst hxt
      simp [View.setTealet] at hx
    · simpa [View.setTealet, Function.update_of_ne hxt] using hx
  refine ⟨?_, H.mainKnown, H.freshStack, fun x rx hx => H.record x rx (hlook x rx hx),
    fun x rx k hx => H.owned x rx k (hlook x rx hx), ?_, ?_, H.nodup, H.listed⟩
  · intro x hx
    by_cases hxt : x = t
    · subst hxt
      simp [View.setTealet]
    · simpa [View.setTealet, Function.update_of_ne hxt] using H.fresh x hx
  · intro k im him
    exact (H.image k im him).congr (Nat.le_refl _) (by rw [hstack]) (by simp [hstack])
  · intro k im him
    rw [View.refs, hstack]
    exact H.counted k im him

/-- A new record: without a stack, or a second owner of an image. -/
theorem Core.push (H : Core leak v) (hok : RecordOk v.nextTealet r) {img : Images}
    (hold : ∀ x, r.stack ≠ some x → img x = v.img x)
    (hnew : ∀ k, r.stack = some k → k ≠ v.nextStack ∧ v.stackOf mainId ≠ some k ∧
      ∃ im, v.img k = some im ∧ im.far = r.stackFar ∧
        img k = some { im with refcount := im.refcount + 1 }) :
    Core leak { v with
      tealets := Function.update v.tealets v.nextTealet (some r)
      nextTealet := v.nextTealet + 1
      img := img } := by
  have hnone : v.tealets v.nextTealet = none := H.fresh _ (Nat.le_refl _)
  have hmain : mainId ≠ v.nextTealet := Nat.ne_of_lt H.mainKnown
  have hne : ∀ x < v.nextTealet, x ≠ v.nextTealet := fun x hx => Nat.ne_of_lt hx
  obtain ⟨v', hv'⟩ : ∃ v' : View, v' = { v with
      tealets := Function.update v.tealets v.nextTealet (some r)
      nextTealet := v.nextTealet + 1
      img := img } := ⟨_, rfl⟩
  have hstack : v'.stackOf = Function.update v.stackOf v.nextTealet r.stack := by
    rw [hv']
    exact stackOf_setTealet (v := v) (some r)
  -- the images, old and new
  have hlook : ∀ k im', img k = some im' → ∃ im, v.img k = some im ∧
      im' = { im with refcount := im.refcount + if r.stack = some k then 1 else 0 } := by
    intro k im' him'
    by_cases hk : r.stack = some k
    · obtain ⟨-, -, im, him, -, himg⟩ := hnew k hk
      rw [himg] at him'
      obtain rfl := Option.some.inj him'
      exact ⟨im, him, by rw [if_pos hk]⟩
    · rw [hold k hk] at him'
      exact ⟨im', him', by rw [if_neg hk]; rfl⟩
  have hkeep : ∀ k im, v.img k = some im → ∃ im', img k = some im' ∧ im'.far = im.far ∧
      im'.defunct = im.defunct ∧ im'.top = im.top := by
    intro k im him
    by_cases hk : r.stack = some k
    · obtain ⟨-, -, im₁, him₁, -, himg⟩ := hnew k hk
      obtain rfl := Option.some.inj (him₁.symm.trans him)
      exact ⟨_, himg, rfl, rfl, rfl⟩
    · exact ⟨im, (hold k hk).trans him, rfl, rfl, rfl⟩
  rw [← hv']
  have hrecs : ∀ x rx, v'.tealets x = some rx → (x = v.nextTealet ∧ rx = r) ∨
      (x < v.nextTealet ∧ v.tealets x = some rx) := by
    intro x rx hx
    rw [hv'] at hx
    by_cases hxt : x = v.nextTealet
    · subst hxt
      exact .inl ⟨rfl, by simpa using hx.symm⟩
    · have hx' : v.tealets x = some rx := by simpa [Function.update_of_ne hxt] using hx
      exact .inr ⟨H.lt_nextTealet hx', hx'⟩
  refine ⟨?_, ?_, ?_, ?_, ?_, ?_, ?_, ?_, ?_⟩
  · intro x hx
    rw [hv'] at hx ⊢
    have hxt : x ≠ v.nextTealet := Nat.ne_of_gt hx
    simpa [Function.update_of_ne hxt] using H.fresh x (Nat.le_of_succ_le hx)
  · rw [hv']
    exact Nat.lt_succ_of_lt H.mainKnown
  · intro k hk
    rw [hv'] at hk ⊢
    refine ⟨?_, (H.freshStack k hk).2⟩
    by_cases hrk : r.stack = some k
    · obtain ⟨-, -, im, him, -⟩ := hnew k hrk
      exact absurd (H.lt_nextStack him) (Nat.not_lt_of_le hk)
    · exact (hold k hrk).trans (H.freshStack k hk).1
  · intro x rx hx
    rcases hrecs x rx hx with ⟨rfl, rfl⟩ | ⟨-, hx⟩
    · exact hok
    · exact H.record x rx hx
  · intro x rx k hx hk
    rw [hv']
    rcases hrecs x rx hx with ⟨rfl, rfl⟩ | ⟨-, hx⟩
    · obtain ⟨-, -, im, him, hfar, himg⟩ := hnew k hk
      exact ⟨_, himg, fun _ => hfar⟩
    · obtain ⟨im, him, hfar⟩ := H.owned x rx k hx hk
      obtain ⟨im', him', hf, -, -⟩ := hkeep k im him
      exact ⟨im', him', fun hm => hf.trans (hfar hm)⟩
  · intro k im' him'
    rw [hv'] at him'
    obtain ⟨im, him, rfl⟩ := hlook k im' him'
    have hI := H.image k im him
    have hI' : ImageOk v' k im := by
      refine hI.congr (by rw [hv']; exact Nat.le_succ _) ?_ ?_
      · rw [hstack, Function.update_of_ne hmain]
      · intro x hx hk
        rwa [hstack, Function.update_of_ne (hne x hx)] at hk
    refine ⟨Nat.lt_of_lt_of_le hI.positive (Nat.le_add_right _ _), hI.extent, hI.far_le,
      hI'.unbounded, hI.resumable, ?_, ?_⟩
    · intro child spawned hst
      have h := hI'.started child spawned hst
      exact ⟨h.notMain, h.known, h.other⟩
    · intro hm
      obtain ⟨h₁, h₂, h₃⟩ := hI'.ofMain hm
      have hno : r.stack ≠ some k := by
        intro hk
        rw [hstack, Function.update_of_ne hmain] at hm
        exact (hnew k hk).2.1 hm
      rw [if_neg hno]
      exact ⟨h₁, h₂, h₃⟩
  · intro k im' him'
    rw [hv'] at him'
    obtain ⟨im, him, rfl⟩ := hlook k im' him'
    have hc := H.counted k im him
    have hpush : v'.refs k = v.refs k + if r.stack = some k then 1 else 0 := by
      rw [View.refs, hstack, show v'.nextTealet = v.nextTealet + 1 by rw [hv']]
      exact holders_push (by simp [View.stackOf, hnone])
    rw [hpush]
    dsimp only
    omega
  · rw [hv']
    exact H.nodup
  · intro k hk
    rw [hv'] at hk ⊢
    obtain ⟨im, him, hd, htop⟩ := H.listed k hk
    obtain ⟨im', him', hf, hd', ht'⟩ := hkeep k im him
    exact ⟨im', him', hd'.trans hd, by rw [hf, ht']; exact htop⟩

end Records

/-! ## Releasing an image -/

section Release

variable {leak : StackId → Nat} {v : View} {t : TealetId} {r : TealetSub} {k : StackId}
  {im : Image} {o : Option TealetSub}

theorem release_img : (v.release k im).img = Function.update v.img k
    (if im.refcount ≤ 1 then none else some { im with refcount := im.refcount - 1 }) := by
  unfold View.release
  split <;> rfl

theorem release_prev :
    (v.release k im).prev = if im.refcount ≤ 1 then v.prev.erase k else v.prev := by
  unfold View.release
  split <;> rfl

theorem release_sublist (v : View) (k : StackId) (im : Image) :
    (v.release k im).prev.Sublist v.prev := by
  rw [release_prev]
  split
  · exact List.erase_sublist
  · exact .refl _

/-- What is left of an image was there before. -/
theorem img_of_release {x : StackId} {im' : Image} (him : v.img k = some im)
    (h : (v.release k im).img x = some im') :
    ∃ im₀, v.img x = some im₀ ∧ (x ≠ k ∧ im' = im₀ ∨
      x = k ∧ 1 < im.refcount ∧ im₀ = im ∧ im' = { im with refcount := im.refcount - 1 }) := by
  rw [release_img] at h
  by_cases hx : x = k
  · subst hx
    rw [Function.update_self] at h
    split at h
    · cases h
    · rename_i hle
      exact ⟨im, him, .inr ⟨rfl, Nat.lt_of_not_le hle, rfl, (Option.some.inj h).symm⟩⟩
  · rw [Function.update_of_ne hx] at h
    exact ⟨im', h, .inl ⟨hx, rfl⟩⟩

/-- An owner gives up its stack; `o` is what becomes of its record. -/
theorem Core.release (H : Core leak v) (hr : v.tealets t = some r) (hk : r.stack = some k)
    (him : v.img k = some im) (hnone : o = none → t ≠ mainId)
    (hsome : ∀ r', o = some r' → RecordOk t r' ∧ r'.stack = none) :
    Core leak ((v.release k im).setTealet t o) := by
  have hkt : v.stackOf t = some k := (stackOf_eq hr).trans hk
  have ht : t < v.nextTealet := H.lt_nextTealet hr
  obtain ⟨v', hv'⟩ : ∃ v', v' = (v.release k im).setTealet t o := ⟨_, rfl⟩
  have htealets : v'.tealets = Function.update v.tealets t o := by
    rw [hv', View.release]
    split <;> rfl
  have hnext : v'.nextTealet = v.nextTealet := by
    rw [hv', View.release]
    split <;> rfl
  have hnextS : v'.nextStack = v.nextStack := by
    rw [hv', View.release]
    split <;> rfl
  have himg : v'.img = (v.release k im).img := by rw [hv']; rfl
  have hprev : v'.prev = (v.release k im).prev := by rw [hv']; rfl
  have hbind : o.bind TealetSub.stack = none := by
    cases o with
    | none => rfl
    | some r' => exact (hsome r' rfl).2
  have hstack : v'.stackOf = Function.update v.stackOf t none := by
    rw [hv', stackOf_setTealet, hbind]
    congr 1
    rw [View.release]
    split <;> rfl
  have hkeep : ∀ x y, v'.stackOf x = some y → x ≠ t ∧ v.stackOf x = some y := by
    intro x y hxy
    rw [hstack] at hxy
    by_cases hx : x = t
    · subst hx
      simp at hxy
    · exact ⟨hx, by rwa [Function.update_of_ne hx] at hxy⟩
  have hmain : ∀ y, y ≠ k → (v'.stackOf mainId = some y ↔ v.stackOf mainId = some y) := by
    intro y hy
    refine ⟨fun h => (hkeep _ _ h).2, fun h => ?_⟩
    have hne : mainId ≠ t := by
      rintro rfl
      exact hy (Option.some.inj (h.symm.trans hkt))
    rwa [hstack, Function.update_of_ne hne]
  have hnotMain : 1 < im.refcount → v.stackOf mainId ≠ some k := fun hlt hm =>
    Nat.ne_of_gt hlt ((H.image k im him).ofMain hm).1
  rw [← hv']
  refine ⟨?_, hnext ▸ H.mainKnown, ?_, ?_, ?_, ?_, ?_, ?_, ?_⟩
  · intro x hx
    rw [hnext] at hx
    have hxt : x ≠ t := fun h => Nat.not_lt_of_le hx (h ▸ ht)
    rw [htealets, Function.update_of_ne hxt]
    exact H.fresh x hx
  · intro x hx
    rw [hnextS] at hx
    have hxk : x ≠ k := fun h => Nat.not_lt_of_le hx (h ▸ H.lt_nextStack him)
    rw [himg, release_img, Function.update_of_ne hxk]
    exact H.freshStack x hx
  · intro x rx hx
    rw [htealets] at hx
    by_cases hxt : x = t
    · subst hxt
      rw [Function.update_self] at hx
      exact (hsome rx hx).1
    · rw [Function.update_of_ne hxt] at hx
      exact H.record x rx hx
  · intro x rx y hx hy
    obtain ⟨hxt, hxy⟩ := hkeep x y ((stackOf_eq hx).trans hy)
    rw [htealets, Function.update_of_ne hxt] at hx
    obtain ⟨imy, himy, hfar⟩ := H.owned x rx y hx hy
    rw [himg, release_img]
    by_cases hyk : y = k
    · subst hyk
      obtain rfl := Option.some.inj (him.symm.trans himy)
      rw [Function.update_self]
      have hlt : ¬ im.refcount ≤ 1 := fun hle => hxt (H.unique him hle hxy hkt)
      rw [if_neg hlt]
      exact ⟨_, rfl, hfar⟩
    · rw [Function.update_of_ne hyk]
      exact ⟨imy, himy, hfar⟩
  · intro y im' him'
    rw [himg] at him'
    obtain ⟨im₀, him₀, ⟨hy, rfl⟩ | ⟨rfl, hlt, rfl, rfl⟩⟩ := img_of_release him him'
    · exact (H.image y _ him₀).congr (Nat.le_of_eq hnext.symm) (hmain y hy)
        fun x _ h => (hkeep x y h).2
    · have hI := H.image y _ him₀
      have hno := hnotMain hlt
      refine ⟨Nat.sub_pos_of_lt hlt, hI.extent, hI.far_le,
        fun hf => absurd (hI.unbounded hf) hno, hI.resumable, ?_,
        fun hm => absurd (hkeep _ _ hm).2 hno⟩
      intro child spawned hst
      have h := hI.started child spawned hst
      exact ⟨h.notMain, hnext ▸ h.known, fun hc hx => h.other hc (hkeep _ _ hx).2⟩
  · intro y im' him'
    rw [himg] at him'
    have hbal := holders_update (f := v.stackOf) (o := none) (k := y) ht
    rw [← hstack, hkt] at hbal
    rw [View.refs, hnext]
    obtain ⟨im₀, him₀, ⟨hy, rfl⟩ | ⟨rfl, hlt, rfl, rfl⟩⟩ := img_of_release him him'
    · have hc := H.counted y _ him₀
      have hky : ¬ some k = some y := fun h => hy (Option.some.inj h).symm
      rw [if_neg hky] at hbal
      rw [View.refs] at hc
      simp only [reduceCtorEq, if_false] at hbal
      omega
    · have hc := H.counted y _ him₀
      rw [View.refs] at hc
      simp only [reduceCtorEq, if_false, if_true] at hbal
      dsimp only
      omega
  · rw [hprev, release_prev]
    split
    · exact H.nodup.erase k
    · exact H.nodup
  · intro y hy
    rw [hprev, release_prev] at hy
    rw [himg, release_img]
    by_cases hyk : y = k
    · subst hyk
      split at hy
      · exact absurd hy (List.Nodup.not_mem_erase H.nodup)
      · rename_i hle
        obtain ⟨im₀, him₀, hd, htop⟩ := H.listed y hy
        obtain rfl := Option.some.inj (him.symm.trans him₀)
        rw [Function.update_self, if_neg hle]
        exact ⟨_, rfl, hd, htop⟩
    · rw [Function.update_of_ne hyk]
      refine H.listed y ?_
      split at hy
      · exact List.mem_of_mem_erase hy
      · exact hy

end Release

/-! ## Growing and saving -/

section Save

variable {leak : StackId → Nat} {v : View} {t : TealetId} {r : TealetSub} {k : StackId}
  {im : Image} {F sp : Nat} {kf : Frame}

theorem Core.growSplit (H : Core leak v) (target : Option StackId) (F : Nat) (failOk : Bool)
    (allocs : List Bool) : ∃ pre post, GrowSplit v.mem (v.stackOf mainId) target F failOk v.prev
      v.img (v.growth target F failOk allocs) pre post :=
  growList_split H.nodup fun k hk => (H.listed k hk).imp fun _ h => h.1

/-- The images before and after a growth. -/
theorem Core.grown (H : Core leak v) {target : Option StackId} {F : Nat} {failOk : Bool}
    {allocs : List Bool} {im' : Image} (h : (v.growth target F failOk allocs).img k = some im') :
    ∃ im, v.img k = some im ∧ im.Kept im' ∧ (im' = im ∨ k ∈ v.prev ∧ im.defunct = false ∧
      im.Grew v.mem F (failOk || decide (v.stackOf mainId = some k)) im') := by
  cases him : v.img k with
  | none =>
      rw [View.growth_none him] at h
      cases h
  | some im =>
      obtain ⟨pre, post, S⟩ := H.growSplit target F failOk allocs
      obtain ⟨im₁, h₁, hor⟩ := S.changed him
      obtain rfl := Option.some.inj (h₁.symm.trans h)
      refine ⟨im, rfl, ?_, ?_⟩
      · rcases hor with rfl | ⟨-, hg⟩
        · exact .refl _
        · exact hg.kept
      · rcases hor with rfl | ⟨hm, hg⟩
        · exact .inl rfl
        · obtain ⟨im₀, him₀, hd, -⟩ := H.listed k hm
          obtain rfl := Option.some.inj (him₀.symm.trans him)
          exact .inr ⟨hm, hd, hg⟩

theorem Core.grow (H : Core leak v) (target : Option StackId) (F : Nat) (failOk : Bool)
    (allocs : List Bool) : Core leak (v.grow (v.growth target F failOk allocs)) := by
  obtain ⟨pre, post, S⟩ := H.growSplit target F failOk allocs
  refine ⟨H.fresh, H.mainKnown, ?_, H.record, ?_, ?_, ?_, S.keep_sublist.nodup H.nodup,
    fun x hx => S.listed H.nodup H.listed hx⟩
  · intro x hx
    exact ⟨growList_none (H.freshStack x hx).1, (H.freshStack x hx).2⟩
  · intro x rx y hx hy
    obtain ⟨imy, himy, hfar⟩ := H.owned x rx y hx hy
    obtain ⟨im', him', hor⟩ := S.changed himy
    have hkept : imy.Kept im' := by
      rcases hor with rfl | ⟨-, hg⟩
      · exact .refl _
      · exact hg.kept
    exact ⟨im', him', fun hm => hkept.far.trans (hfar hm)⟩
  · intro y im' him'
    obtain ⟨im, him, hkept, hor⟩ := H.grown him'
    have hI := H.image y im him
    refine ⟨hkept.refcount ▸ hI.positive, ?_, hkept.far ▸ hI.far_le,
      fun hf => hI.unbounded (hkept.far ▸ hf),
      hkept.frame ▸ hI.resumable, ?_, ?_⟩
    · rcases hor with rfl | ⟨-, hd, hg⟩
      · exact hI.extent
      · exact hg.extent hd hI.extent
    · intro child spawned hst
      have h := hI.started child spawned (hkept.frame ▸ hst)
      exact ⟨h.notMain, h.known, fun hc => h.other (hkept.frame ▸ hc)⟩
    · intro hm
      have hm' : v.stackOf mainId = some y := hm
      obtain ⟨h₁, h₂, h₃⟩ := hI.ofMain hm'
      refine ⟨hkept.refcount.trans h₁, ?_, hkept.frame ▸ h₃⟩
      rcases hor with rfl | ⟨-, hd, hg⟩
      · exact h₂
      · exact hg.defunct_of_stop (by simp [hm']) hd
  · intro y im' him'
    obtain ⟨im, him, hkept, -⟩ := H.grown him'
    exact (H.counted y im him).trans hkept.refcount.symm

theorem capture_top (m : Memory) (near far F : Nat) (k : Frame) :
    (Image.capture m near far F k).top = max near (min far F) := by
  rw [Image.top_of_not_defunct rfl]
  simp only [Image.capture, Image.data, List.flatten_nil, List.append_nil, readSlice_length]
  omega

/-- The tealet `t`, without a stack so far, gets a new image. -/
theorem Core.save {r₀ : TealetSub} (H : Core leak v) (hr₀ : v.tealets t = some r₀)
    (hnone : r₀.stack = none) (hok : RecordOk t { r with stack := some v.nextStack })
    (hsp : sp < r.stackFar) (hres : kf.Resumable)
    (hst : ∀ child spawned, kf.started = some (child, spawned) →
      child ≠ mainId ∧ child < v.nextTealet ∧ (kf.isCapture = false → child ≠ t))
    (hcap : t = mainId → kf.isCapture = false) : Core leak (v.save t r F sp kf) := by
  have ht : t < v.nextTealet := H.lt_nextTealet hr₀
  have hold : v.stackOf t = none := (stackOf_eq hr₀).trans hnone
  obtain ⟨v', hv'⟩ : ∃ v', v' = v.save t r F sp kf := ⟨_, rfl⟩
  have hstack : v'.stackOf = Function.update v.stackOf t (some v.nextStack) := by
    rw [hv']
    exact stackOf_setTealet (v := v) (some { r with stack := some v.nextStack })
  have hother : ∀ x y, y ≠ v.nextStack → v'.stackOf x = some y → v.stackOf x = some y := by
    intro x y hy hxy
    rw [hstack] at hxy
    by_cases hx : x = t
    · subst hx
      rw [Function.update_self] at hxy
      exact absurd (Option.some.inj hxy).symm hy
    · rwa [Function.update_of_ne hx] at hxy
  have hmain : ∀ y, y ≠ v.nextStack →
      (v'.stackOf mainId = some y ↔ v.stackOf mainId = some y) := by
    intro y hy
    refine ⟨hother _ y hy, fun h => ?_⟩
    have hne : mainId ≠ t := by
      rintro rfl
      rw [hold] at h
      cases h
    rwa [hstack, Function.update_of_ne hne]
  have himg : v'.img = Function.update v.img v.nextStack
      (some (Image.capture v.mem sp r.stackFar F kf)) := by rw [hv']; rfl
  have hlook : ∀ y im, v'.img y = some im →
      (y = v.nextStack ∧ im = Image.capture v.mem sp r.stackFar F kf) ∨
        (y ≠ v.nextStack ∧ v.img y = some im) := by
    intro y im him
    rw [himg] at him
    by_cases hy : y = v.nextStack
    · subst hy
      exact .inl ⟨rfl, by simpa using him.symm⟩
    · exact .inr ⟨hy, by rwa [Function.update_of_ne hy] at him⟩
  have hlist : ∀ y ∈ v.prev, y ≠ v.nextStack := by
    rintro y hy rfl
    obtain ⟨im, him, -⟩ := H.listed _ hy
    exact Nat.lt_irrefl _ (H.lt_nextStack him)
  have hprev : v'.prev = if r.stackFar ≤ F then v.prev else v.nextStack :: v.prev := by
    rw [hv']
    rfl
  have htealets : v'.tealets = Function.update v.tealets t
      (some { r with stack := some v.nextStack }) := by rw [hv']; rfl
  have hn : v'.nextTealet = v.nextTealet := by rw [hv']; rfl
  have hnS : v'.nextStack = v.nextStack + 1 := by rw [hv']; rfl
  rw [← hv']
  refine ⟨?_, hn ▸ H.mainKnown, ?_, ?_, ?_, ?_, ?_, ?_, ?_⟩
  · intro x hx
    rw [hn] at hx
    have hxt : x ≠ t := fun h => Nat.not_lt_of_le hx (h ▸ ht)
    rw [htealets, Function.update_of_ne hxt]
    exact H.fresh x hx
  · intro y hy
    rw [hnS] at hy
    rw [himg, Function.update_of_ne (Nat.ne_of_gt hy)]
    exact H.freshStack y (Nat.le_of_succ_le hy)
  · intro x rx hx
    rw [htealets] at hx
    by_cases hxt : x = t
    · subst hxt
      rw [Function.update_self] at hx
      exact Option.some.inj hx ▸ hok
    · rw [Function.update_of_ne hxt] at hx
      exact H.record x rx hx
  · intro x rx y hx hy
    rw [himg]
    rw [htealets] at hx
    by_cases hxt : x = t
    · subst hxt
      rw [Function.update_self] at hx
      obtain rfl := Option.some.inj hx
      obtain rfl : v.nextStack = y := Option.some.inj hy
      exact ⟨_, Function.update_self .., fun _ => rfl⟩
    · rw [Function.update_of_ne hxt] at hx
      obtain ⟨im, him, hfar⟩ := H.owned x rx y hx hy
      rw [Function.update_of_ne (Nat.ne_of_lt (H.lt_nextStack him))]
      exact ⟨im, him, hfar⟩
  · intro y im him
    obtain ⟨rfl, rfl⟩ | ⟨hy, him⟩ := hlook y im him
    · refine ⟨Nat.one_pos, ?_, hok.far_le, fun hf => ?_, hres, ?_, ?_⟩
      · simp only [Image.capture, Image.data, List.flatten_nil, List.append_nil, readSlice_length]
        omega
      · have hm : t = mainId := Decidable.byContradiction fun hm =>
          Nat.lt_irrefl _ (hf ▸ hok.far_lt hm)
        rw [hstack, ← hm, Function.update_self]
      · intro child spawned hstc
        obtain ⟨h₁, h₂, h₃⟩ := hst child spawned hstc
        refine ⟨h₁, hn ▸ h₂, fun hc h => ?_⟩
        rw [hstack, Function.update_of_ne (h₃ hc)] at h
        exact H.stackOf_ne_next h
      · intro hm
        refine ⟨rfl, rfl, hcap (Decidable.byContradiction fun hne => ?_)⟩
        rw [hstack, Function.update_of_ne (Ne.symm hne)] at hm
        exact H.stackOf_ne_next hm
    · exact (H.image y im him).congr (Nat.le_of_eq hn.symm) (hmain y hy) fun x _ => hother x y hy
  · intro y im him
    have hbal := holders_update (f := v.stackOf) (o := some v.nextStack) (k := y) ht
    rw [← hstack, hold] at hbal
    simp only [reduceCtorEq, if_false, Nat.add_zero] at hbal
    rw [View.refs, hn, hbal]
    obtain ⟨rfl, rfl⟩ | ⟨hy, him⟩ := hlook y im him
    · rw [if_pos rfl, (H.freshStack _ (Nat.le_refl _)).2]
      have hzero : holders v.stackOf v.nextTealet v.nextStack = 0 :=
        Nat.eq_zero_of_not_pos fun hpos => by
          obtain ⟨x, -, hx⟩ := exists_of_holders_pos hpos
          exact H.stackOf_ne_next hx
      rw [hzero]
      rfl
    · rw [if_neg (fun h => hy (Option.some.inj h).symm)]
      exact H.counted y im him
  · rw [hprev]
    split
    · exact H.nodup
    · exact List.nodup_cons.mpr ⟨fun hm => hlist _ hm rfl, H.nodup⟩
  · intro y hy
    rw [himg]
    by_cases hyn : y = v.nextStack
    · subst hyn
      rw [hprev] at hy
      split at hy
      · exact absurd rfl (hlist _ hy)
      · rename_i hF
        refine ⟨_, Function.update_self .., rfl, ?_⟩
        rw [capture_top]
        show max sp (min r.stackFar F) < r.stackFar
        omega
    · rw [Function.update_of_ne hyn]
      refine H.listed y ?_
      rw [hprev] at hy
      split at hy
      · exact hy
      · exact (List.mem_cons.mp hy).resolve_left hyn

/-- A record is overwritten together with its stack: the reference is lost. -/
theorem Core.forget (H : Core leak v) (hm : t ≠ mainId) (ht : t < v.nextTealet)
    {o : Option TealetSub} (ho : ∀ r', o = some r' → RecordOk t r' ∧ r'.stack = none) :
    Core (fun k => leak k + if v.stackOf t = some k then 1 else 0) (v.setTealet t o) := by
  have hbind : o.bind TealetSub.stack = none := by
    cases o with
    | none => rfl
    | some r' => exact (ho r' rfl).2
  have hstack : (v.setTealet t o).stackOf = Function.update v.stackOf t none := by
    rw [stackOf_setTealet, hbind]
  have hkeep : ∀ x y, (v.setTealet t o).stackOf x = some y → x ≠ t ∧ v.stackOf x = some y := by
    intro x y hxy
    rw [hstack] at hxy
    by_cases hx : x = t
    · subst hx
      simp at hxy
    · exact ⟨hx, by rwa [Function.update_of_ne hx] at hxy⟩
  refine ⟨?_, H.mainKnown, ?_, ?_, ?_, ?_, ?_, H.nodup, H.listed⟩
  · intro x hx
    have hxt : x ≠ t := fun h => Nat.not_lt_of_le hx (h ▸ ht)
    simpa [View.setTealet, Function.update_of_ne hxt] using H.fresh x hx
  · intro k hk
    have hne : v.stackOf t ≠ some k := fun h => by
      obtain ⟨im, him⟩ := H.img_of_stackOf h
      exact Nat.not_lt_of_le hk (H.lt_nextStack him)
    exact ⟨(H.freshStack k hk).1, by simp [hne, (H.freshStack k hk).2]⟩
  · intro x rx hx
    by_cases hxt : x = t
    · subst hxt
      exact (ho rx (by simpa [View.setTealet] using hx)).1
    · exact H.record x rx (by simpa [View.setTealet, Function.update_of_ne hxt] using hx)
  · intro x rx y hx hy
    obtain ⟨hxt, -⟩ := hkeep x y ((stackOf_eq hx).trans hy)
    exact H.owned x rx y (by simpa [View.setTealet, Function.update_of_ne hxt] using hx) hy
  · intro y im him
    refine (H.image y im him).congr (Nat.le_refl _) ⟨fun h => (hkeep _ _ h).2, fun h => ?_⟩
      fun x _ h => (hkeep x y h).2
    rwa [hstack, Function.update_of_ne (Ne.symm hm)]
  · intro y im him
    have hbal := holders_update (f := v.stackOf) (o := none) (k := y) ht
    rw [← hstack] at hbal
    have hc := H.counted y im him
    rw [View.refs] at hc ⊢
    simp only [reduceCtorEq, if_false] at hbal
    have hn : (v.setTealet t o).nextTealet = v.nextTealet := rfl
    rw [hn]
    omega

end Save

end Tealet
