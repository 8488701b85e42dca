import Tealet.Lifecycle

/-!
# Isolation

The stacks of all tealets lie in one memory. While a tealet runs it writes
nearer than its boundary `F`, so a suspended tealet keeps its bytes if its
image *covers* `F`. `Clear v F` is the order of the list that makes this
last: whatever is not in the list is saved in full, and each image in the
list covers `F` and the boundaries of the images before it. A transfer to
a tealet with the boundary `F'` grows the images up to the target's and
leaves `Clear v' F'`.

What the images stand for is compared between two views by `Image.Same`.
-/

namespace Tealet

open Slice Relation

namespace Image

variable {m m' : Memory} {F G : Nat} {stop : Bool} {im im' : Image}

/-- The image `im` over `m` and the image `im'` over `m'` stand for the
same bytes of the same slice. -/
structure Same (m : Memory) (im : Image) (m' : Memory) (im' : Image) : Prop where
  near : im'.near = im.near
  far : im'.far = im.far
  value : ∀ x, im.near ≤ x → x < im.far → im'.value m' x = im.value m x

theorem Same.refl (m : Memory) (im : Image) : Same m im m im := ⟨rfl, rfl, fun _ _ _ => rfl⟩

theorem Same.trans {m₁ m₂ m₃ : Memory} {im₁ im₂ im₃ : Image} (h : Same m₁ im₁ m₂ im₂)
    (h' : Same m₂ im₂ m₃ im₃) : Same m₁ im₁ m₃ im₃ := by
  refine ⟨h'.near.trans h.near, h'.far.trans h.far, fun x hx hf => ?_⟩
  rw [h'.value x (h.near ▸ hx) (h.far ▸ hf), h.value x hx hf]

/-- Counting owners does not matter. -/
theorem Same.counted (m : Memory) (im : Image) (n : Nat) : Same m im m { im with refcount := n } :=
  ⟨rfl, rfl, fun _ _ _ => rfl⟩

theorem Covers.mono (hc : im.Covers F) (hG : G ≤ F) : im.Covers G := by
  unfold Covers at *
  omega

/-- An image that is saved in full covers everything. -/
theorem covers_of_full (h : im.far ≤ im.top) : im.Covers F := by
  unfold Covers
  omega

/-- A partial image ends beyond what it covers. -/
theorem Covers.lt_far (hc : im.Covers F) (h : im.top < im.far) : F < im.far := by
  unfold Covers at hc
  omega

theorem Covers.le_top (hc : im.Covers F) (h : im.top < im.far) : F ≤ im.top := by
  have hlt := hc.lt_far h
  unfold Covers at hc
  omega

/-- What is nearer than `F` may change. -/
theorem Covers.same (hc : im.Covers F) (hd : im.defunct = false) (hm : ∀ x, F ≤ x → m' x = m x) :
    Same m im m' im :=
  ⟨rfl, rfl, fun _ hx hf => value_congr hc hd hm hx hf⟩

theorem Grew.same (h : im.Grew m F stop im') (hd : im'.defunct = false) : Same m im m im' := by
  refine ⟨h.kept.near, h.kept.far, fun x _ _ => ?_⟩
  rw [h.value hd]

/-- `im'` is `im`, saved up to `F` at least. -/
structure Reaches (m : Memory) (F : Nat) (im im' : Image) : Prop where
  same : Same m im m im'
  top : im'.top = max im.top (min im.far F)

theorem Reaches.covers (h : im.Reaches m F im') : im'.Covers F := by
  have htop := h.top
  have hfar := h.same.far
  unfold Covers
  omega

theorem Covers.reaches (hc : im.Covers F) (m : Memory) : im.Reaches m F im := by
  refine ⟨.refl m im, ?_⟩
  unfold Covers at hc
  omega

theorem Grew.reaches (h : im.Grew m F stop im') (hd : im'.defunct = false) : im.Reaches m F im' :=
  ⟨h.same hd, h.top hd⟩

/-- An image stores nothing at or beyond its boundary. -/
theorem value_beyond (he : im.near + im.data.length ≤ max im.near im.far) {x : Nat}
    (hx : im.far ≤ x) : im.value m x = m x := by
  by_cases hn : x < im.near
  · exact writeSlice_lt hn
  · exact writeSlice_ge (by omega)

/-- A new image stands for the memory it was taken from. -/
theorem value_capture (m : Memory) (near far F : Nat) (k : Frame) :
    (capture m near far F k).value m = m := by
  show writeSlice m near (readSlice m near _ ++ []) = m
  rw [List.append_nil, writeSlice_readSlice]

end Image

/-! ## The order of the list -/

/-- Whatever is not in the list, but for the images in `hole`, is saved in
full, and each image in the list covers `F` and the boundaries of the
images before it. -/
structure Clear (v : View) (F : Nat) (hole : StackId → Prop) : Prop where
  full : ∀ k im, v.img k = some im → im.defunct = false → k ∉ v.prev → ¬ hole k → im.far ≤ im.top
  sorted : v.prev.Pairwise fun k k' =>
    ∀ im im', v.img k = some im → v.img k' = some im' → im'.Covers im.far
  covers : ∀ k ∈ v.prev, ∀ im, v.img k = some im → im.Covers F

/-- Every image in the list is saved up to `F`. -/
def View.SavedTo (v : View) (F : Nat) : Prop := ∀ k ∈ v.prev, ∀ im, v.img k = some im → im.Covers F

section Clear

variable {leak : StackId → Nat} {v : View} {F G : Nat} {hole : StackId → Prop} {t : TealetId}
  {r : TealetSub} {k : StackId} {im im' : Image} {target : Option StackId} {failOk : Bool}
  {allocs : List Bool}

/-- `Clear` reads the images and the list. -/
theorem Clear.congr {v' : View} (K : Clear v F hole) (hi : v'.img = v.img) (hp : v'.prev = v.prev) :
    Clear v' F hole := by
  refine ⟨?_, ?_, ?_⟩
  · rw [hi, hp]
    exact K.full
  · rw [hi, hp]
    exact K.sorted
  · rw [hi, hp]
    exact K.covers

theorem Clear.mono {hole' : StackId → Prop} (K : Clear v F hole) (hG : G ≤ F)
    (hh : ∀ k im, v.img k = some im → im.defunct = false → k ∉ v.prev → hole k → ¬ hole' k →
      im.far ≤ im.top) : Clear v G hole' := by
  refine ⟨fun k im him hd hk hn => ?_, K.sorted, fun k hk im him => (K.covers k hk im him).mono hG⟩
  by_cases hx : hole k
  · exact hh k im him hd hk hx hn
  · exact K.full k im him hd hk hx

/-- Every image that can be resumed covers `F`. -/
theorem Clear.image_covers (K : Clear v F hole) (him : v.img k = some im) (hd : im.defunct = false)
    (hh : ¬ hole k) : im.Covers F := by
  by_cases hk : k ∈ v.prev
  · exact K.covers k hk im him
  · exact Image.covers_of_full (K.full k im him hd hk hh)

/-- Nothing is in the list while an unbounded tealet runs. -/
theorem Clear.prev_nil (H : Core leak v) (K : Clear v F hole) (hF : F = spFurthest) :
    v.prev = [] := by
  refine List.eq_nil_iff_forall_not_mem.mpr fun k hk => ?_
  obtain ⟨im, him, -, htop⟩ := H.listed k hk
  have hlt := (K.covers k hk im him).lt_far htop
  have hle := (H.image k im him).far_le
  exact Nat.lt_irrefl _ (Nat.lt_of_lt_of_le (hF ▸ hlt) hle)

/-! ## Growing -/

/-- The target that a growth takes out of the list as it is. -/
def Dropped (v : View) (target : Option StackId) (k : StackId) : Prop :=
  target = some k ∧ k ∈ v.prev ∧ ∀ im, v.img k = some im → im.refcount ≤ 1

/-- A growth that goes through reaches its boundary with every image. -/
theorem Clear.grown (H : Core leak v) (K : Clear v G fun _ => False)
    (hT : ∀ k im, target = some k → v.img k = some im → im.far = F)
    (hok : (v.growth target F failOk allocs).failed = false)
    (him' : (v.growth target F failOk allocs).img k = some im') (hd : im'.defunct = false)
    (hh : ¬ Dropped v target k) :
    ∃ im, v.img k = some im ∧ im.defunct = false ∧ im.Reaches v.mem F im' := by
  obtain ⟨pre, post, S⟩ := H.growSplit target F failOk allocs
  obtain ⟨im, him, -⟩ := H.grown him'
  by_cases hpre : k ∈ pre
  · obtain ⟨-, im₀, im₁, h₀, h₁, hgrew⟩ := S.grown k hpre
    obtain rfl := Option.some.inj (him.symm.trans h₀)
    obtain rfl := Option.some.inj (him'.symm.trans h₁)
    exact ⟨im, him, hgrew.defunct_mono hd, hgrew.reaches hd⟩
  by_cases hpost : post.head? = some k
  · have hne : post ≠ [] := by
      rintro rfl
      cases hpost
    have hmem : k ∈ v.prev := by
      rw [S.split]
      exact List.mem_append_right _ (List.mem_of_mem_head? hpost)
    obtain ⟨x, im₀, im₁, hx, ht, h₀, h₁, hor⟩ := S.done hok hne
    obtain rfl := Option.some.inj (hpost.symm.trans hx)
    obtain rfl := Option.some.inj (him.symm.trans h₀)
    obtain rfl := Option.some.inj (him'.symm.trans h₁)
    rcases hor with ⟨hle, -⟩ | ⟨-, hgrew⟩
    · refine absurd ⟨ht, hmem, fun im₂ h₂ => ?_⟩ hh
      rwa [← Option.some.inj (him.symm.trans h₂)]
    · exact ⟨im, him, hgrew.defunct_mono hd, hgrew.reaches hd⟩
  -- the growth did not come to this image
  · obtain rfl := Option.some.inj ((S.rest k hpre hpost).symm.trans him' |>.symm.trans him |>.symm)
    refine ⟨im, him, hd, Image.Covers.reaches ?_ _⟩
    by_cases hk : k ∈ v.prev
    · have hk' : k ∈ post := by
        rw [S.split, List.mem_append] at hk
        exact hk.resolve_left hpre
      cases post with
      | nil => cases hk'
      | cons x xs =>
          obtain ⟨y, imx, -, hy, ht, himx, -⟩ := S.done hok (by simp)
          obtain rfl := Option.some.inj hy
          have hxs : k ∈ xs := by
            rcases List.mem_cons.mp hk' with rfl | h
            · exact absurd rfl hpost
            · exact h
          have hs := K.sorted
          rw [S.split, List.pairwise_append, List.pairwise_cons] at hs
          rw [← hT x imx ht himx]
          exact hs.2.1.1 k hxs imx im himx him
    · exact Image.covers_of_full (K.full k im him hd hk id)

/-- The target does not stay in the list. -/
theorem keep_ne_target (H : Core leak v)
    (hok : (v.growth target F failOk allocs).failed = false)
    (hk : k ∈ (v.growth target F failOk allocs).keep) : target ≠ some k := by
  obtain ⟨pre, post, S⟩ := H.growSplit target F failOk allocs
  have hnd := H.nodup
  rw [S.split, List.nodup_append] at hnd
  rw [S.keep, hok, List.mem_append] at hk
  rcases hk with hk | hk
  · exact (S.grown k (List.mem_of_mem_filter hk)).1
  · simp only [Bool.false_eq_true, if_false] at hk
    cases post with
    | nil => cases hk
    | cons y ys =>
        obtain ⟨z, -, -, hz, ht, -⟩ := S.done hok (by simp)
        obtain rfl := Option.some.inj hz
        rw [ht]
        intro hy
        exact (List.nodup_cons.mp hnd.2.1).1 (Option.some.inj hy ▸ hk)

/-- What a growth leaves of the images, whether it goes through or not. -/
theorem Core.still (H : Core leak v) (him' : (v.growth target F failOk allocs).img k = some im')
    (hd : im'.defunct = false) :
    ∃ im, v.img k = some im ∧ im.defunct = false ∧ im.Same v.mem v.mem im' ∧ im.top ≤ im'.top := by
  obtain ⟨im, him, hkept, rfl | ⟨-, hd₀, hgrew⟩⟩ := H.grown him'
  · exact ⟨im', him, hd, .refl _ _, Nat.le_refl _⟩
  · refine ⟨im, him, hd₀, hgrew.same hd, ?_⟩
    rw [hgrew.top hd]
    exact Nat.le_max_left _ _

/-- What leaves the list is saved in full. -/
theorem full_of_left (H : Core leak v)
    (hT : ∀ k im, target = some k → v.img k = some im → im.far = F) (hk : k ∈ v.prev)
    (hk' : k ∉ (v.growth target F failOk allocs).keep)
    (him' : (v.growth target F failOk allocs).img k = some im') (hd : im'.defunct = false)
    (hh : ¬ ((v.growth target F failOk allocs).failed = false ∧ Dropped v target k)) :
    im'.far ≤ im'.top := by
  obtain ⟨pre, post, S⟩ := H.growSplit target F failOk allocs
  have hfull : im'.far ≤ F → im'.Covers F → im'.far ≤ im'.top := by
    intro hle hc
    unfold Image.Covers at hc
    omega
  have hpre : k ∈ pre → im'.far ≤ im'.top := by
    intro h
    obtain ⟨-, im₀, im₁, -, h₁, hgrew⟩ := S.grown k h
    obtain rfl := Option.some.inj (him'.symm.trans h₁)
    refine hfull (Nat.le_of_not_lt fun hlt => hk' ?_) (hgrew.covers hd)
    rw [S.keep]
    exact List.mem_append_left _
      (List.mem_filter.mpr ⟨h, by simp [staysIn, him', Image.Stays, hd, hlt]⟩)
  have hmem : k ∈ pre ∨ k ∈ post := by
    rwa [S.split, List.mem_append] at hk
  rcases hmem with h | h
  · exact hpre h
  cases hf : (v.growth target F failOk allocs).failed with
  | true =>
      refine absurd ?_ hk'
      rw [S.keep, hf]
      exact List.mem_append_right _ h
  | false =>
      cases post with
      | nil => cases h
      | cons y ys =>
          obtain ⟨z, im₀, im₁, hz, ht, h₀, h₁, hor⟩ := S.done hf (by simp)
          obtain rfl := Option.some.inj hz
          rcases List.mem_cons.mp h with rfl | h
          · obtain rfl := Option.some.inj (him'.symm.trans h₁)
            rcases hor with ⟨hle, -⟩ | ⟨-, hgrew⟩
            · refine absurd ⟨hf, ht, hk, fun im₂ h₂ => ?_⟩ hh
              rwa [← Option.some.inj (h₀.symm.trans h₂)]
            · exact hfull (Nat.le_of_eq (hgrew.kept.far.trans (hT k im₀ ht h₀))) (hgrew.covers hd)
          · refine absurd ?_ hk'
            rw [S.keep, hf]
            exact List.mem_append_right _ h

/-- What stays in the list was in it, and is saved no less. -/
theorem Core.grown_listed (H : Core leak v) (hk : k ∈ (v.growth target F failOk allocs).keep)
    (him' : (v.growth target F failOk allocs).img k = some im') :
    k ∈ v.prev ∧ ∃ im, v.img k = some im ∧ im.Same v.mem v.mem im' ∧ im.top ≤ im'.top := by
  obtain ⟨im₁, him₁, hd, -⟩ := (H.grow target F failOk allocs).listed k hk
  obtain rfl := Option.some.inj (him₁.symm.trans him')
  obtain ⟨im, him, -, hs⟩ := H.still him' hd
  exact ⟨(H.keep_sublist target F failOk allocs).subset hk, im, him, hs⟩

theorem View.SavedTo.grown (h : v.SavedTo G) (H : Core leak v) :
    (v.grow (v.growth target F failOk allocs)).SavedTo G := by
  intro k hk im' him'
  obtain ⟨hmem, im, him, hs, htop⟩ := H.grown_listed hk him'
  have hc := h k hmem im him
  unfold Image.Covers at *
  rw [hs.far]
  exact Nat.le_trans hc htop

/-- A growth keeps the order, but for a target that it drops. -/
theorem Clear.grow (H : Core leak v) (K : Clear v G fun _ => False)
    (hT : ∀ k im, target = some k → v.img k = some im → im.far = F) :
    Clear (v.grow (v.growth target F failOk allocs)) G fun k =>
      (v.growth target F failOk allocs).failed = false ∧ Dropped v target k := by
  refine ⟨?_, ?_, ?_⟩
  · intro k im' him' hd hk hh
    by_cases hp : k ∈ v.prev
    · exact full_of_left H hT hp hk him' hd hh
    · obtain ⟨im, him, hd₀, hs, htop⟩ := H.still him' hd
      rw [hs.far]
      exact Nat.le_trans (K.full k im him hd₀ hp id) htop
  · refine List.Pairwise.imp_of_mem ?_ (K.sorted.sublist (H.keep_sublist target F failOk allocs))
    intro k k' hk hk' hs im im' him him'
    obtain ⟨-, im₀, him₀, hs₀, -⟩ := H.grown_listed hk him
    obtain ⟨-, im₀', him₀', hs₀', htop⟩ := H.grown_listed hk' him'
    have hc := hs im₀ im₀' him₀ him₀'
    unfold Image.Covers at *
    rw [hs₀.far, hs₀'.far]
    exact Nat.le_trans hc htop
  · exact View.SavedTo.grown K.covers H

/-- A growth that goes through clears the way for the tealet with the boundary `F`. -/
theorem Clear.grow_to (H : Core leak v) (K : Clear v G fun _ => False)
    (hT : ∀ k im, target = some k → v.img k = some im → im.far = F)
    (hok : (v.growth target F failOk allocs).failed = false) :
    Clear (v.grow (v.growth target F failOk allocs)) F (Dropped v target) := by
  have hK : Clear (v.grow (v.growth target F failOk allocs)) G fun k =>
      (v.growth target F failOk allocs).failed = false ∧ Dropped v target k := K.grow H hT
  refine ⟨fun k im him hd hk hh => hK.full k im him hd hk fun h => hh h.2, hK.sorted, ?_⟩
  intro k hk im him
  obtain ⟨im₁, him₁, hd, -⟩ := (H.grow target F failOk allocs).listed k hk
  obtain rfl := Option.some.inj (him₁.symm.trans him)
  obtain ⟨im₀, -, -, hr⟩ := K.grown H hT hok him hd fun h => keep_ne_target H hok hk h.1
  exact hr.covers

/-! ## Leaving and arriving -/

/-- A new image goes to the head of the list if it is partial. -/
theorem Clear.save (H : Core leak v) (K : Clear v F hole) {sp : Nat} {kf : Frame}
    (hc : F < r.stackFar → ∀ k ∈ v.prev, ∀ im, v.img k = some im → im.Covers r.stackFar) :
    Clear (v.save t r F sp kf) F hole := by
  have hnew : (v.save t r F sp kf).img v.nextStack =
      some (Image.capture v.mem sp r.stackFar F kf) := Function.update_self ..
  have hold : ∀ k, k ≠ v.nextStack → (v.save t r F sp kf).img k = v.img k := fun k hk =>
    Function.update_of_ne hk _ _
  have hne : ∀ k ∈ v.prev, k ≠ v.nextStack := by
    rintro k hk rfl
    obtain ⟨im, him, -⟩ := H.listed _ hk
    exact Nat.lt_irrefl _ (H.lt_nextStack him)
  have hprev : (v.save t r F sp kf).prev =
      if r.stackFar ≤ F then v.prev else v.nextStack :: v.prev := rfl
  have hcov : (Image.capture v.mem sp r.stackFar F kf).Covers F := by
    rw [Image.Covers, capture_top]
    exact Nat.le_max_right _ _
  have hsorted : v.prev.Pairwise fun k k' => ∀ im im', (v.save t r F sp kf).img k = some im →
      (v.save t r F sp kf).img k' = some im' → im'.Covers im.far := by
    refine List.Pairwise.imp_of_mem ?_ K.sorted
    intro k k' hk hk' hs
    rw [hold k (hne k hk), hold k' (hne k' hk')]
    exact hs
  refine ⟨?_, ?_, ?_⟩
  · intro k im him hd hk hh
    rw [hprev] at hk
    by_cases hkn : k = v.nextStack
    · subst hkn
      obtain rfl := Option.some.inj (hnew.symm.trans him)
      split at hk
      · rename_i hle
        rw [capture_top]
        show r.stackFar ≤ _
        omega
      · exact absurd List.mem_cons_self hk
    · rw [hold k hkn] at him
      refine K.full k im him hd (fun h => hk ?_) hh
      split
      · exact h
      · exact List.mem_cons_of_mem _ h
  · rw [hprev]
    split
    · exact hsorted
    · rename_i hlt
      refine List.pairwise_cons.mpr ⟨fun k hk im im' him him' => ?_, hsorted⟩
      obtain rfl := Option.some.inj (hnew.symm.trans him)
      rw [hold k (hne k hk)] at him'
      exact hc (Nat.lt_of_not_le hlt) k hk im' him'
  · intro k hk im him
    by_cases hkn : k = v.nextStack
    · subst hkn
      obtain rfl := Option.some.inj (hnew.symm.trans him)
      exact hcov
    · rw [hold k hkn] at him
      refine K.covers k ?_ im him
      rw [hprev] at hk
      split at hk
      · exact hk
      · exact (List.mem_cons.mp hk).resolve_left hkn

/-- Images may get other owners, and go together with their place in the list. -/
theorem Clear.images {v' : View} {hole' : StackId → Prop} (K : Clear v F hole)
    (hp : v'.prev.Sublist v.prev)
    (hlook : ∀ x im', v'.img x = some im' → ∃ im₀, v.img x = some im₀ ∧ im'.far = im₀.far ∧
      im'.top = im₀.top ∧ im'.defunct = im₀.defunct ∧ (x ∈ v.prev → x ∈ v'.prev) ∧
      (hole x → hole' x)) : Clear v' F hole' := by
  refine ⟨?_, ?_, ?_⟩
  · intro x im' h hd hx hn
    obtain ⟨im₀, h₀, hf, ht, hd₀, hin, hh⟩ := hlook x im' h
    rw [hf, ht]
    exact K.full x im₀ h₀ (hd₀.symm.trans hd) (fun hp => hx (hin hp)) fun hhole => hn (hh hhole)
  · refine (K.sorted.sublist hp).imp ?_
    intro x x' hs im₁ im₂ h₁ h₂
    obtain ⟨im₀, h₀, hf, -⟩ := hlook x im₁ h₁
    obtain ⟨im₀', h₀', hf', ht', -⟩ := hlook x' im₂ h₂
    have hc := hs im₀ im₀' h₀ h₀'
    unfold Image.Covers at *
    rwa [hf, hf', ht']
  · intro x hx im' h
    obtain ⟨im₀, h₀, hf, ht, -⟩ := hlook x im' h
    have hc := K.covers x (hp.subset hx) im₀ h₀
    unfold Image.Covers at *
    rwa [hf, ht]

/-- The image of the tealet that is resumed, or deleted, is released. -/
theorem Clear.release (K : Clear v F hole) (him : v.img k = some im)
    {hole' : StackId → Prop} (hh : ∀ x, x ≠ k ∨ 1 < im.refcount → hole x → hole' x) :
    Clear (v.release k im) F hole' := by
  refine K.images (release_sublist v k im) fun x im' h => ?_
  obtain ⟨im₀, h₀, ⟨hx, rfl⟩ | ⟨rfl, hlt, rfl, rfl⟩⟩ := img_of_release him h
  · refine ⟨_, h₀, rfl, rfl, rfl, fun hp => ?_, hh x (.inl hx)⟩
    rw [release_prev]
    split
    · exact (List.mem_erase_of_ne hx).mpr hp
    · exact hp
  · refine ⟨_, h₀, rfl, rfl, rfl, fun hp => ?_, hh x (.inr hlt)⟩
    rw [release_prev, if_neg (Nat.not_le_of_lt hlt)]
    exact hp

end Clear

/-! ## The moves -/

/-- Main's image ends at main's boundary; for the others `Core` says so. -/
def View.MainFar (v : View) : Prop :=
  ∀ k im, v.stackOf mainId = some k → v.img k = some im → im.far = v.far mainId

/-- No suspended tealet depends on what the running one writes. -/
structure Isolated (v : View) : Prop where
  clear : Clear v (v.far v.current) fun _ => False
  mainFar : v.MainFar

/-- What must not be attempted: to move main's boundary out from under what
is saved, to capture a tealet that reaches beyond what is saved, and a
transfer that drops its target from the list and then fails. -/
structure Careful (C : View → Label → Prop) : Prop where
  setFar : ∀ v far, C v (.setFar far) → (∀ t, t ≠ mainId → v.tealets t = none) ∨
    far = v.far mainId ∨ v.current = mainId ∧ v.SavedTo far
  capture : ∀ v t far allocs, C v (.capture t far allocs) → v.tealets t = some {} →
    far ≤ v.far v.current ∨ v.SavedTo far
  stall : ∀ v t flags allocs r, Core (fun _ => 0) v → C v (.xfer t flags false allocs) →
    v.tealets t = some r → t ≠ v.current → mayFail v.current flags = true →
    (v.growth r.stack r.stackFar true allocs).failed = false →
    (nextAlloc (v.growth r.stack r.stackFar true allocs).allocs).1 = false →
    ∀ k, ¬ Dropped v r.stack k

section Moves

variable {leak : StackId → Nat} {C : View → Label → Prop} {v v' : View} {t : TealetId}
  {c r : TealetSub} {k : StackId} {im : Image}

/-- A transfer to a tealet with a stack goes to the end of it. -/
theorem Isolated.target_far (I : Isolated v) (H : Core leak v) (hr : v.tealets t = some r) :
    ∀ k im, r.stack = some k → v.img k = some im → im.far = r.stackFar := by
  intro k im hk him
  by_cases hm : t = mainId
  · subst hm
    rw [I.mainFar k im ((stackOf_eq hr).trans hk) him, far_eq hr]
  · obtain ⟨im₀, him₀, hfar⟩ := H.owned t r k hr hk
    obtain rfl := Option.some.inj (him.symm.trans him₀)
    exact hfar hm

theorem View.MainFar.congr (M : v.MainFar) (hm : v'.tealets mainId = v.tealets mainId)
    (hfar : ∀ k im', v.stackOf mainId = some k → v'.img k = some im' →
      ∃ im, v.img k = some im ∧ im'.far = im.far) : v'.MainFar := by
  intro k im' hk him'
  rw [View.stackOf, hm] at hk
  obtain ⟨im, him, hf⟩ := hfar k im' hk him'
  rw [View.far, hm, hf]
  exact M k im hk him

/-- A tealet without a stack has no image. -/
theorem View.MainFar.setTealet (M : v.MainFar) {o : Option TealetSub}
    (ho : o.bind TealetSub.stack = none) : (v.setTealet t o).MainFar := by
  by_cases hm : mainId = t
  · intro k im hk _
    rw [stackOf_setTealet, hm, Function.update_self, ho] at hk
    cases hk
  · exact M.congr (Function.update_of_ne hm _ _) fun k im _ h => ⟨im, h, rfl⟩

theorem View.MainFar.save (M : v.MainFar) (H : Core leak v) {F sp : Nat} {kf : Frame} :
    (v.save t r F sp kf).MainFar := by
  by_cases hm : mainId = t
  · intro k im hk him
    have hself : (v.save t r F sp kf).tealets mainId =
        some { r with stack := some v.nextStack } := by
      rw [hm]
      exact Function.update_self ..
    obtain rfl := Option.some.inj ((stackOf_eq hself).symm.trans hk)
    have hnew : (v.save t r F sp kf).img v.nextStack =
        some (Image.capture v.mem sp r.stackFar F kf) := Function.update_self ..
    obtain rfl := Option.some.inj (hnew.symm.trans him)
    exact (far_eq hself).symm
  · refine M.congr (Function.update_of_ne hm _ _) fun k im hk h => ⟨im, ?_, rfl⟩
    refine (Function.update_of_ne ?_ _ _).symm.trans h
    rintro rfl
    exact H.stackOf_ne_next hk

theorem View.MainFar.depart (M : v.MainFar) (H : Core leak v) (hs : c.stack = none) (F : Nat)
    (fate : Fate) : (v.depart c F fate).MainFar := by
  cases fate with
  | suspend => exact M.save H
  | lose => exact M.setTealet hs
  | exit => exact M.setTealet rfl
  | exitDelete => exact M.setTealet rfl

theorem View.MainFar.restore (M : v.MainFar) (him : v.img k = some im) :
    (v.restore t r k im).MainFar := by
  have hrel : ∀ {m : Memory}, (View.release { v with mem := m } k im).MainFar := by
    intro m
    refine M.congr ?_ fun x im' _ h => ?_
    · rw [(release_tealets _ k im).1]
    · obtain ⟨im₀, h₀, ⟨-, rfl⟩ | ⟨-, -, rfl, rfl⟩⟩ :=
        img_of_release (v := { v with mem := m }) him h
      · exact ⟨_, h₀, rfl⟩
      · exact ⟨_, h₀, rfl⟩
  exact hrel.setTealet (t := t) (o := some { r with stack := none }) rfl

theorem Clear.depart {leak : StackId → Nat} {F : Nat} {hole : StackId → Prop} (H : Core leak v)
    (K : Clear v F hole) (fate : Fate)
    (hc : F < c.stackFar → ∀ k ∈ v.prev, ∀ im, v.img k = some im → im.Covers c.stackFar) :
    Clear (v.depart c F fate) F hole := by
  cases fate with
  | suspend => exact K.save H hc
  | _ => exact K.congr rfl rfl

/-- The records of main and of the running tealet stay. -/
theorem Isolated.keep (I : Isolated v) (K : Clear v' (v.far v.current) fun _ => False)
    (hc : v'.current = v.current) (hcur : v'.tealets v.current = v.tealets v.current)
    (hm : v'.tealets mainId = v.tealets mainId)
    (hfar : ∀ k im', v'.img k = some im' → ∃ im, v.img k = some im ∧ im'.far = im.far) :
    Isolated v' := by
  refine ⟨?_, I.mainFar.congr hm fun k im' _ => hfar k im'⟩
  rw [hc, View.far, hcur]
  exact K

/-- While main is alone nothing is saved. -/
theorem alone_savedTo (H : Core (fun _ => 0) v) (S : Sched v)
    (h : ∀ t, t ≠ mainId → v.tealets t = none) (F : Nat) : v.current = mainId ∧ v.SavedTo F := by
  obtain ⟨c, hc, -, hs⟩ := S.running
  have hcur : v.current = mainId := by
    by_contra hm
    rw [h _ hm] at hc
    cases hc
  refine ⟨hcur, fun k hk im him => ?_⟩
  exfalso
  have hnone : ∀ t, v.stackOf t ≠ some k := by
    intro t ht
    obtain ⟨r, hr, hk⟩ := tealets_of_stackOf ht
    by_cases hm : t = mainId
    · subst hm
      rw [← hcur, hc] at hr
      obtain rfl := Option.some.inj hr
      rw [hs] at hk
      cases hk
    · rw [h t hm] at hr
      cases hr
  have hcount := H.counted k im him
  have hpos := (H.image k im him).positive
  obtain ⟨t, -, ht⟩ := Refs.exists_of_holders_pos (f := v.stackOf) (n := v.nextTealet) (k := k)
    (by rw [View.refs] at hcount; omega)
  exact hnone t ht

/-- Main runs and gets a boundary up to which everything is saved. -/
theorem Isolated.setFar (I : Isolated v) (S : Sched v) (hcur : v.current = mainId) {far : Nat}
    (hF : v.SavedTo far) (hr : v.tealets mainId = some r) :
    Isolated (v.setTealet mainId (some { r with stackFar := far })) := by
  obtain ⟨c, hc, -, hs⟩ := S.running
  rw [hcur, hr] at hc
  obtain rfl := Option.some.inj hc
  have hself : (v.setTealet mainId (some { r with stackFar := far })).tealets v.current =
      some { r with stackFar := far } := by
    rw [hcur]
    rfl
  have hfar := far_eq hself
  refine ⟨⟨I.clear.full, I.clear.sorted, fun k hk im him => ?_⟩, I.mainFar.setTealet hs⟩
  show im.Covers (View.far _ v.current)
  rw [hfar]
  exact hF k hk im him

theorem Small.isolated (h : Small C v v') (hC : Careful C) (H : Core (fun _ => 0) v) (S : Sched v)
    (I : Isolated v) : Isolated v' := by
  obtain ⟨c, hc, -, -⟩ := S.running
  have hcn : v.current ≠ v.nextTealet := Nat.ne_of_lt (H.lt_nextTealet hc)
  have hmn : mainId ≠ v.nextTealet := Nat.ne_of_lt H.mainKnown
  have hsame : ∀ k im', v.img k = some im' → ∃ im, v.img k = some im ∧ im'.far = im.far :=
    fun k im' h => ⟨im', h, rfl⟩
  have hgrow : ∀ {target F failOk allocs}, (∀ k im, target = some k → v.img k = some im →
      im.far = F) → ((v.growth target F failOk allocs).failed = false → ∀ k, ¬ Dropped v target k) →
      Isolated (v.grow (v.growth target F failOk allocs)) := by
    intro target F failOk allocs hT hno
    refine I.keep ?_ rfl rfl rfl fun k im' him' => ?_
    · exact (I.clear.grow H hT).mono (Nat.le_refl _) fun k _ _ _ _ hx _ => absurd hx.2 (hno hx.1 k)
    · obtain ⟨im, him, hkept, -⟩ := H.grown him'
      exact ⟨im, him, hkept.far⟩
  cases h with
  | write => exact I.keep (I.clear.congr rfl rfl) rfl rfl rfl hsame
  | create =>
      exact I.keep (I.clear.congr rfl rfl) rfl (Function.update_of_ne hcn _ _)
        (Function.update_of_ne hmn _ _) hsame
  | dup =>
      exact I.keep (I.clear.congr rfl rfl) rfl (Function.update_of_ne hcn _ _)
        (Function.update_of_ne hmn _ _) hsame
  | @dupShared u ru k im hCd hu hcur hmain hk him =>
      have hlook : ∀ x im',
          Function.update v.img k (some { im with refcount := im.refcount + 1 }) x =
          some im' → ∃ im₀, v.img x = some im₀ ∧ im'.far = im₀.far ∧ im'.top = im₀.top ∧
            im'.defunct = im₀.defunct := by
        intro x im' h
        by_cases hx : x = k
        · subst hx
          rw [Function.update_self] at h
          cases h
          exact ⟨im, him, rfl, rfl, rfl⟩
        · rw [Function.update_of_ne hx] at h
          exact ⟨im', h, rfl, rfl, rfl⟩
      refine I.keep (I.clear.images (.refl _) fun x im' h => ?_) rfl (Function.update_of_ne hcn _ _)
        (Function.update_of_ne hmn _ _) fun x im' h => (hlook x im' h).imp fun _ h => ⟨h.1, h.2.1⟩
      obtain ⟨im₀, h₀, hf, ht, hd₀⟩ := hlook x im' h
      exact ⟨im₀, h₀, hf, ht, hd₀, id, id⟩
  | delete hCd hu hcur hmain =>
      exact I.keep (I.clear.congr rfl rfl) rfl (Function.update_of_ne hcur.symm _ _)
        (Function.update_of_ne hmain.symm _ _) hsame
  | @deleteSaved u ru k im hCd hu hcur hmain hk him =>
      obtain ⟨h₁, -, -, -, h₅, -⟩ := release_tealets v k im
      have hK : Clear (v.release k im) (v.far v.current) fun _ => False :=
        I.clear.release him fun _ _ h => h
      have htl : ∀ x, x ≠ u → ((v.release k im).setTealet u none).tealets x = v.tealets x := by
        intro x hx
        rw [← h₁]
        exact Function.update_of_ne hx _ _
      refine I.keep (hK.congr rfl rfl) h₅ (htl _ hcur.symm) (htl _ hmain.symm) fun x im' h => ?_
      obtain ⟨im₀, h₀, ⟨-, rfl⟩ | ⟨-, -, rfl, rfl⟩⟩ := img_of_release him h
      · exact ⟨_, h₀, rfl⟩
      · exact ⟨_, h₀, rfl⟩
  | @cache u ru k im hu hk him hd =>
      have hfar : ∀ x, (v.setTealet u (some { ru with
          flags := { ru.flags with defunct := true } })).far x = v.far x := by
        intro x
        by_cases hx : x = u
        · subst hx
          simp [View.far, View.setTealet, hu]
        · simp only [View.far, View.setTealet, Function.update_of_ne hx]
      have hstack : (v.setTealet u (some { ru with
          flags := { ru.flags with defunct := true } })).stackOf = v.stackOf := by
        rw [stackOf_setTealet, Option.bind_some, ← stackOf_eq hu, Function.update_eq_self]
      refine ⟨?_, fun x im' hx him' => ?_⟩
      · have hK := I.clear
        rw [← hfar] at hK
        exact hK.congr rfl rfl
      · rw [hstack] at hx
        rw [hfar]
        exact I.mainFar x im' hx him'
  | @setFar rm far hCs hfar hrm =>
      rcases (hC.setFar v far hCs).imp_left (fun h => alone_savedTo H S h far) with
        ⟨hcur, hF⟩ | rfl | ⟨hcur, hF⟩
      · exact I.setFar S hcur hF hrm
      · have hsame : v.setTealet mainId (some { rm with stackFar := v.far mainId }) = v := by
          rw [far_eq hrm, View.setTealet, ← hrm, Function.update_eq_self]
        rw [hsame]
        exact I
      · exact I.setFar S hcur hF hrm
  | @stallXfer u c' ru flags isExit allocs sp kf hCx hc' hu hcur hfate =>
      refine hgrow (I.target_far H hu) fun hok => ?_
      cases hm : mayFail v.current flags with
      | false =>
          rw [hm] at hfate hok
          unfold chooseFate at hfate
          rw [if_neg (by simp [hok])] at hfate
          dsimp only at hfate
          split at hfate
          · cases hfate
          · split at hfate <;> cases hfate
      | true =>
          rw [hm] at hfate hok
          cases isExit with
          | true =>
              unfold chooseFate at hfate
              rw [if_neg (by simp [hok])] at hfate
              cases hfate
          | false =>
              refine hC.stall v u flags allocs ru H hCx hu hcur hm hok ?_
              unfold chooseFate at hfate
              rw [if_neg (by simp [hok])] at hfate
              dsimp only at hfate
              rw [if_neg Bool.false_ne_true] at hfate
              split at hfate
              · cases hfate
              · rename_i heq
                rw [heq]
  | stallStart => exact hgrow (fun _ _ h => by cases h) fun _ k hk => by cases hk.1
  | stallCapture => exact hgrow (fun _ _ h => by cases h) fun _ k hk => by cases hk.1

theorem Jump.isolated (h : Jump C True v v') (hC : Careful C) (H : Core leak v) (S : Sched v)
    (I : Isolated v) : Isolated v' := by
  -- after a growth to `F` that goes through
  have hgrown : ∀ {target : Option StackId} {F : Nat} {failOk : Bool} {allocs : List Bool}
      {g : Growth}, v.growth target F failOk allocs = g → g.failed = false →
      (∀ k im, target = some k → v.img k = some im → im.far = F) →
      Clear (v.grow g) F (Dropped v target) ∧
        (∀ k ∈ (v.grow g).prev, ∀ im, (v.grow g).img k = some im → im.Covers (v.far v.current)) ∧
        (v.grow g).MainFar := by
    rintro target F failOk allocs g rfl hok hT
    refine ⟨I.clear.grow_to H hT hok, (I.clear.grow H hT).covers, ?_⟩
    refine I.mainFar.congr rfl fun k im' _ him' => ?_
    obtain ⟨im, him, hkept, -⟩ := H.grown him'
    exact ⟨im, him, hkept.far⟩
  cases h with
  | @xfer u c ru k im im' flags isExit allocs g fate sp kf hCx hc hu hcur hx hrd hk him hd hg hfate
      him' hsp hexit hkf hpanic hstrict =>
      obtain ⟨-, hs⟩ := S.current_of hc
      obtain ⟨hok, -⟩ := chosen_of_chooseFate hfate
      obtain ⟨K, hcov, M⟩ := hgrown hg hok (I.target_far H hu)
      have hHg : Core leak (v.grow g) := hg ▸ H.grow _ _ _ _
      rw [far_eq hc] at hcov
      have Kd := K.depart hHg fate fun _ => hcov
      have Md := M.depart hHg hs ru.stackFar fate
      have himd : ((v.grow g).depart c ru.stackFar fate).img k = some im' :=
        (depart_img_of_ne (v.grow g) c _ fate (Nat.ne_of_lt (H.lt_nextStack him))).trans him'
      have hrc : im'.refcount = im.refcount := by
        obtain ⟨im₀, him₀, hkept, -⟩ := H.grown (hg ▸ him')
        obtain rfl := Option.some.inj (him.symm.trans him₀)
        exact hkept.refcount
      rw [settle_of_unstarted (hstrict True.intro)]
      have hfar : (((v.grow g).depart c ru.stackFar fate).restore u ru k im').far u = ru.stackFar :=
        far_eq (r := { ru with stack := none }) restore_tealets_self
      refine ⟨?_, Md.restore himd⟩
      show Clear _ (View.far _ u) _
      rw [hfar]
      have Km : Clear { (v.grow g).depart c ru.stackFar fate with
          mem := im'.value ((v.grow g).depart c ru.stackFar fate).mem } ru.stackFar
          (Dropped v ru.stack) := Kd.congr rfl rfl
      have hrel : Clear (View.release { (v.grow g).depart c ru.stackFar fate with
          mem := im'.value ((v.grow g).depart c ru.stackFar fate).mem } k im') ru.stackFar
          fun _ => False := by
        refine Km.release himd fun x hor hdrop => ?_
        obtain rfl := Option.some.inj (hk.symm.trans hdrop.1)
        rcases hor with hne | hlt
        · exact hne rfl
        · exact Nat.not_lt_of_le (hdrop.2.2 im him) (hrc ▸ hlt)
      exact hrel.congr rfl rfl
  | @start u c ru allocs g sp kf hCs hc hnew hb hx hrd hq hk hfar hg hok hsp hst hcap =>
      obtain ⟨K, hcov, M⟩ := hgrown hg hok nofun
      have hHg : Core leak (v.grow g) := hg ▸ H.grow _ _ _ _
      rw [far_eq hc] at hcov
      have hrun : (((v.grow g).save v.current c ru.stackFar sp kf).arrive u ru).far u =
          ru.stackFar := far_eq (Function.update_self ..)
      refine ⟨?_, ?_⟩
      · show Clear _ (View.far _ u) _
        rw [hrun]
        have Ks : Clear ((v.grow g).save v.current c ru.stackFar sp kf) ru.stackFar
            (Dropped v none) := K.save hHg fun _ => hcov
        have Ka : Clear (((v.grow g).save v.current c ru.stackFar sp kf).arrive u ru) ru.stackFar
            (Dropped v none) := Ks.congr rfl rfl
        exact Ka.mono (Nat.le_refl _) fun k _ _ _ _ hdrop _ => nomatch hdrop.1
      · exact (M.save hHg).setTealet (t := u) (o := some ru) hk
  | @capture u c ru allocs g sp kf hCs hc hnew hb hx hrd hq hfar hg hok hsp hst hcap =>
      obtain ⟨K, -, M⟩ := hgrown hg hok nofun
      have hHg : Core leak (v.grow g) := hg ▸ H.grow _ _ _ _
      have hle := hC.capture v u ru.stackFar allocs hCs hnew
      rw [far_eq hc] at hle
      have hcov : c.stackFar < ru.stackFar → (v.grow g).SavedTo ru.stackFar := by
        intro hlt
        subst hg
        exact (hle.resolve_left (Nat.not_le_of_lt hlt)).grown H
      have htc : v.current ≠ u := by
        rintro rfl
        cases (S.current_of hnew).1.bound
      have hrun : ((v.grow g).save u ru c.stackFar sp kf).far v.current = c.stackFar :=
        far_eq ((Function.update_of_ne htc _ _).trans hc)
      refine ⟨?_, M.save hHg⟩
      show Clear _ (View.far _ v.current) _
      rw [hrun]
      refine (K.save hHg hcov).mono (Nat.le_refl _) ?_
      exact fun k _ _ _ _ hdrop _ => nomatch hdrop.1

end Moves

/-! ## When every allocation succeeds -/

section Plenty

/-- The allocations in store for an attempt. -/
def Label.allocs : Label → List Bool
  | .xfer _ _ _ allocs | .start _ _ allocs | .capture _ _ allocs => allocs
  | _ => []

/-- A transfer to another tealet than the running one, or a start. -/
def Label.Jumps (v : View) : Label → Prop
  | .xfer t _ _ _ => t ≠ v.current
  | .start .. | .capture .. => True
  | _ => False

/-- No allocation fails. -/
def Plentiful (C : View → Label → Prop) : Prop :=
  ∀ v l, C v l → l.Jumps v → ∀ ok ∈ l.allocs, ok = true

variable {m : Memory} {main target : Option StackId} {F : Nat} {failOk : Bool}
  {l : List StackId} {img : Images} {allocs : List Bool}

theorem nextAlloc_plenty (h : ∀ ok ∈ allocs, ok = true) :
    (nextAlloc allocs).1 = true ∧ ∀ ok ∈ (nextAlloc allocs).2, ok = true := by
  cases allocs with
  | nil => exact ⟨rfl, h⟩
  | cons ok rest => exact ⟨h ok (by simp), fun x hx => h x (List.mem_cons_of_mem _ hx)⟩

theorem Image.growto_plenty {im : Image} {stop : Bool} (h : ∀ ok ∈ allocs, ok = true) :
    ∃ im' rest, im.growto m F stop allocs = (some im', rest) ∧ im'.defunct = im.defunct ∧
      ∀ ok ∈ rest, ok = true := by
  obtain ⟨h₁, h₂⟩ := nextAlloc_plenty h
  unfold Image.growto
  split
  · exact ⟨im, allocs, rfl, rfl, h⟩
  · rcases hal : nextAlloc allocs with ⟨ok, rest⟩
    rw [hal] at h₁ h₂
    obtain rfl : ok = true := h₁
    exact ⟨im.extend m F, rest, rfl, rfl, h₂⟩

/-- What a growth with enough memory does. -/
structure Affords (img : Images) (g : Growth) : Prop where
  ok : g.failed = false
  allocs : ∀ ok ∈ g.allocs, ok = true
  unspoiled : ∀ k im', g.img k = some im' → ∃ im, img k = some im ∧ im'.defunct = im.defunct

theorem growList_plenty (h : ∀ ok ∈ allocs, ok = true) :
    Affords img (growList m main target F failOk l img allocs) := by
  have hrefl : ∀ {img : Images} k im', img k = some im' →
      ∃ im, img k = some im ∧ im'.defunct = im.defunct := fun k im' h => ⟨im', h, rfl⟩
  induction l generalizing img allocs with
  | nil => exact ⟨rfl, h, hrefl⟩
  | cons k ks ih =>
      cases him : img k with
      | none =>
          simp only [growList, him]
          exact ⟨rfl, h, hrefl⟩
      | some im =>
          by_cases ht : target = some k ∧ im.refcount ≤ 1
          · rw [growList_target him ht]
            exact ⟨rfl, h, hrefl⟩
          · obtain ⟨im', rest, hg, hd, hrest⟩ : ∃ im' rest,
                im.growto m F (failOk || decide (main = some k)) allocs = (some im', rest) ∧
                  im'.defunct = im.defunct ∧ ∀ ok ∈ rest, ok = true := Image.growto_plenty h
            have hstep : ∀ x imx', Function.update img k (some im') x = some imx' →
                ∃ imx, img x = some imx ∧ imx'.defunct = imx.defunct := by
              intro x imx' hx
              by_cases hxk : x = k
              · subst hxk
                rw [Function.update_self] at hx
                cases hx
                exact ⟨im, him, hd⟩
              · rw [Function.update_of_ne hxk] at hx
                exact ⟨imx', hx, rfl⟩
            by_cases hk : target = some k
            · rw [growList_shared him ht hg hk]
              exact ⟨rfl, hrest, hstep⟩
            · rw [growList_next him hg hk]
              obtain ⟨h₁, h₂, h₃⟩ : Affords (Function.update img k (some im')) _ := ih hrest
              refine ⟨h₁, h₂, fun x imx' hx => ?_⟩
              obtain ⟨imx, himx, hdx⟩ := h₃ x imx' hx
              obtain ⟨imx₀, himx₀, hdx₀⟩ := hstep x imx himx
              exact ⟨imx₀, himx₀, hdx.trans hdx₀⟩

theorem chooseFate_plenty {g : Growth} (h : Affords img g) (flags : TFlags) (sp : Nat) (k : Frame) :
    (chooseFate g flags failOk sp k).1 ≠ none := by
  unfold chooseFate
  rw [if_neg (by simp [h.ok])]
  split
  · exact nofun
  · rcases hal : nextAlloc g.allocs with ⟨ok, rest⟩
    have hok := (nextAlloc_plenty h.allocs).1
    rw [hal] at hok
    obtain rfl : ok = true := hok
    exact nofun

end Plenty

end Tealet
