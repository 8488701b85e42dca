import Mathlib.Data.List.Count
import Mathlib.Logic.Function.Basic
import Tealet.Base

/-!
# What a saved stack stands for

The abstract model of the storage: a saved stack is an *image*, a prefix
of the slice `[near, far)` of memory; the rest of the slice is still live
memory. The image stands for the memory one gets by storing the prefix
over the live memory (`Image.value`). Growing an image reads the next
bytes from live memory and so changes nothing of what it stands for
(`value_extend`); writing nearer than a boundary `F` changes nothing of
what an image that *covers* `F` stands for (`value_congr`).

`growList` is the pass over the partial images, newest first, that makes
them cover the boundary of the tealet that runs next.
-/

namespace Tealet

open Slice

/-- `first` are the bytes saved with the image, `rest` those each growth
added; a defunct image has lost its `rest` and counts as empty. -/
structure Image where
  near : Nat
  far : Nat
  first : List Byte
  rest : List (List Byte)
  refcount : Nat
  defunct : Bool
  frame : Frame
deriving DecidableEq, Repr

namespace Image

def data (im : Image) : List Byte := im.first ++ im.rest.flatten

def saved (im : Image) : Nat := if im.defunct then 0 else im.data.length

/-- The end of the saved prefix. -/
def top (im : Image) : Nat := im.near + im.saved

/-- The memory the image stands for while `m` is live. -/
def value (im : Image) (m : Memory) : Memory := writeSlice m im.near im.data

/-- Nothing nearer than `F` is missing from the prefix. -/
def Covers (im : Image) (F : Nat) : Prop := min im.far F ≤ im.top

instance (im : Image) (F : Nat) : Decidable (im.Covers F) :=
  inferInstanceAs (Decidable (_ ≤ _))

/-- The image with the bytes up to `F` read from live memory. -/
def extend (im : Image) (m : Memory) (F : Nat) : Image :=
  { im with rest := im.rest ++ [readSlice m im.top (min im.far F - im.top)] }

/-- The image of a stack that is saved for the first time, at `near`. -/
def capture (m : Memory) (near far F : Nat) (k : Frame) : Image :=
  ⟨near, far, readSlice m near (min far F - near), [], 1, false, k⟩

def spoil (im : Image) : Image := { im with rest := [], defunct := true }

variable {im : Image} {m m' : Memory} {F : Nat}

theorem saved_of_not_defunct (h : im.defunct = false) : im.saved = im.data.length := by
  simp [saved, h]

theorem top_of_not_defunct (h : im.defunct = false) : im.top = im.near + im.data.length := by
  simp [top, saved, h]

@[simp] theorem extend_near : (im.extend m F).near = im.near := rfl
@[simp] theorem extend_far : (im.extend m F).far = im.far := rfl
@[simp] theorem extend_first : (im.extend m F).first = im.first := rfl
@[simp] theorem extend_refcount : (im.extend m F).refcount = im.refcount := rfl
@[simp] theorem extend_defunct : (im.extend m F).defunct = im.defunct := rfl
@[simp] theorem extend_frame : (im.extend m F).frame = im.frame := rfl

@[simp] theorem spoil_near : im.spoil.near = im.near := rfl
@[simp] theorem spoil_far : im.spoil.far = im.far := rfl
@[simp] theorem spoil_first : im.spoil.first = im.first := rfl
@[simp] theorem spoil_refcount : im.spoil.refcount = im.refcount := rfl
@[simp] theorem spoil_defunct : im.spoil.defunct = true := rfl
@[simp] theorem spoil_frame : im.spoil.frame = im.frame := rfl

theorem extend_data (im : Image) (m : Memory) (F : Nat) : (im.extend m F).data =
    im.data ++ readSlice m im.top (min im.far F - im.top) := by
  simp [data, extend]

theorem extend_top (h : im.defunct = false) : (im.extend m F).top = max im.top (min im.far F) := by
  have hlen := congrArg List.length (extend_data im m F)
  rw [List.length_append, readSlice_length] at hlen
  have hext : (im.extend m F).top = im.near + (im.extend m F).data.length :=
    top_of_not_defunct (by simpa using h)
  rw [hext, hlen, top_of_not_defunct h]
  omega

/-- Growing does not change what an image stands for. -/
theorem value_extend (h : im.defunct = false) : (im.extend m F).value m = im.value m := by
  rw [value, extend_data, extend_near, top_of_not_defunct h]
  exact writeSlice_append_readSlice m im.near _ im.data

/-- Live memory may change nearer than `F` under an image that covers `F`. -/
theorem value_congr (hc : im.Covers F) (hd : im.defunct = false)
    (hm : ∀ x, F ≤ x → m' x = m x) {x : Nat} (hx : im.near ≤ x) (hfar : x < im.far) :
    im.value m' x = im.value m x := by
  refine writeSlice_congr (fun _ hge => hm x ?_) hx
  rw [Covers, top_of_not_defunct hd] at hc
  omega

end Image

/-! ## Allocation outcomes -/

/-- The outcome of the next allocation and those behind it. -/
def nextAlloc : List Bool → Bool × List Bool
  | [] => (true, [])
  | ok :: rest => (ok, rest)

/-! ## Growing the list -/

/-- Growing one image to `F`; `none` when the allocation fails and `stop`
says that the image must not be dropped. -/
def Image.growto (m : Memory) (F : Nat) (stop : Bool) (allocs : List Bool) (im : Image) :
    Option Image × List Bool :=
  if im.Covers F then (some im, allocs)
  else
    match nextAlloc allocs with
    | (true, rest) => (some (im.extend m F), rest)
    | (false, rest) => (if stop then none else some im.spoil, rest)

/-- What stays of an image while it grows: its place, its first bytes, its
owners and its frame. -/
structure Image.Kept (im im' : Image) : Prop where
  near : im'.near = im.near
  far : im'.far = im.far
  first : im'.first = im.first
  refcount : im'.refcount = im.refcount
  frame : im'.frame = im.frame

theorem Image.Kept.refl (im : Image) : im.Kept im := ⟨rfl, rfl, rfl, rfl, rfl⟩

theorem Image.Kept.trans {im₁ im₂ im₃ : Image} (h : im₁.Kept im₂) (h' : im₂.Kept im₃) :
    im₁.Kept im₃ :=
  ⟨h'.near.trans h.near, h'.far.trans h.far, h'.first.trans h.first,
    h'.refcount.trans h.refcount, h'.frame.trans h.frame⟩

theorem Image.growto_kept {m : Memory} {F : Nat} {stop : Bool} {allocs rest : List Bool}
    {im im' : Image} (h : im.growto m F stop allocs = (some im', rest)) : im.Kept im' := by
  rw [growto] at h
  split at h
  · cases h
    exact .refl im
  · split at h
    · cases h
      exact ⟨rfl, rfl, rfl, rfl, rfl⟩
    · split at h <;> cases h
      exact ⟨rfl, rfl, rfl, rfl, rfl⟩

/-- An image grown to `F` stays partial and usable. -/
def Image.Stays (im : Image) (F : Nat) : Prop := im.defunct = false ∧ F < im.far

instance (im : Image) (F : Nat) : Decidable (im.Stays F) :=
  inferInstanceAs (Decidable (_ ∧ _))

abbrev Images := StackId → Option Image

structure Growth where
  img : Images
  /-- the part of the list that is left -/
  keep : List StackId
  allocs : List Bool
  failed : Bool

section GrowList

variable (m : Memory) (main target : Option StackId) (F : Nat) (failOk : Bool)

/-- `tealet_stack_grow_list` on images. -/
def growList : List StackId → Images → List Bool → Growth
  | [], img, allocs => ⟨img, [], allocs, false⟩
  | k :: ks, img, allocs =>
      match img k with
      | none => ⟨img, k :: ks, allocs, false⟩
      | some im =>
          if target = some k ∧ im.refcount ≤ 1 then ⟨img, ks, allocs, false⟩
          else
            match im.growto m F (failOk || decide (main = some k)) allocs with
            | (none, allocs) => ⟨img, k :: ks, allocs, true⟩
            | (some im', allocs) =>
                let img := Function.update img k (some im')
                if target = some k then ⟨img, ks, allocs, false⟩
                else
                  let g := growList ks img allocs
                  { g with keep := if im'.Stays F then k :: g.keep else g.keep }

variable {m main target F failOk} {k : StackId} {ks : List StackId} {img : Images}
  {allocs rest : List Bool} {im im' : Image}

theorem growList_target (him : img k = some im) (ht : target = some k ∧ im.refcount ≤ 1) :
    growList m main target F failOk (k :: ks) img allocs = ⟨img, ks, allocs, false⟩ := by
  simp only [growList, him, if_pos ht]

theorem growList_failed (him : img k = some im) (ht : ¬ (target = some k ∧ im.refcount ≤ 1))
    (hg : im.growto m F (failOk || decide (main = some k)) allocs = (none, rest)) :
    growList m main target F failOk (k :: ks) img allocs = ⟨img, k :: ks, rest, true⟩ := by
  simp only [growList, him, if_neg ht, hg]

theorem growList_shared (him : img k = some im) (ht : ¬ (target = some k ∧ im.refcount ≤ 1))
    (hg : im.growto m F (failOk || decide (main = some k)) allocs = (some im', rest))
    (hk : target = some k) :
    growList m main target F failOk (k :: ks) img allocs =
      ⟨Function.update img k (some im'), ks, rest, false⟩ := by
  simp only [growList, him, if_neg ht, hg, if_pos hk]

theorem growList_next (him : img k = some im)
    (hg : im.growto m F (failOk || decide (main = some k)) allocs = (some im', rest))
    (hk : target ≠ some k) :
    growList m main target F failOk (k :: ks) img allocs =
      let g := growList m main target F failOk ks (Function.update img k (some im')) rest
      { g with keep := if im'.Stays F then k :: g.keep else g.keep } := by
  have ht : ¬ (target = some k ∧ im.refcount ≤ 1) := fun h => hk h.1
  simp only [growList, him, if_neg ht, hg, if_neg hk]

/-- Whatever each growth of a single image keeps, the pass keeps. -/
theorem growList_induction {P : Images → Prop} {l : List StackId}
    (hstep : ∀ img k im im' allocs rest, k ∈ l → img k = some im →
      im.growto m F (failOk || decide (main = some k)) allocs = (some im', rest) → P img →
      P (Function.update img k (some im')))
    (h : P img) : P (growList m main target F failOk l img allocs).img := by
  induction l generalizing img allocs with
  | nil => exact h
  | cons k ks ih =>
      cases him : img k with
      | none => simpa only [growList, him] using h
      | some im =>
          by_cases ht : target = some k ∧ im.refcount ≤ 1
          · rw [growList_target him ht]
            exact h
          · rcases hg : im.growto m F (failOk || decide (main = some k)) allocs with ⟨r, rest⟩
            cases r with
            | none =>
                rw [growList_failed him ht hg]
                exact h
            | some im' =>
                have h' := hstep img k im im' allocs rest (by simp) him hg h
                by_cases hk : target = some k
                · rw [growList_shared him ht hg hk]
                  exact h'
                · rw [growList_next him hg hk]
                  exact ih (fun img' x imx imx' al al' hx =>
                    hstep img' x imx imx' al al' (List.mem_cons_of_mem _ hx)) h'

theorem growList_kept {l : List StackId} {x : StackId} (him : img x = some im) :
    ∃ im', (growList m main target F failOk l img allocs).img x = some im' ∧ im.Kept im' := by
  refine growList_induction (P := fun img' => ∃ im', img' x = some im' ∧ im.Kept im') ?_
    ⟨im, him, .refl im⟩
  rintro img' k imk imk' al al' - hk hg ⟨im', him', hkept⟩
  by_cases hx : x = k
  · subst hx
    obtain rfl : imk = im' := Option.some.inj (hk.symm.trans him')
    exact ⟨imk', Function.update_self .., hkept.trans (Image.growto_kept hg)⟩
  · exact ⟨im', (Function.update_of_ne hx _ _).trans him', hkept⟩

theorem growList_none {l : List StackId} {x : StackId} (him : img x = none) :
    (growList m main target F failOk l img allocs).img x = none := by
  refine growList_induction (P := fun img' => img' x = none) ?_ him
  intro img' k imk imk' al al' _ hk _ hnone
  have hx : x ≠ k := by
    rintro rfl
    rw [hnone] at hk
    cases hk
  exact (Function.update_of_ne hx _ _).trans hnone

end GrowList

/-! ## What one pass does

`GrowSplit` cuts the list in two: the images the pass went through, and
those from the one on at which it stopped: the target, or an image that
could not be grown. -/

/-- What growing one image to `F` does to it. -/
inductive Image.Grew (m : Memory) (F : Nat) (stop : Bool) (im : Image) : Image → Prop where
  | covered (hc : im.Covers F) : Grew m F stop im im
  | extended (hc : ¬ im.Covers F) : Grew m F stop im (im.extend m F)
  | spoiled (hc : ¬ im.Covers F) (hs : stop = false) : Grew m F stop im im.spoil

theorem Image.growto_grew {m : Memory} {F : Nat} {stop : Bool} {allocs rest : List Bool}
    {im im' : Image} (h : im.growto m F stop allocs = (some im', rest)) : im.Grew m F stop im' := by
  rw [growto] at h
  split at h
  · rename_i hc
    cases h
    exact .covered hc
  · rename_i hc
    split at h
    · cases h
      exact .extended hc
    · split at h
      · cases h
      · rename_i hs
        cases h
        exact .spoiled hc (by simpa using hs)

theorem Image.growto_stuck {m : Memory} {F : Nat} {stop : Bool} {allocs rest : List Bool}
    {im : Image} (h : im.growto m F stop allocs = (none, rest)) : ¬ im.Covers F ∧ stop = true := by
  rw [growto] at h
  split at h
  · cases h
  · rename_i hc
    split at h
    · cases h
    · split at h
      · rename_i hs
        exact ⟨hc, hs⟩
      · cases h

/-- Whether the image of `k` stays in the list. -/
def staysIn (img : Images) (F : Nat) (k : StackId) : Bool :=
  match img k with
  | some im => decide (im.Stays F)
  | none => false

structure GrowSplit (m : Memory) (main target : Option StackId) (F : Nat) (failOk : Bool)
    (l : List StackId) (img : Images) (g : Growth) (pre post : List StackId) : Prop where
  split : l = pre ++ post
  grown : ∀ x ∈ pre, target ≠ some x ∧ ∃ im im', img x = some im ∧ g.img x = some im' ∧
    im.Grew m F (failOk || decide (main = some x)) im'
  keep : g.keep = pre.filter (staysIn g.img F) ++ (if g.failed then post else post.tail)
  done : g.failed = false → post ≠ [] → ∃ k im im', post.head? = some k ∧ target = some k ∧
    img k = some im ∧ g.img k = some im' ∧
    (im.refcount ≤ 1 ∧ im' = im ∨
      1 < im.refcount ∧ im.Grew m F (failOk || decide (main = some k)) im')
  stuck : g.failed = true → ∃ k im, post.head? = some k ∧ img k = some im ∧
    g.img k = some im ∧ ¬ im.Covers F ∧ (failOk || decide (main = some k)) = true
  rest : ∀ x, x ∉ pre → post.head? ≠ some x → g.img x = img x

theorem growList_split {m : Memory} {main target : Option StackId} {F : Nat} {failOk : Bool}
    {l : List StackId} {img : Images} {allocs : List Bool} (hnd : l.Nodup)
    (hl : ∀ x ∈ l, ∃ im, img x = some im) :
    ∃ pre post, GrowSplit m main target F failOk l img
      (growList m main target F failOk l img allocs) pre post := by
  induction l generalizing img allocs with
  | nil =>
      exact ⟨[], [], rfl, by simp, by simp [growList], by simp, by simp [growList],
        fun _ _ _ => rfl⟩
  | cons k ks ih =>
      obtain ⟨im, him⟩ := hl k (by simp)
      obtain ⟨hk, hks⟩ := List.nodup_cons.mp hnd
      by_cases ht : target = some k ∧ im.refcount ≤ 1
      · rw [growList_target him ht]
        refine ⟨[], k :: ks, rfl, by simp, by simp, fun _ _ => ?_, by simp, fun _ _ _ => rfl⟩
        exact ⟨k, im, im, rfl, ht.1, him, him, .inl ⟨ht.2, rfl⟩⟩
      · rcases hg : im.growto m F (failOk || decide (main = some k)) allocs with ⟨_ | im', al⟩
        · obtain ⟨hc, hs⟩ := Image.growto_stuck hg
          rw [growList_failed him ht hg]
          refine ⟨[], k :: ks, rfl, by simp, by simp, by simp, fun _ => ?_, fun _ _ _ => rfl⟩
          exact ⟨k, im, rfl, him, him, hc, hs⟩
        · have hgrew := Image.growto_grew hg
          by_cases hkt : target = some k
          · rw [growList_shared him ht hg hkt]
            refine ⟨[], k :: ks, rfl, by simp, by simp, fun _ _ => ?_, by simp, ?_⟩
            · exact ⟨k, im, im', rfl, hkt, him, Function.update_self ..,
                .inr ⟨Nat.lt_of_not_le fun hle => ht ⟨hkt, hle⟩, hgrew⟩⟩
            · intro x _ hx
              exact Function.update_of_ne (by rintro rfl; exact hx rfl) _ _
          · rw [growList_next him hg hkt]
            have hne : ∀ x ∈ ks, x ≠ k := by rintro x hx rfl; exact hk hx
            obtain ⟨pre, post, S⟩ : ∃ pre post, GrowSplit m main target F failOk ks
                (Function.update img k (some im')) (growList m main target F failOk ks
                  (Function.update img k (some im')) al) pre post := ih hks (fun x hx => by
                rw [Function.update_of_ne (hne x hx)]
                exact hl x (List.mem_cons_of_mem _ hx))
            have hpre : ∀ x ∈ pre, x ≠ k := fun x hx => hne x (by rw [S.split]; simp [hx])
            have hpost : ∀ x, post.head? = some x → x ≠ k := fun x hx =>
              hne x (by rw [S.split]; simp [List.mem_of_mem_head? hx])
            have himk : (growList m main target F failOk ks (Function.update img k (some im'))
                al).img k = some im' := by
              rw [S.rest k (fun hm => hpre k hm rfl) (fun hm => hpost k hm rfl)]
              exact Function.update_self ..
            refine ⟨k :: pre, post, by simp [← S.split], ?_, ?_, ?_, ?_, ?_⟩
            · intro x hx
              rcases List.mem_cons.mp hx with rfl | hx
              · exact ⟨hkt, im, im', him, himk, hgrew⟩
              · obtain ⟨hxt, imx, imx', h₁, h₂, h₃⟩ := S.grown x hx
                rw [Function.update_of_ne (hpre x hx)] at h₁
                exact ⟨hxt, imx, imx', h₁, h₂, h₃⟩
            · have hstays : staysIn (growList m main target F failOk ks
                  (Function.update img k (some im')) al).img F k = decide (im'.Stays F) := by
                simp only [staysIn, himk]
              simp only [S.keep, List.filter_cons, hstays]
              by_cases hs : im'.Stays F <;> simp [hs]
            · intro hf hne'
              obtain ⟨x, imx, imx', h₁, h₂, h₃, h₄⟩ := S.done hf hne'
              rw [Function.update_of_ne (hpost x h₁)] at h₃
              exact ⟨x, imx, imx', h₁, h₂, h₃, h₄⟩
            · intro hf
              obtain ⟨x, imx, h₁, h₂, h₃⟩ := S.stuck hf
              rw [Function.update_of_ne (hpost x h₁)] at h₂
              exact ⟨x, imx, h₁, h₂, h₃⟩
            · intro x hx hx'
              have hxk : x ≠ k := by rintro rfl; exact hx (by simp)
              rw [S.rest x (fun hm => hx (List.mem_cons_of_mem _ hm)) hx']
              exact Function.update_of_ne hxk _ _

namespace Image.Grew

variable {m : Memory} {F : Nat} {stop : Bool} {im im' : Image}

theorem kept (h : im.Grew m F stop im') : im.Kept im' := by
  cases h with
  | covered => exact .refl im
  | extended => exact ⟨rfl, rfl, rfl, rfl, rfl⟩
  | spoiled => exact ⟨rfl, rfl, rfl, rfl, rfl⟩

theorem extent (h : im.Grew m F stop im') (hd : im.defunct = false)
    (he : im.near + im.data.length ≤ max im.near im.far) :
    im'.near + im'.data.length ≤ max im'.near im'.far := by
  cases h with
  | covered => exact he
  | extended hc =>
      have htop := extend_top (m := m) (F := F) hd
      have hd' : (im.extend m F).defunct = false := by simpa using hd
      rw [top_of_not_defunct hd', top_of_not_defunct hd, extend_near] at htop
      rw [extend_near, extend_far, htop]
      omega
  | spoiled =>
      have hlen : im.spoil.data.length ≤ im.data.length := by
        simp [data, spoil]
      rw [spoil_near, spoil_far]
      omega

/-- A stack of which no loss is allowed stays usable. -/
theorem defunct_of_stop (h : im.Grew m F stop im') (hs : stop = true) (hd : im.defunct = false) :
    im'.defunct = false := by
  cases h with
  | covered => exact hd
  | extended => simpa using hd
  | spoiled _ hs' =>
      rw [hs] at hs'
      cases hs'

/-- An image that stays in the list is still partial. -/
theorem partial_of_stays (h : im.Grew m F stop im') (ht : im.top < im.far) (hs : im'.Stays F) :
    im'.top < im'.far := by
  obtain ⟨hd, hF⟩ := hs
  cases h with
  | covered => exact ht
  | extended =>
      rw [extend_far] at hF ⊢
      rw [extend_top (by simpa using hd)]
      omega
  | spoiled => cases hd

/-- Growing covers the boundary, unless it spoils. -/
theorem covers (h : im.Grew m F stop im') (hd : im'.defunct = false) : im'.Covers F := by
  cases h with
  | covered hc => exact hc
  | extended =>
      rw [Covers, extend_top (by simpa using hd), extend_far]
      omega
  | spoiled => cases hd

theorem top (h : im.Grew m F stop im') (hd : im'.defunct = false) :
    im'.top = max im.top (min im.far F) := by
  cases h with
  | covered hc =>
      rw [Covers] at hc
      omega
  | extended => exact extend_top (by simpa using hd)
  | spoiled => cases hd

/-- What an image stands for does not change while it grows. -/
theorem value (h : im.Grew m F stop im') (hd : im'.defunct = false) :
    im'.value m = im.value m := by
  cases h with
  | covered => rfl
  | extended => exact value_extend (by simpa using hd)
  | spoiled => cases hd

/-- Growing does not revive. -/
theorem defunct_mono (h : im.Grew m F stop im') (hd : im'.defunct = false) :
    im.defunct = false := by
  cases h with
  | covered => exact hd
  | extended => simpa using hd
  | spoiled => cases hd

end Image.Grew

namespace GrowSplit

variable {m : Memory} {main target : Option StackId} {F : Nat} {failOk : Bool}
  {l : List StackId} {img : Images} {g : Growth} {pre post : List StackId} {x : StackId}
  {im im' : Image}

/-- Images of the list may have grown, the others are what they were. -/
theorem changed (S : GrowSplit m main target F failOk l img g pre post) (him : img x = some im) :
    ∃ im', g.img x = some im' ∧
      (im' = im ∨ x ∈ l ∧ im.Grew m F (failOk || decide (main = some x)) im') := by
  by_cases hpre : x ∈ pre
  · obtain ⟨-, im₀, im', h₀, h', hgrew⟩ := S.grown x hpre
    obtain rfl := Option.some.inj (him.symm.trans h₀)
    exact ⟨im', h', .inr ⟨by rw [S.split]; simp [hpre], hgrew⟩⟩
  by_cases hpost : post.head? = some x
  · cases hf : g.failed with
    | true =>
        obtain ⟨k, im₀, hk, h₀, h', -⟩ := S.stuck hf
        obtain rfl := Option.some.inj (hpost.symm.trans hk)
        obtain rfl := Option.some.inj (him.symm.trans h₀)
        exact ⟨im, h', .inl rfl⟩
    | false =>
        have hne : post ≠ [] := by
          rintro rfl
          cases hpost
        obtain ⟨k, im₀, im', hk, -, h₀, h', ⟨-, rfl⟩ | ⟨-, hgrew⟩⟩ := S.done hf hne
        all_goals
          obtain rfl := Option.some.inj (hpost.symm.trans hk)
          obtain rfl := Option.some.inj (him.symm.trans h₀)
        · exact ⟨_, h', .inl rfl⟩
        · exact ⟨im', h', .inr ⟨by rw [S.split]; simp [List.mem_of_mem_head? hpost], hgrew⟩⟩
  · exact ⟨im, (S.rest x hpre hpost).trans him, .inl rfl⟩

theorem keep_sublist (S : GrowSplit m main target F failOk l img g pre post) :
    g.keep.Sublist l := by
  rw [S.keep, S.split]
  refine List.Sublist.append List.filter_sublist ?_
  split
  · exact .refl _
  · exact List.tail_sublist _

/-- A member of the rest of the list was left alone. -/
theorem rest_of_mem (S : GrowSplit m main target F failOk l img g pre post) (hnd : l.Nodup)
    (hx : x ∈ if g.failed then post else post.tail) (him : img x = some im) :
    g.img x = some im := by
  rw [S.split] at hnd
  have hpre : x ∈ post → x ∉ pre := fun h h' => (List.nodup_append.mp hnd).2.2 x h' x h rfl
  cases hf : g.failed with
  | true =>
      rw [hf, if_pos rfl] at hx
      by_cases hpost : post.head? = some x
      · obtain ⟨k, im₀, hk, h₀, h', -⟩ := S.stuck hf
        obtain rfl := Option.some.inj (hpost.symm.trans hk)
        obtain rfl := Option.some.inj (him.symm.trans h₀)
        exact h'
      · exact (S.rest x (hpre hx) hpost).trans him
  | false =>
      simp only [hf, Bool.false_eq_true, if_false] at hx
      refine (S.rest x (hpre (List.mem_of_mem_tail hx)) ?_).trans him
      intro hhead
      have hnd' := (List.nodup_append.mp hnd).2.1
      cases post with
      | nil => cases hx
      | cons y ys =>
          obtain rfl := Option.some.inj hhead
          exact (List.nodup_cons.mp hnd').1 hx

/-- What stays in the list is partial. -/
theorem listed (S : GrowSplit m main target F failOk l img g pre post) (hnd : l.Nodup)
    (hl : ∀ x ∈ l, ∃ im, img x = some im ∧ im.defunct = false ∧ im.top < im.far)
    (hx : x ∈ g.keep) :
    ∃ im, g.img x = some im ∧ im.defunct = false ∧ im.top < im.far := by
  obtain ⟨im, him, hd, htop⟩ := hl x (S.keep_sublist.subset hx)
  rw [S.keep, List.mem_append] at hx
  rcases hx with hx | hx
  · obtain ⟨hpre, hstays⟩ := List.mem_filter.mp hx
    obtain ⟨-, im₀, im', h₀, h', hgrew⟩ := S.grown x hpre
    obtain rfl := Option.some.inj (him.symm.trans h₀)
    simp only [staysIn, h', decide_eq_true_eq] at hstays
    exact ⟨im', h', hstays.1, hgrew.partial_of_stays htop hstays⟩
  · exact ⟨im, S.rest_of_mem hnd hx him, hd, htop⟩

end GrowSplit

/-- The saved stacks and the list of those that are saved in part. -/
structure Saved where
  img : Images := fun _ => none
  prev : List StackId := []

end Tealet
