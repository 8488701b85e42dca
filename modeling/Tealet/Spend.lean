import Tealet.Saved

/-!
# What a pass over the list costs

Each image that the pass over `g_prev` does not find covered takes one
allocation. So whether the pass comes past the front of the list without a
loss is decided by as many of the next allocations as there are uncovered
images in the front.
-/

namespace Tealet

open Slice

/-- The next `n` allocations succeed. -/
def Paid (n : Nat) (allocs : List Bool) : Prop := ∀ ok ∈ allocs.take n, ok = true

instance (n : Nat) (allocs : List Bool) : Decidable (Paid n allocs) :=
  inferInstanceAs (Decidable (∀ ok ∈ _, _))

theorem paid_zero (allocs : List Bool) : Paid 0 allocs := by simp [Paid]

theorem paid_succ {n : Nat} {allocs : List Bool} :
    Paid (n + 1) allocs ↔ (nextAlloc allocs).1 = true ∧ Paid n (nextAlloc allocs).2 := by
  cases allocs with
  | nil => simp [Paid, nextAlloc]
  | cons ok rest => simp [Paid, nextAlloc]

/-- Whether the image of `k` has to grow for the boundary `F`. -/
def uncovered (img : Images) (F : Nat) (k : StackId) : Bool :=
  match img k with
  | some im => !decide (im.Covers F)
  | none => false

section Cost

variable {m : Memory} {main target : Option StackId} {F : Nat} {failOk stop : Bool}
  {img : Images} {allocs rest : List Bool} {k : StackId} {ks pre post : List StackId}
  {im im' : Image}

theorem growList_other {l : List StackId} {x : StackId} (hx : x ∉ l) :
    (growList m main target F failOk l img allocs).img x = img x := by
  refine growList_induction (P := fun img' => img' x = img x) ?_ rfl
  intro img' y _ _ _ _ hy _ _ h
  rw [Function.update_of_ne (by rintro rfl; exact hx hy), h]

theorem countP_update (hk : k ∉ ks) :
    ks.countP (uncovered (Function.update img k (some im')) F) = ks.countP (uncovered img F) := by
  refine List.countP_congr fun x hx => ?_
  rw [uncovered, uncovered, Function.update_of_ne (by rintro rfl; exact hk hx)]

/-- What growing one image takes from the allocations in store. -/
theorem Image.growto_paid (h : im.growto m F stop allocs = (some im', rest))
    (hd : im.defunct = false) (him : img k = some im) (n : Nat) :
    im'.defunct = false ∧ Paid n rest ↔ Paid (n + if uncovered img F k then 1 else 0) allocs := by
  rw [growto] at h
  rw [uncovered, him]
  split at h
  · rename_i hc
    cases h
    simp [hc, hd]
  · rename_i hc
    simp only [hc, decide_false, Bool.not_false, if_true]
    rw [paid_succ]
    split at h
    · rename_i r hn
      cases h
      simp [hn, hd]
    · rename_i r hn
      split at h
      · cases h
      · cases h
        simp [hn]

/-- Under FORCE the front of the list, in which neither the target nor main
is, comes through without a loss if its allocations succeed. -/
theorem growList_unspoiled (hnd : (pre ++ post).Nodup)
    (hpre : ∀ x ∈ pre, target ≠ some x ∧ main ≠ some x ∧
      ∃ im, img x = some im ∧ im.defunct = false) :
    (∀ x ∈ pre, ∀ im', (growList m main target F false (pre ++ post) img allocs).img x = some im' →
      im'.defunct = false) ↔ Paid (pre.countP (uncovered img F)) allocs := by
  induction pre generalizing img allocs with
  | nil => simp [paid_zero]
  | cons k ks ih =>
      obtain ⟨ht, hm, im, him, hd⟩ := hpre k List.mem_cons_self
      rw [List.cons_append, List.nodup_cons] at hnd
      obtain ⟨hk, hnd⟩ := hnd
      have hkks : k ∉ ks := fun h => hk (List.mem_append_left _ h)
      rcases hg : im.growto m F (false || decide (main = some k)) allocs with ⟨_ | im', rest⟩
      · obtain ⟨-, hs⟩ := Image.growto_stuck hg
        exact absurd (by simpa using hs) hm
      have hrest := @ih (Function.update img k (some im')) rest hnd fun x hx => by
        obtain ⟨h₁, h₂, h₃⟩ := hpre x (List.mem_cons_of_mem _ hx)
        rw [Function.update_of_ne (by rintro rfl; exact hkks hx)]
        exact ⟨h₁, h₂, h₃⟩
      rw [countP_update hkks] at hrest
      rw [List.cons_append, growList_next him hg ht]
      dsimp only
      rw [List.countP_cons, ← Image.growto_paid hg hd him, ← hrest, List.forall_mem_cons,
        growList_other hk, Function.update_self]
      refine and_congr_left fun _ => ⟨fun h => h im' rfl, ?_⟩
      intro h im₁ h₁
      obtain rfl := Option.some.inj h₁
      exact h

/-- A transfer that may fail gets to its target, in the list and not
shared, if the allocations for the images in front of it succeed. -/
theorem growList_reaches (ht : target = some k) (him : img k = some im) (href : im.refcount ≤ 1)
    (hk : k ∉ pre) (hpre : ∀ x ∈ pre, ∃ im, img x = some im ∧ im.defunct = false)
    (hnd : pre.Nodup) :
    (growList m main target F true (pre ++ k :: post) img allocs).failed = false ↔
      Paid (pre.countP (uncovered img F)) allocs := by
  induction pre generalizing img allocs with
  | nil =>
      rw [List.nil_append, growList_target him ⟨ht, href⟩]
      simp [paid_zero]
  | cons y ys ih =>
      obtain ⟨imy, himy, hd⟩ := hpre y List.mem_cons_self
      obtain ⟨hy, hnd⟩ := List.nodup_cons.mp hnd
      have hyk : k ≠ y := fun h => hk (h ▸ List.mem_cons_self)
      have hty : target ≠ some y := by
        rw [ht]
        exact fun h => hyk (Option.some.inj h)
      rcases hg : imy.growto m F (true || decide (main = some y)) allocs with ⟨_ | im', rest⟩
      · rw [List.cons_append, growList_failed himy (fun h => hty h.1) hg]
        rw [Image.growto] at hg
        split at hg
        · cases hg
        · rename_i hc
          split at hg
          · cases hg
          · rename_i r hn
            have hu : uncovered img F y = true := by simp [uncovered, himy, hc]
            rw [List.countP_cons, hu, if_pos rfl, paid_succ, hn]
            simp
      · have hgrew := (Image.growto_grew hg).defunct_of_stop (by simp) hd
        have hrest := @ih (Function.update img y (some im')) rest
          ((Function.update_of_ne hyk ..).trans him) (fun h => hk (List.mem_cons_of_mem _ h))
          (fun x hx => by
            rw [Function.update_of_ne (by rintro rfl; exact hy hx)]
            exact hpre x (List.mem_cons_of_mem _ hx)) hnd
        rw [countP_update hy] at hrest
        rw [List.cons_append, growList_next himy hg hty]
        dsimp only
        rw [List.countP_cons, ← Image.growto_paid hg hd himy, hrest]
        simp [hgrew]

theorem nextAlloc_rest (allocs : List Bool) : (nextAlloc allocs).2 = allocs.drop 1 := by
  cases allocs <;> rfl

/-- Growing one image takes an allocation if the image is not covered. -/
theorem Image.growto_rest (h : im.growto m F stop allocs = (some im', rest))
    (him : img k = some im) :
    rest = allocs.drop (if uncovered img F k then 1 else 0) := by
  rw [growto] at h
  rw [uncovered, him]
  split at h
  · rename_i hc
    cases h
    simp [hc]
  · rename_i hc
    simp only [hc, decide_false, Bool.not_false, if_true]
    rw [← nextAlloc_rest]
    split at h
    · rename_i r hn
      cases h
      rw [hn]
    · rename_i r hn
      obtain ⟨-, rfl⟩ := Prod.mk.inj h
      rw [hn]

/-- The pass gets stuck in the front of the list, in which the target is
not, or it goes on behind it with as many allocations less as there are
uncovered images in the front. -/
theorem growList_front (hpre : ∀ x ∈ pre, target ≠ some x ∧ ∃ im, img x = some im)
    (hnd : pre.Nodup) : ∀ g, growList m main target F failOk (pre ++ post) img allocs = g →
      (g.failed = true ∧ ∀ x, x ∉ pre → g.img x = img x) ∨
      ∃ img₁, (∀ x, x ∉ pre → img₁ x = img x) ∧ ∀ g₁, growList m main target F failOk post img₁
          (allocs.drop (pre.countP (uncovered img F))) = g₁ →
        g.img = g₁.img ∧ g.allocs = g₁.allocs ∧ g.failed = g₁.failed := by
  induction pre generalizing img allocs with
  | nil =>
      rintro g rfl
      refine .inr ⟨img, fun _ _ => rfl, ?_⟩
      rintro g₁ rfl
      exact ⟨rfl, rfl, rfl⟩
  | cons y ys ih =>
      rintro g rfl
      obtain ⟨hty, imy, himy⟩ := hpre y List.mem_cons_self
      obtain ⟨hy, hnd⟩ := List.nodup_cons.mp hnd
      rcases hg : imy.growto m F (failOk || decide (main = some y)) allocs with ⟨_ | im', rest⟩
      · rw [List.cons_append, growList_failed himy (fun h => hty h.1) hg]
        exact .inl ⟨rfl, fun _ _ => rfl⟩
      · have hout : ∀ x, x ∉ y :: ys → x ∉ ys ∧ Function.update img y (some im') x = img x := by
          intro x hx
          obtain ⟨hxy, hxs⟩ := List.ne_and_not_mem_of_not_mem_cons hx
          exact ⟨hxs, Function.update_of_ne hxy ..⟩
        have hrest := @ih (Function.update img y (some im')) rest (fun x hx => by
          obtain ⟨h₁, h₂⟩ := hpre x (List.mem_cons_of_mem _ hx)
          rw [Function.update_of_ne (by rintro rfl; exact hy hx)]
          exact ⟨h₁, h₂⟩) hnd _ rfl
        rw [countP_update hy, Image.growto_rest hg himy, List.drop_drop] at hrest
        rw [List.cons_append, growList_next himy hg hty, List.countP_cons,
          Image.growto_rest hg himy, Nat.add_comm]
        rcases hrest with ⟨hf, himg⟩ | ⟨img₁, himg, hrest⟩
        · exact .inl ⟨hf, fun x hx => (himg x (hout x hx).1).trans (hout x hx).2⟩
        · exact .inr ⟨img₁, fun x hx => (himg x (hout x hx).1).trans (hout x hx).2, hrest⟩

/-- Without a target the pass takes an allocation for each uncovered image,
and fails with the first of them that fails. -/
theorem growList_paid {l : List StackId} (hl : ∀ x ∈ l, ∃ im, img x = some im ∧ im.defunct = false)
    (hnd : l.Nodup) (n : Nat) :
    (growList m main none F true l img allocs).failed = false ∧
      Paid n (growList m main none F true l img allocs).allocs ↔
        Paid (l.countP (uncovered img F) + n) allocs := by
  induction l generalizing img allocs with
  | nil => simp [growList]
  | cons y ys ih =>
      obtain ⟨imy, himy, hd⟩ := hl y List.mem_cons_self
      obtain ⟨hy, hnd⟩ := List.nodup_cons.mp hnd
      have hno : (none : Option StackId) ≠ some y := (Option.some_ne_none y).symm
      rcases hg : imy.growto m F (true || decide (main = some y)) allocs with ⟨_ | im', rest⟩
      · rw [growList_failed himy (fun h => hno h.1) hg]
        rw [Image.growto] at hg
        split at hg
        · cases hg
        · rename_i hc
          split at hg
          · cases hg
          · rename_i r hn
            have hu : uncovered img F y = true := by simp [uncovered, himy, hc]
            rw [List.countP_cons, hu, if_pos rfl, Nat.add_right_comm, paid_succ, hn]
            simp
      · have hgrew := (Image.growto_grew hg).defunct_of_stop (by simp) hd
        have hrest := @ih (Function.update img y (some im')) rest (fun x hx => by
            rw [Function.update_of_ne (by rintro rfl; exact hy hx)]
            exact hl x (List.mem_cons_of_mem _ hx)) hnd
        rw [countP_update hy] at hrest
        rw [growList_next himy hg hno]
        dsimp only
        rw [List.countP_cons, Nat.add_right_comm, ← Image.growto_paid hg hd himy, hrest]
        simp [hgrew]

end Cost

/-! ## Losses -/

/-- The pass lost no bytes, and what it left partial is still in the list. -/
structure Growth.Harmless (g : Growth) (img : Images) (l : List StackId) : Prop where
  kept : ∀ k im, img k = some im →
    ∃ im', g.img k = some im' ∧ im'.defunct = im.defunct ∧ im.data <+: im'.data
  listed : ∀ k ∈ l, ∀ im', g.img k = some im' → im'.top < im'.far → k ∈ g.keep

namespace GrowSplit

variable {m : Memory} {main target : Option StackId} {F : Nat} {failOk : Bool}
  {l : List StackId} {img : Images} {g : Growth} {pre post : List StackId} {k : StackId}
  {im im' : Image}

theorem harmless (S : GrowSplit m main target F failOk l img g pre post)
    (hsound : ∀ x ∈ l, ∀ im', g.img x = some im' → im'.defunct = false)
    (hdone : g.failed = false → ∀ x im, target = some x → x ∈ l → img x = some im →
      1 < im.refcount ∧ im.far ≤ F) : g.Harmless img l := by
  refine ⟨fun k im him => ?_, fun k hk im' him' hpart => ?_⟩
  · obtain ⟨im', him', rfl | ⟨hk, hgrew⟩⟩ := S.changed him
    · exact ⟨_, him', rfl, List.prefix_refl _⟩
    · have hd' := hsound k hk im' him'
      refine ⟨im', him', hd'.trans (hgrew.defunct_mono hd').symm, ?_⟩
      cases hgrew with
      | covered => exact List.prefix_refl _
      | extended =>
          rw [Image.extend_data]
          exact List.prefix_append ..
      | spoiled => cases hd'
  · have hd' := hsound k hk im' him'
    rw [S.keep, List.mem_append]
    have hmem := hk
    rw [S.split, List.mem_append] at hmem
    rcases hmem with hpre | hpost
    · obtain ⟨-, im₀, im₁, h₀, h₁, hgrew⟩ := S.grown k hpre
      obtain rfl := Option.some.inj (him'.symm.trans h₁)
      refine .inl (List.mem_filter.mpr ⟨hpre, ?_⟩)
      have htop := hgrew.top hd'
      have hfar := hgrew.kept.far
      simp only [staysIn, him', decide_eq_true_eq]
      exact ⟨hd', by omega⟩
    · refine .inr ?_
      cases hf : g.failed with
      | true => exact hpost
      | false =>
          cases post with
          | nil => cases hpost
          | cons y ys =>
              rcases List.mem_cons.mp hpost with rfl | hys
              · obtain ⟨x, im₀, im₁, hx, ht, h₀, h₁, hor⟩ := S.done hf (List.cons_ne_nil _ _)
                obtain rfl := Option.some.inj hx
                obtain rfl := Option.some.inj (him'.symm.trans h₁)
                obtain ⟨hshared, hfar⟩ := hdone hf _ _ ht hk h₀
                rcases hor with ⟨hle, -⟩ | ⟨-, hgrew⟩
                · omega
                · have htop := hgrew.top hd'
                  have hfar' := hgrew.kept.far
                  omega
              · exact hys

/-- An image that is lost leaves the list. -/
theorem spoiled_unlisted (S : GrowSplit m main target F failOk l img g pre post) (hnd : l.Nodup)
    (hk : k ∈ pre) (him : g.img k = some im) (hd : im.defunct = true) : k ∉ g.keep := by
  rw [S.keep, List.mem_append]
  rintro (h | h)
  · have := (List.mem_filter.mp h).2
    simp [staysIn, him, Image.Stays, hd] at this
  · rw [S.split] at hnd
    have hpost : k ∈ post := by
      split at h
      · exact h
      · exact List.mem_of_mem_tail h
    exact (List.nodup_append.mp hnd).2.2 k hk k hpost rfl

/-- A target that is not shared leaves the list as it is. -/
theorem target_unlisted (S : GrowSplit m main target F failOk l img g pre post) (hnd : l.Nodup)
    (hf : g.failed = false) (ht : target = some k) (hk : k ∈ l) (him : img k = some im)
    (href : im.refcount ≤ 1) : g.img k = some im ∧ k ∉ g.keep := by
  have hpre : k ∉ pre := fun h => (S.grown k h).1 ht
  have hpost : k ∈ post := by
    rw [S.split, List.mem_append] at hk
    exact hk.resolve_left hpre
  obtain ⟨x, im₀, im₁, hx, htx, h₀, h₁, hor⟩ := S.done hf (List.ne_nil_of_mem hpost)
  obtain rfl : k = x := Option.some.inj (ht.symm.trans htx)
  obtain rfl := Option.some.inj (him.symm.trans h₀)
  have himg : g.img k = some im := by
    rcases hor with ⟨-, rfl⟩ | ⟨hgt, -⟩
    · exact h₁
    · omega
  refine ⟨himg, fun h => ?_⟩
  rw [S.keep, hf, List.mem_append] at h
  rcases h with h | h
  · exact hpre (List.mem_of_mem_filter h)
  · rw [S.split] at hnd
    have hnd' := (List.nodup_append.mp hnd).2.1
    cases post with
    | nil => cases hpost
    | cons y ys =>
        obtain rfl := Option.some.inj hx
        exact (List.nodup_cons.mp hnd').1 h

end GrowSplit

end Tealet
