import Tealet.Trace

/-!
# The life of a tealet

A tealet that has begun changes its status by its own exit, by
`tealet_delete` and by a forced transfer that could not save it. `Lives`
says so of a move of the view, from the label of the attempt that makes it;
the path of a step composes moves. A transfer under PANIC that resumes a
start is the exception: it resets the child whatever became of it.
-/

namespace Tealet

open DList Slice Hoare Relation

/-- The status `tealet_status` reports of a record whose stack is defunct or not. -/
def TealetSub.statusWith (r : TealetSub) (defunctStack : Bool) : Status :=
  if r.flags.bound = false then .new
  else if r.flags.exited then .exited
  else if r.flags.defunct || defunctStack then .defunct
  else .active

/-- The status of a tealet, `none` if its record was freed. -/
def State.statusOf (s : State) (t : TealetId) : Option Status :=
  (s.tealets t).map fun r => r.statusWith ((r.stack.bind s.heap.stackAt).any Stack.defunct)

/-- The origin flags: FORK and MAIN_LINEAGE. -/
def State.origin (s : State) (t : TealetId) : Option (Bool × Bool) :=
  (s.tealets t).map fun r => (r.flags.fork, r.flags.mainLineage)

/-- `tealet_status` reports the status. -/
theorem statusOf_of_status {s s' : State} {t : TealetId} {x : Status}
    (h : status s t = .ok (s', x)) : s.statusOf t = some x := by
  unfold status at h
  obtain ⟨r, hr, h⟩ := bind_ok h
  have hr : s.tealets t = some r := by
    unfold State.tealet at hr
    split at hr
    · rename_i r' heq
      cases hr
      exact heq
    · cases hr
  rw [State.statusOf, hr, Option.map_some, TealetSub.statusWith]
  split at h
  · rename_i hb
    cases h
    rw [if_pos hb]
  · rename_i hb
    rw [if_neg hb]
    split at h
    · rename_i hx
      cases h
      rw [if_pos hx]
    · rename_i hx
      rw [if_neg hx]
      obtain ⟨⟨s₁, d⟩, hd, h⟩ := bind_ok h
      cases h
      simp only [isDefunct, tealet_of hr, ok_bind] at hd
      split at hd
      · rename_i hdf
        cases hd
        simp [hdf]
      · rename_i hdf
        split at hd
        · rename_i hk
          cases hd
          simp [hdf, hk]
        · rename_i k hk
          obtain ⟨st, hst, hd⟩ := bind_ok hd
          have hst : s.heap.stackAt k = some st := by
            unfold Heap.stack at hst
            split at hst
            · rename_i st' heq
              cases hst
              exact heq
            · cases hst
          split at hd <;> rename_i hds <;> cases hd <;> simp [hdf, hk, hst, hds]

namespace View

def statusOf (v : View) (t : TealetId) : Option Status :=
  (v.tealets t).map fun r => r.statusWith ((r.stack.bind v.img).any Image.defunct)

def origin (v : View) (t : TealetId) : Option (Bool × Bool) :=
  (v.tealets t).map fun r => (r.flags.fork, r.flags.mainLineage)

end View

section Status

variable {leak : StackId → Nat} {v v' : View} {t : TealetId} {r : TealetSub} {k : StackId}
  {im : Image}

theorem statusOf_view {s : State} {a : Saved} {own : StackId → List ChunkId}
    (H : HeapRep s.heap a own) (t : TealetId) : s.statusOf t = (s.view a).statusOf t := by
  show (s.tealets t).map _ = (s.tealets t).map _
  congr 1
  funext r
  congr 1
  rcases r.stack with _ | k
  · rfl
  · show (s.heap.stackAt k).any Stack.defunct = (a.img k).any Image.defunct
    cases him : a.img k with
    | none => rw [(H.gone k him).1]; rfl
    | some im =>
        obtain ⟨st, hst, hrep⟩ := H.stack k im him
        rw [hst]
        exact hrep.defunct

theorem statusOf_eq (hr : v.tealets t = some r) :
    v.statusOf t = some (r.statusWith ((r.stack.bind v.img).any Image.defunct)) := by
  rw [View.statusOf, hr, Option.map_some]

theorem origin_eq (hr : v.tealets t = some r) :
    v.origin t = some (r.flags.fork, r.flags.mainLineage) := by
  rw [View.origin, hr, Option.map_some]

theorem statusWith_active (h : r.flags.Active) : r.statusWith false = .active := by
  simp [TealetSub.statusWith, h.bound, h.exited, h.defunct]

theorem statusOf_active (hr : v.tealets t = some r) (hact : r.flags.Active)
    (hk : ∀ k im, r.stack = some k → v.img k = some im → im.defunct = false) :
    v.statusOf t = some .active := by
  have hno : (r.stack.bind v.img).any Image.defunct = false := by
    cases hs : r.stack with
    | none => rfl
    | some k =>
        cases him : v.img k with
        | none => simp [him]
        | some im => simp [him, hk k im hs him]
  rw [statusOf_eq hr, hno, statusWith_active hact]

/-- The status of a record depends on its flags and on its stack being defunct. -/
theorem statusOf_congr {r' : TealetSub} (hr : v.tealets t = some r) (hr' : v'.tealets t = some r')
    (hf : r'.flags = r.flags)
    (hk : (r'.stack.bind v'.img).any Image.defunct = (r.stack.bind v.img).any Image.defunct) :
    v'.statusOf t = v.statusOf t := by
  rw [statusOf_eq hr, statusOf_eq hr', hk, TealetSub.statusWith, hf]
  rfl

theorem any_defunct_congr {img img' : Images}
    (h : ∀ k im, r.stack = some k → img k = some im → ∃ im', img' k = some im' ∧
      im'.defunct = im.defunct) (hown : ∀ k, r.stack = some k → ∃ im, img k = some im) :
    (r.stack.bind img').any Image.defunct = (r.stack.bind img).any Image.defunct := by
  cases hs : r.stack with
  | none => rfl
  | some k =>
      obtain ⟨im, him⟩ := hown k hs
      obtain ⟨im', him', hd⟩ := h k im hs him
      simp [him, him', hd]

end Status

/-! ## Moves -/

/-- What a move under `C`, made while `cur` runs, may do to a tealet that has begun. -/
inductive Lives (C : View → Label → Prop) (cur t : TealetId) (v v' : View) : Prop where
  | kept (hs : v'.statusOf t = v.statusOf t) (ho : v'.origin t = v.origin t)
  | exited {w : View} {u : TealetId} {f : XFlags} {allocs : List Bool} (ht : t = cur)
      (hs : v.statusOf t = some .active) (hs' : v'.statusOf t = some .exited)
      (ho : v'.origin t = v.origin t) (hC : C w (.xfer u f true allocs))
  | lost {w : View} {u : TealetId} {f : XFlags} {isExit : Bool} {allocs : List Bool}
      (hs : v.statusOf t = some .active) (hs' : v'.statusOf t = some .defunct)
      (ho : v'.origin t = v.origin t) (hC : C w (.xfer u f isExit allocs))
      (hf : f.force = true) (hm : cur ≠ mainId)
  | deleted {w : View} (hn : v'.tealets t = none) (hC : C w (.delete t))
  | exitDeleted {w : View} {u : TealetId} {f : XFlags} {allocs : List Bool} (ht : t = cur)
      (hs : v.statusOf t = some .active) (hn : v'.tealets t = none)
      (hC : C w (.xfer u f true allocs)) (hd : f.delete = true)

theorem force_of_mayFail {t : TealetId} {f : XFlags} (h : mayFail t f = false) :
    f.force = true ∧ t ≠ mainId := by
  simpa [mayFail] using h

section Moves

variable {leak : StackId → Nat} {C : View → Label → Prop} {v v' : View} {t : TealetId}
  {r : TealetSub}

/-- A growth loses a stack only if it may not fail, and only one of the list. -/
theorem statusOf_grow (H : Core leak v) (hr : v.tealets t = some r) (target : Option StackId)
    (F : Nat) (failOk : Bool) (allocs : List Bool) :
    (v.grow (v.growth target F failOk allocs)).statusOf t = v.statusOf t ∨
      v.statusOf t = some .active ∧ failOk = false ∧
        (v.grow (v.growth target F failOk allocs)).statusOf t = some .defunct ∧
        ∃ k ∈ v.prev, r.stack = some k := by
  obtain ⟨pre, post, G⟩ := H.growSplit target F failOk allocs
  have hr' : (v.grow (v.growth target F failOk allocs)).tealets t = some r := hr
  cases hk : r.stack with
  | none =>
      refine .inl (statusOf_congr hr hr' rfl ?_)
      rw [hk]
      rfl
  | some k =>
      obtain ⟨im, him, -⟩ := H.owned t r k hr hk
      obtain ⟨im', him', hor⟩ := G.changed him
      have hsame : im'.defunct = im.defunct →
          (v.grow (v.growth target F failOk allocs)).statusOf t = v.statusOf t := by
        intro hd
        refine statusOf_congr hr hr' rfl ?_
        rw [hk]
        show ((v.growth target F failOk allocs).img k).any _ = (v.img k).any _
        rw [him, him']
        exact hd
      rcases hor with rfl | ⟨hmem, hgrew⟩
      · exact .inl (hsame rfl)
      · obtain ⟨im₀, him₀, hd, -⟩ := H.listed k hmem
        obtain rfl := Option.some.inj (him₀.symm.trans him)
        cases hgrew with
        | covered => exact .inl (hsame rfl)
        | extended => exact .inl (hsame rfl)
        | spoiled hc hs =>
            obtain ⟨hf, -⟩ := Bool.or_eq_false_iff.mp hs
            have hx : r.flags.exited = false := by
              by_contra hx
              rw [(H.record t r hr).exited (by simpa using hx)] at hk
              cases hk
            have hb : r.flags.bound = true := by
              by_contra hb
              rw [(H.record t r hr).unbound (by simpa using hb)] at hk
              cases hk
            have hany : (r.stack.bind v.img).any Image.defunct = false := by
              simp [hk, him, hd]
            have hany' : (r.stack.bind (v.grow (v.growth target F failOk allocs)).img).any
                Image.defunct = true := by
              simp [hk, View.grow, him']
            cases hrd : r.flags.defunct with
            | true =>
                refine .inl ?_
                rw [statusOf_eq hr, statusOf_eq hr']
                simp [TealetSub.statusWith, hb, hx, hrd]
            | false =>
                refine .inr ⟨?_, hf, ?_, k, hmem, rfl⟩
                · rw [statusOf_eq hr, hany, statusWith_active ⟨hb, hx, hrd⟩]
                · rw [statusOf_eq hr', hany']
                  simp [TealetSub.statusWith, hb, hx]

/-- A release is not seen by the other owners. -/
theorem release_defunct {k : StackId} {im : Image} (him : v.img k = some im)
    (hk : im.refcount ≤ 1 → r.stack ≠ some k) :
    (r.stack.bind (v.release k im).img).any Image.defunct =
      (r.stack.bind v.img).any Image.defunct := by
  cases hs : r.stack with
  | none => rfl
  | some y =>
      show ((v.release k im).img y).any _ = (v.img y).any _
      rw [release_img]
      by_cases hy : y = k
      · subst hy
        rw [Function.update_self, if_neg fun hle => hk hle hs, him]
        rfl
      · rw [Function.update_of_ne hy]

/-- The move is one that leaves the status and the origin of `t` alone. -/
theorem kept_of_sameFlags {r' : TealetSub} (hr : v.tealets t = some r)
    (hr' : v'.tealets t = some r') (hf : r'.flags = r.flags)
    (hk : (r'.stack.bind v'.img).any Image.defunct = (r.stack.bind v.img).any Image.defunct) :
    v'.statusOf t = v.statusOf t ∧ v'.origin t = v.origin t :=
  ⟨statusOf_congr hr hr' hf hk, by rw [origin_eq hr, origin_eq hr', hf]⟩

/-- What a small move makes of a tealet; only a transfer that fails loses one. -/
theorem Small.kept_or_stalled (h : Small C v v') (H : Core leak v) (hr : v.tealets t = some r) :
    (v'.statusOf t = v.statusOf t ∧ v'.origin t = v.origin t) ∨
      (v'.tealets t = none ∧ ∃ w, C w (.delete t)) ∨
      ∃ u flags isExit allocs target F, C v (.xfer u flags isExit allocs) ∧
        v' = v.grow (v.growth target F (mayFail v.current flags) allocs) := by
  have hne : t ≠ v.nextTealet := Nat.ne_of_lt (H.lt_nextTealet hr)
  cases h with
  | write hC hm => exact .inl ⟨rfl, rfl⟩
  | create => exact .inl (kept_of_sameFlags hr ((Function.update_of_ne hne _ _).trans hr) rfl rfl)
  | dup => exact .inl (kept_of_sameFlags hr ((Function.update_of_ne hne _ _).trans hr) rfl rfl)
  | @dupShared u ru k im hC hu hcur hmain hk him =>
      refine .inl (kept_of_sameFlags hr ((Function.update_of_ne hne _ _).trans hr) rfl ?_)
      refine any_defunct_congr ?_ fun y hy => (H.owned t r y hr hy).imp fun _ h => h.1
      intro y imy hy himy
      by_cases hyk : y = k
      · subst hyk
        obtain rfl := Option.some.inj (him.symm.trans himy)
        exact ⟨_, Function.update_self .., rfl⟩
      · exact ⟨imy, (Function.update_of_ne hyk _ _).trans himy, rfl⟩
  | @delete u ru hC hu hcur hmain hk =>
      by_cases htu : t = u
      · subst htu
        exact .inr (.inl ⟨Function.update_self .., hC⟩)
      · exact .inl (kept_of_sameFlags hr ((Function.update_of_ne htu _ _).trans hr) rfl rfl)
  | @deleteSaved u ru k im hC hu hcur hmain hk him =>
      by_cases htu : t = u
      · subst htu
        exact .inr (.inl ⟨Function.update_self .., hC⟩)
      · refine .inl (kept_of_sameFlags hr ?_ rfl (release_defunct him fun hle hrk => htu ?_))
        · refine (Function.update_of_ne htu _ _).trans ?_
          rw [(release_tealets v k im).1]
          exact hr
        · exact H.unique him hle ((stackOf_eq hr).trans hrk) ((stackOf_eq hu).trans hk)
  | @cache u ru k im hu hk him hd =>
      by_cases htu : t = u
      · subst htu
        obtain rfl := Option.some.inj (hr.symm.trans hu)
        have hany : (r.stack.bind v.img).any Image.defunct = true := by simp [hk, him, hd]
        have hself : (v.setTealet t (some { r with
            flags := { r.flags with defunct := true } })).tealets t =
            some { r with flags := { r.flags with defunct := true } } := Function.update_self ..
        refine .inl ⟨?_, by rw [origin_eq hr, origin_eq hself]⟩
        rw [statusOf_eq hr, statusOf_eq hself, hany]
        simp [TealetSub.statusWith]
      · exact .inl (kept_of_sameFlags hr ((Function.update_of_ne htu _ _).trans hr) rfl rfl)
  | @setFar rm far hC hfar hrm =>
      by_cases htu : t = mainId
      · subst htu
        obtain rfl := Option.some.inj (hr.symm.trans hrm)
        have hself : (v.setTealet mainId (some { r with stackFar := far })).tealets mainId =
          some { r with stackFar := far } := by simp [View.setTealet]
        exact .inl (kept_of_sameFlags hr hself rfl rfl)
      · exact .inl (kept_of_sameFlags hr ((Function.update_of_ne htu _ _).trans hr) rfl rfl)
  | stallXfer hC => exact .inr (.inr ⟨_, _, _, _, _, _, hC, rfl⟩)
  | @stallStart u far allocs sp kf hC hfate =>
      rcases statusOf_grow H hr none far true allocs with h | ⟨-, h₂, -⟩
      · exact .inl ⟨h, rfl⟩
      · cases h₂
  | @stallCapture u far allocs sp kf hC hfate =>
      rcases statusOf_grow H hr none (v.far v.current) true allocs with h | ⟨-, h₂, -⟩
      · exact .inl ⟨h, rfl⟩
      · cases h₂

theorem Small.lives (h : Small C v v') (H : Core leak v) (hr : v.tealets t = some r) :
    Lives C v.current t v v' := by
  rcases h.kept_or_stalled H hr with ⟨hs, ho⟩ | ⟨hn, w, hC⟩ |
    ⟨u, flags, isExit, allocs, target, F, hC, rfl⟩
  · exact .kept hs ho
  · exact .deleted hn hC
  · rcases statusOf_grow H hr target F (mayFail v.current flags) allocs with h | ⟨h₁, h₂, h₃, -⟩
    · exact .kept h rfl
    · exact .lost h₁ h₃ rfl hC (force_of_mayFail h₂).1 (force_of_mayFail h₂).2

theorem Small.current {C : View → Label → Prop} {v v' : View} (h : Small C v v') :
    v'.current = v.current := by
  cases h with
  | deleteSaved => exact (release_tealets v _ _).2.2.2.2.1
  | _ => rfl

/-- The images there were are what they are after the tealet that runs has left. -/
theorem depart_defunct (H : Core leak v) (hr : v.tealets t = some r) {w : View}
    (hn : w.nextStack = v.nextStack) (c : TealetSub) (F : Nat) (fate : Fate) :
    (r.stack.bind (w.depart c F fate).img).any Image.defunct =
      (r.stack.bind w.img).any Image.defunct := by
  cases hs : r.stack with
  | none => rfl
  | some y =>
      obtain ⟨im, him, -⟩ := H.owned t r y hr hs
      have hy : y ≠ w.nextStack := hn ▸ Nat.ne_of_lt (H.lt_nextStack him)
      show ((w.depart c F fate).img y).any _ = (w.img y).any _
      rw [depart_img_of_ne w c F fate hy]

/-- The record of a tealet that stays, or leaves, in a transfer to another one. -/
theorem restore_tealets_of_ne {w : View} {u : TealetId} {ru : TealetSub} {k : StackId} {im : Image}
    (h : t ≠ u) : (w.restore u ru k im).tealets t = w.tealets t := by
  obtain ⟨h₁, -⟩ := release_tealets { w with mem := im.value w.mem } k im
  refine (Function.update_of_ne h _ _).trans ?_
  rw [h₁]

theorem restore_tealets_self {w : View} {u : TealetId} {ru : TealetSub} {k : StackId} {im : Image} :
    (w.restore u ru k im).tealets u = some { ru with stack := none } := Function.update_self ..

/-- A tealet that neither leaves nor arrives keeps its record, and is what
growing the list made of it. -/
theorem Core.status_transfer (H : Core leak v) (hr : v.tealets t = some r) {u : TealetId}
    {c ru : TealetSub} {k : StackId} {im im' : Image} {g : Growth} {failOk : Bool}
    {allocs : List Bool} (hu : v.tealets u = some ru) (hk : ru.stack = some k)
    (him : v.img k = some im) (hg : v.growth ru.stack ru.stackFar failOk allocs = g)
    (him' : g.img k = some im') (fate : Fate) (htc : t ≠ v.current) (htu : t ≠ u) :
    (((v.grow g).depart c ru.stackFar fate).restore u ru k im').tealets t = some r ∧
      (((v.grow g).depart c ru.stackFar fate).restore u ru k im').statusOf t =
        (v.grow g).statusOf t := by
  have hr' : (((v.grow g).depart c ru.stackFar fate).restore u ru k im').tealets t = some r := by
    rw [restore_tealets_of_ne htu, depart_tealets_of_ne (v.grow g) c _ fate htc]
    exact hr
  have hkn : k ≠ v.nextStack := Nat.ne_of_lt (H.lt_nextStack him)
  have himw : ((v.grow g).depart c ru.stackFar fate).img k = some im' :=
    (depart_img_of_ne (v.grow g) c _ fate hkn).trans him'
  refine ⟨hr', statusOf_congr (v := v.grow g) hr hr' rfl ?_⟩
  rw [← depart_defunct H hr (w := v.grow g) rfl c ru.stackFar fate]
  refine release_defunct (v := { (v.grow g).depart c ru.stackFar fate with
    mem := im'.value ((v.grow g).depart c ru.stackFar fate).mem }) himw fun hle hrk => htu ?_
  obtain ⟨im₀, him₀, hkept, -⟩ := H.grown (hg ▸ him')
  obtain rfl := Option.some.inj (him₀.symm.trans him)
  exact H.unique him (hkept.refcount ▸ hle) ((stackOf_eq hr).trans hrk) ((stackOf_eq hu).trans hk)

theorem Jump.lives (h : Jump C True v v') (H : Core leak v) (S : Sched v)
    (hr : v.tealets t = some r) (hb : r.flags.bound = true) : Lives C v.current t v v' := by
  cases h with
  | @xfer u c ru k im im' flags isExit allocs g fate sp kf hC hc hu hcur hx hrd hk him hd hg hfate
      him' hsp hexit hkf hpanic hstrict =>
      rw [settle_of_unstarted (hstrict True.intro)]
      by_cases htu : t = u
      · subst htu
        obtain rfl := Option.some.inj (hr.symm.trans hu)
        have hact : r.flags.Active := ⟨hb, hx, hrd⟩
        refine .kept ?_ ((origin_eq restore_tealets_self).trans (origin_eq hr).symm)
        rw [statusOf_active hr hact, statusOf_active restore_tealets_self hact nofun]
        intro y imy hy himy
        obtain rfl := Option.some.inj (hk.symm.trans hy)
        obtain rfl := Option.some.inj (him.symm.trans himy)
        exact hd
      have hkn : k ≠ v.nextStack := Nat.ne_of_lt (H.lt_nextStack him)
      obtain ⟨-, hch⟩ := chosen_of_chooseFate hfate
      by_cases htc : t = v.current
      · subst htc
        obtain rfl := Option.some.inj (hr.symm.trans hc)
        obtain ⟨hact, hs⟩ := S.current_of hr
        have hst : v.statusOf v.current = some .active := statusOf_active hr hact (by simp [hs])
        have hself : ∀ ft, (((v.grow g).depart r ru.stackFar ft).restore u ru k im').tealets
            v.current = ft.record r v.nextStack := by
          intro ft
          rw [restore_tealets_of_ne htu]
          cases ft <;> simp [View.depart, View.save, View.grow, View.setTealet, Fate.record]
        cases hch with
        | suspend he =>
            have hself : _ = some { r with stack := some v.nextStack } := hself (.suspend sp kf)
            refine .kept ?_ ((origin_eq hself).trans (origin_eq hr).symm)
            rw [hst, statusOf_active hself hact]
            intro y imy hy himy
            obtain rfl : v.nextStack = y := Option.some.inj hy
            have himg : (((v.grow g).depart r ru.stackFar (.suspend sp kf)).restore u ru k
                im').img v.nextStack = some (Image.capture v.mem sp r.stackFar ru.stackFar kf) := by
              show (View.release _ k im').img v.nextStack = _
              rw [release_img, Function.update_of_ne hkn.symm]
              exact Function.update_self ..
            obtain rfl := Option.some.inj (himg.symm.trans himy)
            rfl
        | lose he hf =>
            have hself : _ = some { r with flags := { r.flags with defunct := true } } :=
              hself .lose
            refine .lost hst ?_ ((origin_eq hself).trans (origin_eq hr).symm) hC
              (force_of_mayFail hf).1 (force_of_mayFail hf).2
            rw [statusOf_eq hself]
            simp [TealetSub.statusWith, hact.bound, hact.exited]
        | exit he ha =>
            obtain rfl : isExit = true := he
            have hself : _ = some { r with
                flags := { r.flags with exited := true }, stack := none } := hself .exit
            refine .exited rfl hst ?_ ((origin_eq hself).trans (origin_eq hr).symm) hC
            rw [statusOf_eq hself]
            simp [TealetSub.statusWith, hact.bound]
        | exitDelete he ha =>
            obtain rfl : isExit = true := he
            exact .exitDeleted rfl hst (hself .exitDelete) hC (by simpa using ha)
      · obtain ⟨hr', hgrow⟩ := H.status_transfer hr (c := c) hu hk him hg him' fate htc htu
        have ho : (((v.grow g).depart c ru.stackFar fate).restore u ru k im').origin t =
            v.origin t := (origin_eq hr').trans (origin_eq hr).symm
        subst hg
        rcases statusOf_grow H hr ru.stack ru.stackFar (mayFail v.current flags) allocs with
          h | ⟨h₁, h₂, h₃, -⟩
        · exact .kept (hgrow.trans h) ho
        · exact .lost h₁ (hgrow.trans h₃) ho hC (force_of_mayFail h₂).1 (force_of_mayFail h₂).2
  | @start u c ru allocs g sp kf hC hc hnew hbu hx hrd hq hk hfar hg hok hsp hst hcap =>
      have htu : t ≠ u := by
        rintro rfl
        obtain rfl := Option.some.inj (hr.symm.trans hnew)
        cases hb
      have hgrow : (v.grow g).statusOf t = v.statusOf t := by
        subst hg
        rcases statusOf_grow H hr none ru.stackFar true allocs with h | ⟨-, h, -⟩
        · exact h
        · cases h
      by_cases htc : t = v.current
      · subst htc
        obtain rfl := Option.some.inj (hr.symm.trans hc)
        obtain ⟨hact, hs⟩ := S.current_of hr
        have hself : (((v.grow g).save v.current r ru.stackFar sp kf).arrive u ru).tealets v.current
            = some { r with stack := some v.nextStack } :=
          (Function.update_of_ne htu _ _).trans (Function.update_self ..)
        refine .kept ?_ ((origin_eq hself).trans (origin_eq hr).symm)
        rw [statusOf_active hr hact (by simp [hs]), statusOf_active hself hact]
        intro y imy hy himy
        obtain rfl : v.nextStack = y := Option.some.inj hy
        have himg : (((v.grow g).save v.current r ru.stackFar sp kf).arrive u ru).img v.nextStack =
            some (Image.capture v.mem sp r.stackFar ru.stackFar kf) := Function.update_self ..
        obtain rfl := Option.some.inj (himg.symm.trans himy)
        rfl
      · have hr' : (((v.grow g).save v.current c ru.stackFar sp kf).arrive u ru).tealets t =
            some r :=
          (Function.update_of_ne htu _ _).trans ((Function.update_of_ne htc _ _).trans hr)
        refine .kept ((statusOf_congr (v := v.grow g) hr hr' rfl ?_).trans hgrow)
          ((origin_eq hr').trans (origin_eq hr).symm)
        exact depart_defunct H hr (w := v.grow g) rfl c ru.stackFar (.suspend sp kf)
  | @capture u c ru allocs g sp kf hC hc hnew hbu hx hrd hq hfar hg hok hsp hst hcap =>
      have htu : t ≠ u := by
        rintro rfl
        obtain rfl := Option.some.inj (hr.symm.trans hnew)
        cases hb
      have hgrow : (v.grow g).statusOf t = v.statusOf t := by
        subst hg
        rcases statusOf_grow H hr none c.stackFar true allocs with h | ⟨-, h, -⟩
        · exact h
        · cases h
      have hr' : ((v.grow g).save u ru c.stackFar sp kf).tealets t = some r :=
        (Function.update_of_ne htu _ _).trans hr
      refine .kept ((statusOf_congr (v := v.grow g) hr hr' rfl ?_).trans hgrow)
        ((origin_eq hr').trans (origin_eq hr).symm)
      exact depart_defunct H hr (w := { v.grow g with current := u }) rfl ru c.stackFar
        (.suspend sp kf)

/-- Identifiers are not used again. -/
theorem Small.gone (h : Small C v v') (ht : v.tealets t = none) (hlt : t < v.nextTealet) :
    v'.tealets t = none := by
  have hne : t ≠ v.nextTealet := Nat.ne_of_lt hlt
  have hother : ∀ {u ru}, v.tealets u = some ru → t ≠ u := by
    rintro u ru hu rfl
    rw [ht] at hu
    cases hu
  cases h with
  | create => exact (Function.update_of_ne hne _ _).trans ht
  | dup => exact (Function.update_of_ne hne _ _).trans ht
  | dupShared => exact (Function.update_of_ne hne _ _).trans ht
  | delete hC hu => exact (Function.update_of_ne (hother hu) _ _).trans ht
  | @deleteSaved u ru k im hC hu =>
      refine (Function.update_of_ne (hother hu) _ _).trans ?_
      rw [(release_tealets v k im).1]
      exact ht
  | cache hu => exact (Function.update_of_ne (hother hu) _ _).trans ht
  | setFar hC hfar hu => exact (Function.update_of_ne (hother hu) _ _).trans ht
  | _ => exact ht

theorem Jump.gone (h : Jump C True v v') (ht : v.tealets t = none) : v'.tealets t = none := by
  have hother : ∀ {u ru}, v.tealets u = some ru → t ≠ u := by
    rintro u ru hu rfl
    rw [ht] at hu
    cases hu
  cases h with
  | @xfer u c ru k im im' flags isExit allocs g fate sp kf hC hc hu hcur hx hrd hk him hd hg hfate
      him' hsp hexit hkf hpanic hstrict =>
      rw [settle_of_unstarted (hstrict True.intro), restore_tealets_of_ne (hother hu),
        depart_tealets_of_ne (v.grow g) c _ fate (hother hc)]
      exact ht
  | start hC hc hu =>
      exact (Function.update_of_ne (hother hu) _ _).trans
        ((Function.update_of_ne (hother hc) _ _).trans ht)
  | capture hC hc hu => exact (Function.update_of_ne (hother hu) _ _).trans ht

theorem Small.nextTealet (h : Small C v v') : v.nextTealet ≤ v'.nextTealet := by
  cases h with
  | create => exact Nat.le_succ _
  | dup => exact Nat.le_succ _
  | dupShared => exact Nat.le_succ _
  | deleteSaved => exact Nat.le_of_eq (release_tealets v _ _).2.1.symm
  | _ => exact Nat.le_refl _

theorem Jump.nextTealet (h : Jump C True v v') : v.nextTealet ≤ v'.nextTealet := by
  cases h with
  | @xfer u c ru k im im' flags isExit allocs g fate sp kf hC hc hu hcur hx hrd hk him hd hg hfate
      him' hsp hexit hkf hpanic hstrict =>
      rw [settle_of_unstarted (hstrict True.intro), restore_nextTealet, depart_nextTealet]
      exact Nat.le_refl _
  | start => exact Nat.le_refl _
  | capture => exact Nat.le_refl _

theorem bound_of_statusOf {x : Status} (h : v.statusOf t = some x) (hx : x ≠ .new) :
    ∃ r, v.tealets t = some r ∧ r.flags.bound = true := by
  obtain ⟨r, hr, rfl⟩ := Option.map_eq_some_iff.mp h
  refine ⟨r, hr, ?_⟩
  by_contra hb
  exact hx (by simp [TealetSub.statusWith, hb])

/-- One move after another. -/
theorem Lives.trans {v₁ v₂ : View} {cur : TealetId} {x : Status} (hx : v.statusOf t = some x)
    (hnew : x ≠ .new) (h : Lives C cur t v v₁)
    (h' : ∀ r, v₁.tealets t = some r → r.flags.bound = true → Lives C cur t v₁ v₂)
    (hgone : v₁.tealets t = none → v₂.tealets t = none) : Lives C cur t v v₂ := by
  cases h with
  | kept hs ho =>
      obtain ⟨r₁, hr₁, hb₁⟩ := bound_of_statusOf (hs.trans hx) hnew
      cases h' r₁ hr₁ hb₁ with
      | kept hs' ho' => exact .kept (hs'.trans hs) (ho'.trans ho)
      | exited ht hs₁ hs₂ ho' hC => exact .exited ht (hs.symm.trans hs₁) hs₂ (ho'.trans ho) hC
      | lost hs₁ hs₂ ho' hC hf hm =>
          exact .lost (hs.symm.trans hs₁) hs₂ (ho'.trans ho) hC hf hm
      | deleted hn hC => exact .deleted hn hC
      | exitDeleted ht hs₁ hn hC hd => exact .exitDeleted ht (hs.symm.trans hs₁) hn hC hd
  | exited ht hs hs' ho hC =>
      obtain ⟨r₁, hr₁, hb₁⟩ := bound_of_statusOf hs' (by simp)
      cases h' r₁ hr₁ hb₁ with
      | kept hs₁ ho' => exact .exited ht hs (hs₁.trans hs') (ho'.trans ho) hC
      | exited _ hs₁ => rw [hs'] at hs₁; cases hs₁
      | lost hs₁ => rw [hs'] at hs₁; cases hs₁
      | deleted hn hC => exact .deleted hn hC
      | exitDeleted _ hs₁ => rw [hs'] at hs₁; cases hs₁
  | lost hs hs' ho hC hf hm =>
      obtain ⟨r₁, hr₁, hb₁⟩ := bound_of_statusOf hs' (by simp)
      cases h' r₁ hr₁ hb₁ with
      | kept hs₁ ho' => exact .lost hs (hs₁.trans hs') (ho'.trans ho) hC hf hm
      | exited _ hs₁ => rw [hs'] at hs₁; cases hs₁
      | lost hs₁ => rw [hs'] at hs₁; cases hs₁
      | deleted hn hC => exact .deleted hn hC
      | exitDeleted _ hs₁ => rw [hs'] at hs₁; cases hs₁
  | deleted hn hC => exact .deleted (hgone hn) hC
  | exitDeleted ht hs hn hC hd => exact .exitDeleted ht hs (hgone hn) hC hd

/-- A step composes moves. -/
theorem Path.lives (h : Path C True v v') (H : Core leak v) (S : Sched v) :
    (∀ x, v.statusOf t = some x → x ≠ .new → Lives C v.current t v v') ∧
      (v.tealets t = none → t < v.nextTealet → v'.tealets t = none) ∧
      v.nextTealet ≤ v'.nextTealet := by
  obtain ⟨v₁, hmoves, hor⟩ := h
  have hmid : Core leak v₁ ∧ Sched v₁ ∧ v₁.current = v.current ∧ v.nextTealet ≤ v₁.nextTealet ∧
      (∀ x, v.statusOf t = some x → x ≠ .new → Lives C v.current t v v₁) ∧
      (v.tealets t = none → t < v.nextTealet → v₁.tealets t = none) := by
    clear hor
    induction hmoves with
    | refl => exact ⟨H, S, rfl, Nat.le_refl _, fun _ _ _ => .kept rfl rfl, fun h _ => h⟩
    | @tail v₂ v₃ _ hm ih =>
        obtain ⟨H₂, S₂, hcur, hn, hlives, hgone⟩ := ih
        obtain ⟨H₃, S₃⟩ := hm.good H₂ S₂
        refine ⟨H₃, S₃, hm.current.trans hcur, hn.trans hm.nextTealet, ?_, ?_⟩
        · intro x hx hnew
          obtain ⟨r, hr, -⟩ := bound_of_statusOf hx hnew
          have hlt : t < v₂.nextTealet := Nat.lt_of_lt_of_le (H.lt_nextTealet hr) hn
          refine (hlives x hx hnew).trans hx hnew ?_ fun h => hm.gone h hlt
          intro r₂ hr₂ _
          exact hcur ▸ hm.lives H₂ hr₂
        · exact fun h hlt => hm.gone (hgone h hlt) (Nat.lt_of_lt_of_le hlt hn)
  obtain ⟨H₁, S₁, hcur, hn, hlives, hgone⟩ := hmid
  rcases hor with rfl | hjump
  · exact ⟨hlives, hgone, hn⟩
  · refine ⟨fun x hx hnew => (hlives x hx hnew).trans hx hnew ?_ hjump.gone,
      fun h h' => hjump.gone (hgone h h'), hn.trans hjump.nextTealet⟩
    intro r₁ hr₁ hb₁
    exact hcur ▸ hjump.lives H₁ S₁ hr₁ hb₁

end Moves

/-! ## Runs -/

/-- What the event `e` may do to a tealet that has begun. -/
inductive LivesOn (s : State) (e : Event) (s' : State) (t : TealetId) : Prop where
  | kept (hs : s'.statusOf t = s.statusOf t) (ho : s'.origin t = s.origin t)
  /-- the running tealet exits -/
  | exited {s₁ : State} {u : TealetId} {f : XFlags} {allocs : List Bool} (ht : t = s.gCurrent)
      (hs : s.statusOf t = some .active) (hs' : s'.statusOf t = some .exited)
      (ho : s'.origin t = s.origin t) (he : e.Attempts s s₁ (.xfer u f true allocs))
  /-- a forced transfer cannot save it -/
  | lost {s₁ : State} {u : TealetId} {f : XFlags} {isExit : Bool} {allocs : List Bool}
      (hs : s.statusOf t = some .active) (hs' : s'.statusOf t = some .defunct)
      (ho : s'.origin t = s.origin t) (he : e.Attempts s s₁ (.xfer u f isExit allocs))
      (hf : f.force = true) (hm : s.gCurrent ≠ mainId)
  | deleted {allocs : List Bool} {mprotects : List (Option (Nat → Bool))}
      (hn : s'.tealets t = none) (he : e = .call (.delete t) allocs mprotects)
  /-- the running tealet exits with `TEALET_EXIT_DELETE` -/
  | exitDeleted {s₁ : State} {u : TealetId} {f : XFlags} {allocs : List Bool} (ht : t = s.gCurrent)
      (hs : s.statusOf t = some .active) (hn : s'.tealets t = none)
      (he : e.Attempts s s₁ (.xfer u f true allocs)) (hd : f.delete = true)

/-- What holds of a tealet in every later state. -/
structure Lasts (s s' : State) (t : TealetId) : Prop where
  known : t < s.nextTealet → t < s'.nextTealet
  freed : s.tealets t = none → t < s.nextTealet → s'.tealets t = none
  begun : ∀ x, s.statusOf t = some x → x ≠ .new → s'.tealets t ≠ none →
    s'.statusOf t ≠ some .new ∧ s'.origin t = s.origin t
  final : ∀ x, s.statusOf t = some x → x = .exited ∨ x = .defunct → s'.tealets t ≠ none →
    s'.statusOf t = some x

/-- A legal step in which a transfer under PANIC resumes no start, and no
`tealet_switch` whose caller was freed. -/
def PanicHarmless (s : State) (e : Event) : Prop :=
  Legal s e ∧ e.PanicResumes True s ∧ e.PanicCallers s

section Runs

variable {leak : StackId → Nat} {s s' : State} {a a' : Saved} {e : Event} {t : TealetId}

/-- A tealet there is can only be freed by `tealet_delete`. -/
theorem Inv.delete_event (I : Inv leak s a) {r : TealetSub} (hr : s.tealets t = some r) {s₁ : State}
    (he : e.Attempts s s₁ (.delete t)) :
    ∃ allocs mprotects, e = .call (.delete t) allocs mprotects := by
  cases e with
  | write m => cases he.2
  | call c allocs mprotects =>
      cases he with
      | delete => exact ⟨allocs, mprotects, rfl⟩
      | spawnFailed hnew =>
          have hspec := new_spec (s.withChoices allocs mprotects) a
          rw [hnew] at hspec
          cases hspec
          exact absurd (I.core.lt_nextTealet hr) (Nat.lt_irrefl _)

theorem Lives.on (I : Inv leak s a) (I' : Inv leak s' a') {x : Status}
    (hx : s.statusOf t = some x)
    (h : Lives (EventLabel s e) s.gCurrent t (s.view a) (s'.view a')) : LivesOn s e s' t := by
  obtain ⟨own, H⟩ := I.rep
  obtain ⟨own', H'⟩ := I'.rep
  have hs : (s.view a).statusOf t = s.statusOf t := (statusOf_view H t).symm
  have hs' : (s'.view a').statusOf t = s'.statusOf t := (statusOf_view H' t).symm
  have ho : ∀ {b : Saved} {r : State}, (r.view b).origin t = r.origin t := rfl
  cases h with
  | kept h₁ h₂ => exact .kept (hs'.symm.trans (h₁.trans hs)) h₂
  | exited ht h₁ h₂ h₃ hC =>
      obtain ⟨s₁, -, -, -, -, he⟩ := hC
      exact .exited ht (hs.symm.trans h₁) (hs'.symm.trans h₂) h₃ he
  | lost h₁ h₂ h₃ hC hf hm =>
      obtain ⟨s₁, -, -, -, -, he⟩ := hC
      exact .lost (hs.symm.trans h₁) (hs'.symm.trans h₂) h₃ he hf hm
  | deleted hn hC =>
      obtain ⟨s₁, -, -, -, -, he⟩ := hC
      obtain ⟨r, hr, -⟩ := Option.map_eq_some_iff.mp hx
      obtain ⟨allocs, mprotects, he⟩ := I.delete_event hr he
      exact .deleted hn he
  | exitDeleted ht h₁ hn hC hd =>
      obtain ⟨s₁, -, -, -, -, he⟩ := hC
      exact .exitDeleted ht (hs.symm.trans h₁) hn he hd

theorem LivesOn.lasts
    (h : ∀ x, s.statusOf t = some x → x ≠ .new → LivesOn s e s' t)
    (hfreed : s.tealets t = none → t < s.nextTealet → s'.tealets t = none)
    (hn : s.nextTealet ≤ s'.nextTealet) : Lasts s s' t := by
  refine ⟨fun hlt => Nat.lt_of_lt_of_le hlt hn, hfreed, ?_, ?_⟩
  · intro x hx hnew hsome
    cases h x hx hnew with
    | kept hs ho => exact ⟨by rw [hs, hx]; simpa using hnew, ho⟩
    | exited _ _ hs' ho => exact ⟨by rw [hs']; simp, ho⟩
    | lost _ hs' ho => exact ⟨by rw [hs']; simp, ho⟩
    | deleted hnone => exact absurd hnone hsome
    | exitDeleted _ _ hnone => exact absurd hnone hsome
  · intro x hx hor hsome
    have hne : x ≠ .active ∧ x ≠ .new := by
      rcases hor with rfl | rfl <;> simp
    cases h x hx hne.2 with
    | kept hs ho => exact hs.trans hx
    | exited _ hs => exact absurd (Option.some.inj (hx.symm.trans hs)) hne.1
    | lost hs => exact absurd (Option.some.inj (hx.symm.trans hs)) hne.1
    | deleted hnone => exact absurd hnone hsome
    | exitDeleted _ _ hnone => exact absurd hnone hsome

theorem Lasts.trans {s₁ : State} (I : Inv leak s a) (h : Lasts s s₁ t) (h' : Lasts s₁ s' t) :
    Lasts s s' t := by
  have hlt : ∀ {x}, s.statusOf t = some x → t < s.nextTealet := by
    intro x hx
    obtain ⟨r, hr, -⟩ := Option.map_eq_some_iff.mp hx
    exact I.core.lt_nextTealet hr
  have hmid : ∀ {x}, s.statusOf t = some x → s'.tealets t ≠ none → s₁.tealets t ≠ none :=
    fun hx hsome hnone => hsome (h'.freed hnone (h.known (hlt hx)))
  have hsome₁ : s₁.tealets t ≠ none → ∃ y, s₁.statusOf t = some y := by
    intro hne
    obtain ⟨r, hr⟩ := Option.ne_none_iff_exists'.mp hne
    exact ⟨_, Option.map_eq_some_iff.mpr ⟨r, hr, rfl⟩⟩
  refine ⟨fun hlt => h'.known (h.known hlt), fun hn hlt => h'.freed (h.freed hn hlt) (h.known hlt),
    ?_, ?_⟩
  · intro x hx hnew hsome
    obtain ⟨hn₁, ho₁⟩ := h.begun x hx hnew (hmid hx hsome)
    obtain ⟨y, hy⟩ := hsome₁ (hmid hx hsome)
    obtain ⟨hn₂, ho₂⟩ := h'.begun y hy (fun hy' => hn₁ (hy' ▸ hy)) hsome
    exact ⟨hn₂, ho₂.trans ho₁⟩
  · intro x hx hor hsome
    exact h'.final x (h.final x hx hor (hmid hx hsome)) hor hsome

theorem Inv.main_active (I : Inv leak s a) : s.statusOf mainId = some .active := by
  obtain ⟨own, H⟩ := I.rep
  obtain ⟨r, hr, hact⟩ := I.sched.main
  rw [statusOf_view H]
  refine statusOf_active hr hact fun k im hk him => ?_
  exact ((I.core.image k im him).ofMain ((stackOf_eq hr).trans hk)).2.1

/-- One step from a state that satisfies the invariant. -/
theorem Inv.lives (I : Inv (fun _ => 0) s a) (he : PanicHarmless s e) {o : Outcome}
    (hs : step s e = .ok (s', o)) :
    (∃ a', Inv (fun _ => 0) s' a') ∧ (∀ t x, s.statusOf t = some x → x ≠ .new → LivesOn s e s' t) ∧
      ∀ t, Lasts s s' t := by
  obtain ⟨own, H⟩ := I.rep
  obtain ⟨leak', a', hstep⟩ := (step_spec True (E := fun _ => True) I he.1
    (fun _ _ => True.intro) he.2.1 (.inl True.intro)).result hs
  have I' : Inv (fun _ => 0) s' a' := hstep.exact' True.intro ▸ hstep.inv
  have hpath := fun t => hstep.path.lives (t := t) I.core I.sched
  have hlives : ∀ t x, s.statusOf t = some x → x ≠ .new → LivesOn s e s' t := fun t x hx hnew =>
    ((hpath t).1 x ((statusOf_view H t).symm.trans hx) hnew).on I I' hx
  exact ⟨⟨a', I'⟩, hlives, fun t => LivesOn.lasts (hlives t) (hpath t).2.1 (hpath t).2.2⟩

end Runs

theorem lifecycle {mem : Memory} {env : Env} {s : State}
    (h : Run PanicHarmless (initial mem env) s) :
    s.statusOf mainId = some .active ∧
      (∀ e f, PanicHarmless s e → step s e = .error f → f ≠ .freed) ∧
      (∀ e s' o, PanicHarmless s e → step s e = .ok (s', o) →
        ∀ t x, s.statusOf t = some x → x ≠ .new → LivesOn s e s' t) ∧
      ∀ s', Run PanicHarmless s s' → ∀ t, Lasts s s' t := by
  obtain ⟨leak, a, I, hleak⟩ := h.inv' True fun s e he => ⟨he.1, he.2.1⟩
  obtain rfl := hleak True.intro
  refine ⟨I.main_active, ?_, fun e s' o he hs => (I.lives he hs).2.1, ?_⟩
  · rintro e f he hf rfl
    have hsafe := (step_spec True (E := fun f => f.internal = false) I he.1
      (fun _ hf => hf) he.2.1 (.inr ⟨True.intro, he.2.2⟩)).fault hf
    cases hsafe
  · intro s' hrun t
    have hall : (∃ a', Inv (fun _ => 0) s' a') ∧ Lasts s s' t := by
      induction hrun with
      | refl =>
          exact ⟨⟨a, I⟩, id, fun h _ => h, fun x hx hnew _ => ⟨by rw [hx]; simpa using hnew, rfl⟩,
            fun x hx _ _ => hx⟩
      | tail _ he hs ih =>
          obtain ⟨⟨a₁, I₁⟩, hlast⟩ := ih
          obtain ⟨hI₂, -, hlast₂⟩ := I₁.lives he hs
          exact ⟨hI₂, hlast.trans I (hlast₂ t)⟩
    exact hall.2

/-- Whether a transfer under PANIC resumes a plain `tealet_switch` of a live tealet. -/
def Event.panicHarmless (s : State) (e : Event) : Bool :=
  e.attemptsAll (fun s₁ t f => !f.panic || decide (t = s₁.gCurrent) ||
    (s₁.frameOf t).all fun fr => match fr with
      | .switch g _ => decide (Alive s₁ g) && decide (g ≠ s₁.gCurrent)
      | _ => false) s

theorem Event.panicHarmless_spec {s : State} {e : Event} (h : e.panicHarmless s = true) :
    e.PanicResumes True s ∧ e.PanicCallers s := by
  constructor
  · intro s₁ t f isExit allocs ha hp ht fr hfr
    have := Event.attemptsAll_spec h ha
    simp only [hp, hfr, ht, Bool.not_true, decide_false, Bool.or_self, Bool.false_or,
      Option.all_some] at this
    cases fr with
    | switch => exact ⟨rfl, fun _ => rfl⟩
    | _ => cases this
  · intro s₁ t f isExit allocs ha hp ht g out hfr
    have := Event.attemptsAll_spec h ha
    simp only [hp, hfr, ht, Bool.not_true, decide_false, Bool.or_self, Bool.false_or,
      Option.all_some, Bool.and_eq_true, decide_eq_true_eq] at this
    exact ⟨this.1, fun _ _ => this.2⟩

/-- A tealet sends main a panic through main's `tealet_switch`, and exits. -/
theorem lifecycle_exit : ∃ s, Run PanicHarmless (initial (fun _ => 0) {}) s ∧
    s.statusOf 1 = some .exited ∧ s.statusOf mainId = some .active := by
  obtain ⟨s, hrun, hs⟩ := exists_run_of_trace (P := PanicHarmless)
    (p := fun s e => e.legal s && e.panicHarmless s)
    (fun s e h => by
      obtain ⟨h₁, h₂⟩ := Bool.and_eq_true_iff.mp h
      exact ⟨Event.legal_spec h₁, Event.panicHarmless_spec h₂⟩)
    [.call .new [] [], .call (.run 1 7 none null true ⟨1000, 990⟩) [] [],
      .call (.switch 0 none {} 900) [] [], .call (.switch 1 none {} 2000) [] [],
      .call (.switch 0 none { panic := true } 900) [] [], .call (.switch 1 none {} 2000) [] [],
      .call (.ret (some 0) 950) [] []]
    (s := initial (fun _ => 0) {})
    (fun s => decide (s.statusOf 1 = some .exited)) (by decide +kernel)
  exact ⟨s, hrun, of_decide_eq_true hs, (lifecycle hrun).1⟩

/-- A tealet that was started by a switch sends its creator a panic, which resets it. -/
theorem panic_to_creator :
    ¬ ∀ mem env s e s' o t x, Run Legal (initial mem env) s → Legal s e →
      step s e = .ok (s', o) → s.statusOf t = some x → x ≠ .new → LivesOn s e s' t := by
  intro h
  obtain ⟨s, hrun, hs⟩ := exists_run_of_trace (P := Legal) (p := fun s e => e.legal s)
    (fun s e h => Event.legal_spec h)
    [.call .new [] [], .call (.run 1 7 none null true ⟨1000, 990⟩) [] []]
    (s := initial (fun _ => 0) {})
    (fun s => decide (s.statusOf 1 = some .active) &&
      Event.legal s (.call (.switch 0 none { panic := true } 900) [] []) &&
      endsIn (step s (.call (.switch 0 none { panic := true } 900) [] []))
        fun p => decide (p.1.statusOf 1 = some .new)) (by decide +kernel)
  simp only [Bool.and_eq_true, decide_eq_true_eq] at hs
  obtain ⟨⟨hact, hlegal⟩, hstep⟩ := hs
  obtain ⟨p, heq, hp⟩ := endsIn_spec hstep
  have hnew : p.1.statusOf 1 = some .new := of_decide_eq_true hp
  cases h _ _ s _ p.1 p.2 1 _ hrun (Event.legal_spec hlegal) heq hact (by simp) with
  | kept hs => rw [hact, hnew] at hs; cases hs
  | exited _ _ hs => rw [hnew] at hs; cases hs
  | lost _ hs => rw [hnew] at hs; cases hs
  | deleted hn => rw [State.statusOf, hn] at hnew; cases hnew
  | exitDeleted _ _ hn => rw [State.statusOf, hn] at hnew; cases hnew

end Tealet
