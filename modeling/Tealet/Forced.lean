import Tealet.Bytes
import Tealet.NoFail
import Tealet.Outcomes
import Tealet.Refusals

/-!
# Forced transfers that fail

A transfer under FORCE drops the saved stacks it cannot grow, except main's
own: when that cannot grow, the call fails, after everything in front of it
in `g_prev` that could not grow was already dropped. From main FORCE has no
effect, and what fails is the save of main's own stack, after the target
was taken out of `g_prev`. `forced_failure_iff` says when nothing was lost.
-/

namespace Tealet

open DList Slice Hoare

/-- Nothing was destroyed between `s` and `s'`, and the same tealet runs. -/
structure Unharmed (s s' : State) : Prop where
  current : s'.gCurrent = s.gCurrent
  previous : s'.gPrevious = s.gPrevious
  status : ∀ t, s'.statusOf t = some .defunct → s.statusOf t = some .defunct
  bytes : ∀ k bs, s.heap.savedBytes k = some bs →
    ∃ bs', s'.heap.savedBytes k = some bs' ∧ bs <+: bs'
  linked : ∀ k, s.heap.Linked k → s'.heap.Partial k → s'.heap.Linked k

/-- `tealet_switch` or `tealet_exit` with FORCE and without NOFAIL. -/
def Call.Forced : Call → Prop
  | .switch _ _ flags _ | .exit _ _ flags _ => flags.force = true ∧ flags.nofail = false
  | _ => False

/-- The number of allocations that the stacks of the list `l` in front of
`stop` take for a tealet with the boundary `F`. -/
def Heap.demand (h : Heap) (F : Nat) (l : List StackId) (stop : Option StackId) : Nat :=
  (l.takeWhile fun k => decide (stop ≠ some k)).countP (h.uncovered F)

/-- The request `q` can afford to fail, `l` being `g_prev`: FORCE in effect
drops nothing in front of main's stack, or, where the call may fail at any
stack, it does not come to the target, unshared in `g_prev`. -/
def Request.Affords (q : Request) (s : State) (l : List StackId) (allocs : List Bool) : Prop :=
  ∀ r, s.tealets q.target = some r →
    if mayFail s.gCurrent q.flags then
      ∀ k st, r.stack = some k → k ∈ l → s.heap.stackAt k = some st → st.refcount ≤ 1 →
        ¬ Paid (s.heap.demand r.stackFar l r.stack) allocs
    else Paid (s.heap.demand r.stackFar l s.mainStack) allocs

section Forced

variable {leak : StackId → Nat} {s s₀ s₁ s' : State} {a : Saved} {cl : Call} {q : Request}
  {b : Back} {x : Option Ptr} {cr : Option TealetId}

/-- An error is returned for a switch that returned it. -/
theorem finish_err (s₁ : State) (b : Back) (e : Err) :
    Returns (fun p => ∀ x cr, p.2 = .returned (.err e) x cr → b.rc = .err e) (finish s₁ b) := by
  obtain ⟨fr, rc, y⟩ := b
  have hsame : ∀ {x cr x' cr' rc' e}, Outcome.returned rc' x cr = .returned (.err e) x' cr' →
      rc' = .err e := by
    intro x cr x' cr' rc' e h
    cases h
    rfl
  cases fr with
  | api => exact fun _ _ h => hsame h
  | switch g out => exact fun _ _ h => hsame h
  | exit g implicit =>
      cases implicit with
      | true => exact True.intro
      | false => exact returns_any.bind fun _ _ _ _ h => hsame h
  | run result current previous fn arg sw out spawned =>
      simp only [finish]
      cases rc with
      | err e =>
          refine returns_any.bind fun s₂ _ => ?_
          cases spawned with
          | false => exact fun _ _ h => hsame h
          | true => exact returns_any.bind fun s₃ _ _ _ h => hsame h
      | _ =>
          cases sw
          all_goals
            dsimp only
            split
            · exact returns_any.bind fun _ _ => returns_any.bind fun _ _ =>
                returns_any.bind fun _ _ =>
                fun _ _ h => by cases h
            · exact fun _ _ h => by cases h
  | fork child current previous sw out =>
      simp only [finish]
      cases rc with
      | err e => exact returns_any.bind fun s₂ _ _ _ h => hsame h
      | _ => exact fun _ _ h => by cases h

/-- The request `q` made in `s` ended in `TEALET_ERR_MEM` in the state `s'`. -/
structure Starved (s : State) (a : Saved) (q : Request) (c r : TealetSub) (kt : StackId)
    (im : Image) (g : Growth) (s' : State) : Prop where
  cur : s.tealets s.gCurrent = some c
  tgt : s.tealets q.target = some r
  ne : q.target ≠ s.gCurrent
  resumes : Resumes a r kt im
  growth : (s.view a).growth r.stack r.stackFar (mayFail s.gCurrent q.flags) s.heap.allocs = g
  fate : (chooseFate g { c.flags with
    exiting := q.isExit, autodelete := q.isExit && q.flags.delete }
    (mayFail s.gCurrent q.flags) q.sp q.frame).1 = none
  rep : ∃ own, HeapRep s'.heap ⟨g.img, g.keep⟩ own
  current : s'.gCurrent = s.gCurrent
  previous : s'.gPrevious = s.gPrevious
  tealets : s'.tealets = s.tealets

theorem Inv.starved (I : Inv leak s a) (hk : OwnFrame s q.isExit q.frame) (hsp : q.sp < spFurthest)
    (halive : Alive s q.target) {p : State × Back}
    (hx : xferInner s q.target q.arg q.flags q.isExit q.frame q.sp = .ok p)
    (hrc : p.2.rc = .err .mem) :
    p.2 = ⟨q.frame, .err .mem, none⟩ ∧ ∃ c r kt im g, Starved s a q c r kt im g p.1 := by
  obtain ⟨c, hc, -⟩ := I.sched.running
  obtain ⟨r, hr⟩ := Option.isSome_iff_exists.mp halive
  cases (I.xferInner_returns (f := q.flags) hc hr hsp hk).result hx with
  | unbound hb hp => rw [hp] at hrc; cases hrc
  | toSelf ht hp =>
      rw [hp] at hrc
      split at hrc
      · cases hrc
      · dsimp only at hrc
        split at hrc <;> cases hrc
  | exited h hp => rw [hp] at hrc; cases hrc
  | defunct h hd hp => rw [hp] at hrc; cases hrc
  | spoiled h hd hkt him hdim hp => rw [hp] at hrc; cases hrc
  | rejected hu hrej hp => rw [hp] at hrc; cases hrc
  | tampered hu hg hs he hp => rw [hp] at hrc; cases hrc
  | moved ht hexit hu hv hg hfate him' hrep hal hb =>
      rw [hb] at hrc
      dsimp only at hrc
      split at hrc <;> cases hrc
  | @nomem kt im a' own' g ht hu hg hfate hrep hal hb hT ha hprev hflags he harm hview =>
      have himg : a' = ⟨g.img, g.keep⟩ := by
        have h₁ : a'.img = g.img := congrArg View.img hview
        have h₂ : a'.prev = g.keep := congrArg View.prev hview
        rw [← h₁, ← h₂]
      subst himg
      exact ⟨hb, c, r, kt, im, g, hc, hr, ht, hu, hg, hfate, ⟨own', hrep⟩,
        congrArg View.current hview, hprev, congrArg View.tealets hview⟩

/-- What the pass over the list did not lose is not lost. -/
theorem Starved.unharmed {c r : TealetSub} {kt : StackId} {im : Image} {g : Growth}
    {own : StackId → List ChunkId} (h : Starved s a q c r kt im g s') (H : HeapRep s.heap a own)
    (hg : g.Harmless a.img a.prev) : Unharmed s s' := by
  obtain ⟨own', H'⟩ := h.rep
  refine ⟨h.current, h.previous, fun t ht => ?_, fun k bs hbs => ?_, fun k hl hp => ?_⟩
  · rw [statusOf_view H'] at ht
    rw [statusOf_view H, ← ht]
    show (s.tealets t).map _ = (s'.tealets t).map _
    rw [h.tealets]
    congr 1
    funext r'
    cases hk : r'.stack with
    | none => rfl
    | some k =>
        show r'.statusWith ((a.img k).any Image.defunct) =
          r'.statusWith ((g.img k).any Image.defunct)
        cases him : a.img k with
        | none =>
            rw [← h.growth, View.growth_none (v := s.view a) him]
        | some im =>
            obtain ⟨im', him', hd, -⟩ := hg.kept k im him
            rw [him', Option.any_some, Option.any_some, hd]
  · rw [H.savedBytes] at hbs
    obtain ⟨im, him, rfl⟩ := Option.map_eq_some_iff.mp hbs
    obtain ⟨im', him', hd, hpre⟩ := hg.kept k im him
    refine ⟨im'.data.take im'.saved, ?_, ?_⟩
    · rw [H'.savedBytes]
      exact congrArg (Option.map _) him'
    · cases hdef : im.defunct with
      | true => simp [Image.saved, hdef]
      | false =>
          rw [Image.saved_of_not_defunct hdef, Image.saved_of_not_defunct (hd.trans hdef),
            List.take_length, List.take_length]
          exact hpre
  · obtain ⟨im', him', hlt⟩ := H'.partial_iff.mp hp
    exact H'.linked_iff.mpr (hg.listed k (H.linked_iff.mp hl) im' him' hlt)

/-- A stack that is still partial but not in the list any more is lost. -/
theorem Starved.harmed {c r : TealetSub} {kt k : StackId} {im im' : Image} {g : Growth}
    {own : StackId → List ChunkId} (h : Starved s a q c r kt im g s') (H : HeapRep s.heap a own)
    (hk : k ∈ a.prev) (him' : g.img k = some im') (hpart : im'.top < im'.far) (hno : k ∉ g.keep) :
    ¬ Unharmed s s' := by
  obtain ⟨own', H'⟩ := h.rep
  intro hU
  exact hno (H'.linked_iff.mp
    (hU.linked k (H.linked_iff.mpr hk) (H'.partial_iff.mpr ⟨im', him', hpart⟩)))

theorem takeWhile_front {pre post : List StackId} {k : StackId} (hk : k ∉ pre) :
    (pre ++ k :: post).takeWhile (fun x => decide (some k ≠ some x)) = pre := by
  rw [List.takeWhile_append_of_pos fun x hx => ?_]
  · rw [List.takeWhile_cons_of_neg (by simp), List.append_nil]
  · simp only [decide_eq_true_eq, ne_eq, Option.some.injEq]
    rintro rfl
    exact hk hx

/-- When a request that failed for want of memory destroyed nothing. -/
theorem Inv.starved_iff (I : Inv leak s a) {c r : TealetSub} {kt : StackId} {im : Image}
    {g : Growth}
    (h : Starved s a q c r kt im g s') : Unharmed s s' ↔ q.Affords s a.prev s.heap.allocs := by
  obtain ⟨own, H⟩ := I.rep
  have hnd : a.prev.Nodup := I.core.nodup
  have hlisted : ∀ x ∈ a.prev, ∃ im, a.img x = some im ∧ im.defunct = false ∧ im.top < im.far :=
    I.core.listed
  obtain ⟨pre, post, S⟩ : ∃ pre post, GrowSplit s.mem ((s.view a).stackOf mainId) r.stack r.stackFar
      (mayFail s.gCurrent q.flags) a.prev a.img g pre post := by
    rw [← h.growth]
    exact growList_split hnd fun x hx => (hlisted x hx).imp fun _ h => h.1
  have hmem : ∀ x ∈ pre, x ∈ a.prev := fun x hx => by
    rw [S.split]
    exact List.mem_append_left _ hx
  have haffords : q.Affords s a.prev s.heap.allocs ↔ _ :=
    ⟨fun hA => hA r h.tgt, fun hA r' hr' => by
      obtain rfl := Option.some.inj (h.tgt.symm.trans hr')
      exact hA⟩
  rw [haffords]
  simp only [Heap.demand, H.uncovered_eq]
  cases hmay : mayFail s.gCurrent q.flags with
  | false =>
      rw [if_neg Bool.false_ne_true]
      rw [hmay] at S
      have hfate := h.fate
      rw [hmay] at hfate
      -- nothing but main's stack makes the pass fail
      have hf : g.failed = true := by
        by_contra hf
        obtain ⟨fate, hsome⟩ := chooseFate_forced (g := g)
          { c.flags with exiting := q.isExit, autodelete := q.isExit && q.flags.delete }
            q.sp q.frame
          (by simpa using hf)
        rw [hsome] at hfate
        cases hfate
      obtain ⟨km, imk, hhead, himk, himk', -, hstop⟩ := S.stuck hf
      have hmain : (s.view a).stackOf mainId = some km := by simpa using hstop
      obtain ⟨post, rfl⟩ : ∃ ys, post = km :: ys := by
        cases post with
        | nil => cases hhead
        | cons y ys => exact ⟨ys, by rw [Option.some.inj hhead]⟩
      have hsplit := S.split
      have hkm : km ∉ pre := fun hk => by
        rw [hsplit] at hnd
        exact (List.nodup_append.mp hnd).2.2 km hk km List.mem_cons_self rfl
      have hpaid : (∀ x ∈ pre, ∀ im',
          (growList s.mem ((s.view a).stackOf mainId) r.stack r.stackFar false
          (pre ++ km :: post) a.img s.heap.allocs).img x = some im' → im'.defunct = false) ↔
          Paid (pre.countP (Tealet.uncovered a.img r.stackFar)) s.heap.allocs :=
        growList_unspoiled (hsplit ▸ hnd) fun x hx => by
          refine ⟨(S.grown x hx).1, ?_, ?_⟩
          · rw [hmain]
            rintro hx'
            exact hkm (Option.some.inj hx' ▸ hx)
          · exact (hlisted x (hmem x hx)).imp fun _ h => ⟨h.1, h.2.1⟩
      have hgr := h.growth
      rw [hmay] at hgr
      rw [← hsplit,
        show growList s.mem ((s.view a).stackOf mainId) r.stack r.stackFar false a.prev a.img
        s.heap.allocs = g from hgr] at hpaid
      have hfront : a.prev.takeWhile (fun x => decide (s.mainStack ≠ some x)) = pre := by
        rw [show s.mainStack = some km from hmain, hsplit]
        exact takeWhile_front hkm
      rw [hfront, ← hpaid]
      constructor
      · intro hU x hx im' him'
        by_contra hd
        obtain ⟨-, im₀, im₁, h₀, h₁, hgrew⟩ := S.grown x hx
        obtain rfl := Option.some.inj (him'.symm.trans h₁)
        obtain ⟨im₂, h₂, hd₂, htop⟩ := hlisted x (hmem x hx)
        obtain rfl := Option.some.inj (h₀.symm.trans h₂)
        refine h.harmed H (hmem x hx) him' ?_
          (S.spoiled_unlisted hnd hx him' (by simpa using hd)) hU
        have hnear := hgrew.kept.near
        have hfar := hgrew.kept.far
        simp only [Image.top, Image.saved, (by simpa using hd : im'.defunct = true), if_true]
        have : im₀.near ≤ im₀.top := Nat.le_add_right _ _
        omega
      · intro hsound
        refine h.unharmed H
          (S.harmless (fun x hx im' him' => ?_) fun hno => absurd hf (by simp [hno]))
        rw [hsplit, List.mem_append] at hx
        rcases hx with hx | hx
        · exact hsound x hx im' him'
        · obtain ⟨im₀, h₀, hd₀, -⟩ := hlisted x (by rw [hsplit]; exact List.mem_append_right _ hx)
          have := S.rest_of_mem hnd (by rw [hf, if_pos rfl]; exact hx) h₀
          obtain rfl := Option.some.inj (him'.symm.trans this)
          exact hd₀
  | true =>
      rw [if_pos rfl]
      rw [hmay] at S
      have hgr := h.growth
      rw [hmay] at hgr
      -- the pass got to the target if the allocations in front of it succeed
      have hreach : ∀ k im, r.stack = some k → k ∈ a.prev → a.img k = some im → im.refcount ≤ 1 →
          (g.failed = false ↔ Paid ((a.prev.takeWhile fun x => decide (r.stack ≠ some x)).countP
            (Tealet.uncovered a.img r.stackFar)) s.heap.allocs) := by
        intro k im hk hmem him href
        obtain ⟨front, back, hsplit⟩ := List.append_of_mem hmem
        have hnd' := hnd
        rw [hsplit, List.nodup_append] at hnd'
        have hkf : k ∉ front := fun hx => hnd'.2.2 k hx k List.mem_cons_self rfl
        have : (growList s.mem ((s.view a).stackOf mainId) r.stack r.stackFar true
            (front ++ k :: back)
            a.img s.heap.allocs).failed = false ↔
            Paid (front.countP (Tealet.uncovered a.img r.stackFar)) s.heap.allocs :=
          growList_reaches hk him href hkf (fun x hx =>
            (hlisted x (by rw [hsplit]; exact List.mem_append_left _ hx)).imp fun _ h =>
              ⟨h.1, h.2.1⟩)
            hnd'.1
        rw [← hsplit, show growList s.mem ((s.view a).stackOf mainId) r.stack r.stackFar true a.prev
          a.img s.heap.allocs = g from hgr] at this
        rw [this, hsplit, hk, takeWhile_front hkf]
      constructor
      · intro hU k st hk hmem hst href hpaid
        obtain ⟨im₀, him₀, hrep⟩ := H.stackAt_isSome hst
        rw [hrep.refcount] at href
        have hf := (hreach k im₀ hk hmem him₀ href).mpr hpaid
        obtain ⟨himg, hno⟩ := S.target_unlisted hnd hf hk hmem him₀ href
        obtain ⟨im₁, h₁, -, htop⟩ := hlisted k hmem
        obtain rfl := Option.some.inj (him₀.symm.trans h₁)
        exact h.harmed H hmem himg htop hno hU
      · intro hA
        refine h.unharmed H (S.harmless (fun x hx im' him' => ?_) fun hf x imx hx hmem himx => ?_)
        · obtain ⟨im₀, h₀, hd₀, -⟩ := hlisted x hx
          obtain ⟨im₁, h₁, rfl | ⟨-, hgrew⟩⟩ := S.changed h₀
          · obtain rfl := Option.some.inj (him'.symm.trans h₁)
            exact hd₀
          · obtain rfl := Option.some.inj (him'.symm.trans h₁)
            exact hgrew.defunct_of_stop rfl hd₀
        · obtain ⟨st, hst, hrep⟩ := H.stack x imx himx
          have hshared : 1 < imx.refcount := by
            by_contra hle
            have href : imx.refcount ≤ 1 := Nat.le_of_not_lt hle
            exact hA x st hx hmem hst (hrep.refcount ▸ href)
              ((hreach x imx hx hmem himx href).mp hf)
          obtain ⟨im₂, h₂, hfar⟩ := I.core.owned q.target r x h.tgt hx
          obtain rfl := Option.some.inj (himx.symm.trans h₂)
          refine ⟨hshared, Nat.le_of_eq (hfar fun hm => ?_)⟩
          have hmain := ((I.core.image x imx himx).ofMain (by
            rw [← hm]
            exact (stackOf_eq (v := s.view a) h.tgt).trans hx)).1
          omega

/-- With NOFAIL in effect memory is no reason to fail: main can always be reached. -/
theorem Inv.attempts_nofail (I : Inv leak s a) (hk : OwnFrame s q.isExit q.frame)
    (hsp : q.sp < spFurthest) (halive : Alive s q.target) (hn : q.flags.nofail = true)
    {p : State × Back} (h : q.attempts s = .ok p) :
    p.2.rc ≠ .err .mem := by
  intro hrc
  have hfirst : q.flags.first = { q.flags with nofail := false, force := true } := if_pos hn
  rw [Request.attempts, xferAttempts, if_pos hn, ← hfirst] at h
  obtain ⟨⟨s₁, b⟩, heq, h⟩ := bind_ok h
  dsimp only at h
  by_cases hb : b.rc = .err .mem ∨ b.rc = .err .defunct
  · rw [if_pos hb] at h
    obtain ⟨a₁, I₁, hk₁, halive₁⟩ := (Attempt.fallback hn heq hb).inv I hsp hk halive
    let q₁ : Request := { q with target := mainId, flags := q.flags.fallback }
    obtain ⟨-, c, r, kt, im, g, hst⟩ := I₁.starved (q := q₁) hk₁ hsp halive₁ h hrc
    have hmay : mayFail s₁.gCurrent q₁.flags = false := by
      simp [mayFail, q₁, XFlags.fallback, hst.ne.symm]
    have hok : g.failed = false := by
      have hgr := hst.growth
      rw [hmay] at hgr
      rw [← hgr]
      refine growList_to_main (stackOf_eq (v := s₁.view a₁) hst.tgt).symm fun k im hk him => ?_
      exact Nat.le_of_eq ((I₁.core.image k im him).ofMain
        ((stackOf_eq (v := s₁.view a₁) hst.tgt).trans hk)).1
    have hfate := hst.fate
    rw [hmay] at hfate
    obtain ⟨fate, hsome⟩ := chooseFate_forced (g := g)
      { c.flags with exiting := q₁.isExit, autodelete := q₁.isExit && q₁.flags.delete }
        q₁.sp q₁.frame hok
    rw [hsome] at hfate
    cases hfate
  · rw [if_neg hb] at h
    cases h
    exact hb (.inl hrc)

/-- A transferring call that returns `TEALET_ERR_MEM` made one attempt, which ended so. -/
theorem Inv.request_starved (I : Inv leak s a) (hL : cl.Legal s) (hq : cl.request s = some (s₀, q))
    (hs : callStep s cl = .ok (s', .returned (.err .mem) x cr)) :
    q.flags.nofail = false ∧
      ∃ s₁ c r kt im g, Starved s₀ a q c r kt im g s₁ ∧ s' = s₁.unlockAuto := by
  obtain ⟨f, cond, inst, -, -, heq⟩ := callStep_request hq
  rw [heq] at hs
  obtain ⟨-, -, hs⟩ := bind_ok hs
  obtain ⟨-, -, hs⟩ := bind_ok hs
  obtain ⟨⟨s₁, b⟩, hatt, hfin⟩ := bind_ok hs
  obtain ⟨I₀, -⟩ := I.withRequest hq
  obtain ⟨halive, hsp⟩ := request_legal hq hL
  obtain ⟨fl, ar, hs₀, -⟩ := request_state hq
  have halive₀ : Alive s₀ q.target := by
    rw [hs₀]
    exact halive
  have hk := request_frame hq
  have hrc : b.rc = .err .mem := by
    have := (finish_err s₁ _ .mem).result hfin x cr rfl
    split at this <;> exact this
  have hn : q.flags.nofail = false := by
    by_contra hn
    have hn : q.flags.nofail = true := by simpa using hn
    exact I₀.attempts_nofail hk hsp halive₀ hn hatt hrc
  rw [Request.attempts, xferAttempts, if_neg (by simp [hn])] at hatt
  obtain ⟨hb, c, r, kt, im, g, hst⟩ := I₀.starved hk hsp halive₀ hatt hrc
  refine ⟨hn, s₁, c, r, kt, im, g, hst, ?_⟩
  have hown : (∃ g out, q.frame = .switch g out) ∨ ∃ g i, q.frame = .exit g i := by
    unfold OwnFrame at hk
    split at hk
    · exact .inr ⟨_, hk⟩
    · exact .inl ⟨_, hk⟩
  obtain rfl : b = _ := hb
  unfold Request.finish at hfin
  split at hfin
  · exact congrArg Prod.fst ((finish_failed ⟨rfl, rfl⟩ (.inr hown)).result hfin)
  · exact congrArg Prod.fst ((finish_failed ⟨rfl, rfl⟩ (.inr hown)).result hfin)

theorem Unharmed.congr {s₁ s₂ s₃ s₄ : State} (h : Unharmed s₁ s₂) (hc : s₁.gCurrent = s₃.gCurrent)
    (hp : s₁.gPrevious = s₃.gPrevious) (ht : s₁.tealets = s₃.tealets)
    (hh : ∃ al, s₁.heap = { s₃.heap with allocs := al }) (hc' : s₄.gCurrent = s₂.gCurrent)
    (hp' : s₄.gPrevious = s₂.gPrevious) (ht' : s₄.tealets = s₂.tealets) (hh' : s₄.heap = s₂.heap) :
    Unharmed s₃ s₄ := by
  obtain ⟨al, hh⟩ := hh
  obtain ⟨h₁, h₂, h₃, h₄, h₅⟩ := h
  unfold State.statusOf at h₃
  rw [hh] at h₃ h₄ h₅
  rw [ht] at h₃
  refine ⟨hc'.trans (h₁.trans hc), hp'.trans (h₂.trans hp), ?_, ?_, ?_⟩
  · unfold State.statusOf
    rw [ht', hh']
    exact h₃
  · rw [hh']
    intro k bs hbs
    exact h₄ k bs ((Heap.savedBytes_allocs s₃.heap al k).trans hbs)
  · rw [hh']
    exact h₅

end Forced

/-- A forced transfer that fails destroys nothing if and only if it can afford to fail. -/
theorem forced_failure_iff {mem : Memory} {env : Env} {s s' : State}
    (hrun : Run NoPanicCapture (initial mem env) s) {c : Call} (hL : c.Legal s) (hF : c.Forced)
    {allocs : List Bool} {mprotects : List (Option (Nat → Bool))} {x : Option Ptr}
    {cr : Option TealetId}
    (hs : step s (.call c allocs mprotects) = .ok (s', .returned (.err .mem) x cr)) :
    ∃ s₀ q l, c.request (s.withChoices allocs mprotects) = some (s₀, q) ∧ s.heap.links.Rep l ∧
      (Unharmed s s' ↔ q.Affords s l allocs) := by
  obtain ⟨leak, a, I, -⟩ := hrun.inv' False fun s e he => he
  obtain ⟨own, H⟩ := I.rep
  replace I := I.withChoices allocs mprotects
  have hL' : c.Legal (s.withChoices allocs mprotects) := by
    cases c <;> exact hL
  have hs : callStep (s.withChoices allocs mprotects) c = .ok (s', .returned (.err .mem) x cr) := hs
  have hreq : ∃ s₀ q, c.request (s.withChoices allocs mprotects) = some (s₀, q) := by
    cases c with
    | switch t parg flags sp => exact ⟨_, _, rfl⟩
    | exit t arg flags sp =>
        by_cases hd : flags.defer = true
        · simp only [callStep, exit, if_pos hd] at hs
          obtain ⟨-, -, hs⟩ := bind_ok hs
          obtain ⟨-, -, hs⟩ := bind_ok hs
          obtain ⟨-, -, hs⟩ := bind_ok hs
          cases hs
        · exact ⟨_, _, if_neg hd⟩
    | _ => exact hF.elim
  obtain ⟨s₀, q, hq⟩ := hreq
  refine ⟨s₀, q, a.prev, hq, H.list, ?_⟩
  obtain ⟨-, s₁, cc, r, kt, im, g, hst, hs'⟩ := I.request_starved hL' hq hs
  obtain ⟨I₀, -⟩ := I.withRequest hq
  obtain ⟨fl, ar, hs₀, -⟩ := request_state hq
  have hiff := I₀.starved_iff hst
  subst hs₀ hs'
  refine Iff.trans ⟨fun h => ?_, fun h => ?_⟩ hiff
  · exact h.congr rfl rfl rfl ⟨s.heap.allocs, rfl⟩ rfl rfl rfl rfl
  · exact h.congr rfl rfl rfl ⟨allocs, rfl⟩ rfl rfl rfl rfl

/-- Main starts a tealet with a far boundary, which switches back, then one
that starts a third one: its stack and main's are in `g_prev`. -/
def forcedScenario : List Event :=
  [.call .new [] [], .call (.run 1 7 none 2000 true ⟨1000, 990⟩) [] [],
    .call (.switch 0 none {} 900) [] [], .call .new [] [],
    .call (.run 2 7 none null true ⟨1000, 990⟩) [] [], .call .new [] [],
    .call (.run 3 7 none null true ⟨890, 880⟩) [] []]

theorem forcedScenario_run (q : State → Bool)
    (h : ((trace (fun s e => e.legal s && e.panicResumes s)
    (initial (fun _ => 0) {}) forcedScenario).map q) = some true) :
    ∃ s, Run NoPanicCapture (initial (fun _ => 0) {}) s ∧ q s = true :=
  exists_run_of_trace (P := NoPanicCapture) (p := fun s e => e.legal s && e.panicResumes s)
    (fun s e h => by
      obtain ⟨h₁, h₂⟩ := Bool.and_eq_true_iff.mp h
      exact ⟨Event.legal_spec h₁, Event.panicResumes_spec h₂⟩) forcedScenario q h

/-- The stack in front of main's grows, main's does not: the call can afford
to fail, and destroys nothing. -/
theorem forced_failure_iff_afforded : ∃ s s', Run NoPanicCapture (initial (fun _ => 0) {}) s ∧
    step s (.call (.switch 1 none { force := true } 800) [true, false] []) =
      .ok (s', .returned (.err .mem) none) ∧
    ∃ s₀ q l, (Call.switch 1 none { force := true } 800).request
        (s.withChoices [true, false] []) = some (s₀, q) ∧ s.heap.links.Rep l ∧
      q.Affords s l [true, false] ∧ Unharmed s s' := by
  obtain ⟨s, hrun, hs⟩ := forcedScenario_run (fun s => decide (Alive s 1) &&
    decide (s.gCurrent = 3 ∧ (s.tealets 1).map TealetSub.stackFar = some 2000) &&
    decide ((s.heap.links.head = some 3 ∧ s.heap.links.prev 3 = some .head ∧
      s.heap.links.next 3 = some 2 ∧ s.heap.links.prev 2 = some (.next 3) ∧
      s.heap.links.next 2 = none) ∧
      Paid (s.heap.demand 2000 [3, 2] s.mainStack) [true, false]) &&
    endsIn (step s (.call (.switch 1 none { force := true } 800) [true, false] []))
      fun p => decide (p.2 = .returned (.err .mem) none)) (by decide +kernel)
  simp only [Bool.and_eq_true, decide_eq_true_eq] at hs
  obtain ⟨⟨⟨halive, hcur, hfar⟩, ⟨hhead, hp₃, hn₃, hp₂, hn₂⟩, hpaid⟩, hs⟩ := hs
  have hL : (Call.switch 1 none { force := true } 800).Legal s := ⟨halive, by decide⟩
  obtain ⟨⟨s', o⟩, hstep, ho⟩ := endsIn_spec hs
  obtain rfl : o = _ := of_decide_eq_true ho
  obtain ⟨s₀, q, l, hq, hl, hiff⟩ := forced_failure_iff hrun hL ⟨rfl, rfl⟩ hstep
  have hseg : s.heap.links.Seg .head s.heap.links.head [3, 2] :=
    ⟨hhead, hp₃, hn₃, hp₂, hn₂⟩
  obtain rfl : l = [3, 2] := hl.seg.unique hseg
  have hfields : q.target = 1 ∧ q.flags = { force := true } := by
    obtain ⟨-, rfl⟩ := Prod.mk.inj (Option.some.inj hq)
    exact ⟨rfl, rfl⟩
  have hafford : q.Affords s [3, 2] [true, false] := by
    intro r hr
    rw [hfields.1] at hr
    rw [hr] at hfar
    have hfar : r.stackFar = 2000 := Option.some.inj hfar
    rw [hfields.2, if_neg (by rw [hcur]; decide), hfar]
    exact hpaid
  exact ⟨s, s', hrun, hstep, s₀, q, [3, 2], hq, hl, hafford, hiff.mpr hafford⟩

/-- Neither grows, and the tealet in front is lost although the call fails. -/
theorem forced_failure_destroys : ∃ s s', Run NoPanicCapture (initial (fun _ => 0) {}) s ∧
    (Call.switch 1 none { force := true } 800).Legal s ∧
    step s (.call (.switch 1 none { force := true } 800) [false, false] []) =
      .ok (s', .returned (.err .mem) none) ∧ ¬ Unharmed s s' := by
  obtain ⟨s, hrun, hs⟩ := forcedScenario_run (fun s => decide (Alive s 1) &&
    decide (s.statusOf 2 = some .active) &&
    endsIn (step s (.call (.switch 1 none { force := true } 800) [false, false] [])) fun p =>
      decide (p.2 = .returned (.err .mem) none) && decide (p.1.statusOf 2 = some .defunct))
    (by decide +kernel)
  simp only [Bool.and_eq_true, decide_eq_true_eq] at hs
  obtain ⟨⟨halive, hactive⟩, hs⟩ := hs
  obtain ⟨⟨s', o⟩, hstep, hp⟩ := endsIn_spec hs
  obtain ⟨rfl, hlost⟩ : o = .returned (.err .mem) none ∧ s'.statusOf 2 = some .defunct := by
    simpa using hp
  refine ⟨s, s', hrun, ⟨halive, by decide⟩, hstep, fun hU => ?_⟩
  rw [hU.status 2 hlost] at hactive
  cases hactive

end Tealet
