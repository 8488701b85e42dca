import Mathlib.Algebra.Order.Ring.Nat
import Tealet.Machine

/-!
# The watched window

What `tealet_integrity_plan_for_current` plans: the window at the far
boundary is split at its first page boundary, the part before it is
compared with a snapshot and the pages from there on are protected.
`IntegrityData.Planned` says so of a result; the properties of a plan are
read off it.
-/

namespace Tealet

open Hoare Align

namespace IntegrityData

variable (d : IntegrityData) (x : Nat)

/-- The address `x` is watched by the snapshot. -/
def InSnapshot : Prop := d.stackBase ≤ x ∧ x < d.stackBase + d.snapshotBytes

/-- The address `x` lies in the guarded pages. -/
def InGuard : Prop := d.guardBase ≤ x ∧ x < d.guardBase + d.guardBytes

end IntegrityData

/-- The window is guarded from its first page boundary on. -/
def Guarded (pageSize : Nat) (c : Config) (far : Nat) : Prop :=
  c.guard = true ∧ pageSize ≠ 0 ∧ far < (far + plannedBytes c far) % wordMod

instance (pageSize : Nat) (c : Config) (far : Nat) : Decidable (Guarded pageSize c far) :=
  inferInstanceAs (Decidable (_ ∧ _ ∧ _))

/-- Where the pages of a guarded window end. -/
def guardEnd (pageSize : Nat) (c : Config) (far : Nat) : Nat :=
  let stop := (far + plannedBytes c far) % wordMod
  if stop ≤ alignUp pageSize far then alignUp pageSize far else alignUp pageSize stop

/-- The number of bytes that are compared with the snapshot. -/
def snapshotLength (pageSize : Nat) (c : Config) (far : Nat) : Nat :=
  let n := if c.snapshot then plannedBytes c far else 0
  if Guarded pageSize c far ∧ n ≠ 0 then
    min n ((alignUp pageSize far + wordMod - far) % wordMod)
  else n

/-- The plan for a running tealet with boundary `far`. -/
def plannedData (pageSize : Nat) (c : Config) (far : Nat) (d : IntegrityData) : IntegrityData :=
  let pages := Guarded pageSize c far ∧ alignUp pageSize far < guardEnd pageSize c far
  { d with
    stackBase := if plannedBytes c far = 0 then 0 else far
    snapshotBytes := snapshotLength pageSize c far
    guardBase := if pages then alignUp pageSize far else 0
    guardBytes := if pages then guardEnd pageSize c far - alignUp pageSize far else 0 }

section Plan

variable {pageSize far : Nat} {c : Config} {d d' : IntegrityData}

theorem snapshotLength_le (pageSize : Nat) (c : Config) (far : Nat) :
    snapshotLength pageSize c far ≤ plannedBytes c far :=
  Machine.x64.snapshotLength_le pageSize c far

theorem not_guarded_of_none (h : plannedBytes c far = 0) : ¬ Guarded pageSize c far :=
  Machine.not_guarded_of_none (M := .x64) h

/-- What is planned, and the only way in which planning fails. -/
theorem integrityPlan_eq : integrityPlan pageSize c far d =
    if snapshotLength pageSize c far ≤ d.snapshotCapacity then .ok (plannedData pageSize c far d)
    else .error (.assertion .integrityPlan) :=
  Machine.integrityPlan_eq (M := .x64)

/-! ## The page grid -/

variable {p : Nat}

theorem alignUp_bounds (far : Nat) (hp : p ≤ 64) (h : far + (2 ^ p - 1) < wordMod) :
    far ≤ alignUp (2 ^ p) far ∧ alignUp (2 ^ p) far ≤ far + (2 ^ p - 1) :=
  roundUp_bounds hp h

theorem dvd_alignUp (hp : p ≤ 64) (x : Nat) : 2 ^ p ∣ alignUp (2 ^ p) x := dvd_roundUp hp _

/-- The part of the window before its first page boundary is shorter than a page. -/
theorem prefix_le (hp : p ≤ 64) (hfar : far < wordMod) :
    (alignUp (2 ^ p) far + wordMod - far) % wordMod ≤ 2 ^ p - 1 := by
  have hpow : 2 ^ p ≤ 2 ^ 64 := Nat.pow_le_pow_right (by decide) hp
  have hpos := Nat.two_pow_pos p
  exact roundUp_sub_le (w := 64) (by omega) hfar

/-- The space that `tealet_configure_set` reserves is enough for every window
that does not wrap around the address space. -/
theorem snapshotLength_le_required (hp : p ≤ 64) (hfits : far + plannedBytes c far < wordMod)
    (hle : plannedBytes c far ≤ c.stackIntegrityBytes) :
    snapshotLength (2 ^ p) c far ≤ snapshotRequiredCapacity (2 ^ p) c := by
  have hlen := snapshotLength_le (2 ^ p) c far
  unfold snapshotRequiredCapacity
  dsimp only
  by_cases hs : c.snapshot = true
  · rw [if_pos hs]
    split
    · rename_i h
      by_cases h0 : plannedBytes c far = 0
      · omega
      have hg : Guarded (2 ^ p) c far :=
        ⟨h.2.1, by omega, by rw [Nat.mod_eq_of_lt hfits]; omega⟩
      have hpre : (alignUp (2 ^ p) far + wordMod - far) % wordMod ≤ 2 ^ p - 1 :=
        prefix_le hp (by omega)
      have hmin : snapshotLength (2 ^ p) c far =
          min (plannedBytes c far) ((alignUp (2 ^ p) far + wordMod - far) % wordMod) := by
        simp only [snapshotLength, hs, if_true, hg, h0, ne_eq, not_false_eq_true, and_self]
      omega
    · omega
  · have hzero : snapshotLength (2 ^ p) c far = 0 := by
      simp [snapshotLength, hs]
    omega

/-! ## The split of the window -/

/-- `stack_integrity_bytes`, clamped by a limit. -/
def window (c : Config) (far : Nat) : Nat :=
  if c.stackGuardLimit = 0 then c.stackIntegrityBytes
  else min c.stackIntegrityBytes (c.stackGuardLimit - far)

theorem plannedBytes_eq (hi : c.integrity = true) (hfar : far ≠ spFurthest) :
    plannedBytes c far = window c far := by
  unfold plannedBytes window
  rw [if_neg (by simp [hi, hfar])]
  split
  · rfl
  · split
    · omega
    · rfl

theorem window_le : window c far ≤ c.stackIntegrityBytes := by
  unfold window
  split
  · exact Nat.le_refl _
  · exact Nat.min_le_left _ _

/-- Snapshot and guard share the `n` bytes from `far` on. -/
structure IntegrityData.Splits (d : IntegrityData) (pageSize far n : Nat) : Prop where
  disjoint : ∀ x, ¬ (d.InSnapshot x ∧ d.InGuard x)
  covers : ∀ x, far ≤ x → x < far + n → d.InSnapshot x ∨ d.InGuard x
  beyond : ∀ x, d.InSnapshot x ∨ d.InGuard x → far ≤ x
  aligned : pageSize ∣ d.guardBase ∧ pageSize ∣ d.guardBytes
  tight : d.guardBytes ≠ 0 → d.guardBase + d.guardBytes < far + n + pageSize

theorem plan_splits (hpage : pageSize = 2 ^ p) (hi : c.integrity = true) (hs : c.snapshot = true)
    (hg : c.guard = true) (hfar : far ≠ spFurthest)
    (hfits : far + window c far + pageSize ≤ wordMod)
    (hcap : snapshotRequiredCapacity pageSize c ≤ d.snapshotCapacity) :
    ∃ d', integrityPlan pageSize c far d = .ok d' ∧ d'.Splits pageSize far (window c far) ∧
      (c.stackGuardLimit ≠ 0 → c.stackGuardLimit ≤ far →
        ∀ x, ¬ d'.InSnapshot x ∧ ¬ d'.InGuard x) := by
  subst hpage
  have hn : plannedBytes c far = window c far := plannedBytes_eq hi hfar
  have hpos := Nat.two_pow_pos p
  have hp : p ≤ 64 := (Nat.pow_le_pow_iff_right (a := 2) (by omega)).mp
    ((Nat.le_add_left _ _).trans hfits)
  have hlt : far + window c far < wordMod := by omega
  have hspace := (snapshotLength_le_required hp (c := c) (by rw [hn]; exact hlt)
    (by rw [hn]; exact window_le)).trans hcap
  rw [integrityPlan_eq, if_pos hspace]
  refine ⟨_, rfl, ?_⟩
  by_cases h0 : window c far = 0
  · have hlen : snapshotLength (2 ^ p) c far = 0 := by
      have hle := snapshotLength_le (2 ^ p) c far
      omega
    have hng : ¬ Guarded (2 ^ p) c far := not_guarded_of_none (hn.trans h0)
    have hsnap : ∀ x, ¬ (plannedData (2 ^ p) c far d).InSnapshot x := by
      intro x
      simp only [IntegrityData.InSnapshot, plannedData, hlen]
      omega
    have hguard : ∀ x, ¬ (plannedData (2 ^ p) c far d).InGuard x := by
      intro x
      simp only [IntegrityData.InGuard, plannedData, hng, false_and, if_false]
      omega
    refine ⟨⟨fun x h => hsnap x h.1, ?_, ?_, ?_, ?_⟩, fun _ _ x => ⟨hsnap x, hguard x⟩⟩
    · intro x h₁ h₂
      omega
    · rintro x (h | h)
      · exact absurd h (hsnap x)
      · exact absurd h (hguard x)
    · simp [plannedData, hng]
    · intro h
      simp [plannedData, hng] at h
  · have hstop : (far + plannedBytes c far) % wordMod = far + window c far := by
      rw [hn, Nat.mod_eq_of_lt hlt]
    have hguarded : Guarded (2 ^ p) c far := ⟨hg, by omega, by rw [hstop]; omega⟩
    obtain ⟨hb₁, hb₂⟩ := alignUp_bounds far hp (by omega)
    obtain ⟨he₁, he₂⟩ := alignUp_bounds (far + window c far) hp (by omega)
    have hdb := dvd_alignUp hp far
    have hde := dvd_alignUp hp (far + window c far)
    have hlen : snapshotLength (2 ^ p) c far = min (window c far) (alignUp (2 ^ p) far - far) := by
      have hmod : (alignUp (2 ^ p) far + wordMod - far) % wordMod = alignUp (2 ^ p) far - far := by
        rw [show alignUp (2 ^ p) far + wordMod - far = (alignUp (2 ^ p) far - far) +
          wordMod by omega, Nat.add_mod_right, Nat.mod_eq_of_lt (by omega)]
      simp only [snapshotLength, hs, if_true, hguarded, hn, h0, ne_eq, not_false_eq_true, and_self,
        hmod]
    have hend : guardEnd (2 ^ p) c far = if far + window c far ≤ alignUp (2 ^ p) far then
        alignUp (2 ^ p) far else alignUp (2 ^ p) (far + window c far) := by
      simp only [guardEnd, hstop]
    have hlim : c.stackGuardLimit ≠ 0 → ¬ c.stackGuardLimit ≤ far := by
      intro hl hle
      rw [window, if_neg hl] at h0
      omega
    refine ⟨?_, fun hl hle => absurd hle (hlim hl)⟩
    by_cases hin : far + window c far ≤ alignUp (2 ^ p) far
    · -- no page boundary inside the window: the snapshot is all of it
      rw [if_pos hin] at hend
      constructor
      · intro x
        simp only [IntegrityData.InSnapshot, IntegrityData.InGuard, plannedData, hn, h0, hend,
          Nat.lt_irrefl, and_false, if_false]
        omega
      · intro x h₁ h₂
        simp only [IntegrityData.InSnapshot, IntegrityData.InGuard, plannedData, hn, h0, hlen, hend,
          Nat.lt_irrefl, and_false, if_false]
        omega
      · intro x
        simp only [IntegrityData.InSnapshot, IntegrityData.InGuard, plannedData, hn, h0, hend,
          Nat.lt_irrefl, and_false, if_false]
        omega
      · simp [plannedData, hend]
      · intro h
        simp [plannedData, hend] at h
    · rw [if_neg hin] at hend
      have hpages : alignUp (2 ^ p) far < alignUp (2 ^ p) (far + window c far) := by omega
      constructor
      · intro x
        simp only [IntegrityData.InSnapshot, IntegrityData.InGuard, plannedData, hn, h0, hlen, hend,
          hguarded, hpages, and_self, if_true, if_false]
        omega
      · intro x h₁ h₂
        simp only [IntegrityData.InSnapshot, IntegrityData.InGuard, plannedData, hn, h0, hlen, hend,
          hguarded, hpages, and_self, if_true, if_false]
        omega
      · intro x
        simp only [IntegrityData.InSnapshot, IntegrityData.InGuard, plannedData, hn, h0, hlen, hend,
          hguarded, hpages, and_self, if_true, if_false]
        omega
      · simp only [plannedData, hend, hguarded, hpages, and_self, if_true]
        exact ⟨hdb, Nat.dvd_sub hde hdb⟩
      · intro _
        simp only [plannedData, hend, hguarded, hpages, and_self, if_true]
        omega

/-! ## The guard limit -/

/-- No watched byte lies at or past `limit`. -/
def IntegrityData.Within (d : IntegrityData) (limit : Nat) : Prop :=
  ∀ x, d.InSnapshot x ∨ d.InGuard x → x < limit

/-- Pages are guarded, and the end of the clamped window rounds up to a page
boundary past the limit. -/
structure PastLimit (pageSize : Nat) (c : Config) (far : Nat) : Prop where
  integrity : c.integrity = true
  guard : c.guard = true
  bounded : far ≠ spFurthest
  pages : pageSize ≠ 0
  bytes : c.stackIntegrityBytes ≠ 0
  inside : alignUp pageSize far < far + window c far
  past : c.stackGuardLimit < alignUp pageSize (far + window c far)

/-- On a page grid: there is a page boundary in the window and none from its
end up to the limit. -/
theorem rounds_past_iff (hp : p ≤ 64) {n limit : Nat} (hn : far + n ≤ limit)
    (hword : limit < wordMod) :
    alignUp (2 ^ p) far < far + n ∧ limit < alignUp (2 ^ p) (far + n) ↔
      (∃ x, 2 ^ p ∣ x ∧ far ≤ x ∧ x < far + n) ∧ (∀ x, 2 ^ p ∣ x → far + n ≤ x → limit < x) ∧
        far + n + (2 ^ p - 1) < wordMod := by
  have hpos := Nat.two_pow_pos p
  -- two multiples less than a page apart are the same
  have huniq : ∀ x y, 2 ^ p ∣ x → 2 ^ p ∣ y → x ≤ y → y < x + 2 ^ p → y = x := by
    intro x y hx hy hle hlt
    obtain ⟨q, hq⟩ := Nat.dvd_sub hy hx
    have hq0 : q = 0 := by
      by_contra h
      have hmul : 2 ^ p * 1 ≤ 2 ^ p * q := Nat.mul_le_mul_left _ (by omega)
      omega
    rw [hq0, Nat.mul_zero] at hq
    omega
  by_cases hw : far + n + (2 ^ p - 1) < wordMod
  · obtain ⟨hb₁, hb₂⟩ := alignUp_bounds far hp (by omega)
    obtain ⟨he₁, he₂⟩ := alignUp_bounds (far + n) hp hw
    have hdb := dvd_alignUp hp far
    have hde := dvd_alignUp hp (far + n)
    constructor
    · rintro ⟨hin, hpast⟩
      refine ⟨⟨_, hdb, hb₁, hin⟩, ?_, hw⟩
      intro x hx hxn
      by_contra hle
      have heq := huniq x _ hx hde (by omega) (by omega)
      omega
    · rintro ⟨⟨x, hx, hxf, hxn⟩, hnone, -⟩
      refine ⟨?_, hnone _ hde he₁⟩
      by_contra hle
      have heq := huniq x _ hx hdb (by omega) (by omega)
      omega
  · have hzero : alignUp (2 ^ p) (far + n) = 0 :=
      roundUp_wrap hp (Nat.lt_of_le_of_lt hn hword) (Nat.le_of_not_lt hw)
    rw [hzero]
    constructor
    · rintro ⟨-, h⟩
      exact absurd h (Nat.not_lt_zero _)
    · rintro ⟨-, -, h⟩
      exact absurd h hw

/-- With pages of `2 ^ p` bytes: pages are guarded, a page begins in the
clamped window, and none begins from its end up to the limit. -/
structure PastGrid (p : Nat) (c : Config) (far : Nat) : Prop where
  integrity : c.integrity = true
  guard : c.guard = true
  bounded : far ≠ spFurthest
  bytes : c.stackIntegrityBytes ≠ 0
  inside : ∃ x, 2 ^ p ∣ x ∧ far ≤ x ∧ x < far + window c far
  past : ∀ x, 2 ^ p ∣ x → far + window c far ≤ x → c.stackGuardLimit < x
  word : far + window c far + (2 ^ p - 1) < wordMod

theorem pastGrid_iff (hp : p ≤ 64) (hlim : far < c.stackGuardLimit)
    (hword : c.stackGuardLimit < wordMod) : PastGrid p c far ↔ PastLimit (2 ^ p) c far := by
  have hwin : far + window c far ≤ c.stackGuardLimit := by
    rw [window, if_neg (by omega)]
    omega
  have hround := rounds_past_iff hp hwin hword
  constructor
  · rintro ⟨hi, hg, hf, hb, hin, hpast, hw⟩
    obtain ⟨hin, hpast⟩ := hround.mpr ⟨hin, hpast, hw⟩
    exact ⟨hi, hg, hf, Nat.ne_of_gt (Nat.two_pow_pos p), hb, hin, hpast⟩
  · rintro ⟨hi, hg, hf, -, hb, hin, hpast⟩
    obtain ⟨hin, hpast, hw⟩ := hround.mp ⟨hin, hpast⟩
    exact ⟨hi, hg, hf, hb, hin, hpast, hw⟩

theorem within_limit_iff (hlim : far < c.stackGuardLimit) (hword : c.stackGuardLimit < wordMod)
    (h : integrityPlan pageSize c far d = .ok d') :
    d'.Within c.stackGuardLimit ↔ ¬ PastLimit pageSize c far := by
  rw [integrityPlan_eq] at h
  split at h
  swap
  · cases h
  cases h
  have hwin : window c far = min c.stackIntegrityBytes (c.stackGuardLimit - far) :=
    if_neg (by omega)
  by_cases hoff : c.integrity = true ∧ far ≠ spFurthest
  swap
  · -- nothing is planned
    have hn : plannedBytes c far = 0 := by
      rw [plannedBytes, if_pos]
      by_cases hi : c.integrity = true
      · exact .inl (by_contra fun hf => hoff ⟨hi, hf⟩)
      · exact .inr (by simpa using hi)
    have hlen : snapshotLength pageSize c far = 0 := by
      have hle := snapshotLength_le pageSize c far
      omega
    have hng : ¬ Guarded pageSize c far := not_guarded_of_none hn
    constructor
    · intro _ hpast
      exact hoff ⟨hpast.integrity, hpast.bounded⟩
    · intro _ x
      simp only [IntegrityData.InSnapshot, IntegrityData.InGuard, plannedData, hlen, hng, false_and,
        if_false]
      omega
  have hn : plannedBytes c far = window c far := plannedBytes_eq hoff.1 hoff.2
  have hlen := snapshotLength_le pageSize c far
  have hstop : (far + plannedBytes c far) % wordMod = far + window c far := by
    rw [hn, Nat.mod_eq_of_lt (by omega)]
  have hend : guardEnd pageSize c far = if far + window c far ≤ alignUp pageSize far then
      alignUp pageSize far else alignUp pageSize (far + window c far) := by
    simp only [guardEnd, hstop]
  constructor
  · intro hwithin hpast
    have hin := hpast.inside
    have hlt := hpast.past
    have h0 := hpast.bytes
    have hg : Guarded pageSize c far :=
      ⟨hpast.guard, hpast.pages, by rw [hstop]; omega⟩
    rw [if_neg (by omega)] at hend
    have hx := hwithin (alignUp pageSize (far + window c far) - 1) (.inr ?_)
    · omega
    · have hpages : alignUp pageSize far < alignUp pageSize (far + window c far) := by omega
      simp only [IntegrityData.InGuard, plannedData, hg, hend, hpages, and_self, if_true]
      omega
  · rintro hno x (hx | hx)
    · have hx₂ := hx.2
      simp only [plannedData] at hx₂
      split at hx₂ <;> omega
    · by_cases hpages : Guarded pageSize c far ∧ alignUp pageSize far < guardEnd pageSize c far
      · simp only [IntegrityData.InGuard, plannedData, hpages, and_self, if_true] at hx
        obtain ⟨⟨hg, hps, hne⟩, hlt⟩ := hpages
        rw [hstop] at hne
        rw [hend] at hlt hx
        by_cases hin : far + window c far ≤ alignUp pageSize far
        · rw [if_pos hin] at hlt
          omega
        · rw [if_neg hin] at hlt hx
          by_contra hle
          exact hno ⟨hoff.1, hg, hoff.2, hps, by omega, by omega, by omega⟩
      · simp only [IntegrityData.InGuard, plannedData, hpages, if_false] at hx
        omega

end Plan

/-- What is planned respects the limit unless the end of the window is rounded
past it, for any page size and, on the page grid, for a power of two. -/
theorem plan_within_limit_iff {pageSize far : Nat} {c : Config} {d d' : IntegrityData}
    (hlim : far < c.stackGuardLimit) (hword : c.stackGuardLimit < wordMod)
    (h : integrityPlan pageSize c far d = .ok d') :
    (d'.Within c.stackGuardLimit ↔ ¬ PastLimit pageSize c far) ∧
    ∀ p ≤ 64, pageSize = 2 ^ p → (d'.Within c.stackGuardLimit ↔ ¬ PastGrid p c far) := by
  refine ⟨within_limit_iff hlim hword h, ?_⟩
  rintro p hp rfl
  rw [pastGrid_iff hp hlim hword]
  exact within_limit_iff hlim hword h

/-- A configuration with both backends. -/
def watchBoth (bytes limit : Nat) : Config :=
  { integrity := true, guard := true, snapshot := true, stackIntegrityBytes := bytes
    stackGuardMode := 2, stackGuardLimit := limit }

theorem plan_splits_pages : ∃ d', integrityPlan 4096 (watchBoth 9000 0) 5000
      { snapshotCapacity := 4095 } = .ok d' ∧ d'.Splits 4096 5000 9000 ∧
    (0 ≠ 0 → 0 ≤ 5000 → ∀ x, ¬ d'.InSnapshot x ∧ ¬ d'.InGuard x) :=
  plan_splits (p := 12) (c := watchBoth 9000 0) (by decide) rfl rfl rfl (by decide) (by decide)
    (by decide)

/-- The last guarded page reaches past the limit. -/
theorem guard_past_limit : ∃ d', integrityPlan 4096 (watchBoth 9000 6000) 3000
      { snapshotCapacity := 4095 } = .ok d' ∧ ¬ d'.Within 6000 := by
  refine ⟨plannedData 4096 (watchBoth 9000 6000) 3000 { snapshotCapacity := 4095 }, rfl, ?_⟩
  intro hw
  have hguard : (plannedData 4096 (watchBoth 9000 6000) 3000
      { snapshotCapacity := 4095 }).InGuard 6000 := ⟨by decide, by decide⟩
  exact absurd (hw 6000 (.inr hguard)) (by decide)

theorem plan_within_limit_page : ∃ d', integrityPlan 4096 (watchBoth 9000 8192) 3000
      { snapshotCapacity := 4095 } = .ok d' ∧ d'.Within 8192 := by
  have hplan : integrityPlan 4096 (watchBoth 9000 8192) 3000 { snapshotCapacity := 4095 } =
      .ok (plannedData 4096 (watchBoth 9000 8192) 3000 { snapshotCapacity := 4095 }) := rfl
  have hiff := plan_within_limit_iff (c := watchBoth 9000 8192) (by decide) (by decide) hplan
  exact ⟨_, hplan, (hiff.2 12 (by decide) rfl).mpr fun hp =>
    absurd (hp.past 8192 ⟨2, rfl⟩ (by decide)) (by decide)⟩

end Tealet
