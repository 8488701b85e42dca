import Tealet.System
import Tealet.Lib.Words

/-!
# The configuration struct

`tealet_configure_set` and `tealet_configure_get` on the caller's struct, a
`tealet_config_t` in memory of which only the first `size` bytes are there.
The request is completed with the defaults behind them (`completed`), which
cuts a field where the struct ends inside one.

What is written back is the same prefix of the canonical form. Completed
again it has the same canonical form (`canonicalize_refill`): a cut field
keeps its low bytes or becomes 0, and a mode that is not passed becomes
`NOACCESS` again.
-/

namespace Tealet

open Slice Words

/-! ## The struct -/

/-- `sizeof(tealet_config_t)` with 8 byte pointers. -/
def configSize : Nat := 56

/-- `offsetof(tealet_config_t, version) + sizeof(config->version)`. -/
def configHeader : Nat := 12

/-- The `int` with the bytes of `x`. -/
def intOf (x : Nat) : Int := (x : Int).bmod (2 ^ 32)

/-- The fields of a struct that `tealet_config_canonicalize` looks at. -/
def decodeConfig (l : List Byte) : Config where
  integrity := (field l 12 4).testBit 0
  guard := (field l 12 4).testBit 1
  snapshot := (field l 12 4).testBit 2
  stackIntegrityBytes := field l 16 8
  stackGuardMode := intOf (field l 24 4)
  stackIntegrityFailPolicy := intOf (field l 28 4)
  stackGuardLimit := field l 32 8
  maxStackSize := field l 40 8

theorem decodeConfig_mode (l : List Byte) :
    (decodeConfig l).stackGuardMode = intOf (field l 24 4) := by
  rw [decodeConfig]

theorem decodeConfig_policy (l : List Byte) :
    (decodeConfig l).stackIntegrityFailPolicy = intOf (field l 28 4) := by
  rw [decodeConfig]

/-- `TEALET_CONFIGF_*`. -/
def flagsOf (c : Config) : Nat :=
  (if c.integrity then 1 else 0) + (if c.guard then 2 else 0) + (if c.snapshot then 4 else 0)

/-- A struct of version 1 with the configuration `c`. -/
def encodeConfig (size : Nat) (c : Config) (reserved : List Byte) : List Byte :=
  bytesOf 8 size ++ (bytesOf 4 1 ++ (bytesOf 4 (flagsOf c) ++ (bytesOf 8 c.stackIntegrityBytes ++
    (bytesOf 4 (c.stackGuardMode % 2 ^ 32).toNat ++
      (bytesOf 4 (c.stackIntegrityFailPolicy % 2 ^ 32).toNat ++
        (bytesOf 8 c.stackGuardLimit ++ (bytesOf 8 c.maxStackSize ++ reserved)))))))

/-- The words of `reserved` after the `memset`. -/
def noReserved : List Byte := List.replicate 8 0

/-! ## Getting and setting -/

/-- `tealet_config_has_header`. -/
def configHasHeader (m : Memory) (p : Ptr) : Bool :=
  decide (p ≠ null) && decide (configHeader ≤ readWord m p 8)

/-- The number of bytes that are copied in and out. -/
def copySize (m : Memory) (p : Ptr) : Nat := min (readWord m p 8) configSize

/-- `requested`, after the caller's bytes are copied over the defaults. -/
def completed (s : State) (p : Ptr) : List Byte :=
  let defaults := encodeConfig (readWord s.mem p 8) { maxStackSize := s.env.cfg.maxStackSize }
    noReserved
  readSlice s.mem p (copySize s.mem p) ++ defaults.drop (copySize s.mem p)

/-- `tealet_configure_set` on the struct at `p`. -/
def configureSetAt (s : State) (p : Ptr) : State × Rc :=
  if configHasHeader s.mem p = false then (s, .err .inval)
  else if readWord s.mem (p + 8) 4 ≠ 1 then (s, .err .inval)
  else
    let requested := decodeConfig (completed s p)
    match configureSet s requested with
    | (s', .ok) =>
        let image := encodeConfig (readWord s.mem p 8) (configCanonicalize requested)
          ((completed s p).drop 48)
        ({ s' with mem := writeSlice s'.mem p (image.take (copySize s.mem p)) }, .ok)
    | (s', rc) => (s', rc)

/-- `tealet_configure_get` into the struct at `p`. -/
def configureGetAt (s : State) (p : Ptr) : State × Rc :=
  if configHasHeader s.mem p = false then (s, .err .inval)
  else
    let effective := encodeConfig (readWord s.mem p 8) (configCanonicalize s.env.cfg) noReserved
    ({ s with mem := writeSlice s.mem p (effective.take (copySize s.mem p)) }, .ok)

/-! ## Fields of an encoded struct -/

section Fields

variable {size n : Nat} {c : Config} {r : List Byte}

theorem length_encodeConfig (size : Nat) (c : Config) (r : List Byte) :
    (encodeConfig size c r).length = 48 + r.length := by
  simp only [encodeConfig, List.length_append, length_bytesOf]
  omega

theorem flagsOf_lt (c : Config) : flagsOf c < 8 := by
  unfold flagsOf
  split <;> split <;> split <;> decide

theorem flagsOf_testBit (c : Config) : (flagsOf c).testBit 0 = c.integrity ∧
    (flagsOf c).testBit 1 = c.guard ∧ (flagsOf c).testBit 2 = c.snapshot := by
  unfold flagsOf
  cases c.integrity <;> cases c.guard <;> cases c.snapshot <;> decide

theorem field_size : field (encodeConfig size c r) 0 8 = size % 256 ^ 8 := field_bytesOf ..

/-- Skipping what is encoded in front of a field. -/
theorem field_skip {k v off j : Nat} {rest : List Byte} (h : k ≤ off) :
    field (bytesOf k v ++ rest) off j = field rest (off - k) j := by
  rw [field_append_right (by rwa [length_bytesOf]), length_bytesOf]

theorem field_version : field (encodeConfig size c r) 8 4 = 1 := by
  rw [encodeConfig, field_skip (by decide)]
  exact field_bytesOf ..

theorem field_flags : field (encodeConfig size c r) 12 4 = flagsOf c := by
  rw [encodeConfig, field_skip (by decide), field_skip (by decide)]
  refine (field_bytesOf ..).trans (Nat.mod_eq_of_lt ?_)
  exact (flagsOf_lt c).trans (by decide)

theorem field_bytes : field (encodeConfig size c r) 16 8 = c.stackIntegrityBytes % 256 ^ 8 := by
  rw [encodeConfig, field_skip (by decide), field_skip (by decide), field_skip (by decide)]
  exact field_bytesOf ..

theorem field_mode : field (encodeConfig size c r) 24 4 =
    (c.stackGuardMode % 2 ^ 32).toNat % 256 ^ 4 := by
  rw [encodeConfig, field_skip (by decide), field_skip (by decide), field_skip (by decide),
    field_skip (by decide)]
  exact field_bytesOf ..

theorem field_policy : field (encodeConfig size c r) 28 4 =
    (c.stackIntegrityFailPolicy % 2 ^ 32).toNat % 256 ^ 4 := by
  rw [encodeConfig, field_skip (by decide), field_skip (by decide), field_skip (by decide),
    field_skip (by decide), field_skip (by decide)]
  exact field_bytesOf ..

theorem field_limit : field (encodeConfig size c r) 32 8 = c.stackGuardLimit % 256 ^ 8 := by
  rw [encodeConfig, field_skip (by decide), field_skip (by decide), field_skip (by decide),
    field_skip (by decide), field_skip (by decide), field_skip (by decide)]
  exact field_bytesOf ..

theorem field_max : field (encodeConfig size c r) 40 8 = c.maxStackSize % 256 ^ 8 := by
  rw [encodeConfig, field_skip (by decide), field_skip (by decide), field_skip (by decide),
    field_skip (by decide), field_skip (by decide), field_skip (by decide), field_skip (by decide)]
  exact field_bytesOf ..

end Fields

/-! ## The canonical form -/

section Canonical

variable {c c₀ : Config}

/-- `c` is the canonical form of `c₀`. The stack is watched if that is asked
for with a backend and some bytes, and by the backends that are asked for. -/
structure Canonical (c₀ c : Config) : Prop where
  integrity : c.integrity = true ↔
    c₀.integrity = true ∧ (c₀.guard = true ∨ c₀.snapshot = true) ∧ c₀.stackIntegrityBytes ≠ 0
  guard : c.guard = true ↔ c₀.guard = true ∧ c.integrity = true
  snapshot : c.snapshot = true ↔ c₀.snapshot = true ∧ c.integrity = true
  bytes : c.stackIntegrityBytes = if c.integrity then c₀.stackIntegrityBytes else 0
  mode : c.stackGuardMode = if c.guard then
    (if c₀.stackGuardMode ≠ 1 ∧ c₀.stackGuardMode ≠ 2 then 2 else c₀.stackGuardMode) else 0
  policy : c.stackIntegrityFailPolicy = if c₀.stackIntegrityFailPolicy ≠ 0 ∧
    c₀.stackIntegrityFailPolicy ≠ 1 ∧ c₀.stackIntegrityFailPolicy ≠ 2 then 0
    else c₀.stackIntegrityFailPolicy
  limit : c.stackGuardLimit = if c.integrity then c₀.stackGuardLimit else 0
  max : c.maxStackSize = c₀.maxStackSize

theorem canonicalize_canonical (c₀ : Config) : Canonical c₀ (configCanonicalize c₀) := by
  refine ⟨?_, ?_, ?_, rfl, rfl, rfl, rfl, rfl⟩ <;>
  · unfold configCanonicalize
    cases c₀.integrity <;> cases c₀.guard <;> cases c₀.snapshot <;>
      by_cases h : c₀.stackIntegrityBytes = 0 <;> simp [h]

theorem Canonical.backend (h : Canonical c₀ c) (hi : c.integrity = true) :
    c.guard = true ∨ c.snapshot = true :=
  (h.integrity.mp hi).2.1.imp (fun hg => h.guard.mpr ⟨hg, hi⟩) fun hs => h.snapshot.mpr ⟨hs, hi⟩

theorem Canonical.watched (h : Canonical c₀ c) (hi : c.integrity = true) :
    c.stackIntegrityBytes ≠ 0 := by
  rw [h.bytes, if_pos hi]
  exact (h.integrity.mp hi).2.2

/-- With the stack not watched there is no backend. -/
theorem Canonical.off (h : Canonical c₀ c) (hi : c.integrity = false) :
    c.guard = false ∧ c.snapshot = false := by
  refine ⟨Bool.eq_false_iff.mpr fun hg => ?_, Bool.eq_false_iff.mpr fun hs => ?_⟩
  · exact Bool.eq_false_iff.mp hi (h.guard.mp hg).2
  · exact Bool.eq_false_iff.mp hi (h.snapshot.mp hs).2

/-- What is filled in again behind a canonical prefix has the same canonical
form: only the mode may have been lost, if none was passed. -/
theorem canonicalize_refill {c₂ : Config} (h : Canonical c₀ c) (hi : c₂.integrity = c.integrity)
    (hg : c₂.guard = c.guard) (hs : c₂.snapshot = c.snapshot)
    (hb : c₂.stackIntegrityBytes = c.stackIntegrityBytes)
    (hmode : c₂.stackGuardMode = c.stackGuardMode ∨
      c₂.stackGuardMode = 0 ∧ c₀.stackGuardMode = 0)
    (hp : c₂.stackIntegrityFailPolicy = c.stackIntegrityFailPolicy)
    (hl : c₂.stackGuardLimit = c.stackGuardLimit) (hm : c₂.maxStackSize = c.maxStackSize) :
    configCanonicalize c₂ = c := by
  have hpolicy : (if c₂.stackIntegrityFailPolicy ≠ 0 ∧ c₂.stackIntegrityFailPolicy ≠ 1 ∧
      c₂.stackIntegrityFailPolicy ≠ 2 then 0 else c₂.stackIntegrityFailPolicy) =
      c.stackIntegrityFailPolicy := by
    have hpol := h.policy
    split at hpol <;> split <;> omega
  have hmodes : (if c.guard then
      (if c₂.stackGuardMode ≠ 1 ∧ c₂.stackGuardMode ≠ 2 then 2 else c₂.stackGuardMode) else 0) =
      c.stackGuardMode := by
    have hmod := h.mode
    cases hcg : c.guard with
    | false =>
        rw [hcg] at hmod
        exact hmod.symm
    | true =>
        rw [hcg] at hmod
        simp only [if_true] at hmod ⊢
        rcases hmode with heq | ⟨heq, hzero⟩
        · rw [heq]
          split at hmod <;> split <;> omega
        · rw [heq, hmod, hzero]
  cases hci : c.integrity with
  | false =>
      obtain ⟨hcg, hcs⟩ := h.off hci
      have hbytes := h.bytes
      have hlimit := h.limit
      rw [hci] at hbytes hlimit hi
      rw [hcg] at hmodes
      obtain ⟨i, g, sn, b, mo, po, li, ma⟩ := c
      simp only at hci hcg hcs hbytes hlimit hmodes hpolicy hm
      simp only [configCanonicalize, hi, hpolicy, hm]
      simp_all
  | true =>
      have hwatched := h.watched hci
      have hbackend := h.backend hci
      obtain ⟨i, g, sn, b, mo, po, li, ma⟩ := c
      simp only at hci hi hg hs hb hl hm hwatched hbackend hmodes hpolicy
      simp only [configCanonicalize, hi, hg, hs, hb, hl, hm, hci, hpolicy]
      simp_all

end Canonical

/-! ## Filling in -/

section Fill

variable {size n off k : Nat} {as bs : List Byte} {c c₀ : Config}

/-- The first `n` bytes of `as`, and the defaults behind them. -/
def fill (n : Nat) (as : List Byte) (size maxStackSize : Nat) : List Byte :=
  as.take n ++ (encodeConfig size { maxStackSize := maxStackSize } noReserved).drop n

variable {maxStackSize : Nat}

/-- A field whose default is 0 is cut where the prefix ends. -/
theorem field_fill (has : n ≤ as.length)
    (hzero : field (encodeConfig size { maxStackSize := maxStackSize } noReserved) off k = 0) :
    field (fill n as size maxStackSize) off k = field as off k % 256 ^ min k (n - off) := by
  rw [fill, field_splice has, hzero, mix_zero]

theorem field_fill_max (has : n ≤ as.length) :
    field (fill n as size maxStackSize) 40 8 =
      mix (min 8 (n - 40)) (field as 40 8) (maxStackSize % 256 ^ 8) := by
  rw [fill, field_splice has, field_max]

/-- The fields of a filled struct that default to 0. -/
structure Filled (n : Nat) (as l : List Byte) : Prop where
  flags : field l 12 4 = field as 12 4 % 256 ^ min 4 (n - 12)
  bytes : field l 16 8 = field as 16 8 % 256 ^ min 8 (n - 16)
  mode : field l 24 4 = field as 24 4 % 256 ^ min 4 (n - 24)
  policy : field l 28 4 = field as 28 4 % 256 ^ min 4 (n - 28)
  limit : field l 32 8 = field as 32 8 % 256 ^ min 8 (n - 32)

theorem filled (has : n ≤ as.length) : Filled n as (fill n as size maxStackSize) :=
  ⟨field_fill has field_flags, field_fill has field_bytes, field_fill has field_mode,
    field_fill has field_policy, field_fill has field_limit⟩

/-- A cut word that is kept or cleared can be cut again. -/
theorem cut_again {j v w : Nat} (hj : j ≤ k) (hw : w = v % 256 ^ j ∨ w = 0) :
    w % 256 ^ k % 256 ^ j = w := by
  have hlt : w < 256 ^ j := by
    rcases hw with rfl | rfl
    · exact Nat.mod_lt _ (Nat.pow_pos (by decide))
    · exact Nat.pow_pos (by decide)
  have hle : 256 ^ j ≤ 256 ^ k := Nat.pow_le_pow_right (by decide) hj
  rw [Nat.mod_eq_of_lt (hlt.trans_le hle), Nat.mod_eq_of_lt hlt]

/-- A small word survives any cut that leaves a byte of it. -/
theorem cut_small {j w : Nat} (hw : w < 256) (hj : 0 < j) : w % 256 ^ j = w :=
  Nat.mod_eq_of_lt (hw.trans_le (by
    calc 256 = 256 ^ 1 := rfl
      _ ≤ 256 ^ j := Nat.pow_le_pow_right (by decide) hj))

theorem intOf_small {w : Nat} (hw : w < 256) : intOf w = w :=
  Int.bmod_eq_of_le (by omega) (by omega)

/-- An enumerator is read back where a byte of it is left. -/
theorem intOf_enum {j : Nat} {x : Int} (hlo : 0 ≤ x) (hhi : x ≤ 2) (hj : 0 < j) :
    intOf ((x % 2 ^ 32).toNat % 256 ^ 4 % 256 ^ j) = x := by
  have hmod : x % 2 ^ 32 = x := Int.emod_eq_of_lt hlo (by omega)
  rw [hmod, cut_small (j := 4) (by omega) (by decide), cut_small (by omega) hj,
    intOf_small (by omega), Int.toNat_of_nonneg hlo]

theorem Canonical.enums (h : Canonical c₀ c) : (0 ≤ c.stackGuardMode ∧ c.stackGuardMode ≤ 2) ∧
    0 ≤ c.stackIntegrityFailPolicy ∧ c.stackIntegrityFailPolicy ≤ 2 := by
  have hmode := h.mode
  have hpolicy := h.policy
  constructor
  · split at hmode
    · split at hmode <;> omega
    · omega
  · split at hpolicy <;> omega

/-- Without a flag in the request there is none in its canonical form. -/
theorem Canonical.flagsOf_zero (h : Canonical c₀ c) (hi : c₀.integrity = false) :
    flagsOf c = 0 := by
  have hci : c.integrity = false := Bool.eq_false_iff.mpr fun hci => by
    rw [(h.integrity.mp hci).1] at hi
    cases hi
  obtain ⟨hcg, hcs⟩ := h.off hci
  simp [flagsOf, hci, hcg, hcs]

/-- The canonical form of a completed request, completed again. -/
theorem canonicalize_fill {r l₀ : List Byte} (hfilled : Filled n as l₀)
    (hc : c = configCanonicalize (decodeConfig l₀)) (hn : n ≤ 48 + r.length) :
    configCanonicalize (decodeConfig (fill n (encodeConfig size c r) size c.maxStackSize)) = c := by
  have h : Canonical (decodeConfig l₀) c := hc ▸ canonicalize_canonical _
  have has : n ≤ (encodeConfig size c r).length := by rwa [length_encodeConfig]
  have G : Filled n _ (fill n (encodeConfig size c r) size c.maxStackSize) := filled has
  have hflags : field (fill n (encodeConfig size c r) size c.maxStackSize) 12 4 = flagsOf c := by
    rw [G.flags, field_flags]
    by_cases hj : min 4 (n - 12) = 0
    · have hnone : field l₀ 12 4 = 0 := by
        rw [hfilled.flags, hj, Nat.pow_zero, Nat.mod_one]
      have hzero : flagsOf c = 0 := h.flagsOf_zero (by simp [decodeConfig, hnone])
      rw [hzero, Nat.zero_mod]
    · exact cut_small ((flagsOf_lt c).trans (by decide)) (Nat.pos_of_ne_zero hj)
  obtain ⟨hbit₀, hbit₁, hbit₂⟩ := flagsOf_testBit c
  rw [← hflags] at hbit₀ hbit₁ hbit₂
  obtain ⟨⟨hmlo, hmhi⟩, hplo, hphi⟩ := h.enums
  apply canonicalize_refill h hbit₀ hbit₁ hbit₂
  · show field _ 16 8 = _
    rw [G.bytes, field_bytes]
    refine cut_again (v := field as 16 8) (Nat.min_le_left _ _) ?_
    rw [h.bytes]
    split
    · exact .inl hfilled.bytes
    · exact .inr rfl
  · rw [decodeConfig_mode, decodeConfig_mode, G.mode, field_mode, hfilled.mode]
    by_cases hj : min 4 (n - 24) = 0
    · rw [hj, Nat.pow_zero, Nat.mod_one, Nat.mod_one]
      exact .inr ⟨rfl, rfl⟩
    · exact .inl (intOf_enum hmlo hmhi (Nat.pos_of_ne_zero hj))
  · rw [decodeConfig_policy, G.policy, field_policy]
    by_cases hj : min 4 (n - 28) = 0
    · have hnone : (decodeConfig l₀).stackIntegrityFailPolicy = 0 := by
        rw [decodeConfig_policy, hfilled.policy, hj, Nat.pow_zero, Nat.mod_one]
        rfl
      rw [hj, Nat.pow_zero, Nat.mod_one, h.policy, hnone]
      rfl
    · exact intOf_enum hplo hphi (Nat.pos_of_ne_zero hj)
  · show field _ 32 8 = _
    rw [G.limit, field_limit]
    refine cut_again (v := field as 32 8) (Nat.min_le_left _ _) ?_
    rw [h.limit]
    split
    · exact .inl hfilled.limit
    · exact .inr rfl
  · show field _ 40 8 = _
    rw [field_fill_max has, field_max, mix_self, h.max]
    exact Nat.mod_eq_of_lt (field_lt _ _ _)

/-- The struct up to `reserved`, and `reserved`. -/
theorem encodeConfig_split (size : Nat) (c : Config) (r : List Byte) :
    encodeConfig size c r = encodeConfig size c [] ++ r := by
  simp only [encodeConfig, List.append_assoc, List.append_nil]

theorem take_encodeConfig {r r' : List Byte} (hr : r.take (n - 48) = r'.take (n - 48)) :
    (encodeConfig size c r).take n = (encodeConfig size c r').take n := by
  have hlen : (encodeConfig size c []).length = 48 := length_encodeConfig size c []
  rw [encodeConfig_split, encodeConfig_split size c r', List.take_append,
    List.take_append, hlen, hr]

/-- The bytes of a struct that do not depend on `reserved`. -/
theorem writeSlice_encodeConfig {m : Memory} {a i : Nat} {r : List Byte} (hi : i < n)
    (hfront : i < 48) : writeSlice m a ((encodeConfig size c r).take n) (a + i) =
      ((encodeConfig size c [])[i]?).getD 0 := by
  have hlen : (encodeConfig size c []).length = 48 := length_encodeConfig size c []
  have hget : ((encodeConfig size c r).take n)[i]? = (encodeConfig size c [])[i]? := by
    rw [List.getElem?_take_of_lt hi, encodeConfig_split, List.getElem?_append_left (by omega)]
  have hsome : (encodeConfig size c [])[i]? = some (encodeConfig size c [])[i] :=
    List.getElem?_eq_getElem (by omega)
  rw [writeSlice, if_pos (Nat.le_add_right _ _), Nat.add_sub_cancel_left, hget, hsome]
  rfl

/-- Writing back what was filled in writes the same prefix. -/
theorem take_encodeConfig_fill {r : List Byte} (hn : n ≤ 48 + r.length) :
    (encodeConfig size c ((fill n (encodeConfig size c r) size maxStackSize).drop 48)).take n =
      (encodeConfig size c r).take n := by
  have hlen : (encodeConfig size c []).length = 48 := length_encodeConfig size c []
  have hdrop : (encodeConfig size c r).drop 48 = r := by
    rw [encodeConfig_split]
    exact List.drop_left' hlen
  apply take_encodeConfig
  by_cases h : n ≤ 48
  · rw [Nat.sub_eq_zero_of_le h, List.take_zero, List.take_zero]
  · have htake : ((encodeConfig size c r).take n).length = n := by
      rw [List.length_take, length_encodeConfig, Nat.min_eq_left hn]
    rw [fill, List.drop_append_of_le_length (by omega), List.drop_take, hdrop,
      List.take_append_of_le_length (by rw [List.length_take]; omega), List.take_take, Nat.min_self]

end Fill

/-! ## The calls -/

section Calls

variable {s s' : State} {p : Ptr}

theorem copySize_congr {m m' : Memory} {q : Ptr} (h : readWord m' q 8 = readWord m p 8) :
    copySize m' q = copySize m p := by
  rw [copySize, h, copySize]

theorem completed_eq (s : State) (p : Ptr) : completed s p =
    fill (copySize s.mem p) (readSlice s.mem p configSize) (readWord s.mem p 8)
      s.env.cfg.maxStackSize := by
  have hle : copySize s.mem p ≤ configSize := Nat.min_le_right _ _
  rw [completed, fill, take_readSlice s.mem p hle]

/-- The snapshot workspace is large enough for `c`, or can be allocated. -/
def State.HasRoom (s : State) (c : Config) : Prop :=
  snapshotRequiredCapacity s.env.pageSize c ≤ s.env.data.snapshotCapacity ∨
    s.heap.malloc.1 = true

/-- A request is set together with the space it needs, or refused as a whole. -/
theorem configureSet_cases (s : State) (request : Config) :
    (s.HasRoom (configCanonicalize request) ∧ (configureSet s request).2 = .ok ∧
      (configureSet s request).1.mem = s.mem ∧
      (configureSet s request).1.env.cfg = configCanonicalize request ∧
      snapshotRequiredCapacity (configureSet s request).1.env.pageSize
        (configCanonicalize request) ≤ (configureSet s request).1.env.data.snapshotCapacity) ∨
    (¬ s.HasRoom (configCanonicalize request) ∧ (configureSet s request).2 = .err .mem ∧
      (configureSet s request).1.mem = s.mem ∧ (configureSet s request).1.env = s.env) := by
  by_cases hroom : snapshotRequiredCapacity s.env.pageSize (configCanonicalize request) = 0 ∨
      snapshotRequiredCapacity s.env.pageSize (configCanonicalize request) ≤
        s.env.data.snapshotCapacity
  · have hle : snapshotRequiredCapacity s.env.pageSize (configCanonicalize request) ≤
        s.env.data.snapshotCapacity := by omega
    refine .inl ⟨.inl hle, ?_⟩
    simp only [configureSet, snapshotEnsureCapacity, if_pos hroom, true_and]
    exact hle
  · cases hal : s.heap.malloc.1 with
    | true =>
        refine .inl ⟨.inr hal, ?_⟩
        simp only [configureSet, snapshotEnsureCapacity, if_neg hroom, hal, if_true, true_and]
        exact Nat.le_refl _
    | false =>
        right
        refine ⟨?_, ?_⟩
        · rintro (h | h)
          · exact hroom (.inr h)
          · cases hal.symm.trans h
        · simp only [configureSet, snapshotEnsureCapacity, if_neg hroom, hal,
            Bool.false_eq_true, if_false, and_self]

/-- A request for what is in force changes nothing. -/
theorem configureSet_again {request : Config} (hcfg : configCanonicalize request = s.env.cfg)
    (hroom : snapshotRequiredCapacity s.env.pageSize s.env.cfg ≤ s.env.data.snapshotCapacity) :
    configureSet s request = (s, .ok) := by
  simp only [configureSet, hcfg, snapshotEnsureCapacity, if_pos (Or.inr hroom)]

theorem canonicalize_idem (c : Config) :
    configCanonicalize (configCanonicalize c) = configCanonicalize c :=
  canonicalize_refill (canonicalize_canonical c) rfl rfl rfl rfl (.inl rfl) rfl rfl rfl

/-- A struct of version 1 that holds its header. -/
structure WellFormed (m : Memory) (p : Ptr) : Prop where
  nonnull : p ≠ null
  header : configHeader ≤ readWord m p 8
  version : readWord m (p + 8) 4 = 1

/-- What a successful call leaves. -/
structure SetAt (s : State) (p : Ptr) (s' : State) : Prop where
  wellFormed : WellFormed s.mem p
  cfg : s'.env.cfg = configCanonicalize (decodeConfig (completed s p))
  mem : s'.mem = writeSlice s.mem p ((encodeConfig (readWord s.mem p 8) s'.env.cfg
    ((completed s p).drop 48)).take (copySize s.mem p))
  room : snapshotRequiredCapacity s'.env.pageSize s'.env.cfg ≤ s'.env.data.snapshotCapacity

theorem configHasHeader_iff {m : Memory} :
    configHasHeader m p = true ↔ p ≠ null ∧ configHeader ≤ readWord m p 8 := by
  simp [configHasHeader]

theorem configureSetAt_malformed (h : ¬ WellFormed s.mem p) :
    configureSetAt s p = (s, .err .inval) := by
  unfold configureSetAt
  by_cases hheader : configHasHeader s.mem p = false
  · rw [if_pos hheader]
  rw [if_neg hheader]
  obtain ⟨hnull, hsize⟩ := configHasHeader_iff.mp (Bool.not_eq_false _ ▸ hheader)
  rw [if_pos fun hversion => h ⟨hnull, hsize, hversion⟩]

theorem configureSetAt_cases (hreq : WellFormed s.mem p) :
    (s.HasRoom (configCanonicalize (decodeConfig (completed s p))) ∧
      ∃ s', configureSetAt s p = (s', .ok) ∧ SetAt s p s') ∨
    (¬ s.HasRoom (configCanonicalize (decodeConfig (completed s p))) ∧
      ∃ s', configureSetAt s p = (s', .err .mem) ∧ s'.env = s.env ∧ s'.mem = s.mem) := by
  have hhead : configHasHeader s.mem p = true :=
    configHasHeader_iff.mpr ⟨hreq.nonnull, hreq.header⟩
  rw [configureSetAt, hhead, if_neg (by decide), if_neg (not_not.mpr hreq.version)]
  dsimp only
  rcases configureSet_cases s (decodeConfig (completed s p)) with
    ⟨hroom, hok, hmem, hcfg, hcap⟩ | ⟨hno, herr, hmem, henv⟩
  · rcases hset : configureSet s (decodeConfig (completed s p)) with ⟨s₁, rc⟩
    rw [hset] at hok hmem hcfg hcap
    obtain rfl : rc = .ok := hok
    refine .inl ⟨hroom, _, rfl, hreq, hcfg, ?_, hcfg ▸ hcap⟩
    dsimp only
    rw [hmem, hcfg]
  · rcases hset : configureSet s (decodeConfig (completed s p)) with ⟨s₁, rc⟩
    rw [hset] at herr hmem henv
    obtain rfl : rc = .err .mem := herr
    exact .inr ⟨hno, _, rfl, henv, hmem⟩

theorem length_completed (s : State) (p : Ptr) : (completed s p).length = configSize := by
  have hle : copySize s.mem p ≤ configSize := Nat.min_le_right _ _
  simp only [completed_eq, fill, List.length_append, List.length_take, List.length_drop,
    readSlice_length, length_encodeConfig, noReserved, List.length_replicate]
  simp only [configSize] at hle ⊢
  omega

theorem length_reserved (s : State) (p : Ptr) : ((completed s p).drop 48).length = 8 := by
  rw [List.length_drop, length_completed]
  rfl

namespace SetAt

variable (S : SetAt s p s')
include S

theorem copy_le : configHeader ≤ copySize s.mem p ∧ copySize s.mem p ≤ configSize :=
  ⟨Nat.le_min.mpr ⟨S.wellFormed.header, by decide⟩, Nat.min_le_right _ _⟩

/-- The struct as it is written back. -/
theorem image : readSlice s'.mem p (copySize s.mem p) =
    (encodeConfig (readWord s.mem p 8) s'.env.cfg ((completed s p).drop 48)).take
      (copySize s.mem p) := by
  have hle : copySize s.mem p ≤ 48 + 8 := S.copy_le.2
  have hread := readSlice_writeSlice s.mem p ((encodeConfig (readWord s.mem p 8) s'.env.cfg
    ((completed s p).drop 48)).take (copySize s.mem p))
  rw [List.length_take, length_encodeConfig, length_reserved, Nat.min_eq_left hle] at hread
  rw [S.mem, hread]

theorem outside {x : Nat} (hx : x < p ∨ p + copySize s.mem p ≤ x) : s'.mem x = s.mem x := by
  rw [S.mem]
  rcases hx with hx | hx
  · exact writeSlice_lt hx
  · refine writeSlice_ge (le_trans ?_ hx)
    rw [List.length_take]
    exact Nat.add_le_add_left (Nat.min_le_left _ _) _

/-- A struct with the prefix that was written back has the same header. -/
theorem again_header {q : Ptr}
    (hq : readSlice s'.mem q (copySize s.mem p) = readSlice s'.mem p (copySize s.mem p)) :
    readWord s'.mem q 8 = readWord s.mem p 8 ∧ readWord s'.mem (q + 8) 4 = 1 := by
  obtain ⟨hlo, hhi⟩ := S.copy_le
  simp only [configHeader, configSize] at hlo hhi
  rw [S.image] at hq
  have hfield : ∀ off k, off + k ≤ 12 → readWord s'.mem (q + off) k =
      field (encodeConfig (readWord s.mem p 8) s'.env.cfg ((completed s p).drop 48)) off k := by
    intro off k hk
    rw [readWord_eq_field s'.mem q (n := copySize s.mem p) (by omega), hq, field, field,
      List.drop_take, List.take_take, Nat.min_eq_left (by omega)]
  constructor
  · rw [← Nat.add_zero q, hfield 0 8 (by decide), field_size]
    exact Nat.mod_eq_of_lt (readWord_lt _ _ _)
  · rw [hfield 8 4 (by decide), field_version]

/-- Setting what was written back succeeds and changes nothing. -/
theorem again {q : Ptr} (hnull : q ≠ null)
    (hq : readSlice s'.mem q (copySize s.mem p) = readSlice s'.mem p (copySize s.mem p)) :
    configureSetAt s' q = (s', .ok) := by
  obtain ⟨hsize, hversion⟩ := S.again_header hq
  have hcopy := copySize_congr hsize
  have hle := S.copy_le.2
  have hhead : configHasHeader s'.mem q = true :=
    configHasHeader_iff.mpr ⟨hnull, S.wellFormed.header.trans_eq hsize.symm⟩
  have hn : copySize s.mem p ≤ 48 + ((completed s p).drop 48).length := by
    rwa [length_reserved]
  have hcompleted : completed s' q = fill (copySize s.mem p)
      (encodeConfig (readWord s.mem p 8) s'.env.cfg ((completed s p).drop 48))
      (readWord s.mem p 8) s'.env.cfg.maxStackSize := by
    rw [completed, hcopy, hq, S.image, hsize, fill]
  have hfilled : Filled (copySize s.mem p) (readSlice s.mem p configSize) (completed s p) := by
    rw [completed_eq]
    exact filled (by rwa [readSlice_length])
  have hcanon : configCanonicalize (decodeConfig (completed s' q)) = s'.env.cfg := by
    rw [hcompleted]
    exact canonicalize_fill hfilled S.cfg hn
  have hsame : writeSlice s'.mem q ((encodeConfig (readWord s'.mem q 8) s'.env.cfg
      ((completed s' q).drop 48)).take (copySize s'.mem q)) = s'.mem := by
    rw [hcopy, hsize, hcompleted, take_encodeConfig_fill hn, ← S.image, ← hq]
    exact writeSlice_readSlice _ _ _
  rw [configureSetAt, hhead, if_neg (by decide), if_neg (not_not.mpr hversion)]
  dsimp only
  rw [configureSet_again hcanon S.room]
  dsimp only
  rw [hcanon, hsame]

/-- Getting the configuration into a struct of the same size. -/
theorem get {q : Ptr} (hnull : q ≠ null) (hsize : readWord s'.mem q 8 = readWord s.mem p 8) :
    ∃ m, configureGetAt s' q = ({ s' with mem := m }, .ok) ∧
      (∀ i < copySize s.mem p, i < 48 → m (q + i) = s'.mem (p + i)) ∧
      ∀ x, x < q ∨ q + copySize s.mem p ≤ x → m x = s'.mem x := by
  have hcopy := copySize_congr hsize
  have hhead : configHasHeader s'.mem q = true :=
    configHasHeader_iff.mpr ⟨hnull, S.wellFormed.header.trans_eq hsize.symm⟩
  have hcanon : configCanonicalize s'.env.cfg = s'.env.cfg := by
    rw [S.cfg]
    exact canonicalize_idem _
  rw [configureGetAt, hhead, if_neg (by decide), hcopy, hsize, hcanon]
  refine ⟨_, rfl, fun i hi hfront => ?_, fun x hx => ?_⟩
  · rw [writeSlice_encodeConfig hi hfront, S.mem, writeSlice_encodeConfig hi hfront]
  · rcases hx with hx | hx
    · exact writeSlice_lt hx
    · refine writeSlice_ge (le_trans ?_ hx)
      rw [List.length_take]
      exact Nat.add_le_add_left (Nat.min_le_left _ _) _

end SetAt

/-- `l` is the request at `p`: the caller's struct as far as it goes, which may
be up to the middle of a field, and the defaults behind. -/
structure Requested (s : State) (p : Ptr) (l : List Byte) : Prop where
  length : l.length = configSize
  caller : ∀ i < copySize s.mem p, l[i]? = some (s.mem (p + i))
  defaults : ∀ i, copySize s.mem p ≤ i → l[i]? = (encodeConfig (readWord s.mem p 8)
    { maxStackSize := s.env.cfg.maxStackSize } noReserved)[i]?

theorem completed_requested (s : State) (p : Ptr) : Requested s p (completed s p) := by
  have hlen : (readSlice s.mem p (copySize s.mem p)).length = copySize s.mem p :=
    readSlice_length ..
  refine ⟨length_completed s p, fun i hi => ?_, fun i hi => ?_⟩
  · rw [completed, List.getElem?_append_left (hlen.symm ▸ hi)]
    simp [readSlice, hi]
  · rw [completed, List.getElem?_append_right (hlen.symm ▸ hi), hlen, List.getElem?_drop,
      Nat.add_sub_cancel' hi]

/-- The request `l` at `p` was set, and `c` is its canonical form: no other
memory is written, getting the configuration into a struct of the same size
returns the same prefix up to `reserved`, and setting the prefix again
changes nothing. -/
structure Applied (s : State) (p : Ptr) (l : List Byte) (c : Config) (s' : State) : Prop where
  cfg : s'.env.cfg = c
  image : readSlice s'.mem p (copySize s.mem p) =
    (encodeConfig (readWord s.mem p 8) c (l.drop 48)).take (copySize s.mem p)
  outside : ∀ x, x < p ∨ p + copySize s.mem p ≤ x → s'.mem x = s.mem x
  get : ∀ q, q ≠ null → readWord s'.mem q 8 = readWord s.mem p 8 →
    ∃ m, configureGetAt s' q = ({ s' with mem := m }, .ok) ∧
      (∀ i < copySize s.mem p, i < 48 → m (q + i) = s'.mem (p + i)) ∧
      ∀ x, x < q ∨ q + copySize s.mem p ≤ x → m x = s'.mem x
  again : ∀ q, q ≠ null →
    readSlice s'.mem q (copySize s.mem p) = readSlice s'.mem p (copySize s.mem p) →
    configureSetAt s' q = (s', .ok)

theorem SetAt.applied (S : SetAt s p s') : Applied s p (completed s p)
    (configCanonicalize (decodeConfig (completed s p))) s' :=
  ⟨S.cfg, S.cfg ▸ S.image, fun _ => S.outside, fun _ => S.get, fun _ => S.again⟩

/-- A well-formed request is applied in its canonical form if the snapshot
workspace has room for it or can be allocated, and otherwise fails with
`TEALET_ERR_MEM` and changes nothing; any other request is refused. -/
theorem configure_round_trip (s : State) (p : Ptr) :
    (WellFormed s.mem p → ∃ l c, Requested s p l ∧ Canonical (decodeConfig l) c ∧
      ((s.HasRoom c ∧ ∃ s', configureSetAt s p = (s', .ok) ∧ Applied s p l c s') ∨
        (¬ s.HasRoom c ∧
          ∃ s', configureSetAt s p = (s', .err .mem) ∧ s'.env = s.env ∧ s'.mem = s.mem))) ∧
    (¬ WellFormed s.mem p → configureSetAt s p = (s, .err .inval)) := by
  refine ⟨fun hreq => ?_, configureSetAt_malformed⟩
  refine ⟨completed s p, _, completed_requested s p, canonicalize_canonical _, ?_⟩
  refine (configureSetAt_cases hreq).imp_left ?_
  rintro ⟨hroom, s', hset, S⟩
  exact ⟨hroom, s', hset, S.applied⟩

/-- A struct that ends after two bytes of `stack_integrity_bytes`. -/
theorem configure_round_trip_cut : ∃ s p l c s', WellFormed s.mem p ∧ copySize s.mem p = 18 ∧
    configureSetAt s p = (s', .ok) ∧ s'.env.cfg =
      { integrity := true, snapshot := true, stackIntegrityBytes := 0x1234 } ∧
    Requested s p l ∧ Canonical (decodeConfig l) c ∧ Applied s p l c s' := by
  let m : Memory := writeSlice (fun _ => 255) 96
    (bytesOf 8 18 ++ bytesOf 4 1 ++ bytesOf 4 5 ++ [0x34, 0x12])
  let s := initial m {}
  have hreq : WellFormed s.mem 96 :=
    ⟨by decide, by decide +kernel, by decide +kernel⟩
  have hcode : (configureSetAt s 96).2 = .ok := by decide +kernel
  have hcfg : (configureSetAt s 96).1.env.cfg =
      { integrity := true, snapshot := true, stackIntegrityBytes := 0x1234 } := by
    decide +kernel
  obtain ⟨l, c, hl, hc, ⟨-, s', hset, happlied⟩ | ⟨-, s', hset, -⟩⟩ :=
    (configure_round_trip s 96).1 hreq
  · rw [hset] at hcfg
    exact ⟨s, 96, l, c, s', hreq, by decide +kernel, hset, hcfg, hl, hc, happlied⟩
  · rw [hset] at hcode
    cases hcode

end Calls

end Tealet
