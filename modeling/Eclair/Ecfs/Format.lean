import Mathlib.Algebra.BigOperators.Group.Finset.Basic
import Mathlib.Data.List.GetD
import Eclair.Lib.Loop
import Eclair.Ecfs.Accounts

/-!
# Eclair.Ecfs.Format

`genfs` of `tools/mkecfs.c`: the volume that it writes, and what `load_fs`
of `tools/mntecfs.c` makes of it.

`genfs` deals the reserved blocks out to the entries of the top-level map,
but at most `blksz / 4` to each, the number of entries of a block, where an
area has `8 * blksz` blocks.  The map is right only while the reserved blocks
fit in the first entry (`formatted_iff`).

The volume is the part of the device from `fsbase` on; the master boot record
lies before it.
-/

namespace Eclair

open ByteMem Loop

/-! ## the head block -/

/-- `ECFS_ALIGN(x, sz)` on `size_t` for a power of two `sz`. -/
def ECFS_ALIGN (x sz : Nat) : Nat := u64 (x + (sz - 1)) / sz * sz

def ECFS_REVISION : Nat := 1

/-- The regions that `genfs` computes for `nblk` blocks. -/
def newGeometry (blksz nblk : Nat) : Geometry :=
  let base := if blksz = 1024 then 2 else 1
  let bblkTlrm := blksz / 4
  let blkasz := blksz * 8
  let nblkTlrm := ECFS_ALIGN (ECFS_ALIGN nblk blkasz / blkasz) bblkTlrm / bblkTlrm
  let nblkBrb := ECFS_ALIGN nblk blkasz / blkasz
  { blksz := blksz
    nblk := nblk
    blkTlrm := base
    blkBrb := base + nblkTlrm
    nblkTlrm := nblkTlrm
    nblkBrb := nblkBrb
    nblkRsvd := base + nblkTlrm + nblkBrb + 1
    blkRoot := base + nblkTlrm + nblkBrb }

/-- The head block; `osid` is the identifier of 12 bytes. -/
def newHblk (g : Geometry) (osid : Bytes) : ByteMem :=
  setWord HBLK_REVISION ECFS_REVISION (setWord HBLK_NBLK_RSVD g.nblkRsvd
    (setWord HBLK_NBLK_ALLOC g.nblkRsvd (setWord HBLK_NBLK g.nblk (setWord HBLK_BLKSZ g.blksz
      (setWord HBLK_BLK_ROOT g.blkRoot (setWord HBLK_NBLK_BRB g.nblkBrb
        (setWord HBLK_BLK_BRB g.blkBrb (setWord HBLK_NBLK_TLRM g.nblkTlrm
          (setWord HBLK_BLK_TLRM g.blkTlrm fun i => (ECFS_SIG ++ osid).getD i 0)))))))))

/-! ## the file entry -/

def ECFS_FLAG_REG : Nat := 1
def ECFS_FLAG_DIR : Nat := 2
def ECFS_FLAG_SLINK : Nat := 4

/-! The offsets of the fields of `ecfs_file_t`. -/

def FILE_FLAGS : Nat := 128
def FILE_UID : Nat := 132
def FILE_GID : Nat := 136
def FILE_MASK : Nat := 140
def FILE_ATIME_LO : Nat := 144
def FILE_ATIME_HI : Nat := 148
def FILE_MTIME_LO : Nat := 152
def FILE_MTIME_HI : Nat := 156
def FILE_CTIME_LO : Nat := 160
def FILE_CTIME_HI : Nat := 164
def FILE_FSZ : Nat := 168
def FILE_NBLK : Nat := 172

/-- The root file entry, made at time `tm`. -/
def newRoot (tm : Nat) : ByteMem :=
  let lo := u32 tm
  let hi := u32 (tm / 2 ^ 32)
  setWord FILE_NBLK 0 (setWord FILE_FSZ 0 (setWord FILE_CTIME_HI hi (setWord FILE_CTIME_LO lo
    (setWord FILE_MTIME_HI hi (setWord FILE_MTIME_LO lo (setWord FILE_ATIME_HI hi
      (setWord FILE_ATIME_LO lo (setWord FILE_MASK 0o644 (setWord FILE_FLAGS ECFS_FLAG_DIR
        fun _ => 0)))))))))

/-! ## `genfs` -/

variable (g : Geometry)

/-- `write_hblk`: the head block at the front of the buffer `blk`, and
`ECFS_HBLK_SIZE` bytes of that. -/
def writeNewHblk (hblk blk vol : ByteMem) : ByteMem :=
  write ECFS_HBLK_START ECFS_HBLK_SIZE (write 0 HBLK_SIZEOF hblk blk) vol

/-- `write_blk` of `mkecfs`. -/
def writeVolume (blk : ByteMem) (index : Nat) (vol : ByteMem) : ByteMem :=
  if index ≥ g.nblk then vol else write (g.blksz * index) g.blksz blk vol

/-- One entry of the top-level map. -/
def fillEntry (j : Nat) (s : Nat × ByteMem) : Option (Nat × ByteMem) :=
  if 4 * j + 4 ≤ g.blksz then
    if s.1 ≠ 0 then
      let k := min s.1 (g.blksz / 4)
      some (s.1 - k, setWord (4 * j) (u32 (word s.2 (4 * j) + u32 k)) s.2)
    else some s
  else none

/-- One block of the top-level map. -/
def fillTlrm (i : Nat) (s : Nat × ByteMem) : Option (Nat × ByteMem) :=
  (forLoop (fillEntry g) 0 (g.blksz / 4) (s.1, fun _ => 0)).map fun t =>
    (t.1, writeVolume g t.2 (g.blkTlrm + i) s.2)

/-- One bit of the bitmap. -/
def fillBit (i j : Nat) (blk : ByteMem) : Option ByteMem :=
  if j / 8 < g.blksz then
    if i * (g.blksz * 8) + j < g.nblkRsvd then some (orBit (j / 8) (j % 8) blk) else some blk
  else none

/-- One block of the bitmap. -/
def fillBrb (i : Nat) (vol : ByteMem) : Option ByteMem :=
  (forLoop (fillBit g i) 0 (g.blksz * 8) fun _ => 0).map fun blk =>
    writeVolume g blk (g.blkBrb + i) vol

/-- `genfs`, for a volume of `nblk` blocks that holds `vol`; `blk` is what
`malloc` gives. -/
def genfs (blksz nblk : Nat) (osid : Bytes) (tm : Nat) (blk vol : ByteMem) : Option ByteMem :=
  let g := newGeometry blksz nblk
  (forLoop (fillTlrm g) 0 g.nblkTlrm (g.nblkRsvd, writeNewHblk (newHblk g osid) blk vol)).bind fun s =>
    (forLoop (fillBrb g) 0 g.nblkBrb s.2).map fun vol =>
      writeVolume g (newRoot tm) g.blkRoot vol

variable {g} {blksz nblk b c i k x sz : Nat} {blk vol : ByteMem}

/-! ## the regions -/

theorem align_div (hs : 0 < sz) (h : x + (sz - 1) < 2 ^ 64) :
    ECFS_ALIGN x sz / sz = (x + (sz - 1)) / sz := by
  rw [ECFS_ALIGN, u64, Nat.mod_eq_of_lt h, Nat.mul_div_cancel _ hs]

theorem le_ceil (x : Nat) (hs : 0 < sz) : x ≤ sz * ((x + (sz - 1)) / sz) := by
  have hdiv := Nat.div_add_mod (x + (sz - 1)) sz
  have hmod := Nat.mod_lt (x + (sz - 1)) hs
  omega

theorem ceil_lt (x : Nat) (hs : 0 < sz) (hx : 0 < x) : sz * ((x + (sz - 1)) / sz - 1) < x := by
  have hdiv := Nat.div_add_mod (x + (sz - 1)) sz
  rw [Nat.mul_sub, Nat.mul_one]
  omega

/-- **The regions** of a volume that is large enough for them. -/
theorem newGeometry_valid (h1 : 10 ≤ k) (h2 : k ≤ 30) (hn : nblk < 2 ^ 32)
    (hroom : (newGeometry (2 ^ k) nblk).nblkRsvd ≤ nblk) : (newGeometry (2 ^ k) nblk).Valid := by
  have hge : 2 ^ 10 ≤ 2 ^ k := Nat.pow_le_pow_right (by decide) h1
  have hle : 2 ^ k ≤ 2 ^ 30 := Nat.pow_le_pow_right (by decide) h2
  have hbrb : (newGeometry (2 ^ k) nblk).nblkBrb = (nblk + (2 ^ k * 8 - 1)) / (2 ^ k * 8) :=
    align_div (by omega) (by omega)
  have hbrb_le : (newGeometry (2 ^ k) nblk).nblkBrb ≤ nblk + 2 ^ k * 8 := by
    rw [hbrb]
    exact (Nat.div_le_self _ _).trans (by omega)
  have htlrm : (newGeometry (2 ^ k) nblk).nblkTlrm =
      ((newGeometry (2 ^ k) nblk).nblkBrb + (2 ^ k / 4 - 1)) / (2 ^ k / 4) :=
    align_div (x := (newGeometry (2 ^ k) nblk).nblkBrb) (by omega) (by omega)
  have hrsvd : 0 < nblk := Nat.lt_of_lt_of_le (Nat.succ_pos _) hroom
  have hA : 0 < 2 ^ k * 8 := by omega
  have hw : 0 < 2 ^ k / 4 := by omega
  have hcov := le_ceil nblk hA
  have hex := ceil_lt nblk hA hrsvd
  have hsum := le_ceil (newGeometry (2 ^ k) nblk).nblkBrb hw
  rw [← hbrb] at hcov hex
  rw [← htlrm] at hsum
  constructor
  case pow => exact ⟨k, h1, h2, rfl⟩
  case nblk_lt => exact hn
  case head =>
    show 1024 / 2 ^ k < if 2 ^ k = 1024 then 2 else 1
    split
    · next heq => rw [heq]; decide
    · rw [Nat.div_eq_of_lt (by omega)]
      decide
  case tlrm => exact Nat.le_refl _
  case brb => exact Nat.le_refl _
  case root => exact Nat.lt_succ_self _
  case rsvd => exact hroom
  case covers =>
    show nblk ≤ 8 * 2 ^ k * _
    rw [Nat.mul_comm 8]
    exact hcov
  case exact =>
    show 8 * 2 ^ k * _ < nblk
    rw [Nat.mul_comm 8]
    exact hex
  case summarised =>
    rw [Nat.mul_comm]
    exact hsum

/-! ## the head block on the volume -/

/-- The fields of the head block are those of the geometry, and the count. -/
theorem ofHblk_newHblk (hv : g.Valid) (osid : Bytes) :
    Geometry.ofHblk (newHblk g osid) = g ∧ word (newHblk g osid) HBLK_NBLK_ALLOC = g.nblkRsvd := by
  have hlt := hv.nblk_lt
  have htl := hv.tlrm
  have hbrb := hv.brb
  have hroot := hv.root
  have hrsvd := hv.rsvd
  have hsz := hv.blksz_le
  have h1 : g.blksz < 2 ^ 32 := by omega
  have h2 : g.blkTlrm < 2 ^ 32 := by omega
  have h3 : g.blkBrb < 2 ^ 32 := by omega
  have h4 : g.nblkTlrm < 2 ^ 32 := by omega
  have h5 : g.nblkBrb < 2 ^ 32 := by omega
  have h6 : g.nblkRsvd < 2 ^ 32 := by omega
  have h7 : g.blkRoot < 2 ^ 32 := by omega
  constructor
  · rw [Geometry.ofHblk, newHblk]
    simp (disch := first | assumption | decide) only [word_setWord_of_apart, word_setWord]
  · rw [newHblk]
    simp (disch := first | assumption | decide) only [word_setWord_of_apart, word_setWord]

/-- The signature comes first. -/
theorem newHblk_sig (osid : Bytes) : (List.range 4).map (newHblk g osid) = ECFS_SIG := by
  have hbyte : ∀ i, i < 4 → newHblk g osid i = ECFS_SIG.getD i 0 := by
    intro i hi
    have h16 : ∀ f v m, 16 ≤ f → setWord f v m i = m i :=
      fun f v m hf => setWord_outside (by omega)
    rw [newHblk]
    simp (disch := decide) only [h16]
    rw [List.getD_append _ _ _ _ hi]
  show [_, _, _, _] = _
  rw [hbyte 0 (by decide), hbyte 1 (by decide), hbyte 2 (by decide), hbyte 3 (by decide)]
  rfl

/-! ## the maps on the volume -/

/-- Writing a block changes that block only. -/
theorem blocksOf_writeVolume (hb : b < g.nblk) (hi : i < g.blksz) :
    blocksOf g.blksz (writeVolume g blk b vol) c i =
      if c = b then blk i else blocksOf g.blksz vol c i := by
  rw [blocksOf, writeVolume, if_neg (by omega), Nat.mul_comm g.blksz b]
  by_cases hcb : c = b
  · rw [if_pos hcb, hcb, write_inside hi]
  · rw [if_neg hcb]
    refine write_outside fun hin => hcb ?_
    have hdiv : (c * g.blksz + i) / g.blksz = b := by
      rw [Nat.div_eq_iff (by omega)]
      omega
    rw [← hdiv, Nat.mul_comm, Nat.mul_add_div (by omega), Nat.div_eq_of_lt hi, Nat.add_zero]

/-- The entries of one block share out the count. -/
theorem fillEntries (hc : c < 2 ^ 32) :
    ∃ t, forLoop (fillEntry g) 0 (g.blksz / 4) (c, fun _ => 0) = some t ∧
      t.1 = c - g.blksz / 4 * (g.blksz / 4) ∧
      ∀ l, l < g.blksz / 4 → word t.2 (4 * l) = min (c - l * (g.blksz / 4)) (g.blksz / 4) := by
  obtain ⟨w, hw⟩ : ∃ w, g.blksz / 4 = w := ⟨_, rfl⟩
  have hspec := forLoop_spec (f := fillEntry g) (i := 0) (n := g.blksz / 4) (s := (c, fun _ => 0))
    (I := fun j s => s.1 = c - j * w ∧ ∀ l, l < w → word s.2 (4 * l) =
      if l < j then min (c - l * w) w else 0) ?_ ?_
  · obtain ⟨t, ht, hcnt, hwords⟩ := hspec
    rw [hw, Nat.zero_add] at hcnt hwords
    rw [hw] at ht ⊢
    refine ⟨t, ht, hcnt, fun l hl => ?_⟩
    rw [hwords l hl, if_pos hl]
  · intro j s _ hj hi
    obtain ⟨hcnt, hwords⟩ := hi
    have hjw : j < w := by omega
    have hmul : (j + 1) * w = j * w + w := Nat.succ_mul j w
    rw [fillEntry, if_pos (by omega), hw]
    by_cases hs : s.1 = 0
    · refine ⟨s, if_neg (not_not.mpr hs), by omega, fun l hl => ?_⟩
      rw [hwords l hl]
      by_cases hlj : l < j
      · rw [if_pos hlj, if_pos (by omega)]
      · by_cases hl' : l = j
        · rw [if_neg hlj, if_pos (by omega), hl']
          omega
        · rw [if_neg hlj, if_neg (by omega)]
    · refine ⟨_, if_pos hs, ?_, fun l hl => ?_⟩
      · show s.1 - min s.1 w = _
        omega
      · show word (setWord (4 * j) _ s.2) (4 * l) = _
        by_cases hl' : l = j
        · rw [hl', hwords j hjw, if_neg (by omega), if_pos (by omega), word_setWord (u32_lt _),
            u32_of_lt (n := min s.1 w) (by omega), u32_of_lt (by omega)]
          omega
        · rw [word_setWord_of_apart (by omega), hwords l hl]
          by_cases hlj : l < j
          · rw [if_pos hlj, if_pos (by omega)]
          · rw [if_neg hlj, if_neg (by omega)]
  · refine ⟨?_, fun l _ => ?_⟩
    · rw [Nat.zero_mul]
      rfl
    · rw [if_neg (Nat.not_lt_zero l)]
      rfl

/-- **The top-level map** on the volume: the reserved blocks, `blksz / 4` at a time. -/
theorem fillTlrms (vol : ByteMem) (hv : g.Valid) :
    ∃ t, forLoop (fillTlrm g) 0 g.nblkTlrm (g.nblkRsvd, vol) = some t ∧
      (∀ k l, k < g.nblkTlrm → l < g.blksz / 4 →
        word (blocksOf g.blksz t.2 (g.blkTlrm + k)) (4 * l) =
          min (g.nblkRsvd - (k * (g.blksz / 4) + l) * (g.blksz / 4)) (g.blksz / 4)) ∧
      ∀ c i, c < g.blkTlrm → i < g.blksz →
        blocksOf g.blksz t.2 c i = blocksOf g.blksz vol c i := by
  have hlt := hv.nblk_lt
  have htl := hv.tlrm
  have hbrb := hv.brb
  have hroot := hv.root
  have hrsvd := hv.rsvd
  have hsz := hv.blksz_eq
  obtain ⟨w, hw⟩ : ∃ w, g.blksz / 4 = w := ⟨_, rfl⟩
  rw [hw] at hsz ⊢
  have hspec := forLoop_spec (f := fillTlrm g) (i := 0) (n := g.nblkTlrm) (s := (g.nblkRsvd, vol))
    (I := fun j s => s.1 = g.nblkRsvd - j * w * w ∧
      (∀ k l, k < j → l < w → word (blocksOf g.blksz s.2 (g.blkTlrm + k)) (4 * l) =
        min (g.nblkRsvd - (k * w + l) * w) w) ∧
      ∀ c i, c < g.blkTlrm → i < g.blksz →
        blocksOf g.blksz s.2 c i = blocksOf g.blksz vol c i) ?_ ?_
  · obtain ⟨t, ht, -, hwords, hframe⟩ := hspec
    rw [Nat.zero_add] at hwords
    exact ⟨t, ht, hwords, hframe⟩
  · intro j s _ hj hi
    obtain ⟨hcnt, hwords, hframe⟩ := hi
    obtain ⟨t, ht, hrest, hrow⟩ := fillEntries (g := g) (c := s.1) (by omega)
    rw [hw] at ht hrest hrow
    have hb : g.blkTlrm + j < g.nblk := by omega
    refine ⟨(t.1, writeVolume g t.2 (g.blkTlrm + j) s.2), ?_, ?_, fun k l hk hl => ?_, fun c i hc hi => ?_⟩
    · rw [fillTlrm, hw, ht]
      rfl
    · have hmul : (j + 1) * w * w = j * w * w + w * w := by
        rw [Nat.succ_mul, Nat.add_mul]
      show t.1 = _
      omega
    · have hsame : ∀ x, x < 4 → blocksOf g.blksz (writeVolume g t.2 (g.blkTlrm + j) s.2)
          (g.blkTlrm + k) (4 * l + x) =
          if k = j then t.2 (4 * l + x) else blocksOf g.blksz s.2 (g.blkTlrm + k) (4 * l + x) := by
        intro x hx
        rw [blocksOf_writeVolume hb (by omega)]
        exact if_congr (by omega) rfl rfl
      by_cases hkj : k = j
      · rw [word_congr (m := t.2) (a := 4 * l) fun x hx => (hsame x hx).trans (if_pos hkj), hrow l hl,
          hcnt, hkj, Nat.sub_sub, ← Nat.add_mul]
      · rw [word_congr (a := 4 * l) fun x hx => (hsame x hx).trans (if_neg hkj)]
        exact hwords k l (by omega) hl
    · show blocksOf g.blksz (writeVolume g t.2 (g.blkTlrm + j) s.2) c i = _
      rw [blocksOf_writeVolume hb hi, if_neg (by omega), hframe c i hc hi]
  · refine ⟨?_, fun k l hk => absurd hk (Nat.not_lt_zero k), fun c i _ _ => rfl⟩
    rw [Nat.zero_mul, Nat.zero_mul]
    rfl

/-- The bits of one block of the bitmap. -/
theorem fillBits (k : Nat) :
    ∃ blk, forLoop (fillBit g k) 0 (g.blksz * 8) (fun _ => 0) = some blk ∧
      ∀ b, b < g.blksz * 8 → bit blk b = decide (k * (g.blksz * 8) + b < g.nblkRsvd) := by
  have hspec := forLoop_spec (f := fillBit g k) (i := 0) (n := g.blksz * 8) (s := fun _ => 0)
    (I := fun j blk => ∀ b, bit blk b = decide (b < j ∧ k * (g.blksz * 8) + b < g.nblkRsvd)) ?_ ?_
  · obtain ⟨blk, hblk, hbits⟩ := hspec
    refine ⟨blk, hblk, fun b hb => ?_⟩
    rw [hbits]
    exact decide_eq_decide.mpr (by omega)
  · intro j blk _ hj hi
    have hj8 : j % 8 < 8 := Nat.mod_lt j (by decide)
    rw [fillBit, if_pos (by omega)]
    by_cases hp : k * (g.blksz * 8) + j < g.nblkRsvd
    · refine ⟨_, if_pos hp, fun b => ?_⟩
      rw [bit_orBit hj8, Nat.div_add_mod, hi, ← Bool.decide_or]
      refine decide_eq_decide.mpr ?_
      constructor
      · intro h
        cases h with
        | inl heq =>
            rw [heq]
            exact ⟨by omega, hp⟩
        | inr hlt => exact ⟨by omega, hlt.2⟩
      · intro h
        omega
    · refine ⟨blk, if_neg hp, fun b => ?_⟩
      rw [hi]
      refine decide_eq_decide.mpr ?_
      constructor
      · exact fun h => ⟨by omega, h.2⟩
      · intro h
        refine ⟨?_, h.2⟩
        have hne : b ≠ j := by
          intro heq
          rw [heq] at h
          exact hp h.2
        omega
  · intro b
    rw [decide_eq_false (by omega)]
    exact Nat.zero_testBit _

/-- **The bitmap** on the volume: the blocks below `nblk_rsvd`. -/
theorem fillBrbs (vol : ByteMem) (hv : g.Valid) :
    ∃ vol', forLoop (fillBrb g) 0 g.nblkBrb vol = some vol' ∧
      (∀ k b, k < g.nblkBrb → b < g.blksz * 8 →
        bit (blocksOf g.blksz vol' (g.blkBrb + k)) b =
          decide (k * (g.blksz * 8) + b < g.nblkRsvd)) ∧
      ∀ c i, c < g.blkBrb → i < g.blksz →
        blocksOf g.blksz vol' c i = blocksOf g.blksz vol c i := by
  have hbrb := hv.brb
  have hroot := hv.root
  have hrsvd := hv.rsvd
  have hspec := forLoop_spec (f := fillBrb g) (i := 0) (n := g.nblkBrb) (s := vol)
    (I := fun j v => (∀ k b, k < j → b < g.blksz * 8 →
        bit (blocksOf g.blksz v (g.blkBrb + k)) b =
          decide (k * (g.blksz * 8) + b < g.nblkRsvd)) ∧
      ∀ c i, c < g.blkBrb → i < g.blksz →
        blocksOf g.blksz v c i = blocksOf g.blksz vol c i) ?_ ?_
  · rwa [Nat.zero_add] at hspec
  · intro j v _ hj hi
    obtain ⟨hbits, hframe⟩ := hi
    obtain ⟨blk, hblk, hrow⟩ := fillBits (g := g) j
    have hb : g.blkBrb + j < g.nblk := by omega
    refine ⟨writeVolume g blk (g.blkBrb + j) v, ?_, fun k b hk hbit => ?_, fun c i hc hi => ?_⟩
    · rw [fillBrb, hblk]
      rfl
    · rw [bit, blocksOf_writeVolume hb (by omega)]
      by_cases hkj : k = j
      · rw [if_pos (by omega), hkj]
        exact hrow b hbit
      · rw [if_neg (by omega)]
        exact hbits k b (by omega) hbit
    · rw [blocksOf_writeVolume hb hi, if_neg (by omega), hframe c i hc hi]
  · exact ⟨fun k b hk => absurd hk (Nat.not_lt_zero k), fun c i _ _ => rfl⟩

/-- The maps that `genfs` leaves. -/
structure Written (g : Geometry) (osid : Bytes) (vol : ByteMem) : Prop where
  head : ∀ i, i < HBLK_SIZEOF → volumeHblk vol i = newHblk g osid i
  tlrm : ∀ k l, k < g.nblkTlrm → l < g.blksz / 4 →
    word (blocksOf g.blksz vol (g.blkTlrm + k)) (4 * l) =
      min (g.nblkRsvd - (k * (g.blksz / 4) + l) * (g.blksz / 4)) (g.blksz / 4)
  brb : ∀ k b, k < g.nblkBrb → b < g.blksz * 8 →
    bit (blocksOf g.blksz vol (g.blkBrb + k)) b = decide (k * (g.blksz * 8) + b < g.nblkRsvd)

/-- A byte of the volume, in its block. -/
theorem blocksOf_div : blocksOf blksz vol (x / blksz) (x % blksz) = vol x := by
  rw [blocksOf, Nat.mul_comm, Nat.div_add_mod]

/-- **Formatting** writes the maps. -/
theorem genfs_written (hv : (newGeometry blksz nblk).Valid) (osid : Bytes) (tm : Nat)
    (blk vol : ByteMem) :
    ∃ vol', genfs blksz nblk osid tm blk vol = some vol' ∧
      Written (newGeometry blksz nblk) osid vol' := by
  obtain ⟨g, hg⟩ : ∃ g, newGeometry blksz nblk = g := ⟨_, rfl⟩
  rw [genfs, hg]
  rw [hg] at hv
  have hlt := hv.nblk_lt
  have htl := hv.tlrm
  have hbrb := hv.brb
  have hroot := hv.root
  have hrsvd := hv.rsvd
  have hhead := hv.head
  have hge := hv.blksz_ge
  have hsz := hv.blksz_eq
  obtain ⟨t, ht, htlrm, htframe⟩ := fillTlrms (writeNewHblk (newHblk g osid) blk vol) hv
  obtain ⟨v, hvol, hbits, hvframe⟩ := fillBrbs t.2 hv
  have hframe : ∀ c i, c < g.blkRoot → i < g.blksz →
      blocksOf g.blksz (writeVolume g (newRoot tm) g.blkRoot v) c i = blocksOf g.blksz v c i := by
    intro c i hc hi
    rw [blocksOf_writeVolume (by omega) hi, if_neg (by omega)]
  refine ⟨writeVolume g (newRoot tm) g.blkRoot v, ?_, ?_⟩
  · rw [ht, Option.bind_some, hvol]
    rfl
  · constructor
    case head =>
      intro i hi
      have hi' : i < 56 := hi
      have hsize : ECFS_HBLK_SIZE = 1024 := rfl
      have hdiv : (ECFS_HBLK_START + i) / g.blksz < g.blkTlrm := by
        obtain ⟨q, hq⟩ := hv.dvd_blksz
        have hone : (ECFS_HBLK_START + i) / 1024 = ECFS_HBLK_START / 1024 := by
          rw [ECFS_HBLK_START]
          omega
        rw [hq, ← Nat.div_div_eq_div_mul] at hhead ⊢
        rwa [hone]
      have hmod : (ECFS_HBLK_START + i) % g.blksz < g.blksz := Nat.mod_lt _ (by omega)
      have hbyte : ∀ v : ByteMem, v (ECFS_HBLK_START + i) =
          blocksOf g.blksz v ((ECFS_HBLK_START + i) / g.blksz) ((ECFS_HBLK_START + i) % g.blksz) :=
        fun v => blocksOf_div.symm
      rw [volumeHblk, hbyte (writeVolume _ _ _ _), hframe _ _ (by omega) hmod, hvframe _ _ (by omega) hmod,
        htframe _ _ hdiv hmod, ← hbyte (writeNewHblk _ _ _), writeNewHblk, write_inside (by omega)]
      have hin := write_inside (a := 0) (f := newHblk g osid) (m := blk) hi
      rwa [Nat.zero_add] at hin
    case tlrm =>
      intro k l hk hl
      rw [← htlrm k l hk hl]
      refine word_congr fun x hx => ?_
      rw [hframe _ _ (by omega) (by omega), hvframe _ _ (by omega) (by omega)]
    case brb =>
      intro k b hk hb
      rw [← hbits k b hk hb, bit, hframe _ _ (by omega) (by omega), bit]

/-! ## mounting what was formatted -/

variable {osid : Bytes} {s : Maps}

/-- `load_fs` takes the regions from the head block. -/
theorem loadFs_written (hv : g.Valid) (h : Written g osid vol) (tbuf bbuf : ByteMem) :
    ∃ s, loadFs vol tbuf bbuf = some (g, s) ∧ s.disk = blocksOf g.blksz vol ∧
      word s.hblk HBLK_NBLK_ALLOC = g.nblkRsvd := by
  have hword : ∀ f, f + 4 ≤ HBLK_SIZEOF → word (volumeHblk vol) f = word (newHblk g osid) f :=
    fun f hf => word_congr fun i hi => h.head _ (by omega)
  have hsig : (List.range 4).map (volumeHblk vol) = ECFS_SIG := by
    rw [← newHblk_sig (g := g) osid]
    refine List.map_congr_left fun i hi => h.head i ?_
    have hlt := List.mem_range.mp hi
    have hsize : HBLK_SIZEOF = 56 := rfl
    omega
  obtain ⟨hgeo, halloc⟩ := ofHblk_newHblk hv osid
  have hgeo' : Geometry.ofHblk (volumeHblk vol) = g := by
    rw [← hgeo, Geometry.ofHblk, Geometry.ofHblk]
    simp (disch := decide) only [hword]
  have hload : loadFs vol tbuf bbuf = some (g, ⟨blocksOf g.blksz vol, volumeHblk vol,
      readMap g g.blkTlrm g.nblkTlrm (blocksOf g.blksz vol) tbuf,
      readMap g g.blkBrb g.nblkBrb (blocksOf g.blksz vol) bbuf⟩) := by
    rw [loadFs, if_neg (not_not.mpr hsig), hgeo']
  refine ⟨_, hload, rfl, ?_⟩
  rw [← halloc]
  exact hword _ (by decide)

/-- The entries of the map in memory. -/
theorem word_tlrm (hv : g.Valid) (h : Written g osid vol) (hs : Synced g s)
    (hd : s.disk = blocksOf g.blksz vol) {e : Nat} (he : e < g.nblkTlrm * (g.blksz / 4)) :
    word s.tlrm (4 * e) = min (g.nblkRsvd - e * (g.blksz / 4)) (g.blksz / 4) := by
  obtain ⟨w, hw⟩ : ∃ w, g.blksz / 4 = w := ⟨_, rfl⟩
  have hsz := hv.blksz_eq
  have hge := hv.blksz_ge
  have hpos : 0 < w := by omega
  have hk : e / w < g.nblkTlrm := by
    rw [Nat.div_lt_iff_lt_mul hpos, ← hw]
    exact he
  have hl : e % w < g.blksz / 4 := by
    rw [hw]
    exact Nat.mod_lt e hpos
  have hrow := h.tlrm (e / w) (e % w) hk hl
  rw [hw, Nat.mul_comm (e / w), Nat.div_add_mod] at hrow
  rw [hw, ← hrow, ← hd]
  refine word_congr fun i hi => ?_
  have hbyte := hs.tlrm (e / w) (4 * (e % w) + i) hk (by omega)
  have hat : e / w * g.blksz + (4 * (e % w) + i) = 4 * e + i := by
    have hdiv := Nat.div_add_mod e w
    have hmul : e / w * g.blksz = 4 * (w * (e / w)) := by
      rw [hsz, hw, Nat.mul_comm, Nat.mul_assoc]
    omega
  rw [hbyte, hat]

/-- The bits of the map in memory. -/
theorem bit_brb (hv : g.Valid) (h : Written g osid vol) (hs : Synced g s)
    (hd : s.disk = blocksOf g.blksz vol) (hb : b < g.areaSize * g.nblkBrb) :
    bit s.brb b = decide (b < g.nblkRsvd) := by
  have hk : b / g.areaSize < g.nblkBrb := area_lt hb
  have hl : b % g.areaSize < g.blksz * 8 := by
    rw [Nat.mul_comm]
    exact Nat.mod_lt b (areaSize_pos hv)
  have hdiv := Nat.div_add_mod b g.areaSize
  have hmul : g.areaSize * (b / g.areaSize) = 8 * (b / g.areaSize * g.blksz) := by
    rw [Geometry.areaSize, Nat.mul_assoc, Nat.mul_comm g.blksz]
  have hrow := h.brb (b / g.areaSize) (b % g.areaSize) hk hl
  rw [Nat.mul_comm g.blksz 8, Nat.mul_comm (b / g.areaSize)] at hrow
  rw [show 8 * g.blksz * (b / g.areaSize) + b % g.areaSize = b from hdiv] at hrow
  rw [← hrow, ← hd, bit, bit, hs.brb _ _ hk (by omega),
    show b / g.areaSize * g.blksz + b % g.areaSize / 8 = b / 8 by omega,
    show b % g.areaSize % 8 = b % 8 by omega]

/-- An area counts its blocks below `nblk_rsvd`. -/
theorem count_brb (hv : g.Valid) (h : Written g osid vol) (hs : Synced g s)
    (hd : s.disk = blocksOf g.blksz vol) {a : Nat} (ha : a < g.nblkBrb) :
    countBits s.brb (a * g.areaSize) g.areaSize = min g.areaSize (g.nblkRsvd - a * g.areaSize) := by
  rw [← countBits_below fun _ => bit_lowBits]
  refine countBits_congr fun b _ hb => ?_
  have hmul : (a + 1) * g.areaSize ≤ g.nblkBrb * g.areaSize := Nat.mul_le_mul_right _ ha
  rw [Nat.succ_mul] at hmul
  rw [bit_lowBits]
  refine bit_brb hv h hs hd ?_
  rw [Nat.mul_comm g.areaSize g.nblkBrb]
  omega

/-- Shares of at most `w` add up. -/
theorem sum_shares (r w n : Nat) : ∑ e ∈ Finset.range n, min (r - e * w) w = min r (n * w) := by
  induction n with
  | zero => simp
  | succ n ih =>
      rw [Finset.sum_range_succ, ih, Nat.succ_mul]
      omega

/-- What a new volume `vol` is, as `load_fs` has it mounted. -/
structure Formatted (g : Geometry) (vol : ByteMem) (s : Maps) : Prop where
  regions : g.Valid
  headFirst : ECFS_HBLK_START + ECFS_HBLK_SIZE ≤ g.blkTlrm * g.blksz
  disk : s.disk = blocksOf g.blksz vol
  synced : Synced g s
  areas : ∀ a, a < g.nblkBrb → word s.tlrm (4 * a) = countBits s.brb (a * g.areaSize) g.areaSize
  sum : ∑ e ∈ Finset.range (g.nblkTlrm * (g.blksz / 4)), word s.tlrm (4 * e) =
    word s.hblk HBLK_NBLK_ALLOC
  alloc : word s.hblk HBLK_NBLK_ALLOC = g.nblkRsvd
  marks : ∀ b, b < g.areaSize * g.nblkBrb → bit s.brb b = decide (b < g.nblkRsvd)

/-- The first entry is the count of its area just if the reserved blocks fit in it. -/
theorem areas_iff (hv : g.Valid) (h : Written g osid vol) (hs : Synced g s)
    (hd : s.disk = blocksOf g.blksz vol) :
    (∀ a, a < g.nblkBrb → word s.tlrm (4 * a) = countBits s.brb (a * g.areaSize) g.areaSize) ↔
      g.nblkRsvd ≤ g.blksz / 4 := by
  have hge := hv.blksz_ge
  have hsum := hv.summarised
  have hA : g.areaSize = 8 * g.blksz := rfl
  have hword : ∀ a, a < g.nblkBrb → word s.tlrm (4 * a) =
      min (g.nblkRsvd - a * (g.blksz / 4)) (g.blksz / 4) :=
    fun a ha => word_tlrm hv h hs hd (by omega)
  constructor
  · intro hall
    have hfirst := hall 0 hv.nblkBrb_pos
    rw [hword 0 hv.nblkBrb_pos, count_brb hv h hs hd hv.nblkBrb_pos] at hfirst
    rw [Nat.zero_mul, Nat.zero_mul] at hfirst
    omega
  · intro hfit a ha
    rw [hword a ha, count_brb hv h hs hd ha]
    cases a with
    | zero =>
        rw [Nat.zero_mul, Nat.zero_mul]
        omega
    | succ a =>
        rw [Nat.succ_mul, Nat.succ_mul]
        omega

/-- The entries have room for the reserved blocks. -/
theorem rsvd_le (h1 : 10 ≤ k) (hv : (newGeometry (2 ^ k) nblk).Valid) :
    (newGeometry (2 ^ k) nblk).nblkRsvd ≤
      (newGeometry (2 ^ k) nblk).nblkTlrm * (2 ^ k / 4) * (2 ^ k / 4) := by
  obtain ⟨t, ht⟩ : ∃ t, (newGeometry (2 ^ k) nblk).nblkTlrm = t := ⟨_, rfl⟩
  obtain ⟨n, hn⟩ : ∃ n, (newGeometry (2 ^ k) nblk).nblkBrb = n := ⟨_, rfl⟩
  have hge : 2 ^ 10 ≤ 2 ^ k := Nat.pow_le_pow_right (by decide) h1
  have hsum : n ≤ t * (2 ^ k / 4) := by
    rw [← ht, ← hn]
    exact hv.summarised
  have hpos : 0 < n := by
    rw [← hn]
    exact hv.nblkBrb_pos
  have hbase : (newGeometry (2 ^ k) nblk).nblkRsvd ≤ 2 + t + n + 1 := by
    have hsplit : (newGeometry (2 ^ k) nblk).nblkRsvd = (if 2 ^ k = 1024 then 2 else 1) +
        (newGeometry (2 ^ k) nblk).nblkTlrm + (newGeometry (2 ^ k) nblk).nblkBrb + 1 := rfl
    rw [hsplit, ht, hn]
    split
    · exact Nat.le_refl _
    · omega
  have hmul : t * (2 ^ k / 4) * 256 ≤ t * (2 ^ k / 4) * (2 ^ k / 4) :=
    Nat.mul_le_mul_left _ (by omega)
  have htle : t * 256 ≤ t * (2 ^ k / 4) := Nat.mul_le_mul_left _ (by omega)
  rw [ht]
  omega

/-- A new volume is formatted just if the reserved blocks fit in the first entry. -/
theorem formatted_of_written (h1 : 10 ≤ k) (hv : (newGeometry (2 ^ k) nblk).Valid)
    (h : Written (newGeometry (2 ^ k) nblk) osid vol) (tbuf bbuf : ByteMem) :
    (∃ s, loadFs vol tbuf bbuf = some (newGeometry (2 ^ k) nblk, s) ∧
      Formatted (newGeometry (2 ^ k) nblk) vol s) ↔
      (newGeometry (2 ^ k) nblk).nblkRsvd ≤ 2 ^ k / 4 := by
  obtain ⟨s, hload, hdisk, halloc⟩ := loadFs_written hv h tbuf bbuf
  have hsync := synced_mounted ⟨vol, tbuf, bbuf, hload⟩ hv
  have hareas := areas_iff hv h hsync hdisk
  constructor
  · intro hex
    obtain ⟨t, ht, hform⟩ := hex
    rw [hload] at ht
    cases ht
    exact hareas.mp hform.areas
  · intro hfit
    refine ⟨s, hload, ?_⟩
    constructor
    case regions => exact hv
    case headFirst =>
      have hge : 2 ^ 10 ≤ 2 ^ k := Nat.pow_le_pow_right (by decide) h1
      show 1024 + 1024 ≤ (if 2 ^ k = 1024 then 2 else 1) * 2 ^ k
      split
      · omega
      · next hne =>
          have hk : 11 ≤ k := by
            have h10 : k ≠ 10 := by
              intro heq
              rw [heq] at hne
              exact hne rfl
            omega
          have hge' : 2 ^ 11 ≤ 2 ^ k := Nat.pow_le_pow_right (by decide) hk
          omega
    case disk => exact hdisk
    case synced => exact hsync
    case areas => exact hareas.mpr hfit
    case sum =>
      rw [halloc, Finset.sum_congr rfl fun e he =>
        word_tlrm hv h hsync hdisk (Finset.mem_range.mp he), sum_shares]
      exact Nat.min_eq_left (rsvd_le h1 hv)
    case alloc => exact halloc
    case marks => exact fun b hb => bit_brb hv h hsync hdisk hb

/-- **A new volume** is what its head block says it is, and `load_fs` reads it
back, just if its reserved blocks are no more than the entries of a block. -/
theorem formatted_iff (k nblk : Nat) (h1 : 10 ≤ k) (h2 : k ≤ 30) (hn : nblk < 2 ^ 32)
    (hroom : (newGeometry (2 ^ k) nblk).nblkRsvd ≤ nblk) (osid : Bytes) (tm : Nat)
    (blk vol tbuf bbuf : ByteMem) :
    (∃ vol' s, genfs (2 ^ k) nblk osid tm blk vol = some vol' ∧
      loadFs vol' tbuf bbuf = some (newGeometry (2 ^ k) nblk, s) ∧
      Formatted (newGeometry (2 ^ k) nblk) vol' s) ↔
      (newGeometry (2 ^ k) nblk).nblkRsvd ≤ 2 ^ k / 4 := by
  have hv := newGeometry_valid h1 h2 hn hroom
  obtain ⟨vol', hvol, hw⟩ := genfs_written hv osid tm blk vol
  rw [← formatted_of_written h1 hv hw tbuf bbuf]
  constructor
  · intro hex
    obtain ⟨v, s, hv', hload, hform⟩ := hex
    rw [hvol] at hv'
    obtain rfl := Option.some.inj hv'
    exact ⟨s, hload, hform⟩
  · intro hex
    obtain ⟨s, hload, hform⟩ := hex
    exact ⟨vol', s, hvol, hload, hform⟩

theorem formatted_iff_example :
    ∃ vol' s, genfs (2 ^ 10) 2880 [] 0 (fun _ => 0) (fun _ => 0) = some vol' ∧
      loadFs vol' (fun _ => 0) (fun _ => 0) = some (newGeometry (2 ^ 10) 2880, s) ∧
      Formatted (newGeometry (2 ^ 10) 2880) vol' s :=
  (formatted_iff 10 2880 (by decide) (by decide) (by decide) (by decide) [] 0 (fun _ => 0)
    (fun _ => 0) (fun _ => 0) (fun _ => 0)).mpr (by decide)

/-- With blocks of 1 KiB, 253 blocks of bitmap are too many. -/
theorem not_formatted : ¬ ∀ (k nblk : Nat), 10 ≤ k → k ≤ 30 → nblk < 2 ^ 32 →
    (newGeometry (2 ^ k) nblk).nblkRsvd ≤ nblk → ∀ (osid : Bytes) (tm : Nat) (blk vol : ByteMem),
      ∃ vol' s, genfs (2 ^ k) nblk osid tm blk vol = some vol' ∧
        loadFs vol' (fun _ => 0) (fun _ => 0) = some (newGeometry (2 ^ k) nblk, s) ∧
        Formatted (newGeometry (2 ^ k) nblk) vol' s := by
  intro hall
  obtain ⟨vol', s, hvol, hload, hform⟩ := hall 10 2064385 (by decide) (by decide) (by decide)
    (by decide) [] 0 (fun _ => 0) (fun _ => 0)
  obtain ⟨v, hv, hw⟩ := genfs_written hform.regions [] 0 (fun _ => 0) fun _ => 0
  rw [hvol] at hv
  obtain rfl := Option.some.inj hv
  have hfit := (areas_iff hform.regions hw hform.synced hform.disk).mp hform.areas
  exact absurd hfit (by decide)

end Eclair
