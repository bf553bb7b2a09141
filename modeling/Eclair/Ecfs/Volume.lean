import Eclair.Basic
import Eclair.Lib.Bits

/-!
# Eclair.Ecfs.Volume

An EcFS volume as `tools/mntecfs.c` has it mounted: the blocks of the device,
and in memory the head block, the top-level reservation map and the block
reservation bitmap.

The volume is an array of blocks; block `b` is at byte `b * blksz`.  The head
block is at byte 1024 whatever the block size.  `none` is an access outside a
buffer.
-/

namespace Eclair

open ByteMem

/-! ## the head block -/

def ECFS_HBLK_START : Nat := 1024
def ECFS_HBLK_SIZE : Nat := 1024
def ECFS_SIG : Bytes := [0x2f, 0xec, 0x45, 0x43]

/-- `sizeof(ecfs_hblk_t)`. -/
def HBLK_SIZEOF : Nat := 56

/-! The offsets of the fields of `ecfs_hblk_t`. -/

def HBLK_BLK_TLRM : Nat := 16
def HBLK_NBLK_TLRM : Nat := 20
def HBLK_BLK_BRB : Nat := 24
def HBLK_NBLK_BRB : Nat := 28
def HBLK_BLK_ROOT : Nat := 32
def HBLK_BLKSZ : Nat := 36
def HBLK_NBLK : Nat := 40
def HBLK_NBLK_ALLOC : Nat := 44
def HBLK_NBLK_RSVD : Nat := 48
def HBLK_REVISION : Nat := 52

/-- The globals that `load_fs` takes from the head block. -/
structure Geometry where
  blksz : Nat
  nblk : Nat
  blkTlrm : Nat
  blkBrb : Nat
  nblkTlrm : Nat
  nblkBrb : Nat
  nblkRsvd : Nat
  blkRoot : Nat
  deriving DecidableEq, Repr

/-- The blocks of the device. -/
abbrev Disk := Nat → ByteMem

/-- The device, and the maps in memory. -/
structure Maps where
  disk : Disk
  hblk : ByteMem
  tlrm : ByteMem
  brb : ByteMem

variable (g : Geometry)

/-! ## blocks -/

/-- `read_blk`. -/
def readBlk (b : Nat) (buf : ByteMem) (disk : Disk) : ByteMem :=
  if b ≥ g.nblk then buf else write 0 g.blksz (disk b) buf

/-- `write_blk`. -/
def writeBlk (b : Nat) (buf : ByteMem) (disk : Disk) : Disk :=
  if b ≥ g.nblk then disk else Function.update disk b (write 0 g.blksz buf (disk b))

/-- Write the head block to byte `ECFS_HBLK_START`. -/
def writeHblk (hblk : ByteMem) (disk : Disk) : Disk :=
  let b := ECFS_HBLK_START / g.blksz
  Function.update disk b (write (ECFS_HBLK_START % g.blksz) HBLK_SIZEOF hblk (disk b))

/-- Write block `k` of a map of `n` blocks to block `base + k`. -/
def writeMap (base n k : Nat) (m : ByteMem) (disk : Disk) : Option Disk :=
  let b := u32 (base + k)
  if b ≥ g.nblk then some disk
  else if k < n then some (writeBlk g b (fun i => m (k * g.blksz + i)) disk)
  else none

/-- The end of `alloc_blk` and `free_blk`, from the new bitmap on: block `blk`
of the bitmap is written, its entry of the top-level map and the number of
allocated blocks in the head block are changed by `d` and written. -/
def updateMaps (d : Nat → Nat) (blk : Nat) (brb : ByteMem) (s : Maps) : Option Maps :=
  (writeMap g g.blkBrb g.nblkBrb blk brb s.disk).bind fun disk =>
    if 4 * blk + 4 ≤ g.nblkTlrm * g.blksz then
      let tlrm := setWord (4 * blk) (d (word s.tlrm (4 * blk))) s.tlrm
      (writeMap g g.blkTlrm g.nblkTlrm (blk / (g.blksz / 4)) tlrm disk).map fun disk =>
        let hblk := setWord HBLK_NBLK_ALLOC (d (word s.hblk HBLK_NBLK_ALLOC)) s.hblk
        ⟨writeHblk g hblk disk, hblk, tlrm, brb⟩
    else none

/-- `alloc_blk`. -/
def allocBlk (s : Maps) : Option (Nat × Maps) :=
  match scanBytes s.brb (u32 (g.blksz * g.nblkBrb)) 0 with
  | none => some (0, s)
  | some (i, j) =>
      (updateMaps g (fun n => u32 (n + 1)) (i / g.blksz) (orBit i j s.brb) s).map fun s =>
        (u32 (i * 8 + j), s)

/-- `free_blk`. -/
def freeBlk (b : Nat) (s : Maps) : Option Maps :=
  if b ≥ g.nblk then some s
  else if b / 8 ≥ g.nblkBrb * g.blksz then none
  else if !bit s.brb b then some s
  else updateMaps g (fun n => sub32 n 1) (b / g.blksz) (clearBit (b / 8) (b % 8) s.brb) s

/-! ## mounting -/

/-- The head block of a volume. -/
def volumeHblk (vol : ByteMem) : ByteMem := fun i => vol (ECFS_HBLK_START + i)

/-- The blocks of a volume. -/
def blocksOf (blksz : Nat) (vol : ByteMem) : Disk := fun b i => vol (b * blksz + i)

/-- The geometry that a head block gives. -/
def Geometry.ofHblk (h : ByteMem) : Geometry where
  blksz := word h HBLK_BLKSZ
  nblk := word h HBLK_NBLK
  blkTlrm := word h HBLK_BLK_TLRM
  blkBrb := word h HBLK_BLK_BRB
  nblkTlrm := word h HBLK_NBLK_TLRM
  nblkBrb := word h HBLK_NBLK_BRB
  nblkRsvd := word h HBLK_NBLK_RSVD
  blkRoot := word h HBLK_BLK_ROOT

/-- The `n` blocks of a map from block `base` on; the buffer from `malloc`
holds anything. -/
def readMap (base n : Nat) (disk : Disk) (buf : ByteMem) : ByteMem :=
  fun x =>
    if x < n * g.blksz then
      readBlk g (u32 (base + x / g.blksz)) (fun i => buf (x / g.blksz * g.blksz + i)) disk (x % g.blksz)
    else buf x

/-- `load_fs`, but for the root node; `tbuf` and `bbuf` are what `malloc` gives. -/
def loadFs (vol tbuf bbuf : ByteMem) : Option (Geometry × Maps) :=
  let hblk := volumeHblk vol
  if (List.range 4).map hblk ≠ ECFS_SIG then none
  else
    let g := Geometry.ofHblk hblk
    let disk := blocksOf g.blksz vol
    some (g, ⟨disk, hblk, readMap g g.blkTlrm g.nblkTlrm disk tbuf,
      readMap g g.blkBrb g.nblkBrb disk bbuf⟩)

/-! ## the layout of a volume -/

/-- The regions of a volume, as `mkecfs` lays them out. -/
structure Geometry.Valid : Prop where
  pow : ∃ k, 10 ≤ k ∧ k ≤ 30 ∧ g.blksz = 2 ^ k
  nblk_lt : g.nblk < 2 ^ 32
  head : ECFS_HBLK_START / g.blksz < g.blkTlrm
  tlrm : g.blkTlrm + g.nblkTlrm ≤ g.blkBrb
  brb : g.blkBrb + g.nblkBrb ≤ g.blkRoot
  root : g.blkRoot < g.nblkRsvd
  rsvd : g.nblkRsvd ≤ g.nblk
  covers : g.nblk ≤ 8 * g.blksz * g.nblkBrb
  exact : 8 * g.blksz * (g.nblkBrb - 1) < g.nblk
  summarised : g.nblkBrb ≤ g.nblkTlrm * (g.blksz / 4)

/-- Map `m` of `n` blocks is on disk from block `base` on. -/
def OnDisk (base n : Nat) (m : ByteMem) (disk : Disk) : Prop :=
  ∀ k i, k < n → i < g.blksz → disk (base + k) i = m (k * g.blksz + i)

variable {g}

namespace Geometry.Valid

theorem blksz_ge (h : g.Valid) : 1024 ≤ g.blksz := by
  obtain ⟨k, h1, -, h2⟩ := h.pow
  rw [h2]
  exact Nat.pow_le_pow_right (n := 2) (by decide) h1

theorem blksz_le (h : g.Valid) : g.blksz ≤ 2 ^ 30 := by
  obtain ⟨k, -, h1, h2⟩ := h.pow
  rw [h2]
  exact Nat.pow_le_pow_right (by decide) h1

/-- A block is a whole number of KiB, and of words. -/
theorem dvd_blksz (h : g.Valid) : 1024 ∣ g.blksz := by
  obtain ⟨k, h1, -, h2⟩ := h.pow
  rw [h2]
  exact Nat.pow_dvd_pow 2 h1

theorem blksz_eq (h : g.Valid) : g.blksz = 4 * (g.blksz / 4) := by
  have hdvd := h.dvd_blksz
  omega

/-- The bytes of the bitmap can be counted in 32 bits. -/
theorem brb_lt (h : g.Valid) : g.blksz * g.nblkBrb < 2 ^ 32 := by
  have hexact := h.exact
  have hlt := h.nblk_lt
  have hle := h.blksz_le
  cases hn : g.nblkBrb with
  | zero => omega
  | succ n =>
      rw [hn, Nat.add_sub_cancel, Nat.mul_assoc] at hexact
      rw [Nat.mul_succ]
      omega

theorem nblkBrb_pos (h : g.Valid) : 0 < g.nblkBrb := by
  have hcov := h.covers
  have hroot := h.root
  have hrsvd := h.rsvd
  rcases Nat.eq_zero_or_pos g.nblkBrb with h0 | hpos
  · rw [h0, Nat.mul_zero] at hcov
    omega
  · exact hpos

end Geometry.Valid

/-! ## writing the maps -/

variable {base n k b i : Nat} {m m' : ByteMem} {disk disk' : Disk} {s s' : Maps}

theorem writeBlk_self (hb : b < g.nblk) (hi : i < g.blksz) : writeBlk g b m disk b i = m i := by
  rw [writeBlk, if_neg (by omega), Function.update_self, write, if_pos (by omega), Nat.sub_zero]

theorem writeBlk_of_ne {c : Nat} (hc : c ≠ b) : writeBlk g b m disk c = disk c := by
  rw [writeBlk]
  split
  · rfl
  · exact Function.update_of_ne hc _ _

theorem writeHblk_of_ne {c : Nat} (hc : c ≠ ECFS_HBLK_START / g.blksz) :
    writeHblk g m disk c = disk c := Function.update_of_ne hc _ _

theorem writeHblk_self (hi : i < HBLK_SIZEOF) :
    writeHblk g m disk (ECFS_HBLK_START / g.blksz) (ECFS_HBLK_START % g.blksz + i) = m i := by
  rw [writeHblk, Function.update_self, write_inside hi]

/-- Writing a block of a map that there is. -/
theorem writeMap_of_lt (hb : base + k < g.nblk) (hk : k < n) (hlt : g.nblk < 2 ^ 32) :
    writeMap g base n k m disk =
      some (writeBlk g (base + k) (fun i => m (k * g.blksz + i)) disk) := by
  rw [writeMap, u32_of_lt (by omega), if_neg (by omega), if_pos hk]

/-- A map stays on disk when one of its blocks is changed and written. -/
theorem OnDisk.writeBlk (h : OnDisk g base n m disk) (hn : base + n ≤ g.nblk) (hk : k < n)
    (hm : ∀ x, x / g.blksz ≠ k → m' x = m x) :
    OnDisk g base n m' (writeBlk g (base + k) (fun i => m' (k * g.blksz + i)) disk) := by
  intro l i hl hi
  by_cases hlk : l = k
  · subst hlk
    exact writeBlk_self (by omega) hi
  · rw [writeBlk_of_ne (by omega), h l i hl hi, hm]
    rw [Nat.mul_comm, Nat.mul_add_div (by omega), Nat.div_eq_of_lt hi]
    exact hlk

/-- Writes elsewhere leave a map on disk. -/
theorem OnDisk.congr (h : OnDisk g base n m disk) (hd : ∀ k, k < n → disk' (base + k) = disk (base + k)) :
    OnDisk g base n m disk' := by
  intro k i hk hi
  rw [hd k hk]
  exact h k i hk hi

end Eclair
