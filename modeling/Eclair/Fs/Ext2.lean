import Eclair.Ecfs.Driver

/-!
# Eclair.Fs.Ext2

The ext2 driver of the kernel (`kernel/fs/ext2.c`): how it finds an inode,
the blocks and bytes of a file, and the entries of a directory.

A buffer is the memory from its first byte on, so that what lies behind its
block is there too; in the same way `bgdt` goes on behind the group table.
`ext2_filldir` also returns what it looked at in the block buffer and in the
group table.  Only what reading needs of the volume is here: the mount does
not set the hook for writing.
-/

namespace Eclair

open ByteMem

def EXT2_FIFO : Nat := 0x1000
def EXT2_DIR : Nat := 0x4000
def EXT2_REG : Nat := 0x8000
def EXT2_SLINK : Nat := 0xA000
def EXT2_SOCK : Nat := 0xC000
def FS_PIPE : Nat := 0x10
def FS_SOCKET : Nat := 0x80

/-- A half word of a buffer. -/
def halfAt (m : ByteMem) (a : Nat) : Nat := (m a).toNat + 256 * (m (a + 1)).toNat

theorem halfAt_lt {m : ByteMem} {a : Nat} : halfAt m a < 0x10000 := by
  have h0 := (m a).toNat_lt
  have h1 := (m (a + 1)).toNat_lt
  rw [halfAt]
  omega

theorem halfAt_congr {m m' : ByteMem} {a b : Nat} (h : ∀ i < 2, m' (b + i) = m (a + i)) :
    halfAt m' b = halfAt m a := by
  have h0 := h 0 (by decide)
  rw [Nat.add_zero, Nat.add_zero] at h0
  rw [halfAt, halfAt, h0, h 1 (by decide)]

/-- `struct ext2_fs_info`: the device by its sectors, the start of the
partition, what the superblock gives (`sbBlocksize` is `sb.blocksize`), and
`binodetab` of each group. -/
structure Ext2Info where
  dev : Nat → ByteMem
  startLba : Nat
  sbBlocksize : Nat
  inodesize : Nat
  nbginodes : Nat
  nbgs : Nat
  bgdt : Nat → Nat

/-- `ext2_inode_t`. -/
structure Ext2Inode where
  type : Nat
  uid : Nat
  losize : Nat
  gid : Nat
  dbptr : Nat → Nat
  sibptr : Nat

/-- The inode at `a`. -/
def inodeAt (m : ByteMem) (a : Nat) : Ext2Inode where
  type := halfAt m a
  uid := halfAt m (a + 2)
  losize := word m (a + 4)
  gid := halfAt m (a + 24)
  dbptr i := word m (a + 40 + 4 * i)
  sibptr := word m (a + 88)

/-- `struct ext2_file_info`. -/
structure Ext2File where
  bblk : Nat
  bidx : Nat
  bdata : ByteMem
  inode : Ext2Inode

/-- `ext2_translate_type`. -/
def ext2TranslateType (type : Nat) : Nat :=
  let out := 0
  let out := if hasFlag type EXT2_FIFO then out ||| FS_PIPE else out
  let out := if hasFlag type EXT2_DIR then out ||| FS_DIRECTORY else out
  let out := if hasFlag type EXT2_REG then out ||| FS_FILE else out
  let out := if hasFlag type EXT2_SLINK then out ||| FS_SYMLINK else out
  if hasFlag type EXT2_SOCK then out ||| FS_SOCKET else out

namespace Ext2Info

variable (v : Ext2Info)

/-- `info->blocksize`, as `ext2_mbr_mount` sets it. -/
def blocksize : Nat := u32 (1024 <<< v.sbBlocksize)

/-- `ext2_read_block`. -/
def readBlock (block : Nat) (buf : ByteMem) : ByteMem :=
  let cnt := v.blocksize >>> 9
  let lba := u32 (v.startLba + block * cnt)
  write 0 (cnt * 512) (fun x => v.dev (lba + x / 512) (x % 512)) buf

/-- The bytes from the start of a block on, as `ext2_read_block` gets them. -/
def blockByte (block : Nat) : ByteMem := fun x =>
  v.dev (u32 (v.startLba + block * (v.blocksize >>> 9)) + x / 512) (x % 512)

/-- `ext2_read_cached_block`: `curblock` is 0 from the mount on. -/
def readCachedBlock (block : Nat) (cache : ByteMem) : ByteMem :=
  if block = 0 then cache else v.readBlock block cache

/-! ## inodes -/

/-- `EXT2_BLOCK_GROUP`. -/
def blockGroup (inode : Nat) : Nat := sub32 inode 1 / v.nbginodes

/-- `EXT2_INDEX`. -/
def index (inode : Nat) : Nat := sub32 inode 1 % v.nbginodes

/-- `EXT2_CONT_BLOCK`. -/
def contBlock (idx : Nat) : Nat := u32 (idx * v.inodesize) / v.blocksize

/-- `ext2_read_inode`: the inode, and the cached block. -/
def readInode (inode : Nat) (cache : ByteMem) : Ext2Inode × ByteMem :=
  let idx := v.index inode
  let cont := u32 (v.bgdt (v.blockGroup inode) + v.contBlock idx)
  let cache := v.readCachedBlock cont cache
  (inodeAt cache (idx % (v.blocksize / v.inodesize) * v.inodesize), cache)

/-- `ext2_read_inode_block`: the block, and the buffer. -/
def readInodeBlock (inode : Ext2Inode) (idx : Nat) (buf : ByteMem) : Nat × ByteMem :=
  if idx < 12 then
    if inode.dbptr idx = 0 then (0, buf)
    else (inode.dbptr idx, v.readBlock (inode.dbptr idx) buf)
  else if idx < 12 + v.blocksize >>> 2 then
    if inode.sibptr = 0 then (0, buf)
    else
      let buf := v.readBlock inode.sibptr buf
      let block := word buf (4 * (idx - 12))
      if block = 0 then (0, buf) else (block, v.readBlock block buf)
  else (0, buf)

/-- The block number of the file's block `idx`, 0 for a hole. -/
def blockOf (inode : Ext2Inode) (idx : Nat) : Nat := (v.readInodeBlock inode idx fun _ => 0).1

/-! ## files -/

/-- `ext2_open`, after which the buffers hold anything; with the cached block. -/
def ext2Open (inode : Nat) (cache bdata : ByteMem) : Ext2File × ByteMem :=
  let r := v.readInode inode cache
  (⟨0, 0, bdata, r.1⟩, r.2)

/-- Block `bidx` of the file brought in. -/
def loadFile (bidx : Nat) (f : Ext2File) : Ext2File :=
  if f.bblk = 0 ∨ bidx ≠ f.bidx then
    let r := v.readInodeBlock f.inode bidx f.bdata
    { f with bblk := r.1, bidx := bidx, bdata := r.2 }
  else f

/-- The loop of `ext2_read` over at most `k` bytes from `pos` on: the bytes,
the file, and whether the end of the function is reached. -/
def ext2ReadFrom (len : Nat) : Nat → Nat → Ext2File → Bytes × Ext2File × Bool
  | 0, _, f => ([], f, true)
  | k + 1, pos, f =>
      if u32 pos ≥ len then ([], f, false)
      else
        let f := v.loadFile (u32 pos / v.blocksize) f
        if f.bblk = 0 then ([], f, false)
        else
          let r := ext2ReadFrom len k (pos + 1) f
          (f.bdata (u32 pos % v.blocksize) :: r.1, r.2)

/-- `ext2_read` on a file of length `len`. -/
def ext2Read (len offset nbytes : Nat) (f : Ext2File) : Bytes × Ext2File × Bool :=
  v.ext2ReadFrom len nbytes offset f

/-! ## the block in the buffer -/

variable {v} {inode : Ext2Inode} {buf : ByteMem} {f : Ext2File} {b idx k len pos x : Nat}

theorem dvd_blocksize (v : Ext2Info) : 512 ∣ v.blocksize := by
  have h : 512 ∣ 1024 <<< v.sbBlocksize := by
    rw [Nat.shiftLeft_eq]
    exact Dvd.dvd.mul_right (by decide) _
  exact (Nat.dvd_mod_iff (by decide)).mpr h

theorem sectors_mul (v : Ext2Info) : v.blocksize >>> 9 * 512 = v.blocksize := by
  rw [Nat.shiftRight_eq_div_pow]
  exact Nat.div_mul_cancel v.dvd_blocksize

/-- A block read fills the buffer. -/
theorem readBlock_inside (hx : x < v.blocksize) : v.readBlock b buf x = v.blockByte b x := by
  have h := write_inside (a := 0) (m := buf) (f := v.blockByte b)
    (by rwa [sectors_mul] : x < v.blocksize >>> 9 * 512)
  rwa [Nat.zero_add] at h

/-- Which block it is does not depend on what was in the buffer. -/
theorem readInodeBlock_fst (buf : ByteMem) : (v.readInodeBlock inode idx buf).1 = v.blockOf inode idx := by
  have hword : idx < 12 + v.blocksize >>> 2 → ¬ idx < 12 →
      word (v.readBlock inode.sibptr buf) (4 * (idx - 12))
        = word (v.readBlock inode.sibptr fun _ => 0) (4 * (idx - 12)) := by
    intro hi hd
    rw [Nat.shiftRight_eq_div_pow] at hi
    exact word_congr fun i hw => by
      rw [readBlock_inside (by omega), readBlock_inside (by omega)]
  rw [blockOf, readInodeBlock, readInodeBlock]
  by_cases hd : idx < 12
  · simp only [if_pos hd]
    split <;> rfl
  · by_cases hi : idx < 12 + v.blocksize >>> 2
    · simp only [if_neg hd, if_pos hi, hword hi hd]
      split
      · rfl
      · split <;> rfl
    · simp only [if_neg hd, if_neg hi]

/-- The block that is brought in. -/
theorem readInodeBlock_snd (hb : v.blockOf inode idx ≠ 0) (buf : ByteMem) :
    ∀ x < v.blocksize, (v.readInodeBlock inode idx buf).2 x = v.blockByte (v.blockOf inode idx) x := by
  intro x hx
  rw [← readInodeBlock_fst buf] at hb ⊢
  rw [readInodeBlock] at hb ⊢
  split
  · next hd =>
      simp only [if_pos hd] at hb
      split
      · next hz => simp [hz] at hb
      · next hz => exact readBlock_inside hx
  · next hd =>
      simp only [if_neg hd] at hb
      split
      · next hi =>
          simp only [if_pos hi] at hb
          split
          · next hz => simp [hz] at hb
          · next hz =>
              simp only [if_neg hz] at hb ⊢
              split
              · next hw => simp [hw] at hb
              · next hw => exact readBlock_inside hx
      · next hi => simp [hi] at hb

/-- Blocks that the direct and the singly indirect pointers do not reach are holes. -/
theorem lt_of_blockOf (hb : v.blockOf inode idx ≠ 0) : idx < 12 + v.blocksize >>> 2 := by
  by_contra hi
  apply hb
  rw [blockOf, readInodeBlock, if_neg (by omega), if_neg hi]

/-- The block number kept with the buffer is that of the block it says. -/
def CachedBlock (v : Ext2Info) (f : Ext2File) : Prop :=
  f.bblk ≠ 0 → f.bblk = v.blockOf f.inode f.bidx

/-- What `loadFile` leaves: the block asked for, or a hole. -/
theorem loadFile_spec (h : v.CachedBlock f) :
    (v.loadFile b f).inode = f.inode ∧ (v.loadFile b f).bidx = b ∧
      (v.loadFile b f).bblk = v.blockOf f.inode b := by
  rw [loadFile]
  split
  · exact ⟨rfl, rfl, readInodeBlock_fst _⟩
  · next hc =>
      obtain ⟨hz, hb⟩ := not_or.mp hc
      have hb : b = f.bidx := not_not.mp hb
      exact ⟨rfl, hb.symm, hb ▸ h hz⟩

theorem loadFile_cached (h : v.CachedBlock f) : v.CachedBlock (v.loadFile b f) := by
  obtain ⟨hi, hb, hk⟩ := loadFile_spec (b := b) h
  intro _
  rw [hk, hi, hb]

end Ext2Info

/-! ## directories -/

/-- What `ext2_filldir` looks at: a byte of the block buffer, a group, or the
inode at an offset of the cached block. -/
inductive Ext2Access where
  | byte (i : Nat)
  | group (bg : Nat)
  | inode (off : Nat)
  deriving DecidableEq, Repr

/-- The node of an entry. -/
structure Ext2Child where
  flags : Nat
  mask : Nat
  uid : Nat
  gid : Nat
  inode : Nat
  len : Nat
  deriving DecidableEq, Repr

/-- `fs_dirent_t`: the memory from its name on, and its node. -/
structure Ext2Entry where
  mem : ByteMem
  node : Ext2Child

/-- The state of the loop of `ext2_filldir`. -/
structure Ext2Filling where
  pos : Nat
  bidx : Nat
  dirbuf : ByteMem
  cache : ByteMem
  entries : List Ext2Entry
  looked : List Ext2Access

/-- How many bytes `strncpy` looks at, from byte `i` on. -/
def strncpyReads (src : ByteMem) : Nat → Nat → Nat
  | 0, _ => 0
  | k + 1, i => if src i = 0 then 1 else strncpyReads src k (i + 1) + 1

/-- `offsetof(ext2_dirent_t, name)`. -/
def EXT2_NAME : Nat := 8

/-- `dnamesz` of the record at `lpos`. -/
def dnamesz (dirbuf : ByteMem) (lpos : Nat) : Nat := min (dirbuf (lpos + 6)).toNat FS_NAMESZ

/-- The name of the record at `lpos`, and what is behind it. -/
def nameFrom (dirbuf : ByteMem) (lpos : Nat) : ByteMem := fun i => dirbuf (lpos + EXT2_NAME + i)

/-- The bytes that a round looks at: the number of the inode, the sizes, and the name. -/
def recordBytes (dirbuf : ByteMem) (lpos : Nat) : List Ext2Access :=
  (List.range 7).map (fun i => .byte (lpos + i)) ++
    (List.range (strncpyReads (nameFrom dirbuf lpos) (dnamesz dirbuf lpos) 0)).map fun i =>
      .byte (lpos + EXT2_NAME + i)

namespace Ext2Info

variable (v : Ext2Info)

/-- What `ext2_read_inode` looks at. -/
def inodeAccess (inode : Nat) : List Ext2Access :=
  [.group (v.blockGroup inode),
    .inode (v.index inode % (v.blocksize / v.inodesize) * v.inodesize)]

/-- The next block, if the position is at the start of one; `none` ends the loop. -/
def fillBlock (dir : Ext2Inode) (s : Ext2Filling) : Option Ext2Filling :=
  if s.pos % v.blocksize = 0 then
    let r := v.readInodeBlock dir s.bidx s.dirbuf
    if r.1 = 0 then none else some { s with bidx := u32 (s.bidx + 1), dirbuf := r.2 }
  else some s

/-- The record at the position; `mem` is what `kmalloc` gives for the entry. -/
def fillRecord (mem : ByteMem) (s : Ext2Filling) : Ext2Filling :=
  let lpos := s.pos % v.blocksize
  let inode := word s.dirbuf lpos
  let r := v.readInode inode s.cache
  { s with
    pos := u32 (s.pos + halfAt s.dirbuf (lpos + 4))
    cache := r.2
    entries := s.entries ++
      [⟨strncpy (nameFrom s.dirbuf lpos) (dnamesz s.dirbuf lpos) 0 (direntNew mem),
        ⟨ext2TranslateType r.1.type, 0, r.1.uid, r.1.gid, inode, r.1.losize⟩⟩]
    looked := s.looked ++ recordBytes s.dirbuf lpos ++ v.inodeAccess inode }

/-- The loop of `ext2_filldir`. -/
def fillLoop (dir : Ext2Inode) (mem : Nat → ByteMem) : Nat → Ext2Filling → Option Ext2Filling
  | 0, _ => none
  | n + 1, s =>
      if s.pos ≥ dir.losize then some s
      else match v.fillBlock dir s with
        | none => some s
        | some s => fillLoop dir mem n (v.fillRecord (mem s.entries.length) s)

/-- `ext2_filldir` on a directory without entries, with fuel for the loop:
the state at its end. -/
def ext2Filldir (inode : Nat) (cache dirbuf : ByteMem) (mem : Nat → ByteMem) (fuel : Nat) :
    Option Ext2Filling :=
  let r := v.readInode inode cache
  v.fillLoop r.1 mem fuel ⟨0, 0, dirbuf, r.2, [], v.inodeAccess inode⟩

end Ext2Info

end Eclair
