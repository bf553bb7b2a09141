import Mathlib.Data.Nat.Prime.Basic
import Mathlib.Tactic.Ring
import Eclair.Fs.Ext2
import Eclair.Task.File

/-!
# Eclair.Fs.Ext2Read

What `ext2_open` and `ext2_read` give, against the bytes of the partition:
an inode lies at its place in the table of its group, and its block pointers
say which bytes of the partition are the file's.

The place of the inode is computed in 32 bits, and what a read returns is a
`kssize_t`.  `reads_iff` says for which volumes and inodes this never
matters: no matter what is on the disk, every read is right.
-/

namespace Eclair

open ByteMem

namespace Ext2Info

variable (v : Ext2Info)

/-! ## the volume -/

/-- The bytes of the partition. -/
def part : ByteMem := fun a => v.dev (v.startLba + a / 512) (a % 512)

/-- The place of an inode in the partition. -/
def inodePlace (n : Nat) : Nat := v.bgdt (v.blockGroup n) * v.blocksize + v.index n * v.inodesize

/-- The inode of a number. -/
def inodeOf (n : Nat) : Ext2Inode := inodeAt v.part (v.inodePlace n)

/-- The block of the file's block `i`, by the inode's pointers. -/
def pointer (inode : Ext2Inode) (i : Nat) : Nat :=
  if i < 12 then inode.dbptr i
  else word v.part (inode.sibptr * v.blocksize + 4 * (i - 12))

/-- Byte `p` of the file. -/
def fileByte (inode : Ext2Inode) (p : Nat) : UInt8 :=
  v.part (v.pointer inode (p / v.blocksize) * v.blocksize + p % v.blocksize)

/-- The bytes of the sectors, which have 32-bit numbers. -/
def DISK_SIZE : Nat := 2 ^ 32 * 512

/-- A block of the partition other than its first. -/
def IsBlock (b : Nat) : Prop := b ≠ 0 ∧ v.startLba * 512 + (b + 1) * v.blocksize ≤ DISK_SIZE

/-- A file without holes that needs no pointers but the direct and the singly
indirect ones. -/
structure FileFormed (inode : Ext2Inode) : Prop where
  size : inode.losize ≤ (12 + v.blocksize / 4) * v.blocksize
  blocks : ∀ i, i * v.blocksize < inode.losize → v.IsBlock (v.pointer inode i)
  table : 12 * v.blocksize < inode.losize → v.IsBlock inode.sibptr

/-- The numbers of the superblock are in order. -/
structure Sound : Prop where
  shift : v.sbBlocksize ≤ 21
  record : 128 ≤ v.inodesize
  divides : v.inodesize ∣ v.blocksize
  perGroup : 0 < v.nbginodes

/-- And the table of the inode's group is in the partition, behind the group
descriptors. -/
structure Ext2Layout (n : Nat) : Prop extends v.Sound where
  descriptors : 2 ≤ v.bgdt (v.blockGroup n)
  inside : v.startLba * 512 + v.bgdt (v.blockGroup n) * v.blocksize + v.nbginodes * v.inodesize
    ≤ DISK_SIZE

/-- The place in the partition where `ext2_read_inode` finds the inode. -/
def foundPlace (n : Nat) : Nat :=
  (v.bgdt (v.blockGroup n) + v.contBlock (v.index n)) * v.blocksize
    + v.index n % (v.blocksize / v.inodesize) * v.inodesize

/-! ## reads -/

/-- Calls of `ext2_read` on a file of length `len`, each an offset and a
number of bytes: what each of them returns, and what it stores. -/
def ext2Reads (len : Nat) : Ext2File → List (Nat × Nat) → List (Int × Bytes)
  | _, [] => []
  | f, c :: calls =>
      let r := v.ext2Read len c.1 c.2 f
      (toLong r.1.length, r.1) :: ext2Reads len r.2.1 calls

/-- What a read should return and store. -/
def readOf (inode : Ext2Inode) (c : Nat × Nat) : Int × Bytes :=
  let k := min c.2 (inode.losize - c.1)
  (k, (List.range k).map fun i => v.fileByte inode (c.1 + i))

/-- Every sequence of reads of the inode's file is right; the node has the
length that `ext2_filldir` read. -/
def ReadsRight (n : Nat) : Prop :=
  ∀ (cache₀ cache bdata : ByteMem) (calls : List (Nat × Nat)),
    (∀ c ∈ calls, c.1 < 2 ^ 32 ∧ c.2 < 2 ^ 32) →
    v.ext2Reads (v.readInode n cache₀).1.losize (v.ext2Open n cache bdata).1 calls
      = calls.map (v.readOf (v.inodeOf n))

variable {v} {inode file : Ext2Inode} {buf m m' : ByteMem} {f : Ext2File} {a b n x : Nat}

/-! ## inodes -/

/-- The same inode, as far as reading goes. -/
structure SameFile (inode file : Ext2Inode) : Prop where
  type : inode.type = file.type
  losize : inode.losize = file.losize
  dbptr : ∀ i < 12, inode.dbptr i = file.dbptr i
  sibptr : inode.sibptr = file.sibptr

/-- An inode is made of its 128 bytes. -/
theorem sameFile_of_bytes (h : ∀ x < 128, m (a + x) = m' (b + x)) :
    SameFile (inodeAt m a) (inodeAt m' b) where
  type := halfAt_congr fun i hi => h i (by omega)
  losize := word_congr fun i hi => by
    rw [Nat.add_assoc, Nat.add_assoc]
    exact h _ (by omega)
  dbptr i hi := word_congr fun j hj => by
    rw [show a + 40 + 4 * i + j = a + (40 + 4 * i + j) by omega,
      show b + 40 + 4 * i + j = b + (40 + 4 * i + j) by omega]
    exact h _ (by omega)
  sibptr := word_congr fun i hi => by
    rw [Nat.add_assoc, Nat.add_assoc]
    exact h _ (by omega)

namespace Sound

theorem blocksize_eq (h : v.Sound) : v.blocksize = 2 ^ (10 + v.sbBlocksize) := by
  have hle : 2 ^ (10 + v.sbBlocksize) ≤ 2 ^ 31 :=
    Nat.pow_le_pow_right (by decide) (by have := h.shift; omega)
  rw [blocksize, Nat.shiftLeft_eq, u32_of_lt]
  · rw [Nat.pow_add]
  · rw [Nat.pow_add] at hle
    omega

theorem le_blocksize (h : v.Sound) : 1024 ≤ v.blocksize := by
  have hle : 2 ^ 10 ≤ 2 ^ (10 + v.sbBlocksize) :=
    Nat.pow_le_pow_right (by decide) (Nat.le_add_right _ _)
  rw [h.blocksize_eq]
  omega

theorem blocksize_le (h : v.Sound) : v.blocksize ≤ 2 ^ 31 := by
  rw [h.blocksize_eq]
  exact Nat.pow_le_pow_right (by decide) (by have := h.shift; omega)

theorem four_dvd (h : v.Sound) : 4 ∣ v.inodesize := by
  have hd := h.divides
  rw [h.blocksize_eq] at hd
  obtain ⟨k, -, hk⟩ := (Nat.dvd_prime_pow Nat.prime_two).mp hd
  have hlt : 2 ^ 6 < 2 ^ k := by
    have := h.record
    omega
  rw [hk]
  exact pow_dvd_pow 2 (by have := (Nat.pow_lt_pow_iff_right (by decide)).mp hlt; omega : 2 ≤ k)

end Sound

/-- The table has a place for the inode. -/
theorem Ext2Layout.place_inside (h : v.Ext2Layout n) :
    v.startLba * 512 + v.inodePlace n + v.inodesize ≤ DISK_SIZE := by
  have hi : v.index n + 1 ≤ v.nbginodes := Nat.mod_lt _ h.perGroup
  have hm := Nat.mul_le_mul_right v.inodesize hi
  rw [Nat.succ_mul] at hm
  have := h.inside
  rw [inodePlace]
  omega

/-! ## blocks -/

/-- A block that is in the partition is read as it is there. -/
theorem readBlock_part (hx : x < v.blocksize)
    (hb : v.startLba * 512 + b * v.blocksize + x < DISK_SIZE) :
    v.readBlock b buf x = v.part (b * v.blocksize + x) := by
  have hc := v.sectors_mul
  rw [DISK_SIZE] at hb
  rw [readBlock_inside hx, blockByte, part]
  generalize v.blocksize >>> 9 = c at hc ⊢
  have hbc : b * v.blocksize = 512 * (b * c) := by rw [← hc]; ring
  have hdiv : (b * v.blocksize + x) / 512 = b * c + x / 512 := by omega
  have hmod : (b * v.blocksize + x) % 512 = x % 512 := by omega
  rw [hdiv, hmod, u32_of_lt (by omega), Nat.add_assoc]

theorem IsBlock.readBlock (hb : v.IsBlock b) (hx : x < v.blocksize) :
    v.readBlock b buf x = v.part (b * v.blocksize + x) := by
  have h := hb.2
  rw [Nat.succ_mul] at h
  exact readBlock_part hx (by omega)

/-- Where the inode lies in its block. -/
theorem place_eq (h : v.Sound) (n : Nat) :
    v.index n * v.inodesize / v.blocksize * v.blocksize
        + v.index n % (v.blocksize / v.inodesize) * v.inodesize = v.index n * v.inodesize ∧
      v.index n % (v.blocksize / v.inodesize) * v.inodesize + v.inodesize ≤ v.blocksize := by
  obtain ⟨q, hq⟩ := h.divides
  have hs : 0 < v.inodesize := by have := h.record; omega
  have hp : 0 < q := by
    have := h.le_blocksize
    by_contra h0
    rw [Nat.eq_zero_of_not_pos h0, Nat.mul_zero] at hq
    omega
  have hdiv : v.blocksize / v.inodesize = q := by rw [hq, Nat.mul_div_cancel_left _ hs]
  have hquot : v.index n * v.inodesize / v.blocksize = v.index n / q := by
    rw [hq, Nat.mul_comm v.inodesize q, Nat.mul_div_mul_right _ _ hs]
  rw [hquot, hdiv]
  constructor
  · calc v.index n / q * v.blocksize + v.index n % q * v.inodesize
        = (q * (v.index n / q) + v.index n % q) * v.inodesize := by rw [hq]; ring
      _ = v.index n * v.inodesize := by rw [Nat.div_add_mod]
  · have hm := Nat.mul_le_mul_right v.inodesize (Nat.mod_lt (v.index n) hp : _ + 1 ≤ q)
    rw [Nat.succ_mul] at hm
    rw [hq, Nat.mul_comm v.inodesize q]
    exact hm

/-! ## finding an inode -/

theorem inodePlace_eq (h : v.Ext2Layout n) :
    v.inodePlace n = (v.bgdt (v.blockGroup n) + v.index n * v.inodesize / v.blocksize) * v.blocksize
      + v.index n % (v.blocksize / v.inodesize) * v.inodesize := by
  rw [inodePlace, Nat.add_mul, Nat.add_assoc, (place_eq h.toSound n).1]

/-- Without a wrap the inode is found at its place. -/
theorem foundPlace_of_small (h : v.Ext2Layout n) (hw : v.index n * v.inodesize < 2 ^ 32) :
    v.foundPlace n = v.inodePlace n := by
  rw [inodePlace_eq h, foundPlace, contBlock, u32_of_lt hw]

/-- With one it is looked for in an earlier block. -/
theorem foundPlace_of_large (h : v.Ext2Layout n) (hw : 2 ^ 32 ≤ v.index n * v.inodesize) :
    v.foundPlace n + v.blocksize ≤ v.inodePlace n := by
  have hb := h.blocksize_le
  have hs : 0 < v.blocksize := by have := h.le_blocksize; omega
  have hlt : v.contBlock (v.index n) + 1 ≤ v.index n * v.inodesize / v.blocksize := by
    rw [contBlock, ← Nat.add_div_right _ hs, u32]
    exact Nat.div_le_div_right (by omega)
  have hm := Nat.mul_le_mul_right v.blocksize hlt
  rw [inodePlace_eq h, foundPlace, Nat.add_mul, Nat.add_mul]
  rw [Nat.succ_mul] at hm
  omega

theorem foundPlace_le (h : v.Ext2Layout n) : v.foundPlace n ≤ v.inodePlace n := by
  by_cases hw : v.index n * v.inodesize < 2 ^ 32
  · rw [foundPlace_of_small h hw]
  · have := foundPlace_of_large h (by omega)
    omega

/-- **What `ext2_read_inode` gives**, whatever block was cached. -/
theorem readInode_found (h : v.Ext2Layout n) (cache : ByteMem) :
    SameFile (v.readInode n cache).1 (inodeAt v.part (v.foundPlace n)) := by
  have hin := h.place_inside
  have hle := foundPlace_le h
  have hs := h.le_blocksize
  have hrec := h.record
  have hoff := (place_eq h.toSound n).2
  have htab := h.descriptors
  rw [foundPlace] at hle ⊢
  rw [readInode]
  dsimp only
  have hne : v.bgdt (v.blockGroup n) + v.contBlock (v.index n) ≠ 0 := by omega
  generalize v.index n % (v.blocksize / v.inodesize) * v.inodesize = off at hle hoff ⊢
  generalize v.bgdt (v.blockGroup n) + v.contBlock (v.index n) = cont at hle hne ⊢
  have hcont : cont * 1024 ≤ cont * v.blocksize := Nat.mul_le_mul_left _ hs
  have hsz : DISK_SIZE < 2 ^ 32 * 1024 := by decide
  rw [u32_of_lt (by omega), readCachedBlock, if_neg hne]
  exact sameFile_of_bytes fun x hx => by
    rw [readBlock_part (by omega) (by omega), Nat.add_assoc]

/-! ## the bytes of a file -/

/-- The block a pointer says is brought in. -/
theorem readInodeBlock_pointer {i : Nat} (hs : SameFile inode file) (hf : v.FileFormed file)
    (hi : i * v.blocksize < file.losize) (buf : ByteMem) :
    (v.readInodeBlock inode i buf).1 = v.pointer file i ∧
      ∀ x < v.blocksize,
        (v.readInodeBlock inode i buf).2 x = v.part (v.pointer file i * v.blocksize + x) := by
  have hb := hf.blocks i hi
  have hlt : i < 12 + v.blocksize / 4 := Nat.lt_of_mul_lt_mul_right (Nat.lt_of_lt_of_le hi hf.size)
  have hshift : v.blocksize >>> 2 = v.blocksize / 4 := Nat.shiftRight_eq_div_pow _ _
  rw [readInodeBlock]
  by_cases hd : i < 12
  · rw [pointer, if_pos hd, ← hs.dbptr i hd] at hb ⊢
    simp only [if_pos hd, if_neg hb.1]
    exact ⟨trivial, fun x hx => hb.readBlock hx⟩
  · have ht : v.IsBlock file.sibptr :=
      hf.table (Nat.lt_of_le_of_lt (Nat.mul_le_mul_right _ (by omega)) hi)
    rw [pointer, if_neg hd, ← hs.sibptr] at hb ⊢
    rw [← hs.sibptr] at ht
    have hword : word (v.readBlock inode.sibptr buf) (4 * (i - 12))
        = word v.part (inode.sibptr * v.blocksize + 4 * (i - 12)) :=
      word_congr fun j hj => by rw [Nat.add_assoc, ht.readBlock (by omega)]
    simp only [if_neg hd, hshift, if_pos hlt, if_neg ht.1, hword, if_neg hb.1]
    exact ⟨trivial, fun x hx => hb.readBlock hx⟩

/-- An open file with the inode of `file`, whose buffer holds the block it says. -/
structure Loaded (v : Ext2Info) (file : Ext2Inode) (f : Ext2File) : Prop where
  same : SameFile f.inode file
  data : f.bblk ≠ 0 → ∀ x < v.blocksize, f.bdata x = v.part (v.pointer file f.bidx * v.blocksize + x)

theorem loadFile_loaded (h : Loaded v file f) (hf : v.FileFormed file)
    (hb : b * v.blocksize < file.losize) :
    Loaded v file (v.loadFile b f) ∧ (v.loadFile b f).bblk ≠ 0 ∧ (v.loadFile b f).bidx = b := by
  rw [loadFile]
  split
  · obtain ⟨hk, hd⟩ := readInodeBlock_pointer h.same hf hb f.bdata
    have hne := (hf.blocks b hb).1
    rw [← hk] at hne
    exact ⟨⟨h.same, fun _ => hd⟩, hne, rfl⟩
  · next hc =>
      obtain ⟨hz, hne⟩ := not_or.mp hc
      exact ⟨h, hz, (not_not.mp hne).symm⟩

/-- The loop of a read gets the bytes of the file, up to its end. -/
theorem ext2ReadFrom_bytes (hf : v.FileFormed file) (hlen : file.losize < 2 ^ 32) (k : Nat) :
    ∀ pos < 2 ^ 32, ∀ f, Loaded v file f →
      (v.ext2ReadFrom file.losize k pos f).1 =
          (List.range (min k (file.losize - pos))).map (fun i => v.fileByte file (pos + i)) ∧
        Loaded v file (v.ext2ReadFrom file.losize k pos f).2.1 := by
  induction k with
  | zero =>
      intro pos hpos f h
      exact ⟨by rw [Nat.zero_min]; rfl, h⟩
  | succ k ih =>
      intro pos hpos f h
      simp only [ext2ReadFrom, u32_of_lt hpos]
      by_cases hend : pos ≥ file.losize
      · rw [if_pos hend, Nat.sub_eq_zero_of_le hend, Nat.min_zero]
        exact ⟨rfl, h⟩
      · have hin : pos / v.blocksize * v.blocksize < file.losize :=
          Nat.lt_of_le_of_lt (Nat.div_mul_le_self _ _) (by omega)
        obtain ⟨hl, hne, hidx⟩ := loadFile_loaded h hf hin
        obtain ⟨ihb, ihl⟩ := ih (pos + 1) (by omega) _ hl
        simp only [if_neg hend, if_neg hne]
        refine ⟨?_, ihl⟩
        have hmin : min (k + 1) (file.losize - pos) = min k (file.losize - (pos + 1)) + 1 := by omega
        have hs : 0 < v.blocksize := by
          by_contra h0
          have hsz := hf.size
          rw [Nat.eq_zero_of_not_pos h0, Nat.mul_zero] at hsz
          omega
        rw [hmin, List.range_succ_eq_map, List.map_cons, List.map_map, ihb]
        refine List.cons_eq_cons.mpr ⟨?_, List.map_congr_left fun i _ => ?_⟩
        · rw [hl.data hne _ (Nat.mod_lt _ hs), hidx]
          rfl
        · rw [Function.comp_apply, Nat.add_assoc, Nat.add_comm 1 i]

/-- Every read of a run is right if the lengths are below 2^31. -/
theorem ext2Reads_eq (hf : v.FileFormed file) (hlen : file.losize < 2 ^ 31)
    (calls : List (Nat × Nat)) (hc : ∀ c ∈ calls, c.1 < 2 ^ 32 ∧ c.2 < 2 ^ 32)
    (h : Loaded v file f) :
    v.ext2Reads file.losize f calls = calls.map (v.readOf file) := by
  induction calls generalizing f with
  | nil => rfl
  | cons c calls ih =>
      obtain ⟨hb, hl⟩ :=
        ext2ReadFrom_bytes hf (by omega) c.2 c.1 (hc c List.mem_cons_self).1 f h
      rw [ext2Reads, List.map_cons, ext2Read,
        ih (fun d hd => hc d (List.mem_cons_of_mem c hd)) hl, hb]
      rw [List.length_map, List.length_range, toLong_of_lt (by omega)]
      rfl

theorem readsRight_of_small (h : v.Ext2Layout n) (hw : v.index n * v.inodesize < 2 ^ 32)
    (hb : v.blocksize ≤ 65536) (hf : v.FileFormed (v.inodeOf n)) : v.ReadsRight n := by
  intro cache₀ cache bdata calls hc
  have hfound : ∀ cache, SameFile (v.readInode n cache).1 (v.inodeOf n) := by
    intro cache
    rw [inodeOf, ← foundPlace_of_small h hw]
    exact readInode_found h cache
  have hlen : (v.inodeOf n).losize < 2 ^ 31 := by
    have hm := Nat.mul_le_mul (Nat.add_le_add_left (Nat.div_le_div_right hb : _ ≤ 65536 / 4) 12) hb
    have := hf.size
    omega
  rw [(hfound cache₀).losize]
  exact ext2Reads_eq hf hlen calls hc ⟨hfound cache, fun h0 => absurd rfl h0⟩

/-! ## a disk on which reading goes wrong -/

/-- The same volume with other contents. -/
def withDev (v : Ext2Info) (dev : Nat → ByteMem) : Ext2Info := { v with dev := dev }

theorem Ext2Layout.withDev (h : v.Ext2Layout n) (dev : Nat → ByteMem) :
    (v.withDev dev).Ext2Layout n where
  shift := h.shift
  record := h.record
  divides := h.divides
  perGroup := h.perGroup
  descriptors := h.descriptors
  inside := h.inside

/-- A disk all of whose words are 1, but for the length `len` of the inode. -/
def onesDisk (v : Ext2Info) (n len : Nat) : ByteMem :=
  setWord (v.inodePlace n + 4) len fun a => if a % 4 = 0 then 1 else 0

/-- The partition can hold any bytes. -/
theorem exists_part (v : Ext2Info) (disk : ByteMem) : ∃ dev, (v.withDev dev).part = disk := by
  refine ⟨fun s o => disk ((s - v.startLba) * 512 + o), ?_⟩
  funext a
  show disk ((v.startLba + a / 512 - v.startLba) * 512 + a % 512) = disk a
  congr 1
  omega

theorem word_onesDisk (len : Nat) (ha : a % 4 = 0)
    (hne : a + 4 ≤ v.inodePlace n + 4 ∨ v.inodePlace n + 8 ≤ a) : word (v.onesDisk n len) a = 1 := by
  rw [onesDisk, word_setWord_of_apart (by omega), word]
  have h1 : (a + 1) % 4 ≠ 0 := by omega
  have h2 : (a + 2) % 4 ≠ 0 := by omega
  have h3 : (a + 3) % 4 ≠ 0 := by omega
  simp only [ha, h1, h2, h3, if_true, if_false]
  rfl

theorem Ext2Layout.place_mod (h : v.Ext2Layout n) : v.inodePlace n % 4 = 0 := by
  have hb : 4 ∣ v.blocksize := Dvd.dvd.trans (by decide) v.dvd_blocksize
  exact Nat.mod_eq_zero_of_dvd
    (Nat.dvd_add (Dvd.dvd.mul_left hb _) (Dvd.dvd.mul_left h.four_dvd _))

theorem Ext2Layout.isBlock_one (h : v.Ext2Layout n) : v.IsBlock 1 := by
  have hm := Nat.add_le_add_left (Nat.mul_le_mul_right v.blocksize h.descriptors) (v.startLba * 512)
  exact ⟨one_ne_zero, hm.trans ((Nat.le_add_right _ _).trans h.inside)⟩

/-- The inode's file takes as many blocks as it needs, all of them block 1. -/
theorem fileFormed_onesDisk {dev : Nat → ByteMem} {len : Nat} (h : v.Ext2Layout n)
    (hp : (v.withDev dev).part = v.onesDisk n len) (hlen : len < 2 ^ 32)
    (hsz : len ≤ (12 + v.blocksize / 4) * v.blocksize) :
    ((v.withDev dev).inodeOf n).losize = len ∧
      (v.withDev dev).FileFormed ((v.withDev dev).inodeOf n) := by
  have hmod := h.place_mod
  have hbm : v.blocksize % 4 = 0 :=
    Nat.mod_eq_zero_of_dvd (Dvd.dvd.trans (by decide) v.dvd_blocksize)
  have hplace : 2 * v.blocksize ≤ v.inodePlace n :=
    Nat.le_trans (Nat.mul_le_mul_right _ h.descriptors) (Nat.le_add_right _ _)
  have hone : (v.withDev dev).IsBlock 1 := h.isBlock_one
  have hinode : (v.withDev dev).inodeOf n = inodeAt (v.onesDisk n len) (v.inodePlace n) := by
    rw [← hp]
    rfl
  have hlo : ((v.withDev dev).inodeOf n).losize = len := by
    rw [hinode]
    exact word_setWord hlen
  have hdb : ∀ i, ((v.withDev dev).inodeOf n).dbptr i = 1 := by
    intro i
    rw [hinode]
    exact word_onesDisk len (by omega) (by omega)
  have hsib : ((v.withDev dev).inodeOf n).sibptr = 1 := by
    rw [hinode]
    exact word_onesDisk len (by omega) (by omega)
  refine ⟨hlo, ?_, ?_, ?_⟩
  · rw [hlo]
    exact hsz
  · intro i hi
    rw [hlo] at hi
    have hlt : i < 12 + v.blocksize / 4 := Nat.lt_of_mul_lt_mul_right (Nat.lt_of_lt_of_le hi hsz)
    rw [pointer]
    split
    · rw [hdb]
      exact hone
    · have hw : word (v.onesDisk n len) (1 * v.blocksize + 4 * (i - 12)) = 1 :=
        word_onesDisk len (by omega) (by omega)
      rw [hsib, hp]
      exact hw.symm ▸ hone
  · intro _
    rw [hsib]
    exact hone

/-- A read never gets more bytes than the length leaves. -/
theorem length_ext2ReadFrom_le {len : Nat} (hlen : len < 2 ^ 32) (k : Nat) :
    ∀ pos < 2 ^ 32, ∀ f, (v.ext2ReadFrom len k pos f).1.length ≤ len - pos := by
  induction k with
  | zero =>
      intro pos hpos f
      exact Nat.zero_le _
  | succ k ih =>
      intro pos hpos f
      simp only [ext2ReadFrom, u32_of_lt hpos]
      by_cases hend : pos ≥ len
      · rw [if_pos hend]
        exact Nat.zero_le _
      · by_cases hz : (v.loadFile (pos / v.blocksize) f).bblk = 0
        · rw [if_neg hend, if_pos hz]
          exact Nat.zero_le _
        · have h := ih (pos + 1) (by omega) (v.loadFile (pos / v.blocksize) f)
          rw [if_neg hend, if_neg hz, List.length_cons]
          omega

/-- An inode that is looked for in an earlier block seems to have length 1. -/
theorem losize_found {dev : Nat → ByteMem} {len : Nat} (h : v.Ext2Layout n)
    (hw : 2 ^ 32 ≤ v.index n * v.inodesize) (hp : (v.withDev dev).part = v.onesDisk n len)
    (cache : ByteMem) : ((v.withDev dev).readInode n cache).1.losize = 1 := by
  have hle := foundPlace_of_large h hw
  have hb := h.le_blocksize
  have hmod : v.foundPlace n % 4 = 0 := by
    have hb4 : 4 ∣ v.blocksize := Dvd.dvd.trans (by decide) v.dvd_blocksize
    exact Nat.mod_eq_zero_of_dvd
      (Nat.dvd_add (Dvd.dvd.mul_left hb4 _) (Dvd.dvd.mul_left h.four_dvd _))
  have heq : (v.withDev dev).foundPlace n = v.foundPlace n := rfl
  rw [(readInode_found (h.withDev dev) cache).losize, hp, heq]
  exact word_onesDisk len (by omega) (by omega)

theorem not_readsRight_of_large {dev : Nat → ByteMem} (h : v.Ext2Layout n)
    (hw : 2 ^ 32 ≤ v.index n * v.inodesize) (hp : (v.withDev dev).part = v.onesDisk n 2)
    (hlo : ((v.withDev dev).inodeOf n).losize = 2) : ¬ (v.withDev dev).ReadsRight n := by
  intro hr
  have hcall := hr (fun _ => 0) (fun _ => 0) (fun _ => 0) [(0, 2)] (by simp)
  rw [losize_found h hw hp] at hcall
  have hbytes := congrArg (fun r => r.2.length) (List.cons.inj hcall).1
  have hle := length_ext2ReadFrom_le (v := v.withDev dev) (by decide : 1 < 2 ^ 32) 2 0 (by decide)
    ((v.withDev dev).ext2Open n (fun _ => 0) fun _ => 0).1
  simp only [readOf, hlo, List.length_map, List.length_range, ext2Read] at hbytes
  omega

/-- With large blocks a file can be so long that what a read of it returns
is no `kssize_t`. -/
theorem not_readsRight_of_long {dev : Nat → ByteMem}
    (hlo : ((v.withDev dev).inodeOf n).losize = 2 ^ 31) : ¬ (v.withDev dev).ReadsRight n := by
  intro hr
  have hcall := hr (fun _ => 0) (fun _ => 0) (fun _ => 0) [(0, 2 ^ 31)] (by simp)
  obtain ⟨hret, hbytes⟩ := Prod.mk.inj (List.cons.inj hcall).1
  rw [hbytes, List.length_map, List.length_range] at hret
  simp only [hlo] at hret
  exact absurd hret (by decide)

/-- A volume with blocks of 1 KiB. -/
def smallVolume : Ext2Info := ⟨fun _ _ => 0, 63, 0, 128, 64, 1, fun _ => 5⟩

/-- A volume with blocks of 64 KiB and inodes of 32 KiB. -/
def largeVolume : Ext2Info := ⟨fun _ _ => 0, 63, 6, 32768, 2 ^ 17 + 1, 1, fun _ => 5⟩

end Ext2Info

end Eclair
