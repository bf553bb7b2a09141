import Eclair.Ecfs.Alloc

/-!
# Eclair.Ecfs.Node

The block map of a file in `tools/mntecfs.c`: block `i` of the file is entry
`i + 46` of an array whose first `m = blksz / 4 - 1` entries are in the file
entry and whose others are in extension blocks, `m` in each.  The last word of
an array block links the next one.

`node_setblk` links missing extension blocks before it sets the entry; it
zeroes the block that the map has for the extension so far, which is block 0.
-/

namespace Eclair

open ByteMem

/-- The number of extension blocks that are tracked. -/
def N_TRACKEXT : Nat := 64

/-- `sizeof(ecfs_file_t) >> 2`. -/
def FILE_WORDS : Nat := 46

def ENOSPC : Int := 28

/-- The part of `node->file` that is kept while a file is open. -/
structure OpenInfo where
  isOpen : Bool
  flags : Nat
  arr : ByteMem
  blk : ByteMem
  bblk : Nat
  i : Nat
  fsz : Nat
  ablk : Nat

/-- `node_t`: the file entry, the extension blocks and the open file. -/
structure Node where
  blk : Nat
  ext : Nat → Nat
  file : OpenInfo

/-- `N_ABLK(n, i)`. -/
def Node.ablk (n : Node) (i : Nat) : Nat := if i = 0 then n.blk else n.ext (i - 1)

variable (g : Geometry)

/-- The number of entries of an array block: the last word is a link. -/
def Geometry.perBlock : Nat := g.blksz / 4 - 1

/-- The limit on the entries of a file, in `uint32_t`. -/
def Geometry.limit : Nat := u32 ((N_TRACKEXT + 1) * g.perBlock)

/-- `node_getext`, from round `i` on, with the last array block in `arr`. -/
def getExts (disk : Disk) : Nat → Nat → ByteMem → (Nat → Nat) → Nat → Nat
  | 0, _, _, ext => ext
  | k + 1, i, arr, ext =>
      let link := word arr (4 * g.perBlock)
      if link = 0 then ext
      else getExts disk k (i + 1) (readBlk g link arr disk) (Function.update ext i link)

/-- `node_getext`. -/
def nodeGetext (disk : Disk) (n : Node) (buf : ByteMem) : Node :=
  if n.blk = 0 then n
  else { n with ext := getExts g disk N_TRACKEXT 0 (readBlk g n.blk buf disk) n.ext }

/-- What `fs_open` sets; `arr` and `blk` are what `malloc` gives. -/
def Node.openFile (disk : Disk) (flags : Nat) (arr blk : ByteMem) (n : Node) : Node :=
  let arr := readBlk g n.blk arr disk
  { n with file := { isOpen := true, flags := flags, arr := arr, blk := blk, bblk := 0, i := 0,
                     fsz := word arr FILE_FSZ, ablk := 0 } }

/-- Keep `arr` as array block `k`. -/
def Node.keep (arr : ByteMem) (k : Nat) (n : Node) : Node :=
  { n with file := { n.file with arr := arr, ablk := k } }

/-- Read array block `k`, unless it is the one that is kept. -/
def Node.readArr (disk : Disk) (k : Nat) (n : Node) : Node :=
  if n.file.ablk ≠ k then n.keep (readBlk g (n.ablk k) n.file.arr disk) k else n

/-- `node_getblk`. -/
def nodeGetblk (disk : Disk) (i : Nat) (n : Node) : Nat × Node :=
  let i := u32 (i + FILE_WORDS)
  let m := g.perBlock
  if i ≥ g.limit then (0, n)
  else
    let n := n.readArr g disk (i / m)
    (word n.file.arr (4 * (i % m)), n)

/-- The loop of `node_setblk` that links missing extension blocks, from `j`
on; `false` is the return of `-ENOSPC`. -/
def linkExts : Nat → Nat → Maps → Node → Option (Bool × Maps × Node)
  | 0, _, s, n => some (true, s, n)
  | k + 1, j, s, n =>
      if n.ablk j ≠ 0 then linkExts k (j + 1) s n
      else (allocBlk g s).bind fun (ablkn, s) =>
        if ablkn = 0 then some (false, s, n)
        else
          let arr := setWord (4 * g.perBlock) ablkn (readBlk g (n.ablk (j - 1)) n.file.arr s.disk)
          let disk := writeBlk g (n.ablk (j - 1)) arr s.disk
          -- `ext[j-1]` is set only after the block is zeroed
          let arr := fill 0 0 g.blksz arr
          let disk := writeBlk g (n.ablk j) arr disk
          linkExts k (j + 1) { s with disk := disk }
            { n with ext := Function.update n.ext (j - 1) ablkn, file := { n.file with arr := arr } }

/-- `node_setblk`. -/
def nodeSetblk (i v : Nat) (s : Maps) (n : Node) : Option (Int × Maps × Node) :=
  let i := u32 (i + FILE_WORDS)
  let m := g.perBlock
  if i ≥ g.limit then some (-ENOSPC, s, n)
  else (linkExts g (i / m) 1 s n).bind fun (ok, s, n) =>
    if ok then
      let n := n.readArr g s.disk (i / m)
      let old := word n.file.arr (4 * (i % m))
      (if old ≠ 0 then freeBlk g old s else some s).map fun s =>
        let arr := setWord (4 * (i % m)) v n.file.arr
        (0, { s with disk := writeBlk g (n.ablk (i / m)) arr s.disk },
          { n with file := { n.file with arr := arr } })
    else some (-ENOSPC, s, n)

variable {g} {s s' : Maps} {n n' : Node} {disk disk' : Disk} {i j k l v b c : Nat} {arr : ByteMem}

@[simp] theorem Node.keep_blk : (n.keep arr k).blk = n.blk := rfl

@[simp] theorem Node.keep_ext : (n.keep arr k).ext = n.ext := rfl

@[simp] theorem Node.keep_ablk : (n.keep arr k).ablk l = n.ablk l := rfl

@[simp] theorem Node.keep_file_ablk : (n.keep arr k).file.ablk = k := rfl

@[simp] theorem Node.keep_file_arr : (n.keep arr k).file.arr = arr := rfl

/-! ## open nodes -/

/-- The array blocks of a node are different blocks of the volume. -/
structure Node.Shape (g : Geometry) (n : Node) : Prop where
  entry : n.blk ≠ 0
  inside : ∀ k, k ≤ N_TRACKEXT → n.ablk k ≠ 0 → g.nblkRsvd ≤ n.ablk k ∧ n.ablk k < g.nblk
  inj : ∀ k l, k ≤ N_TRACKEXT → l ≤ N_TRACKEXT → n.ablk k ≠ 0 → n.ablk k = n.ablk l → k = l

/-- The array block that is kept is the one on disk. -/
structure Node.Kept (g : Geometry) (disk : Disk) (n : Node) : Prop where
  le : n.file.ablk ≤ N_TRACKEXT
  there : n.ablk n.file.ablk ≠ 0
  same : ∀ i, i < g.blksz → n.file.arr i = disk (n.ablk n.file.ablk) i

/-- Entry `i` of the block map, 0 where no array block is linked or the index
is not tracked. -/
def blkAt (g : Geometry) (disk : Disk) (n : Node) (i : Nat) : Nat :=
  let i := i + FILE_WORDS
  if i ≥ g.limit ∨ n.ablk (i / g.perBlock) = 0 then 0
  else word (disk (n.ablk (i / g.perBlock))) (4 * (i % g.perBlock))

/-- The number of the array block of entry `i`. -/
def Geometry.arrOf (g : Geometry) (i : Nat) : Nat := (i + FILE_WORDS) / g.perBlock

theorem perBlock_pos (h : g.Valid) : 255 ≤ g.perBlock := by
  have hge := h.blksz_ge
  rw [Geometry.perBlock]
  omega

/-- The words of an array block. -/
theorem blksz_perBlock (h : g.Valid) : g.blksz = 4 * g.perBlock + 4 := by
  have hsz := h.blksz_eq
  have hge := h.blksz_ge
  rw [Geometry.perBlock]
  omega

/-- A tracked index is in one of the tracked array blocks. -/
theorem arrOf_le (h : i + FILE_WORDS < g.limit) : g.arrOf i ≤ N_TRACKEXT := by
  have hle : g.limit ≤ (N_TRACKEXT + 1) * g.perBlock := Nat.mod_le _ _
  rw [Geometry.arrOf, ← Nat.lt_succ_iff]
  refine Nat.div_lt_of_lt_mul ?_
  rw [Nat.mul_comm]
  exact Nat.lt_of_lt_of_le h hle

theorem limit_lt : g.limit < 2 ^ 32 := u32_lt _

theorem blkAt_linked (h : i + FILE_WORDS < g.limit) (hk : n.ablk (g.arrOf i) ≠ 0) :
    blkAt g disk n i = word (disk (n.ablk (g.arrOf i))) (4 * ((i + FILE_WORDS) % g.perBlock)) := by
  rw [blkAt, if_neg]
  · rfl
  · exact not_or.mpr ⟨by omega, hk⟩

theorem blkAt_untracked (h : g.limit ≤ i + FILE_WORDS) : blkAt g disk n i = 0 := if_pos (.inl h)

/-- The map depends on the array blocks only. -/
theorem blkAt_congr (hext : n'.ablk = n.ablk)
    (h : ∀ k x, k ≤ N_TRACKEXT → n.ablk k ≠ 0 → x < g.blksz → disk' (n.ablk k) x = disk (n.ablk k) x)
    (hv : g.Valid) : blkAt g disk' n' i = blkAt g disk n i := by
  have hsz := blksz_perBlock hv
  have hpos := perBlock_pos hv
  have hmod : (i + FILE_WORDS) % g.perBlock < g.perBlock := Nat.mod_lt _ (by omega)
  rw [blkAt, blkAt, hext]
  split
  · rfl
  · next hin =>
      obtain ⟨hlim, hk⟩ := not_or.mp hin
      exact word_congr fun x hx => h _ _ (arrOf_le (by omega)) hk (by omega)

/-- Reading an array block keeps it. -/
theorem readArr_spec (hs : n.Shape g) (hk : n.Kept g disk) (hle : k ≤ N_TRACKEXT)
    (hlink : n.ablk k ≠ 0) :
    ∃ arr, n.readArr g disk k = n.keep arr k ∧ ∀ x, x < g.blksz → arr x = disk (n.ablk k) x := by
  rw [Node.readArr]
  by_cases heq : n.file.ablk = k
  · refine ⟨n.file.arr, ?_, ?_⟩
    · rw [if_neg (not_not.mpr heq), ← heq]
      rfl
    · intro x hx
      rw [hk.same x hx, heq]
  · refine ⟨_, if_pos heq, fun x hx => ?_⟩
    have hin := (hs.inside k hle hlink).2
    rw [readBlk, if_neg (by omega), write, if_pos (by omega), Nat.sub_zero]

theorem kept_keep (hle : k ≤ N_TRACKEXT) (hlink : n.ablk k ≠ 0)
    (harr : ∀ x, x < g.blksz → arr x = disk (n.ablk k) x) : (n.keep arr k).Kept g disk :=
  ⟨hle, hlink, harr⟩

/-- **`node_getblk`** returns the entry, when its array block is linked. -/
theorem nodeGetblk_spec (hv : g.Valid) (hs : n.Shape g) (hk : n.Kept g disk)
    (hi : i + FILE_WORDS < 2 ^ 32) (hlink : i + FILE_WORDS < g.limit → n.ablk (g.arrOf i) ≠ 0) :
    ∃ arr l, nodeGetblk g disk i n = (blkAt g disk n i, n.keep arr l) ∧
      (n.keep arr l).Kept g disk := by
  have hsz := blksz_perBlock hv
  have hpos := perBlock_pos hv
  have hmod : (i + FILE_WORDS) % g.perBlock < g.perBlock := Nat.mod_lt _ (by omega)
  rw [nodeGetblk, u32_of_lt hi]
  by_cases hlim : i + FILE_WORDS < g.limit
  · have hl := hlink hlim
    obtain ⟨arr, hr, harr⟩ := readArr_spec hs hk (arrOf_le hlim) hl
    refine ⟨arr, g.arrOf i, ?_, kept_keep (arrOf_le hlim) hl harr⟩
    rw [if_neg (by omega), show (i + FILE_WORDS) / g.perBlock = g.arrOf i from rfl, hr,
      blkAt_linked hlim hl]
    refine Prod.ext ?_ rfl
    show word arr _ = word _ _
    refine word_congr fun x hx => ?_
    apply harr
    omega
  · refine ⟨n.file.arr, n.file.ablk, ?_, hk⟩
    rw [if_pos (by omega), blkAt_untracked (by omega)]
    rfl

end Eclair
