import Eclair.Ecfs.Driver
import Eclair.Ecfs.BlockMap

/-!
# Eclair.Ecfs.Reader

The kernel's EcFS driver on files that `mntecfs` laid out.

`read_node_info` takes the link to an extension block from the word behind the
block, so it looks outside its buffer whatever the file (`node_info_outside`).
`ecfs_read` returns the bytes that are stored, looking at nothing but the
file's blocks, if and only if all its block numbers are in the file entry; then
`ecfs_filldir` lists the entries of a directory (`reader_agrees`).
-/

namespace Eclair

open ByteMem System

/-! ## what is stored -/

/-- The volume on the device, by blocks. -/
def EcfsInfo.disk (v : EcfsInfo) : Disk :=
  fun b x => v.dev (v.startLba + b * (v.blksz / 512) + x / 512) (x % 512)

/-- A file as `mntecfs` lays it out, on the volume that the driver has mounted. -/
structure LaidOut (g : Geometry) (v : EcfsInfo) (n : Node) : Prop where
  pow : ∃ k, 10 ≤ k ∧ k ≤ 31 ∧ g.blksz = 2 ^ k
  blksz : v.blksz = g.blksz
  fits : v.startLba + g.nblk * (g.blksz / 512) ≤ 2 ^ 32
  shape : n.Shape g
  chain : ∀ k, k < N_TRACKEXT → n.ablk k ≠ 0 →
    word (v.disk (n.ablk k)) (4 * g.perBlock) = n.ablk (k + 1)
  data : ∀ i, blkAt g v.disk n i < g.nblk

/-- Both sides track the first `cnt` entries, and their array blocks are there. -/
def Tracked (g : Geometry) (v : EcfsInfo) (n : Node) (cnt : Nat) : Prop :=
  ∀ i, i < cnt → i + FILE_WORDS < v.limit ∧ i + FILE_WORDS < g.limit ∧ n.Linked g i

/-- The first `cnt` entries are in the file entry itself. -/
def Direct (g : Geometry) (cnt : Nat) : Prop := cnt + FILE_WORDS ≤ g.perBlock

instance (g : Geometry) (cnt : Nat) : Decidable (Direct g cnt) :=
  inferInstanceAs (Decidable (cnt + FILE_WORDS ≤ g.perBlock))

/-- The size of the file. -/
def fileSize (v : EcfsInfo) (n : Node) : Nat := word (v.disk n.blk) FILE_FSZ

/-- The number of blocks that the size takes. -/
def fileBlocks (g : Geometry) (v : EcfsInfo) (n : Node) : Nat :=
  (fileSize v n + (g.blksz - 1)) / g.blksz

/-- The number of entries of a directory. -/
def dirBlocks (v : EcfsInfo) (n : Node) : Nat := word (v.disk n.blk) FILE_NBLK

/-- The bytes stored from `pos` on, at most `k`, up to a block that is not there. -/
def storedBytes (g : Geometry) (disk : Disk) (n : Node) : Nat → Nat → Bytes
  | 0, _ => []
  | k + 1, pos =>
      let b := blkAt g disk n (pos / g.blksz)
      if b = 0 then [] else disk b (pos % g.blksz) :: storedBytes g disk n k (pos + 1)

/-- A block of the file: an array block or a data block. -/
def Recorded (g : Geometry) (disk : Disk) (n : Node) (b : Nat) : Prop :=
  b ≠ 0 ∧ ((∃ k, k ≤ N_TRACKEXT ∧ b = n.ablk k) ∨ ∃ i, b = blkAt g disk n i)

/-- The driver may look at this for the file. -/
def Access.Fine (g : Geometry) (disk : Disk) (n : Node) : Access → Prop
  | block b => Recorded g disk n b
  | word i => i < g.blksz / 4
  | byte i => i < g.blksz

/-- The node that the driver makes for file entry `b`, with a buffer that held `bdata`. -/
def driverNode (v : EcfsInfo) (b : Nat) (parent : Option EcfsNode) (bdata : ByteMem) : EcfsNode :=
  (v.readNodeInfo { ecfsNodeNew parent 0 with inode := b } none bdata).1

/-- An open file under calls of `ecfs_read`, with an offset and a size. -/
def reader (v : EcfsInfo) (e : EcfsNode) : System EcfsFile (Nat × Nat) where
  init f := ∃ bdata adata, f = (v.ecfsOpen e bdata adata).1
  step f c f' := f' = (v.ecfsRead e c.1 c.2 f).2.1

/-- Opening and reading the file, after any calls, return what is stored and
look at nothing else. -/
structure ReadsFile (g : Geometry) (v : EcfsInfo) (n : Node) (e : EcfsNode) : Prop where
  opening : ∀ bdata adata, ∀ a ∈ (v.ecfsOpen e bdata adata).2, a.Fine g v.disk n
  reading : ∀ f, (reader v e).Reachable (fun _ c => c.1 < 2 ^ 32) f → ∀ offset nbytes,
    offset < 2 ^ 32 →
      (v.ecfsRead e offset nbytes f).1 =
        storedBytes g v.disk n (min nbytes (fileSize v n - offset)) offset ∧
      ∀ a ∈ (v.ecfsRead e offset nbytes f).2.2, a.Fine g v.disk n

/-- The name of the file entry `b` ends in its field. -/
def Named (disk : Disk) (b : Nat) : Prop := ∃ name, CStr (· < FS_NAMESZ) (disk b) 0 name

/-- Directory entry `d`, made in `mem`, shows file entry `b`. -/
structure Shows (disk : Disk) (mem : ByteMem) (b : Nat) (d : Dirent) : Prop where
  name : ∃ name, CStr (· < FS_NAMESZ) (disk b) 0 name ∧ CStr (· < FS_NAMESZ) d.mem 0 name
  behind : ∀ x, FS_NAMESZ ≤ x → d.mem x = mem x
  node : ∃ c, d.node = some c ∧ c.inode = b ∧ c.len = word (disk b) FILE_FSZ ∧
    (hasFlag c.flags FS_FILE = hasFlag (word (disk b) FILE_FLAGS) ECFS_FLAG_REG ∧
      hasFlag c.flags FS_DIRECTORY = hasFlag (word (disk b) FILE_FLAGS) ECFS_FLAG_DIR ∧
      hasFlag c.flags FS_SYMLINK = hasFlag (word (disk b) FILE_FLAGS) ECFS_FLAG_SLINK)

/-- `ecfs_filldir` lists the entries of the directory that are set, in order. -/
def ListsDir (g : Geometry) (v : EcfsInfo) (n : Node) (e : EcfsNode) : Prop :=
  ∀ bdata dentbuf dot dotdot mem, ∃ children,
    v.ecfsFilldir e bdata dentbuf dot dotdot mem =
      [direntNamed (literal [0x2e]) dot, direntNamed (literal [0x2e, 0x2e]) dotdot] ++ children ∧
    List.Forall₂ (fun i d => Shows v.disk (mem i) (blkAt g v.disk n i) d)
      ((List.range (dirBlocks v n)).filter fun i => blkAt g v.disk n i ≠ 0) children

variable {g : Geometry} {v : EcfsInfo} {n : Node} {e : EcfsNode} {f : EcfsFile} {b cnt i j k pos x : Nat}
  {buf mem : ByteMem} {name : Bytes}

/-! ## reading blocks -/

namespace LaidOut

theorem blksz_ge (h : LaidOut g v n) : 1024 ≤ g.blksz := by
  obtain ⟨k, h1, -, h2⟩ := h.pow
  rw [h2]
  exact Nat.pow_le_pow_right (n := 2) (by decide) h1

/-- A block is a whole number of sectors. -/
theorem dvd_blksz (h : LaidOut g v n) : 512 ∣ g.blksz := by
  obtain ⟨k, h1, -, h2⟩ := h.pow
  rw [h2]
  exact Nat.pow_dvd_pow 2 (Nat.le_of_succ_le h1)

theorem blksz_perBlock (h : LaidOut g v n) : g.blksz = 4 * g.perBlock + 4 := by
  have hge := h.blksz_ge
  have hdvd := h.dvd_blksz
  rw [Geometry.perBlock]
  omega

theorem perBlock_ge (h : LaidOut g v n) : 255 ≤ g.perBlock := by
  have hge := h.blksz_ge
  have hsz := h.blksz_perBlock
  omega

theorem entry_lt (h : LaidOut g v n) : n.blk < g.nblk :=
  (h.shape.inside 0 (Nat.zero_le _) h.shape.entry).2

/-- **`read_block`** reads a block of the volume. -/
theorem readBlock_lt (h : LaidOut g v n) (hb : b < g.nblk) (hx : x < g.blksz) :
    v.readBlock b buf x = v.disk b x := by
  have hdvd := h.dvd_blksz
  have hfits := h.fits
  have hmul : (b + 1) * (g.blksz / 512) ≤ g.nblk * (g.blksz / 512) := Nat.mul_le_mul_right _ hb
  rw [Nat.succ_mul] at hmul
  have hge := h.blksz_ge
  have hlba : v.startLba + b * (g.blksz / 512) < 2 ^ 32 := by omega
  rw [EcfsInfo.readBlock, EcfsInfo.disk, h.blksz, show 2 ^ 9 = 512 from rfl, u32_of_lt hlba, write,
    if_pos (by omega), Nat.sub_zero]

/-- What is behind the block stays. -/
theorem readBlock_behind (h : LaidOut g v n) (hx : g.blksz ≤ x) : v.readBlock b buf x = buf x := by
  have hdvd := h.dvd_blksz
  rw [EcfsInfo.readBlock, h.blksz, show 2 ^ 9 = 512 from rfl, write_outside (by omega)]

/-- A word of a block that was read. -/
theorem word_readBlock (h : LaidOut g v n) (hb : b < g.nblk) (hx : x + 4 ≤ g.blksz) :
    word (v.readBlock b buf) x = word (v.disk b) x :=
  word_congr fun i hi => h.readBlock_lt hb (by omega)

theorem perBlock_eq (h : LaidOut g v n) : v.blksz / 4 - 1 = g.perBlock := by
  rw [h.blksz, Geometry.perBlock]

end LaidOut

/-! ## nodes -/

theorem driverNode_inode (parent : Option EcfsNode) : (driverNode v b parent buf).inode = b := rfl

theorem driverNode_len (h : LaidOut g v n) (parent : Option EcfsNode) (buf : ByteMem) :
    (driverNode v n.blk parent buf).len = fileSize v n := by
  have hge := h.blksz_ge
  have hoff : FILE_FSZ = 168 := rfl
  exact h.word_readBlock h.entry_lt (by omega)

/-- **`read_node_info`** looks at the word behind the block. -/
theorem node_info_outside (h : LaidOut g v n) (e : EcfsNode) (dent : Option ByteMem) :
    ¬ ∀ a ∈ (v.readNodeInfo e dent buf).2.2.2, a.Fine g v.disk n := by
  intro hall
  have hmem : Access.word (v.blksz / 4) ∈ (v.readNodeInfo e dent buf).2.2.2 := by
    rw [EcfsInfo.readNodeInfo]
    refine List.mem_cons_of_mem _ ?_
    show _ ∈ (v.readExts (7 + 1) 0 _ e.ext).2.2
    rw [EcfsInfo.readExts]
    dsimp only
    split
    · exact List.mem_singleton_self _
    · exact List.mem_cons_self
  have hfine : v.blksz / 4 < g.blksz / 4 := hall _ hmem
  rw [h.blksz] at hfine
  exact Nat.lt_irrefl _ hfine

/-- When a zero word is behind the buffer, the driver has no extension blocks. -/
theorem driverNode_ext (h : LaidOut g v n) (parent : Option EcfsNode) :
    (driverNode v n.blk parent fun _ => 0).ext = fun _ => 0 := by
  have hdvd := h.dvd_blksz
  have hword : word (v.readBlock n.blk fun _ => 0) (4 * (v.blksz / 4)) = 0 := by
    have hcongr : word (v.readBlock n.blk fun _ => 0) (4 * (v.blksz / 4)) = word (fun _ => 0) 0 :=
      word_congr fun x _ => h.readBlock_behind (by
        have hsame := h.blksz
        omega)
    rw [hcongr]
    rfl
  show (v.readExts (7 + 1) 0 (v.readBlock n.blk fun _ => 0) (ecfsNodeNew parent 0).ext).1 = _
  rw [EcfsInfo.readExts, hword]
  dsimp only
  rw [if_pos rfl]
  cases parent with
  | none => rfl
  | some p => rfl

/-! ## the block map -/

/-- What is kept while the file is open is as it is on disk. -/
structure Caches (g : Geometry) (v : EcfsInfo) (n : Node) (f : EcfsFile) : Prop where
  ablki : f.ablki = 0
  adata : ∀ x, x < g.blksz → f.adata x = v.disk n.blk x
  bblk : f.bblk ≠ 0 → f.bblk = blkAt g v.disk n f.bidx
  bdata : f.bblk ≠ 0 → ∀ x, x < g.blksz → f.bdata x = v.disk f.bblk x

/-- **`get_node_block`** of an entry of the file entry. -/
theorem getNodeBlock_direct (h : LaidOut g v n) (ht : Tracked g v n cnt) (hi : i < cnt)
    (hd : i + FILE_WORDS < g.perBlock) (hbuf : ∀ x, x < g.blksz → buf x = v.disk n.blk x) :
    v.getNodeBlock e i 0 buf = (blkAt g v.disk n i, 0, buf, [.word (i + FILE_WORDS)]) := by
  obtain ⟨hlim, hlim', -⟩ := ht i hi
  have hsz := h.blksz_perBlock
  have hlt : v.limit < 2 ^ 32 := u32_lt _
  have hzero : (i + FILE_WORDS) / g.perBlock = 0 := Nat.div_eq_of_lt hd
  have harr : g.arrOf i = 0 := hzero
  have hentry : n.ablk 0 ≠ 0 := h.shape.entry
  have hword : word buf (4 * (i + FILE_WORDS)) = blkAt g v.disk n i := by
    rw [blkAt_linked hlim' (by rw [harr]; exact hentry), harr, Nat.mod_eq_of_lt hd]
    exact word_congr fun x _ => hbuf _ (by omega)
  rw [EcfsInfo.getNodeBlock, u32_of_lt (by omega), h.perBlock_eq]
  dsimp only
  rw [if_neg (by omega), hzero, if_neg (not_not.mpr rfl), Nat.mod_eq_of_lt hd, hword]

/-- Without extension blocks an entry behind the file entry is looked for in block 0. -/
theorem getNodeBlock_zero (h : LaidOut g v n) (hd : g.perBlock = i + FILE_WORDS)
    (hlim : i + FILE_WORDS < v.limit) (hext : e.ext = fun _ => 0) :
    Access.block 0 ∈ (v.getNodeBlock e i 0 buf).2.2.2 := by
  have hge := h.perBlock_ge
  have hlt : v.limit < 2 ^ 32 := u32_lt _
  have hone : (i + FILE_WORDS) / g.perBlock = 1 := by
    rw [hd]
    exact Nat.div_self (by omega)
  have hablk : e.ablk 1 = 0 := by
    rw [EcfsNode.ablk, if_neg (by decide), hext]
  rw [EcfsInfo.getNodeBlock, u32_of_lt (by omega), h.perBlock_eq]
  dsimp only
  rw [if_neg (by omega), hone, if_pos (by decide), hablk]
  exact List.mem_cons_self

/-! ## reading a file -/

/-- Bringing in a block that the file entry records. -/
theorem loadBlock_spec (h : LaidOut g v n) (ht : Tracked g v n cnt) (hi : i < cnt)
    (hd : i + FILE_WORDS < g.perBlock) (hc : Caches g v n f) :
    ∃ f' log, v.loadBlock e i f = (decide (blkAt g v.disk n i ≠ 0), f', log) ∧ Caches g v n f' ∧
      (blkAt g v.disk n i ≠ 0 → f'.bblk = blkAt g v.disk n i) ∧
      ∀ a ∈ log, a.Fine g v.disk n := by
  have hsz := h.blksz_perBlock
  have hfine : (Access.word (i + FILE_WORDS)).Fine g v.disk n := by
    show i + FILE_WORDS < g.blksz / 4
    omega
  rw [EcfsInfo.loadBlock]
  by_cases hload : f.bblk = 0 ∨ i ≠ f.bidx
  · rw [if_pos hload, hc.ablki, getNodeBlock_direct h ht hi hd hc.adata]
    dsimp only
    by_cases h0 : blkAt g v.disk n i = 0
    · rw [if_pos h0, decide_eq_false (not_not.mpr h0)]
      refine ⟨_, _, rfl, ⟨rfl, hc.adata, fun hb => absurd h0 hb, fun hb => absurd h0 hb⟩,
        fun hb => absurd h0 hb, ?_⟩
      intro a ha
      rw [List.mem_singleton.mp ha]
      exact hfine
    · rw [if_neg h0, decide_eq_true h0]
      refine ⟨_, _, rfl, ⟨rfl, hc.adata, fun _ => rfl, fun _ x hx => ?_⟩, fun _ => rfl, ?_⟩
      · exact h.readBlock_lt (h.data i) hx
      · intro a ha
        rw [List.mem_append, List.mem_singleton, List.mem_singleton] at ha
        cases ha with
        | inl hw =>
            rw [hw]
            exact hfine
        | inr hb =>
            rw [hb]
            exact ⟨h0, .inr ⟨i, rfl⟩⟩
  · obtain ⟨hb, hidx⟩ := not_or.mp hload
    have hat := hc.bblk hb
    rw [← not_not.mp hidx] at hat
    have h0 : blkAt g v.disk n i ≠ 0 := by
      rw [← hat]
      exact hb
    rw [if_neg hload, decide_eq_true h0]
    exact ⟨f, [], rfl, hc, fun _ => hat, fun a ha => by cases ha⟩

/-- **The loop of `ecfs_read`**, while the file entry records all blocks. -/
theorem ecfsReadFrom_spec (h : LaidOut g v n) (ht : Tracked g v n cnt) (hd : Direct g cnt)
    (hcnt : e.len ≤ cnt * g.blksz) (hlen : e.len < 2 ^ 32) (k : Nat) (hc : Caches g v n f)
    (hpos : pos < 2 ^ 32) :
    ∃ f' log, v.ecfsReadFrom e k pos f =
        (storedBytes g v.disk n (min k (e.len - pos)) pos, f', log) ∧
      Caches g v n f' ∧ ∀ a ∈ log, a.Fine g v.disk n := by
  have hge := h.blksz_ge
  induction k generalizing pos f with
  | zero =>
      refine ⟨f, [], ?_, hc, fun a ha => by cases ha⟩
      rw [EcfsInfo.ecfsReadFrom, Nat.zero_min]
      rfl
  | succ k ih =>
      rw [EcfsInfo.ecfsReadFrom, u32_of_lt hpos, h.blksz]
      by_cases hend : pos ≥ e.len
      · refine ⟨f, [], ?_, hc, fun a ha => by cases ha⟩
        rw [if_pos hend, Nat.sub_eq_zero_of_le hend, Nat.min_zero]
        rfl
      · have hi : pos / g.blksz < cnt := (Nat.div_lt_iff_lt_mul (by omega)).mpr (by omega)
        have hd' : pos / g.blksz + FILE_WORDS < g.perBlock := by
          have hcap : cnt + FILE_WORDS ≤ g.perBlock := hd
          omega
        obtain ⟨f₁, log₁, hload, hc₁, hat, hfine₁⟩ := loadBlock_spec h ht hi hd' hc (e := e)
        have hmin : min (k + 1) (e.len - pos) = min k (e.len - (pos + 1)) + 1 := by omega
        rw [if_neg hend, hload, hmin, storedBytes]
        dsimp only
        by_cases h0 : blkAt g v.disk n (pos / g.blksz) = 0
        · rw [decide_eq_false (not_not.mpr h0), if_neg Bool.false_ne_true, if_pos h0]
          exact ⟨f₁, log₁, rfl, hc₁, hfine₁⟩
        · obtain ⟨f₂, log₂, hrun, hc₂, hfine₂⟩ := ih hc₁ (show pos + 1 < 2 ^ 32 by omega)
          have hmod : pos % g.blksz < g.blksz := Nat.mod_lt pos (by omega)
          have hb : f₁.bblk ≠ 0 := by
            rw [hat h0]
            exact h0
          rw [decide_eq_true h0, if_pos rfl, if_neg h0, hrun, hc₁.bdata hb _ hmod, hat h0]
          refine ⟨f₂, _, rfl, hc₂, ?_⟩
          intro a ha
          rw [List.mem_append, List.mem_cons] at ha
          obtain ha | ha | ha := ha
          · exact hfine₁ a ha
          · rw [ha]
            exact hmod
          · exact hfine₂ a ha

theorem caches_open (h : LaidOut g v n) (he : e.inode = n.blk) (bdata adata : ByteMem) :
    Caches g v n (v.ecfsOpen e bdata adata).1 := by
  refine ⟨rfl, fun x hx => ?_, fun hb => absurd rfl hb, fun hb => absurd rfl hb⟩
  show v.readBlock e.inode adata x = _
  rw [he]
  exact h.readBlock_lt h.entry_lt hx

/-- The size fits in the blocks that it takes. -/
theorem fileSize_le (h : LaidOut g v n) : fileSize v n ≤ fileBlocks g v n * g.blksz := by
  have hge := h.blksz_ge
  have hdm := Nat.div_add_mod (fileSize v n + (g.blksz - 1)) g.blksz
  have hmod := Nat.mod_lt (fileSize v n + (g.blksz - 1)) (y := g.blksz) (by omega)
  rw [fileBlocks, Nat.mul_comm]
  omega

/-- Files without extension blocks are read right. -/
theorem readsFile_of_direct (h : LaidOut g v n) (ht : Tracked g v n (fileBlocks g v n))
    (hd : Direct g (fileBlocks g v n)) (parent : Option EcfsNode) (buf : ByteMem) :
    ReadsFile g v n (driverNode v n.blk parent buf) := by
  have hlen := driverNode_len h parent buf
  have hlt : fileSize v n < 2 ^ 32 := word_lt
  have hread := fun k (f : EcfsFile) (hc : Caches g v n f) pos (hpos : pos < 2 ^ 32) =>
    ecfsReadFrom_spec (e := driverNode v n.blk parent buf) h ht hd
      (by rw [hlen]; exact fileSize_le h) (by rw [hlen]; exact hlt) k hc hpos
  rw [hlen] at hread
  constructor
  case opening =>
    intro bdata adata a ha
    rw [List.mem_singleton.mp ha]
    exact ⟨h.shape.entry, .inl ⟨0, Nat.zero_le _, rfl⟩⟩
  case reading =>
    intro f hf offset nbytes hoff
    have hc : Caches g v n f := by
      apply hf.invariant
      · intro f hinit
        obtain ⟨bdata, adata, rfl⟩ := hinit
        exact caches_open h rfl bdata adata
      · intro f c f' hc hok hst
        obtain ⟨f'', log, hrun, hc', -⟩ := hread c.2 f hc c.1 hok
        have hst' : f' = (v.ecfsReadFrom (driverNode v n.blk parent buf) c.2 c.1 f).2.1 := hst
        rw [hst', hrun]
        exact hc'
    obtain ⟨f', log, hrun, -, hfine⟩ := hread nbytes f hc offset hoff
    rw [EcfsInfo.ecfsRead, hrun]
    exact ⟨rfl, hfine⟩

/-- Loading a block looks at what finding it looks at. -/
theorem mem_loadBlock {a : Access} (hb : f.bblk = 0)
    (ha : a ∈ (v.getNodeBlock e i f.ablki f.adata).2.2.2) : a ∈ (v.loadBlock e i f).2.2 := by
  rw [EcfsInfo.loadBlock, if_pos (Or.inl hb)]
  dsimp only
  split
  · exact ha
  · exact List.mem_append_left _ ha

/-- Reading a byte looks at what loading its block looks at. -/
theorem mem_ecfsReadFrom {a : Access} (hpos : u32 pos < e.len)
    (ha : a ∈ (v.loadBlock e (u32 pos / v.blksz) f).2.2) :
    a ∈ (v.ecfsReadFrom e (k + 1) pos f).2.2 := by
  rw [EcfsInfo.ecfsReadFrom, if_neg (Nat.not_le_of_lt hpos)]
  dsimp only
  split
  · exact List.mem_append_left _ ha
  · exact ha

/-- A file with a block behind the file entry makes the driver read block 0,
if a zero word is behind its buffer. -/
theorem direct_of_readsFile (h : LaidOut g v n) (ht : Tracked g v n (fileBlocks g v n))
    (hr : ReadsFile g v n (driverNode v n.blk none fun _ => 0)) : Direct g (fileBlocks g v n) := by
  by_contra hdirect
  have hpast : ¬ fileBlocks g v n + FILE_WORDS ≤ g.perBlock := hdirect
  have hge := h.perBlock_ge
  have hsz := h.blksz_ge
  have hwords : FILE_WORDS = 46 := rfl
  obtain ⟨i, hi⟩ : ∃ i, g.perBlock = i + FILE_WORDS := ⟨g.perBlock - 46, by omega⟩
  have hcnt : i < fileBlocks g v n := by omega
  have hpos : i * g.blksz < fileSize v n := by
    have hle := Nat.div_mul_le_self (fileSize v n + (g.blksz - 1)) g.blksz
    have hmul : (i + 1) * g.blksz ≤ fileBlocks g v n * g.blksz := Nat.mul_le_mul_right _ hcnt
    rw [Nat.succ_mul] at hmul
    rw [fileBlocks] at hmul
    omega
  have hlt : fileSize v n < 2 ^ 32 := word_lt
  have hlen := driverNode_len h none fun _ => 0
  obtain ⟨e, he⟩ : ∃ e, driverNode v n.blk none (fun _ => 0) = e := ⟨_, rfl⟩
  have hext := driverNode_ext h none
  rw [he] at hr hlen hext
  obtain ⟨-, hfine⟩ := hr.reading _ (Reachable.of_init ⟨fun _ => 0, fun _ => 0, rfl⟩) (i * g.blksz) 1
    (by omega)
  have hzero : Access.block 0 ∈ (v.getNodeBlock e i 0 (v.readBlock e.inode fun _ => 0)).2.2.2 :=
    getNodeBlock_zero h hi (ht i hcnt).1 hext
  have hoff : u32 (i * g.blksz) = i * g.blksz := u32_of_lt (by omega)
  have hidx : u32 (i * g.blksz) / v.blksz = i := by
    rw [hoff, h.blksz, Nat.mul_div_cancel _ (by omega)]
  refine (hfine (.block 0) (mem_ecfsReadFrom ?_ ?_)).1 rfl
  · rw [hoff, hlen]
    exact hpos
  · rw [hidx]
    exact mem_loadBlock rfl hzero

/-! ## directories -/

/-- A name that ends in its field is copied, and nothing behind the field changes. -/
theorem strncpy_name (dst : ByteMem) (h : CStr (· < FS_NAMESZ) buf 0 name) :
    CStr (· < FS_NAMESZ) (strncpy buf FS_NAMESZ 0 dst) 0 name ∧
      ∀ x, FS_NAMESZ ≤ x → strncpy buf FS_NAMESZ 0 dst x = dst x := by
  have hlen : 0 + name.length < FS_NAMESZ := h.inside _ (Nat.le_refl _)
  rw [Nat.zero_add] at hlen
  have hbyte : ∀ l, l ≤ name.length → buf l = name.getD l 0 := by
    intro l hl
    rw [← h.byte l hl, Nat.zero_add]
  have hcopy : ∀ x, strncpy buf FS_NAMESZ 0 dst x =
      if 0 ≤ x ∧ x < name.length then buf x else if x = name.length then 0 else dst x := by
    intro x
    refine strncpy_at (fun l _ hl => ?_) (fun _ => ?_) (Nat.zero_le _) (by omega)
    · rw [hbyte l (Nat.le_of_lt hl), List.getD_eq_getElem _ _ hl]
      exact h.nonzero _ (List.getElem_mem hl)
    · rw [hbyte _ (Nat.le_refl _), List.getD_eq_default _ _ (Nat.le_refl _)]
  refine ⟨⟨h.nonzero, h.inside, fun l hl => ?_⟩, fun x hx => ?_⟩
  · rw [Nat.zero_add, hcopy]
    by_cases hlt : l < name.length
    · rw [if_pos ⟨Nat.zero_le l, hlt⟩, hbyte l hl]
    · rw [if_neg (by omega), if_pos (by omega), List.getD_eq_default _ _ (by omega)]
  · rw [hcopy, if_neg (by omega), if_neg (by omega)]

/-- **`translate_type_flags`** keeps the type. -/
theorem translateTypeFlags_spec (fl : Nat) :
    hasFlag (translateTypeFlags fl) FS_FILE = hasFlag fl ECFS_FLAG_REG ∧
      hasFlag (translateTypeFlags fl) FS_DIRECTORY = hasFlag fl ECFS_FLAG_DIR ∧
      hasFlag (translateTypeFlags fl) FS_SYMLINK = hasFlag fl ECFS_FLAG_SLINK := by
  rw [translateTypeFlags]
  cases hasFlag fl ECFS_FLAG_REG <;> cases hasFlag fl ECFS_FLAG_DIR <;>
    cases hasFlag fl ECFS_FLAG_SLINK <;> decide

/-- **`read_node_info`** of an entry of a directory. -/
theorem shows_child (h : LaidOut g v n) (hb : b < g.nblk) (hname : Named v.disk b)
    (mem buf : ByteMem) :
    ∃ d, (v.readNodeInfo { ecfsNodeNew (some e) 0 with inode := b } (some (direntNew mem)) buf).2.1 =
        some d ∧
      Shows v.disk mem b ⟨d, some (v.readNodeInfo { ecfsNodeNew (some e) 0 with inode := b }
        (some (direntNew mem)) buf).1⟩ := by
  have hge := h.blksz_ge
  have hsz : FS_NAMESZ = 128 := rfl
  have hlen : FILE_FSZ = 168 := rfl
  have hflags : FILE_FLAGS = 128 := rfl
  obtain ⟨name, hstr⟩ := hname
  have hread : CStr (· < FS_NAMESZ) (v.readBlock b buf) 0 name :=
    hstr.congr fun x hx => h.readBlock_lt hb (by omega)
  obtain ⟨hcopy, hbehind⟩ := strncpy_name (direntNew mem) hread
  refine ⟨strncpy (v.readBlock b buf) FS_NAMESZ 0 (direntNew mem), rfl, ⟨name, hstr, hcopy⟩, ?_, ?_⟩
  · intro x hx
    show strncpy (v.readBlock b buf) FS_NAMESZ 0 (direntNew mem) x = mem x
    rw [hbehind x hx, direntNew, Function.update_of_ne (by omega)]
  · refine ⟨_, rfl, rfl, h.word_readBlock hb (by omega), ?_⟩
    have hword : word (v.readBlock b buf) FILE_FLAGS = word (v.disk b) FILE_FLAGS :=
      h.word_readBlock hb (by omega)
    rw [← hword]
    exact translateTypeFlags_spec _

/-- The rounds of `ecfs_filldir` before round `i` add the entries before entry `i`. -/
theorem fillDirents_spec (h : LaidOut g v n) (ht : Tracked g v n cnt) (hd : Direct g cnt)
    (hnames : ∀ i, i < cnt → blkAt g v.disk n i ≠ 0 → Named v.disk (blkAt g v.disk n i))
    (mem : Nat → ByteMem) (s : Filling) (hs : s.ablki = 0)
    (hbuf : ∀ x, x < g.blksz → s.bdata x = v.disk n.blk x) (hi : i ≤ cnt) :
    ∃ children, (v.fillDirents e mem i s).dents = s.dents ++ children ∧
      List.Forall₂ (fun i d => Shows v.disk (mem i) (blkAt g v.disk n i) d)
        ((List.range i).filter fun i => blkAt g v.disk n i ≠ 0) children ∧
      (v.fillDirents e mem i s).ablki = 0 ∧ (v.fillDirents e mem i s).bdata = s.bdata := by
  induction i with
  | zero => exact ⟨[], (List.append_nil _).symm, .nil, hs, rfl⟩
  | succ i ih =>
      obtain ⟨children, hdents, hall, hablk, hbd⟩ := ih (by omega)
      have hd' : i + FILE_WORDS < g.perBlock := by
        have hcap : cnt + FILE_WORDS ≤ g.perBlock := hd
        omega
      have hget : v.getNodeBlock e i (v.fillDirents e mem i s).ablki (v.fillDirents e mem i s).bdata =
          (blkAt g v.disk n i, 0, s.bdata, [.word (i + FILE_WORDS)]) := by
        rw [hablk, hbd]
        exact getNodeBlock_direct h ht hi hd' hbuf
      rw [EcfsInfo.fillDirents, EcfsInfo.fillDirent, hget, List.range_succ, List.filter_append]
      dsimp only
      by_cases h0 : blkAt g v.disk n i = 0
      · rw [if_pos h0, List.filter_cons_of_neg (by simp [h0]), List.filter_nil, List.append_nil]
        exact ⟨children, hdents, hall, rfl, rfl⟩
      · obtain ⟨d, hchild, hshows⟩ := shows_child (e := e) h (h.data i) (hnames i hi h0) (mem i)
          (v.fillDirents e mem i s).dentbuf
        rw [if_neg h0, List.filter_cons_of_pos (by simp [h0]), List.filter_nil]
        refine ⟨children ++ [⟨d, some _⟩], ?_, List.rel_append hall (.cons hshows .nil), rfl, rfl⟩
        dsimp only
        rw [hchild, hdents, List.append_assoc]
        rfl

/-- Directories without extension blocks are listed right. -/
theorem listsDir_of_direct (h : LaidOut g v n) (ht : Tracked g v n (dirBlocks v n))
    (hd : Direct g (dirBlocks v n))
    (hnames : ∀ i, i < dirBlocks v n → blkAt g v.disk n i ≠ 0 → Named v.disk (blkAt g v.disk n i))
    (parent : Option EcfsNode) (buf : ByteMem) :
    ListsDir g v n (driverNode v n.blk parent buf) := by
  intro bdata dentbuf dot dotdot mem
  have hge := h.blksz_ge
  have hoff : FILE_NBLK = 172 := rfl
  have hnblk : word (v.readBlock n.blk bdata) FILE_NBLK = dirBlocks v n :=
    h.word_readBlock h.entry_lt (by omega)
  obtain ⟨children, hdents, hall, -⟩ := fillDirents_spec (e := driverNode v n.blk parent buf) h ht hd
    hnames mem ⟨[direntNamed (literal [0x2e]) dot, direntNamed (literal [0x2e, 0x2e]) dotdot], 0,
      v.readBlock n.blk bdata, dentbuf⟩ rfl (fun x hx => h.readBlock_lt h.entry_lt hx) (Nat.le_refl _)
  refine ⟨children, ?_, hall⟩
  rw [EcfsInfo.ecfsFilldir, driverNode_inode, hnblk]
  exact hdents

/-! ## reader and writer -/

/-- **The driver on what `mntecfs` laid out**: it always looks behind a block
when it reads a node; reading a file is right, whatever is there, if and only if
the file entry records all its blocks; and such a directory is listed right. -/
theorem reader_agrees (g : Geometry) (v : EcfsInfo) (n : Node) (h : LaidOut g v n) :
    (∀ e dent bdata, ¬ ∀ a ∈ (v.readNodeInfo e dent bdata).2.2.2, a.Fine g v.disk n) ∧
    (Tracked g v n (fileBlocks g v n) →
      ((∀ parent bdata, ReadsFile g v n (driverNode v n.blk parent bdata)) ↔
        Direct g (fileBlocks g v n))) ∧
    (Tracked g v n (dirBlocks v n) → Direct g (dirBlocks v n) →
      (∀ i, i < dirBlocks v n → blkAt g v.disk n i ≠ 0 → Named v.disk (blkAt g v.disk n i)) →
        ∀ parent bdata, ListsDir g v n (driverNode v n.blk parent bdata)) := by
  refine ⟨fun e dent bdata => node_info_outside h e dent, fun ht => ⟨fun hr => ?_, fun hd => ?_⟩,
    fun ht hd hnames => listsDir_of_direct h ht hd hnames⟩
  · exact direct_of_readsFile h ht (hr none _)
  · exact readsFile_of_direct h ht hd

/-! ## a file with one extension block -/

/-- The entry of a file of `len` bytes with its first block in block 1003. -/
def linkedEntry (len : Nat) : ByteMem :=
  setWord 1020 1001 (setWord (4 * FILE_WORDS) 1003 (setWord FILE_FSZ len fun _ => 0))

/-- Its extension block, with an entry for block 1002. -/
def linkedExt : ByteMem := setWord 0 1002 fun _ => 0

/-- The file entry in block 1000, the extension block in block 1001. -/
def linkedDisk (len : Nat) : Disk :=
  fun b => if b = 1000 then linkedEntry len else if b = 1001 then linkedExt else fun _ => 0

/-- A device of such blocks of two sectors. -/
def linkedInfo (len : Nat) : EcfsInfo where
  dev s x := linkedDisk len (s / 2) (s % 2 * 512 + x)
  startLba := 0
  blksz := 1024

/-- The node of the file. -/
def linkedNode : Node :=
  { Node.closed 1000 with ext := fun k => if k = 0 then 1001 else 0 }

theorem linkedInfo_blksz (len : Nat) : (linkedInfo len).blksz = 1024 := rfl

theorem linkedInfo_disk (len : Nat) (hx : x < 1024) :
    (linkedInfo len).disk b x = linkedDisk len b x := by
  have hsectors : (linkedInfo len).blksz / 512 = 2 := by
    rw [linkedInfo_blksz]
  have hstart : (linkedInfo len).startLba = 0 := rfl
  rw [EcfsInfo.disk, hsectors, hstart]
  show linkedDisk len ((0 + b * 2 + x / 512) / 2) ((0 + b * 2 + x / 512) % 2 * 512 + x % 512) = _
  rw [show (0 + b * 2 + x / 512) / 2 = b by omega,
    show (0 + b * 2 + x / 512) % 2 * 512 + x % 512 = x by omega]

theorem word_linked (len : Nat) (hx : x + 4 ≤ 1024) :
    word ((linkedInfo len).disk b) x = word (linkedDisk len b) x :=
  word_congr fun _ _ => linkedInfo_disk len (by omega)

theorem linkedNode_ablk (k : Nat) :
    linkedNode.ablk k = if k = 0 then 1000 else if k = 1 then 1001 else 0 := by
  rw [Node.ablk]
  by_cases h0 : k = 0
  · rw [if_pos h0, if_pos h0]
    rfl
  · rw [if_neg h0, if_neg h0]
    show (if k - 1 = 0 then 1001 else 0) = _
    exact if_congr (by omega) rfl rfl

/-- The entries of the file. -/
theorem blkAt_linkedNode (len i : Nat) :
    blkAt smallGeometry (linkedInfo len).disk linkedNode i =
      if i = 0 then 1003 else if i = 209 then 1002 else 0 := by
  have hwords : FILE_WORDS = 46 := rfl
  have hsize : FILE_FSZ = 168 := rfl
  have hper : smallGeometry.perBlock = 255 := rfl
  have hlimit : smallGeometry.limit = 16575 := by decide
  have hmod : (i + FILE_WORDS) % 255 < 255 := Nat.mod_lt _ (by decide)
  rw [blkAt, linkedNode_ablk, hper, hlimit]
  by_cases h0 : (i + FILE_WORDS) / 255 = 0
  · rw [if_pos h0, if_neg (by omega), word_linked len (by omega), linkedDisk, if_pos rfl, linkedEntry,
      word_setWord_of_apart (by omega)]
    by_cases hi : i = 0
    · rw [if_pos hi, hi, Nat.zero_add, Nat.mod_eq_of_lt (by decide), word_setWord (by decide)]
    · rw [if_neg hi, if_neg (by omega), word_setWord_of_apart (by omega),
        word_setWord_of_apart (by omega)]
      rfl
  · rw [if_neg h0, if_neg (show i ≠ 0 by omega)]
    by_cases h1 : (i + FILE_WORDS) / 255 = 1
    · rw [if_pos h1, if_neg (by omega), word_linked len (by omega), linkedDisk, if_neg (by decide),
        if_pos rfl, linkedExt]
      by_cases hi : i = 209
      · rw [if_pos hi, hi]
        rfl
      · rw [if_neg hi, word_setWord_of_apart (by omega)]
        rfl
    · rw [if_neg h1, if_pos (.inr rfl), if_neg (by omega)]

/-- The file is laid out as `mntecfs` does it. -/
theorem laidOut_linked (len : Nat) : LaidOut smallGeometry (linkedInfo len) linkedNode := by
  have hablk := linkedNode_ablk
  constructor
  case pow => exact ⟨10, by decide, by decide, rfl⟩
  case blksz => rfl
  case fits =>
    show 0 + 10000 * (1024 / 512) ≤ 2 ^ 32
    decide
  case shape =>
    constructor
    case entry => decide
    case inside =>
      intro k _ hk
      rw [hablk] at hk ⊢
      by_cases h0 : k = 0
      · rw [if_pos h0]
        decide
      · rw [if_neg h0] at hk ⊢
        by_cases h1 : k = 1
        · rw [if_pos h1]
          decide
        · rw [if_neg h1] at hk
          exact absurd rfl hk
    case inj =>
      intro k l _ _ hk heq
      rw [hablk, hablk] at heq
      rw [hablk] at hk
      grind
  case chain =>
    intro k _ hk
    have hper : smallGeometry.perBlock = 255 := rfl
    rw [hablk] at hk
    rw [hablk, hablk, hper, word_linked len (by decide)]
    by_cases h0 : k = 0
    · rw [h0, if_pos rfl, linkedDisk, if_pos rfl, linkedEntry, word_setWord (by decide)]
      rfl
    · rw [if_neg h0] at hk ⊢
      by_cases h1 : k = 1
      · rw [h1]
        rfl
      · rw [if_neg h1] at hk
        exact absurd rfl hk
  case data =>
    intro i
    have hnblk : smallGeometry.nblk = 10000 := rfl
    rw [blkAt_linkedNode]
    split
    · omega
    · split <;> omega

/-- Up to entry 209 it is tracked. -/
theorem tracked_linked (len : Nat) (hcnt : cnt ≤ 210) :
    Tracked smallGeometry (linkedInfo len) linkedNode cnt := by
  intro i hi
  have hwords : FILE_WORDS = 46 := rfl
  have hlimit : smallGeometry.limit = 16575 := by decide
  have hlimit' : (linkedInfo len).limit = 2295 := by
    rw [EcfsInfo.limit, linkedInfo_blksz]
    decide
  refine ⟨by omega, by omega, ?_⟩
  intro l hl
  have hl' : l ≤ (i + FILE_WORDS) / 255 := hl
  rw [linkedNode_ablk]
  grind

theorem fileSize_linked {len : Nat} (hlen : len < 2 ^ 32) :
    fileSize (linkedInfo len) linkedNode = len := by
  have hblk : linkedNode.blk = 1000 := rfl
  rw [fileSize, hblk, word_linked len (by decide), linkedDisk, if_pos rfl, linkedEntry,
    word_setWord_of_apart (by decide), word_setWord_of_apart (by decide), word_setWord hlen]

theorem reader_agrees_example : ReadsFile smallGeometry (linkedInfo 5) linkedNode
    (driverNode (linkedInfo 5) linkedNode.blk none fun _ => 0) := by
  have hcnt : fileBlocks smallGeometry (linkedInfo 5) linkedNode = 1 := by
    rw [fileBlocks, fileSize_linked (by decide)]
    rfl
  obtain ⟨-, hreads, -⟩ := reader_agrees smallGeometry (linkedInfo 5) linkedNode (laidOut_linked 5)
  rw [hcnt] at hreads
  exact (hreads (tracked_linked 5 (by decide))).mpr (by decide) none _

/-- A file of 209 blocks and a byte is read with block 0 for its extension block. -/
theorem not_reader_agrees : ∃ len, LaidOut smallGeometry (linkedInfo len) linkedNode ∧
    Tracked smallGeometry (linkedInfo len) linkedNode
      (fileBlocks smallGeometry (linkedInfo len) linkedNode) ∧
    ¬ ReadsFile smallGeometry (linkedInfo len) linkedNode
      (driverNode (linkedInfo len) linkedNode.blk none fun _ => 0) := by
  have hcnt : fileBlocks smallGeometry (linkedInfo (209 * 1024 + 1)) linkedNode = 210 := by
    rw [fileBlocks, fileSize_linked (by decide)]
    rfl
  have ht : Tracked smallGeometry (linkedInfo (209 * 1024 + 1)) linkedNode
      (fileBlocks smallGeometry (linkedInfo (209 * 1024 + 1)) linkedNode) := by
    rw [hcnt]
    exact tracked_linked _ (Nat.le_refl 210)
  refine ⟨209 * 1024 + 1, laidOut_linked _, ht, fun hr => ?_⟩
  have hd := direct_of_readsFile (laidOut_linked _) ht hr
  rw [hcnt] at hd
  exact absurd hd (by decide)

end Eclair
