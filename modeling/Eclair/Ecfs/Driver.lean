import Eclair.Vfs.CString
import Eclair.Vfs.Node
import Eclair.Ecfs.Node

/-!
# Eclair.Ecfs.Driver

The EcFS driver of the kernel, `kernel/fs/ecfs.c`: how it reads a node, the
block map of a file, the bytes of a file and the entries of a directory.

A buffer is the memory from its first byte on, so that what lies behind the
`blksz` bytes of a block is there too.  The functions on files also return
what they looked at: the blocks that they read, and the words and bytes of
block buffers; the fields of `ecfs_file_t` are in front of any buffer's end.
-/

namespace Eclair

open ByteMem

/-- The number of extension blocks that the driver tracks. -/
def TRACKEXT : Nat := 8

def FS_SYMLINK : Nat := 0x20

/-- What the driver looks at. -/
inductive Access where
  | block (b : Nat)
  | word (i : Nat)
  | byte (i : Nat)
  deriving DecidableEq, Repr

/-- `struct ecfs_fs_info`: the device by its sectors, the start of the
partition and the block size. -/
structure EcfsInfo where
  dev : Nat → ByteMem
  startLba : Nat
  blksz : Nat

/-- `struct ecfs_node`. -/
structure EcfsNode where
  inode : Nat
  mask : Nat
  uid : Nat
  gid : Nat
  flags : Nat
  len : Nat
  impl : Nat
  ext : Nat → Nat

/-- `struct ecfs_file_info`. -/
structure EcfsFile where
  bblk : Nat
  bidx : Nat
  ablki : Nat
  bdata : ByteMem
  adata : ByteMem

/-- `fs_dirent_t`: the memory from its name on, and its node. -/
structure Dirent where
  mem : ByteMem
  node : Option EcfsNode

/-- The state of the loop of `ecfs_filldir`. -/
structure Filling where
  dents : List Dirent
  ablki : Nat
  bdata : ByteMem
  dentbuf : ByteMem

/-- `node_new`. -/
def ecfsNodeNew (parent : Option EcfsNode) (flags : Nat) : EcfsNode :=
  match parent with
  | some p => ⟨0, p.mask, p.uid, p.gid, flags, 0, p.impl, fun _ => 0⟩
  | none => ⟨0, 0o644, 0, 0, flags, 0, 0, fun _ => 0⟩

/-- `fs_dirent_new(NULL)`, in memory that held anything. -/
def direntNew (mem : ByteMem) : ByteMem := Function.update mem 0 0

/-- `fs_dirent_new(name)`. -/
def direntNamed (name mem : ByteMem) : Dirent := ⟨strncpy name FS_NAMESZ 0 mem, none⟩

/-- `translate_type_flags`. -/
def translateTypeFlags (flags : Nat) : Nat :=
  let out := 0
  let out := if hasFlag flags ECFS_FLAG_REG then out ||| FS_FILE else out
  let out := if hasFlag flags ECFS_FLAG_DIR then out ||| FS_DIRECTORY else out
  if hasFlag flags ECFS_FLAG_SLINK then out ||| FS_SYMLINK else out

/-- `ABLK(n, i)`. -/
def EcfsNode.ablk (n : EcfsNode) (i : Nat) : Nat := if i = 0 then n.inode else n.ext (i - 1)

namespace EcfsInfo

variable (v : EcfsInfo)

/-- `read_block`. -/
def readBlock (blk : Nat) (buf : ByteMem) : ByteMem :=
  let cnt := v.blksz / 2 ^ 9
  let lba := u32 (v.startLba + blk * cnt)
  write 0 (cnt * 512) (fun x => v.dev (lba + x / 512) (x % 512)) buf

/-! ## nodes -/

/-- The loop of `read_node_info` over the extension blocks, from round `i` on. -/
def readExts : Nat → Nat → ByteMem → (Nat → Nat) → (Nat → Nat) × ByteMem × List Access
  | 0, _, bdata, ext => (ext, bdata, [])
  | k + 1, i, bdata, ext =>
      let blk := word bdata (4 * (v.blksz / 4))
      if blk = 0 then (ext, bdata, [.word (v.blksz / 4)])
      else
        let r := readExts k (i + 1) (v.readBlock blk bdata) (Function.update ext i blk)
        (r.1, r.2.1, .word (v.blksz / 4) :: .block blk :: r.2.2)

/-- `read_node_info`: the node, the entry and the buffer. -/
def readNodeInfo (n : EcfsNode) (dent : Option ByteMem) (bdata : ByteMem) :
    EcfsNode × Option ByteMem × ByteMem × List Access :=
  let bdata := v.readBlock n.inode bdata
  let r := v.readExts TRACKEXT 0 bdata n.ext
  ({ n with mask := word bdata FILE_MASK, uid := word bdata FILE_UID, gid := word bdata FILE_GID,
            flags := translateTypeFlags (word bdata FILE_FLAGS), len := word bdata FILE_FSZ,
            impl := word bdata FILE_NBLK, ext := r.1 },
    dent.map (strncpy bdata FS_NAMESZ 0), r.2.1, .block n.inode :: r.2.2)

/-- The limit on the entries of a file, in `uint32_t`. -/
def limit : Nat := u32 ((TRACKEXT + 1) * (v.blksz / 4 - 1))

/-- `get_node_block`: the block, `*ablkp` and `adata`. -/
def getNodeBlock (n : EcfsNode) (i ablki : Nat) (adata : ByteMem) :
    Nat × Nat × ByteMem × List Access :=
  let i := u32 (i + FILE_WORDS)
  let m := v.blksz / 4 - 1
  if i ≥ v.limit then (0, ablki, adata, [])
  else if ablki ≠ i / m then
    let adata := v.readBlock (n.ablk (i / m)) adata
    (word adata (4 * (i % m)), i / m, adata, [.block (n.ablk (i / m)), .word (i % m)])
  else (word adata (4 * (i % m)), ablki, adata, [.word (i % m)])

/-! ## files -/

/-- `ecfs_open`; `bdata` and `adata` are what `kmalloc` gives. -/
def ecfsOpen (n : EcfsNode) (bdata adata : ByteMem) : EcfsFile × List Access :=
  (⟨0, 0, 0, bdata, v.readBlock n.inode adata⟩, [.block n.inode])

/-- Bring block `bidx` of the file in; `false` if there is none. -/
def loadBlock (n : EcfsNode) (bidx : Nat) (f : EcfsFile) : Bool × EcfsFile × List Access :=
  if f.bblk = 0 ∨ bidx ≠ f.bidx then
    let r := v.getNodeBlock n bidx f.ablki f.adata
    if r.1 = 0 then (false, ⟨r.1, bidx, r.2.1, f.bdata, r.2.2.1⟩, r.2.2.2)
    else (true, ⟨r.1, bidx, r.2.1, v.readBlock r.1 f.bdata, r.2.2.1⟩, r.2.2.2 ++ [.block r.1])
  else (true, f, [])

/-- The loop of `ecfs_read` over at most `k` bytes from `pos` on. -/
def ecfsReadFrom (n : EcfsNode) : Nat → Nat → EcfsFile → Bytes × EcfsFile × List Access
  | 0, _, f => ([], f, [])
  | k + 1, pos, f =>
      if u32 pos ≥ n.len then ([], f, [])
      else
        let r := v.loadBlock n (u32 pos / v.blksz) f
        if r.1 then
          let rest := ecfsReadFrom n k (pos + 1) r.2.1
          (r.2.1.bdata (u32 pos % v.blksz) :: rest.1, rest.2.1,
            r.2.2 ++ .byte (u32 pos % v.blksz) :: rest.2.2)
        else ([], r.2.1, r.2.2)

/-- `ecfs_read`: the bytes put in the buffer; their number is the result. -/
def ecfsRead (n : EcfsNode) (offset nbytes : Nat) (f : EcfsFile) : Bytes × EcfsFile × List Access :=
  v.ecfsReadFrom n nbytes offset f

/-! ## directories -/

/-- Round `i` of the loop of `ecfs_filldir`; `mem` is what `kmalloc` gives for the entry. -/
def fillDirent (n : EcfsNode) (mem : ByteMem) (i : Nat) (s : Filling) : Filling :=
  let r := v.getNodeBlock n i s.ablki s.bdata
  if r.1 = 0 then { s with ablki := r.2.1, bdata := r.2.2.1 }
  else
    let child := { ecfsNodeNew (some n) 0 with inode := r.1 }
    let c := v.readNodeInfo child (some (direntNew mem)) s.dentbuf
    ⟨s.dents ++ (c.2.1.map fun d => ⟨d, some c.1⟩).toList, r.2.1, r.2.2.1, c.2.2.1⟩

/-- The rounds of `ecfs_filldir` before round `i`. -/
def fillDirents (n : EcfsNode) (mem : Nat → ByteMem) : Nat → Filling → Filling
  | 0, s => s
  | i + 1, s => v.fillDirent n (mem i) i (fillDirents n mem i s)

/-- `ecfs_filldir`: the entries it adds; `bdata` is the buffer of the volume,
`dentbuf`, `dot`, `dotdot` and `mem` are what `kmalloc` gives. -/
def ecfsFilldir (n : EcfsNode) (bdata dentbuf dot dotdot : ByteMem) (mem : Nat → ByteMem) :
    List Dirent :=
  let bdata := v.readBlock n.inode bdata
  let nblk := word bdata FILE_NBLK
  (v.fillDirents n mem nblk
    ⟨[direntNamed (literal [0x2e]) dot, direntNamed (literal [0x2e, 0x2e]) dotdot], 0, bdata,
      dentbuf⟩).dents

end EcfsInfo

end Eclair
