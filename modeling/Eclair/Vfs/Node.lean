import Eclair.Basic

/-!
# Eclair.Vfs.Node

The nodes of the virtual file system (`kernel/vfs/fs.h`) and the state that
the file systems behind them keep: the blocks of ramfs files and the slots
of the channel file system.

The function pointers of a node are the drivers they lead to.  Of the
directory entries the doubly linked list is kept as a list; `filldir` holds
the entries that the hook of a disk file system would read.
-/

namespace Eclair

/-! ## flags -/

def FS_FILE : Nat := 0x1
def FS_DIRECTORY : Nat := 0x2
def FS_CHARDEVICE : Nat := 0x4

def FS_READ : Nat := 0x1
def FS_WRITE : Nat := 0x2
def FS_TRUNCATE : Nat := 0x4
def FS_CREATE : Nat := 0x100

/-- `fl & bit`, as a condition. -/
def hasFlag (fl bit : Nat) : Bool := fl &&& bit != 0

/-- `FS_ISRW(fl)`. -/
def fsIsRw (fl : Nat) : Bool := hasFlag fl FS_READ && hasFlag fl FS_WRITE

/-- `FS_NAMESZ`. -/
def FS_NAMESZ : Nat := 128

/-- `PATHBUFSZ`. -/
def PATHBUFSZ : Nat := 1024

/-! ## ramfs data -/

def BLOCK_SIZE : Nat := 1024
def BLOCK_SHIFT : Nat := 10
def MAX_BLOCKS : Nat := 64

/-- `struct ramfs_file`: a block that is not allocated is `none`. -/
structure RamfsFile where
  blocks : Nat → Option (Nat → UInt8) := fun _ => none
  size : Nat := 0

instance : Inhabited RamfsFile := ⟨{}⟩

/-! ## nodes -/

/-- The file system a function pointer leads to. -/
inductive Driver where
  | ramfs | chnlfs | other
  deriving DecidableEq, Repr

/-- `fs_dirent_t`. -/
structure FsDirent where
  name : Bytes
  node : Option NodePtr
  deriving DecidableEq, Repr

/-- `fs_node_t`. -/
structure FsNode where
  mask : Nat := 0
  uid : Nat := 0
  gid : Nat := 0
  flags : Nat := 0
  inode : Nat := 0
  len : Nat := 0
  oflags : Nat := 0
  refcnt : Nat := 0
  held : Bool := false
  ptr : Option NodePtr := none
  dirents : List FsDirent := []
  read : Option Driver := none
  write : Option Driver := none
  opens : Option Driver := none
  close : Option Driver := none
  filldir : Option (List FsDirent) := none
  /-- the volume whose busy flag the `isheld` hook tests -/
  isheld : Option Nat := none
  create : Option Driver := none
  ioctl : Option Driver := none
  data : RamfsFile := {}

instance : Inhabited FsNode := ⟨{}⟩

/-! ## channel data -/

/-- A channel of `kernel/vfs/chnlfs.c`. -/
structure ChnlInfo where
  owner : Int := 0
  source : Int := 0
  dest : Int := 0
  lockw : Int := 0
  buf : Nat → UInt8 := fun _ => 0
  size : Nat := 0
  /-- ghost: a completed write stored the message that `dest` has not taken -/
  stored : Bool := false

instance : Inhabited ChnlInfo := ⟨{}⟩

/-- Everything the file calls act upon. -/
structure Vfs where
  node : NodePtr → FsNode
  fsRoot : NodePtr
  /-- the node that the next `kmalloc` of one returns; all nodes lie below -/
  brk : NodePtr
  /-- `info->held || info->dev->held` of a disk volume -/
  busy : Nat → Bool
  /-- what the hooks of drivers that are not modelled return -/
  hook : NodePtr → Int
  chnl : Nat → ChnlInfo
  /-- the user table: the group of each user -/
  user : Nat → Option Nat
  /-- ghost: the tasks between a successful `task_acquire` of a node and
  their `task_release` -/
  holders : NodePtr → List TaskPtr
  /-- ghost: the successful opens, as path and node -/
  opened : List (Bytes × NodePtr)

instance : Inhabited Vfs := ⟨⟨fun _ => {}, 0, 0, fun _ => false, fun _ => 0, fun _ => {},
  fun _ => none, fun _ => [], []⟩⟩

namespace Vfs

/-- Change one node. -/
def modNode (n : NodePtr) (f : FsNode → FsNode) (v : Vfs) : Vfs :=
  { v with node := fun m => if m = n then f (v.node m) else v.node m }

/-- Change one channel. -/
def modChnl (i : Nat) (f : ChnlInfo → ChnlInfo) (v : Vfs) : Vfs :=
  { v with chnl := fun j => if j = i then f (v.chnl j) else v.chnl j }

section modNode

variable (v : Vfs) (n m : NodePtr) (i j : Nat) (f : FsNode → FsNode) (g : ChnlInfo → ChnlInfo)

theorem modNode_node : (v.modNode n f).node m = if m = n then f (v.node m) else v.node m := rfl

@[simp] theorem modNode_node_self : (v.modNode n f).node n = f (v.node n) := if_pos rfl

theorem modNode_node_of_ne (h : m ≠ n) : (v.modNode n f).node m = v.node m := if_neg h

@[simp] theorem modNode_fsRoot : (v.modNode n f).fsRoot = v.fsRoot := rfl
@[simp] theorem modNode_brk : (v.modNode n f).brk = v.brk := rfl
@[simp] theorem modNode_busy : (v.modNode n f).busy = v.busy := rfl
@[simp] theorem modNode_hook : (v.modNode n f).hook = v.hook := rfl
@[simp] theorem modNode_chnl : (v.modNode n f).chnl = v.chnl := rfl
@[simp] theorem modNode_user : (v.modNode n f).user = v.user := rfl
@[simp] theorem modNode_holders : (v.modNode n f).holders = v.holders := rfl
@[simp] theorem modNode_opened : (v.modNode n f).opened = v.opened := rfl

theorem modChnl_chnl : (v.modChnl i g).chnl j = if j = i then g (v.chnl j) else v.chnl j := rfl

@[simp] theorem modChnl_chnl_self : (v.modChnl i g).chnl i = g (v.chnl i) := if_pos rfl

theorem modChnl_chnl_of_ne (h : j ≠ i) : (v.modChnl i g).chnl j = v.chnl j := if_neg h

@[simp] theorem modChnl_node : (v.modChnl i g).node = v.node := rfl
@[simp] theorem modChnl_fsRoot : (v.modChnl i g).fsRoot = v.fsRoot := rfl
@[simp] theorem modChnl_brk : (v.modChnl i g).brk = v.brk := rfl
@[simp] theorem modChnl_busy : (v.modChnl i g).busy = v.busy := rfl
@[simp] theorem modChnl_hook : (v.modChnl i g).hook = v.hook := rfl
@[simp] theorem modChnl_user : (v.modChnl i g).user = v.user := rfl
@[simp] theorem modChnl_holders : (v.modChnl i g).holders = v.holders := rfl
@[simp] theorem modChnl_opened : (v.modChnl i g).opened = v.opened := rfl

end modNode

end Vfs

/-- `fs_isheld`: the hook of a disk volume also tests its busy flag. -/
def fsIsheld (n : NodePtr) (v : Vfs) : Bool :=
  match (v.node n).isheld with
  | some vol => (v.node n).held || v.busy vol
  | none => (v.node n).held

end Eclair
