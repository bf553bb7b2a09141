import Eclair.Vfs.Ramfs
import Eclair.Vfs.Chnlfs

/-!
# Eclair.Vfs.Fs

The file system switch of `kernel/vfs/fs.c`: finding a path, opening,
reading, creating and closing through the hooks of a node.
-/

namespace Eclair

/-! ## finding -/

/-- `while (node->ptr) node = node->ptr;` -/
def follow : Nat → NodePtr → Vfs → NodePtr
  | 0, n, _ => n
  | k + 1, n, v => match (v.node n).ptr with
    | none => n
    | some m => follow k m v

/-- The entries that a directory has or that its hook fills in. -/
def FsNode.entries (x : FsNode) : List FsDirent :=
  if x.dirents = [] then x.filldir.getD [] else x.dirents

/-- `fs_readdir` calls a hook that is `NULL`. -/
def FsNode.noEntries (x : FsNode) : Bool := x.dirents.isEmpty && x.filldir.isNone

/-- `fs_readdir` fills a directory that has no entries. -/
def fsFill (n : NodePtr) (v : Vfs) : Vfs := v.modNode n fun x => { x with dirents := x.entries }

/-- The search of `fs_finddir`. -/
def findName (name : Bytes) (es : List FsDirent) : Option NodePtr :=
  (es.find? fun e => e.name == name).bind FsDirent.node

/-- What `fs_resolve_full` finds: a node, or the directory where the last
component could be created. -/
inductive Resolved where
  | fault | missing
  | found (n : NodePtr)
  | create (dir : NodePtr) (name : Bytes)
  deriving DecidableEq, Repr

/-- The components of a path. -/
def components (path : Bytes) : List Bytes := path.splitOn 47

theorem components_ne_nil (s : Bytes) : components s ≠ [] := List.splitOn_ne_nil _ _

theorem components_of_not_mem {s : Bytes} (h : (47 : UInt8) ∉ s) : components s = [s] :=
  List.splitOn_eq_singleton h

theorem components_append {c s : Bytes} (h : (47 : UInt8) ∉ c) :
    components (c ++ 47 :: s) = c :: components s := by
  rw [components, List.splitOn_append_cons_self, List.splitOn_eq_singleton h]
  rfl

/-- The loop of `fs_resolve_full`; `pathbuf` holds what fits of a
component. -/
def fsResolveLoop : List Bytes → NodePtr → Vfs → Resolved × Vfs
  | [], n, v => (.found n, v)
  | c :: cs, n, v =>
      let n := follow FUEL n v
      if !hasFlag (v.node n).flags FS_DIRECTORY then (.missing, v)
      else if c = [] then fsResolveLoop cs n v
      else if (v.node n).noEntries then (.fault, v)
      else match findName (c.take (PATHBUFSZ - 1)) (v.node n).entries with
        | some next => fsResolveLoop cs next (fsFill n v)
        | none => (if cs = [] then .create n c else .missing, fsFill n v)

/-- `fs_resolve_full`. -/
def fsResolveFull (path : Bytes) (v : Vfs) : Resolved × Vfs :=
  fsResolveLoop (components path) v.fsRoot v

/-! ## the hooks -/

/-- `node->open(node, flags)`. -/
def openHook (n : NodePtr) (flags : Nat) (tid : Int) (v : Vfs) : Vfs :=
  match (v.node n).opens with
  | some .ramfs => v.modNode n fun x =>
      { x with
        data := ramfsOpen flags x.data
        len := if hasFlag flags FS_TRUNCATE then 0 else x.len }
  | some .chnlfs => v.modChnl (v.node n).inode (chnlOpen (v.node n).refcnt tid)
  | _ => v

/-- `fs_open`. -/
def fsOpen (n : NodePtr) (flags : Nat) (tid : Int) (v : Vfs) : Vfs :=
  if (v.node n).refcnt ≠ 0 ∧ (v.node n).oflags ≠ flags then v
  else (openHook n flags tid v).modNode n fun x =>
    { x with oflags := flags, refcnt := x.refcnt + 1 }

/-- `fs_close`. -/
def fsClose (n : NodePtr) (v : Vfs) : Vfs :=
  if (v.node n).refcnt = 0 then v
  else v.modNode n fun x =>
    { x with
      data := if x.close = some .ramfs then ramfsClose x.data else x.data
      refcnt := x.refcnt - 1 }

/-- `fs_read`: the result with the bytes read, and the state after. -/
def fsRead (n : NodePtr) (offset nbytes : Nat) (tid : Int) (v : Vfs) : (Int × Bytes) × Vfs :=
  let x := v.node n
  if x.refcnt = 0 ∨ !hasFlag x.oflags FS_READ then ((0, []), v)
  else match x.read with
    | none => ((0, []), v)
    | some .ramfs =>
        let b := ramfsRead offset nbytes x.data
        ((b.length, b), v)
    | some .chnlfs =>
        let r := chnlRead tid nbytes (v.chnl x.inode)
        ((r.1.length, r.1), v.modChnl x.inode fun _ => r.2)
    | some .other => ((v.hook n, []), v)

/-- The hook that `fs_write` calls, if the node is open for writing. -/
def writeHook (x : FsNode) : Option Driver :=
  if x.refcnt = 0 ∨ !hasFlag x.oflags FS_WRITE then none else x.write

/-- `ramfs_write` on the node: the length follows the size. -/
def fsWriteRamfs (n : NodePtr) (offset : Nat) (data : Bytes) (v : Vfs) : Nat × Vfs :=
  let r := ramfsWrite offset data (v.node n).data
  (r.1, v.modNode n fun x =>
    { x with
      data := r.2
      len := if offset + r.1 > x.data.size then u32 (offset + r.1) else x.len })

/-! ## creating -/

/-- The bytes of a pointer up to the first zero. -/
def ptrBytes (n : NodePtr) : Bytes :=
  ((List.range 4).map fun i => (n / 256 ^ i).toUInt8).takeWhile (· ≠ 0)

/-- `fs_dirent_new`: a name that fills `dent->name` is not terminated there,
and the node pointer behind it is read as part of it. -/
def direntName (name : Bytes) (n : NodePtr) : Bytes :=
  if name.length < FS_NAMESZ then name else name.take FS_NAMESZ ++ ptrBytes n

/-- `fs_node_new`. -/
def fsNodeNew (parent : FsNode) (flags : Nat) : FsNode where
  mask := parent.mask
  uid := parent.uid
  gid := parent.gid
  flags := flags
  read := parent.read
  write := parent.write
  opens := parent.opens
  close := parent.close
  filldir := parent.filldir

/-- `fs_node_add_dirent`. -/
def fsNodeAddDirent (n : NodePtr) (e : FsDirent) (v : Vfs) : Vfs :=
  v.modNode (follow FUEL n v) fun x => { x with dirents := x.dirents ++ [e] }

/-- `ramfs_create`. -/
def ramfsCreate (parent : NodePtr) (name : Bytes) (flags mask : Nat) (v : Vfs) : Vfs :=
  let node := v.brk
  let v' := { v.modNode node fun _ => { fsNodeNew (v.node parent) flags with mask := mask } with
    brk := node + 1 }
  fsNodeAddDirent parent ⟨direntName name node, some node⟩ v'

/-- `fs_create` gets past its tests. -/
def fsCanCreate (n : NodePtr) (v : Vfs) : Bool :=
  hasFlag (v.node n).flags FS_DIRECTORY && (v.node n).create == some .ramfs

/-- `fs_create`: the new node, if any, and the state after. -/
def fsCreate (n : NodePtr) (name : Bytes) (flags mask : Nat) (v : Vfs) : Option NodePtr × Vfs :=
  if fsCanCreate n v then (some v.brk, ramfsCreate n name flags mask v) else (none, v)

end Eclair
