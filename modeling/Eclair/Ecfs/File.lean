import Eclair.Ecfs.BlockMap

/-!
# Eclair.Ecfs.File

The calls on a regular file in `tools/mntecfs.c`: `fs_open`, `fs_read`,
`fs_write`, `fs_truncate` and `fs_release`.

An open file keeps one data block, `file.blk`, with its number `bblk` and its
index `i` in the file.  `==` and `!=` bind closer than `&` in the tests of the
access mode, so these are tests of bit 0 of the flags, or of nothing.
-/

namespace Eclair

open ByteMem Loop

def EBUSY : Int := 16
def O_RDONLY : Nat := 0
def O_WRONLY : Nat := 1
def O_RDWR : Nat := 2
def O_ACCMODE : Nat := 3
def O_APPEND : Nat := 1024

/-- `EOF` of `stdio.h`. -/
def EOF : Int := -1

/-- A comparison as an `int`. -/
def ofBool (b : Bool) : Nat := if b then 1 else 0

/-- Change the open file. -/
def Node.modFile (f : OpenInfo → OpenInfo) (n : Node) : Node := { n with file := f n.file }

variable (g : Geometry)

/-- `fs_open` on a regular file. -/
def fsOpenFile (flags : Nat) (arr blk : ByteMem) (s : Maps) (n : Node) : Int × Node :=
  if n.file.isOpen then (-EBUSY, n)
  else if flags &&& O_APPEND ≠ 0 then (-ENOSYS, n)
  else (0, n.openFile g s.disk flags arr blk)

/-! ## reading -/

/-- Bring block `bidx` of the file in; `false` if there is none. -/
def loadForRead (disk : Disk) (bidx : Nat) (n : Node) : Bool × Node :=
  if n.file.bblk = 0 ∨ bidx ≠ n.file.i then
    let r := nodeGetblk g disk bidx (n.modFile fun f => { f with i := bidx })
    let n := r.2.modFile fun f => { f with bblk := r.1 }
    if r.1 = 0 then (false, n)
    else (true, n.modFile fun f => { f with blk := readBlk g r.1 f.blk disk })
  else (true, n)

/-- The loop of `fs_read` over at most `k` bytes from `pos` on. -/
def readLoop (disk : Disk) : Nat → Nat → Node → Bytes × Node
  | 0, _, n => ([], n)
  | k + 1, pos, n =>
      if pos ≥ n.file.fsz then ([], n)
      else
        let r := loadForRead g disk (u32 (pos / g.blksz)) n
        if r.1 then
          let rest := readLoop disk k (pos + 1) r.2
          (r.2.file.blk (pos % g.blksz) :: rest.1, rest.2)
        else ([], r.2)

/-- `fs_read`: the result, and the bytes put in the buffer. -/
def fsReadFile (nbytes offset : Nat) (s : Maps) (n : Node) : Int × Bytes × Node :=
  if ¬ n.file.isOpen ∨ n.file.flags &&& ofBool (O_ACCMODE == O_WRONLY) ≠ 0 then (-EPERM, [], n)
  else if u32 offset ≥ n.file.fsz then (EOF, [], n)
  else
    let r := readLoop g s.disk nbytes offset n
    (r.1.length, r.1, r.2)

/-! ## writing -/

/-- Write the block that is kept. -/
def flush (s : Maps) (n : Node) : Maps :=
  { s with disk := writeBlk g n.file.bblk n.file.blk s.disk }

/-- Make a new block `bidx` of the file. -/
def newForWrite (bidx : Nat) (s : Maps) (n : Node) : Option (Int × Maps × Node) :=
  (allocBlk g s).bind fun (blk, s) =>
    if blk = 0 then some (-ENOSPC, s, n)
    else (nodeSetblk g bidx blk s n).map fun (code, s, n) =>
      if code < 0 then (code, s, n)
      else (0, s, n.modFile fun f => { f with bblk := blk, blk := readBlk g blk f.blk s.disk })

/-- Bring block `bidx` of the file in, a new one if there is none. -/
def loadForWrite (bidx : Nat) (s : Maps) (n : Node) : Option (Int × Maps × Node) :=
  if n.file.bblk = 0 ∨ bidx ≠ n.file.i then
    let s := if n.file.bblk ≠ 0 then flush g s n else s
    let r := nodeGetblk g s.disk bidx (n.modFile fun f => { f with i := bidx })
    let n := r.2.modFile fun f => { f with bblk := r.1 }
    if r.1 ≠ 0 then some (0, s, n.modFile fun f => { f with blk := readBlk g r.1 f.blk s.disk })
    else newForWrite g bidx s n
  else some (0, s, n)

/-- The loop of `fs_write` from `pos` on. -/
def writeLoop : Bytes → Nat → Maps → Node → Option (Int × Maps × Node)
  | [], _, s, n => some (0, s, n)
  | b :: bs, pos, s, n =>
      (loadForWrite g (u32 (pos / g.blksz)) s n).bind fun (code, s, n) =>
        if code < 0 then some (code, s, n)
        else writeLoop bs (pos + 1) s
          (n.modFile fun f => { f with blk := Function.update f.blk (pos % g.blksz) b })

/-- `fs_write`. -/
def fsWriteFile (buf : Bytes) (offset : Nat) (s : Maps) (n : Node) : Option (Int × Maps × Node) :=
  if ¬ n.file.isOpen ∨ n.file.flags &&& ofBool (O_ACCMODE == O_RDONLY) ≠ 0 then
    some (-EPERM, s, n)
  else (writeLoop g buf offset s n).map fun (code, s, n) =>
    if code < 0 then (code, s, n)
    else
      let s := if buf.length ≠ 0 ∧ n.file.bblk ≠ 0 then flush g s n else s
      let pos := if buf.length = 0 then 0 else offset + (buf.length - 1)
      (buf.length, s,
        if pos ≥ n.file.fsz then n.modFile fun f => { f with fsz := u32 (pos + 1) } else n)

/-! ## truncating and closing -/

/-- `fs_truncate`; what `node_setblk` returns is not looked at. -/
def fsTruncate (offset : Nat) (s : Maps) (n : Node) : Option (Int × Maps × Node) :=
  if ¬ n.file.isOpen then some (-ENOENT, s, n)
  else if offset > 0 then some (-ENOSYS, s, n)
  else
    let fnblk := align n.file.fsz g.blksz / g.blksz
    (forLoop (fun i (s, n) => (nodeSetblk g i 0 s n).map Prod.snd) 0 fnblk (s, n)).map
      fun (s, n) => (0, s, n.modFile fun f => { f with fsz := 0 })

/-- The file entry that `fs_release` writes at time `tm`. -/
def closedEntry (tm : Nat) (disk : Disk) (n : Node) : ByteMem :=
  let arr := readBlk g n.blk n.file.arr disk
  let arr := if n.file.flags &&& ofBool (O_ACCMODE != O_RDONLY) ≠ 0 then
      setWord FILE_NBLK (align n.file.fsz g.blksz / g.blksz) (setWord FILE_FSZ n.file.fsz arr)
    else arr
  let lo := u32 tm
  let hi := u32 (tm / 2 ^ 32)
  setWord FILE_MTIME_HI hi (setWord FILE_MTIME_LO lo (setWord FILE_ATIME_HI hi
    (setWord FILE_ATIME_LO lo arr)))

/-- `fs_release`. -/
def fsRelease (tm : Nat) (s : Maps) (n : Node) : Int × Maps × Node :=
  if ¬ n.file.isOpen then (-EBADF, s, n)
  else
    (0, { s with disk := writeBlk g n.blk (closedEntry g tm s.disk n) s.disk },
      n.modFile fun f => { f with isOpen := false })

end Eclair
