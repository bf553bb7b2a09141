import Mathlib.Logic.Function.Basic
import Eclair.Vfs.Node

/-!
# Eclair.Vfs.Ramfs

The files of `kernel/vfs/ramfs.c`: a size and at most 64 blocks of 1024
bytes, allocated when they are first written.
-/

namespace Eclair

/-! ## bytes in blocks -/

/-- The byte at a position; a missing block reads as zeros. -/
def RamfsFile.byte (f : RamfsFile) (pos : Nat) : UInt8 :=
  match f.blocks (pos / 2 ^ BLOCK_SHIFT) with
  | none => 0
  | some b => b (pos % BLOCK_SIZE)

/-- Store a byte, in a new block of zeros if there is none. -/
def RamfsFile.setByte (pos : Nat) (x : UInt8) (f : RamfsFile) : RamfsFile :=
  let b := (f.blocks (pos / 2 ^ BLOCK_SHIFT)).getD fun _ => 0
  { f with
    blocks := Function.update f.blocks (pos / 2 ^ BLOCK_SHIFT)
      (some (Function.update b (pos % BLOCK_SIZE) x)) }

/-! ## the hooks -/

/-- `ramfs_open` on the file; the length of the node is set with it. -/
def ramfsOpen (flags : Nat) (f : RamfsFile) : RamfsFile :=
  if hasFlag flags FS_TRUNCATE then { f with size := 0 } else f

/-- `ramfs_read`. -/
def ramfsRead (offset size : Nat) (f : RamfsFile) : Bytes :=
  let size := if size > sub32 f.size offset then sub32 f.size offset else size
  (List.range size).map fun count => f.byte (offset + count)

/-- The loop of `ramfs_write`: how many bytes it stores. -/
def ramfsStore : Nat → Bytes → RamfsFile → Nat × RamfsFile
  | _, [], f => (0, f)
  | pos, x :: xs, f =>
      if MAX_BLOCKS ≤ pos / 2 ^ BLOCK_SHIFT then (0, f)
      else
        let r := ramfsStore (pos + 1) xs (f.setByte pos x)
        (r.1 + 1, r.2)

/-- `ramfs_write` on the file. -/
def ramfsWrite (offset : Nat) (data : Bytes) (f : RamfsFile) : Nat × RamfsFile :=
  let r := ramfsStore offset data f
  (r.1, if offset + r.1 > r.2.size then { r.2 with size := offset + r.1 } else r.2)

/-- `ramfs_close`: free the blocks past the end of the file. -/
def ramfsClose (f : RamfsFile) : RamfsFile :=
  { f with blocks := fun i =>
      if align f.size BLOCK_SIZE / 2 ^ BLOCK_SHIFT ≤ i ∧ i < MAX_BLOCKS then none else f.blocks i }

end Eclair
