import Eclair.Vfs.Node

/-!
# Eclair.Vfs.Chnlfs

The channel file system of `kernel/vfs/chnlfs.c`, on one slot of `info[]`.

A hook is a function of the slot and the id of the active task.  Where the
code tests, writes fields and wakes a task in turn, every part has a name of
its own, so that a call can be taken whole or in steps.
-/

namespace Eclair

/-- `ECIO_CHNL_BUFSZ`. -/
def ECIO_CHNL_BUFSZ : Nat := 65536

/-- `open_fs`: the first opener becomes the owner. -/
def chnlOpen (refcnt : Nat) (tid : Int) (c : ChnlInfo) : ChnlInfo :=
  if refcnt > 0 then c
  else { c with owner := tid, source := -1, dest := -1, lockw := -1, stored := false }

/-! ## reading -/

/-- The first `n` bytes of the buffer. -/
def ChnlInfo.bytes (c : ChnlInfo) (n : Nat) : Bytes := (List.range n).map c.buf

/-- The channel is free for the next writer. -/
def ChnlInfo.reset (c : ChnlInfo) : ChnlInfo :=
  { c with source := -1, dest := -1, stored := false }

/-- `read_fs`. -/
def chnlRead (tid : Int) (nbytes : Nat) (c : ChnlInfo) : Bytes × ChnlInfo :=
  if tid ≠ c.dest then ([], c)
  else
    let n := if nbytes > c.size then c.size else nbytes
    let c' := { c with size := if nbytes > c.size then 0 else c.size - nbytes }
    (c.bytes n, if c'.size = 0 then c'.reset else c')

/-! ## writing -/

/-- `write_fs`: the slot belongs to another writer. -/
def chnlAgain (tid : Int) (c : ChnlInfo) : Bool :=
  (c.source ≥ 0 && c.source != tid) || (c.lockw ≥ 0 && c.lockw != tid)

/-- `write_fs`: without a destination the message goes to the owner. -/
def chnlAddress (c : ChnlInfo) : ChnlInfo :=
  { c with dest := if c.dest < 0 then c.owner else c.dest }

/-- `write_fs`: the source of the message. -/
def chnlSign (tid : Int) (c : ChnlInfo) : ChnlInfo := { c with source := tid }

/-- The part of a message that fits the buffer. -/
def chnlFit (m : Bytes) : Bytes := m.take ECIO_CHNL_BUFSZ

/-- `write_fs`: copy the message. -/
def chnlCopy (m : Bytes) (c : ChnlInfo) : ChnlInfo :=
  { c with
    buf := fun i => ((chnlFit m)[i]?).getD (c.buf i)
    size := (chnlFit m).length }

/-- `write_fs` is done: the message is stored for its destination. -/
def chnlStore (c : ChnlInfo) : ChnlInfo := { c with stored := decide (0 ≤ c.dest) }

/-- `write_fs` on the slot, wake-up apart: the result and the new slot. -/
def chnlWrite (tid : Int) (m : Bytes) (c : ChnlInfo) : Int × ChnlInfo :=
  if chnlAgain tid c then (-EAGAIN, c)
  else ((chnlFit m).length, chnlStore (chnlCopy m (chnlSign tid (chnlAddress c))))

/-! ## control -/

/-- `ECIO_CHNL_SETDEST`. -/
def chnlSetDest (tid pid : Int) (c : ChnlInfo) : Int × ChnlInfo :=
  if c.dest ≥ 0 then (-EAGAIN, c) else (0, { c with source := tid, dest := pid, stored := false })

/-- `ECIO_CHNL_LOCKW`. -/
def chnlLockw (tid : Int) (c : ChnlInfo) : Int × ChnlInfo :=
  if c.lockw ≥ 0 then (-EAGAIN, c) else (0, { c with lockw := tid })

/-- `ECIO_CHNL_UNLOCKW`. -/
def chnlUnlockw (tid : Int) (c : ChnlInfo) : Int × ChnlInfo :=
  if c.lockw ≠ tid then (-EPERM, c) else (0, { c with lockw := -1 })

/-! ## what a call leaves in the slot -/

variable {c : ChnlInfo} {tid : Int} {m : Bytes} {n k : Nat}

@[simp] theorem length_bytes : (c.bytes n).length = n := by simp [ChnlInfo.bytes]

/-- The buffer holds a message that has been copied to it. -/
theorem bytes_chnlCopy (h : k ≤ (chnlFit m).length) :
    (chnlCopy m c).bytes k = (chnlFit m).take k := by
  refine List.ext_getElem (by simp [h]) fun i hi hi' => ?_
  simp only [length_bytes] at hi
  have hlt : i < (chnlFit m).length := by omega
  simp [ChnlInfo.bytes, chnlCopy, hlt]

/-- A read by somebody else leaves the channel alone. -/
theorem chnlRead_of_ne (h : tid ≠ c.dest) : chnlRead tid n c = ([], c) := if_pos h

/-- A read takes the beginning of the buffer, and frees the channel when
nothing is left. -/
theorem chnlRead_of_eq (h : tid = c.dest) :
    chnlRead tid n c = (c.bytes (min n c.size),
      if c.size ≤ n then { c with size := 0 }.reset else { c with size := c.size - n }) := by
  rw [chnlRead, if_neg (by simpa using h)]
  rcases Nat.lt_trichotomy n c.size with hn | hn | hn
  · have h1 : ¬ n > c.size := by omega
    have h2 : ¬ c.size ≤ n := by omega
    have h3 : ¬ c.size - n = 0 := by omega
    simp [h1, h2, h3, Nat.min_eq_left (Nat.le_of_lt hn)]
  · subst hn
    simp
  · have h2 : c.size ≤ n := by omega
    simp [hn, h2]

theorem chnlWrite_of_ok (h : chnlAgain tid c = false) :
    chnlWrite tid m c =
      (((chnlFit m).length : Int), chnlStore (chnlCopy m (chnlSign tid (chnlAddress c)))) := by
  simp [chnlWrite, h]

end Eclair
