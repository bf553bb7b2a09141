import Eclair.Lib.Resume
import Eclair.Task.Sched

/-!
# Eclair.Task.File

The file calls of `kernel/task.c` as programs of steps between which a task
can be preempted: `task_acquire` and `task_release`, and `task_fs_open`,
`task_fs_read`, `task_fs_write`, `task_fs_seek`, `task_fs_close` and
`task_fs_ioctl`, with the hooks of the channels taken apart.

A step is an operation `Op` on the kernel; the program goes on with what it
reads from the state before.  What runs under the task lock is one step.
-/

namespace Eclair

open Resume Kernel

/-! ## operations -/

/-- What a file call does to the file systems in one step. -/
inductive FileOp where
  | resolve (path : Bytes)
  | create (dir : NodePtr) (name : Bytes) (mask : Nat)
  | chown (n : NodePtr)
  | open (n : NodePtr) (flags : Nat)
  | close (n : NodePtr)
  | read (n : NodePtr) (offset nbytes : Nat)
  | ramfsWrite (n : NodePtr) (offset : Nat) (data : Bytes)
  | address (i : Nat)
  | sign (i : Nat)
  | copy (i : Nat) (m : Bytes)
  | setDest (i : Nat) (pid : Int)
  | lockw (i : Nat)
  | unlockw (i : Nat)

/-- The operation, done by the task `tid` of the user `uid`. -/
def FileOp.exec (tid : Int) (uid : Nat) : FileOp → Vfs → Vfs
  | .resolve path, v => (fsResolveFull path v).2
  | .create dir name mask, v => (fsCreate dir name FS_FILE mask v).2
  | .chown n, v => v.modNode n fun x => { x with uid := uid, gid := uid }
  | .open n flags, v => fsOpen n flags tid v
  | .close n, v => fsClose n v
  | .read n offset nbytes, v => (fsRead n offset nbytes tid v).2
  | .ramfsWrite n offset data, v => (fsWriteRamfs n offset data v).2
  | .address i, v => v.modChnl i chnlAddress
  | .sign i, v => v.modChnl i (chnlSign tid)
  | .copy i m, v => v.modChnl i (chnlCopy m)
  | .setDest i pid, v => v.modChnl i fun c => (chnlSetDest tid pid c).2
  | .lockw i, v => v.modChnl i fun c => (chnlLockw tid c).2
  | .unlockw i, v => v.modChnl i fun c => (chnlUnlockw tid c).2

/-- A step of a file call.  Inside `ECIO_CHNL_WAITREAD` the steps of
`task_acquire` name the channel. -/
inductive Op where
  /-- a step that only reads -/
  | skip
  /-- `task_active->stale = false` -/
  | clearStale (w : Option Nat)
  /-- `task_acquire` under the task lock -/
  | acquire (n : NodePtr)
  /-- `task_acquire` of a held node blocks -/
  | pause
  /-- `if (task_active->stale)` -/
  | check (n : NodePtr) (w : Option Nat)
  /-- `task_release` -/
  | release
  | file (f : FileOp)
  /-- `task_active->files[fd] = d` -/
  | desc (fd : Nat) (d : FileDesc)
  /-- the descriptor of a successful open -/
  | install (fd : Nat) (n : NodePtr) (flags : Nat) (path : Bytes)
  /-- the end of `write_fs` -/
  | wake (i : Nat)
  /-- `task_nano_sleep_until` blocks -/
  | sleep (i : Nat) (waketime : Nat)

/-- The task is no longer between `task_acquire` and `task_release`. -/
def unhold (t : TaskPtr) (n : NodePtr) (v : Vfs) : Vfs :=
  { v with holders := fun m => if m = n then (v.holders m).filter (· ≠ t) else v.holders m }

/-- `task_acquire`, up to `task_block`. -/
def taskAcquire (n : NodePtr) (s : Kernel) : Kernel :=
  let s := s.modActive fun k => { k with res := some n }
  if fsIsheld n s.vfs then s else s.modVfs (grant s.taskActive n)

/-- `task_release`. -/
def taskRelease (s : Kernel) : Kernel :=
  match s.active.res with
  | none => s
  | some n =>
      let s := s.modVfs fun v => unhold s.taskActive n (v.modNode n fun x => { x with held := false })
      s.modActive fun k => { k with res := none }

/-- `write_fs`: wake up the destination task. -/
def chnlWake (i : Nat) (s : Kernel) : Kernel :=
  let s := s.modVfs (Vfs.modChnl i chnlStore)
  match taskGet (s.vfs.chnl i).dest s with
  | none => s
  | some t =>
      if (s.task t).state = .sleeping then
        s.modTask t fun k => { k with stale := true, waketime := 0 }
      else s

/-- Set a file descriptor of the active task. -/
def setDesc (fd : Nat) (d : FileDesc) (s : Kernel) : Kernel :=
  s.modActive fun k => { k with files := Function.update k.files fd d }

/-- One step of the active task. -/
def Op.exec : Op → Kernel → Kernel
  | .skip, s => s
  | .clearStale _, s => s.modActive fun k => { k with stale := false }
  | .acquire n, s => taskAcquire n s
  | .pause, s => taskBlock .paused s
  -- a stale acquire has not succeeded
  | .check n _, s => if s.active.stale then s.modVfs (unhold s.taskActive n) else s
  | .release, s => taskRelease s
  | .file f, s => s.modVfs (f.exec s.active.id s.active.uid)
  | .desc fd d, s => setDesc fd d s
  | .install fd n flags path, s =>
      (setDesc fd ⟨some n, flags, 0⟩ s).modVfs fun v => { v with opened := (path, n) :: v.opened }
  | .wake i, s => chnlWake i s
  | .sleep _ w, s => taskBlock .sleeping (s.modActive fun k => { k with waketime := w })

/-! ## programs -/

/-- The return value of a file call, and the bytes it has put into the
caller's buffer. -/
structure Result where
  val : Int
  buf : Bytes := []
  deriving DecidableEq, Repr

/-- What is left of a file call. -/
abbrev Call := Prog Kernel Op Result

/-- Return an error. -/
def fail (e : Int) : Call := .ret ⟨-e, []⟩

/-- `stale = false; task_acquire(node); if (stale) ...` -/
def acquiring (n : NodePtr) (w : Option Nat) (stale k : Call) : Call :=
  .step (.clearStale w) fun _ =>
  .step (.acquire n) fun s =>
  let test : Call := .step (.check n w) fun s => if s.active.stale then stale else k
  if fsIsheld n s.vfs then .step .pause fun _ => test else test

/-- The node behind a file descriptor. -/
def openFile (fd : Int) (k : Task) : Option NodePtr :=
  if fd < 0 ∨ TASK_MAXFILES ≤ fd then none else (k.files fd.toNat).file

/-- `check_perm`: the permission bits of the owner, the group or the
others. -/
def checkPerm (uid gid : Nat) (flags mask tuid : Nat) (user : Nat → Option Nat) : Bool :=
  match user uid, user tuid with
  | some _, some mgid =>
      let rw := if uid = tuid then (0o400, 0o200) else if gid = mgid then (0o40, 0o20) else (4, 2)
      !(hasFlag flags FS_READ && !hasFlag mask rw.1) &&
        !(hasFlag flags FS_WRITE && !hasFlag mask rw.2)
  | _, _ => false

/-- The flags to open a node with; one that is open keeps its own.  The code
compares these with `oflags`, which is still 0. -/
def compatFlags (flags : Nat) (x : FsNode) : Option Nat :=
  let oflags := 0
  if x.refcnt = 0 then some (flags &&& 0xff)
  else
    let invflags := (!fsIsRw x.oflags &&
        (hasFlag oflags FS_READ != hasFlag x.oflags FS_READ ||
          hasFlag oflags FS_WRITE != hasFlag x.oflags FS_WRITE)) ||
      hasFlag oflags FS_TRUNCATE != hasFlag x.oflags FS_TRUNCATE
    if invflags then none else some x.oflags

/-- The second half of `task_fs_open`, with the node acquired. -/
def openNode (fd : Nat) (path : Bytes) (flags : Nat) (n : NodePtr) : Call :=
  .step .skip fun s =>
  let x := s.vfs.node n
  if !checkPerm x.uid x.gid flags x.mask s.active.uid s.vfs.user then
    .step .release fun _ => fail EACCES
  else .step .skip fun s =>
    match compatFlags flags (s.vfs.node n) with
    | none => .step .release fun _ => fail EINVAL
    | some oflags =>
        .step (.file (.open n oflags)) fun _ =>
        .step (.install fd n flags path) fun _ =>
        .step .release fun _ => .ret ⟨fd, []⟩

/-- The first free descriptor. -/
def freeFd (k : Task) : Option Nat :=
  (List.range TASK_MAXFILES).find? fun fd => (k.files fd).file.isNone

/-- `task_fs_open`. -/
def taskFsOpen (path : Bytes) (flags mask : Nat) : Call :=
  .step .skip fun s =>
  match freeFd s.active with
  | none => fail EMFILE
  | some fd =>
      .step (.file (.resolve path)) fun s =>
      match (fsResolveFull path s.vfs).1 with
      | .fault => .hang
      | .missing => fail ENOENT
      | .found n => acquiring n none (fail EAGAIN) (openNode fd path flags n)
      | .create dir name =>
          if !hasFlag flags FS_CREATE then fail ENOENT
          else acquiring dir none (fail EAGAIN) <|
            .step (.file (.create dir name mask)) fun s =>
            .step .release fun _ =>
            match (fsCreate dir name FS_FILE mask s.vfs).1 with
            | none => fail EACCES
            | some n =>
                .step (.file (.chown n)) fun _ =>
                acquiring n none (fail EAGAIN) (openNode fd path flags n)

/-- `files[fd].pos += n`, unless `n` is an error. -/
def advance (fd : Nat) (r : Result) (s : Kernel) : Call :=
  let d := s.active.files fd
  if 0 ≤ r.val then .step (.desc fd { d with pos := d.pos + r.val }) fun _ => .ret r else .ret r

/-- `(uint32_t)task_active->files[fd].pos`. -/
def filePos (fd : Nat) (k : Task) : Nat := ((k.files fd).pos % 2 ^ 32).toNat

/-- `task_fs_read`; `buf` says whether there is a buffer. -/
def taskFsRead (fd : Int) (buf : Bool) (cnt : Nat) : Call :=
  .step .skip fun s =>
  match openFile fd s.active with
  | none => fail EBADF
  | some n =>
      if !buf then fail EINVAL
      else if !hasFlag (s.active.files fd.toNat).flags FS_READ then fail EBADF
      else acquiring n none (fail EAGAIN) <|
        .step .skip fun s =>
        let pos := filePos fd.toNat s.active
        .step (.file (.read n pos cnt)) fun s =>
        let r := (fsRead n pos cnt s.active.id s.vfs).1
        .step .release fun s => advance fd.toNat ⟨r.1, r.2⟩ s

/-- `write_fs` of a channel, going on with its result. -/
def chnlWriteFs (i : Nat) (data : Bytes) (k : Int → Call) : Call :=
  .step .skip fun s =>
  if chnlAgain s.active.id (s.vfs.chnl i) then k (-EAGAIN)
  else
    .step (.file (.address i)) fun _ =>
    .step (.file (.sign i)) fun _ =>
    .step (.file (.copy i data)) fun _ =>
    .step (.wake i) fun _ => k (chnlFit data).length

/-- `fs_write`, going on with its result. -/
def fsWrite (n : NodePtr) (offset : Nat) (data : Bytes) (k : Int → Call) : Call :=
  .step .skip fun s =>
  match writeHook (s.vfs.node n) with
  | none => k 0
  | some .ramfs =>
      .step (.file (.ramfsWrite n offset data)) fun s => k (fsWriteRamfs n offset data s.vfs).1
  | some .chnlfs => chnlWriteFs (s.vfs.node n).inode data k
  | some .other => k (s.vfs.hook n)

/-- `task_fs_write`; without a buffer `data` is `none`. -/
def taskFsWrite (fd : Int) (data : Option Bytes) : Call :=
  .step .skip fun s =>
  match openFile fd s.active with
  | none => fail EBADF
  | some n =>
      match data with
      | none => fail EINVAL
      | some data =>
          if !hasFlag (s.active.files fd.toNat).flags FS_WRITE then fail EBADF
          else acquiring n none (fail EAGAIN) <|
            .step .skip fun s =>
            fsWrite n (filePos fd.toNat s.active) data fun r =>
            .step .release fun s => advance fd.toNat ⟨r, []⟩ s

/-- Conversion to `long`. -/
def toLong (z : Int) : Int := z.bmod (2 ^ 32)

theorem toLong_emod (z : Int) : toLong z % 2 ^ 32 = z % 2 ^ 32 := Int.bmod_emod

theorem toLong_of_lt {n : Nat} (h : n < 2 ^ 31) : toLong n = n := by
  rw [toLong, Int.bmod_eq_of_le] <;> omega

theorem toLong_lt (z : Int) : toLong z < 2 ^ 31 := by
  have h := Int.bmod_lt (x := z) (m := 2 ^ 32) (by decide)
  rw [toLong]
  omega

/-- `whence`. -/
inductive Whence where
  | set | cur | end | other
  deriving DecidableEq, Repr

/-- The position that a seek asks for. -/
def seekTo (pos p : Int) (len : Nat) : Whence → Int
  | .set => p
  | .cur => toLong (pos + p)
  | .end => toLong (len - p)
  | .other => pos

/-- `task_fs_seek`. -/
def taskFsSeek (fd : Int) (p : Int) (whence : Whence) : Call :=
  .step .skip fun s =>
  match openFile fd s.active with
  | none => fail EBADF
  | some n =>
      if whence = .other then fail EINVAL
      else
        let d := s.active.files fd.toNat
        let len := (s.vfs.node n).len
        let pos := toLong (min (max (seekTo d.pos p len whence) 0) len)
        .step (.desc fd.toNat { d with pos := pos }) fun _ => .ret ⟨pos, []⟩

/-- `task_fs_close`. -/
def taskFsClose (fd : Int) : Call :=
  .step .skip fun s =>
  match openFile fd s.active with
  | none => fail EBADF
  | some n =>
      acquiring n none (fail EAGAIN) <|
        .step (.file (.close n)) fun _ =>
        .step .release fun s =>
        .step (.desc fd.toNat { s.active.files fd.toNat with file := none }) fun _ => .ret ⟨0, []⟩

/-! ## io control -/

/-- The commands of a channel; the timeout of `ECIO_CHNL_WAITREAD` is in
nanoseconds. -/
inductive Ioctl where
  | setDest (pid : Int)
  | waitRead (tv : Option Nat)
  | getSource
  | lockw
  | unlockw
  | other
  deriving DecidableEq, Repr

/-- `ECIO_CHNL_WAITREAD`. -/
def chnlWaitRead (n : NodePtr) (i : Nat) (tv : Option Nat) (k : Int → Call) : Call :=
  .step .skip fun s =>
  if (s.vfs.chnl i).dest = s.active.id then k 0
  else
    .step .release fun _ =>
    .step .skip fun s =>
    let waketime := match tv with
      | none => 2 ^ 64 - 1
      | some ns => u64 (s.timens + ns)
    let woken : Call := acquiring n (some i) (k (-EINTR)) <|
      .step .skip fun s => k (if (s.vfs.chnl i).dest = s.active.id then 0 else -EAGAIN)
    .step .skip fun s =>
    if waketime < s.timens then woken else .step (.sleep i waketime) fun _ => woken

/-- `ioctl_fs`, going on with its result. -/
def chnlIoctl (n : NodePtr) (i : Nat) (k : Int → Call) : Ioctl → Call
  | .setDest pid => .step (.file (.setDest i pid)) fun s =>
      k (chnlSetDest s.active.id pid (s.vfs.chnl i)).1
  | .waitRead tv => chnlWaitRead n i tv k
  | .getSource => .step .skip fun s => k (s.vfs.chnl i).source
  | .lockw => .step (.file (.lockw i)) fun s => k (chnlLockw s.active.id (s.vfs.chnl i)).1
  | .unlockw => .step (.file (.unlockw i)) fun s =>
      k (chnlUnlockw s.active.id (s.vfs.chnl i)).1
  | .other => k (-ENOSYS)

/-- `fs_ioctl`, going on with its result. -/
def fsIoctl (n : NodePtr) (op : Ioctl) (k : Int → Call) : Call :=
  .step .skip fun s =>
  match (s.vfs.node n).ioctl with
  | none => k (-EBADF)
  | some .chnlfs => chnlIoctl n (s.vfs.node n).inode k op
  | some _ => k (s.vfs.hook n)

/-- `task_fs_ioctl`. -/
def taskFsIoctl (fd : Int) (op : Ioctl) : Call :=
  .step .skip fun s =>
  match openFile fd s.active with
  | none => fail EBADF
  | some n =>
      acquiring n none (fail EAGAIN) <|
        fsIoctl n op fun r => .step .release fun _ => .ret ⟨r, []⟩

/-! ## calls -/

inductive FileCall where
  | open (path : Bytes) (flags mask : Nat)
  | read (fd : Int) (buf : Bool) (cnt : Nat)
  | write (fd : Int) (data : Option Bytes)
  | seek (fd : Int) (p : Int) (whence : Whence)
  | close (fd : Int)
  | ioctl (fd : Int) (op : Ioctl)

/-- The program of a file call. -/
def FileCall.prog : FileCall → Call
  | .open path flags mask => taskFsOpen path flags mask
  | .read fd buf cnt => taskFsRead fd buf cnt
  | .write fd data => taskFsWrite fd data
  | .seek fd p whence => taskFsSeek fd p whence
  | .close fd => taskFsClose fd
  | .ioctl fd op => taskFsIoctl fd op

end Eclair
