import Mathlib.Data.List.InsertIdx
import Eclair.Lib.Simulation
import Eclair.Task.Sharing
import Eclair.Vfs.RamfsBytes

/-!
# Eclair.Task.RamFile

A ramfs file under the file calls of all the tasks that have it open.

The calls keep the positions of the descriptors within the file: a seek ends
there, and a file that is open is never emptied, because `task_fs_open`
refuses to join a truncating open and the flags of others are those of the
first.  So the file is a list of bytes (`ByteFile`) that reads take from and
writes are spliced into, up to `RAMFS_MAX` bytes.
-/

namespace Eclair

open Kernel

/-! ## the calls -/

/-- A ramfs file and the descriptors that are open on it. -/
structure RamShare where
  vfs : Vfs
  ptr : NodePtr
  fds : List FileDesc

/-- The node. -/
abbrev RamShare.node (s : RamShare) : FsNode := s.vfs.node s.ptr

/-- A file call on the node, or on one of its descriptors. -/
inductive RamCall where
  | open (flags : Nat) (tid : Int) (uid : Nat)
  | read (fd cnt : Nat) (tid : Int)
  | write (fd : Nat) (data : Bytes)
  | seek (fd : Nat) (p : Int) (whence : Whence)
  | close (fd : Nat)

/-- `(uint32_t)pos`. -/
def FileDesc.offset (d : FileDesc) : Nat := (d.pos % 2 ^ 32).toNat

/-- `task_fs_open` with the node found and acquired. -/
def ramOpen (flags : Nat) (tid : Int) (uid : Nat) (s : RamShare) : Result × RamShare :=
  if !checkPerm s.node.uid s.node.gid flags s.node.mask uid s.vfs.user then (⟨-EACCES, []⟩, s)
  else match compatFlags flags s.node with
    | none => (⟨-EINVAL, []⟩, s)
    | some oflags =>
        (⟨s.fds.length, []⟩,
          { s with vfs := fsOpen s.ptr oflags tid s.vfs, fds := s.fds ++ [⟨some s.ptr, flags, 0⟩] })

/-- `task_fs_read` with the node acquired. -/
def ramRead (fd cnt : Nat) (tid : Int) (s : RamShare) : Result × RamShare :=
  match s.fds[fd]? with
  | none => (⟨-EBADF, []⟩, s)
  | some d =>
      if !hasFlag d.flags FS_READ then (⟨-EBADF, []⟩, s)
      else
        let r := fsRead s.ptr d.offset cnt tid s.vfs
        (⟨r.1.1, r.1.2⟩,
          { s with
            vfs := r.2
            fds := if 0 ≤ r.1.1 then s.fds.set fd { d with pos := d.pos + r.1.1 } else s.fds })

/-- `task_fs_write` with the node acquired; the node has no other hook. -/
def ramWrite (fd : Nat) (data : Bytes) (s : RamShare) : Result × RamShare :=
  match s.fds[fd]? with
  | none => (⟨-EBADF, []⟩, s)
  | some d =>
      if !hasFlag d.flags FS_WRITE then (⟨-EBADF, []⟩, s)
      else match writeHook s.node with
        | some .ramfs =>
            let r := fsWriteRamfs s.ptr d.offset data s.vfs
            (⟨r.1, []⟩, { s with vfs := r.2, fds := s.fds.set fd { d with pos := d.pos + r.1 } })
        | _ => (⟨0, []⟩, s)

/-- `task_fs_seek`. -/
def ramSeek (fd : Nat) (p : Int) (whence : Whence) (s : RamShare) : Result × RamShare :=
  match s.fds[fd]? with
  | none => (⟨-EBADF, []⟩, s)
  | some d =>
      if whence = .other then (⟨-EINVAL, []⟩, s)
      else
        let pos := toLong (min (max (seekTo d.pos p s.node.len whence) 0) s.node.len)
        (⟨pos, []⟩, { s with fds := s.fds.set fd { d with pos := pos } })

/-- `task_fs_close` with the node acquired. -/
def ramClose (fd : Nat) (s : RamShare) : Result × RamShare :=
  if fd < s.fds.length then
    (⟨0, []⟩, { s with vfs := fsClose s.ptr s.vfs, fds := s.fds.eraseIdx fd })
  else (⟨-EBADF, []⟩, s)

/-- A call: what it returns, and the state after. -/
def RamCall.next (s : RamShare) : RamCall → Result × RamShare
  | .open flags tid uid => ramOpen flags tid uid s
  | .read fd cnt tid => ramRead fd cnt tid s
  | .write fd data => ramWrite fd data s
  | .seek fd p whence => ramSeek fd p whence s
  | .close fd => ramClose fd s

/-! ## the file as bytes -/

/-- A descriptor of a file of bytes. -/
structure ByteDesc where
  flags : Nat
  pos : Nat

/-- A file of bytes: what it holds, the mode of the first open, and the
descriptors. -/
structure ByteFile where
  bytes : Bytes
  mode : Nat
  fds : List ByteDesc

namespace ByteFile

/-- Opening: the first one sets the mode and may empty the file; the others
join it or not, whatever they ask for. -/
def openAs (may : Nat → Nat → Bool) (flags uid : Nat) (f : ByteFile) : Result × ByteFile :=
  if !may flags uid then (⟨-EACCES, []⟩, f)
  else if f.fds = [] then
    (⟨0, []⟩, ⟨if hasFlag flags FS_TRUNCATE then [] else f.bytes, flags &&& 0xff, [⟨flags, 0⟩]⟩)
  else if Lenient f.mode then
    (⟨f.fds.length, []⟩, { f with fds := f.fds ++ [⟨flags, 0⟩] })
  else (⟨-EINVAL, []⟩, f)

/-- Reading: the bytes from the position on. -/
def read (fd cnt : Nat) (f : ByteFile) : Result × ByteFile :=
  match f.fds[fd]? with
  | none => (⟨-EBADF, []⟩, f)
  | some d =>
      if !hasFlag d.flags FS_READ then (⟨-EBADF, []⟩, f)
      else
        let b := if hasFlag f.mode FS_READ then (f.bytes.drop d.pos).take cnt else []
        (⟨b.length, b⟩, { f with fds := f.fds.set fd { d with pos := d.pos + b.length } })

/-- Writing: what fits of the data takes the place of the bytes from the
position on. -/
def write (fd : Nat) (data : Bytes) (f : ByteFile) : Result × ByteFile :=
  match f.fds[fd]? with
  | none => (⟨-EBADF, []⟩, f)
  | some d =>
      if !hasFlag d.flags FS_WRITE then (⟨-EBADF, []⟩, f)
      else
        let b := if hasFlag f.mode FS_WRITE then data.take (RAMFS_MAX - d.pos) else []
        (⟨b.length, []⟩,
          { f with
            bytes := splice d.pos b f.bytes
            fds := f.fds.set fd { d with pos := d.pos + b.length } })

/-- Seeking: within the file. -/
def seek (fd : Nat) (p : Int) (whence : Whence) (f : ByteFile) : Result × ByteFile :=
  match f.fds[fd]? with
  | none => (⟨-EBADF, []⟩, f)
  | some d =>
      if whence = .other then (⟨-EINVAL, []⟩, f)
      else
        let pos := (min (max (seekTo d.pos p f.bytes.length whence) 0) f.bytes.length).toNat
        (⟨pos, []⟩, { f with fds := f.fds.set fd { d with pos := pos } })

/-- Closing. -/
def close (fd : Nat) (f : ByteFile) : Result × ByteFile :=
  if fd < f.fds.length then (⟨0, []⟩, { f with fds := f.fds.eraseIdx fd })
  else (⟨-EBADF, []⟩, f)

/-- A call on the file of bytes. -/
def next (may : Nat → Nat → Bool) (f : ByteFile) : RamCall → Result × ByteFile
  | .open flags _ uid => f.openAs may flags uid
  | .read fd cnt _ => f.read fd cnt
  | .write fd data => f.write fd data
  | .seek fd p whence => f.seek fd p whence
  | .close fd => f.close fd

end ByteFile

/-! ## the abstraction -/

/-- The hooks of a file that `ramfs_create` makes. -/
structure FsNode.OnRamfs (x : FsNode) : Prop where
  read : x.read = some .ramfs
  write : x.write = some .ramfs
  opens : x.opens = some .ramfs
  close : x.close = some .ramfs

/-- The node and its descriptors are the file of bytes. -/
structure Represents (may : Nat → Nat → Bool) (s : RamShare) (f : ByteFile) : Prop where
  hooks : s.node.OnRamfs
  perm : ∀ flags uid,
    checkPerm s.node.uid s.node.gid flags s.node.mask uid s.vfs.user = may flags uid
  bytes : s.node.data.contents = f.bytes
  len : s.node.len = f.bytes.length
  bound : f.bytes.length ≤ RAMFS_MAX
  within : s.node.data.Within
  refcnt : s.node.refcnt = f.fds.length
  mode : f.fds ≠ [] → s.node.oflags = f.mode
  fds : s.fds = f.fds.map fun d => ⟨some s.ptr, d.flags, d.pos⟩
  pos : ∀ d ∈ f.fds, d.pos ≤ f.bytes.length

/-! ## one call -/

variable {may : Nat → Nat → Bool} {s : RamShare} {f : ByteFile} {v : Vfs} {n : NodePtr}

/-- A mode after the first open empties the file if the flags say so. -/
theorem hasFlag_truncate (flags : Nat) :
    hasFlag (flags &&& 0xff) FS_TRUNCATE = hasFlag flags FS_TRUNCATE := by
  simp [hasFlag, Nat.and_assoc, FS_TRUNCATE]

/-- `fs_open` of a ramfs file that is closed, or open with the same mode. -/
theorem fsOpen_ramfs {flags : Nat} (tid : Int) (h : (v.node n).opens = some .ramfs)
    (hm : (v.node n).refcnt = 0 ∨ (v.node n).oflags = flags) :
    (fsOpen n flags tid v).node n =
      { v.node n with
        data := ramfsOpen flags (v.node n).data
        len := if hasFlag flags FS_TRUNCATE then 0 else (v.node n).len
        oflags := flags
        refcnt := (v.node n).refcnt + 1 } := by
  have hgo : ¬ ((v.node n).refcnt ≠ 0 ∧ (v.node n).oflags ≠ flags) := by
    rcases hm with h0 | h0
    · simp [h0]
    · simp [h0]
  rw [fsOpen, if_neg hgo, openHook, h]
  simp

theorem fsOpen_user (flags : Nat) (tid : Int) : (fsOpen n flags tid v).user = v.user := by
  rw [fsOpen]
  split
  · rfl
  · rw [Vfs.modNode_user, openHook]
    split <;> rfl

/-- The descriptors that a call finds. -/
theorem Represents.fd (h : Represents may s f) (fd : Nat) :
    s.fds[fd]? = (f.fds[fd]?).map fun d => ⟨some s.ptr, d.flags, d.pos⟩ := by
  rw [h.fds, List.getElem?_map]

theorem Represents.fds_nil (h : Represents may s f) : s.node.refcnt = 0 ↔ f.fds = [] := by
  rw [h.refcnt, List.length_eq_zero_iff]

/-- A position in the file, as the calls read it. -/
theorem offset_natCast {flags pos : Nat} {file : Option NodePtr} (h : pos ≤ RAMFS_MAX) :
    FileDesc.offset ⟨file, flags, pos⟩ = pos := by
  have hmax : RAMFS_MAX < 2 ^ 32 := by decide
  simp only [FileDesc.offset]
  omega

/-- The file after an open that the mode of the node allows. -/
theorem Represents.joined {o : Nat} (flags : Nat) (h : Represents may s f) (tid : Int)
    (hm : s.node.refcnt = 0 ∨ s.node.oflags = o) (hpos : f.fds = [] ∨ ¬ hasFlag o FS_TRUNCATE) :
    Represents may
      { s with vfs := fsOpen s.ptr o tid s.vfs, fds := s.fds ++ [⟨some s.ptr, flags, 0⟩] }
      ⟨if hasFlag o FS_TRUNCATE then [] else f.bytes, o, f.fds ++ [⟨flags, 0⟩]⟩ := by
  have hnode := fsOpen_ramfs tid h.hooks.opens hm
  constructor
  case hooks => simpa only [RamShare.node, hnode] using ⟨h.hooks.1, h.hooks.2, h.hooks.3, h.hooks.4⟩
  case perm => simpa only [RamShare.node, hnode, fsOpen_user] using h.perm
  case bytes =>
    simp only [RamShare.node, hnode, ramfsOpen_contents]
    rw [h.bytes]
  case len =>
    simp only [RamShare.node, hnode]
    split
    · rfl
    · exact h.len
  case bound =>
    dsimp only
    split
    · exact Nat.zero_le _
    · exact h.bound
  case within => simpa only [RamShare.node, hnode] using ramfsOpen_within h.within o
  case refcnt => simpa [RamShare.node, hnode] using h.refcnt
  case mode => simp only [RamShare.node, hnode, implies_true]
  case fds => simp [h.fds]
  case pos =>
    intro d hd
    rcases List.mem_append.mp hd with hd | hd
    · rcases hpos with hnil | hno
      · simp [hnil] at hd
      · rw [if_neg hno]
        exact h.pos d hd
    · obtain rfl := List.mem_singleton.mp hd
      exact Nat.zero_le _

theorem Represents.openAs (h : Represents may s f) (flags : Nat) (tid : Int) (uid : Nat) :
    Simulation.Step (Represents may) (ramOpen flags tid uid s) (f.openAs may flags uid) := by
  rw [ramOpen, ByteFile.openAs, h.perm]
  by_cases hp : may flags uid = true
  · rw [if_neg (by simp [hp]), if_neg (by simp [hp])]
    by_cases hnil : f.fds = []
    · have hzero := h.fds_nil.mpr hnil
      have hcompat : compatFlags flags s.node = some (flags &&& 0xff) := by
        rw [compatFlags, if_pos hzero]
      have hrep := h.joined flags (o := flags &&& 0xff) tid (.inl hzero) (.inl hnil)
      rw [hasFlag_truncate, hnil, List.nil_append] at hrep
      rw [hcompat, if_pos hnil]
      exact ⟨by simp [h.fds, hnil], hrep⟩
    · have hopen : s.node.refcnt ≠ 0 := fun h0 => hnil (h.fds_nil.mp h0)
      have hmode := h.mode hnil
      rw [if_neg hnil]
      by_cases hl : Lenient f.mode = true
      · obtain ⟨o, ho⟩ : ∃ o, compatFlags flags s.node = some o := by
          refine Option.ne_none_iff_exists'.mp fun hnone => ?_
          exact (compatFlags_eq_none flags hopen).mp hnone (hmode ▸ hl)
        have hof : o = s.node.oflags := by simpa [hopen] using compatFlags_eq_some ho
        have htr : ¬ hasFlag o FS_TRUNCATE := by
          rw [hof, hmode]
          simp only [Lenient, Bool.and_eq_true, Bool.not_eq_true'] at hl
          simp [hl.1]
        have hrep := h.joined flags tid (.inr hof.symm) (.inr htr)
        rw [if_neg htr] at hrep
        rw [ho, if_pos hl]
        refine ⟨by simp [h.fds], ?_⟩
        rw [hof, hmode] at hrep ⊢
        exact hrep
      · have hnone := (compatFlags_eq_none (x := s.node) flags hopen).mpr (hmode ▸ hl)
        rw [hnone, if_neg hl]
        exact ⟨rfl, h⟩
  · rw [if_pos (by simp [hp]), if_pos (by simp [hp])]
    exact ⟨rfl, h⟩

/-- The file after a call that changes its bytes or a position. -/
theorem Represents.changed {D : RamfsFile} {L : Nat} {bs : Bytes} {fds : List ByteDesc} {v : Vfs}
    (h : Represents may s f) (hnode : v.node s.ptr = { s.node with data := D, len := L })
    (huser : v.user = s.vfs.user) (hD : D.contents = bs) (hL : L = bs.length)
    (hbound : bs.length ≤ RAMFS_MAX) (hin : D.Within) (hlen : fds.length = f.fds.length)
    (hpos : ∀ d ∈ fds, d.pos ≤ bs.length) :
    Represents may ⟨v, s.ptr, fds.map fun d => ⟨some s.ptr, d.flags, d.pos⟩⟩ ⟨bs, f.mode, fds⟩ := by
  constructor
  case hooks => simpa only [RamShare.node, hnode] using ⟨h.hooks.1, h.hooks.2, h.hooks.3, h.hooks.4⟩
  case perm => simpa only [RamShare.node, hnode, huser] using h.perm
  case bytes => simpa only [RamShare.node, hnode] using hD
  case len => simpa only [RamShare.node, hnode] using hL
  case bound => exact hbound
  case within => simpa only [RamShare.node, hnode] using hin
  case refcnt => simpa only [RamShare.node, hnode, hlen] using h.refcnt
  case mode =>
    intro hne
    simp only [RamShare.node, hnode]
    refine h.mode fun hnil => hne ?_
    rw [← List.length_eq_zero_iff, hlen, hnil]
    rfl
  case fds => rfl
  case pos => exact hpos

/-- The descriptors with one of them moved. -/
theorem Represents.moved {pos : Nat} {bs : Bytes} (h : Represents may s f) (fd : Nat)
    (d : ByteDesc) (hpos : pos ≤ bs.length) (hgrow : f.bytes.length ≤ bs.length) :
    s.fds.set fd ⟨some s.ptr, d.flags, pos⟩ =
        (f.fds.set fd { d with pos := pos }).map (fun d => ⟨some s.ptr, d.flags, d.pos⟩) ∧
      (f.fds.set fd { d with pos := pos }).length = f.fds.length ∧
      ∀ c ∈ f.fds.set fd { d with pos := pos }, c.pos ≤ bs.length := by
  refine ⟨by rw [h.fds, List.map_set], List.length_set, fun c hc => ?_⟩
  rcases List.mem_or_eq_of_mem_set hc with hc | rfl
  · exact Nat.le_trans (h.pos c hc) hgrow
  · exact hpos

/-- `fs_read` of a ramfs file. -/
theorem fsRead_ramfs (hr : (v.node n).read = some .ramfs) (offset cnt : Nat) (tid : Int) :
    fsRead n offset cnt tid v =
      let b := if (v.node n).passes FS_READ then ramfsRead offset cnt (v.node n).data else []
      (((b.length : Int), b), v) := by
  by_cases hp : (v.node n).passes FS_READ = true
  · have hgo : ¬ ((v.node n).refcnt = 0 ∨ (!hasFlag (v.node n).oflags FS_READ) = true) := by
      simpa [FsNode.passes] using hp
    rw [if_pos hp, fsRead, if_neg hgo, hr]
  · rw [fsRead_passes offset cnt hp, if_neg hp]
    rfl

/-- A descriptor that is there: the node is open, with the mode of the file. -/
theorem Represents.passes {fd bit : Nat} {d : ByteDesc} (h : Represents may s f)
    (hd : f.fds[fd]? = some d) : s.node.passes bit = hasFlag f.mode bit := by
  have hne : f.fds ≠ [] := fun hnil => by simp [hnil] at hd
  have hopen : s.node.refcnt ≠ 0 := fun h0 => hne (h.fds_nil.mp h0)
  rw [FsNode.passes, h.mode hne]
  simp [hopen]

theorem Represents.read (h : Represents may s f) (fd cnt : Nat) (tid : Int) :
    Simulation.Step (Represents may) (ramRead fd cnt tid s) (f.read fd cnt) := by
  rw [ramRead, ByteFile.read, h.fd]
  cases hd : f.fds[fd]? with
  | none => exact ⟨rfl, h⟩
  | some d =>
      rw [Option.map_some]
      dsimp only
      by_cases hr : hasFlag d.flags FS_READ = true
      · have hle := h.pos d (List.mem_of_getElem? hd)
        have hmax := h.bound
        have hsize : s.node.data.size = f.bytes.length := by rw [← length_contents, h.bytes]
        have hread : ramfsRead d.pos cnt s.node.data = (f.bytes.drop d.pos).take cnt := by
          rw [ramfsRead_contents (by omega) (by omega), h.bytes]
        have hgo : ¬ (!hasFlag d.flags FS_READ) = true := by simp [hr]
        rw [if_neg hgo, if_neg hgo, fsRead_ramfs h.hooks.read, offset_natCast (by omega), hread, h.passes hd]
        obtain ⟨b, hb⟩ : ∃ b, (if hasFlag f.mode FS_READ = true then (f.bytes.drop d.pos).take cnt
          else []) = b := ⟨_, rfl⟩
        have hlen : d.pos + b.length ≤ f.bytes.length := by
          subst hb
          split
          · simp only [List.length_take, List.length_drop]
            omega
          · simpa using hle
        obtain ⟨hset, hfds, hpos⟩ := h.moved fd d hlen Nat.le.refl
        dsimp only
        rw [hb, if_pos (by omega), ← Int.natCast_add, hset]
        exact ⟨rfl, h.changed rfl rfl h.bytes h.len h.bound h.within hfds hpos⟩
      · rw [if_pos (by simp [hr]), if_pos (by simp [hr])]
        exact ⟨rfl, h⟩

theorem Represents.write (h : Represents may s f) (fd : Nat) (data : Bytes) :
    Simulation.Step (Represents may) (ramWrite fd data s) (f.write fd data) := by
  rw [ramWrite, ByteFile.write, h.fd]
  cases hd : f.fds[fd]? with
  | none => exact ⟨rfl, h⟩
  | some d =>
      rw [Option.map_some]
      dsimp only
      by_cases hw : hasFlag d.flags FS_WRITE = true
      · have hle := h.pos d (List.mem_of_getElem? hd)
        have hmax := h.bound
        have hsize : (s.vfs.node s.ptr).data.size = f.bytes.length := by
          rw [← length_contents, ← h.bytes]
        have hgo : ¬ (!hasFlag d.flags FS_WRITE) = true := by simp [hw]
        rw [if_neg hgo, if_neg hgo, writeHook_passes, h.passes hd,
          h.hooks.write, offset_natCast (by omega)]
        by_cases hm : hasFlag f.mode FS_WRITE = true
        · obtain ⟨hcount, hbytes⟩ :=
            ramfsWrite_contents (f := (s.vfs.node s.ptr).data) (by omega : d.pos ≤ _) (by omega) data
          rw [if_pos hm, if_pos hm]
          have hb : (data.take (RAMFS_MAX - d.pos)).length ≤ RAMFS_MAX - d.pos := by
            rw [List.length_take]
            omega
          obtain ⟨b, hdef⟩ : ∃ b, data.take (RAMFS_MAX - d.pos) = b := ⟨_, rfl⟩
          rw [hdef] at hcount hbytes hb
          rw [h.bytes] at hbytes
          have hlen : (splice d.pos b f.bytes).length = max f.bytes.length (d.pos + b.length) :=
            length_splice hle
          obtain ⟨hset, hfds, hpos⟩ := h.moved fd d
            (show d.pos + b.length ≤ (splice d.pos b f.bytes).length by omega) (by omega)
          have hmax32 : RAMFS_MAX < 2 ^ 32 := by decide
          simp only [fsWriteRamfs, hcount, hdef]
          rw [← Int.natCast_add, hset]
          refine ⟨rfl, h.changed ?_ rfl hbytes rfl (by omega) (ramfsWrite_within h.within data)
            hfds hpos⟩
          have hend : (s.vfs.node s.ptr).len = f.bytes.length := h.len
          rw [Vfs.modNode_node_self]
          congr 1
          rw [hlen]
          split
          · rw [u32_of_lt (by omega)]
            omega
          · omega
        · obtain ⟨hset, hfds, hpos⟩ := h.moved fd d hle Nat.le.refl
          have hsame : splice d.pos [] f.bytes = f.bytes := by simp [splice]
          have hkeep : f.fds.set fd { d with pos := d.pos } = f.fds := by
            obtain ⟨hlt, rfl⟩ := List.getElem?_eq_some_iff.mp hd
            exact List.set_getElem_self hlt
          rw [if_neg hm, if_neg hm]
          dsimp only
          rw [hsame]
          refine ⟨rfl, ?_⟩
          simpa [hkeep] using h
      · rw [if_pos (by simp [hw]), if_pos (by simp [hw])]
        exact ⟨rfl, h⟩

theorem Represents.seek (h : Represents may s f) (fd : Nat) (p : Int) (whence : Whence) :
    Simulation.Step (Represents may) (ramSeek fd p whence s) (f.seek fd p whence) := by
  rw [ramSeek, ByteFile.seek, h.fd]
  cases hd : f.fds[fd]? with
  | none => exact ⟨rfl, h⟩
  | some d =>
      rw [Option.map_some]
      dsimp only
      by_cases hw : whence = .other
      · rw [if_pos hw, if_pos hw]
        exact ⟨rfl, h⟩
      · have hmax := h.bound
        have hmax31 : RAMFS_MAX < 2 ^ 31 := by decide
        rw [if_neg hw, if_neg hw, h.len]
        obtain ⟨q, hq⟩ : ∃ q : Nat, min (max (seekTo d.pos p f.bytes.length whence) 0)
            f.bytes.length = (q : Int) := Int.eq_ofNat_of_zero_le (by omega)
        have hle : q ≤ f.bytes.length := by omega
        obtain ⟨hset, hfds, hpos⟩ := h.moved fd d hle Nat.le.refl
        rw [hq, toLong_of_lt (by omega), Int.toNat_natCast, hset]
        exact ⟨rfl, h.changed rfl rfl h.bytes h.len h.bound h.within hfds hpos⟩

theorem Represents.close (h : Represents may s f) (fd : Nat) :
    Simulation.Step (Represents may) (ramClose fd s) (f.close fd) := by
  have hfds : s.fds.length = f.fds.length := by rw [h.fds, List.length_map]
  rw [ramClose, ByteFile.close, hfds]
  by_cases hlt : fd < f.fds.length
  · rw [if_pos hlt, if_pos hlt]
    have hopen : s.node.refcnt ≠ 0 := by
      rw [h.refcnt]
      omega
    have hsize : s.node.data.size = f.bytes.length := by rw [← length_contents, h.bytes]
    have hnode : (fsClose s.ptr s.vfs).node s.ptr =
        { s.node with data := ramfsClose s.node.data, refcnt := s.node.refcnt - 1 } := by
      rw [fsClose, if_neg hopen, Vfs.modNode_node_self, if_pos h.hooks.close]
    have huser : (fsClose s.ptr s.vfs).user = s.vfs.user := by
      rw [fsClose, if_neg hopen, Vfs.modNode_user]
    refine ⟨rfl, ?_⟩
    constructor
    case hooks =>
      simpa only [RamShare.node, hnode] using ⟨h.hooks.1, h.hooks.2, h.hooks.3, h.hooks.4⟩
    case perm => simpa only [RamShare.node, hnode, huser] using h.perm
    case bytes =>
      simp only [RamShare.node, hnode]
      rw [ramfsClose_contents (by rw [hsize]; exact h.bound), h.bytes]
    case len => simpa only [RamShare.node, hnode] using h.len
    case bound => exact h.bound
    case within => simpa only [RamShare.node, hnode] using ramfsClose_within h.within
    case refcnt =>
      simp only [RamShare.node, hnode]
      rw [List.length_eraseIdx_of_lt hlt, h.refcnt]
    case mode =>
      intro hne
      simp only [RamShare.node, hnode]
      refine h.mode fun hnil => hne ?_
      simp [hnil]
    case fds => simp only [h.fds, List.eraseIdx_map]
    case pos => exact fun d hd => h.pos d (List.mem_of_mem_eraseIdx hd)
  · rw [if_neg hlt, if_neg hlt]
    exact ⟨rfl, h⟩

/-- **One call** on the node is one call on the file of bytes. -/
theorem Represents.next (h : Represents may s f) (e : RamCall) :
    Simulation.Step (Represents may) (e.next s) (f.next may e) := by
  cases e with
  | «open» flags tid uid => exact h.openAs flags tid uid
  | read fd cnt tid => exact h.read fd cnt tid
  | write fd data => exact h.write fd data
  | seek fd p whence => exact h.seek fd p whence
  | close fd => exact h.close fd

/-! ## the calls of a task -/

/-- The node is as it is in the kernel, but for its flag `held`. -/
structure NodeShown (k : Kernel) (s : RamShare) : Prop where
  node : ∃ b, k.vfs.node s.ptr = { s.node with held := b }
  user : k.vfs.user = s.vfs.user

/-- `task_acquire` of a node that is not held. -/
def acquired (n : NodePtr) (k : Kernel) : Kernel :=
  taskAcquire n (k.modActive fun t => { t with stale := false })

section

variable {k : Kernel} {fd : Int} {i : Nat}

theorem modActive_active (g : Task → Task) : (k.modActive g).active = g k.active :=
  Kernel.modTask_task_self k k.taskActive g

theorem modVfs_active (g : Vfs → Vfs) : (k.modVfs g).active = k.active := rfl

theorem acquired_vfs (h : fsIsheld n k.vfs = false) :
    (acquired n k).vfs = grant k.taskActive n k.vfs := by
  rw [acquired, taskAcquire]
  simp [h]

theorem acquired_taskActive : (acquired n k).taskActive = k.taskActive := by
  rw [acquired, taskAcquire]
  split <;> rfl

theorem acquired_active (h : fsIsheld n k.vfs = false) :
    (acquired n k).active = { k.active with stale := false, res := some n } := by
  rw [Kernel.active, acquired_taskActive, acquired, taskAcquire]
  simp [h, Kernel.modActive]

/-- `task_acquire` of a node that is not held goes on at once. -/
theorem acquiring_run {stale body : Call} (h : fsIsheld n k.vfs = false) :
    (acquiring n none stale body).run Op.exec k = body.run Op.exec (acquired n k) := by
  have hstale : (acquired n k).active.stale = false := by rw [acquired_active h]
  have htest : (Resume.Prog.step (Op.check n none) fun s : Kernel =>
      if s.active.stale then stale else body).run Op.exec (acquired n k) =
        body.run Op.exec (acquired n k) := by
    rw [Resume.Prog.run_step, Op.exec, hstale]
    rfl
  rw [acquiring, Resume.Prog.run_step, Resume.Prog.run_step, if_neg (by simp [Op.exec, h])]
  exact htest

/-- `task_acquire` and `task_release` change nothing of the node but the flag. -/
theorem NodeShown.acquired (hs : NodeShown k s) (h : fsIsheld s.ptr k.vfs = false) :
    NodeShown (acquired s.ptr k) s := by
  obtain ⟨b, hb⟩ := hs.node
  refine ⟨⟨true, ?_⟩, ?_⟩
  · rw [acquired_vfs h, grant, Vfs.modNode_node_self, hb]
  · rw [acquired_vfs h]
    exact hs.user

theorem NodeShown.release (hs : NodeShown k s) (h : k.active.res = some s.ptr) :
    NodeShown (taskRelease k) s := by
  obtain ⟨b, hb⟩ := hs.node
  rw [taskRelease, h]
  refine ⟨⟨false, ?_⟩, hs.user⟩
  simp [Kernel.modActive, unhold, hb]

theorem taskRelease_files : (taskRelease k).active.files = k.active.files := by
  rw [taskRelease]
  split
  · rfl
  · rw [modActive_active]
    rfl

theorem setDesc_files (fd : Nat) (d : FileDesc) : (setDesc fd d k).active.files fd = d := by
  rw [setDesc, modActive_active]
  exact Function.update_self _ _ _

theorem install_active (fd : Nat) (n : NodePtr) (flags : Nat) (path : Bytes) :
    ((Op.install fd n flags path).exec k).active =
      { k.active with files := Function.update k.active.files fd ⟨some n, flags, 0⟩ } := by
  rw [Op.exec, modVfs_active, setDesc, modActive_active]

/-- The file systems change, and the node with them. -/
theorem NodeShown.file {o : FileOp} {w : Vfs}
    (hnode : ∃ b, (o.exec k.active.id k.active.uid k.vfs).node s.ptr = { w.node s.ptr with held := b })
    (huser : (o.exec k.active.id k.active.uid k.vfs).user = w.user) :
    NodeShown ((Op.file o).exec k) { s with vfs := w } :=
  ⟨hnode, huser⟩

/-- The end of a read or a write: release, and advance. -/
theorem NodeShown.advance {i : Nat} {r : Result} {d : FileDesc} (hs : NodeShown k s)
    (h : k.active.res = some s.ptr) (hd : k.active.files i = d) :
    ∃ k', (Resume.Prog.step Op.release fun s => Eclair.advance i r s).run Op.exec k = some (r, k') ∧
      NodeShown k' s ∧
      k'.active.files i = if 0 ≤ r.val then { d with pos := d.pos + r.val } else d := by
  have hrel := hs.release h
  rw [Resume.Prog.run_step, Op.exec, Eclair.advance, hd]
  by_cases hr : 0 ≤ r.val
  · rw [if_pos hr, if_pos hr]
    exact ⟨_, rfl, ⟨hrel.node, hrel.user⟩, setDesc_files i _⟩
  · rw [if_neg hr, if_neg hr]
    exact ⟨_, rfl, hrel, (congrFun taskRelease_files i).trans hd⟩

/-- **`task_fs_read`**, with nobody else around, is `ramRead` on its
descriptor. -/
theorem taskFsRead_run (cnt : Nat) (hs : NodeShown k s) (hr : s.node.read = some .ramfs)
    (hdesc : s.fds[i]? = some (k.active.files fd.toNat)) (hfile : openFile fd k.active = some s.ptr)
    (hfree : fsIsheld s.ptr k.vfs = false) :
    ∃ k', (taskFsRead fd true cnt).run Op.exec k = some ((ramRead i cnt k.active.id s).1, k') ∧
      NodeShown k' (ramRead i cnt k.active.id s).2 ∧
      (ramRead i cnt k.active.id s).2.fds[i]? = some (k'.active.files fd.toNat) := by
  have hi : i < s.fds.length := (List.getElem?_eq_some_iff.mp hdesc).1
  rw [ramRead, hdesc, taskFsRead, Resume.Prog.run_step, hfile]
  dsimp only [Op.exec]
  rw [if_neg (by simp)]
  by_cases hflag : hasFlag (k.active.files fd.toNat).flags FS_READ = true
  · have hgo : ¬ (!hasFlag (k.active.files fd.toNat).flags FS_READ) = true := by simp [hflag]
    have hacq := hs.acquired hfree
    have hact := acquired_active hfree
    have hpos : filePos fd.toNat (acquired s.ptr k).active = (k.active.files fd.toNat).offset := by
      rw [hact]
      rfl
    -- what is read does not depend on the flag
    obtain ⟨b, hb⟩ := hacq.node
    have hread : fsRead s.ptr (k.active.files fd.toNat).offset cnt k.active.id (acquired s.ptr k).vfs =
        ((fsRead s.ptr (k.active.files fd.toNat).offset cnt k.active.id s.vfs).1,
          (acquired s.ptr k).vfs) := by
      rw [fsRead_ramfs (by rw [hb]; exact hr), fsRead_ramfs hr, hb]
      rfl
    have hid : (acquired s.ptr k).active.id = k.active.id := by rw [hact]
    rw [if_neg hgo, if_neg hgo, acquiring_run hfree, Resume.Prog.run_step, Op.exec,
      Resume.Prog.run_step]
    dsimp only
    rw [hpos, hid, hread]
    have hshow := NodeShown.file (k := acquired s.ptr k) (s := s)
      (o := .read s.ptr (k.active.files fd.toNat).offset cnt)
      (w := (fsRead s.ptr (k.active.files fd.toNat).offset cnt k.active.id s.vfs).2) ?_ ?_
    · obtain ⟨k', hrun, hshow', hfiles⟩ := hshow.advance (i := fd.toNat)
        (d := k.active.files fd.toNat) (r := ⟨(fsRead s.ptr (k.active.files fd.toNat).offset cnt
          k.active.id s.vfs).1.1, (fsRead s.ptr (k.active.files fd.toNat).offset cnt k.active.id
            s.vfs).1.2⟩) (by rw [Op.exec, modVfs_active, hact]) (by rw [Op.exec, modVfs_active, hact])
      refine ⟨k', hrun, ⟨hshow'.node, hshow'.user⟩, ?_⟩
      rw [hfiles]
      dsimp only
      split
      · rw [List.getElem?_set_self hi]
      · exact hdesc
    · rw [FileOp.exec, hid, hread, fsRead_ramfs hr]
      exact ⟨b, hb⟩
    · rw [FileOp.exec, hid, hread, fsRead_ramfs hr]
      exact hacq.user
  · rw [if_pos (by simp [hflag]), if_pos (by simp [hflag])]
    exact ⟨k, rfl, hs, hdesc⟩

/-- **`task_fs_write`**, with nobody else around, is `ramWrite` on its
descriptor. -/
theorem taskFsWrite_run (data : Bytes) (hs : NodeShown k s) (hw : s.node.write = some .ramfs)
    (hdesc : s.fds[i]? = some (k.active.files fd.toNat)) (hfile : openFile fd k.active = some s.ptr)
    (hfree : fsIsheld s.ptr k.vfs = false) :
    ∃ k', (taskFsWrite fd (some data)).run Op.exec k = some ((ramWrite i data s).1, k') ∧
      NodeShown k' (ramWrite i data s).2 ∧
      (ramWrite i data s).2.fds[i]? = some (k'.active.files fd.toNat) := by
  have hi : i < s.fds.length := (List.getElem?_eq_some_iff.mp hdesc).1
  rw [ramWrite, hdesc, taskFsWrite, Resume.Prog.run_step, hfile]
  dsimp only [Op.exec]
  by_cases hflag : hasFlag (k.active.files fd.toNat).flags FS_WRITE = true
  · have hgo : ¬ (!hasFlag (k.active.files fd.toNat).flags FS_WRITE) = true := by simp [hflag]
    have hacq := hs.acquired hfree
    have hact := acquired_active hfree
    have hpos : filePos fd.toNat (acquired s.ptr k).active = (k.active.files fd.toNat).offset := by
      rw [hact]
      rfl
    obtain ⟨b, hb⟩ := hacq.node
    have hhook : writeHook ((acquired s.ptr k).vfs.node s.ptr) = writeHook s.node := by
      rw [hb]
      rfl
    rw [if_neg hgo, if_neg hgo, acquiring_run hfree, Resume.Prog.run_step, fsWrite, Op.exec,
      Resume.Prog.run_step, hpos, hhook]
    by_cases hp : s.node.passes FS_WRITE = true
    · have hramfs : writeHook s.node = some .ramfs := by rw [writeHook_passes, if_pos hp, hw]
      rw [hramfs]
      dsimp only [Op.exec]
      rw [Resume.Prog.run_step]
      have hcount : (fsWriteRamfs s.ptr (k.active.files fd.toNat).offset data
          (acquired s.ptr k).vfs).1 =
            (fsWriteRamfs s.ptr (k.active.files fd.toNat).offset data s.vfs).1 := by
        rw [fsWriteRamfs, hb]
        rfl
      have hshow := NodeShown.file (k := acquired s.ptr k) (s := s)
        (o := .ramfsWrite s.ptr (k.active.files fd.toNat).offset data)
        (w := (fsWriteRamfs s.ptr (k.active.files fd.toNat).offset data s.vfs).2) ?_ ?_
      · obtain ⟨k', hrun, hshow', hfiles⟩ := hshow.advance (i := fd.toNat)
          (d := k.active.files fd.toNat) (r := ⟨(fsWriteRamfs s.ptr
            (k.active.files fd.toNat).offset data s.vfs).1, []⟩)
          (by rw [Op.exec, modVfs_active, hact]) (by rw [Op.exec, modVfs_active, hact])
        rw [hcount]
        refine ⟨k', hrun, ⟨hshow'.node, hshow'.user⟩, ?_⟩
        rw [hfiles, if_pos (by simp), List.getElem?_set_self hi]
      · refine ⟨b, ?_⟩
        simp only [FileOp.exec, fsWriteRamfs, Vfs.modNode_node_self, hb]
      · exact hacq.user
    · have hnone : writeHook s.node = none := by rw [writeHook_passes, if_neg hp]
      rw [hnone]
      obtain ⟨k', hrun, hshow', hfiles⟩ := hacq.advance (i := fd.toNat)
        (d := k.active.files fd.toNat) (r := ⟨0, []⟩) (by rw [hact]) (by rw [hact])
      refine ⟨k', hrun, hshow', ?_⟩
      rw [hfiles, if_pos (by simp), hdesc]
      simp
  · rw [if_pos (by simp [hflag]), if_pos (by simp [hflag])]
    exact ⟨k, rfl, hs, hdesc⟩

/-- **`task_fs_seek`** is `ramSeek` on its descriptor. -/
theorem taskFsSeek_run (p : Int) (whence : Whence) (hs : NodeShown k s)
    (hdesc : s.fds[i]? = some (k.active.files fd.toNat)) (hfile : openFile fd k.active = some s.ptr) :
    ∃ k', (taskFsSeek fd p whence).run Op.exec k = some ((ramSeek i p whence s).1, k') ∧
      NodeShown k' (ramSeek i p whence s).2 ∧
      (ramSeek i p whence s).2.fds[i]? = some (k'.active.files fd.toNat) := by
  have hi : i < s.fds.length := (List.getElem?_eq_some_iff.mp hdesc).1
  obtain ⟨b, hb⟩ := hs.node
  have hlen : (k.vfs.node s.ptr).len = s.node.len := by rw [hb]
  rw [ramSeek, hdesc, taskFsSeek, Resume.Prog.run_step, hfile]
  dsimp only [Op.exec]
  by_cases hw : whence = .other
  · rw [if_pos hw, if_pos hw]
    exact ⟨k, rfl, hs, hdesc⟩
  · rw [if_neg hw, if_neg hw, Resume.Prog.run_step, hlen]
    refine ⟨_, rfl, ⟨⟨b, hb⟩, hs.user⟩, ?_⟩
    rw [Op.exec, setDesc_files, List.getElem?_set_self hi]

/-- **`task_fs_close`**, with nobody else around, is `ramClose` on its
descriptor. -/
theorem taskFsClose_run (hs : NodeShown k s) (hi : i < s.fds.length)
    (hfile : openFile fd k.active = some s.ptr) (hfree : fsIsheld s.ptr k.vfs = false) :
    ∃ k', (taskFsClose fd).run Op.exec k = some ((ramClose i s).1, k') ∧
      NodeShown k' (ramClose i s).2 ∧ (k'.active.files fd.toNat).file = none := by
  have hacq := hs.acquired hfree
  have hact := acquired_active hfree
  obtain ⟨b, hb⟩ := hacq.node
  rw [ramClose, if_pos hi, taskFsClose, Resume.Prog.run_step, hfile]
  dsimp only [Op.exec]
  rw [acquiring_run hfree, Resume.Prog.run_step, Resume.Prog.run_step]
  have hshow := NodeShown.file (k := acquired s.ptr k) (s := s) (o := .close s.ptr)
    (w := fsClose s.ptr s.vfs) ?_ ?_
  · have hrel := hshow.release (by rw [Op.exec, modVfs_active, hact])
    exact ⟨_, rfl, ⟨hrel.node, hrel.user⟩, congrArg FileDesc.file (setDesc_files _ _)⟩
  · refine ⟨b, ?_⟩
    simp only [FileOp.exec, fsClose, hb]
    split
    · rw [hb]
    · rw [Vfs.modNode_node_self, Vfs.modNode_node_self, hb]
  · simp only [FileOp.exec, fsClose, hb]
    split
    · exact hacq.user
    · rw [Vfs.modNode_user, Vfs.modNode_user]
      exact hacq.user

/-- **`task_fs_open`**, from the acquired node on, is `ramOpen`. -/
theorem openNode_run {fd : Nat} (path : Bytes) (flags : Nat) (hs : NodeShown k s)
    (ho : s.node.opens = some .ramfs) (hres : k.active.res = some s.ptr) :
    ∃ r k', (openNode fd path flags s.ptr).run Op.exec k = some (r, k') ∧
      NodeShown k' (ramOpen flags k.active.id k.active.uid s).2 ∧
      ((ramOpen flags k.active.id k.active.uid s).2.fds = s.fds ∧
          r = (ramOpen flags k.active.id k.active.uid s).1 ∨
        (ramOpen flags k.active.id k.active.uid s).2.fds = s.fds ++ [k'.active.files fd] ∧
          r = ⟨fd, []⟩) := by
  obtain ⟨b, hb⟩ := hs.node
  have hperm : checkPerm (k.vfs.node s.ptr).uid (k.vfs.node s.ptr).gid flags (k.vfs.node s.ptr).mask
      k.active.uid k.vfs.user =
        checkPerm s.node.uid s.node.gid flags s.node.mask k.active.uid s.vfs.user := by
    rw [hb, hs.user]
  have hcompat : compatFlags flags (k.vfs.node s.ptr) = compatFlags flags s.node := by
    rw [hb]
    rfl
  rw [ramOpen, openNode, Resume.Prog.run_step]
  dsimp only [Op.exec]
  rw [hperm]
  by_cases hp : (!checkPerm s.node.uid s.node.gid flags s.node.mask k.active.uid s.vfs.user) = true
  · rw [if_pos hp, if_pos hp]
    exact ⟨_, _, rfl, hs.release hres, .inl ⟨rfl, rfl⟩⟩
  · rw [if_neg hp, if_neg hp, Resume.Prog.run_step]
    dsimp only [Op.exec]
    rw [hcompat]
    cases ho' : compatFlags flags s.node with
    | none => exact ⟨_, _, rfl, hs.release hres, .inl ⟨rfl, rfl⟩⟩
    | some o =>
        have hm : s.node.refcnt = 0 ∨ s.node.oflags = o := by
          have h := compatFlags_eq_some ho'
          split at h
          · next h0 => exact .inl h0
          · exact .inr h.symm
        have hshow := NodeShown.file (k := k) (s := s) (o := .open s.ptr o)
          (w := fsOpen s.ptr o k.active.id s.vfs) ?_ ?_
        · have hinst : NodeShown ((Op.install fd s.ptr flags path).exec
              ((Op.file (.open s.ptr o)).exec k))
              { s with vfs := fsOpen s.ptr o k.active.id s.vfs } := ⟨hshow.node, hshow.user⟩
          have hrel := hinst.release ?_
          · refine ⟨_, _, rfl, ⟨hrel.node, hrel.user⟩, .inr ⟨?_, rfl⟩⟩
            have hset : ((Op.install fd s.ptr flags path).exec
                ((Op.file (.open s.ptr o)).exec k)).active.files fd = ⟨some s.ptr, flags, 0⟩ := by
              rw [install_active]
              exact Function.update_self _ _ _
            have hkeep := congrFun (taskRelease_files (k := (Op.install fd s.ptr flags path).exec
              ((Op.file (.open s.ptr o)).exec k))) fd
            exact congrArg (fun d => s.fds ++ [d]) (hkeep.trans hset).symm
          · rw [install_active]
            exact hres
        · refine ⟨b, ?_⟩
          have hopens : (k.vfs.node s.ptr).opens = some .ramfs := by
            rw [hb]
            exact ho
          have hmode : (k.vfs.node s.ptr).refcnt = 0 ∨ (k.vfs.node s.ptr).oflags = o := by
            rw [hb]
            exact hm
          rw [FileOp.exec, fsOpen_ramfs _ hopens hmode, fsOpen_ramfs _ ho hm, hb]
        · rw [FileOp.exec, fsOpen_user, fsOpen_user]
          exact hs.user

end

/-! ## sequences of calls -/

/-- The root directory that `ramfs_init` mounts. -/
def ramfsRoot : FsNode where
  mask := 0o777
  flags := FS_DIRECTORY
  opens := some .ramfs
  read := some .ramfs
  write := some .ramfs
  close := some .ramfs
  create := some .ramfs

/-- A directory with the hooks of `ramfsRoot`. -/
structure RamfsDir (v : Vfs) (dir : NodePtr) : Prop where
  flags : hasFlag (v.node dir).flags FS_DIRECTORY
  create : (v.node dir).create = some .ramfs
  hooks : (v.node dir).OnRamfs

/-- The file that `task_fs_open` creates for the user `uid`, before it is
opened. -/
def ramCreate (dir : NodePtr) (name : Bytes) (mask uid : Nat) (v : Vfs) : RamShare where
  vfs := FileOp.exec 0 uid (.chown v.brk) (fsCreate dir name FS_FILE mask v).2
  ptr := v.brk
  fds := []

/-- Who may open the file. -/
def RamShare.grants (s : RamShare) (flags uid : Nat) : Bool :=
  checkPerm s.node.uid s.node.gid flags s.node.mask uid s.vfs.user

/-- A new file has no bytes. -/
theorem represents_ramCreate {dir : NodePtr} (hd : RamfsDir v dir) (name : Bytes) (mask uid : Nat) :
    Represents (ramCreate dir name mask uid v).grants (ramCreate dir name mask uid v) ⟨[], 0, []⟩ := by
  have hcan : fsCanCreate dir v = true := by
    rw [fsCanCreate, hd.flags, hd.create]
    rfl
  have hnode : ∃ ds, (ramCreate dir name mask uid v).node =
      { fsNodeNew (v.node dir) FS_FILE with mask := mask, uid := uid, gid := uid, dirents := ds } := by
    rw [RamShare.node, ramCreate, fsCreate, if_pos hcan]
    simp only [FileOp.exec, Vfs.modNode_node_self, ramfsCreate, fsNodeAddDirent, Vfs.modNode_node]
    split
    · exact ⟨_, rfl⟩
    · exact ⟨_, rfl⟩
  obtain ⟨ds, hds⟩ := hnode
  constructor
  case hooks =>
    rw [hds]
    exact ⟨hd.hooks.1, hd.hooks.2, hd.hooks.3, hd.hooks.4⟩
  case perm => exact fun _ _ => rfl
  case bytes =>
    rw [hds]
    rfl
  case len =>
    rw [hds]
    rfl
  case bound => exact Nat.zero_le _
  case within =>
    rw [hds]
    exact fun _ _ => rfl
  case refcnt =>
    rw [hds]
    rfl
  case mode => exact fun h => absurd rfl h
  case fds => rfl
  case pos => simp

/-- A call touches no other node. -/
theorem next_other (e : RamCall) (s : RamShare) :
    (e.next s).2.ptr = s.ptr ∧ ∀ m, m ≠ s.ptr → (e.next s).2.vfs.node m = s.vfs.node m := by
  have hhook : ∀ flags tid m, m ≠ s.ptr → (openHook s.ptr flags tid s.vfs).node m = s.vfs.node m := by
    intro flags tid m hm
    rw [openHook]
    split
    · exact Vfs.modNode_node_of_ne _ _ _ _ hm
    · rfl
    · rfl
  cases e with
  | «open» flags tid uid =>
      rw [RamCall.next, ramOpen]
      split
      · exact ⟨rfl, fun _ _ => rfl⟩
      · split
        · exact ⟨rfl, fun _ _ => rfl⟩
        · refine ⟨rfl, fun m hm => ?_⟩
          rw [fsOpen]
          split
          · rfl
          · rw [Vfs.modNode_node_of_ne _ _ _ _ hm]
            exact hhook _ _ _ hm
  | read fd cnt tid =>
      rw [RamCall.next, ramRead]
      split
      · exact ⟨rfl, fun _ _ => rfl⟩
      · split
        · exact ⟨rfl, fun _ _ => rfl⟩
        · refine ⟨rfl, fun m hm => ?_⟩
          rw [fsRead]
          dsimp only
          split
          · rfl
          · split <;> rfl
  | write fd data =>
      rw [RamCall.next, ramWrite]
      split
      · exact ⟨rfl, fun _ _ => rfl⟩
      · split
        · exact ⟨rfl, fun _ _ => rfl⟩
        · split
          · exact ⟨rfl, fun m hm => if_neg hm⟩
          · exact ⟨rfl, fun _ _ => rfl⟩
  | seek fd p whence =>
      rw [RamCall.next, ramSeek]
      split
      · exact ⟨rfl, fun _ _ => rfl⟩
      · split
        · exact ⟨rfl, fun _ _ => rfl⟩
        · exact ⟨rfl, fun _ _ => rfl⟩
  | close fd =>
      rw [RamCall.next, ramClose]
      split
      · refine ⟨rfl, fun m hm => ?_⟩
        rw [fsClose]
        split
        · rfl
        · exact if_neg hm
      · exact ⟨rfl, fun _ _ => rfl⟩

/-- **A ramfs file is a list of bytes**: whatever calls are made on it, by
whomever and through however many descriptors, their results are those of
the file of bytes, positions stay within it, no block behind `blocks[]` is
used, and no other node changes. -/
theorem ramfs_refines {dir : NodePtr} (hd : RamfsDir v dir) (name : Bytes) (mask uid : Nat)
    (es : List RamCall) :
    let s := ramCreate dir name mask uid v
    let r := Simulation.answers RamCall.next s es
    Simulation.Step (Represents s.grants) r (Simulation.answers (ByteFile.next s.grants) ⟨[], 0, []⟩ es) ∧
      ∀ m, m ≠ s.ptr → r.2.vfs.node m = s.vfs.node m := by
  dsimp only
  obtain ⟨s, hs⟩ : ∃ s, ramCreate dir name mask uid v = s := ⟨_, rfl⟩
  have hrep := represents_ramCreate hd name mask uid
  rw [hs] at hrep ⊢
  refine ⟨Simulation.refines (fun _ _ e h => h.next e) hrep es, ?_⟩
  refine (Simulation.invariant (I := fun s' : RamShare => s'.ptr = s.ptr ∧
    ∀ m, m ≠ s.ptr → s'.vfs.node m = s.vfs.node m) ?_ ⟨rfl, fun _ _ => rfl⟩ es).2
  rintro s' e ⟨hptr, hother⟩
  obtain ⟨h1, h2⟩ := next_other e s'
  exact ⟨h1.trans hptr, fun m hm => (h2 m (hptr ▸ hm)).trans (hother m hm)⟩

/-- Two descriptors on a new file. -/
theorem ramfs_refines_example :
    let v : Vfs := { (default : Vfs) with
      node := fun n => if n = 0 then ramfsRoot else default, brk := 1, user := fun _ => some 0 }
    (Simulation.answers RamCall.next (ramCreate 0 [97] 0o644 0 v)
      [.open 3 1 0, .write 0 [1, 2, 3], .open 1 2 0, .read 1 2 2, .seek 0 1 .set, .write 0 [9],
        .read 1 8 2, .close 0]).1 =
      [⟨0, []⟩, ⟨3, []⟩, ⟨1, []⟩, ⟨2, [1, 2]⟩, ⟨1, []⟩, ⟨1, []⟩, ⟨1, [3]⟩, ⟨0, []⟩] := by
  intro v
  have hd : RamfsDir v 0 := ⟨by decide, rfl, rfl, rfl, rfl, rfl⟩
  rw [(ramfs_refines hd [97] 0o644 0 _).1.1]
  decide

end Eclair
