import Eclair.Lib.System
import Eclair.Task.File

/-!
# Eclair.Fs.Tarfs

Reading a file of an archive: `tarfs_read` of `kernel/fs/tarfs.c` under the
position that `task_fs_read` and `task_fs_seek` keep.

A read says which bytes it copied, counted from the end of the file's header,
so that a copy from outside of the file shows.
-/

namespace Eclair

/-- The node of a file in an archive. -/
structure TarFile where
  /-- the memory behind the header -/
  data : Nat → UInt8
  len : Nat
  refcnt : Nat
  oflags : Nat
  len_lt : len < 2 ^ 32

/-- A file descriptor of it. -/
structure TarDesc where
  flags : Nat
  pos : Int

/-- What a read returns, and what it has copied from where. -/
structure TarRead where
  val : Int
  start : Nat
  buf : Bytes

namespace TarFile

variable (f : TarFile)

/-- The bytes of the file. -/
def contents : Bytes := (List.range f.len).map f.data

/-- `fs_read` calls the hook. -/
def readable : Bool := f.refcnt ≠ 0 && hasFlag f.oflags FS_READ

/-- `tarfs_read`. -/
def tarfsRead (offset size : Nat) : TarRead :=
  let moffset := min offset f.len
  let msize := sub32 (min (u32 (moffset + size)) f.len) moffset
  ⟨toLong msize, moffset, (List.range msize).map fun i => f.data (moffset + i)⟩

/-- `fs_read`. -/
def read (offset size : Nat) : TarRead :=
  if f.readable then f.tarfsRead offset size else ⟨0, 0, []⟩

end TarFile

/-- `(uint32_t)pos`. -/
def TarDesc.offset (d : TarDesc) : Nat := (d.pos % 2 ^ 32).toNat

inductive TarEvent where
  | seek (p : Int) (whence : Whence)
  /-- `stale` says whether `task_acquire` was interrupted -/
  | read (size : UInt32) (stale : Bool)

/-- `task_fs_read` on the descriptor. -/
def tarRead (f : TarFile) (size : UInt32) (stale : Bool) (d : TarDesc) : TarRead × TarDesc :=
  if !hasFlag d.flags FS_READ then (⟨-EBADF, 0, []⟩, d)
  else if stale then (⟨-EAGAIN, 0, []⟩, d)
  else
    let r := f.read d.offset size.toNat
    (r, if 0 ≤ r.val then { d with pos := toLong (d.pos + r.val) } else d)

/-- `task_fs_seek` on the descriptor. -/
def tarSeek (f : TarFile) (p : Int) (whence : Whence) (d : TarDesc) : TarDesc :=
  if whence = .other then d
  else { d with pos := toLong (min (max (seekTo d.pos p f.len whence) 0) f.len) }

/-- The descriptor after an event. -/
def tarNext (f : TarFile) (d : TarDesc) : TarEvent → TarDesc
  | .seek p whence => tarSeek f p whence d
  | .read size stale => (tarRead f size stale d).2

/-! ## right reads -/

/-- The read gets past the tests of `task_fs_read`. -/
def TarDesc.Admits (d : TarDesc) (stale : Bool) : Prop := hasFlag d.flags FS_READ ∧ stale = false

/-- The number of bytes that a read should get. -/
def TarFile.rest (f : TarFile) (d : TarDesc) (size : UInt32) : Nat :=
  min size.toNat (f.len - d.offset)

/-- The read returns as many bytes as there are up to `size`, those from the
position on, and no others, and the position advances past them. -/
structure TarRead.Exact (f : TarFile) (d : TarDesc) (size : UInt32) (r : TarRead) (d' : TarDesc) :
    Prop where
  val : r.val = f.rest d size
  buf : r.buf = (f.contents.drop d.offset).take size.toNat
  inside : ∀ i < r.buf.length, r.start + i < f.len
  pos : d'.offset = d.offset + f.rest d size

/-- A read is refused without an effect, or exact. -/
def ReadRight (f : TarFile) (d : TarDesc) : TarEvent → Prop
  | .seek _ _ => True
  | .read size stale =>
      let r := tarRead f size stale d
      (d.Admits stale → r.1.Exact f d size r.2) ∧
        (¬ d.Admits stale → r.1.val < 0 ∧ r.1.buf = [] ∧ r.2 = d)

/-- Position and size add up below 2^32, the result is a `kssize_t`, and the
node is open for reading unless there is nothing to read. -/
def ReadFits (f : TarFile) (d : TarDesc) : TarEvent → Prop
  | .seek _ _ => True
  | .read size stale =>
      d.Admits stale →
        if f.readable then d.offset + size.toNat < 2 ^ 32 ∧ f.rest d size < 2 ^ 31
        else f.rest d size = 0

/-! ## positions -/

variable {f : TarFile} {d : TarDesc} {size : UInt32} {stale : Bool}

theorem offset_lt (d : TarDesc) : d.offset < 2 ^ 32 := by
  rw [TarDesc.offset]
  omega

/-- The position after the result of a read was added. -/
theorem offset_add (d : TarDesc) (n : Nat) :
    ({ d with pos := toLong (d.pos + n) } : TarDesc).offset = u32 (d.offset + n) := by
  rw [TarDesc.offset, TarDesc.offset, toLong_emod, u32]
  omega

theorem offset_seek_le (p : Int) (whence : Whence) (h : d.offset ≤ f.len) :
    (tarSeek f p whence d).offset ≤ f.len := by
  rw [tarSeek]
  split
  · exact h
  · have hlt := f.len_lt
    rw [TarDesc.offset, toLong_emod]
    omega

/-! ## what a read does -/

/-- The descriptor after a result. -/
def TarDesc.past (d : TarDesc) (val : Int) : TarDesc :=
  if 0 ≤ val then { d with pos := toLong (d.pos + val) } else d


/-- The bytes of the file from `a` on. -/
theorem contents_slice {a n : Nat} (h : a + n ≤ f.len) :
    (List.range n).map (fun i => f.data (a + i)) = (f.contents.drop a).take n := by
  apply List.ext_getElem
  · simp [TarFile.contents]
    omega
  · intro i h1 h2
    simp [TarFile.contents]

theorem take_drop_contents (a n : Nat) :
    (f.contents.drop a).take (min n (f.len - a)) = (f.contents.drop a).take n := by
  rw [← List.take_take, List.take_of_length_le (i := f.len - a) (by simp [TarFile.contents])]

/-- What `tarfs_read` copies. -/
def TarFile.msize (f : TarFile) (offset n : Nat) : Nat :=
  sub32 (min (u32 (offset + n)) f.len) offset

theorem msize_of_lt {offset n : Nat} (h : offset ≤ f.len) (hn : offset + n < 2 ^ 32) :
    f.msize offset n = min n (f.len - offset) := by
  have hlen := f.len_lt
  rw [TarFile.msize, u32_of_lt hn, sub32_of_le (by omega) (by omega)]
  omega

/-- If position and size wrap, all of the size is copied. -/
theorem msize_of_ge {offset n : Nat} (h : offset ≤ f.len) (hn : n < 2 ^ 32)
    (hw : 2 ^ 32 ≤ offset + n) : f.msize offset n = n := by
  have hlen := f.len_lt
  have hu : u32 (offset + n) = offset + n - 2 ^ 32 := by
    rw [u32]
    omega
  have ho : u32 offset = offset := u32_of_lt (by omega)
  rw [TarFile.msize, hu, Nat.min_eq_left (by omega), sub32, ho, u32]
  omega

theorem msize_lt (f : TarFile) (offset n : Nat) : f.msize offset n < 2 ^ 32 := sub32_lt _ _

/-- The first `m` bytes from the position on, returned. -/
def TarFile.copied (f : TarFile) (d : TarDesc) (m : Nat) : TarRead :=
  ⟨toLong m, d.offset, (List.range m).map fun i => f.data (d.offset + i)⟩

@[simp] theorem copied_val (m : Nat) : (f.copied d m).val = toLong m := by rw [TarFile.copied]

@[simp] theorem copied_length (m : Nat) : (f.copied d m).buf.length = m := by
  simp [TarFile.copied]

/-- A read of a file that is open for reading. -/
theorem read_readable (h : d.offset ≤ f.len) (hr : f.readable) (n : Nat) :
    f.read d.offset n = f.copied d (f.msize d.offset n) := by
  rw [TarFile.read, if_pos hr, TarFile.tarfsRead, Nat.min_eq_left h]
  rfl

/-- A read of a file that is open without. -/
theorem read_not_readable (hr : ¬ f.readable) (n : Nat) : f.read d.offset n = ⟨0, 0, []⟩ := if_neg hr

theorem tarRead_admits (ha : d.Admits stale) :
    tarRead f size stale d =
      (f.read d.offset size.toNat, d.past (f.read d.offset size.toNat).val) := by
  rw [tarRead, if_neg (by simp [ha.1]), if_neg (by simp [ha.2])]
  rfl

theorem tarRead_refused (ha : ¬ d.Admits stale) :
    (tarRead f size stale d).1.val < 0 ∧ (tarRead f size stale d).1.buf = [] ∧
      (tarRead f size stale d).2 = d := by
  rw [tarRead]
  split
  · simp [EBADF]
  · next hr =>
      have hs : stale = true := by
        simp only [Bool.not_eq_true', Bool.not_eq_false] at hr
        simpa [TarDesc.Admits, hr] using ha
      simp [hs, EAGAIN]

theorem offset_past {m : Nat} (hm : m < 2 ^ 32) (d : TarDesc) :
    (d.past (toLong m)).offset = if m < 2 ^ 31 then u32 (d.offset + m) else d.offset := by
  by_cases h : m < 2 ^ 31
  · rw [toLong_of_lt h, TarDesc.past, if_pos (by omega), if_pos h, offset_add]
  · have hneg : ¬ 0 ≤ toLong m := by
      have h1 := toLong_lt m
      have h2 := toLong_emod m
      omega
    rw [TarDesc.past, if_neg hneg, if_neg h]

theorem offset_past_zero (d : TarDesc) : (d.past 0).offset = d.offset := by
  have h := offset_past (m := 0) (by decide) d
  rwa [if_pos (by decide), Nat.add_zero, u32_of_lt (offset_lt d)] at h

/-- No event takes the position behind the end of the file. -/
theorem offset_next_le (e : TarEvent) (h : d.offset ≤ f.len) : (tarNext f d e).offset ≤ f.len := by
  have hlen := f.len_lt
  cases e with
  | seek p whence => exact offset_seek_le p whence h
  | read size stale =>
      rw [tarNext]
      by_cases ha : d.Admits stale
      · rw [tarRead_admits ha]
        by_cases hr : f.readable
        · rw [read_readable h hr, TarFile.copied, offset_past (msize_lt _ _ _)]
          by_cases hw : d.offset + size.toNat < 2 ^ 32
          · rw [msize_of_lt h hw, u32_of_lt (by omega)]
            split <;> omega
          · have hs := size.toNat_lt
            rw [msize_of_ge h hs (by omega), u32]
            split <;> omega
        · rw [read_not_readable hr, offset_past_zero]
          exact h
      · rw [(tarRead_refused ha).2.2]
        exact h

/-! ## exact reads -/

/-- The number of bytes copied decides. -/
theorem copied_exact_iff {m : Nat} (h : d.offset ≤ f.len) (hm : m < 2 ^ 32) :
    (f.copied d m).Exact f d size (d.past (toLong m)) ↔ m = f.rest d size ∧ m < 2 ^ 31 := by
  have hlen := f.len_lt
  have hrest : f.rest d size = min size.toNat (f.len - d.offset) := rfl
  constructor
  · intro he
    have hbuf := congrArg List.length he.buf
    simp only [copied_length, List.length_map, List.length_range, List.length_take,
      List.length_drop, TarFile.contents] at hbuf
    have hval := he.val
    rw [copied_val] at hval
    have hlt := toLong_lt m
    omega
  · rintro ⟨hmr, hlt⟩
    constructor
    · rw [← hmr, copied_val, toLong_of_lt hlt]
    · rw [← take_drop_contents, ← hrest, ← hmr]
      exact contents_slice (by omega)
    · intro i hi
      rw [copied_length] at hi
      show d.offset + i < f.len
      omega
    · rw [offset_past hm, if_pos hlt, u32_of_lt (by omega), hmr]

/-- An empty read is exact where there is nothing to read. -/
theorem empty_exact_iff : TarRead.Exact f d size ⟨0, 0, []⟩ (d.past 0) ↔ f.rest d size = 0 := by
  constructor
  · intro he
    have hval : (0 : Int) = f.rest d size := he.val
    omega
  · intro h0
    constructor
    · rw [h0]
      rfl
    · rw [← take_drop_contents, show min size.toNat (f.len - d.offset) = 0 from h0, List.take_zero]
    · simp
    · rw [offset_past_zero, h0, Nat.add_zero]

/-- **Read rule**: which reads are exact. -/
theorem exact_iff (h : d.offset ≤ f.len) (ha : d.Admits stale) :
    (tarRead f size stale d).1.Exact f d size (tarRead f size stale d).2 ↔
      if f.readable then d.offset + size.toNat < 2 ^ 32 ∧ f.rest d size < 2 ^ 31
      else f.rest d size = 0 := by
  have hlen := f.len_lt
  have hrest : f.rest d size = min size.toNat (f.len - d.offset) := rfl
  rw [tarRead_admits ha]
  by_cases hr : f.readable
  · rw [if_pos hr, read_readable h hr, copied_val, copied_exact_iff h (msize_lt _ _ _)]
    by_cases hw : d.offset + size.toNat < 2 ^ 32
    · rw [msize_of_lt h hw, ← hrest]
      simp only [hw, true_and]
    · rw [msize_of_ge h size.toNat_lt (by omega)]
      omega
  · rw [if_neg hr, read_not_readable hr, empty_exact_iff]

theorem readRight_iff (e : TarEvent) (h : d.offset ≤ f.len) : ReadRight f d e ↔ ReadFits f d e := by
  cases e with
  | seek p whence => exact Iff.rfl
  | read size stale =>
      rw [ReadRight, ReadFits]
      constructor
      · intro hr ha
        exact (exact_iff h ha).mp (hr.1 ha)
      · intro hf
        exact ⟨fun ha => (exact_iff h ha).mpr (hf ha), tarRead_refused⟩

/-! ## runs -/

/-- **Reading archive files**: the reads of a run on a descriptor that starts
at the beginning are all right if and only if they all fit. -/
theorem readsRight_iff (f : TarFile) (flags : Nat) (es : List TarEvent) :
    System.Along (tarNext f) (ReadRight f) ⟨flags, 0⟩ es ↔
      System.Along (tarNext f) (ReadFits f) ⟨flags, 0⟩ es :=
  System.along_iff (I := fun d => d.offset ≤ f.len) (fun _ e h _ => offset_next_le e h)
    (fun _ e => readRight_iff e) (Nat.zero_le f.len)

/-- Reading 0xfffffff8 bytes at position 10 of a file of 100 bytes copies as
many, and returns -8. -/
theorem not_readsRight :
    ¬ ∀ (f : TarFile) (flags : Nat) (es : List TarEvent), f.readable →
      System.Along (tarNext f) (ReadRight f) ⟨flags, 0⟩ es := by
  intro hall
  let f : TarFile := ⟨fun _ => 0, 100, 1, FS_READ, by decide⟩
  have hrun := hall f FS_READ [.seek 10 .set, .read 0xfffffff8 false] (by decide)
  have hoff : (tarNext f ⟨FS_READ, 0⟩ (.seek 10 .set)).offset = 10 := by decide
  have hread := (readRight_iff _ (by rw [hoff]; decide)).mp hrun.2.1
  have hfits := hread ⟨by decide, rfl⟩
  rw [if_pos (by decide), hoff] at hfits
  exact absurd hfits.1 (by decide)

end Eclair
