import Eclair.Lib.System
import Eclair.Vfs.Node

/-!
# Eclair.Fs.OpenFile

The life of the state that a disk file system hangs on an open node
(`odata`): `fs_open`, `fs_close` and `fs_read` of `kernel/vfs/fs.c` with the
hooks of `kernel/fs/ecfs.c` and `kernel/fs/ext2.c`.

Of the kernel heap the model keeps which blocks the hooks have allocated and
not freed, and what the state objects among them point to.  Using or freeing
any other pointer is a fault.

Both hooks take every counted open for the first one and every close for the
last; `lifeCycle_iff` says in which runs they are right.
-/

namespace Eclair

/-- A block from `kmalloc`. -/
abbrev Ptr := Nat

/-- The file system of a node. -/
inductive DiskFs where
  | ecfs | ext2
  deriving DecidableEq, Repr

/-- The buffers of `struct ecfs_file_info` (`bdata` and `adata`) and of
`struct ext2_file_info` (`bdata` and `bpdata`). -/
structure FileInfo where
  bdata : Option Ptr
  adata : Option Ptr
  deriving DecidableEq, Repr

/-- A node of a disk volume, and the blocks its hooks have allocated. -/
structure DiskNode where
  fs : DiskFs
  len : Nat
  refcnt : Nat
  oflags : Nat
  odata : Option Ptr
  /-- the state objects -/
  info : Ptr → FileInfo
  /-- the blocks that are allocated -/
  live : List Ptr
  /-- the block that the next `kmalloc` returns -/
  next : Ptr
  /-- a pointer that is `NULL` or freed was used or freed -/
  fault : Bool

namespace DiskNode

/-! ## the heap -/

/-- `kmalloc`. -/
def kmalloc (s : DiskNode) : Ptr × DiskNode :=
  (s.next, { s with live := s.next :: s.live, next := s.next + 1 })

/-- `kfree`. -/
def kfree (p : Option Ptr) (s : DiskNode) : DiskNode :=
  match p with
  | none => { s with fault := true }
  | some p => if p ∈ s.live then { s with live := s.live.erase p } else { s with fault := true }

/-- Follow a pointer. -/
def use (p : Option Ptr) (s : DiskNode) : DiskNode :=
  match p with
  | none => { s with fault := true }
  | some p => if p ∈ s.live then s else { s with fault := true }

/-- What the state object of the node points to. -/
def file (s : DiskNode) : FileInfo :=
  match s.odata with
  | none => ⟨none, none⟩
  | some o => s.info o

/-- Store the state object. -/
def setFile (o : Ptr) (f : FileInfo) (s : DiskNode) : DiskNode :=
  { s with info := fun q => if q = o then f else s.info q }

/-! ## the hooks -/

/-- `ecfs_open`. -/
def ecfsOpen (s : DiskNode) : DiskNode :=
  let (o, s) := s.kmalloc
  let s := { s with odata := some o }
  let (b, s) := s.kmalloc
  let (a, s) := s.kmalloc
  s.setFile o ⟨some b, some a⟩

/-- `ecfs_close`. -/
def ecfsClose (s : DiskNode) : DiskNode :=
  let file := s.file
  let s := (s.use s.odata).kfree file.bdata
  let s := s.kfree file.adata
  let s := s.kfree s.odata
  { s with odata := none }

/-- `ecfs_read`, once it has a byte to copy. -/
def ecfsRead (s : DiskNode) : DiskNode :=
  let file := s.file
  ((s.use s.odata).use file.adata).use file.bdata

/-- `ext2_open`. -/
def ext2Open (s : DiskNode) : DiskNode :=
  let (o, s) := s.kmalloc
  { s with odata := some o }.setFile o ⟨none, none⟩

/-- `if (p) kfree(p)`. -/
def kfreeSome (p : Option Ptr) (s : DiskNode) : DiskNode :=
  if p.isSome then s.kfree p else s

/-- `ext2_close`. -/
def ext2Close (s : DiskNode) : DiskNode :=
  let file := s.file
  ((s.use s.odata).kfreeSome file.bdata).kfreeSome file.adata

/-- `ext2_read`, once it has a byte to copy: the first read of a state
object allocates its buffer. -/
def ext2Read (s : DiskNode) : DiskNode :=
  let s := s.use s.odata
  match s.odata, s.file.bdata with
  | some o, none =>
      let (b, s) := s.kmalloc
      s.setFile o { s.file with bdata := some b }
  | _, p => s.use p

/-! ## the file system switch -/

/-- `fs_open`. -/
def fsOpen (flags : Nat) (s : DiskNode) : DiskNode :=
  if s.refcnt ≠ 0 ∧ s.oflags ≠ flags then s
  else
    let s := match s.fs with
      | .ecfs => s.ecfsOpen
      | .ext2 => s.ext2Open
    { s with oflags := flags, refcnt := s.refcnt + 1 }

/-- `fs_close`. -/
def fsClose (s : DiskNode) : DiskNode :=
  if s.refcnt = 0 then s
  else
    let s := match s.fs with
      | .ecfs => s.ecfsClose
      | .ext2 => s.ext2Close
    { s with refcnt := s.refcnt - 1 }

/-- `fs_read`, as far as it uses the state object: not without a byte to
copy. -/
def fsRead (offset nbytes : Nat) (s : DiskNode) : DiskNode :=
  if s.refcnt = 0 ∨ !hasFlag s.oflags FS_READ then s
  else if nbytes = 0 ∨ s.len ≤ offset then s
  else match s.fs with
    | .ecfs => s.ecfsRead
    | .ext2 => s.ext2Read

end DiskNode

open DiskNode

/-! ## runs -/

inductive OpenEvent where
  | open (flags : Nat)
  | close
  | read (offset nbytes : Nat)

/-- One call; a close has a counted open to match. -/
def OpenEvent.next (s : DiskNode) : OpenEvent → Option DiskNode
  | .open flags => some (s.fsOpen flags)
  | .close => if s.refcnt = 0 then none else some s.fsClose
  | .read offset nbytes => some (s.fsRead offset nbytes)

/-- A node that is not open, before its hooks have allocated anything. -/
def DiskNode.Init (s : DiskNode) : Prop :=
  s.refcnt = 0 ∧ s.odata = none ∧ s.live = [] ∧ s.fault = false

/-- The calls on one node. -/
def openSystem : System DiskNode OpenEvent := System.ofNext DiskNode.Init OpenEvent.next

/-- The call is an `fs_open` that is not counted, or the first one; or an
`fs_close` of an ecfs node; or a read. -/
def OpensAlone (s : DiskNode) : OpenEvent → Prop
  | .open flags => s.refcnt = 0 ∨ s.oflags ≠ flags
  | .close => s.fs = .ecfs
  | .read _ _ => True

/-! ## the property -/

/-- The block is the state object of the node or one of its buffers. -/
def DiskNode.Owned (s : DiskNode) (p : Ptr) : Prop :=
  ∃ o, s.odata = some o ∧ (p = o ∨ (s.info o).bdata = some p ∨ (s.info o).adata = some p)

/-- No pointer was used or freed that is not allocated; while the node is
open its state object and the buffers of it are there; and there is nothing
else, so that after the last close nothing is left. -/
structure LifeCycle (s : DiskNode) : Prop where
  sound : s.fault = false
  usable : s.refcnt ≠ 0 → s.odata.isSome ∧ ∀ p, s.Owned p → p ∈ s.live
  released : ∀ p ∈ s.live, s.refcnt ≠ 0 ∧ s.Owned p
  once : s.live.Nodup

/-! ## the invariant -/

/-- The blocks of a node that is open once. -/
inductive Blocks1 (s : DiskNode) : Prop where
  | ecfs (o : Ptr) (hfs : s.fs = .ecfs) (ho : s.odata = some o)
      (hi : s.info o = ⟨some (o + 1), some (o + 2)⟩) (hl : s.live = [o + 2, o + 1, o])
  | ext2 (o : Ptr) (hfs : s.fs = .ext2) (ho : s.odata = some o)
      (hi : s.info o = ⟨none, none⟩) (hl : s.live = [o])
  | ext2Read (o b : Ptr) (hfs : s.fs = .ext2) (ho : s.odata = some o) (hb : o ≠ b)
      (hi : s.info o = ⟨some b, none⟩) (hl : s.live = [b, o])

/-- The invariant of the runs in which every open is alone. -/
structure OpenInv (s : DiskNode) : Prop where
  sound : s.fault = false
  fresh : ∀ p ∈ s.live, p < s.next
  count : s.refcnt = 0 ∧ s.live = [] ∨ s.refcnt = 1 ∧ Blocks1 s

variable {s s' : DiskNode} {e : OpenEvent}

theorem OpenInv.lifeCycle (h : OpenInv s) : LifeCycle s := by
  rcases h.count with ⟨h0, hl⟩ | ⟨h1, hb⟩
  · exact ⟨h.sound, fun hne => absurd h0 hne, by simp [hl], by simp [hl]⟩
  · cases hb with
    | ecfs o hfs ho hi hl =>
        refine ⟨h.sound, fun _ => ⟨by simp [ho], fun p hp => ?_⟩, fun p hp => ⟨by omega, o, ho, ?_⟩,
          by simp [hl]⟩
        · obtain ⟨_, ho', hp⟩ := hp
          obtain rfl := Option.some.inj (ho.symm.trans ho')
          simp only [hi, Option.some.injEq] at hp
          simp only [hl, List.mem_cons, List.not_mem_nil, or_false]
          grind
        · simp only [hl, List.mem_cons, List.not_mem_nil, or_false] at hp
          simp only [hi, Option.some.injEq]
          grind
    | ext2 o hfs ho hi hl =>
        refine ⟨h.sound, fun _ => ⟨by simp [ho], fun p hp => ?_⟩, fun p hp => ⟨by omega, o, ho, ?_⟩,
          by simp [hl]⟩
        · obtain ⟨_, ho', hp⟩ := hp
          obtain rfl := Option.some.inj (ho.symm.trans ho')
          simpa [hi, hl] using hp
        · simpa [hi, hl] using hp
    | ext2Read o b hfs ho hb hi hl =>
        refine ⟨h.sound, fun _ => ⟨by simp [ho], fun p hp => ?_⟩, fun p hp => ⟨by omega, o, ho, ?_⟩,
          by simp [hl, hb.symm]⟩
        · obtain ⟨_, ho', hp⟩ := hp
          obtain rfl := Option.some.inj (ho.symm.trans ho')
          simp only [hi, Option.some.injEq, reduceCtorEq, or_false] at hp
          simp only [hl, List.mem_cons, List.not_mem_nil, or_false]
          grind
        · simp only [hl, List.mem_cons, List.not_mem_nil, or_false] at hp
          simp only [hi, Option.some.injEq, reduceCtorEq, or_false]
          grind

/-- The first open allocates a state object. -/
theorem OpenInv.fsOpen {flags : Nat} (h : OpenInv s) (h0 : s.refcnt = 0) :
    OpenInv (s.fsOpen flags) := by
  obtain ⟨-, hl⟩ : s.refcnt = 0 ∧ s.live = [] := by
    rcases h.count with hc | ⟨h1, -⟩
    · exact hc
    · omega
  rw [DiskNode.fsOpen, if_neg (by simp [h0])]
  cases hfs : s.fs with
  | ecfs =>
      refine ⟨h.sound, ?_, .inr ⟨by simp [ecfsOpen, DiskNode.kmalloc, setFile, h0], ?_⟩⟩
      · simp only [ecfsOpen, DiskNode.kmalloc, setFile, hl, List.mem_cons, List.not_mem_nil, or_false]
        grind
      · exact .ecfs s.next hfs rfl (by simp [ecfsOpen, DiskNode.kmalloc, setFile])
          (by simp [ecfsOpen, DiskNode.kmalloc, setFile, hl])
  | ext2 =>
      refine ⟨h.sound, by simp [ext2Open, DiskNode.kmalloc, setFile, hl],
        .inr ⟨by simp [ext2Open, DiskNode.kmalloc, setFile, h0], ?_⟩⟩
      exact .ext2 s.next hfs rfl (by simp [ext2Open, DiskNode.kmalloc, setFile])
        (by simp [ext2Open, DiskNode.kmalloc, setFile, hl])

/-- The close of an ecfs node frees everything. -/
theorem OpenInv.ecfsClose (h : OpenInv s) (hfs : s.fs = .ecfs) (h0 : s.refcnt ≠ 0) :
    OpenInv s.fsClose := by
  rw [DiskNode.fsClose, if_neg h0, hfs]
  rcases h.count with ⟨h1, -⟩ | ⟨h1, hb⟩
  · contradiction
  · cases hb with
    | ecfs o _ ho hi hl =>
        have hclose : s.ecfsClose = { s with live := [], odata := none } := by
          simp [DiskNode.ecfsClose, file, use, DiskNode.kfree, ho, hi, hl]
        simp only [hclose]
        exact ⟨h.sound, by simp, .inl ⟨by simp [h1], rfl⟩⟩
    | ext2 _ hfs' => simp [hfs] at hfs'
    | ext2Read _ _ hfs' => simp [hfs] at hfs'

/-- A read only allocates the buffer of an ext2 file. -/
theorem OpenInv.fsRead {offset nbytes : Nat} (h : OpenInv s) : OpenInv (s.fsRead offset nbytes) := by
  rw [DiskNode.fsRead]
  split
  · exact h
  · next hopen =>
      split
      · exact h
      · rcases h.count with ⟨h1, -⟩ | ⟨h1, hb⟩
        · exact absurd (.inl h1) hopen
        · cases hb with
          | ecfs o hfs ho hi hl =>
              have hread : s.ecfsRead = s := by simp [ecfsRead, file, use, ho, hi, hl]
              simp only [hfs, hread]
              exact h
          | ext2 o hfs ho hi hl =>
              have hread : s.ext2Read =
                  { s with live := [s.next, o], next := s.next + 1 }.setFile o ⟨some s.next, none⟩ := by
                simp [ext2Read, file, use, DiskNode.kmalloc, setFile, ho, hi, hl]
              have hfresh := h.fresh o (by simp [hl])
              simp only [hfs, hread]
              refine ⟨h.sound, ?_, .inr ⟨h1, .ext2Read o s.next rfl ho (Nat.ne_of_lt hfresh) ?_ rfl⟩⟩
              · simp only [setFile, List.mem_cons, List.not_mem_nil, or_false]
                grind
              · simp [setFile]
          | ext2Read o b hfs ho hb hi hl =>
              have hread : s.ext2Read = s := by simp [DiskNode.ext2Read, file, use, ho, hi, hl]
              simp only [hfs, hread]
              exact h

/-- **Step lemma**: a call that is alone keeps the invariant. -/
theorem open_step (h : OpenInv s) (hok : OpensAlone s e) (hs : e.next s = some s') :
    OpenInv s' := by
  cases e with
  | «open» flags =>
      obtain rfl := Option.some.inj hs
      rcases hok with h0 | hne
      · exact h.fsOpen h0
      · by_cases h0 : s.refcnt = 0
        · exact h.fsOpen h0
        · rw [DiskNode.fsOpen, if_pos ⟨h0, hne⟩]
          exact h
  | close =>
      simp only [OpenEvent.next, Option.ite_none_left_eq_some, Option.some.injEq] at hs
      obtain ⟨h0, rfl⟩ := hs
      exact h.ecfsClose hok h0
  | read offset nbytes =>
      obtain rfl := Option.some.inj hs
      exact h.fsRead

/-! ## what goes wrong -/

/-- The state object of an open node is allocated. -/
theorem Blocks1.object (h : Blocks1 s) : ∃ o ∈ s.live, s.odata = some o := by
  cases h with
  | ecfs o hfs ho hi hl => exact ⟨o, by simp [hl], ho⟩
  | ext2 o hfs ho hi hl => exact ⟨o, by simp [hl], ho⟩
  | ext2Read o b hfs ho hb hi hl => exact ⟨o, by simp [hl], ho⟩

/-- A second open loses the state object of the first. -/
theorem OpenInv.not_lifeCycle_fsOpen (h : OpenInv s) (h0 : s.refcnt ≠ 0) :
    ¬ LifeCycle (s.fsOpen s.oflags) := by
  intro hc
  rcases h.count with ⟨h1, -⟩ | ⟨-, hb⟩
  · contradiction
  · obtain ⟨o, ho, -⟩ := hb.object
    have hlt := h.fresh o ho
    rw [DiskNode.fsOpen, if_neg (by simp)] at hc
    cases hfs : s.fs with
    | ecfs =>
        simp only [hfs, ecfsOpen, DiskNode.kmalloc, setFile] at hc
        obtain ⟨-, o', ho', hown⟩ := hc.released o (by simp [ho])
        obtain rfl := Option.some.inj ho'
        simp only [if_true, Option.some.injEq] at hown
        grind
    | ext2 =>
        simp only [hfs, ext2Open, DiskNode.kmalloc, setFile] at hc
        obtain ⟨-, o', ho', hown⟩ := hc.released o (by simp [ho])
        obtain rfl := Option.some.inj ho'
        simp only [if_true, reduceCtorEq, or_false] at hown
        grind

/-- The close of an ext2 node keeps its state object. -/
theorem OpenInv.not_lifeCycle_fsClose (h : OpenInv s) (hfs : s.fs = .ext2) (h0 : s.refcnt ≠ 0) :
    ¬ LifeCycle s.fsClose := by
  intro hc
  rw [DiskNode.fsClose, if_neg h0, hfs] at hc
  rcases h.count with ⟨h1, -⟩ | ⟨h1, hb⟩
  · contradiction
  · cases hb with
    | ecfs _ hfs' => simp [hfs] at hfs'
    | ext2 o _ ho hi hl =>
        have hclose : s.ext2Close = s := by simp [ext2Close, file, use, kfreeSome, ho, hi, hl]
        simp only [hclose] at hc
        exact (hc.released o (by simp [hl])).1 (by simp [h1])
    | ext2Read o b _ ho hb hi hl =>
        have hclose : s.ext2Close = { s with live := [o] } := by
          simp [ext2Close, file, use, kfreeSome, DiskNode.kfree, ho, hi, hl]
        simp only [hclose] at hc
        exact (hc.released o (by simp)).1 (by simp [h1])

theorem OpenInv.opensAlone (h : OpenInv s) (hs : e.next s = some s') (hc : LifeCycle s') :
    OpensAlone s e := by
  cases e with
  | «open» flags =>
      obtain rfl := Option.some.inj hs
      by_cases h0 : s.refcnt = 0
      · exact .inl h0
      · refine .inr fun heq => ?_
        subst heq
        exact h.not_lifeCycle_fsOpen h0 hc
  | close =>
      simp only [OpenEvent.next, Option.ite_none_left_eq_some, Option.some.injEq] at hs
      obtain ⟨h0, rfl⟩ := hs
      cases hfs : s.fs with
      | ecfs => exact hfs
      | ext2 => exact absurd hc (h.not_lifeCycle_fsClose hfs h0)
  | read offset nbytes => trivial

/-! ## runs -/

/-- The invariant holds in every state of a run whose calls are alone. -/
theorem openInv_of_reachable (h : openSystem.Reachable OpensAlone s) : OpenInv s := by
  refine h.invariant ?_ fun s e s' hinv hok hs => open_step hinv hok hs
  rintro s ⟨h0, -, hl, hf⟩
  exact ⟨hf, by simp [hl], .inl ⟨h0, hl⟩⟩

/-- **Open and close over whole runs**: while no counted open overlaps
another one and no ext2 node is closed, the state of the open node is there
and nothing else is; and the next call keeps it so exactly if it is such a
call too. -/
theorem lifeCycle_iff (h : openSystem.Reachable OpensAlone s) :
    LifeCycle s ∧ ∀ e s', openSystem.step s e s' → (LifeCycle s' ↔ OpensAlone s e) := by
  have hinv := openInv_of_reachable h
  refine ⟨hinv.lifeCycle, fun e s' hs => ⟨hinv.opensAlone hs, fun hok => ?_⟩⟩
  exact (open_step hinv hok hs).lifeCycle

/-- A node of 100 bytes that nobody has opened. -/
def closedNode (fs : DiskFs) : DiskNode := ⟨fs, 100, 0, 0, none, fun _ => ⟨none, none⟩, [], 0, false⟩

theorem closedNode_init (fs : DiskFs) : (closedNode fs).Init := ⟨rfl, rfl, rfl, rfl⟩

instance (s : DiskNode) (e : OpenEvent) : Decidable (OpensAlone s e) := by
  cases e <;> unfold OpensAlone <;> infer_instance

/-- An ecfs file that is opened, read and closed twice. -/
theorem lifeCycle_iff_example : ∃ s, s.next = 6 ∧ LifeCycle s := by
  have h : (System.run (fun s (e : OpenEvent) => if decide (OpensAlone s e) then e.next s else none)
      (closedNode .ecfs) [.open FS_READ, .read 0 10, .close, .open FS_READ, .read 0 10, .close]).any
      (fun s => s.next == 6) = true := by decide
  obtain ⟨s, hs, hp⟩ := (Option.any_eq_true _ _).mp h
  have hsteps : openSystem.Steps OpensAlone _ s :=
    System.steps_of_run_if (fun s e => decide (OpensAlone s e)) (fun _ _ h => of_decide_eq_true h) hs
  exact ⟨s, beq_iff_eq.mp hp,
    (lifeCycle_iff ((System.Reachable.of_init (closedNode_init .ecfs)).steps hsteps)).1⟩

/-- Two tasks have an ecfs file open, and one of them closes it: the other
one reads through a pointer that is `NULL`. -/
theorem not_lifeCycle : ¬ ∀ s, openSystem.Reachable System.Any s → LifeCycle s := by
  intro hall
  have h : (System.run OpenEvent.next (closedNode .ecfs)
      [.open FS_READ, .open FS_READ, .close, .read 0 10]).any (fun s => s.fault) = true := by decide
  obtain ⟨s, hs, hp⟩ := (Option.any_eq_true _ _).mp h
  have hc := hall s ((System.Reachable.of_init (closedNode_init .ecfs)).steps (System.steps_of_run hs))
  rw [hc.sound] at hp
  contradiction

end Eclair
