import Mathlib.Data.Finset.Card
import Eclair.Lib.Loop
import Eclair.Basic
import Eclair.Mm.Paging

/-!
# Eclair.Mm.Space

Page directories and page tables as words of physical memory, and the
functions of `kernel/mm/paging.c` and `kernel/task.c` that change them.

A frame is 1024 words.  The kernel reaches a directory through the page it
is mapped at and a page table through the window at `page_table_id`, where
the directory serves as a page table; both accesses go through the current
directory (`walk`), and `none` stands for a page fault.  The entries of the
TLB are invalidated after each change, so there is none.
-/

namespace Eclair

open Loop

/-- Words of physical memory, by frame and index. -/
abbrev Frames := Nat → Nat → Nat

/-- Where a page directory is: its frame, and the page it is edited through. -/
structure PageDirectory where
  frame : Nat
  page : Nat

/-- Physical memory, the frame allocator and the directories. -/
structure Spaces where
  mem : Frames
  bitmap : Nat → Bool
  cr3 : Nat
  pageDirWrap : Nat
  pageTableId : Nat
  pageBreakp : Nat
  /-- `page_dir`, of the kernel -/
  pageDir : PageDirectory
  pagedirs : Nat → PageDirectory
  /-- `task_active->id` -/
  taskActive : Nat
  /-- the tasks that have a directory -/
  tasks : Nat → Bool

namespace Spaces

/-- The directory of a task; the kernel task keeps `page_dir`. -/
def dirOf (s : Spaces) (id : Nat) : PageDirectory :=
  if id = 0 then s.pageDir else s.pagedirs id

end Spaces

/-! ## entries -/

def PAGE_FLAG_P : Nat := 0x1
def PAGE_FLAG_RW : Nat := 0x2
def PAGE_FLAG_US : Nat := 0x4

/-- `PAGE_ENT(f) | PAGE_FLAG_P | PAGE_FLAG_RW | flags`. -/
def pageEnt (f flags : Nat) : Nat := u32 (f <<< 12) ||| (PAGE_FLAG_P ||| PAGE_FLAG_RW ||| flags)

/-- The frame that a directory maps a page to, if both entries have the
needed flags. -/
def walk (mem : Frames) (need dir page : Nat) : Option Nat :=
  let de := mem dir (page / 1024)
  let te := mem (de / 4096) (page % 1024)
  if de &&& need = need ∧ te &&& need = need then some (te / 4096) else none

/-- The translation of a page: its frame, and the rights both entries give. -/
def translate (mem : Frames) (dir page : Nat) : Option (Nat × Nat) :=
  let de := mem dir (page / 1024)
  let te := mem (de / 4096) (page % 1024)
  if de &&& PAGE_FLAG_P = PAGE_FLAG_P ∧ te &&& PAGE_FLAG_P = PAGE_FLAG_P then
    some (te / 4096, de &&& te &&& (PAGE_FLAG_RW ||| PAGE_FLAG_US))
  else none

/-! ## memory -/

def setFrameWord (mem : Frames) (f i v : Nat) : Frames :=
  fun f' i' => if f' = f ∧ i' = i then v else mem f' i'

/-- Read a word of a page. -/
def readWord (page i : Nat) (s : Spaces) : Option Nat :=
  (walk s.mem PAGE_FLAG_P s.cr3 page).map fun f => s.mem f i

/-- Write a word of a page. -/
def writeWord (page i v : Nat) (s : Spaces) : Option Spaces :=
  (walk s.mem (PAGE_FLAG_P ||| PAGE_FLAG_RW) s.cr3 page).map fun f =>
    { s with mem := setFrameWord s.mem f i v }

/-- `page_dir_wrap[p]`. -/
def pageDirWord (p : Nat) (s : Spaces) : Option Nat := readWord s.pageDirWrap p s

/-- `page_dir_wrap[p] = v`. -/
def setPageDirWord (p v : Nat) (s : Spaces) : Option Spaces := writeWord s.pageDirWrap p v s

/-- `page_table[p] = v`. -/
def setPageTableWord (p v : Nat) (s : Spaces) : Option Spaces :=
  writeWord (s.pageTableId + p / 1024) (p % 1024) v s

/-! ## paging -/

/-- `page_frame_alloc`. -/
def spaceFrameAlloc (s : Spaces) : Nat × Spaces :=
  match firstFree s.bitmap (BITMAP_SIZE * 8) 0 with
  | some f => (f, { s with bitmap := Function.update s.bitmap f true })
  | none => (0, s)

/-- `page_map_table_flags`. -/
def pageMapTableFlags (p f flags : Nat) (s : Spaces) : Option Spaces :=
  (setPageDirWord p (pageEnt f flags) s).bind
    (forLoop (fun i => setPageTableWord (p * 1024 + i) 0) 0 1024)

/-- `page_map_flags`. -/
def pageMapFlags (p f flags : Nat) (s : Spaces) : Option Spaces :=
  (pageDirWord (p / 1024) s).bind fun de =>
    (if de = 0 then
      let r := spaceFrameAlloc s
      pageMapTableFlags (p / 1024) r.1 flags r.2
    else some s).bind
    (setPageTableWord p (pageEnt f flags))

/-- `page_unmap`. -/
def spaceUnmap (p : Nat) (s : Spaces) : Option Spaces :=
  (pageDirWord (p / 1024) s).bind fun de =>
    if de = 0 then some s else setPageTableWord p 0 s

/-- `page_clone_directory`: the copy of the kernel's directory, with the
entry of the window for the directory itself. -/
def pageCloneDirectory (frame page : Nat) (s : Spaces) : Option Spaces :=
  (forLoop (fun i s => (readWord s.pageDir.page i s).bind fun w => writeWord page i w s) 0 1024 s).bind
    fun s => writeWord page (s.pageTableId / 1024) (pageEnt frame 0) s

/-- `page_init_top`. -/
def pageInitTop (s : Spaces) : Option Spaces :=
  let pt := align s.pageBreakp 1024 / 1024
  forLoop (fun i s =>
    let r := spaceFrameAlloc s
    pageMapTableFlags i r.1 0 r.2) pt (1024 - pt) s

/-! ## tasks -/

/-- `task_init_memory`. -/
def taskInitMemory (s : Spaces) : Option Spaces :=
  forLoop (fun i s =>
    let (frame, s) := spaceFrameAlloc s
    let page := s.pageBreakp
    pageMapFlags page frame 0
      { s with pagedirs := Function.update s.pagedirs i ⟨frame, page⟩, pageBreakp := page + 1 })
    0 NTASKS s

/-- `task_new`, as far as it concerns the directories: clone the directory
of a task slot. -/
def taskNewSpace (id : Nat) (s : Spaces) : Option Spaces :=
  (pageCloneDirectory (s.pagedirs id).frame (s.pagedirs id).page s).map fun s =>
    { s with tasks := Function.update s.tasks id true }

/-- `task_switch`, as far as it concerns the directories. -/
def taskSwitchSpace (id : Nat) (s : Spaces) : Spaces :=
  let d := s.dirOf id
  if d.frame = s.cr3 then { s with taskActive := id }
  else { s with taskActive := id, cr3 := d.frame, pageDirWrap := d.page }

variable {id : Nat} {s : Spaces}

@[simp] theorem taskSwitchSpace_taskActive : (taskSwitchSpace id s).taskActive = id := by
  by_cases h : (s.dirOf id).frame = s.cr3 <;> simp [taskSwitchSpace, h]

@[simp] theorem taskSwitchSpace_tasks : (taskSwitchSpace id s).tasks = s.tasks := by
  by_cases h : (s.dirOf id).frame = s.cr3 <;> simp [taskSwitchSpace, h]

end Eclair
