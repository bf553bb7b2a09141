import Mathlib.Logic.Function.Basic
import Eclair.Vfs.Fs
import Eclair.Lib.Linked

/-!
# Eclair.Task.State

The task control block of `kernel/task.h` and the globals of
`kernel/task.c`.

The scheduler's functions are state transformers `Kernel → Kernel`.  The
address space, the kernel stack and the mappings of a task are left out:
no function modelled here reads them.
-/

namespace Eclair

open Linked

/-- The states of a task; each names its list in `lists[TASK_NSTATES]`. -/
inductive TaskState where
  | ready | running | paused | sleeping | terminated | signaled | pwait
  deriving DecidableEq, Repr

/-- An entry of a task's file table. -/
structure FileDesc where
  file : Option NodePtr := none
  flags : Nat := 0
  pos : Int := 0

/-- `task_t`. -/
structure Task where
  prev : Option TaskPtr := none
  next : Option TaskPtr := none
  state : TaskState := .ready
  waketime : Nat := 0
  nticks : Nat := 0
  id : Nat := 0
  res : Option NodePtr := none
  sig : Nat := 0
  /-- handler addresses; 0 is `NULL` -/
  sigh : Nat → Nat := fun _ => 0
  stale : Bool := false
  sigdone : Bool := false
  files : Nat → FileDesc := fun _ => {}
  loadRes : Int := 0
  pwait : Int := 0
  wstatus : Nat := 0
  uid : Nat := 0

instance : Inhabited Task := ⟨{}⟩

def NTICKS : Nat := 5
def TASK_MAXFILES : Nat := 32

/-- Nanoseconds in a tick: `1000000000 / FREQ_HZ`, with
`FREQ_HZ = PIT_FREQ(1193)`. -/
def TICK_NS : Nat := 1000000000 / (1193182 / 1193)

/-- The globals of `task.c` and the file systems. -/
structure Kernel where
  task : TaskPtr → Task
  lists : TaskState → Ends TaskPtr
  taskmap : Nat → Option TaskPtr
  taskres : Nat → Nat
  taskActive : TaskPtr
  timens : Nat
  nlockpost : Nat
  postponed : Bool
  vfs : Vfs

namespace Kernel

/-- Change one task. -/
def modTask (t : TaskPtr) (f : Task → Task) (s : Kernel) : Kernel :=
  { s with task := fun u => if u = t then f (s.task u) else s.task u }

/-- Change the file systems. -/
def modVfs (f : Vfs → Vfs) (s : Kernel) : Kernel := { s with vfs := f s.vfs }

/-- Set the ends of one list. -/
def setList (l : TaskState) (e : Ends TaskPtr) (s : Kernel) : Kernel :=
  { s with lists := Function.update s.lists l e }

/-- Set a slot of the task map. -/
def setSlot (i : Nat) (t : Option TaskPtr) (s : Kernel) : Kernel :=
  { s with taskmap := Function.update s.taskmap i t }

/-- The task control block of the active task. -/
abbrev active (s : Kernel) : Task := s.task s.taskActive

/-- Change the active task. -/
abbrev modActive (f : Task → Task) (s : Kernel) : Kernel := s.modTask s.taskActive f

section

variable (s : Kernel) (t u : TaskPtr) (f : Task → Task) (g : Vfs → Vfs) (l : TaskState)
variable (e : Ends TaskPtr) (i : Nat) (o : Option TaskPtr)

theorem modTask_task : (s.modTask t f).task u = if u = t then f (s.task u) else s.task u := rfl

@[simp] theorem modTask_task_self : (s.modTask t f).task t = f (s.task t) := if_pos rfl

theorem modTask_task_of_ne (h : u ≠ t) : (s.modTask t f).task u = s.task u := if_neg h

@[simp] theorem modTask_lists : (s.modTask t f).lists = s.lists := rfl
@[simp] theorem modTask_taskmap : (s.modTask t f).taskmap = s.taskmap := rfl
@[simp] theorem modTask_taskres : (s.modTask t f).taskres = s.taskres := rfl
@[simp] theorem modTask_taskActive : (s.modTask t f).taskActive = s.taskActive := rfl
@[simp] theorem modTask_timens : (s.modTask t f).timens = s.timens := rfl
@[simp] theorem modTask_nlockpost : (s.modTask t f).nlockpost = s.nlockpost := rfl
@[simp] theorem modTask_postponed : (s.modTask t f).postponed = s.postponed := rfl
@[simp] theorem modTask_vfs : (s.modTask t f).vfs = s.vfs := rfl

@[simp] theorem modVfs_task : (s.modVfs g).task = s.task := rfl
@[simp] theorem modVfs_lists : (s.modVfs g).lists = s.lists := rfl
@[simp] theorem modVfs_taskmap : (s.modVfs g).taskmap = s.taskmap := rfl
@[simp] theorem modVfs_taskres : (s.modVfs g).taskres = s.taskres := rfl
@[simp] theorem modVfs_taskActive : (s.modVfs g).taskActive = s.taskActive := rfl
@[simp] theorem modVfs_timens : (s.modVfs g).timens = s.timens := rfl
@[simp] theorem modVfs_nlockpost : (s.modVfs g).nlockpost = s.nlockpost := rfl
@[simp] theorem modVfs_postponed : (s.modVfs g).postponed = s.postponed := rfl
@[simp] theorem modVfs_vfs : (s.modVfs g).vfs = g s.vfs := rfl

@[simp] theorem setList_task : (s.setList l e).task = s.task := rfl
@[simp] theorem setList_taskmap : (s.setList l e).taskmap = s.taskmap := rfl
@[simp] theorem setList_taskres : (s.setList l e).taskres = s.taskres := rfl
@[simp] theorem setList_taskActive : (s.setList l e).taskActive = s.taskActive := rfl
@[simp] theorem setList_timens : (s.setList l e).timens = s.timens := rfl
@[simp] theorem setList_nlockpost : (s.setList l e).nlockpost = s.nlockpost := rfl
@[simp] theorem setList_postponed : (s.setList l e).postponed = s.postponed := rfl
@[simp] theorem setList_vfs : (s.setList l e).vfs = s.vfs := rfl
@[simp] theorem setSlot_task : (s.setSlot i o).task = s.task := rfl
@[simp] theorem setSlot_lists : (s.setSlot i o).lists = s.lists := rfl
@[simp] theorem setSlot_taskmap : (s.setSlot i o).taskmap = Function.update s.taskmap i o := rfl
@[simp] theorem setSlot_taskres : (s.setSlot i o).taskres = s.taskres := rfl
@[simp] theorem setSlot_taskActive : (s.setSlot i o).taskActive = s.taskActive := rfl
@[simp] theorem setSlot_timens : (s.setSlot i o).timens = s.timens := rfl
@[simp] theorem setSlot_nlockpost : (s.setSlot i o).nlockpost = s.nlockpost := rfl
@[simp] theorem setSlot_postponed : (s.setSlot i o).postponed = s.postponed := rfl
@[simp] theorem setSlot_vfs : (s.setSlot i o).vfs = s.vfs := rfl

@[simp] theorem setList_lists : (s.setList l e).lists = Function.update s.lists l e := rfl

end

/-- The link fields, as a memory of link cells. -/
def links (s : Kernel) (t : TaskPtr) : Option TaskPtr × Option TaskPtr :=
  ((s.task t).prev, (s.task t).next)

end Kernel

end Eclair
