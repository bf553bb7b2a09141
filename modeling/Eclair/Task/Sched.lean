import Eclair.Task.Lists

/-!
# Eclair.Task.Sched

The scheduler of `kernel/task.c`: choosing, blocking and waking tasks, the
timer interrupt, signals, creation and clean-up.

`task_switch` is the change of `task_active`: what a task does after it is
switched back to is the next step of that task.  The loops of the timer
interrupt follow the `next` pointers for at most `NTASKS` steps, which is
all of a well-formed list (`forEach_induct`).
-/

namespace Eclair

open Kernel

/-- `task_get`. -/
def taskGet (id : Int) (s : Kernel) : Option TaskPtr :=
  if id < 0 ∨ id ≥ NTASKS then none else s.taskmap id.toNat

/-- `task_switch`. -/
def taskSwitch (t : TaskPtr) (s : Kernel) : Kernel :=
  if s.nlockpost ≠ 0 then { s with postponed := true } else { s with taskActive := t }

/-- A task enters the state `st` with a full time slice. -/
def Task.enter (st : TaskState) (k : Task) : Task := { k with state := st, nticks := NTICKS }

/-- `task_schedule`: the first ready task leaves its list and will run. -/
def takeReady (next : TaskPtr) (s : Kernel) : Kernel :=
  (taskRemoveFromList .ready next s).modTask next (Task.enter .running)

/-- `task_schedule`: a task that could still run goes to the ready list. -/
def preemptActive (s : Kernel) : Kernel :=
  if s.active.state = .running then
    (taskAddToList .ready s.taskActive s).modTask s.taskActive (Task.enter .ready)
  else s

/-- `task_schedule`. -/
def taskSchedule (s : Kernel) : Kernel :=
  if s.nlockpost ≠ 0 then { s with postponed := true }
  else match (s.lists .ready).first with
    | none => s
    | some next => taskSwitch next (preemptActive (takeReady next s))

/-- `task_lockpost`, as far as task switches go. -/
def taskLockpost (s : Kernel) : Kernel := { s with nlockpost := s.nlockpost + 1 }

/-- `task_unlockpost`, as far as task switches go. -/
def taskUnlockpost (s : Kernel) : Kernel :=
  let s := { s with nlockpost := s.nlockpost - 1 }
  if s.nlockpost = 0 ∧ s.postponed = true then taskSchedule { s with postponed := false } else s

/-- `task_block`: the active task enters the list of its new state. -/
def park (reason : TaskState) (s : Kernel) : Kernel :=
  taskAddToList reason s.taskActive (s.modActive fun k => { k with state := reason })

/-- `task_block`. -/
def taskBlock (reason : TaskState) (s : Kernel) : Kernel := taskSchedule (park reason s)

/-- A listed task moves to the list of another state. -/
def requeue (l : TaskState) (t : TaskPtr) (s : Kernel) : Kernel :=
  taskAddToList l t
    ((taskRemoveFromList (s.task t).state t s).modTask t fun k => { k with state := l })

/-- `task_unblock`. -/
def taskUnblock (t : TaskPtr) (s : Kernel) : Kernel :=
  if t = s.taskActive ∨ (s.task t).state = .ready then s
  else if (s.lists .ready).first.isNone then taskSchedule (requeue .ready t s)
  else requeue .ready t s

/-! ## signals -/

/-- `task_raise`. -/
def taskRaise (sig : Nat) (s : Kernel) : Kernel :=
  taskBlock .signaled (s.modActive fun k => { k with sig := sig, sigdone := false })

/-- `task_signal`. -/
def taskSignal (t : TaskPtr) (sig : Nat) (s : Kernel) : Kernel :=
  if t = s.taskActive then taskRaise sig s
  else (requeue .signaled t s).modTask t fun k =>
    { k with stale := true, sigdone := false, sig := sig }

/-! ## the timer interrupt -/

/-- `while (cur) { next = cur->next; body; cur = next; }` -/
def forEach (body : TaskPtr → Kernel → Kernel) : Nat → Option TaskPtr → Kernel → Kernel
  | 0, _, s => s
  | _ + 1, none, s => s
  | n + 1, some cur, s => forEach body n (s.task cur).next (body cur s)

/-- Wake up a sleeper that is due. -/
def wakeSleeper (cur : TaskPtr) (s : Kernel) : Kernel :=
  if (s.task cur).waketime ≤ s.timens then
    taskUnblock cur (s.modTask cur fun k => { k with waketime := 0 })
  else s

/-- Mark the node `n` as held by `t`. -/
def grant (t : TaskPtr) (n : NodePtr) (v : Vfs) : Vfs :=
  { v.modNode n (fun x => { x with held := true }) with
    holders := fun m => if m = n then t :: v.holders m else v.holders m }

/-- Grant a paused task the resource it waits for. -/
def wakePaused (cur : TaskPtr) (s : Kernel) : Kernel :=
  match (s.task cur).res with
  | none => s
  | some n =>
      if fsIsheld n s.vfs then s
      else taskUnblock cur (s.modVfs (grant cur n))

def ECW_EXITED : Nat := 0x100
def ECW_TIMEOUT : Nat := 0x200

/-- The wait status of the process `pwait`, if it has exited. -/
def exitStatus (pwait : Int) (s : Kernel) : Option Nat :=
  let exited : Bool := match taskGet pwait s with
    | none => true
    | some w => (s.task w).state == .terminated
  if exited then
    some ((if pwait < 0 ∨ pwait ≥ NTASKS then 0 else s.taskres pwait.toNat) ||| ECW_EXITED)
  else none

/-- Wake up a task that waits on another one. -/
def wakePwait (cur : TaskPtr) (s : Kernel) : Kernel :=
  if (s.task cur).waketime ≠ 0 ∧ (s.task cur).waketime ≤ s.timens then
    taskUnblock cur (s.modTask cur fun k => { k with waketime := 0, wstatus := ECW_TIMEOUT })
  else match exitStatus (s.task cur).pwait s with
    | some st => taskUnblock cur (s.modTask cur fun k => { k with wstatus := st })
    | none => s

/-- One of the loops of `task_irq`. -/
def wakeAll (l : TaskState) (body : TaskPtr → Kernel → Kernel) (s : Kernel) : Kernel :=
  forEach body NTASKS (s.lists l).first s

/-- The end of the time slice: `if (!nticks || !--nticks) task_schedule();` -/
def endSlice (s : Kernel) : Kernel :=
  let s := if s.active.nticks = 0 then s
    else s.modActive fun k => { k with nticks := k.nticks - 1 }
  if s.active.nticks = 0 then taskSchedule s else s

/-- `task_irq` up to `task_unlockpost`; the rest runs when the interrupted
task is switched back to. -/
def taskIrq (s : Kernel) : Kernel :=
  let s := taskLockpost s
  let s := { s with timens := u64 (s.timens + TICK_NS) }
  let s := wakeAll .sleeping wakeSleeper s
  let s := wakeAll .paused wakePaused s
  let s := wakeAll .signaled taskUnblock s
  let s := wakeAll .pwait wakePwait s
  taskUnlockpost (endSlice s)

/-! ## creation and termination -/

/-- The first free slot of the task map. -/
def freeSlot (s : Kernel) : Option Nat :=
  (List.range NTASKS).find? fun i => (s.taskmap i).isNone

/-- `task_new`; `ptr` is the block that `kmalloc` returned. -/
def taskNew (ptr : TaskPtr) (s : Kernel) : Kernel :=
  match freeSlot s with
  | none => s
  | some id =>
      let s := s.modTask ptr fun _ => { state := .ready, nticks := NTICKS, id := id }
      (taskAddToList .ready ptr s).setSlot id (some ptr)

/-- `task_fs_close` under the task lock, as `task_free` calls it: the node
is not acquired. -/
def taskFsCloseLocked (fd : Nat) (s : Kernel) : Kernel :=
  match (s.active.files fd).file with
  | none => s
  | some n =>
      let s := s.modActive fun k => { k with stale := false }
      let s := s.modVfs (fsClose n)
      s.modActive fun k =>
        { k with files := Function.update k.files fd { k.files fd with file := none } }

/-- `task_free`: close the files of the active task. -/
def taskFree (s : Kernel) : Kernel :=
  (List.range TASK_MAXFILES).foldl (fun s fd => taskFsCloseLocked fd s) s

/-- The first step of `task_terminate`: `taskres[id] = load.res & 0xff`. -/
def taskSetRes (s : Kernel) : Kernel :=
  { s with taskres := Function.update s.taskres s.active.id (s.active.loadRes % 256).toNat }

/-- `task_terminate`. -/
def taskTerminate (s : Kernel) : Kernel := taskBlock .terminated (taskFree (taskSetRes s))

/-- The loop of `task_cleanup`. -/
def cleanupLoop : Nat → Kernel → Kernel
  | 0, s => s
  | n + 1, s =>
      match (s.lists .terminated).first with
      | none => s
      | some t =>
          let s := taskRemoveFromList .terminated t s
          cleanupLoop n (s.setSlot (s.task t).id none)

/-- `task_cleanup`. -/
def taskCleanup (s : Kernel) : Kernel := cleanupLoop NTASKS s

/-- The rest of `task_irq`: a signalled task without a handler terminates. -/
def taskIrqSignal (s : Kernel) : Kernel :=
  if s.active.sig = 0 then s
  else
    let sig := s.active.sig
    let s := s.modActive fun k => { k with sig := 0 }
    if s.active.sigh sig = 0 then taskTerminate s
    else s.modActive fun k => { k with sigdone := true }

/-- The state after `task_init`: the kernel task runs, no other exists. -/
def taskInit (ktask : TaskPtr) (vfs : Vfs) : Kernel where
  task := fun t => if t = ktask then { state := .running, nticks := NTICKS } else {}
  lists := fun _ => {}
  taskmap := fun i => if i = 0 then some ktask else none
  taskres := fun _ => 0
  taskActive := ktask
  timens := 0
  nlockpost := 0
  postponed := false
  vfs := vfs

end Eclair
