import Eclair.Task.Runs

/-!
# Eclair.Task.Wait

`task_pwait` of `kernel/task.c` among processes that exit, are cleaned up
and are created, one step at a time.

What runs under the task lock is one step; between two steps the timer can
interrupt the task and switch to another.  A task is at a point of
`task_pwait` or of `task_terminate`, or elsewhere (`Pc`).

The state also keeps the history that the code has no record of: which
process had each pid last, and with what status each process has exited.  A
process is a number that is never used again, unlike its pid.
-/

namespace Eclair

open Kernel

/-! ## the steps of `task_pwait` -/

/-- `!task || task->state == TASK_TERMINATED`. -/
def isGone (pid : Int) (s : Kernel) : Bool :=
  match taskGet pid s with
  | none => true
  | some t => (s.task t).state == .terminated

/-- `(pid < 0 || pid >= NTASKS)? 0: taskres[pid]`. -/
def resultOf (pid : Int) (s : Kernel) : Nat :=
  if pid < 0 ∨ pid ≥ NTASKS then 0 else s.taskres pid.toNat

/-- `task_pwait` under the task lock, when the process is there. -/
def pwaitArm (pid : Int) (timeout : Nat) (s : Kernel) : Kernel :=
  s.modActive fun k =>
    { k with pwait := pid, wstatus := 0, waketime := u64 (timeout + s.timens) }

/-- Where a task is; `target` is the process that had the pid when
`task_pwait` was called. -/
inductive Pc where
  /-- in neither `task_pwait` nor `task_terminate` -/
  | elsewhere
  /-- the process is gone and the task lock released -/
  | gone (pid : Int) (target : Option Nat)
  /-- the process is there and the task lock released -/
  | armed (pid : Int) (target : Option Nat)
  /-- `stale` is cleared -/
  | cleared (pid : Int) (target : Option Nat)
  /-- in `task_block(TASK_PWAIT)` -/
  | waiting (pid : Int) (target : Option Nat)
  /-- in `task_terminate`, the result code is recorded -/
  | exiting
  deriving DecidableEq, Repr

/-- What a call of `task_pwait` returned, and the process that it meant. -/
structure Waited where
  target : Option Nat
  val : Int
  deriving DecidableEq, Repr

/-- The kernel, the points that the tasks are at, and the history. -/
structure WaitState where
  k : Kernel
  pc : TaskPtr → Pc
  /-- how many processes have been created -/
  born : Nat
  /-- the last process that had the pid -/
  owner : Nat → Option Nat
  /-- the exit status of a process that has exited -/
  code : Nat → Option Nat
  returns : List Waited

namespace WaitState

/-- The last process that had the pid, if there was one. -/
def ownerOf (pid : Int) (s : WaitState) : Option Nat :=
  if pid < 0 ∨ pid ≥ NTASKS then none else s.owner pid.toNat

/-- The exit status of a process; a pid that nobody has had counts as
status 0. -/
def codeOf (s : WaitState) : Option Nat → Option Nat
  | none => some 0
  | some g => s.code g

/-- The point that the active task is at. -/
abbrev here (s : WaitState) : Pc := s.pc s.k.taskActive

/-- The active task goes to `pc`, the kernel to `k`. -/
def goto (s : WaitState) (k : Kernel) (pc : Pc) : WaitState :=
  { s with k := k, pc := Function.update s.pc s.k.taskActive pc }

/-- `task_pwait` returns. -/
def finish (s : WaitState) (target : Option Nat) (val : Int) : WaitState :=
  { s.goto s.k .elsewhere with returns := ⟨target, val⟩ :: s.returns }

end WaitState

/-- `task_pwait` up to the release of the task lock. -/
def taskPwait (pid : Int) (timeout : Nat) (s : WaitState) : WaitState :=
  if isGone pid s.k then s.goto s.k (.gone pid (s.ownerOf pid))
  else s.goto (pwaitArm pid timeout s.k) (.armed pid (s.ownerOf pid))

/-- `task_terminate` up to the recording of the result code. -/
def startExit (s : WaitState) : WaitState :=
  let s' := s.goto (taskSetRes s.k) .exiting
  match s.owner s.k.active.id with
  | none => s'
  | some g => { s' with code := Function.update s.code g (s.k.active.loadRes % 256).toNat }

/-- The next step of the active task in `task_pwait` or `task_terminate`. -/
def runTask (s : WaitState) : Option WaitState :=
  match s.here with
  | .elsewhere => none
  | .gone pid target => some (s.finish target ((resultOf pid s.k ||| ECW_EXITED : Nat) : Int))
  | .armed pid target =>
      some (s.goto (s.k.modActive fun k => { k with stale := false }) (.cleared pid target))
  | .cleared pid target => some (s.goto (taskBlock .pwait s.k) (.waiting pid target))
  | .waiting _ target =>
      some (s.finish target (if s.k.active.stale then -EINTR else s.k.active.wstatus))
  | .exiting => some { s with k := taskBlock .terminated (taskFree s.k) }

/-- The end of the timer interrupt.  A handler makes no call of
`task_pwait` here. -/
def irqEnd (s : WaitState) : WaitState :=
  if s.k.active.sig = 0 then s
  else
    let sig := s.k.active.sig
    let s := { s with k := s.k.modActive fun k => { k with sig := 0 } }
    if s.k.active.sigh sig = 0 then startExit s
    else { s with k := s.k.modActive fun k => { k with sigdone := true } }

/-! ## events -/

inductive WaitEvent where
  /-- `task_new`, with the block that `kmalloc` returns -/
  | new (ptr : TaskPtr)
  /-- `sys_pwait` -/
  | pwait (pid : Int) (timeout : Nat)
  /-- the active task goes on in the kernel -/
  | run
  /-- `sys_exit` -/
  | exit (code : Int)
  /-- `task_cleanup` by the idle task -/
  | cleanup
  /-- the timer interrupt, up to `task_unlockpost` -/
  | tick
  /-- the end of the timer interrupt, when the task is back -/
  | irqSignal
  /-- what tasks do elsewhere: block for another reason, signal a process
  that has not terminated, write fields of their own and files -/
  | other (e : SchedEvent)

/-- The events of the scheduler that leave the processes alone. -/
def SchedEvent.mild (s : Kernel) : SchedEvent → Bool
  | .block r => r != .pwait
  | .kill pid _ => (taskGet pid s).all fun t => (s.task t).state != .terminated
  | .write _ | .files _ => true
  | _ => false

/-- A new process gets the lowest free pid. -/
def newProcess (ptr : TaskPtr) (s : WaitState) : WaitState :=
  match freeSlot s.k with
  | none => s
  | some id =>
      { s with
        k := taskNew ptr s.k
        pc := Function.update s.pc ptr .elsewhere
        born := s.born + 1
        owner := Function.update s.owner id (some s.born) }

/-- One event.  Task 0 idles: it makes no calls and cleans up. -/
def WaitEvent.next (s : WaitState) : WaitEvent → Option WaitState
  | .new ptr => if s.k.isLive ptr then none else some (newProcess ptr s)
  | .pwait pid timeout =>
      if s.k.active.id ≠ 0 ∧ s.here = .elsewhere then some (taskPwait pid timeout s) else none
  | .run => if s.k.active.id ≠ 0 then runTask s else none
  | .exit code =>
      if s.k.active.id ≠ 0 ∧ s.here = .elsewhere then
        some (startExit { s with k := s.k.modActive fun k => { k with loadRes := code } })
      else none
  | .cleanup => if s.k.active.id = 0 then some { s with k := taskCleanup s.k } else none
  | .tick => some { s with k := taskIrq s.k }
  | .irqSignal => if s.k.active.id ≠ 0 then some (irqEnd s) else none
  | .other e =>
      if s.k.active.id ≠ 0 ∧ s.here = .elsewhere ∧ e.mild s.k then
        (e.next s.k).map fun k => { s with k := k }
      else none

/-- The state after `task_init`: the kernel task is the first process. -/
def waitInit (ktask : TaskPtr) (vfs : Vfs) : WaitState where
  k := taskInit ktask vfs
  pc := fun _ => .elsewhere
  born := 1
  owner := fun i => if i = 0 then some 0 else none
  code := fun _ => none
  returns := []

/-- The runs of processes that wait for each other. -/
def waitSystem : System WaitState WaitEvent :=
  System.ofNext (fun s => ∃ ktask vfs, s = waitInit ktask vfs) WaitEvent.next

/-! ## the property -/

/-- `ECW_ISEXITED`. -/
def isExited (st : Int) : Bool := decide (0 ≤ st) && st.toNat &&& ECW_EXITED != 0

/-- An exited status is the one of the process that was meant. -/
def Waited.Honest (s : WaitState) (r : Waited) : Prop :=
  isExited r.val = true → ∃ c, s.codeOf r.target = some c ∧ r.val = ((c ||| ECW_EXITED : Nat) : Int)

/-- Calls return the status of the process that they meant, and nobody whose
process has exited waits on another one that has its pid now. -/
structure WaitCorrect (s : WaitState) : Prop where
  honest : ∀ r ∈ s.returns, r.Honest s
  notLeft : ∀ t pid target, s.k.isLive t = true → s.pc t = .waiting pid target →
    (s.k.task t).state = .pwait → (s.codeOf target).isSome = true → s.ownerOf pid = target

/-! ## the condition -/

/-- The task is about to wait, or waits, for the process with the pid `i`. -/
def WaitState.awaits (s : WaitState) (i : Nat) (t : TaskPtr) : Bool :=
  match s.pc t with
  | .armed pid _ | .cleared pid _ => pid == i
  | .waiting pid _ => pid == i && (s.k.task t).state == .pwait
  | _ => false

/-- The task is about to read the result code of the pid `i`. -/
def WaitState.reads (s : WaitState) (i : Nat) (t : TaskPtr) : Bool :=
  match s.pc t with
  | .gone pid _ => pid == i
  | _ => false

/-- No live task has the property. -/
def Kernel.noTask (s : Kernel) (p : TaskPtr → Bool) : Bool :=
  (List.range NTASKS).all fun i => (s.taskmap i).all fun t => !p t

/-- The active task exits in this event. -/
def WaitEvent.exits (s : WaitState) : WaitEvent → Bool
  | .exit _ => true
  | .irqSignal => s.k.active.sig != 0 && s.k.active.sigh s.k.active.sig == 0
  | _ => false

/-- No process gets a pid that some task waits for, and none exits while
some task is about to read the result code that its pid had before. -/
def WaitEvent.sound (s : WaitState) (e : WaitEvent) : Bool :=
  (!e.exits s || s.k.noTask (s.reads s.k.active.id)) &&
    match e with
    | .new _ => (freeSlot s.k).all fun i => s.k.noTask (s.awaits i)
    | _ => true

/-- `WaitEvent.sound`, as a condition on steps. -/
def KeepsPids (s : WaitState) (e : WaitEvent) : Prop := e.sound s = true

end Eclair
