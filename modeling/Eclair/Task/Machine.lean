import Eclair.Task.File
import Eclair.Task.Runs

/-!
# Eclair.Task.Machine

The kernel with the control stacks of its tasks: which file calls they are
in, and what interrupts them.

The active task makes the next step of its innermost frame; the timer can
interrupt it before any step and may switch to another task, which then goes
on where it was.  A signal is delivered at the end of the interrupt: without
a handler the task terminates, with one the handler runs on top of whatever
was interrupted, be it a file call.  Task 0 idles and cleans up.
-/

namespace Eclair

open Resume Kernel

/-- What a task is in the middle of; above user mode. -/
inductive Frame where
  /-- a file call -/
  | sys (p : Call)
  /-- the end of the timer interrupt, after `task_unlockpost` -/
  | irq
  /-- `task_isr`, until the signal has been delivered -/
  | isr
  /-- a signal handler in user mode -/
  | handler

/-- The kernel and, for each task, its frames from the innermost out. -/
structure Machine where
  k : Kernel
  ctl : TaskPtr → List Frame

namespace Machine

/-- The frames of the active task. -/
abbrev frames (m : Machine) : List Frame := m.ctl m.k.taskActive

/-- A step of the active task to the kernel state `k` and the frames `l`. -/
def goto (m : Machine) (k : Kernel) (l : List Frame) : Machine :=
  ⟨k, Function.update m.ctl m.k.taskActive l⟩

/-- The active task, not the idle one, is in user mode. -/
def userMode (m : Machine) : Bool :=
  m.k.active.id != 0 && match m.frames with
    | [] | .handler :: _ => true
    | _ => false

end Machine

/-! ## events -/

inductive Event where
  /-- a file call from user mode -/
  | call (c : FileCall)
  /-- the active task makes a step in the kernel -/
  | run
  /-- a signal handler returns -/
  | sigret
  /-- the timer interrupt -/
  | tick
  /-- `sys_kill` -/
  | kill (pid : Int) (sig : Nat)
  /-- a page fault -/
  | fault
  /-- `sys_exit` -/
  | exit (code : Int)
  /-- the active task sets a signal handler -/
  | handle (sig handler : Nat)
  /-- `task_new`, with the block that `kmalloc` returns -/
  | new (ptr : TaskPtr)
  /-- `task_cleanup` by the idle task -/
  | cleanup
  /-- the drivers that are not modelled -/
  | driver (busy : Nat → Bool) (hook : NodePtr → Int)

def TASK_SIGSEGV : Nat := 5

/-- The end of the timer interrupt in the active task. -/
def irqReturn (m : Machine) (rest : List Frame) : Machine :=
  m.goto (taskIrqSignal m.k)
    (if m.k.active.sig = 0 then rest
      else if m.k.active.sigh m.k.active.sig = 0 then []
      else .handler :: rest)

/-- A step of the active task in its innermost frame. -/
def runFrame (m : Machine) : List Frame → Option Machine
  | .sys (.step op k) :: rest => some (m.goto (op.exec m.k) (.sys (k m.k) :: rest))
  | .sys (.ret _) :: rest => some (m.goto m.k rest)
  | .irq :: rest => some (irqReturn m rest)
  | .isr :: rest => if m.k.active.sigdone then some (m.goto m.k rest) else none
  | _ => none

/-- One event. -/
def Event.next (m : Machine) : Event → Option Machine
  | .call c => if m.userMode then some (m.goto m.k (.sys c.prog :: m.frames)) else none
  | .run => runFrame m m.frames
  | .sigret => match m.frames with
    | .handler :: rest => some (m.goto m.k rest)
    | _ => none
  | .tick => some (m.goto (taskIrq m.k) (.irq :: m.frames))
  | .kill pid sig => if m.userMode then some (m.goto (sysKill pid sig m.k) m.frames) else none
  | .fault =>
      if m.k.active.id = 0 then none
      else some (m.goto (taskRaise TASK_SIGSEGV m.k) (.isr :: m.frames))
  | .exit code =>
      if m.userMode then
        some (m.goto (taskTerminate (m.k.modActive fun k => { k with loadRes := code })) [])
      else none
  | .handle sig h =>
      if m.userMode then
        some (m.goto (m.k.modActive fun k => { k with sigh := Function.update k.sigh sig h })
          m.frames)
      else none
  | .new ptr =>
      if m.k.isLive ptr then none
      else some ⟨taskNew ptr m.k, Function.update m.ctl ptr []⟩
  | .cleanup => if m.k.active.id = 0 then some (m.goto (taskCleanup m.k) m.frames) else none
  | .driver busy hook => some (m.goto (m.k.modVfs fun v => { v with busy := busy, hook := hook })
      m.frames)

/-- A file system before any file call: no node is held, and those not
allocated yet are empty. -/
structure Fresh (v : Vfs) : Prop where
  held : ∀ n, (v.node n).held = false
  holders : ∀ n, v.holders n = []
  opened : v.opened = []
  stored : ∀ i, (v.chnl i).stored = false
  unborn : ∀ n, v.brk ≤ n → v.node n = {}

/-- The machine that `task_init` leaves. -/
def Machine.Init (m : Machine) : Prop :=
  ∃ ktask vfs, Fresh vfs ∧ m = ⟨taskInit ktask vfs, fun _ => []⟩

/-- The runs of the machine. -/
def machineSystem : System Machine Event := System.ofNext Machine.Init Event.next

end Eclair
