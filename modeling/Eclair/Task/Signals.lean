import Eclair.Task.Machine

/-!
# Eclair.Task.Signals

The numbers of signals: `sys_kill` and `sys_signal` of `kernel/syscall.c`,
and the use of the pending number as an index at the end of `task_irq`.

`sys_signal` tests the number, `sys_kill` does not: the numbers are right as
long as no task is sent one that is out of range (`signalsRight_iff`).
-/

namespace Eclair

open Kernel

def TASK_NSIG : Nat := 7

/-- `sys_signal`; a number out of range is refused. -/
def sysSignal (sig : Int) (sigh : Nat) (s : Kernel) : Kernel :=
  if sig < 0 ∨ TASK_NSIG ≤ sig then s
  else s.modActive fun k => { k with sigh := Function.update k.sigh sig.toNat sigh }

/-- What changes the signals of tasks, with the registers `ebx` and `ecx`, and
the events by which tasks come, go and take turns. -/
inductive SignalEvent where
  | kill (ebx ecx : UInt32)
  | signal (ebx ecx : UInt32)
  /-- `task_isr` -/
  | fault
  | tick
  /-- the end of `task_irq`, when the task is back -/
  | tickEnd
  | new (ptr : TaskPtr)
  | schedule
  | block (reason : TaskState)
  | unblock (task : TaskPtr)
  | terminate
  | cleanup

/-- `(int)reg`. -/
def intReg (reg : UInt32) : Int := toLong reg.toNat

/-- The state after an event. -/
def SignalEvent.next (s : Kernel) : SignalEvent → Kernel
  | .kill ebx ecx => sysKill (intReg ebx) ecx.toNat s
  | .signal ebx ecx => sysSignal (intReg ebx) ecx.toNat s
  | .fault => taskRaise TASK_SIGSEGV s
  | .tick => taskIrq s
  | .tickEnd => taskIrqSignal s
  | .new ptr => taskNew ptr s
  | .schedule => taskSchedule s
  | .block reason => taskBlock reason s
  | .unblock task => taskUnblock task s
  | .terminate => taskTerminate s
  | .cleanup => taskCleanup s

/-- A number that is used as an index is in range, and a request with one that
is not leaves all tasks as they are. -/
def SignalRight (s : Kernel) : SignalEvent → Prop
  | .kill ebx ecx =>
      TASK_NSIG ≤ ecx.toNat → (SignalEvent.next s (.kill ebx ecx)).task = s.task
  | .signal ebx ecx =>
      TASK_NSIG ≤ ebx.toNat → (SignalEvent.next s (.signal ebx ecx)).task = s.task
  | .tickEnd => s.active.sig ≠ 0 → s.active.sig < TASK_NSIG
  | _ => True

/-- No task is sent a number that is out of range. -/
def SignalFits (s : Kernel) : SignalEvent → Prop
  | .kill ebx ecx => ecx.toNat < TASK_NSIG ∨ taskGet (intReg ebx) s = none
  | _ => True

/-! ## what keeps the signals -/

/-- The pending signals of all tasks are in range. -/
def SigsInRange (s : Kernel) : Prop := ∀ t, (s.task t).sig < TASK_NSIG

/-- The pending signals are the same. -/
def SameSigs (s' s : Kernel) : Prop := ∀ t, (s'.task t).sig = (s.task t).sig

variable {s s' s'' : Kernel} {t : TaskPtr}

theorem SameSigs.refl (s : Kernel) : SameSigs s s := fun _ => rfl

theorem SameSigs.trans (h : SameSigs s'' s') (h' : SameSigs s' s) : SameSigs s'' s :=
  fun t => (h t).trans (h' t)

theorem SigsInRange.of_same (h : SigsInRange s) (hs : SameSigs s' s) : SigsInRange s' := by
  intro t
  rw [hs t]
  exact h t

theorem Moved.sameSigs (h : Moved s' s) : SameSigs s' s := by
  intro t
  obtain ⟨p, n, st, k, he⟩ := h.task t
  rw [he]

theorem sameSigs_modTask {f : Task → Task} (hf : ∀ k, (f k).sig = k.sig) (t : TaskPtr)
    (s : Kernel) : SameSigs (s.modTask t f) s := by
  intro u
  rw [modTask_task]
  split
  · exact hf _
  · rfl

/-- A signal that is set in one task. -/
theorem SigsInRange.modTask {f : Task → Task} (h : SigsInRange s)
    (hf : ∀ k, k.sig < TASK_NSIG → (f k).sig < TASK_NSIG) (t : TaskPtr) :
    SigsInRange (s.modTask t f) := by
  intro u
  rw [modTask_task]
  split
  · exact hf _ (h u)
  · exact h u

/-! ## the timer interrupt -/

theorem sameSigs_forEach {body : TaskPtr → Kernel → Kernel} (hb : ∀ t s, SameSigs (body t s) s)
    (n : Nat) (cur : Option TaskPtr) (s : Kernel) : SameSigs (forEach body n cur s) s := by
  induction n generalizing cur s with
  | zero => exact SameSigs.refl s
  | succ n ih =>
      cases cur with
      | none => exact SameSigs.refl s
      | some cur => exact (ih _ _).trans (hb cur s)

theorem sameSigs_taskUnblock (t : TaskPtr) (s : Kernel) : SameSigs (taskUnblock t s) s :=
  (Moved.taskUnblock t s).sameSigs

/-- Waking a task up after a change of its other fields. -/
theorem sameSigs_wake {f : Task → Task} (hf : ∀ k, (f k).sig = k.sig) (t : TaskPtr) (s : Kernel) :
    SameSigs (taskUnblock t (s.modTask t f)) s :=
  (sameSigs_taskUnblock _ _).trans (sameSigs_modTask hf _ _)

theorem sameSigs_wakeSleeper (t : TaskPtr) (s : Kernel) : SameSigs (wakeSleeper t s) s := by
  rw [wakeSleeper]
  split
  · exact sameSigs_wake (by simp) t s
  · exact SameSigs.refl s

theorem sameSigs_wakePaused (t : TaskPtr) (s : Kernel) : SameSigs (wakePaused t s) s := by
  rw [wakePaused]
  split
  · exact SameSigs.refl s
  · split
    · exact SameSigs.refl s
    · exact (sameSigs_taskUnblock _ _).trans fun _ => rfl

theorem sameSigs_wakePwait (t : TaskPtr) (s : Kernel) : SameSigs (wakePwait t s) s := by
  rw [wakePwait]
  split
  · exact sameSigs_wake (by simp) t s
  · split
    · exact sameSigs_wake (by simp) t s
    · exact SameSigs.refl s

theorem sameSigs_endSlice (s : Kernel) : SameSigs (endSlice s) s := by
  have hs : ∀ s, SameSigs (if s.active.nticks = 0 then taskSchedule s else s) s := by
    intro s
    split
    · exact (Moved.taskSchedule s).sameSigs
    · exact SameSigs.refl s
  rw [endSlice]
  refine (hs _).trans ?_
  split
  · exact SameSigs.refl s
  · exact sameSigs_modTask (by simp) _ s

theorem sameSigs_taskUnlockpost (s : Kernel) : SameSigs (taskUnlockpost s) s := by
  rw [taskUnlockpost]
  split
  · exact (Moved.taskSchedule _).sameSigs.trans fun _ => rfl
  · exact fun _ => rfl

theorem sameSigs_taskIrq (s : Kernel) : SameSigs (taskIrq s) s := by
  rw [taskIrq]
  refine (sameSigs_taskUnlockpost _).trans <| (sameSigs_endSlice _).trans <|
    (sameSigs_forEach sameSigs_wakePwait _ _ _).trans <|
    (sameSigs_forEach sameSigs_taskUnblock _ _ _).trans <|
    (sameSigs_forEach sameSigs_wakePaused _ _ _).trans <|
    (sameSigs_forEach sameSigs_wakeSleeper _ _ _).trans fun _ => rfl

/-! ## the other events -/

theorem sameSigs_taskTerminate (s : Kernel) : SameSigs (taskTerminate s) s := by
  have hclose : ∀ fd s, SameSigs (taskFsCloseLocked fd s) s := by
    intro fd s
    rw [taskFsCloseLocked]
    split
    · exact SameSigs.refl s
    · have hvfs : ∀ f s, SameSigs (s.modVfs f) s := fun _ s => SameSigs.refl s
      exact (sameSigs_modTask (by simp) _ _).trans ((hvfs _ _).trans (sameSigs_modTask (by simp) _ s))
  have hfree : ∀ (fds : List Nat) s,
      SameSigs (fds.foldl (fun s fd => taskFsCloseLocked fd s) s) s := by
    intro fds
    induction fds with
    | nil => exact SameSigs.refl
    | cons fd fds ih => exact fun s => (ih _).trans (hclose fd s)
  exact (Moved.taskBlock _ _).sameSigs.trans ((hfree _ _).trans fun _ => rfl)

theorem sameSigs_taskCleanup (s : Kernel) : SameSigs (taskCleanup s) s := by
  have hloop : ∀ n s, SameSigs (cleanupLoop n s) s := by
    intro n
    induction n with
    | zero => exact SameSigs.refl
    | succ n ih =>
        intro s
        rw [cleanupLoop]
        split
        · exact SameSigs.refl s
        · exact (ih _).trans (Moved.remove _ _ s).sameSigs
  exact hloop _ s

/-- A new task has no pending signal. -/
theorem SigsInRange.taskNew (h : SigsInRange s) (ptr : TaskPtr) : SigsInRange (taskNew ptr s) := by
  rw [Eclair.taskNew]
  split
  · exact h
  · exact (h.modTask (by simp [TASK_NSIG]) ptr).of_same (Moved.add _ _ _).sameSigs

theorem SigsInRange.taskRaise (h : SigsInRange s) {sig : Nat} (hs : sig < TASK_NSIG) :
    SigsInRange (taskRaise sig s) :=
  (h.modTask (fun _ _ => hs) _).of_same (Moved.taskBlock _ _).sameSigs

theorem SigsInRange.taskSignal (h : SigsInRange s) {sig : Nat} (hs : sig < TASK_NSIG)
    (t : TaskPtr) : SigsInRange (taskSignal t sig s) := by
  rw [Eclair.taskSignal]
  split
  · exact h.taskRaise hs
  · exact (h.of_same (Moved.requeue _ _ _).sameSigs).modTask (fun _ _ => hs) t

theorem SigsInRange.taskIrqSignal (h : SigsInRange s) : SigsInRange (taskIrqSignal s) := by
  have h0 : SigsInRange (s.modActive fun k => { k with sig := 0 }) :=
    h.modTask (by simp [TASK_NSIG]) _
  rw [Eclair.taskIrqSignal]
  split
  · exact h
  · dsimp only
    split
    · exact h0.of_same (sameSigs_taskTerminate _)
    · exact h0.of_same (sameSigs_modTask (by simp) _ _)

/-- The task that is sent a signal has it pending. -/
theorem taskSignal_sig (t : TaskPtr) (sig : Nat) (s : Kernel) :
    ((taskSignal t sig s).task t).sig = sig := by
  rw [taskSignal]
  split
  · next ht =>
      rw [taskRaise, (Moved.taskBlock _ _).sameSigs, ht, modTask_task_self]
  · rw [modTask_task_self]

/-! ## runs -/

theorem SigsInRange.next (h : SigsInRange s) (e : SignalEvent) (hr : SignalRight s e) :
    SigsInRange (e.next s) := by
  cases e with
  | kill ebx ecx =>
      by_cases hs : ecx.toNat < TASK_NSIG
      · rw [SignalEvent.next, sysKill]
        split
        · exact h
        · exact h.taskSignal hs _
      · have ht := hr (Nat.le_of_not_lt hs)
        intro t
        rw [ht]
        exact h t
  | signal ebx ecx =>
      rw [SignalEvent.next, sysSignal]
      split
      · exact h
      · exact h.of_same (sameSigs_modTask (by simp) _ _)
  | fault => exact h.taskRaise (by decide)
  | tick => exact h.of_same (sameSigs_taskIrq s)
  | tickEnd => exact h.taskIrqSignal
  | new ptr => exact h.taskNew ptr
  | schedule => exact h.of_same (Moved.taskSchedule s).sameSigs
  | block reason => exact h.of_same (Moved.taskBlock reason s).sameSigs
  | unblock task => exact h.of_same (Moved.taskUnblock task s).sameSigs
  | terminate => exact h.of_same (sameSigs_taskTerminate s)
  | cleanup => exact h.of_same (sameSigs_taskCleanup s)

/-- A register is in range as a signed number exactly if it is so as an
unsigned one. -/
theorem intReg_out {reg : UInt32} (h : TASK_NSIG ≤ reg.toNat) :
    intReg reg < 0 ∨ TASK_NSIG ≤ intReg reg := by
  have hlt := reg.toNat_lt
  have hmod : intReg reg % 2 ^ 32 = (reg.toNat : Int) % 2 ^ 32 := toLong_emod _
  rw [TASK_NSIG] at h ⊢
  omega

/-- **Signal rule**: which events are right. -/
theorem signalRight_iff (h : SigsInRange s) (e : SignalEvent) : SignalRight s e ↔ SignalFits s e := by
  cases e with
  | kill ebx ecx =>
      rw [SignalRight, SignalFits, SignalEvent.next, sysKill]
      cases hg : taskGet (intReg ebx) s with
      | none => simp
      | some t =>
          constructor
          · intro hr
            refine .inl (Nat.lt_of_not_le fun hs => ?_)
            have hsig := taskSignal_sig t ecx.toNat s
            have hold := h t
            dsimp only at hr
            rw [hr hs] at hsig
            omega
          · intro hf hs
            obtain hs' | hn := hf
            · omega
            · simp at hn
  | signal ebx ecx =>
      refine iff_of_true (fun hs => ?_) trivial
      rw [SignalEvent.next, sysSignal, if_pos (intReg_out hs)]
  | tickEnd => exact iff_of_true (fun _ => h _) trivial
  | _ => exact Iff.rfl

/-- **Signal numbers**: a run from the start is right if and only if nobody
sends a task a number that is out of range. -/
theorem signalsRight_iff (ktask : TaskPtr) (vfs : Vfs) (es : List SignalEvent) :
    System.Along SignalEvent.next SignalRight (taskInit ktask vfs) es ↔
      System.Along SignalEvent.next SignalFits (taskInit ktask vfs) es := by
  refine System.along_iff (I := SigsInRange) (fun _ e h => h.next e)
    (fun _ e h => signalRight_iff h e) fun t => ?_
  rw [taskInit]
  dsimp only
  split <;> decide

/-- Task 1 is sent signal 7 and has it pending when it is back. -/
theorem not_signalsRight :
    ¬ ∀ (ktask : TaskPtr) (vfs : Vfs) (es : List SignalEvent),
      System.Along SignalEvent.next SignalRight (taskInit ktask vfs) es := by
  intro hall
  have hrun := hall 0 default [.new 1, .kill 1 7, .tick, .tickEnd]
  have hindex := hrun.2.2.2.1
  exact absurd (hindex (by decide +kernel)) (by decide +kernel)

end Eclair
