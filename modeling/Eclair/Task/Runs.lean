import Eclair.Lib.System
import Eclair.Task.Moves

/-!
# Eclair.Task.Runs

The task subsystem as a transition system, and where its tasks are found
over whole runs.

Every event is one call into the scheduler, in any order; between the calls
tasks write the fields of their own control block that the interrupt reads,
and the file systems change at will.  What goes wrong is a signal (or a
wake-up) aimed at a task that has terminated, and blocking when no task is
ready; a step that does neither is `Sound`.
-/

namespace Eclair

open Linked Kernel

/-! ## events -/

inductive SchedEvent where
  /-- `task_new`, with the block that `kmalloc` returns -/
  | new (ptr : TaskPtr)
  | schedule
  /-- `task_block` with one of the reasons its callers give -/
  | block (reason : TaskState)
  | unblock (task : TaskPtr)
  /-- the timer interrupt -/
  | irq
  /-- the end of the timer interrupt, when the task is back -/
  | irqSignal
  /-- `sys_kill` -/
  | kill (pid : Int) (sig : Nat)
  | raise (sig : Nat)
  | terminate
  | cleanup
  /-- the active task writes its own fields -/
  | write (k : Task)
  /-- the file systems change -/
  | files (f : Vfs → Vfs)

/-- `sys_kill`. -/
def sysKill (pid : Int) (sig : Nat) (s : Kernel) : Kernel :=
  match taskGet pid s with
  | none => s
  | some t => taskSignal t sig s

/-- A task writes fields of its own, as in `k'`; links, state, time slice
and id are the scheduler's. -/
def Task.write (k' k : Task) : Task :=
  { k' with prev := k.prev, next := k.next, state := k.state, nticks := k.nticks, id := k.id }

/-- Some slot of the task map holds the task. -/
def Kernel.isLive (s : Kernel) (t : TaskPtr) : Bool :=
  (List.range NTASKS).any fun i => s.taskmap i == some t

/-- One event.  A new task gets a block that no live task has, only live
tasks are woken, and no signal is sent to task 0. -/
def SchedEvent.next (s : Kernel) : SchedEvent → Option Kernel
  | .new ptr => if s.isLive ptr then none else some (taskNew ptr s)
  | .schedule => some (taskSchedule s)
  | .block r => if r = .paused ∨ r = .sleeping ∨ r = .pwait then some (taskBlock r s) else none
  | .unblock t => if s.isLive t then some (taskUnblock t s) else none
  | .irq => some (taskIrq s)
  | .irqSignal => some (taskIrqSignal s)
  | .kill pid sig => if pid = 0 then none else some (sysKill pid sig s)
  | .raise sig => some (taskRaise sig s)
  | .terminate => some (taskTerminate s)
  | .cleanup => some (taskCleanup s)
  | .write k => some (s.modActive (Task.write k))
  | .files f => some (s.modVfs f)

/-- The runs of the task subsystem. -/
def schedSystem : System Kernel SchedEvent :=
  System.ofNext (fun s => ∃ ktask vfs, s = taskInit ktask vfs) SchedEvent.next

/-! ## the property -/

/-- Every live task is the active one, which runs and is on no list, or
exactly once on the list of its state and on no other; the lists are well
linked; the ids of the live tasks are their slots. -/
def WellPlaced (s : Kernel) : Prop :=
  ∃ xs : TaskState → List TaskPtr,
    (∀ l, IsList s.links (s.lists l) (xs l)) ∧
    s.taskmap s.active.id = some s.taskActive ∧
    ∀ i t, s.taskmap i = some t → i < NTASKS ∧ (s.task t).id = i ∧
      if t = s.taskActive then (s.task t).state = .running ∧ ∀ l, t ∉ xs l
      else ∀ l, (xs l).count t = if l = (s.task t).state then 1 else 0

/-- Not the clean-up. -/
def SchedEvent.notCleanup : SchedEvent → Prop
  | .cleanup => False
  | _ => True

/-- Tasks are well placed, and a task that has terminated stays so in every
continuation of the run until the clean-up. -/
def SchedCorrect (ok : Kernel → SchedEvent → Prop) (s : Kernel) : Prop :=
  WellPlaced s ∧
    ∀ s' t, schedSystem.Steps (fun s e => ok s e ∧ e.notCleanup) s s' →
      s.isLive t = true → (s.task t).state = .terminated → (s'.task t).state = .terminated

/-! ## the condition -/

/-- The active task blocks in this event. -/
def SchedEvent.blocks (s : Kernel) : SchedEvent → Bool
  | .block _ | .raise _ | .terminate => true
  | .kill pid _ => taskGet pid s == some s.taskActive
  | .irqSignal => s.active.sig != 0 && s.active.sigh s.active.sig == 0
  | _ => false

/-- The other task whose wait this event ends or changes. -/
def SchedEvent.target (s : Kernel) : SchedEvent → Option TaskPtr
  | .unblock t => some t
  | .kill pid _ => taskGet pid s
  | _ => none

/-- The event moves no terminated task, and blocks the active task only when
another one is ready. -/
def SchedEvent.sound (s : Kernel) (e : SchedEvent) : Bool :=
  (e.target s).all (fun t => (s.task t).state != .terminated) &&
    (!e.blocks s || (s.lists .ready).first.isSome)

/-- `SchedEvent.sound`, as a condition on steps. -/
def Sound (s : Kernel) (e : SchedEvent) : Prop := e.sound s = true

/-! ## the invariant -/

variable {s s' : Kernel} {xs : TaskState → List TaskPtr} {t : TaskPtr} {e : SchedEvent}

theorem schedInv_taskInit (ktask : TaskPtr) (vfs : Vfs) :
    SchedInv (taskInit ktask vfs) fun _ => [] := by
  refine ⟨⟨⟨fun l => IsList.nil, fun l l' t h => by simp at h⟩, fun l t h => by simp at h, rfl,
    fun i t h => ?_, fun t ht => ?_⟩, by simp [taskInit, active], rfl, rfl⟩
  · simp only [taskInit] at h ⊢
    split at h
    · next hi =>
        obtain rfl := Option.some.inj h
        subst hi
        exact ⟨by decide, by simp, .inl (by simp)⟩
    · contradiction
  · obtain rfl := List.mem_singleton.mp ht
    simp [taskInit]

theorem isLive_iff (h : SchedInv s xs) : s.isLive t = true ↔ ∃ i, s.taskmap i = some t := by
  simp only [Kernel.isLive, List.any_eq_true, List.mem_range, beq_iff_eq]
  constructor
  · rintro ⟨i, -, hi⟩
    exact ⟨i, hi⟩
  · rintro ⟨i, hi⟩
    exact ⟨i, (h.queues.map i t hi).1, hi⟩

theorem wellPlaced_of_schedInv (h : SchedInv s xs) : WellPlaced s := by
  refine ⟨xs, h.queues.lists.isList, h.live_active, fun i t hi => ?_⟩
  obtain ⟨h1, h2, h3⟩ := h.queues.map i t hi
  refine ⟨h1, h2, ?_⟩
  split
  · next ha =>
      subst ha
      exact ⟨h.running, fun l hl => (h.queues.mem l _ hl).2.2 (by simp)⟩
  · next ha =>
      intro l
      have hm := h.queues.listed hi (by simpa using ha)
      split
      · next hl =>
          subst hl
          exact List.count_eq_one_of_mem (h.queues.lists.isList _).nodup hm
      · next hl => exact List.count_eq_zero.mpr fun hl' => hl (h.queues.mem l t hl').1.symm

/-- The task is live and has terminated. -/
def Dead (t : TaskPtr) (s : Kernel) : Prop :=
  (∃ i, s.taskmap i = some t) ∧ s.waits t = some .terminated

theorem Dead.congr (h : Dead t s) (hm : s'.taskmap = s.taskmap) (hw : s'.waits = s.waits) :
    Dead t s' := by
  rw [Dead, hm, hw]
  exact h

/-- Moving a task that has not terminated leaves the terminated ones. -/
theorem Dead.update {u : TaskPtr} {w : Option TaskState} (h : Dead t s)
    (hm : s'.taskmap = s.taskmap) (hw : s'.waits = Function.update s.waits u w)
    (hu : s.waits u ≠ some .terminated) : Dead t s' := by
  have hne : t ≠ u := by
    rintro rfl
    exact hu h.2
  rw [Dead, hm, hw, Function.update_of_ne hne]
  exact h

/-- No part of the timer interrupt moves a terminated task. -/
theorem tickRule_dead (t : TaskPtr) : TickRule (Dead t) where
  keep s s' h hk hw := h.congr hk.taskmap hw
  wake s s' u st h _ hu _ hst hk hw := by
    refine h.update hk.taskmap hw ?_
    rw [hu]
    simpa using hst
  grant s s' u n h _ hu _ _ hk hw := by
    refine h.update hk.taskmap hw ?_
    rw [hu]
    decide

theorem waits_ne_terminated {l : TaskState} (h : (s.task t).state = l) (hl : l ≠ .terminated) :
    s.waits t ≠ some .terminated := fun he => hl (h.symm.trans (waits_eq_some he))

/-- **Step lemma**: a sound event keeps the scheduler invariant, and short of
a clean-up the terminated tasks. -/
theorem sched_step (h : SchedInv s xs) (hok : Sound s e) (hs : e.next s = some s') :
    (∃ xs', SchedInv s' xs') ∧ (e.notCleanup → ∀ t, Dead t s → Dead t s') := by
  obtain ⟨htarget, hblock⟩ : (∀ t, e.target s = some t → (s.task t).state ≠ .terminated) ∧
      (e.blocks s = true → xs .ready ≠ []) := by
    rw [Sound, SchedEvent.sound, Bool.and_eq_true] at hok
    refine ⟨fun t ht => by simpa [ht] using hok.1, fun hb => ?_⟩
    rw [← h.ready_first]
    simpa [hb, Option.isSome_iff_ne_none] using hok.2
  have hactive := waits_ne_terminated h.running (by decide)
  cases e with
  | new ptr =>
      simp only [SchedEvent.next, Option.ite_none_left_eq_some, isLive_iff h, not_exists,
        Option.some.injEq] at hs
      obtain ⟨hnew, rfl⟩ := hs
      obtain ⟨hinv, hsame⟩ := h.taskNew hnew
      refine ⟨hinv, fun _ t ⟨⟨i, hi⟩, hw⟩ => ?_⟩
      obtain ⟨hi', hw'⟩ := hsame i t hi
      exact ⟨⟨i, hi'⟩, hw'.trans hw⟩
  | schedule =>
      obtain rfl := Option.some.inj hs
      exact ⟨h.taskSchedule, fun _ t hd =>
        hd.congr (Moved.taskSchedule s).taskmap (taskSchedule_waits h.queues h.unlocked)⟩
  | block r =>
      simp only [SchedEvent.next, Option.ite_none_right_eq_some, Option.some.injEq] at hs
      obtain ⟨hr, rfl⟩ := hs
      obtain ⟨hinv, hw⟩ := h.taskBlock (r := r) (by rintro rfl; simp at hr)
        (by rintro rfl; simp at hr) (hblock rfl)
      exact ⟨hinv, fun _ t hd => hd.update (Moved.taskBlock r s).taskmap hw hactive⟩
  | unblock t =>
      simp only [SchedEvent.next, Option.ite_none_right_eq_some, isLive_iff h,
        Option.some.injEq] at hs
      obtain ⟨⟨i, hi⟩, rfl⟩ := hs
      obtain ⟨hinv, hw⟩ := h.taskUnblock hi
      exact ⟨hinv, fun _ u hd => hd.update (Moved.taskUnblock t s).taskmap hw
        (waits_ne_terminated rfl (htarget t rfl))⟩
  | irq =>
      obtain rfl := Option.some.inj hs
      exact ⟨h.taskIrq, fun _ t hd => ((tickRule_dead t).wakeRule.taskIrq h hd).1⟩
  | irqSignal =>
      obtain rfl := Option.some.inj hs
      obtain ⟨hinv, hm, hw⟩ := h.taskIrqSignal fun h1 h2 => hblock (by simp [SchedEvent.blocks, h1, h2])
      refine ⟨hinv, fun _ t hd => ?_⟩
      rcases hw with hw | hw
      · exact hd.congr hm hw
      · exact hd.update hm hw hactive
  | kill pid sig =>
      simp only [SchedEvent.next, Option.ite_none_left_eq_some, Option.some.injEq] at hs
      obtain ⟨-, rfl⟩ := hs
      unfold sysKill
      cases hg : taskGet pid s with
      | none => exact ⟨⟨xs, h⟩, fun _ t hd => hd⟩
      | some t =>
          have hi : s.taskmap pid.toNat = some t := by
            unfold taskGet at hg
            split at hg
            · contradiction
            · exact hg
          have hm := taskSignal_taskmap t sig s
          dsimp only
          by_cases ha : t = s.taskActive
          · subst ha
            obtain ⟨hinv, hw⟩ := h.taskRaise (hblock (by simp [SchedEvent.blocks, hg])) sig
            rw [taskSignal, if_pos rfl] at hm ⊢
            exact ⟨hinv, fun _ u hd => hd.update hm hw hactive⟩
          · obtain ⟨hinv, hw⟩ := h.taskSignal hi ha sig
            exact ⟨hinv, fun _ u hd => hd.update hm hw
              (waits_ne_terminated rfl (htarget t hg))⟩
  | raise sig =>
      obtain rfl := Option.some.inj hs
      obtain ⟨hinv, hw⟩ := h.taskRaise (hblock rfl) sig
      exact ⟨hinv, fun _ t hd => hd.update (Moved.taskBlock _ _).taskmap hw hactive⟩
  | terminate =>
      obtain rfl := Option.some.inj hs
      obtain ⟨hinv, hw⟩ := h.taskTerminate (hblock rfl)
      exact ⟨hinv, fun _ t hd => hd.update (taskTerminate_taskmap s) hw hactive⟩
  | cleanup =>
      obtain rfl := Option.some.inj hs
      exact ⟨⟨_, h.taskCleanup.1⟩, fun hc => hc.elim⟩
  | write k =>
      obtain rfl := Option.some.inj hs
      have hf : InPlace (Task.write k) := fun _ => ⟨rfl, rfl, rfl, rfl⟩
      exact ⟨⟨xs, h.modTask hf _⟩, fun _ t hd => hd.congr rfl (hf.waits _)⟩
  | files f =>
      obtain rfl := Option.some.inj hs
      exact ⟨⟨xs, h.modVfs f⟩, fun _ t hd => hd.congr rfl rfl⟩

/-! ## runs -/

/-- The scheduler invariant holds in every state of a sound run. -/
theorem schedInv_of_reachable (h : schedSystem.Reachable Sound s) : ∃ xs, SchedInv s xs := by
  refine h.invariant (I := fun s => ∃ xs, SchedInv s xs) ?_ ?_
  · rintro _ ⟨ktask, vfs, rfl⟩
    exact ⟨_, schedInv_taskInit ktask vfs⟩
  · rintro s e s' ⟨xs, hinv⟩ hok hs
    exact (sched_step hinv hok hs).1

/-- **The scheduler over whole runs**: as long as no signal and no wake-up
is aimed at a terminated task and no task blocks while none is ready, every
task is where its state says and terminated tasks stay so. -/
theorem schedCorrect_of_sound (h : schedSystem.Reachable Sound s) : SchedCorrect Sound s := by
  obtain ⟨xs, hinv⟩ := schedInv_of_reachable h
  refine ⟨wellPlaced_of_schedInv hinv, fun s' t hs hlive hst => ?_⟩
  have hdead : Dead t s :=
    ⟨(isLive_iff hinv).mp hlive, waits_of_blocked hst (by decide) (by decide)⟩
  have hrun : (∃ xs, SchedInv s' xs) ∧ Dead t s' := by
    refine hs.invariant (I := fun s => (∃ xs, SchedInv s xs) ∧ Dead t s) ?_ ⟨⟨xs, hinv⟩, hdead⟩
    rintro s₁ e s₂ ⟨⟨xs₁, h1⟩, hd⟩ ⟨hok, hc⟩ hstep
    obtain ⟨h2, hdead'⟩ := sched_step h1 hok hstep
    exact ⟨h2, hdead' hc t hd⟩
  exact waits_eq_some hrun.2.2

/-- The kernel task alone is an initial state. -/
theorem reachable_taskInit {ok : Kernel → SchedEvent → Prop} :
    schedSystem.Reachable ok (taskInit 0 default) :=
  .of_init ⟨0, default, rfl⟩

/-- Two tasks are created, one is signalled, both terminate and are cleaned
up. -/
theorem schedCorrect_of_sound_example :
    ∃ s, s.isLive 1 = false ∧ s.isLive 2 = false ∧ SchedCorrect Sound s := by
  have h : (System.run (fun s (e : SchedEvent) => if e.sound s then e.next s else none)
      (taskInit 0 default)
      [.new 1, .new 2, .schedule, .kill 2 6, .irq, .terminate, .schedule, .irqSignal,
        .cleanup]).any (fun s => !s.isLive 1 && !s.isLive 2) = true := by decide
  obtain ⟨s, hs, hp⟩ := (Option.any_eq_true _ _).mp h
  simp only [Bool.and_eq_true, Bool.not_eq_true'] at hp
  exact ⟨s, hp.1, hp.2, schedCorrect_of_sound
    (reachable_taskInit.steps (System.steps_of_run_if SchedEvent.sound (fun _ _ h => h) hs))⟩

/-- **A signal revives a terminated task**: task 1 terminates, task 2 signals
it, and the next tick makes it ready. -/
theorem not_schedCorrect :
    ¬ ∀ s, schedSystem.Reachable System.Any s → SchedCorrect System.Any s := by
  intro hall
  have h : (System.run SchedEvent.next (taskInit 0 default)
      [.new 1, .new 2, .schedule, .terminate]).any (fun s =>
        s.isLive 1 && (s.task 1).state == .terminated &&
          ((taskIrq (sysKill 1 6 s)).task 1).state == .ready) = true := by decide
  obtain ⟨s, hs, hp⟩ := (Option.any_eq_true _ _).mp h
  simp only [Bool.and_eq_true, beq_iff_eq] at hp
  obtain ⟨⟨hlive, hst⟩, hready⟩ := hp
  have hkill : SchedEvent.next s (.kill 1 6) = some (sysKill 1 6 s) := by
    simp [SchedEvent.next]
  have hirq : SchedEvent.next (sysKill 1 6 s) .irq = some (taskIrq (sysKill 1 6 s)) := by
    simp only [SchedEvent.next]
  have hsteps : schedSystem.Steps (fun s e => System.Any s e ∧ e.notCleanup) s
      (taskIrq (sysKill 1 6 s)) :=
    .head (.kill 1 6) ⟨trivial, trivial⟩ hkill (.head .irq ⟨trivial, trivial⟩ hirq .refl)
  have hreach := reachable_taskInit.steps (System.steps_of_run hs)
  have hstay := (hall s hreach).2 _ 1 hsteps hlive hst
  exact absurd (hready.symm.trans hstay) (by decide)

end Eclair
