import Eclair.Task.Wakeups

/-!
# Eclair.Task.Turns

How long a ready task waits for the processor.

The ready list is served in turn: tasks only join it at the end, and every
task switch takes the first one off, with a time slice of `NTICKS` ticks.  A
task with `k` others before it therefore runs within `NTICKS * k` ticks and
what is left of the running one's slice (`InLine`).
-/

namespace Eclair

open Linked Kernel System

variable {s s' : Kernel} {xs : TaskState → List TaskPtr} {t u : TaskPtr} {as bs : List TaskPtr}
variable {n : Nat}

/-! ## time slices -/

theorem SameTask.nticks {a b : Task} (h : SameTask a b) : a.nticks = b.nticks := by
  obtain ⟨p, n, rfl⟩ := h
  rfl

/-- Whoever is switched to has a full time slice. -/
theorem taskSchedule_slice {out ts : List TaskPtr} (h : Queues out s xs) (h0 : s.nlockpost = 0)
    (hr : xs .ready = t :: ts) :
    (taskSchedule s).taskActive = t ∧ (taskSchedule s).active.nticks = NTICKS := by
  have heq : taskSchedule s = { preemptActive (takeReady t s) with taskActive := t } := by
    rw [taskSchedule_eq h h0, hr]
  have htake : ((takeReady t s).task t).nticks = NTICKS := by
    rw [takeReady, modTask_task_self]
    rfl
  have hpre : ((preemptActive (takeReady t s)).task t).nticks = NTICKS := by
    unfold preemptActive
    split
    · rw [modTask_task]
      split
      · rfl
      · rw [((sameButLinks_taskAddToList _ _ _).task t).nticks, htake]
    · exact htake
  rw [heq]
  exact ⟨rfl, hpre⟩

/-- Moving a task leaves the time slices alone. -/
theorem requeue_nticks (l : TaskState) (t u : TaskPtr) :
    ((requeue l t s).task u).nticks = (s.task u).nticks := by
  rw [((requeue_sameButLinks l t s).task u).nticks, modTask_task]
  split <;> rfl

/-- A new task does not run yet. -/
theorem taskNew_taskActive (ptr : TaskPtr) : (taskNew ptr s).taskActive = s.taskActive := by
  unfold taskNew
  cases freeSlot s with
  | none => rfl
  | some id => exact (sameButLinks_taskAddToList _ _ _).taskActive

theorem cleanupLoop_same (n : Nat) (s : Kernel) :
    (cleanupLoop n s).taskActive = s.taskActive ∧
      ∀ u, SameTask ((cleanupLoop n s).task u) (s.task u) := by
  induction n generalizing s with
  | zero => exact ⟨rfl, fun u => .refl _⟩
  | succ n ih =>
      cases hf : (s.lists .terminated).first with
      | none =>
          simp only [cleanupLoop, hf]
          exact ⟨trivial, fun u => .refl _⟩
      | some t =>
          have hrem := sameButLinks_taskRemoveFromList .terminated t s
          obtain ⟨ha, ht⟩ := ih (cleanupOne t s)
          rw [cleanupLoop_succ n hf]
          exact ⟨ha.trans (cleanupOne_taskActive t), fun u => (ht u).trans (hrem.task u)⟩

/-- While the task switches are locked, a slice with more than one tick left only shrinks. -/
theorem endSlice_of_more (h : 1 < s.active.nticks) :
    endSlice s = s.modActive fun k => { k with nticks := k.nticks - 1 } := by
  have hk : (s.modActive fun k => { k with nticks := k.nticks - 1 }).active.nticks =
      s.active.nticks - 1 := by simp [active]
  have h0 : ¬s.active.nticks = 0 := by omega
  rw [endSlice, if_neg h0, hk, if_neg (by omega)]

/-! ## no slice is longer than `NTICKS` -/

/-- The time slices of all tasks. -/
def Sliced (s : Kernel) : Prop := ∀ u, (s.task u).nticks ≤ NTICKS

namespace Sliced

theorem sameButLinks (h : Sliced s) (hs : SameButLinks s' s) : Sliced s' := fun u => by
  rw [(hs.task u).nticks]
  exact h u

theorem modTask {f : Task → Task} (h : Sliced s) (t : TaskPtr)
    (hf : ∀ k, (f k).nticks ≤ max k.nticks NTICKS) : Sliced (s.modTask t f) := fun u => by
  rw [modTask_task]
  split
  · exact (hf _).trans (max_le (h u) le_rfl)
  · exact h u

/-- A change of another field. -/
theorem modTask_of_eq {f : Task → Task} (h : Sliced s) (t : TaskPtr)
    (hf : ∀ k, (f k).nticks = k.nticks) : Sliced (s.modTask t f) :=
  h.modTask t fun k => (hf k).le.trans (le_max_left _ _)

theorem takeReady (h : Sliced s) (t : TaskPtr) : Sliced (takeReady t s) :=
  (h.sameButLinks (sameButLinks_taskRemoveFromList _ _ _)).modTask t fun _ => le_max_right _ _

theorem preemptActive (h : Sliced s) : Sliced (preemptActive s) := by
  unfold Eclair.preemptActive
  split
  · exact (h.sameButLinks (sameButLinks_taskAddToList _ _ _)).modTask _ fun _ => le_max_right _ _
  · exact h

theorem taskSchedule (h : Sliced s) : Sliced (taskSchedule s) := by
  unfold Eclair.taskSchedule
  split
  · exact h
  · split
    · exact h
    · unfold taskSwitch
      split <;> exact (h.takeReady _).preemptActive

theorem taskBlock (h : Sliced s) (r : TaskState) : Sliced (taskBlock r s) := by
  have hset : Sliced (s.modActive fun k => { k with state := r }) := h.modTask_of_eq _ fun _ => rfl
  have hpark : Sliced (park r s) := hset.sameButLinks (sameButLinks_taskAddToList _ _ _)
  exact hpark.taskSchedule

theorem requeue (h : Sliced s) (l : TaskState) (t : TaskPtr) : Sliced (requeue l t s) := fun u => by
  rw [requeue_nticks]
  exact h u

theorem taskUnblock (h : Sliced s) (t : TaskPtr) : Sliced (taskUnblock t s) := by
  unfold Eclair.taskUnblock
  split
  · exact h
  · split
    · exact (h.requeue _ _).taskSchedule
    · exact h.requeue _ _

theorem taskRaise (h : Sliced s) (sig : Nat) : Sliced (taskRaise sig s) := by
  have hset : Sliced (s.modActive fun k => { k with sig := sig, sigdone := false }) :=
    h.modTask_of_eq _ fun _ => rfl
  exact hset.taskBlock _

theorem taskSignal (h : Sliced s) (t : TaskPtr) (sig : Nat) : Sliced (taskSignal t sig s) := by
  unfold Eclair.taskSignal
  split
  · exact h.taskRaise sig
  · exact (h.requeue _ _).modTask_of_eq _ fun _ => rfl

theorem modVfs (h : Sliced s) (f : Vfs → Vfs) : Sliced (s.modVfs f) := h

theorem taskFsCloseLocked (h : Sliced s) (fd : Nat) : Sliced (taskFsCloseLocked fd s) := by
  unfold Eclair.taskFsCloseLocked
  split
  · exact h
  · dsimp only
    refine modTask_of_eq (modVfs (modTask_of_eq h _ ?_) _) _ ?_ <;> exact fun _ => rfl

theorem taskTerminate (h : Sliced s) : Sliced (taskTerminate s) := by
  have hclose : ∀ (fds : List Nat) (s : Kernel), Sliced s →
      Sliced (fds.foldl (fun s fd => Eclair.taskFsCloseLocked fd s) s) := by
    intro fds
    induction fds with
    | nil => exact fun s h => h
    | cons fd fds ih => exact fun s h => ih _ (h.taskFsCloseLocked fd)
  have hset : Sliced (taskSetRes s) := h
  have hfree : Sliced (taskFree (taskSetRes s)) := hclose _ _ hset
  exact hfree.taskBlock _

/-- A loop of the timer interrupt. -/
theorem wakeAll {body : TaskPtr → Kernel → Kernel} (hbody : ∀ t s, Sliced s → Sliced (body t s))
    (l : TaskState) (h : Sliced s) : Sliced (wakeAll l body s) := by
  unfold Eclair.wakeAll
  generalize NTASKS = n
  generalize (s.lists l).first = cur
  induction n generalizing cur s with
  | zero => exact h
  | succ n ih =>
      cases cur with
      | none => exact h
      | some t => exact ih (hbody t s h) _

theorem wakeSleeper (t : TaskPtr) (s : Kernel) (h : Sliced s) : Sliced (wakeSleeper t s) := by
  unfold Eclair.wakeSleeper
  split
  · refine taskUnblock (modTask_of_eq h t ?_) t
    exact fun _ => rfl
  · exact h

theorem wakePaused (t : TaskPtr) (s : Kernel) (h : Sliced s) : Sliced (wakePaused t s) := by
  unfold Eclair.wakePaused
  split
  · exact h
  · split
    · exact h
    · exact (h.modVfs _).taskUnblock t

theorem wakePwait (t : TaskPtr) (s : Kernel) (h : Sliced s) : Sliced (wakePwait t s) := by
  unfold Eclair.wakePwait
  split
  · refine taskUnblock (modTask_of_eq h t ?_) t
    exact fun _ => rfl
  · split
    · refine taskUnblock (modTask_of_eq h t ?_) t
      exact fun _ => rfl
    · exact h

theorem taskIrq (h : Sliced s) : Sliced (taskIrq s) := by
  have hend : ∀ s, Sliced s → Sliced (endSlice s) := by
    intro s h
    have hdec : Sliced (if s.active.nticks = 0 then s
        else s.modActive fun k => { k with nticks := k.nticks - 1 }) := by
      split
      · exact h
      · exact h.modTask _ fun k => (Nat.sub_le _ _).trans (le_max_left _ _)
    rw [endSlice]
    generalize (if s.active.nticks = 0 then s else _) = s₁ at hdec ⊢
    split
    · exact hdec.taskSchedule
    · exact hdec
  have hlock : Sliced { taskLockpost s with timens := u64 (s.timens + TICK_NS) } := fun u => h u
  have hwake := wakeAll wakePwait .pwait <| wakeAll (fun t _ h => h.taskUnblock t) .signaled <|
    wakeAll wakePaused .paused <| wakeAll wakeSleeper .sleeping hlock
  have hunlock : ∀ s, Sliced s → Sliced (taskUnlockpost s) := by
    intro s h
    unfold taskUnlockpost
    dsimp only
    split
    · exact Sliced.taskSchedule fun u => h u
    · exact fun u => h u
  exact hunlock _ (hend _ hwake)

theorem taskIrqSignal (h : Sliced s) : Sliced (taskIrqSignal s) := by
  have hclear : Sliced (s.modActive fun k => { k with sig := 0 }) := h.modTask_of_eq _ fun _ => rfl
  unfold Eclair.taskIrqSignal
  split
  · exact h
  · dsimp only
    split
    · exact hclear.taskTerminate
    · exact hclear.modTask_of_eq _ fun _ => rfl

theorem taskNew (h : Sliced s) (ptr : TaskPtr) : Sliced (taskNew ptr s) := by
  unfold Eclair.taskNew
  split
  · exact h
  · dsimp only
    next id _ =>
    have hnew : Sliced (s.modTask ptr fun _ => { state := .ready, nticks := NTICKS, id := id }) :=
      h.modTask ptr fun _ => le_max_right _ _
    exact fun u => hnew.sameButLinks (sameButLinks_taskAddToList .ready ptr _) u

/-- **Step**: no event makes a time slice longer than `NTICKS`. -/
theorem step {e : SchedEvent} (h : Sliced s) (hs : e.next s = some s') : Sliced s' := by
  cases e with
  | new ptr =>
      obtain ⟨-, he⟩ := Option.ite_none_left_eq_some.mp hs
      exact Option.some.inj he ▸ h.taskNew ptr
  | schedule =>
      obtain rfl := Option.some.inj hs
      exact h.taskSchedule
  | block r =>
      obtain ⟨-, he⟩ := Option.ite_none_right_eq_some.mp hs
      exact Option.some.inj he ▸ h.taskBlock r
  | unblock u =>
      obtain ⟨-, he⟩ := Option.ite_none_right_eq_some.mp hs
      exact Option.some.inj he ▸ h.taskUnblock u
  | irq =>
      obtain rfl := Option.some.inj hs
      exact h.taskIrq
  | irqSignal =>
      obtain rfl := Option.some.inj hs
      exact h.taskIrqSignal
  | kill pid sig =>
      obtain ⟨-, he⟩ := Option.ite_none_left_eq_some.mp hs
      obtain rfl := Option.some.inj he
      unfold sysKill
      split
      · exact h
      · exact h.taskSignal _ _
  | raise sig =>
      obtain rfl := Option.some.inj hs
      exact h.taskRaise sig
  | terminate =>
      obtain rfl := Option.some.inj hs
      exact h.taskTerminate
  | cleanup =>
      obtain rfl := Option.some.inj hs
      intro u
      rw [taskCleanup, ((cleanupLoop_same NTASKS s).2 u).nticks]
      exact h u
  | write k =>
      obtain rfl := Option.some.inj hs
      exact h.modTask_of_eq _ fun _ => rfl
  | files f =>
      obtain rfl := Option.some.inj hs
      exact h

end Sliced

/-! ## waiting for a turn -/

/-- The task is ready, and `n` is enough for the tasks before it: a slice for
each and the rest of the running one's. -/
def InLine (t : TaskPtr) (n : Nat) (s : Kernel) : Prop :=
  ∃ xs as bs, SchedInv s xs ∧ xs .ready = as ++ t :: bs ∧
    n = NTICKS * as.length + (s.active.nticks - 1)

/-- After a switch the task runs, or one slice less is ahead of it. -/
theorem InLine.of_switch {out : List TaskPtr} (h : Queues out s xs) (h0 : s.nlockpost = 0)
    (hr : xs .ready = as ++ t :: bs)
    (hinv : ∀ u ts, xs .ready = u :: ts →
      ∃ ws, SchedInv (taskSchedule s) (Function.update xs .ready (ts ++ ws))) :
    (taskSchedule s).taskActive = t ∨
      ∃ m, InLine t m (taskSchedule s) ∧ m + 1 ≤ NTICKS * as.length := by
  cases as with
  | nil => exact .inl (taskSchedule_slice h h0 hr).1
  | cons a as =>
      obtain ⟨-, hslice⟩ := taskSchedule_slice h h0 hr
      obtain ⟨ws, hws⟩ := hinv a (as ++ t :: bs) hr
      refine .inr ⟨_, ⟨_, as, bs ++ ws, hws, ?_, rfl⟩, ?_⟩
      · rw [Function.update_self, List.append_assoc, List.cons_append]
      · rw [hslice, List.length_cons, NTICKS]
        omega

/-- A running task that is preempted joins the end of the list. -/
theorem InLine.of_preempt (h : SchedInv s xs) (hr : xs .ready = as ++ t :: bs) :
    (taskSchedule s).taskActive = t ∨
      ∃ m, InLine t m (taskSchedule s) ∧ m + 1 ≤ NTICKS * as.length :=
  InLine.of_switch h.queues h.unlocked hr fun _ _ hu => ⟨_, (h.taskSchedule_cons hu).1⟩

/-- A task that blocks leaves the processor to the first ready one. -/
theorem InLine.of_block {r : TaskState} (h : SchedInv s xs) (hr : r ≠ .ready) (hr' : r ≠ .running)
    (hx : xs .ready = as ++ t :: bs) :
    (taskBlock r s).taskActive = t ∨ ∃ m, InLine t m (taskBlock r s) ∧ m + 1 ≤ NTICKS * as.length := by
  have hq := h.park hr'
  have h0 : (park r s).nlockpost = 0 := by simp [h.unlocked]
  have hx' : Function.update xs r (xs r ++ [s.taskActive]) .ready = as ++ t :: bs := by
    rw [Function.update_of_ne (Ne.symm hr), hx]
  refine InLine.of_switch hq h0 hx' fun u ts hu => ⟨[], ?_⟩
  rw [List.append_nil]
  refine taskSchedule_of_blocked_cons hq h0 (by simp [h.postponed]) ?_ hu
  simp [park_waits r hr hr']

/-- A task that is signalled by itself waits for the next tick. -/
theorem InLine.of_raise (h : SchedInv s xs) (hr : xs .ready = as ++ t :: bs) (sig : Nat) :
    (taskRaise sig s).taskActive = t ∨
      ∃ m, InLine t m (taskRaise sig s) ∧ m + 1 ≤ NTICKS * as.length := by
  have hf : InPlace fun k => { k with sig := sig, sigdone := false } :=
    fun _ => ⟨rfl, rfl, rfl, rfl⟩
  exact InLine.of_block (h.modTask hf _) (by decide) (by decide) hr

/-- A task that terminates waits for the clean-up. -/
theorem InLine.of_terminate (h : SchedInv s xs) (hr : xs .ready = as ++ t :: bs) :
    (taskTerminate s).taskActive = t ∨
      ∃ m, InLine t m (taskTerminate s) ∧ m + 1 ≤ NTICKS * as.length := by
  have hs := (sameSched_taskFree (taskSetRes s)).trans (sameSched_taskSetRes s)
  exact InLine.of_block (hs.inv xs h) (by decide) (by decide) hr

/-- Without a switch, the task is no further back. -/
theorem InLine.of_stay {xs' : TaskState → List TaskPtr} {as' bs' : List TaskPtr}
    (h : SchedInv s' xs') (hr : xs' .ready = as' ++ t :: bs') (hlen : as'.length ≤ as.length)
    (ha : s'.active.nticks = s.active.nticks) :
    ∃ m, InLine t m s' ∧ m ≤ NTICKS * as.length + (s.active.nticks - 1) := by
  refine ⟨_, ⟨xs', as', bs', h, hr, rfl⟩, ?_⟩
  rw [ha]
  have hmul := Nat.mul_le_mul_left NTICKS hlen
  omega

/-! ## one event -/

/-- The event is sound, and neither wakes nor signals the task. -/
def Spares (t : TaskPtr) (s : Kernel) (e : SchedEvent) : Prop := Sound s e ∧ e.target s ≠ some t

/-- The timer interrupt. -/
def SchedEvent.isIrq : SchedEvent → Bool
  | .irq => true
  | _ => false

/-- Moving another task does not put `t` further back. -/
theorem requeue_ready {l : TaskState} (h : SchedInv s xs) (hu : u ∈ xs (s.task u).state)
    (hl : l ≠ .running) (hne : u ≠ t) (hr : xs .ready = as ++ t :: bs) :
    ∃ xs' as' bs', SchedInv (requeue l u s) xs' ∧ xs' .ready = as' ++ t :: bs' ∧
      as'.length ≤ as.length := by
  obtain ⟨cs, ds, hsplit⟩ := Queues.split hu
  have hinv := h.requeue_of_split hsplit hl
  have hafter : ∃ as' bs', Function.update xs (s.task u).state (cs ++ ds) .ready = as' ++ t :: bs' ∧
      as'.length ≤ as.length := by
    by_cases hst : (s.task u).state = .ready
    · rw [hst, Function.update_self]
      rw [hst, hr] at hsplit
      obtain ⟨c, h1, h2⟩ | ⟨c, h1, h2⟩ := List.append_eq_append_iff.mp hsplit
      · cases c with
        | nil => exact absurd (List.cons.inj h2).1.symm hne
        | cons v c =>
            obtain ⟨rfl, rfl⟩ := List.cons.inj h2
            exact ⟨as, c ++ ds, by rw [h1]; simp, le_rfl⟩
      · cases c with
        | nil => exact absurd (List.cons.inj h2).1 hne
        | cons v c =>
            obtain ⟨rfl, rfl⟩ := List.cons.inj h2
            exact ⟨cs ++ c, bs, by simp, by rw [h1]; simp⟩
    · rw [Function.update_of_ne (Ne.symm hst)]
      exact ⟨as, bs, hr, le_rfl⟩
  obtain ⟨as', bs', hx, hlen⟩ := hafter
  by_cases hready : l = .ready
  · subst hready
    refine ⟨_, as', bs' ++ [u], hinv, ?_, hlen⟩
    rw [Function.update_self, hx, List.append_assoc, List.cons_append]
  · refine ⟨_, as', bs', hinv, ?_, hlen⟩
    rw [Function.update_of_ne (Ne.symm hready), hx]

/-- Waking another task with one ready already only moves it. -/
theorem taskUnblock_of_ready (hr : xs .ready = as ++ t :: bs) (h : SchedInv s xs) :
    taskUnblock u s = s ∨
      taskUnblock u s = requeue .ready u s ∧ u ≠ s.taskActive ∧ (s.task u).state ≠ .ready := by
  unfold taskUnblock
  split
  · exact .inl rfl
  · next hu =>
      push Not at hu
      have hsome : (s.lists .ready).first.isSome := by
        rw [(h.queues.lists.isList .ready).first_eq, hr]
        cases as <;> rfl
      rw [if_neg (by simpa using Option.isSome_iff_ne_none.mp hsome)]
      exact .inr ⟨rfl, hu⟩

/-- **A tick** takes one off what the task waits for. -/
theorem InLine.irq (h : SchedInv s xs) (hr : xs .ready = as ++ t :: bs) :
    (taskIrq s).taskActive = t ∨
      ∃ m, InLine t m (taskIrq s) ∧ m + 1 ≤ NTICKS * as.length + (s.active.nticks - 1) := by
  have hw : Woke s xs (u64 (s.timens + TICK_NS)) _ _ _ := Woke.loops h
  unfold taskIrq
  dsimp only
  have hnow : (taskLockpost s).timens = s.timens := rfl
  rw [hnow]
  generalize wakeAll .pwait wakePwait _ = s₄ at hw ⊢
  have hready : remaining xs (woken s xs (u64 (s.timens + TICK_NS))) .ready =
      as ++ t :: (bs ++ woken s xs (u64 (s.timens + TICK_NS))) := by
    rw [remaining_ready, hr, List.append_assoc, List.cons_append]
  have hnt := hw.active h fun _ => woken_listed
  by_cases h1 : 1 < s.active.nticks
  · -- the slice goes on
    rw [← hnt] at h1
    have hp : s₄.postponed = false := by
      rw [hw.postponed, hr]
      simp
    have hf : InPlace fun k => { k with nticks := k.nticks - 1 } := fun _ => ⟨rfl, rfl, rfl, rfl⟩
    have heq : taskUnlockpost (endSlice s₄) = unlocked (fun k => { k with nticks := k.nticks - 1 }) s₄ := by
      rw [endSlice_of_more h1, taskUnlockpost_eq (by simpa using hw.ticking.locked)]
      simp [hp, unlocked]
    have hactive : (unlocked (fun k => { k with nticks := k.nticks - 1 }) s₄).active.nticks =
        s.active.nticks - 1 := by
      rw [← hnt]
      simp [unlocked, active]
    rw [heq]
    refine .inr ⟨_, ⟨_, as, _, hw.unlocked hf, hready, rfl⟩, ?_⟩
    rw [hnt] at h1
    omega
  · -- the slice is over
    obtain ⟨f, hf, -, he⟩ := endSlice_unlock hw.ticking.locked
    rw [he, hnt, decide_eq_true (by omega), Bool.or_true, if_pos rfl]
    obtain hrun | ⟨m, hm, hlt⟩ := InLine.of_preempt (hw.unlocked hf) hready
    · exact .inl hrun
    · exact .inr ⟨m, hm, by omega⟩

/-- **Step**: the task runs, or what it waits for has not grown, and is one
tick less after a tick. -/
theorem InLine.step {e : SchedEvent} (h : InLine t n s) (hok : Spares t s e)
    (hs : e.next s = some s') :
    s'.taskActive = t ∨ ∃ m, InLine t m s' ∧ m + (if e.isIrq then 1 else 0) ≤ n := by
  obtain ⟨xs, as, bs, hinv, hr, rfl⟩ := h
  -- a switch takes a whole slice off
  have hswitch : ∀ {s₁ : Kernel}, s₁.taskActive = t ∨
      (∃ m, InLine t m s₁ ∧ m + 1 ≤ NTICKS * as.length) → s₁.taskActive = t ∨
      ∃ m, InLine t m s₁ ∧ m + 0 ≤ NTICKS * as.length + (s.active.nticks - 1) := by
    rintro s₁ (h | ⟨m, hm, hlt⟩)
    · exact .inl h
    · exact .inr ⟨m, hm, by omega⟩
  have hsame : ∀ {s₁ : Kernel}, SchedInv s₁ xs → s₁.active.nticks = s.active.nticks →
      s₁.taskActive = t ∨
      ∃ m, InLine t m s₁ ∧ m + 0 ≤ NTICKS * as.length + (s.active.nticks - 1) :=
    fun h hn => .inr (InLine.of_stay h hr le_rfl hn)
  cases e with
  | new ptr =>
      simp only [SchedEvent.next, Option.ite_none_left_eq_some, isLive_iff hinv, not_exists,
        Option.some.injEq] at hs
      obtain ⟨hnew, rfl⟩ := hs
      obtain ⟨ws, hinv'⟩ := hinv.taskNew_ready hnew
      have hne : s.taskActive ≠ ptr := fun he => hnew _ (he ▸ hinv.live_active)
      have hx : Function.update xs .ready (xs .ready ++ ws) .ready = as ++ t :: (bs ++ ws) := by
        rw [Function.update_self, hr, List.append_assoc, List.cons_append]
      refine .inr (InLine.of_stay hinv' hx le_rfl ?_)
      rw [active, taskNew_taskActive, (taskNew_task hne).nticks]
  | schedule =>
      obtain rfl := Option.some.inj hs
      exact hswitch (InLine.of_preempt hinv hr)
  | block r =>
      simp only [SchedEvent.next, Option.ite_none_right_eq_some, Option.some.injEq] at hs
      obtain ⟨hr', rfl⟩ := hs
      exact hswitch (InLine.of_block hinv (by rintro rfl; simp at hr') (by rintro rfl; simp at hr') hr)
  | unblock u =>
      simp only [SchedEvent.next, Option.ite_none_right_eq_some, isLive_iff hinv,
        Option.some.injEq] at hs
      obtain ⟨⟨i, hi⟩, rfl⟩ := hs
      obtain he | ⟨he, ha, -⟩ := taskUnblock_of_ready (u := u) hr hinv
      · rw [he]
        exact hsame hinv rfl
      · rw [he]
        have hne : u ≠ t := fun heq => hok.2 (congrArg some heq)
        obtain ⟨xs', as', bs', h', hx, hlen⟩ :=
          requeue_ready (l := .ready) hinv (hinv.queues.listed hi (by simpa using ha)) (by decide)
            hne hr
        refine .inr (InLine.of_stay h' hx hlen ?_)
        rw [active, requeue_taskActive, requeue_nticks]
  | irq =>
      obtain rfl := Option.some.inj hs
      exact InLine.irq hinv hr
  | irqSignal =>
      obtain rfl := Option.some.inj hs
      have hf : InPlace fun k => { k with sig := 0 } := fun _ => ⟨rfl, rfl, rfl, rfl⟩
      have hf' : InPlace fun k => { k with sigdone := true } := fun _ => ⟨rfl, rfl, rfl, rfl⟩
      have h1 := hinv.modTask hf s.taskActive
      unfold taskIrqSignal
      split
      · exact hsame hinv rfl
      · dsimp only
        split
        · exact hswitch (InLine.of_terminate h1 hr)
        · exact hsame (h1.modTask hf' _) (by simp [active, modTask])
  | kill pid sig =>
      simp only [SchedEvent.next, Option.ite_none_left_eq_some, Option.some.injEq] at hs
      obtain ⟨-, rfl⟩ := hs
      unfold sysKill
      cases hg : taskGet pid s with
      | none => exact hsame hinv rfl
      | some u =>
          have hi : s.taskmap pid.toNat = some u := by
            unfold taskGet at hg
            split at hg
            · contradiction
            · exact hg
          dsimp only
          unfold taskSignal
          split
          · exact hswitch (InLine.of_raise hinv hr sig)
          · next ha =>
              have hne : u ≠ t := by
                rintro rfl
                exact hok.2 hg
              obtain ⟨xs', as', bs', h', hx, hlen⟩ :=
                requeue_ready (l := .signaled) hinv (hinv.queues.listed hi (by simpa using ha))
                  (by decide) hne hr
              refine .inr (InLine.of_stay (h'.modTask (Task.signal_inPlace sig) u) hx hlen ?_)
              rw [active, modTask_taskActive, requeue_taskActive,
                modTask_task_of_ne _ _ _ _ (Ne.symm ha), requeue_nticks]
  | raise sig =>
      obtain rfl := Option.some.inj hs
      exact hswitch (InLine.of_raise hinv hr sig)
  | terminate =>
      obtain rfl := Option.some.inj hs
      exact hswitch (InLine.of_terminate hinv hr)
  | cleanup =>
      obtain rfl := Option.some.inj hs
      obtain ⟨ha, hsame'⟩ := cleanupLoop_same NTASKS s
      have hx : Function.update xs .terminated [] .ready = as ++ t :: bs := by
        rw [Function.update_of_ne (by decide), hr]
      refine .inr (InLine.of_stay hinv.taskCleanup.1 hx le_rfl ?_)
      rw [taskCleanup, active, ha, (hsame' _).nticks]
  | write k =>
      obtain rfl := Option.some.inj hs
      have hf : InPlace (Task.write k) := fun _ => ⟨rfl, rfl, rfl, rfl⟩
      exact hsame (hinv.modTask hf _) (by simp [active, Task.write])
  | files f =>
      obtain rfl := Option.some.inj hs
      exact hsame (hinv.modVfs f) rfl

/-! ## runs -/

theorem sliced_of_reachable (h : schedSystem.Reachable Sound s) : Sliced s := by
  refine h.invariant (I := Sliced) ?_ fun s e s' hs _ hstep => hs.step hstep
  rintro _ ⟨ktask, vfs, rfl⟩ u
  unfold taskInit
  dsimp only
  split
  · exact le_rfl
  · exact Nat.zero_le _

/-- **Every ready task gets its turn**: a task with the tasks `as` before it on the ready list has
run before `NTICKS * (as.length + 1)` ticks have gone by, whatever else happens meanwhile,
unless it is woken or signalled. -/
theorem runs_in_turn {es : List SchedEvent} (h : schedSystem.Reachable Sound s)
    (hl : IsList s.links (s.lists .ready) (as ++ t :: bs))
    (hp : schedSystem.Path (Spares t) s es s')
    (hn : NTICKS * (as.length + 1) ≤ es.countP SchedEvent.isIrq) :
    schedSystem.Meets (Spares t) (fun s => s.taskActive = t) s es := by
  obtain ⟨xs, hinv⟩ := schedInv_of_reachable h
  have hr : xs .ready = as ++ t :: bs := (hinv.queues.lists.isList .ready).unique hl
  have hslice := sliced_of_reachable h s.taskActive
  refine hp.meets (I := InLine t) (c := SchedEvent.isIrq) (fun n s e s' hq hok hs => InLine.step hq hok hs)
    ⟨xs, as, bs, hinv, hr, rfl⟩ ?_
  rw [NTICKS] at hslice hn ⊢
  rw [active]
  omega

/-- Task 2 waits behind task 1, while the first task runs and makes another. -/
theorem runs_in_turn_example :
    ∃ s, s.taskActive = 0 ∧ schedSystem.Meets (Spares 2) (fun s => s.taskActive = 2) s
      (.new 3 :: List.replicate 10 .irq) := by
  have h : (System.run (fun s (e : SchedEvent) => if e.sound s then e.next s else none)
      (taskInit 0 default) [.new 1, .new 2]).any (fun s => s.taskActive == 0 &&
        s.lists .ready == ⟨some 1, some 2⟩ && s.links 1 == (none, some 2) &&
        s.links 2 == (some 1, none) &&
        (System.run (fun s (e : SchedEvent) =>
          if e.sound s && e.target s != some 2 then e.next s else none) s
          (.new 3 :: List.replicate 10 .irq)).isSome) = true := by decide +kernel
  obtain ⟨s, hs, hp⟩ := (Option.any_eq_true _ _).mp h
  simp only [Bool.and_eq_true, beq_iff_eq, Option.isSome_iff_exists] at hp
  obtain ⟨⟨⟨⟨ha, hl⟩, h1⟩, h2⟩, s', hs'⟩ := hp
  have hlist : IsList s.links (s.lists .ready) ([1] ++ 2 :: []) := by
    rw [hl]
    exact ⟨rfl, rfl, ⟨h1, h2, trivial⟩, by decide⟩
  have hpath : schedSystem.Path (Spares 2) s (.new 3 :: List.replicate 10 .irq) s' :=
    System.path_of_run_if (fun s (e : SchedEvent) => e.sound s && e.target s != some 2)
      (fun s e h => by simpa [Spares, Sound] using h) hs'
  have hreach : schedSystem.Reachable Sound s :=
    reachable_taskInit.steps (System.steps_of_run_if SchedEvent.sound (fun _ _ h => h) hs)
  exact ⟨s, ha, runs_in_turn hreach hlist hpath (by decide)⟩

end Eclair
