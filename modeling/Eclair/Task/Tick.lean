import Eclair.Task.Inv

/-!
# Eclair.Task.Tick

The timer interrupt.  Its four loops each edit the list they follow; while
they run task switches are only postponed, so the interrupted task stays
the active one (`Ticking`).

`forEach_spec` shows that such a loop visits the tasks of its list in order,
each once, and `taskIrq_induct` is the rule for the whole interrupt: what
survives every single wake-up and every change the scheduler makes on its
own survives the interrupt.
-/

namespace Eclair

open Linked Kernel

/-- The invariant inside the interrupt: as between operations, but with the
task switches locked once. -/
structure Ticking (s : Kernel) (xs : TaskState → List TaskPtr) : Prop where
  queues : Queues [s.taskActive] s xs
  running : s.active.state = .running
  locked : s.nlockpost = 1

variable {s s' : Kernel} {xs : TaskState → List TaskPtr} {t u : TaskPtr} {l : TaskState}
variable {as bs : List TaskPtr}

/-! ## one wake-up -/

/-- A change of a control block that leaves links, state and id alone. -/
def InPlace (f : Task → Task) : Prop :=
  ∀ k, (f k).prev = k.prev ∧ (f k).next = k.next ∧ (f k).state = k.state ∧ (f k).id = k.id

theorem modTask_id (t : TaskPtr) (s : Kernel) : s.modTask t id = s := by simp [modTask]

theorem InPlace.state {f : Task → Task} (hf : InPlace f) (t u : TaskPtr) :
    ((s.modTask t f).task u).state = (s.task u).state := by
  rw [modTask_task]
  split
  · exact (hf _).2.2.1
  · rfl

theorem InPlace.waits {f : Task → Task} (hf : InPlace f) (t : TaskPtr) :
    (s.modTask t f).waits = s.waits :=
  funext fun u => waits_congr (hf.state t u)

/-- The queues do not depend on the other fields of a task. -/
theorem Queues.modTask {out : List TaskPtr} {f : Task → Task} (h : Queues out s xs)
    (hf : InPlace f) (t : TaskPtr) : Queues out (s.modTask t f) xs := by
  refine h.congr rfl rfl (fun u _ => ⟨?_, hf.state t u⟩) fun u => ?_
  · rw [links_modTask]
    split
    · rw [(hf _).1, (hf _).2.1]
      rfl
    · rfl
  · rw [modTask_task]
    split
    · exact (hf _).2.2.2
    · rfl

theorem Ticking.modTask {f : Task → Task} (h : Ticking s xs) (hf : InPlace f) (t : TaskPtr) :
    Ticking (s.modTask t f) xs :=
  ⟨h.queues.modTask hf t, (hf.state t _).trans h.running, h.locked⟩

theorem Ticking.modVfs (h : Ticking s xs) (f : Vfs → Vfs) : Ticking (s.modVfs f) xs :=
  ⟨h.queues.congr rfl rfl (fun _ _ => ⟨rfl, rfl⟩) fun _ => rfl, h.running, h.locked⟩

/-- A listed task is live, on the list of its state, and not the active
one. -/
theorem Ticking.mem (h : Ticking s xs) (ht : t ∈ xs l) :
    (s.task t).state = l ∧ s.taskmap (s.task t).id = some t ∧ t ≠ s.taskActive := by
  obtain ⟨h1, h2, h3⟩ := h.queues.mem l t ht
  exact ⟨h1, h2, by simpa using h3⟩

theorem requeue_ready_waits (t : TaskPtr) :
    (requeue .ready t s).waits = Function.update s.waits t none := by
  funext u
  by_cases hu : u = t
  · subst hu
    rw [Function.update_self]
    exact waits_of_ready ((requeue_state .ready u u).trans (if_pos rfl))
  · rw [Function.update_of_ne hu]
    exact waits_congr ((requeue_state .ready t u).trans (if_neg hu))

/-- While the task switches are locked, unblocking a task only moves it. -/
theorem taskUnblock_of_locked (ha : t ≠ s.taskActive) (hr : (s.task t).state ≠ .ready)
    (h0 : s.nlockpost ≠ 0) :
    ∃ p, taskUnblock t s = { requeue .ready t s with postponed := p } := by
  rw [taskUnblock, if_neg (by simp [ha, hr])]
  split
  · exact ⟨true, by rw [taskSchedule, if_pos (by simpa using h0)]⟩
  · exact ⟨_, rfl⟩

/-- A listed task moves to the end of the ready list. -/
theorem Ticking.requeue (h : Ticking s xs) (ht : xs l = as ++ t :: bs) (hl : l ≠ .ready)
    (p : Bool) :
    Ticking { Eclair.requeue .ready t s with postponed := p }
      (Function.update (Function.update xs l (as ++ bs)) .ready (xs .ready ++ [t])) := by
  obtain ⟨rfl, -, ha⟩ := h.mem (l := l) (t := t) (by simp [ht])
  have hq := h.queues.requeue (l := .ready) ht (by decide)
  dsimp only at hq
  rw [← requeue_taskActive .ready t, Function.update_of_ne (Ne.symm hl)] at hq
  refine ⟨hq.congr rfl rfl (fun _ _ => ⟨rfl, rfl⟩) fun _ => rfl, ?_, by simp [h.locked]⟩
  change ((Eclair.requeue .ready t s).task (Eclair.requeue .ready t s).taskActive).state = _
  rw [requeue_taskActive, requeue_state, if_neg (Ne.symm ha)]
  exact h.running

/-- **Waking a listed task** takes it from its list and ends its wait. -/
theorem Ticking.taskUnblock (h : Ticking s xs) (ht : xs l = as ++ t :: bs) (hl : l ≠ .ready) :
    (∃ xs', Ticking (taskUnblock t s) xs' ∧ xs' l = as ++ bs) ∧
      (Eclair.taskUnblock t s).waits = Function.update s.waits t none := by
  obtain ⟨hst, -, ha⟩ := h.mem (l := l) (t := t) (by simp [ht])
  obtain ⟨p, hp⟩ := taskUnblock_of_locked ha (hst ▸ hl) (by simp [h.locked])
  rw [hp]
  refine ⟨⟨_, h.requeue ht hl p, ?_⟩, requeue_ready_waits t⟩
  rw [Function.update_of_ne hl, Function.update_self]

/-! ## the loops -/

/-- **A loop over a list that its body edits** visits the tasks of the list
in order, each once, if the body leaves the tasks after its own in place. -/
theorem forEach_spec {body : TaskPtr → Kernel → Kernel} {J : Kernel → Prop}
    (hbody : ∀ s xs as cur bs, Ticking s xs → J s → xs l = as ++ cur :: bs →
      J (body cur s) ∧ ∃ xs' as', Ticking (body cur s) xs' ∧ xs' l = as' ++ bs)
    {n : Nat} (hn : bs.length ≤ n) (h : Ticking s xs) (hJ : J s) (hl : xs l = as ++ bs) :
    forEach body n bs.head? s = bs.foldl (fun s cur => body cur s) s ∧
      J (forEach body n bs.head? s) ∧ ∃ xs', Ticking (forEach body n bs.head? s) xs' := by
  induction bs generalizing n s xs as with
  | nil => cases n <;> exact ⟨rfl, hJ, xs, h⟩
  | cons cur bs ih =>
      obtain ⟨n, rfl⟩ : ∃ m, n = m + 1 := ⟨n - 1, by simp at hn; omega⟩
      have hnext : (s.task cur).next = bs.head? := by
        have hil := h.queues.lists.isList l
        rw [hl] at hil
        exact hil.next_eq
      obtain ⟨hJ', xs', as', h', hl'⟩ := hbody s xs as cur bs h hJ hl
      simp only [List.head?_cons, forEach, hnext, List.foldl_cons]
      exact ih (by simpa using hn) h' hJ' hl'

/-- One of the loops of the interrupt. -/
theorem Ticking.wakeAll {body : TaskPtr → Kernel → Kernel} {J : Kernel → Prop}
    (hbody : ∀ s xs as cur bs, Ticking s xs → J s → xs l = as ++ cur :: bs →
      J (body cur s) ∧ ∃ xs' as', Ticking (body cur s) xs' ∧ xs' l = as' ++ bs)
    (h : Ticking s xs) (hJ : J s) :
    wakeAll l body s = (xs l).foldl (fun s cur => body cur s) s ∧
      J (Eclair.wakeAll l body s) ∧ ∃ xs', Ticking (Eclair.wakeAll l body s) xs' := by
  rw [Eclair.wakeAll, (h.queues.lists.isList l).first_eq]
  exact forEach_spec hbody (h.queues.length_le l) h hJ (List.nil_append _).symm

/-- The fields that the interrupt sets in a task that it wakes: the wake
time, and the wait status of a task that waits on another one. -/
structure Waking (st : TaskState) (t : TaskPtr) (f : Task → Task) (s : Kernel) : Prop where
  rest : ∀ k, SameRest (f k) k
  status : (f (s.task t)).wstatus = (s.task t).wstatus ∨ st = .pwait ∧
    ((f (s.task t)).wstatus = ECW_TIMEOUT ∨
      exitStatus (s.task t).pwait s = some (f (s.task t)).wstatus)

/-- What survives every move of the scheduler and every wake-up of the
interrupt, with the wait status that it sets. -/
structure WakeRule (J : Kernel → Prop) : Prop where
  /-- no wait changes -/
  keep : ∀ s s', J s → Moved s' s → s'.waits = s.waits → J s'
  /-- a task that does not wait for a node is woken -/
  wake : ∀ s s' t st f, J s → s.taskmap (s.task t).id = some t → s.waits t = some st →
    st ≠ .paused → st ≠ .terminated → Waking st t f s → Moved s' (s.modTask t f) →
    s'.waits = Function.update s.waits t none → J s'
  /-- a task that waits for a node is granted it -/
  grant : ∀ s s' t n, J s → s.taskmap (s.task t).id = some t → s.waits t = some .paused →
    (s.task t).res = some n → fsIsheld n s.vfs = false → Moved s' (s.modVfs (grant t n)) →
    s'.waits = Function.update s.waits t none → J s'

/-- What survives every change that the scheduler makes on its own and
every wake-up of the interrupt. -/
structure TickRule (J : Kernel → Prop) : Prop where
  /-- no wait changes -/
  keep : ∀ s s', J s → Keeps s' s → s'.waits = s.waits → J s'
  /-- a task that does not wait for a node is woken -/
  wake : ∀ s s' t st, J s → s.taskmap (s.task t).id = some t → s.waits t = some st →
    st ≠ .paused → st ≠ .terminated → Keeps s' s →
    s'.waits = Function.update s.waits t none → J s'
  /-- a task that waits for a node is granted it -/
  grant : ∀ s s' t n, J s → s.taskmap (s.task t).id = some t → s.waits t = some .paused →
    (s.task t).res = some n → fsIsheld n s.vfs = false → Keeps s' (s.modVfs (grant t n)) →
    s'.waits = Function.update s.waits t none → J s'

/-- Without the wait status. -/
theorem TickRule.wakeRule {J : Kernel → Prop} (R : TickRule J) : WakeRule J where
  keep s s' hJ hm hw := R.keep s s' hJ hm.keeps hw
  wake s s' t st _ hJ hi hst hp ht hf hm hw :=
    R.wake s s' t st hJ hi hst hp ht (hm.keeps.trans (Keeps.modTask s t hf.rest)) hw
  grant s s' t n hJ hi hst hr hn hm hw := R.grant s s' t n hJ hi hst hr hn hm.keeps hw

namespace WakeRule

variable {J : Kernel → Prop} (R : WakeRule J)
include R

/-- A wake-up of a task that waits for no node, after a change of its other
fields that the scheduler may make. -/
theorem unblock {f : Task → Task} (hf : InPlace f) (hr : Waking l t f s)
    (h : Ticking s xs) (hJ : J s) (ht : xs l = as ++ t :: bs) (hl : l ≠ .ready)
    (hl' : l ≠ .paused) (hl'' : l ≠ .terminated) :
    J (taskUnblock t (s.modTask t f)) ∧
      ∃ xs' as', Ticking (taskUnblock t (s.modTask t f)) xs' ∧ xs' l = as' ++ bs := by
  obtain ⟨⟨xs', h', hx⟩, hw⟩ := (h.modTask hf t).taskUnblock ht hl
  obtain ⟨hst, hlive, -⟩ := h.mem (l := l) (t := t) (by simp [ht])
  have hl3 : l ≠ .running := fun he => by
    have hrun := h.queues.running
    rw [← he, ht] at hrun
    simp at hrun
  refine ⟨R.wake s _ t l f hJ hlive (waits_of_blocked hst hl hl3) hl' hl'' hr
    (Moved.taskUnblock _ _) ?_, xs', as, h', hx⟩
  rw [hw, hf.waits]

theorem wakeSleeper (h : Ticking s xs) (hJ : J s) (ht : xs .sleeping = as ++ t :: bs) :
    J (wakeSleeper t s) ∧
      ∃ xs' as', Ticking (wakeSleeper t s) xs' ∧ xs' .sleeping = as' ++ bs := by
  unfold Eclair.wakeSleeper
  split
  · exact R.unblock (fun _ => ⟨rfl, rfl, rfl, rfl⟩)
      ⟨fun _ => ⟨_, _, _, _, _, _, rfl⟩, .inl rfl⟩ h hJ ht (by decide) (by decide) (by decide)
  · exact ⟨hJ, xs, as ++ [t], h, by simp [ht]⟩

theorem wakePaused (h : Ticking s xs) (hJ : J s) (ht : xs .paused = as ++ t :: bs) :
    J (wakePaused t s) ∧
      ∃ xs' as', Ticking (wakePaused t s) xs' ∧ xs' .paused = as' ++ bs := by
  obtain ⟨hst, hlive, -⟩ := h.mem (l := .paused) (t := t) (by simp [ht])
  unfold Eclair.wakePaused
  cases hres : (s.task t).res with
  | none => exact ⟨hJ, xs, as ++ [t], h, by simp [ht]⟩
  | some n =>
      dsimp only
      split
      · exact ⟨hJ, xs, as ++ [t], h, by simp [ht]⟩
      · next hn =>
          obtain ⟨⟨xs', h', hx⟩, hw⟩ := (h.modVfs (Eclair.grant t n)).taskUnblock ht (by decide)
          exact ⟨R.grant s _ t n hJ hlive (waits_of_blocked hst (by decide) (by decide)) hres
            (by simpa using hn) (Moved.taskUnblock _ _) hw, xs', as, h', hx⟩

theorem wakeSignaled (h : Ticking s xs) (hJ : J s) (ht : xs .signaled = as ++ t :: bs) :
    J (taskUnblock t s) ∧
      ∃ xs' as', Ticking (taskUnblock t s) xs' ∧ xs' .signaled = as' ++ bs := by
  have hu := R.unblock (f := id) (fun _ => ⟨rfl, rfl, rfl, rfl⟩)
    ⟨fun k => SameRest.refl k, .inl rfl⟩ h hJ ht (by decide) (by decide) (by decide)
  rwa [modTask_id] at hu

theorem wakePwait (h : Ticking s xs) (hJ : J s) (ht : xs .pwait = as ++ t :: bs) :
    J (wakePwait t s) ∧ ∃ xs' as', Ticking (wakePwait t s) xs' ∧ xs' .pwait = as' ++ bs := by
  have hwake : ∀ f : Task → Task, InPlace f → Waking .pwait t f s →
      J (taskUnblock t (s.modTask t f)) ∧
        ∃ xs' as', Ticking (taskUnblock t (s.modTask t f)) xs' ∧ xs' .pwait = as' ++ bs :=
    fun f hf hr => R.unblock hf hr h hJ ht (by decide) (by decide) (by decide)
  unfold Eclair.wakePwait
  split
  · refine hwake _ (fun _ => ⟨rfl, rfl, rfl, rfl⟩) ⟨fun _ => ⟨_, _, _, _, _, _, rfl⟩, ?_⟩
    exact .inr ⟨rfl, .inl rfl⟩
  · cases he : exitStatus (s.task t).pwait s with
    | none => exact ⟨hJ, xs, as ++ [t], h, by simp [ht]⟩
    | some st =>
        refine hwake _ (fun _ => ⟨rfl, rfl, rfl, rfl⟩) ⟨fun _ => ⟨_, _, _, _, _, _, rfl⟩, ?_⟩
        exact .inr ⟨rfl, .inr he⟩

/-- The interrupt locks the task switches and advances the clock. -/
theorem enter (h : SchedInv s xs) (hJ : J s) (now : Nat) :
    J { taskLockpost s with timens := now } ∧ Ticking { taskLockpost s with timens := now } xs :=
  ⟨R.keep s _ hJ ⟨fun _ => SameFields.refl _, rfl, rfl, rfl⟩ rfl,
    h.queues.congr rfl rfl (fun _ _ => ⟨rfl, rfl⟩) fun _ => rfl, h.running,
    by simp [taskLockpost, h.unlocked]⟩

theorem endSlice (h : Ticking s xs) (hJ : J s) :
    J (endSlice s) ∧ ∃ xs', Ticking (endSlice s) xs' := by
  have hf : InPlace fun k => { k with nticks := k.nticks - 1 } := fun _ => ⟨rfl, rfl, rfl, rfl⟩
  have hs : ∀ s, Ticking s xs → J s →
      J (if s.active.nticks = 0 then taskSchedule s else s) ∧
        ∃ xs', Ticking (if s.active.nticks = 0 then taskSchedule s else s) xs' := by
    intro s h hJ
    split
    · have he : taskSchedule s = { s with postponed := true } := by
        rw [taskSchedule, if_pos (by simp [h.locked])]
      rw [he]
      exact ⟨R.keep s _ hJ ⟨fun _ => SameFields.refl _, rfl, rfl, rfl⟩ rfl, xs,
        h.queues.congr rfl rfl (fun _ _ => ⟨rfl, rfl⟩) fun _ => rfl, h.running, h.locked⟩
    · exact ⟨hJ, xs, h⟩
  rw [Eclair.endSlice]
  generalize he : (if s.active.nticks = 0 then s else _) = s₁
  suffices h1 : Ticking s₁ xs ∧ J s₁ from hs s₁ h1.1 h1.2
  subst he
  split
  · exact ⟨h, hJ⟩
  · exact ⟨h.modTask hf _,
      R.keep s _ hJ (Moved.modTask _ _ fun _ => ⟨_, _, _, _, rfl⟩) (hf.waits _)⟩

theorem taskUnlockpost (h : Ticking s xs) (hJ : J s) :
    J (taskUnlockpost s) ∧ ∃ xs', SchedInv (taskUnlockpost s) xs' := by
  have hq : ∀ p n, Queues [s.taskActive] { s with nlockpost := n, postponed := p } xs :=
    fun p n => h.queues.congr rfl rfl (fun _ _ => ⟨rfl, rfl⟩) fun _ => rfl
  have hk : ∀ p n, J { s with nlockpost := n, postponed := p } := fun p n =>
    R.keep s _ hJ ⟨fun _ => SameFields.refl _, rfl, rfl, rfl⟩ rfl
  unfold Eclair.taskUnlockpost
  simp only [h.locked, Nat.sub_self, true_and]
  split
  · have hinv : SchedInv { s with nlockpost := 0, postponed := false } xs :=
      ⟨hq false 0, h.running, rfl, rfl⟩
    exact ⟨R.keep _ _ (hk false 0) (Moved.taskSchedule _) (taskSchedule_waits hinv.queues rfl),
      hinv.taskSchedule⟩
  · next hp =>
      exact ⟨hk s.postponed 0, xs, hq s.postponed 0, h.running, rfl, by simpa using hp⟩

/-- **The timer interrupt** keeps the scheduler invariant and whatever
survives its single steps. -/
theorem taskIrq (h : SchedInv s xs) (hJ : J s) :
    J (taskIrq s) ∧ ∃ xs', SchedInv (taskIrq s) xs' := by
  unfold Eclair.taskIrq
  dsimp only
  obtain ⟨hJ0, h0⟩ := R.enter h hJ (u64 ((taskLockpost s).timens + TICK_NS))
  obtain ⟨-, hJ1, xs1, h1⟩ := Ticking.wakeAll (fun _ _ _ _ _ => R.wakeSleeper) h0 hJ0
  obtain ⟨-, hJ2, xs2, h2⟩ := Ticking.wakeAll (fun _ _ _ _ _ => R.wakePaused) h1 hJ1
  obtain ⟨-, hJ3, xs3, h3⟩ := Ticking.wakeAll (fun _ _ _ _ _ => R.wakeSignaled) h2 hJ2
  obtain ⟨-, hJ4, xs4, h4⟩ := Ticking.wakeAll (fun _ _ _ _ _ => R.wakePwait) h3 hJ3
  obtain ⟨hJ5, xs5, h5⟩ := R.endSlice h4 hJ4
  exact R.taskUnlockpost h5 hJ5

end WakeRule

/-- The rule that asks for nothing. -/
theorem wakeRule_true : WakeRule fun _ => True :=
  ⟨fun _ _ _ _ _ => trivial, fun _ _ _ _ _ _ _ _ _ _ _ _ _ => trivial,
    fun _ _ _ _ _ _ _ _ _ _ _ => trivial⟩

/-- The timer interrupt keeps the scheduler invariant. -/
theorem SchedInv.taskIrq (h : SchedInv s xs) : ∃ xs', SchedInv (taskIrq s) xs' :=
  (wakeRule_true.taskIrq h trivial).2

end Eclair
