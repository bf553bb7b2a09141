import Eclair.Task.Tick

/-!
# Eclair.Task.Moves

What the operations of the scheduler other than the timer interrupt do to
the invariant, to what each task waits in and to the other fields: waking
and signalling another task, raising a signal, terminating, creating a task
and cleaning up.
-/

namespace Eclair

open Linked Kernel

variable {s s' : Kernel} {xs : TaskState → List TaskPtr} {t u : TaskPtr} {i : Nat}

theorem SchedInv.live_active (h : SchedInv s xs) : s.taskmap s.active.id = some s.taskActive :=
  h.queues.out _ (by simp)

theorem SchedInv.modTask {f : Task → Task} (h : SchedInv s xs) (hf : InPlace f) (t : TaskPtr) :
    SchedInv (s.modTask t f) xs :=
  ⟨h.queues.modTask hf t, (hf.state t _).trans h.running, h.unlocked, h.postponed⟩

/-- The scheduler does not look at anything but links, lists, states, ids
and the task map. -/
theorem SchedInv.congr (h : SchedInv s xs) (ht : s'.task = s.task) (hl : s'.lists = s.lists)
    (hm : s'.taskmap = s.taskmap) (ha : s'.taskActive = s.taskActive)
    (h0 : s'.nlockpost = s.nlockpost) (hp : s'.postponed = s.postponed) : SchedInv s' xs where
  queues := by
    rw [ha]
    exact h.queues.congr hl hm (fun u _ => by simp [Kernel.links, ht]) fun u => by rw [ht]
  running := by
    rw [active, ha, ht]
    exact h.running
  unlocked := h0.trans h.unlocked
  postponed := hp.trans h.postponed

theorem SchedInv.modVfs (h : SchedInv s xs) (f : Vfs → Vfs) : SchedInv (s.modVfs f) xs :=
  h.congr rfl rfl rfl rfl rfl rfl

theorem SchedInv.ready_first (h : SchedInv s xs) :
    (s.lists .ready).first ≠ none ↔ xs .ready ≠ [] := by
  rw [(h.queues.lists.isList .ready).first_eq]
  simp

/-! ## waking and signalling another task -/

/-- A listed task that is not the active one moves to the end of another list. -/
theorem SchedInv.requeue_of_split {as bs : List TaskPtr} (h : SchedInv s xs)
    (ht : xs (s.task t).state = as ++ t :: bs) {l : TaskState} (hl : l ≠ .running) :
    let ys := Function.update xs (s.task t).state (as ++ bs)
    SchedInv (requeue l t s) (Function.update ys l (ys l ++ [t])) := by
  have ha : t ≠ s.taskActive := by
    simpa using (h.queues.mem _ t (by rw [ht]; simp)).2.2
  have hq := h.queues.requeue ht hl
  rw [← requeue_taskActive l t] at hq
  refine ⟨hq, ?_, by simp [h.unlocked], by simp [h.postponed]⟩
  rw [active, requeue_taskActive, requeue_state, if_neg (Ne.symm ha)]
  exact h.running

theorem SchedInv.requeue (h : SchedInv s xs) (hi : s.taskmap i = some t)
    (ha : t ≠ s.taskActive) {l : TaskState} (hl : l ≠ .running) :
    ∃ xs', SchedInv (requeue l t s) xs' ∧ (l = .ready → xs' .ready ≠ []) := by
  obtain ⟨as, bs, ht⟩ := Queues.split (h.queues.listed hi (by simpa using ha))
  refine ⟨_, h.requeue_of_split ht hl, ?_⟩
  rintro rfl
  simp

theorem requeue_waits {l : TaskState} (hl : l ≠ .ready) (hl' : l ≠ .running) (t : TaskPtr) :
    (requeue l t s).waits = Function.update s.waits t (some l) := by
  funext u
  by_cases hu : u = t
  · subst hu
    rw [Function.update_self]
    exact waits_of_blocked ((requeue_state l u u).trans (if_pos rfl)) hl hl'
  · rw [Function.update_of_ne hu]
    exact waits_congr ((requeue_state l t u).trans (if_neg hu))

/-- **Unblocking** a live task ends its wait. -/
theorem SchedInv.taskUnblock (h : SchedInv s xs) (hi : s.taskmap i = some t) :
    (∃ xs', SchedInv (taskUnblock t s) xs') ∧
      (Eclair.taskUnblock t s).waits = Function.update s.waits t none := by
  unfold Eclair.taskUnblock
  split
  · next ha =>
      have hw : s.waits t = none := by
        rcases ha with rfl | ha
        · exact h.waits_active
        · exact waits_of_ready ha
      exact ⟨⟨xs, h⟩, by rw [← hw, Function.update_eq_self]⟩
  · next ha =>
      push Not at ha
      obtain ⟨xs', h', -⟩ := h.requeue hi ha.1 (l := .ready) (by decide)
      split
      · exact ⟨h'.taskSchedule, (taskSchedule_waits h'.queues h'.unlocked).trans
          (requeue_ready_waits t)⟩
      · exact ⟨⟨xs', h'⟩, requeue_ready_waits t⟩

/-- The fields that a signal sets. -/
def Task.signal (sig : Nat) (k : Task) : Task :=
  { k with stale := true, sigdone := false, sig := sig }

theorem Task.signal_inPlace (sig : Nat) : InPlace (Task.signal sig) :=
  fun _ => ⟨rfl, rfl, rfl, rfl⟩

/-- **Signalling** another live task makes it wait for the next tick. -/
theorem SchedInv.taskSignal (h : SchedInv s xs) (hi : s.taskmap i = some t)
    (ha : t ≠ s.taskActive) (sig : Nat) :
    (∃ xs', SchedInv (taskSignal t sig s) xs') ∧
      (Eclair.taskSignal t sig s).waits = Function.update s.waits t (some .signaled) := by
  obtain ⟨xs', h', -⟩ := h.requeue hi ha (l := .signaled) (by decide)
  rw [Eclair.taskSignal, if_neg ha]
  exact ⟨⟨xs', h'.modTask (Task.signal_inPlace sig) t⟩,
    ((Task.signal_inPlace sig).waits t).trans (requeue_waits (by decide) (by decide) t)⟩

/-- **Raising** a signal blocks the active task until the next tick. -/
theorem SchedInv.taskRaise (h : SchedInv s xs) (hr : xs .ready ≠ []) (sig : Nat) :
    (∃ xs', SchedInv (taskRaise sig s) xs') ∧
      (Eclair.taskRaise sig s).waits =
        Function.update s.waits s.taskActive (some .signaled) := by
  have hf : InPlace fun k => { k with sig := sig, sigdone := false } :=
    fun _ => ⟨rfl, rfl, rfl, rfl⟩
  obtain ⟨hinv, hw⟩ := (h.modTask hf s.taskActive).taskBlock (r := .signaled) (by decide)
    (by decide) hr
  exact ⟨hinv, by rw [Eclair.taskRaise, hw, hf.waits]; rfl⟩

/-! ## termination -/

/-- Closing files changes files only, in the file table and in the file
systems. -/
structure SameSched (s' s : Kernel) : Prop where
  inv : ∀ xs, SchedInv s xs → SchedInv s' xs
  waits : s'.waits = s.waits
  taskActive : s'.taskActive = s.taskActive
  taskmap : s'.taskmap = s.taskmap

theorem SameSched.trans {s'' : Kernel} (h : SameSched s'' s') (h' : SameSched s' s) :
    SameSched s'' s :=
  ⟨fun xs hx => h.inv xs (h'.inv xs hx), h.waits.trans h'.waits,
    h.taskActive.trans h'.taskActive, h.taskmap.trans h'.taskmap⟩

theorem SameSched.refl (s : Kernel) : SameSched s s := ⟨fun _ h => h, rfl, rfl, rfl⟩

theorem sameSched_modTask {f : Task → Task} (hf : InPlace f) (t : TaskPtr) :
    SameSched (s.modTask t f) s :=
  ⟨fun _ h => h.modTask hf t, hf.waits t, rfl, rfl⟩

theorem sameSched_modVfs (f : Vfs → Vfs) : SameSched (s.modVfs f) s :=
  ⟨fun _ h => h.modVfs f, rfl, rfl, rfl⟩

theorem sameSched_taskFsCloseLocked (fd : Nat) (s : Kernel) :
    SameSched (taskFsCloseLocked fd s) s := by
  unfold taskFsCloseLocked
  split
  · exact .refl s
  · refine (sameSched_modTask ?_ _).trans ((sameSched_modVfs _).trans (sameSched_modTask ?_ _))
    · exact fun _ => ⟨rfl, rfl, rfl, rfl⟩
    · exact fun _ => ⟨rfl, rfl, rfl, rfl⟩

theorem sameSched_taskFree (s : Kernel) : SameSched (taskFree s) s := by
  unfold taskFree
  generalize List.range TASK_MAXFILES = fds
  induction fds generalizing s with
  | nil => exact .refl s
  | cons fd fds ih => exact (ih _).trans (sameSched_taskFsCloseLocked fd s)

theorem sameSched_taskSetRes (s : Kernel) : SameSched (taskSetRes s) s :=
  ⟨fun _ h => h.congr rfl rfl rfl rfl rfl rfl, rfl, rfl, rfl⟩

/-- **Terminating** makes the active task wait for the clean-up. -/
theorem SchedInv.taskTerminate (h : SchedInv s xs) (hr : xs .ready ≠ []) :
    (∃ xs', SchedInv (taskTerminate s) xs') ∧
      (Eclair.taskTerminate s).waits =
        Function.update s.waits s.taskActive (some .terminated) := by
  have hs := (sameSched_taskFree (taskSetRes s)).trans (sameSched_taskSetRes s)
  obtain ⟨hinv, hw⟩ := (hs.inv xs h).taskBlock (r := .terminated) (by decide) (by decide) hr
  exact ⟨hinv, by rw [Eclair.taskTerminate, hw, hs.waits, hs.taskActive]⟩

theorem taskSignal_taskmap (t : TaskPtr) (sig : Nat) (s : Kernel) :
    (taskSignal t sig s).taskmap = s.taskmap := by
  unfold taskSignal
  split
  · exact (Moved.taskBlock _ _).taskmap
  · exact (Moved.requeue _ _ _).taskmap

theorem taskTerminate_taskmap (s : Kernel) : (taskTerminate s).taskmap = s.taskmap :=
  (Moved.taskBlock _ _).taskmap.trans (sameSched_taskFree _).taskmap

/-- **Delivering** a signal that has no handler terminates the task. -/
theorem SchedInv.taskIrqSignal (h : SchedInv s xs)
    (hr : s.active.sig ≠ 0 → s.active.sigh s.active.sig = 0 → xs .ready ≠ []) :
    (∃ xs', SchedInv (taskIrqSignal s) xs') ∧ (Eclair.taskIrqSignal s).taskmap = s.taskmap ∧
      ((Eclair.taskIrqSignal s).waits = s.waits ∨
        (Eclair.taskIrqSignal s).waits =
          Function.update s.waits s.taskActive (some .terminated)) := by
  have hf : InPlace fun k => { k with sig := 0 } := fun _ => ⟨rfl, rfl, rfl, rfl⟩
  have hf' : InPlace fun k => { k with sigdone := true } := fun _ => ⟨rfl, rfl, rfl, rfl⟩
  have h1 := h.modTask hf s.taskActive
  unfold Eclair.taskIrqSignal
  split
  · exact ⟨⟨xs, h⟩, rfl, .inl rfl⟩
  · next hsig =>
      dsimp only
      split
      · next hh =>
          have hh' : s.active.sigh s.active.sig = 0 := by simpa [active] using hh
          obtain ⟨hinv, hw⟩ := h1.taskTerminate (hr hsig hh')
          exact ⟨hinv, taskTerminate_taskmap _, .inr (by rw [hw, hf.waits]; rfl)⟩
      · exact ⟨⟨xs, h1.modTask hf' _⟩, rfl, .inl (by rw [hf'.waits, hf.waits])⟩

/-! ## clean-up -/

/-- A task in flight leaves the task map. -/
theorem Queues.forget {out : List TaskPtr} (h : Queues (t :: out) s xs) (ho : t ∉ out) :
    Queues out (s.setSlot (s.task t).id none) xs := by
  have hid : ∀ i v, s.taskmap i = some v → v ≠ t → i ≠ (s.task t).id := by
    rintro i v hi hv rfl
    rw [h.out t (by simp)] at hi
    exact hv (Option.some.inj hi).symm
  have hkeep : ∀ i v, s.taskmap i = some v → v ≠ t →
      (s.setSlot (s.task t).id none).taskmap i = some v := by
    intro i v hi hv
    rw [setSlot_taskmap, Function.update_of_ne (hid i v hi hv), hi]
  refine ⟨h.lists.congr rfl fun _ => rfl, fun l v hv => ?_, h.running, fun i v hi => ?_,
    fun v hv => ?_⟩
  · obtain ⟨h1, h2, h3⟩ := h.mem l v hv
    exact ⟨h1, hkeep _ v h2 fun he => h3 (by simp [he]), fun hvo => h3 (by simp [hvo])⟩
  · have hne : i ≠ (s.task t).id := by
      rintro rfl
      simp at hi
    rw [setSlot_taskmap, Function.update_of_ne hne] at hi
    obtain ⟨h1, h2, h3⟩ := h.map i v hi
    have hvt : v ≠ t := by
      rintro rfl
      exact hne h2.symm
    exact ⟨h1, h2, h3.imp_left (List.mem_of_ne_of_mem hvt)⟩
  · exact hkeep _ v (h.out v (by simp [hv])) fun he => ho (he ▸ hv)

/-- One round of `task_cleanup`. -/
def cleanupOne (t : TaskPtr) (s : Kernel) : Kernel :=
  (taskRemoveFromList .terminated t s).setSlot (s.task t).id none

theorem cleanupLoop_succ (n : Nat) (h : (s.lists .terminated).first = some t) :
    cleanupLoop (n + 1) s = cleanupLoop n (cleanupOne t s) := by
  simp only [cleanupLoop, h, cleanupOne, taskRemoveFromList_id]

@[simp] theorem cleanupOne_taskActive (t : TaskPtr) :
    (cleanupOne t s).taskActive = s.taskActive := by simp [cleanupOne]

theorem cleanupOne_waits (t : TaskPtr) : (cleanupOne t s).waits = s.waits :=
  funext fun _ => waits_congr (taskRemoveFromList_state _ _ _ _)

theorem SchedInv.cleanupOne {ts : List TaskPtr} (h : SchedInv s xs)
    (ht : xs .terminated = t :: ts) :
    SchedInv (cleanupOne t s) (Function.update xs .terminated ts) where
  queues := by
    have hm := h.queues.mem .terminated t (by simp [ht])
    have hq := (h.queues.dequeue (show xs .terminated = [] ++ t :: ts from ht)).forget hm.2.2
    rw [taskRemoveFromList_id] at hq
    rw [cleanupOne_taskActive]
    exact hq
  running := by
    rw [active, cleanupOne_taskActive]
    exact (taskRemoveFromList_state _ _ _ _).trans h.running
  unlocked := by simp [Eclair.cleanupOne, h.unlocked]
  postponed := by simp [Eclair.cleanupOne, h.postponed]

/-- **Cleaning up** empties the list of terminated tasks and takes these out
of the task map; nobody's wait changes. -/
theorem SchedInv.cleanupLoop {n : Nat} (h : SchedInv s xs) (hn : (xs .terminated).length ≤ n) :
    SchedInv (cleanupLoop n s) (Function.update xs .terminated []) ∧
      (Eclair.cleanupLoop n s).waits = s.waits := by
  induction n generalizing s xs with
  | zero =>
      have hnil : xs .terminated = [] := List.eq_nil_of_length_eq_zero (by omega)
      rw [← hnil, Function.update_eq_self]
      exact ⟨h, rfl⟩
  | succ n ih =>
      cases ht : xs .terminated with
      | nil =>
          have hfirst : (s.lists .terminated).first = none := by
            rw [(h.queues.lists.isList _).first_eq, ht]
            rfl
          have heq : Eclair.cleanupLoop (n + 1) s = s := by simp only [Eclair.cleanupLoop, hfirst]
          rw [heq, ← ht, Function.update_eq_self]
          exact ⟨h, rfl⟩
      | cons t ts =>
          have hfirst : (s.lists .terminated).first = some t := by
            rw [(h.queues.lists.isList _).first_eq, ht]
            rfl
          obtain ⟨h1, h2⟩ := ih (h.cleanupOne ht) (by simpa [ht] using hn)
          rw [cleanupLoop_succ n hfirst, h2, cleanupOne_waits]
          rw [Function.update_idem] at h1
          exact ⟨h1, rfl⟩

theorem SchedInv.taskCleanup (h : SchedInv s xs) :
    SchedInv (taskCleanup s) (Function.update xs .terminated []) ∧
      (Eclair.taskCleanup s).waits = s.waits :=
  h.cleanupLoop (h.queues.length_le _)

/-! ## creation -/

theorem freeSlot_spec {id : Nat} (h : freeSlot s = some id) :
    id < NTASKS ∧ s.taskmap id = none := by
  have hm := List.mem_of_find?_eq_some h
  have hp := List.find?_some h
  exact ⟨by simpa using hm, by simpa using hp⟩

/-- Adding to a list and filling a slot of the task map commute. -/
theorem taskAddToList_setSlot (l : TaskState) (t : TaskPtr) (i : Nat) (o : Option TaskPtr)
    (s : Kernel) : taskAddToList l t (s.setSlot i o) = (taskAddToList l t s).setSlot i o := by
  simp only [taskAddToList, setSlot_lists]
  cases (s.lists l).last <;> rfl

/-- A new task enters the task map. -/
theorem Queues.announce {out : List TaskPtr} {id : Nat} (h : Queues out s xs)
    (hfree : s.taskmap id = none) (hid : id < NTASKS) (hnew : ∀ i, s.taskmap i ≠ some t)
    (ht : (s.task t).id = id) : Queues (t :: out) (s.setSlot id (some t)) xs := by
  have hkeep : ∀ i v, s.taskmap i = some v → (s.setSlot id (some t)).taskmap i = some v := by
    intro i v hi
    have hne : i ≠ id := by
      rintro rfl
      simp [hfree] at hi
    rw [setSlot_taskmap, Function.update_of_ne hne, hi]
  refine ⟨h.lists.congr rfl fun _ => rfl, fun l v hv => ?_, h.running, fun i v hi => ?_,
    fun v hv => ?_⟩
  · obtain ⟨h1, h2, h3⟩ := h.mem l v hv
    have hvt : v ≠ t := by
      rintro rfl
      exact hnew _ h2
    exact ⟨h1, hkeep _ v h2, by simp [hvt, h3]⟩
  · by_cases hi' : i = id
    · subst hi'
      rw [setSlot_taskmap, Function.update_self] at hi
      obtain rfl := Option.some.inj hi
      exact ⟨hid, ht, .inl (by simp)⟩
    · rw [setSlot_taskmap, Function.update_of_ne hi'] at hi
      obtain ⟨h1, h2, h3⟩ := h.map i v hi
      exact ⟨h1, h2, h3.imp_left (List.mem_cons_of_mem _)⟩
  · rcases List.mem_cons.mp hv with rfl | hv
    · rw [setSlot_task, ht]
      simp
    · exact hkeep _ v (h.out v hv)

/-- **Creating** a task in a fresh block: if there is a slot for it, it becomes the last
ready one. -/
theorem SchedInv.taskNew_ready {ptr : TaskPtr} (h : SchedInv s xs)
    (hnew : ∀ i, s.taskmap i ≠ some ptr) :
    ∃ ws, SchedInv (taskNew ptr s) (Function.update xs .ready (xs .ready ++ ws)) := by
  unfold Eclair.taskNew
  cases hfree : freeSlot s with
  | none => exact ⟨[], by rwa [List.append_nil, Function.update_eq_self]⟩
  | some id =>
      obtain ⟨hid, hnone⟩ := freeSlot_spec hfree
      dsimp only
      generalize hk : ({ state := .ready, nticks := NTICKS, id := id } : Task) = k
      have hother : ∀ u, u ≠ ptr → (s.modTask ptr fun _ => k).task u = s.task u := fun u hu =>
        modTask_task_of_ne _ _ _ _ hu
      have hlive : ∀ i u, s.taskmap i = some u → u ≠ ptr := by
        rintro i u hi rfl
        exact hnew i hi
      have h1 : Queues [s.taskActive] (s.modTask ptr fun _ => k) xs := by
        refine h.queues.congr_live rfl rfl (fun u hu _ => ?_) fun u hu => ?_
        · simp only [Kernel.links, hother u (hlive _ u hu), and_self]
        · rw [hother u (hlive _ u hu)]
      have hactive : s.taskActive ≠ ptr := hlive _ _ h.live_active
      have h2 := (h1.announce (t := ptr) hnone hid hnew (by simp [← hk])).add (r := .ready)
        (by simpa using Ne.symm hactive) (by simp [← hk]) (by decide)
      rw [taskAddToList_setSlot] at h2
      refine ⟨[ptr], by simpa using h2, ?_, by simp [h.unlocked], by simp [h.postponed]⟩
      rw [active, setSlot_taskActive, taskAddToList_taskActive, setSlot_task,
        taskAddToList_state, modTask_taskActive, hother _ hactive]
      exact h.running

/-- A new task changes the control block of no live one, links apart. -/
theorem taskNew_task {ptr : TaskPtr} (hu : u ≠ ptr) :
    SameTask ((taskNew ptr s).task u) (s.task u) := by
  unfold Eclair.taskNew
  cases freeSlot s with
  | none => exact .refl _
  | some id =>
      obtain ⟨p, n, he⟩ := (sameButLinks_taskAddToList .ready ptr (s.modTask ptr fun _ =>
        { state := .ready, nticks := NTICKS, id := id })).task u
      rw [modTask_task_of_ne _ _ _ _ hu] at he
      exact ⟨p, n, he⟩

/-- Everybody else waits as before. -/
theorem SchedInv.taskNew {ptr : TaskPtr} (h : SchedInv s xs)
    (hnew : ∀ i, s.taskmap i ≠ some ptr) :
    (∃ xs', SchedInv (taskNew ptr s) xs') ∧
      ∀ i u, s.taskmap i = some u →
        (Eclair.taskNew ptr s).taskmap i = some u ∧
          (Eclair.taskNew ptr s).waits u = s.waits u := by
  obtain ⟨ws, hinv⟩ := h.taskNew_ready hnew
  refine ⟨⟨_, hinv⟩, fun i u hi => ⟨?_, waits_congr (taskNew_task ?_).state⟩⟩
  · unfold Eclair.taskNew
    cases hfree : freeSlot s with
    | none => exact hi
    | some id =>
        have hne : i ≠ id := by
          rintro rfl
          simp [(freeSlot_spec hfree).2] at hi
        simpa [Function.update_of_ne hne] using hi
  · rintro rfl
    exact hnew i hi

end Eclair
