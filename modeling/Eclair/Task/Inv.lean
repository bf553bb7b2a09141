import Mathlib.Data.Finset.Card
import Eclair.Task.Sched

/-!
# Eclair.Task.Inv

The scheduler invariant and what each operation does to it.

`Queues out s xs` says that every live task is on the list of its state,
except the tasks of `out`, which are on none: the active task, and inside an
operation the task that is being moved.  `dequeue` and `enqueue` are the two
halves of every move, and `SchedInv` is the invariant between operations,
when the active task alone is on no list and runs.
-/

namespace Eclair

open Linked Kernel

/-- Every live task is on the list of its state or one of `out`. -/
structure Queues (out : List TaskPtr) (s : Kernel) (xs : TaskState → List TaskPtr) : Prop where
  lists : Lists s xs
  mem : ∀ l t, t ∈ xs l →
    (s.task t).state = l ∧ s.taskmap (s.task t).id = some t ∧ t ∉ out
  running : xs .running = []
  map : ∀ i t, s.taskmap i = some t →
    i < NTASKS ∧ (s.task t).id = i ∧ (t ∈ out ∨ t ∈ xs (s.task t).state)
  out : ∀ t, t ∈ out → s.taskmap (s.task t).id = some t

/-- The scheduler invariant between operations. -/
structure SchedInv (s : Kernel) (xs : TaskState → List TaskPtr) : Prop where
  queues : Queues [s.taskActive] s xs
  running : s.active.state = .running
  unlocked : s.nlockpost = 0
  postponed : s.postponed = false

/-! ## what the scheduler leaves alone -/

/-- The fields of two tasks agree up to links, state and time slice. -/
def SameFields (a b : Task) : Prop :=
  ∃ p n st k, a = { b with prev := p, next := n, state := st, nticks := k }

theorem SameFields.refl (a : Task) : SameFields a a := ⟨a.prev, a.next, a.state, a.nticks, rfl⟩

theorem SameFields.trans {a b c : Task} (h : SameFields a b) (h' : SameFields b c) :
    SameFields a c := by
  obtain ⟨p, n, st, k, rfl⟩ := h
  obtain ⟨p', n', st', k', rfl⟩ := h'
  exact ⟨p, n, st, k, rfl⟩

/-- The fields of two tasks agree up to links, state, time slice, wake time
and wait status. -/
def SameRest (a b : Task) : Prop :=
  ∃ p n st k w ws,
    a = { b with prev := p, next := n, state := st, nticks := k, waketime := w, wstatus := ws }

theorem SameRest.refl (a : Task) : SameRest a a :=
  ⟨a.prev, a.next, a.state, a.nticks, a.waketime, a.wstatus, rfl⟩

theorem SameRest.trans {a b c : Task} (h : SameRest a b) (h' : SameRest b c) : SameRest a c := by
  obtain ⟨p, n, st, k, w, ws, rfl⟩ := h
  obtain ⟨p', n', st', k', w', ws', rfl⟩ := h'
  exact ⟨p, n, st, k, w, ws, rfl⟩

theorem SameRest.id {a b : Task} (h : SameRest a b) : a.id = b.id := by
  obtain ⟨p, n, st, k, w, ws, rfl⟩ := h
  rfl

theorem SameFields.sameRest {a b : Task} (h : SameFields a b) : SameRest a b := by
  obtain ⟨p, n, st, k, he⟩ := h
  exact ⟨p, n, st, k, b.waketime, b.wstatus, he⟩

/-- Nothing changes but where the tasks are: links, lists, states, time
slices and the active task. -/
structure Moved (s' s : Kernel) : Prop where
  task : ∀ u, SameFields (s'.task u) (s.task u)
  taskmap : s'.taskmap = s.taskmap
  taskres : s'.taskres = s.taskres
  vfs : s'.vfs = s.vfs

/-- Nothing changes but what the scheduler owns: links, lists, states, time
slices, wake times, wait statuses, the clock and the active task. -/
structure Keeps (s' s : Kernel) : Prop where
  task : ∀ u, SameRest (s'.task u) (s.task u)
  taskmap : s'.taskmap = s.taskmap
  taskres : s'.taskres = s.taskres
  vfs : s'.vfs = s.vfs

namespace Moved

variable {s s' s'' : Kernel}

theorem refl (s : Kernel) : Moved s s := ⟨fun _ => SameFields.refl _, rfl, rfl, rfl⟩

theorem trans (h : Moved s'' s') (h' : Moved s' s) : Moved s'' s :=
  ⟨fun u => (h.task u).trans (h'.task u), h.taskmap.trans h'.taskmap, h.taskres.trans h'.taskres,
    h.vfs.trans h'.vfs⟩

theorem of_sameButLinks (h : SameButLinks s' s) : Moved s' s :=
  ⟨fun u => by
    obtain ⟨p, n, he⟩ := h.task u
    exact ⟨p, n, _, _, he⟩, h.taskmap, h.taskres, h.vfs⟩

theorem add (l : TaskState) (t : TaskPtr) (s : Kernel) : Moved (taskAddToList l t s) s :=
  of_sameButLinks (sameButLinks_taskAddToList l t s)

theorem remove (l : TaskState) (t : TaskPtr) (s : Kernel) : Moved (taskRemoveFromList l t s) s :=
  of_sameButLinks (sameButLinks_taskRemoveFromList l t s)

theorem modTask (s : Kernel) (t : TaskPtr) {f : Task → Task} (h : ∀ k, SameFields (f k) k) :
    Moved (s.modTask t f) s := by
  refine ⟨fun u => ?_, rfl, rfl, rfl⟩
  rw [Kernel.modTask_task]
  split
  · exact h _
  · exact SameFields.refl _

theorem taskSwitch (t : TaskPtr) (s : Kernel) : Moved (taskSwitch t s) s := by
  unfold Eclair.taskSwitch
  split <;> exact ⟨fun _ => SameFields.refl _, rfl, rfl, rfl⟩

theorem takeReady (t : TaskPtr) (s : Kernel) : Moved (takeReady t s) s :=
  (modTask _ _ fun _ => ⟨_, _, _, _, rfl⟩).trans (remove _ _ _)

theorem preemptActive (s : Kernel) : Moved (preemptActive s) s := by
  unfold Eclair.preemptActive
  split
  · exact (modTask _ _ fun _ => ⟨_, _, _, _, rfl⟩).trans (add _ _ _)
  · exact refl s

theorem taskSchedule (s : Kernel) : Moved (taskSchedule s) s := by
  unfold Eclair.taskSchedule
  split
  · exact ⟨fun _ => SameFields.refl _, rfl, rfl, rfl⟩
  · cases (s.lists .ready).first with
    | none => exact refl s
    | some next => exact (taskSwitch _ _).trans ((preemptActive _).trans (takeReady _ _))

theorem park (r : TaskState) (s : Kernel) : Moved (park r s) s :=
  (add _ _ _).trans <| modTask _ _ fun _ => ⟨_, _, _, _, rfl⟩

theorem taskBlock (r : TaskState) (s : Kernel) : Moved (taskBlock r s) s :=
  (taskSchedule _).trans (park r s)

theorem requeue (l : TaskState) (t : TaskPtr) (s : Kernel) : Moved (requeue l t s) s :=
  (add _ _ _).trans <| (modTask _ _ fun _ => ⟨_, _, _, _, rfl⟩).trans (remove _ _ _)

theorem taskUnblock (t : TaskPtr) (s : Kernel) : Moved (taskUnblock t s) s := by
  unfold Eclair.taskUnblock
  split
  · exact refl s
  · split
    · exact (taskSchedule _).trans (requeue _ _ _)
    · exact requeue _ _ _

theorem keeps (h : Moved s' s) : Keeps s' s :=
  ⟨fun u => (h.task u).sameRest, h.taskmap, h.taskres, h.vfs⟩

end Moved

namespace Keeps

variable {s s' s'' : Kernel}

theorem trans (h : Keeps s'' s') (h' : Keeps s' s) : Keeps s'' s :=
  ⟨fun u => (h.task u).trans (h'.task u), h.taskmap.trans h'.taskmap, h.taskres.trans h'.taskres,
    h.vfs.trans h'.vfs⟩

theorem modTask (s : Kernel) (t : TaskPtr) {f : Task → Task} (h : ∀ k, SameRest (f k) k) :
    Keeps (s.modTask t f) s := by
  refine ⟨fun u => ?_, rfl, rfl, rfl⟩
  rw [Kernel.modTask_task]
  split
  · exact h _
  · exact SameRest.refl _

end Keeps

/-! ## moves between lists -/

namespace Queues

variable {out : List TaskPtr} {s s' : Kernel} {xs : TaskState → List TaskPtr}
variable {l : TaskState} {t : TaskPtr} {as bs : List TaskPtr}

/-- Whatever leaves links, states and ids of the live tasks and the task map
alone keeps the queues. -/
theorem congr_live (h : Queues out s xs) (hl : s'.lists = s.lists) (hm : s'.taskmap = s.taskmap)
    (ht : ∀ u, s.taskmap (s.task u).id = some u → u ∉ out →
      s'.links u = s.links u ∧ (s'.task u).state = (s.task u).state)
    (hid : ∀ u, s.taskmap (s.task u).id = some u → (s'.task u).id = (s.task u).id) :
    Queues out s' xs where
  lists :=
    ⟨fun l => by
      rw [hl]
      refine (h.lists.isList l).congr fun u hu => ?_
      obtain ⟨-, h2, h3⟩ := h.mem l u hu
      exact (ht u h2 h3).1, h.lists.apart⟩
  mem l u hu := by
    obtain ⟨h1, h2, h3⟩ := h.mem l u hu
    exact ⟨(ht u h2 h3).2.trans h1, by rw [hid u h2, hm]; exact h2, h3⟩
  running := h.running
  map i u hu := by
    rw [hm] at hu
    obtain ⟨h1, h2, h3⟩ := h.map i u hu
    have hlive : s.taskmap (s.task u).id = some u := by rw [h2]; exact hu
    refine ⟨h1, (hid u hlive).trans h2, ?_⟩
    rcases em (u ∈ out) with ho | ho
    · exact .inl ho
    · rw [(ht u hlive ho).2]
      exact h3
  out u hu := by
    have hlive := h.out u hu
    rw [hid u hlive, hm]
    exact hlive

/-- Whatever leaves links, states, ids and the task map alone keeps the
queues. -/
theorem congr (h : Queues out s xs) (hl : s'.lists = s.lists) (hm : s'.taskmap = s.taskmap)
    (ht : ∀ u, u ∉ out → s'.links u = s.links u ∧ (s'.task u).state = (s.task u).state)
    (hid : ∀ u, (s'.task u).id = (s.task u).id) : Queues out s' xs :=
  h.congr_live hl hm (fun u _ => ht u) fun u _ => hid u

/-- Only which tasks are in flight matters. -/
theorem of_out_iff {out' : List TaskPtr} (h : Queues out s xs)
    (ho : ∀ u, u ∈ out' ↔ u ∈ out) : Queues out' s xs where
  lists := h.lists
  mem l u hu := by simpa [ho] using h.mem l u hu
  running := h.running
  map i u hu := by simpa [ho] using h.map i u hu
  out u hu := h.out u ((ho u).mp hu)

/-- The first half of a move: a listed task leaves its list. -/
theorem dequeue (h : Queues out s xs) (ht : xs l = as ++ t :: bs) :
    Queues (t :: out) (taskRemoveFromList l t s) (Function.update xs l (as ++ bs)) := by
  have hmt : t ∈ xs l := by rw [ht]; simp
  have hsub : ∀ l' u, u ∈ Function.update xs l (as ++ bs) l' ↔ u ∈ xs l' ∧ u ≠ t := by
    intro l' u
    by_cases e : l' = l
    · subst e
      have hnd := (h.lists.isList l').nodup
      rw [ht] at hnd
      rw [Function.update_self, ht]
      grind
    · rw [Function.update_of_ne e]
      refine ⟨fun hu => ⟨hu, fun he => e ?_⟩, fun hu => hu.1⟩
      exact h.lists.apart l' l t (he ▸ hu) hmt
  refine ⟨h.lists.remove ht, ?_, ?_, ?_, ?_⟩
  · intro l' u hu
    obtain ⟨hu, hne⟩ := (hsub l' u).mp hu
    obtain ⟨h1, h2, h3⟩ := h.mem l' u hu
    simp [h1, h2, h3, hne]
  · rw [List.eq_nil_iff_forall_not_mem]
    intro u hu
    have hr := ((hsub _ u).mp hu).1
    rw [h.running] at hr
    simp at hr
  · intro i u hu
    rw [taskRemoveFromList_taskmap] at hu
    obtain ⟨h1, h2, h3⟩ := h.map i u hu
    refine ⟨h1, by simpa using h2, ?_⟩
    by_cases hut : u = t
    · exact .inl (by simp [hut])
    · rcases h3 with h3 | h3
      · exact .inl (by simp [h3])
      · exact .inr (by rw [hsub, taskRemoveFromList_state]; exact ⟨h3, hut⟩)
  · intro u hu
    rw [taskRemoveFromList_id, taskRemoveFromList_taskmap]
    rcases List.mem_cons.mp hu with rfl | hu
    · exact (h.mem l u hmt).2.1
    · exact h.out u hu

/-- The second half of a move: a task on no list enters the one of its new
state.  The state may be written before or after the links. -/
theorem enqueue (h : Queues (t :: out) s xs) (ho : t ∉ out) (hl : l ≠ .running)
    (hlinks : ∀ u, s'.links u = (taskAddToList l t s).links u)
    (hends : s'.lists = (taskAddToList l t s).lists) (hm : s'.taskmap = s.taskmap)
    (hst : ∀ u, (s'.task u).state = if u = t then l else (s.task u).state)
    (hid : ∀ u, (s'.task u).id = (s.task u).id) :
    Queues out s' (Function.update xs l (xs l ++ [t])) := by
  have hnt : ∀ l', t ∉ xs l' := fun l' hm => (h.mem l' t hm).2.2 (by simp)
  have hsub : ∀ l' u, u ∈ Function.update xs l (xs l ++ [t]) l' ↔
      u ∈ xs l' ∨ (l' = l ∧ u = t) := by
    intro l' u
    by_cases e : l' = l
    · subst e
      simp [Function.update_self]
    · simp [e]
  refine ⟨(h.lists.add l hnt).congr hends hlinks, ?_, ?_, ?_, ?_⟩
  · intro l' u hu
    rw [hid, hm, hst]
    rcases (hsub l' u).mp hu with hu | ⟨rfl, rfl⟩
    · obtain ⟨h1, h2, h3⟩ := h.mem l' u hu
      have hut : u ≠ t := fun he => hnt l' (he ▸ hu)
      simp only [List.mem_cons, not_or] at h3
      exact ⟨by rw [if_neg hut, h1], h2, h3.2⟩
    · exact ⟨by rw [if_pos rfl], h.out u (by simp), ho⟩
  · rw [Function.update_of_ne (Ne.symm hl)]
    exact h.running
  · intro i u hu
    rw [hm] at hu
    obtain ⟨h1, h2, h3⟩ := h.map i u hu
    refine ⟨h1, (hid u).trans h2, ?_⟩
    by_cases hut : u = t
    · refine .inr ((hsub _ u).mpr (.inr ⟨?_, hut⟩))
      rw [hst, if_pos hut]
    · rw [hst, if_neg hut]
      rcases h3 with h3 | h3
      · exact .inl (List.mem_of_ne_of_mem hut h3)
      · exact .inr ((hsub _ u).mpr (.inl h3))
  · intro u hu
    rw [hid, hm]
    exact h.out u (List.mem_cons_of_mem _ hu)

/-- A list holds at most `NTASKS` tasks. -/
theorem length_le (h : Queues out s xs) (l : TaskState) : (xs l).length ≤ NTASKS := by
  have hinj : ((xs l).map fun t => (s.task t).id).Nodup := by
    refine (h.lists.isList l).nodup.map_on fun a ha b hb he => ?_
    have h1 := (h.mem l a ha).2.1
    have h2 := (h.mem l b hb).2.1
    rw [he] at h1
    exact Option.some.inj (h1.symm.trans h2)
  have hsub : ((xs l).map fun t => (s.task t).id).toFinset ⊆ Finset.range NTASKS := by
    intro i hi
    simp only [List.mem_toFinset, List.mem_map] at hi
    obtain ⟨t, ht, rfl⟩ := hi
    exact Finset.mem_range.mpr (h.map _ t (h.mem l t ht).2.1).1
  have hcard := Finset.card_le_card hsub
  rwa [List.toFinset_card_of_nodup hinj, List.length_map, Finset.card_range] at hcard

/-- The split of a list at one of its tasks. -/
theorem split (h : t ∈ xs l) : ∃ as bs, xs l = as ++ t :: bs := List.append_of_mem h

end Queues

/-! ## choosing the next task -/

/-- What a task waits in: `none` when it is ready or running. -/
def Kernel.waits (s : Kernel) (t : TaskPtr) : Option TaskState :=
  match (s.task t).state with
  | .ready | .running => none
  | st => some st

variable {s s' : Kernel} {xs : TaskState → List TaskPtr} {t u : TaskPtr} {r : TaskState}

theorem waits_of_ready (h : (s.task t).state = .ready) : s.waits t = none := by
  simp [Kernel.waits, h]

theorem waits_of_running (h : (s.task t).state = .running) : s.waits t = none := by
  simp [Kernel.waits, h]

theorem waits_of_blocked (h : (s.task t).state = r) (hr : r ≠ .ready) (hr' : r ≠ .running) :
    s.waits t = some r := by
  subst h
  unfold Kernel.waits
  split <;> simp_all

theorem waits_eq_some (h : s.waits t = some r) : (s.task t).state = r := by
  unfold Kernel.waits at h
  split at h <;> simp_all

theorem waits_congr (h : (s'.task u).state = (s.task u).state) : s'.waits u = s.waits u := by
  simp [Kernel.waits, h]

@[simp] theorem takeReady_nlockpost (t : TaskPtr) : (takeReady t s).nlockpost = s.nlockpost := by
  simp [takeReady]

@[simp] theorem takeReady_postponed (t : TaskPtr) : (takeReady t s).postponed = s.postponed := by
  simp [takeReady]

@[simp] theorem takeReady_taskActive (t : TaskPtr) :
    (takeReady t s).taskActive = s.taskActive := by
  simp [takeReady]

theorem takeReady_state (t u : TaskPtr) :
    ((takeReady t s).task u).state = if u = t then .running else (s.task u).state := by
  rw [takeReady, modTask_task]
  split <;> simp [Task.enter]

theorem takeReady_waits (h : (s.task t).state = .ready) : (takeReady t s).waits = s.waits := by
  funext u
  by_cases hu : u = t
  · subst hu
    rw [waits_of_ready h, waits_of_running ((takeReady_state u u).trans (if_pos rfl))]
  · exact waits_congr ((takeReady_state t u).trans (if_neg hu))

@[simp] theorem preemptActive_nlockpost : (preemptActive s).nlockpost = s.nlockpost := by
  unfold preemptActive
  split <;> simp

@[simp] theorem preemptActive_postponed : (preemptActive s).postponed = s.postponed := by
  unfold preemptActive
  split <;> simp

/-- The states after the running task has been put on the ready list. -/
theorem preemptActive_state (h : s.active.state = .running) (u : TaskPtr) :
    ((preemptActive s).task u).state =
      if u = s.taskActive then .ready else (s.task u).state := by
  rw [preemptActive, if_pos h, modTask_task]
  split <;> simp [Task.enter]

theorem preemptActive_waits : (preemptActive s).waits = s.waits := by
  by_cases h : s.active.state = .running
  · funext u
    by_cases hu : u = s.taskActive
    · subst hu
      rw [waits_of_running h, waits_of_ready ((preemptActive_state h _).trans (if_pos rfl))]
    · exact waits_congr ((preemptActive_state h u).trans (if_neg hu))
  · rw [preemptActive, if_neg h]

theorem taskSwitch_of_unlocked (t : TaskPtr) (h : s.nlockpost = 0) :
    taskSwitch t s = { s with taskActive := t } := by simp [taskSwitch, h]

/-- With the task switches unlocked, the first ready task is switched to. -/
theorem taskSchedule_eq {out : List TaskPtr} (h : Queues out s xs) (h0 : s.nlockpost = 0) :
    taskSchedule s = match xs .ready with
      | [] => s
      | t :: _ => { preemptActive (takeReady t s) with taskActive := t } := by
  rw [taskSchedule, if_neg (by simp [h0]), (h.lists.isList .ready).first_eq]
  cases xs .ready with
  | nil => rfl
  | cons t ts => exact taskSwitch_of_unlocked t (by simp [h0])

/-- Scheduling changes nobody's wait. -/
theorem taskSchedule_waits {out : List TaskPtr} (h : Queues out s xs) (h0 : s.nlockpost = 0) :
    (taskSchedule s).waits = s.waits := by
  rw [taskSchedule_eq h h0]
  cases hr : xs .ready with
  | nil => rfl
  | cons t ts =>
      exact preemptActive_waits.trans (takeReady_waits (h.mem .ready t (by simp [hr])).1)

theorem queues_takeReady {out : List TaskPtr} (h : Queues out s xs) {ts : List TaskPtr}
    (hr : xs .ready = t :: ts) :
    Queues (t :: out) (takeReady t s) (Function.update xs .ready ts) := by
  refine (h.dequeue (show xs .ready = [] ++ t :: ts from hr)).congr rfl rfl (fun u hu => ?_) fun u => ?_
  · have hne : u ≠ t := fun he => hu (by simp [he])
    rw [takeReady, links_modTask, if_neg hne, modTask_task_of_ne _ _ _ _ hne]
    exact ⟨rfl, rfl⟩
  · rw [takeReady, modTask_task]
    split <;> rfl

/-- The running task goes to the end of the ready list. -/
theorem queues_preemptActive {out : List TaskPtr} (h : Queues (s.taskActive :: out) s xs)
    (ho : s.taskActive ∉ out) (hrun : s.active.state = .running) :
    Queues out (preemptActive s) (Function.update xs .ready (xs .ready ++ [s.taskActive])) := by
  have heq : preemptActive s =
      (taskAddToList .ready s.taskActive s).modTask s.taskActive (Task.enter .ready) :=
    if_pos hrun
  refine h.enqueue ho (by decide) (fun u => ?_) (by rw [heq]; rfl) ((Moved.preemptActive s).taskmap)
    (preemptActive_state hrun) fun u => ((Moved.preemptActive s).task u).sameRest.id
  rw [heq, links_modTask]
  split
  · next hu => rw [hu]; rfl
  · rfl

/-- **A blocked task gives way** to the first ready one. -/
theorem taskSchedule_of_blocked_cons {ts : List TaskPtr} (h : Queues [] s xs)
    (h0 : s.nlockpost = 0) (hp : s.postponed = false) (ha : s.waits s.taskActive ≠ none)
    (hr : xs .ready = t :: ts) : SchedInv (taskSchedule s) (Function.update xs .ready ts) := by
  have hst : (s.task t).state = .ready := (h.mem .ready t (by simp [hr])).1
  have hrun : ¬ (takeReady t s).active.state = .running := fun he => by
    have hw := waits_of_running he
    rw [takeReady_taskActive, takeReady_waits hst] at hw
    exact ha hw
  have heq : taskSchedule s = { takeReady t s with taskActive := t } := by
    rw [taskSchedule_eq h h0, hr]
    simp only [preemptActive, if_neg hrun]
  rw [heq]
  exact ⟨(queues_takeReady h hr).congr rfl rfl (fun _ _ => ⟨rfl, rfl⟩) fun _ => rfl,
    (takeReady_state t t).trans (if_pos rfl), by simp [h0], by simp [hp]⟩

theorem taskSchedule_of_blocked (h : Queues [] s xs) (h0 : s.nlockpost = 0)
    (hp : s.postponed = false) (ha : s.waits s.taskActive ≠ none) (hr : xs .ready ≠ []) :
    ∃ xs', SchedInv (taskSchedule s) xs' := by
  obtain ⟨t, ts, hr⟩ := List.exists_cons_of_ne_nil hr
  exact ⟨_, taskSchedule_of_blocked_cons h h0 hp ha hr⟩

/-- **A running task is preempted**: it goes to the end of the ready list
and the first ready task runs. -/
theorem SchedInv.taskSchedule_cons {ts : List TaskPtr} (h : SchedInv s xs)
    (hr : xs .ready = t :: ts) :
    SchedInv (Eclair.taskSchedule s) (Function.update xs .ready (ts ++ [s.taskActive])) ∧
      (Eclair.taskSchedule s).taskActive = t := by
  obtain ⟨hq, hrun, h0, hp⟩ := h
  have heq : Eclair.taskSchedule s = { preemptActive (takeReady t s) with taskActive := t } := by
    rw [taskSchedule_eq hq h0, hr]
  rw [heq]
  have hta : s.taskActive ≠ t := fun he => by
    have hm := (hq.mem .ready t (by simp [hr])).2.2
    simp [he] at hm
  have hrun1 : (takeReady t s).active.state = .running := by
    rw [active, takeReady_taskActive, takeReady_state, if_neg hta]
    exact hrun
  have h1 : Queues [(takeReady t s).taskActive, t] (takeReady t s)
      (Function.update xs .ready ts) :=
    (queues_takeReady hq hr).of_out_iff fun u => by simp [or_comm]
  have h2 := queues_preemptActive h1 (by simpa using hta) hrun1
  rw [Function.update_self, Function.update_idem, takeReady_taskActive] at h2
  refine ⟨⟨h2.congr rfl rfl (fun _ _ => ⟨rfl, rfl⟩) fun _ => rfl, ?_, by simp [h0],
    by simp [hp]⟩, rfl⟩
  refine (preemptActive_state hrun1 t).trans ?_
  rw [takeReady_taskActive, if_neg hta.symm, takeReady_state, if_pos rfl]

/-- It goes on when no task is ready. -/
theorem SchedInv.taskSchedule_nil (h : SchedInv s xs) (hr : xs .ready = []) :
    Eclair.taskSchedule s = s := by
  rw [taskSchedule_eq h.queues h.unlocked, hr]

theorem SchedInv.taskSchedule (h : SchedInv s xs) :
    ∃ xs', SchedInv (Eclair.taskSchedule s) xs' := by
  cases hr : xs .ready with
  | nil =>
      rw [h.taskSchedule_nil hr]
      exact ⟨xs, h⟩
  | cons t ts => exact ⟨_, (h.taskSchedule_cons hr).1⟩

/-! ## blocking -/

theorem park_waits (r : TaskState) (hr : r ≠ .ready) (hr' : r ≠ .running) :
    (park r s).waits = Function.update s.waits s.taskActive (some r) := by
  funext u
  by_cases hu : u = s.taskActive
  · subst hu
    rw [Function.update_self]
    exact waits_of_blocked (by simp [park]) hr hr'
  · rw [Function.update_of_ne hu]
    exact waits_congr (by simp [park, modTask_task_of_ne _ _ _ _ hu])

/-- A task in flight may get a new state. -/
theorem Queues.setState {out : List TaskPtr} (h : Queues (t :: out) s xs) (r : TaskState) :
    Queues (t :: out) (s.modTask t fun k => { k with state := r }) xs := by
  refine h.congr rfl rfl (fun u hu => ?_) fun u => ?_
  · have hne : u ≠ t := fun he => hu (by simp [he])
    rw [links_modTask, if_neg hne, modTask_task_of_ne _ _ _ _ hne]
    exact ⟨rfl, rfl⟩
  · rw [modTask_task]
    split <;> rfl

/-- A task in flight enters the list of its state. -/
theorem Queues.add {out : List TaskPtr} (h : Queues (t :: out) s xs) (ho : t ∉ out)
    (hst : (s.task t).state = r) (hr : r ≠ .running) :
    Queues out (taskAddToList r t s) (Function.update xs r (xs r ++ [t])) := by
  refine h.enqueue ho hr (fun _ => rfl) rfl (by simp) (fun u => ?_) fun u => by simp
  rw [taskAddToList_state]
  split
  · next hu => rw [hu, hst]
  · rfl

@[simp] theorem park_nlockpost : (park r s).nlockpost = s.nlockpost := by simp [park]

@[simp] theorem park_postponed : (park r s).postponed = s.postponed := by simp [park]

@[simp] theorem park_taskActive : (park r s).taskActive = s.taskActive := by simp [park]

/-- The active task enters the list of its new state. -/
theorem SchedInv.park (h : SchedInv s xs) (hr : r ≠ .running) :
    Queues [] (Eclair.park r s) (Function.update xs r (xs r ++ [s.taskActive])) :=
  (h.queues.setState r).add (by simp) (by simp) hr

theorem SchedInv.waits_active (h : SchedInv s xs) : s.waits s.taskActive = none :=
  waits_of_running h.running

/-- **Blocking**: the active task waits and another one runs, if one is
ready. -/
theorem SchedInv.taskBlock (h : SchedInv s xs) (hr : r ≠ .ready) (hr' : r ≠ .running)
    (hne : xs .ready ≠ []) :
    (∃ xs', SchedInv (Eclair.taskBlock r s) xs') ∧
      (Eclair.taskBlock r s).waits = Function.update s.waits s.taskActive (some r) := by
  have hq := h.park hr'
  have h0 : (Eclair.park r s).nlockpost = 0 := by simp [h.unlocked]
  have hw := park_waits (s := s) r hr hr'
  refine ⟨taskSchedule_of_blocked hq h0 (by simp [h.postponed]) ?_ ?_, ?_⟩
  · simp [hw]
  · rw [Function.update_of_ne (Ne.symm hr)]
    exact hne
  · exact (taskSchedule_waits hq h0).trans hw

/-! ## moving another task -/

theorem requeue_state (l : TaskState) (t u : TaskPtr) :
    ((requeue l t s).task u).state = if u = t then l else (s.task u).state := by
  rw [requeue, taskAddToList_state, modTask_task]
  split <;> simp

@[simp] theorem requeue_nlockpost (l : TaskState) (t : TaskPtr) :
    (requeue l t s).nlockpost = s.nlockpost := by simp [requeue]

@[simp] theorem requeue_postponed (l : TaskState) (t : TaskPtr) :
    (requeue l t s).postponed = s.postponed := by simp [requeue]

@[simp] theorem requeue_taskActive (l : TaskState) (t : TaskPtr) :
    (requeue l t s).taskActive = s.taskActive := by simp [requeue]

/-- **Moving a listed task** to the end of another list. -/
theorem Queues.requeue {out as bs : List TaskPtr} {l : TaskState} (h : Queues out s xs)
    (ht : xs (s.task t).state = as ++ t :: bs) (hl : l ≠ .running) :
    let ys := Function.update xs (s.task t).state (as ++ bs)
    Queues out (Eclair.requeue l t s) (Function.update ys l (ys l ++ [t])) := by
  have ho : t ∉ out := (h.mem _ t (by rw [ht]; simp)).2.2
  exact ((h.dequeue ht).setState l).add ho (by simp) hl

/-- A live task that is not in flight is listed. -/
theorem Queues.listed {out : List TaskPtr} {i : Nat} (h : Queues out s xs)
    (hi : s.taskmap i = some t) (ho : t ∉ out) : t ∈ xs (s.task t).state :=
  (h.map i t hi).2.2.resolve_left ho

end Eclair
