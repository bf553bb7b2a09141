import Eclair.Lib.Loop
import Eclair.Task.Runs

/-!
# Eclair.Task.Wakeups

Which tasks a timer interrupt wakes.

`woken` lists them from the state before the interrupt: the sleepers that
are due, of the paused tasks the earliest one for each free node (`waiter`),
the signaled tasks, and the tasks whose wait for another one is over.  While
a loop runs, its node grants and wake-ups are those of the part of the list
it has followed (`Woke`), which decides what the rest of the list finds.
-/

namespace Eclair

open Linked Kernel

/-! ## who is to be woken -/

/-- The earliest of the paused tasks `ps` that wait for the node `n`, if the
node is free. -/
def waiter (s : Kernel) (ps : List TaskPtr) (n : NodePtr) : Option TaskPtr :=
  if fsIsheld n s.vfs then none else ps.find? fun t => (s.task t).res == some n

/-- The file systems once each free node is held by its earliest waiter. -/
def handOut (s : Kernel) (ps : List TaskPtr) : Vfs :=
  { s.vfs with
    node := fun n =>
      if (waiter s ps n).isSome then { s.vfs.node n with held := true } else s.vfs.node n
    holders := fun n => (waiter s ps n).toList ++ s.vfs.holders n }

/-- A paused task that is granted its node. -/
def granted (s : Kernel) (ps : List TaskPtr) (t : TaskPtr) : Bool :=
  (s.task t).res.bind (waiter s ps) == some t

/-- A sleeper that is due. -/
def due (s : Kernel) (now : Nat) (t : TaskPtr) : Bool := decide ((s.task t).waketime ≤ now)

/-- A wait for another task that has a timeout, and it has passed. -/
def timedOut (s : Kernel) (now : Nat) (t : TaskPtr) : Bool :=
  decide ((s.task t).waketime ≠ 0 ∧ (s.task t).waketime ≤ now)

/-- The status with which a wait for another task is over. -/
def waitStatus (s : Kernel) (now : Nat) (t : TaskPtr) : Option Nat :=
  if timedOut s now t then some ECW_TIMEOUT else exitStatus (s.task t).pwait s

/-- The tasks that the interrupt at `now` wakes, in this order. -/
def woken (s : Kernel) (xs : TaskState → List TaskPtr) (now : Nat) : List TaskPtr :=
  (xs .sleeping).filter (due s now) ++ (xs .paused).filter (granted s (xs .paused)) ++
    xs .signaled ++ (xs .pwait).filter fun t => (waitStatus s now t).isSome

/-- What waking makes of the control block of `t`, links apart. -/
def awake (s : Kernel) (now : Nat) (t : TaskPtr) : Task :=
  let k := { s.task t with state := .ready }
  match (s.task t).state with
  | .sleeping => { k with waketime := 0 }
  | .pwait =>
      { k with
        waketime := if timedOut s now t then 0 else k.waketime
        wstatus := (waitStatus s now t).getD k.wstatus }
  | _ => k

/-- The lists once the tasks `ws` are ready. -/
def remaining (xs : TaskState → List TaskPtr) (ws : List TaskPtr) (l : TaskState) : List TaskPtr :=
  if l = .ready then xs .ready ++ ws else (xs l).filter fun t => t ∉ ws

variable {s s' : Kernel} {xs : TaskState → List TaskPtr} {t u : TaskPtr} {l : TaskState}
variable {as bs ps ws : List TaskPtr} {now : Nat} {v : Vfs} {n : NodePtr}

/-! ## grants -/

theorem waiter_append : waiter s (as ++ bs) n = (waiter s as n).or (waiter s bs n) := by
  unfold waiter
  split <;> simp

theorem waiter_singleton :
    waiter s [t] n =
      if fsIsheld n s.vfs = false ∧ (s.task t).res = some n then some t else none := by
  unfold waiter
  cases fsIsheld n s.vfs <;> simp [List.find?_singleton]

theorem waiter_mem (h : waiter s ps n = some t) : t ∈ ps := by
  unfold waiter at h
  split at h
  · contradiction
  · exact List.mem_of_find?_eq_some h

/-- A node that has been handed out is held, every other one as before. -/
theorem fsIsheld_handOut (ps : List TaskPtr) (n : NodePtr) :
    fsIsheld n (handOut s ps) = (fsIsheld n s.vfs || (waiter s ps n).isSome) := by
  unfold fsIsheld handOut
  dsimp only
  cases (waiter s ps n).isSome
  · simp
  · simp only [if_true, Bool.or_true]
    split <;> simp

@[simp] theorem handOut_nil : handOut s [] = s.vfs := by simp [handOut, waiter]

/-- The next waiter gets its node if the node is still free. -/
theorem handOut_grant (hr : (s.task t).res = some n) (hn : fsIsheld n (handOut s as) = false) :
    handOut s (as ++ [t]) = grant t n (handOut s as) := by
  rw [fsIsheld_handOut, Bool.or_eq_false_iff, Option.isSome_eq_false_iff,
    Option.isNone_iff_eq_none] at hn
  have hw : ∀ m, waiter s (as ++ [t]) m = if m = n then some t else waiter s as m := by
    intro m
    rw [waiter_append, waiter_singleton, hr]
    by_cases hm : m = n
    · simp [hm, hn]
    · simp [hm, Ne.symm hm]
  unfold handOut grant
  simp only [hw, Vfs.modNode]
  congr 1
  · funext m
    by_cases hm : m = n
    · simp [hm, hn.2]
    · simp [hm]
  · funext m
    by_cases hm : m = n
    · simp [hm, hn.2]
    · simp [hm]

/-- It gets nothing otherwise. -/
theorem handOut_skip (h : ∀ n, (s.task t).res = some n → fsIsheld n (handOut s as) = true) :
    handOut s (as ++ [t]) = handOut s as := by
  have hw : waiter s (as ++ [t]) = waiter s as := by
    funext m
    rw [waiter_append, waiter_singleton]
    split
    · next hm =>
        have hh := h m hm.2
        rw [fsIsheld_handOut, hm.1, Bool.false_or] at hh
        obtain ⟨u, hu⟩ := Option.isSome_iff_exists.mp hh
        simp [hu]
    · simp
  simp only [handOut, hw]

/-- Later waiters do not change who was granted a node. -/
theorem granted_append (hu : u ∈ as) : granted s (as ++ bs) u = granted s as u := by
  unfold granted
  cases hr : (s.task u).res with
  | none => rfl
  | some n =>
      simp only [Option.bind_some, waiter_append]
      cases hw : waiter s as n with
      | some w => rfl
      | none =>
          unfold waiter at hw ⊢
          split at hw
          · next hn => simp [hn]
          · next hn =>
              have hne := List.find?_eq_none.mp hw u hu
              simp [hr] at hne

/-- A waiter is granted its node if it is free when the loop gets there. -/
theorem granted_concat (ht : t ∉ as) :
    granted s (as ++ [t]) t = true ↔
      ∃ n, (s.task t).res = some n ∧ fsIsheld n (handOut s as) = false := by
  unfold granted
  cases hr : (s.task t).res with
  | none => simp
  | some n =>
      simp only [Option.bind_some, waiter_append, waiter_singleton, fsIsheld_handOut, hr, and_true]
      cases hw : waiter s as n with
      | some w =>
          have hne : w ≠ t := fun he => ht (he ▸ waiter_mem hw)
          simp [hw, hne]
      | none => simp [hw]

theorem filter_granted_concat (as : List TaskPtr) (t : TaskPtr) :
    (as ++ [t]).filter (granted s (as ++ [t])) =
      as.filter (granted s as) ++ if granted s (as ++ [t]) t then [t] else [] := by
  rw [List.filter_append, List.filter_congr fun u hu => granted_append hu, List.filter_singleton]
  cases granted s (as ++ [t]) t <;> rfl

/-! ## the lists -/

theorem remaining_ready : remaining xs ws .ready = xs .ready ++ ws := if_pos rfl

theorem remaining_of_ne (hl : l ≠ .ready) :
    remaining xs ws l = (xs l).filter fun t => t ∉ ws := if_neg hl

theorem remaining_nil : remaining xs [] = xs := by
  funext l
  by_cases hl : l = .ready
  · rw [hl, remaining_ready, List.append_nil]
  · rw [remaining_of_ne hl]
    simp

/-- One more task becomes ready. -/
theorem remaining_concat (hx : ∀ l l' t, t ∈ xs l → t ∈ xs l' → l = l') (hnd : (xs l).Nodup)
    (hl : l ≠ .ready) (ht : remaining xs ws l = as ++ t :: bs) :
    remaining xs (ws ++ [t]) =
      Function.update (Function.update (remaining xs ws) l (as ++ bs)) .ready
        (remaining xs ws .ready ++ [t]) := by
  have hmt : t ∈ xs l := by
    have hm : t ∈ remaining xs ws l := by simp [ht]
    rw [remaining_of_ne hl] at hm
    exact List.mem_of_mem_filter hm
  have hsplit : ∀ ys : List TaskPtr, (ys.filter fun u => u ∉ ws ++ [t]) =
      (ys.filter fun u => u ∉ ws).filter fun u => u ≠ t := by
    intro ys
    rw [List.filter_filter]
    exact List.filter_congr fun u _ => by simp [and_comm]
  funext l'
  by_cases hr : l' = .ready
  · rw [hr, Function.update_self, remaining_ready, remaining_ready, List.append_assoc]
  · rw [Function.update_of_ne hr, remaining_of_ne hr, hsplit, ← remaining_of_ne hr]
    by_cases he : l' = l
    · subst he
      rw [Function.update_self, ht]
      have hnd' : (as ++ t :: bs).Nodup := by
        rw [← ht, remaining_of_ne hr]
        exact hnd.filter _
      simp only [List.nodup_append, List.nodup_cons] at hnd'
      have has : ∀ u ∈ as, u ≠ t := fun u hu => hnd'.2.2 u hu t (by simp)
      have hbs : ∀ u ∈ bs, u ≠ t := fun u hu he => hnd'.2.1.1 (he ▸ hu)
      rw [List.filter_append, List.filter_cons_of_neg (by simp),
        List.filter_eq_self.mpr (by simpa using has), List.filter_eq_self.mpr (by simpa using hbs)]
    · rw [Function.update_of_ne he, List.filter_eq_self]
      intro u hu
      rw [remaining_of_ne hr] at hu
      have hut : u ≠ t := fun e => he (hx l' l t (e ▸ List.mem_of_mem_filter hu) hmt)
      simpa using hut

/-! ## one wake-up -/

/-- Inside the interrupt at `now` that began in `s₀`: the tasks `ws` have
been woken, and the file systems are `v`. -/
structure Woke (s₀ : Kernel) (xs : TaskState → List TaskPtr) (now : Nat) (v : Vfs)
    (ws : List TaskPtr) (s : Kernel) : Prop where
  ticking : Ticking s (remaining xs ws)
  task : ∀ u, SameTask (s.task u) (if u ∈ ws then awake s₀ now u else s₀.task u)
  waited : ∀ u ∈ ws, (s₀.task u).state ≠ .terminated
  postponed : s.postponed = decide (xs .ready = [] ∧ ws ≠ [])
  taskActive : s.taskActive = s₀.taskActive
  taskmap : s.taskmap = s₀.taskmap
  taskres : s.taskres = s₀.taskres
  timens : s.timens = now
  vfs : s.vfs = v

theorem requeue_sameButLinks (l : TaskState) (t : TaskPtr) (s : Kernel) :
    SameButLinks (requeue l t s) (s.modTask t fun k => { k with state := l }) := by
  refine (sameButLinks_taskAddToList _ _ _).trans ?_
  have h := sameButLinks_taskRemoveFromList (s.task t).state t s
  refine ⟨fun u => ?_, h.taskmap, h.taskres, h.taskActive, h.timens, h.nlockpost, h.postponed,
    h.vfs⟩
  rw [modTask_task, modTask_task]
  obtain ⟨p, n, he⟩ := h.task u
  split <;> exact ⟨p, n, by rw [he]⟩

/-- While the task switches are locked, a wake-up moves the task and asks
for a switch if no other task was ready. -/
theorem Ticking.taskUnblock_eq (h : Ticking s xs) (ht : t ∈ xs l) (hl : l ≠ .ready) :
    Eclair.taskUnblock t s =
      { Eclair.requeue .ready t s with postponed := s.postponed || decide (xs .ready = []) } := by
  obtain ⟨hst, -, ha⟩ := h.mem ht
  have hfirst : (s.lists .ready).first.isNone = decide (xs .ready = []) := by
    rw [(h.queues.lists.isList .ready).first_eq]
    cases xs .ready <;> simp
  have hlater : taskSchedule (Eclair.requeue .ready t s) =
      { Eclair.requeue .ready t s with postponed := true } := by
    rw [taskSchedule, if_pos (by simp [h.locked])]
  have hsame : { Eclair.requeue .ready t s with postponed := s.postponed } =
      Eclair.requeue .ready t s := by
    rw [← requeue_postponed .ready t]
  rw [Eclair.taskUnblock, if_neg (by simp [ha, hst, hl]), hfirst, hlater]
  split
  · next hr => rw [hr, Bool.or_true]
  · next hr => rw [Bool.eq_false_iff.mpr hr, Bool.or_false, hsame]

/-- The fields that a wake-up reads. -/
theorem SameTask.waketime {a b : Task} (h : SameTask a b) : a.waketime = b.waketime := by
  obtain ⟨p, n, rfl⟩ := h
  rfl

theorem SameTask.res {a b : Task} (h : SameTask a b) : a.res = b.res := by
  obtain ⟨p, n, rfl⟩ := h
  rfl

theorem SameTask.pwait {a b : Task} (h : SameTask a b) : a.pwait = b.pwait := by
  obtain ⟨p, n, rfl⟩ := h
  rfl

theorem awake_state (s : Kernel) (now : Nat) (t : TaskPtr) : (awake s now t).state = .ready := by
  unfold awake
  dsimp only
  split <;> rfl

namespace Woke

variable {s₀ : Kernel} {f : Task → Task} {g : Vfs → Vfs} {p : TaskPtr → Bool}

theorem start (h : SchedInv s₀ xs) :
    Woke s₀ xs now s₀.vfs [] { taskLockpost s₀ with timens := now } where
  ticking := by
    rw [remaining_nil]
    exact ⟨h.queues.congr rfl rfl (fun _ _ => ⟨rfl, rfl⟩) fun _ => rfl, h.running,
      by simp [taskLockpost, h.unlocked]⟩
  task _ := SameTask.refl _
  waited _ hu := absurd hu List.not_mem_nil
  postponed := by simpa [taskLockpost] using h.postponed
  taskActive := rfl
  taskmap := rfl
  taskres := rfl
  timens := rfl
  vfs := rfl

/-- A task that is not yet woken is as it was. -/
theorem of_not_mem (h : Woke s₀ xs now v ws s) (ht : t ∉ ws) : SameTask (s.task t) (s₀.task t) := by
  have hk := h.task t
  rwa [if_neg ht] at hk

/-- No wake-up changes whether a process has exited. -/
theorem exitStatus (h : Woke s₀ xs now v ws s) (p : Int) : exitStatus p s = exitStatus p s₀ := by
  have hget : taskGet p s = taskGet p s₀ := by rw [taskGet, taskGet, h.taskmap]
  have hst : ∀ w, ((s.task w).state == .terminated) = ((s₀.task w).state == .terminated) := by
    intro w
    rw [(h.task w).state]
    split
    · next hw => simpa [awake_state] using (h.waited w hw)
    · rfl
  unfold Eclair.exitStatus
  rw [hget, h.taskres]
  simp only [hst]

/-- **One wake-up**: `t` leaves its list for the end of the ready list. -/
theorem wake (h : Woke s₀ xs now v ws s) (h₀ : SchedInv s₀ xs) (ht : t ∈ xs l) (hw : t ∉ ws)
    (hl : l ≠ .ready) (hl' : l ≠ .terminated) (hf : InPlace f)
    (hk : ∀ k, SameTask k (s₀.task t) → SameTask { f k with state := .ready } (awake s₀ now t)) :
    Woke s₀ xs now (g v) (ws ++ [t]) (taskUnblock t ((s.modVfs g).modTask t f)) := by
  have hm : t ∈ remaining xs ws l := by
    rw [remaining_of_ne hl]
    simp [ht, hw]
  obtain ⟨as, bs, hsplit⟩ := Queues.split hm
  have h1 := (h.ticking.modVfs g).modTask hf t
  have hst := (h1.mem hm).1
  have hs := requeue_sameButLinks .ready t ((s.modVfs g).modTask t f)
  rw [h1.taskUnblock_eq hm hl]
  refine ⟨?_, fun u => ?_, fun u hu => ?_, ?_, hs.taskActive.trans h.taskActive,
    hs.taskmap.trans h.taskmap, hs.taskres.trans h.taskres, hs.timens.trans h.timens, ?_⟩
  · rw [remaining_concat h₀.queues.lists.apart (h₀.queues.lists.isList l).nodup hl hsplit]
    exact h1.requeue hsplit hl _
  · refine (hs.task u).trans ?_
    by_cases hu : u = t
    · subst hu
      simpa using hk _ (h.of_not_mem hw)
    · simpa [modTask_task_of_ne _ _ _ _ hu, hu] using h.task u
  · rcases List.mem_append.mp hu with hu | hu
    · exact h.waited u hu
    · rw [List.mem_singleton.mp hu, (h₀.queues.mem l t ht).1]
      exact hl'
  · dsimp only
    rw [modTask_postponed, modVfs_postponed, h.postponed, remaining_ready]
    by_cases hx : xs .ready = [] <;> by_cases hws : ws = [] <;> simp [hx, hws]
  · exact hs.vfs.trans (congrArg g h.vfs)

/-- A wake-up that changes nothing else in the task. -/
theorem wake_id (h : Woke s₀ xs now v ws s) (h₀ : SchedInv s₀ xs) (ht : t ∈ xs l) (hw : t ∉ ws)
    (hl : l ≠ .ready) (hl' : l ≠ .terminated) (hs : l ≠ .sleeping) (hp : l ≠ .pwait)
    (g : Vfs → Vfs) : Woke s₀ xs now (g v) (ws ++ [t]) (taskUnblock t (s.modVfs g)) := by
  have hst := (h₀.queues.mem _ t ht).1
  have hk := h.wake (g := g) (f := id) h₀ ht hw hl hl' (fun _ => ⟨rfl, rfl, rfl, rfl⟩) ?_
  · rwa [modTask_id] at hk
  · rintro k ⟨p, n, rfl⟩
    refine ⟨p, n, ?_⟩
    cases l <;> simp_all [awake]

/-! ## the loops -/

/-- **A loop of the interrupt** over a list of which nothing has been woken:
`V` and `W` are the file systems and the wake-ups after a part of the list. -/
theorem wakeAll {body : TaskPtr → Kernel → Kernel} {V : List TaskPtr → Vfs}
    {W : List TaskPtr → List TaskPtr} (h : Woke s₀ xs now (V []) (ws ++ W []) s) (hl : l ≠ .ready)
    (hws : ∀ t ∈ ws ++ W [], t ∉ xs l)
    (hbody : ∀ s xs as cur bs, Ticking s xs → True → xs l = as ++ cur :: bs →
      True ∧ ∃ xs' as', Ticking (body cur s) xs' ∧ xs' l = as' ++ bs)
    (hstep : ∀ as t s, t ∈ xs l → t ∉ as → Woke s₀ xs now (V as) (ws ++ W as) s →
      Woke s₀ xs now (V (as ++ [t])) (ws ++ W (as ++ [t])) (body t s))
    (hnd : (xs l).Nodup) :
    Woke s₀ xs now (V (xs l)) (ws ++ W (xs l)) (wakeAll l body s) := by
  have hx : remaining xs (ws ++ W []) l = xs l := by
    rw [remaining_of_ne hl, List.filter_eq_self]
    exact fun t ht => by simpa using fun hw => hws t hw ht
  rw [(Ticking.wakeAll hbody h.ticking trivial).1, hx]
  refine Loop.foldl_prefix (I := fun as s => Woke s₀ xs now (V as) (ws ++ W as) s) h ?_
  intro as t bs s hxs hs
  rw [hxs] at hnd
  exact hstep as t s (by simp [hxs]) (fun hta => by grind) hs

/-- A task that a loop does not wake. -/
theorem skip (h : Woke s₀ xs now v (ws ++ as.filter p) s) (ht : p t = false) :
    Woke s₀ xs now v (ws ++ (as ++ [t]).filter p) s := by
  rwa [List.filter_append, List.filter_cons_of_neg (by simp [ht]), List.filter_nil, List.append_nil]

/-- A task that a loop wakes. -/
theorem take (h : Woke s₀ xs now v (ws ++ as.filter p ++ [t]) s) (ht : p t = true) :
    Woke s₀ xs now v (ws ++ (as ++ [t]).filter p) s := by
  rwa [List.filter_append, List.filter_cons_of_pos ht, List.filter_nil, ← List.append_assoc]

theorem not_mem_concat (hws : ∀ t ∈ ws, t ∉ xs l) (ht : t ∈ xs l) (hta : t ∉ as) :
    t ∉ ws ++ as.filter p := by
  simp only [List.mem_append, List.mem_filter, not_or, not_and]
  exact ⟨fun hw => hws t hw ht, fun h => absurd h hta⟩

theorem wakeSleeper (h : Woke s₀ xs now v (ws ++ as.filter (due s₀ now)) s) (h₀ : SchedInv s₀ xs)
    (hws : ∀ t ∈ ws, t ∉ xs .sleeping) (ht : t ∈ xs .sleeping) (hta : t ∉ as) :
    Woke s₀ xs now v (ws ++ (as ++ [t]).filter (due s₀ now)) (wakeSleeper t s) := by
  have hnot : t ∉ ws ++ as.filter (due s₀ now) := not_mem_concat hws ht hta
  have hst := (h₀.queues.mem _ t ht).1
  have hdue : ((s.task t).waketime ≤ s.timens) = (due s₀ now t = true) := by
    rw [h.timens, due, decide_eq_true_eq, (h.of_not_mem hnot).waketime]
  unfold Eclair.wakeSleeper
  split
  · next hd =>
      refine take ?_ (hdue ▸ hd)
      refine h.wake (g := id) h₀ ht hnot (by decide) (by decide) (fun _ => ⟨rfl, rfl, rfl, rfl⟩) ?_
      rintro k ⟨p, n, rfl⟩
      exact ⟨p, n, by simp [awake, hst]⟩
  · next hd => exact h.skip (by simpa [hdue] using hd)

theorem wakePaused (h : Woke s₀ xs now (handOut s₀ as) (ws ++ as.filter (granted s₀ as)) s)
    (h₀ : SchedInv s₀ xs) (hws : ∀ t ∈ ws, t ∉ xs .paused) (ht : t ∈ xs .paused) (hta : t ∉ as) :
    Woke s₀ xs now (handOut s₀ (as ++ [t]))
      (ws ++ (as ++ [t]).filter (granted s₀ (as ++ [t]))) (wakePaused t s) := by
  have hnot : t ∉ ws ++ as.filter (granted s₀ as) := not_mem_concat hws ht hta
  have hres : (s.task t).res = (s₀.task t).res := (h.of_not_mem hnot).res
  have hgr := granted_concat (s := s₀) hta
  have hstay : (∀ n, (s₀.task t).res = some n → fsIsheld n (handOut s₀ as) = true) →
      Woke s₀ xs now (handOut s₀ (as ++ [t]))
        (ws ++ (as ++ [t]).filter (granted s₀ (as ++ [t]))) s := by
    intro hheld
    have hno : granted s₀ (as ++ [t]) t = false := by
      rw [Bool.eq_false_iff, ne_eq, hgr]
      rintro ⟨n, hr, hn⟩
      simp [hheld n hr] at hn
    rwa [handOut_skip hheld, filter_granted_concat, hno, if_neg (by simp), List.append_nil]
  unfold Eclair.wakePaused
  rw [hres]
  cases hr : (s₀.task t).res with
  | none => exact hstay fun n he => by simp [hr] at he
  | some n =>
      dsimp only
      rw [h.vfs]
      split
      · next hn =>
          refine hstay fun m he => ?_
          rw [hr] at he
          exact Option.some.inj he ▸ hn
      · next hn =>
          have hn' : fsIsheld n (handOut s₀ as) = false := by simpa using hn
          rw [handOut_grant hr hn', filter_granted_concat, if_pos (hgr.mpr ⟨n, hr, hn'⟩),
            ← List.append_assoc]
          exact h.wake_id h₀ ht hnot (by decide) (by decide) (by decide) (by decide) (grant t n)

theorem wakeSignaled (h : Woke s₀ xs now v (ws ++ as) s) (h₀ : SchedInv s₀ xs)
    (hws : ∀ t ∈ ws, t ∉ xs .signaled) (ht : t ∈ xs .signaled) (hta : t ∉ as) :
    Woke s₀ xs now v (ws ++ (as ++ [t])) (taskUnblock t s) := by
  have hnot : t ∉ ws ++ as := by
    simp only [List.mem_append, not_or]
    exact ⟨fun hw => hws t hw ht, hta⟩
  rw [← List.append_assoc]
  exact h.wake_id h₀ ht hnot (by decide) (by decide) (by decide) (by decide) id

theorem wakePwait (h : Woke s₀ xs now v (ws ++ as.filter fun t => (waitStatus s₀ now t).isSome) s)
    (h₀ : SchedInv s₀ xs) (hws : ∀ t ∈ ws, t ∉ xs .pwait) (ht : t ∈ xs .pwait) (hta : t ∉ as) :
    Woke s₀ xs now v (ws ++ (as ++ [t]).filter fun t => (waitStatus s₀ now t).isSome)
      (wakePwait t s) := by
  have hnot : t ∉ ws ++ as.filter fun t => (waitStatus s₀ now t).isSome :=
    not_mem_concat hws ht hta
  have hst := (h₀.queues.mem _ t ht).1
  have hsame := h.of_not_mem hnot
  have htime : ((s.task t).waketime ≠ 0 ∧ (s.task t).waketime ≤ s.timens) =
      (timedOut s₀ now t = true) := by
    rw [h.timens, timedOut, decide_eq_true_eq, hsame.waketime]
  unfold Eclair.wakePwait
  rw [h.exitStatus, hsame.pwait]
  split
  · next hd =>
      rw [htime] at hd
      refine take ?_ (by simp [waitStatus, hd])
      refine h.wake (g := id) h₀ ht hnot (by decide) (by decide) (fun _ => ⟨rfl, rfl, rfl, rfl⟩) ?_
      rintro k ⟨p, n, rfl⟩
      exact ⟨p, n, by simp [awake, hst, hd, waitStatus]⟩
  · next hd =>
      rw [htime] at hd
      have hws : waitStatus s₀ now t = Eclair.exitStatus (s₀.task t).pwait s₀ := if_neg hd
      cases he : Eclair.exitStatus (s₀.task t).pwait s₀ with
      | none => exact h.skip (by simp [hws, he])
      | some st =>
          refine take ?_ (by simp [hws, he])
          refine h.wake (g := id) h₀ ht hnot (by decide) (by decide)
            (fun _ => ⟨rfl, rfl, rfl, rfl⟩) ?_
          rintro k ⟨p, n, rfl⟩
          exact ⟨p, n, by simp [awake, hst, hd, hws, he]⟩

/-- **The four loops** wake the tasks of `woken` and nobody else. -/
theorem loops (h₀ : SchedInv s₀ xs) :
    Woke s₀ xs now (handOut s₀ (xs .paused)) (woken s₀ xs now)
      (Eclair.wakeAll .pwait Eclair.wakePwait <| Eclair.wakeAll .signaled taskUnblock <|
        Eclair.wakeAll .paused Eclair.wakePaused <| Eclair.wakeAll .sleeping Eclair.wakeSleeper
          { taskLockpost s₀ with timens := now }) := by
  have hx := h₀.queues.lists
  have hnd : ∀ l, (xs l).Nodup := fun l => (hx.isList l).nodup
  have hne : ∀ {l l' t}, l ≠ l' → t ∈ xs l → t ∉ xs l' := fun hl h h' => hl (hx.apart _ _ _ h h')
  have h1 := wakeAll (V := fun _ => s₀.vfs) (W := List.filter (due s₀ now))
    (show Woke s₀ xs now s₀.vfs ([] ++ [].filter (due s₀ now)) _ from start h₀) (l := .sleeping)
    (by decide) (by simp) (fun _ _ _ _ _ => wakeRule_true.wakeSleeper)
    (fun as t s ht hta h => h.wakeSleeper h₀ (by simp) ht hta) (hnd _)
  have hw1 : ∀ l, l ≠ .sleeping → ∀ t ∈ (xs .sleeping).filter (due s₀ now), t ∉ xs l :=
    fun l hl t ht => hne (Ne.symm hl) (List.mem_of_mem_filter ht)
  have h2 := wakeAll (V := handOut s₀) (W := fun as => as.filter (granted s₀ as))
    (by simpa using h1) (l := .paused) (by decide) (by simpa using hw1 .paused (by decide))
    (fun _ _ _ _ _ => wakeRule_true.wakePaused)
    (fun as t s ht hta h => h.wakePaused h₀ (hw1 _ (by decide)) ht hta) (hnd _)
  have hw2 : ∀ l, l ≠ .sleeping → l ≠ .paused →
      ∀ t ∈ (xs .sleeping).filter (due s₀ now) ++ (xs .paused).filter (granted s₀ (xs .paused)),
        t ∉ xs l := fun l hl hl' t ht => (List.mem_append.mp ht).elim (hw1 l hl t) fun ht =>
    hne (Ne.symm hl') (List.mem_of_mem_filter ht)
  have h3 := wakeAll (V := fun _ => handOut s₀ (xs .paused)) (W := fun as => as)
    (by simpa using h2) (l := .signaled) (by decide)
    (by simpa using hw2 .signaled (by decide) (by decide))
    (fun _ _ _ _ _ => wakeRule_true.wakeSignaled)
    (fun as t s ht hta h => h.wakeSignaled h₀ (hw2 _ (by decide) (by decide)) ht hta) (hnd _)
  have hw3 : ∀ t ∈ (xs .sleeping).filter (due s₀ now) ++
      (xs .paused).filter (granted s₀ (xs .paused)) ++ xs .signaled, t ∉ xs .pwait :=
    fun t ht => (List.mem_append.mp ht).elim (hw2 _ (by decide) (by decide) t)
      (hne (by decide))
  exact wakeAll (V := fun _ => handOut s₀ (xs .paused))
    (W := List.filter fun t => (waitStatus s₀ now t).isSome) (by simpa using h3) (l := .pwait)
    (by decide) (by simpa using hw3) (fun _ _ _ _ _ => wakeRule_true.wakePwait)
    (fun as t s ht hta h => h.wakePwait h₀ hw3 ht hta) (hnd _)

end Woke

/-! ## the end of the interrupt -/

theorem endSlice_eq (h : s.nlockpost ≠ 0) :
    ∃ f, InPlace f ∧ (∀ k, SameFields (f k) k) ∧
      endSlice s =
        { s.modActive f with postponed := s.postponed || decide (s.active.nticks ≤ 1) } := by
  have hlater : ∀ s : Kernel, s.nlockpost ≠ 0 → taskSchedule s = { s with postponed := true } :=
    fun s h => by rw [taskSchedule, if_pos h]
  by_cases h0 : s.active.nticks = 0
  · refine ⟨id, fun _ => ⟨rfl, rfl, rfl, rfl⟩, SameFields.refl, ?_⟩
    rw [endSlice, if_pos h0]
    dsimp only
    rw [if_pos h0, hlater s h, modActive, modTask_id, h0]
    simp
  · refine ⟨fun k => { k with nticks := k.nticks - 1 }, fun _ => ⟨rfl, rfl, rfl, rfl⟩,
      fun _ => ⟨_, _, _, _, rfl⟩, ?_⟩
    rw [endSlice, if_neg h0]
    dsimp only
    have hk : (s.modActive fun k => { k with nticks := k.nticks - 1 }).active.nticks =
        s.active.nticks - 1 := by simp [active]
    have hl := hlater (s.modActive fun k => { k with nticks := k.nticks - 1 }) h
    rw [hk]
    split
    · next h1 => rw [hl, decide_eq_true (by omega), Bool.or_true]
    · next h1 =>
        rw [decide_eq_false (by omega), Bool.or_false]
        rfl

/-- The running task and the ready list after the task switch that is due
when the time slice is over or no task was ready: the first ready task runs
and the interrupted one becomes the last ready one. -/
def afterSwitch (s : Kernel) (due : Prop) [Decidable due] : List TaskPtr → TaskPtr × List TaskPtr
  | [] => (s.taskActive, [])
  | t :: ts => if due then (t, ts ++ [s.taskActive]) else (s.taskActive, t :: ts)

/-- What one interrupt makes of the state `s`, whose lists are `xs`. -/
structure Wakes (s : Kernel) (xs : TaskState → List TaskPtr) (s' : Kernel)
    (xs' : TaskState → List TaskPtr) : Prop where
  sched : SchedInv s' xs'
  /-- every list but the ready one loses the woken tasks -/
  lists : ∀ l, l ≠ .ready →
    xs' l = (xs l).filter fun t => t ∉ woken s xs (u64 (s.timens + TICK_NS))
  /-- the ready list gets them at its end, before the task switch -/
  ready : (s'.taskActive, xs' .ready) = afterSwitch s (s.active.nticks ≤ 1 ∨ xs .ready = [])
    (xs .ready ++ woken s xs (u64 (s.timens + TICK_NS)))
  /-- apart from states and time slices, only the woken tasks change -/
  task : ∀ t, SameFields (s'.task t)
    (if t ∈ woken s xs (u64 (s.timens + TICK_NS)) then awake s (u64 (s.timens + TICK_NS)) t
      else s.task t)
  /-- the nodes that were granted are held -/
  vfs : s'.vfs = handOut s (xs .paused)
  taskmap : s'.taskmap = s.taskmap
  taskres : s'.taskres = s.taskres
  timens : s'.timens = u64 (s.timens + TICK_NS)

/-- With the task switches unlocked again, a postponed one is made up for. -/
theorem taskUnlockpost_eq (h : s.nlockpost = 1) :
    taskUnlockpost s =
      if s.postponed then taskSchedule { s with nlockpost := 0, postponed := false }
      else { s with nlockpost := 0, postponed := false } := by
  unfold taskUnlockpost
  simp only [h, Nat.sub_self, true_and]
  cases s.postponed <;> rfl

/-- The state at the end of the interrupt, before the task switch. -/
def unlocked (f : Task → Task) (s : Kernel) : Kernel :=
  { s.modActive f with nlockpost := 0, postponed := false }

theorem endSlice_unlock (h : s.nlockpost = 1) :
    ∃ f, InPlace f ∧ (∀ k, SameFields (f k) k) ∧
      taskUnlockpost (endSlice s) =
        if s.postponed || decide (s.active.nticks ≤ 1) then taskSchedule (unlocked f s)
        else unlocked f s := by
  obtain ⟨f, hf, hk, he⟩ := endSlice_eq (s := s) (by simp [h])
  refine ⟨f, hf, hk, ?_⟩
  rw [he]
  exact taskUnlockpost_eq h

theorem Woke.unlocked {s₀ : Kernel} {f : Task → Task} (h : Woke s₀ xs now v ws s)
    (hf : InPlace f) : SchedInv (unlocked f s) (remaining xs ws) := by
  have ht := h.ticking.modTask hf s.taskActive
  exact ⟨ht.queues.congr rfl rfl (fun _ _ => ⟨rfl, rfl⟩) fun _ => rfl, ht.running, rfl, rfl⟩

theorem Woke.active (h : Woke s xs now v ws s') (h₀ : SchedInv s xs)
    (hws : ∀ t ∈ ws, ∃ l, t ∈ xs l) : s'.active.nticks = s.active.nticks := by
  have ha : s.taskActive ∉ ws := fun hm => by
    obtain ⟨l, hl⟩ := hws _ hm
    simpa using (h₀.queues.mem l _ hl).2.2
  rw [Kernel.active, h.taskActive]
  obtain ⟨p, n, he⟩ := h.of_not_mem ha
  rw [he]

theorem woken_listed (ht : t ∈ woken s xs now) : ∃ l, t ∈ xs l := by
  simp only [woken, List.mem_append, List.mem_filter] at ht
  obtain ((h | h) | h) | h := ht
  · exact ⟨_, h.1⟩
  · exact ⟨_, h.1⟩
  · exact ⟨_, h⟩
  · exact ⟨_, h.1⟩

theorem taskSchedule_timens (s : Kernel) : (taskSchedule s).timens = s.timens := by
  unfold taskSchedule
  split
  · rfl
  · split
    · rfl
    · unfold taskSwitch preemptActive takeReady
      split <;> split <;> simp

/-- The wake-ups, followed by moves between the running task and the ready
list. -/
theorem Woke.wakes {s₄ : Kernel} {f : Task → Task} {xs' : TaskState → List TaskPtr}
    (h : Woke s xs (u64 (s.timens + TICK_NS)) (handOut s (xs .paused))
      (woken s xs (u64 (s.timens + TICK_NS))) s₄)
    (hf : ∀ k, SameFields (f k) k) (hs : Moved s' (Eclair.unlocked f s₄))
    (ht : s'.timens = s₄.timens) (hinv : SchedInv s' xs')
    (hl : ∀ l, l ≠ .ready → xs' l = remaining xs (woken s xs (u64 (s.timens + TICK_NS))) l)
    (hr : (s'.taskActive, xs' .ready) = afterSwitch s (s.active.nticks ≤ 1 ∨ xs .ready = [])
      (xs .ready ++ woken s xs (u64 (s.timens + TICK_NS)))) : Wakes s xs s' xs' := by
  have hm : Moved s' (s₄.modActive f) := hs.trans ⟨fun _ => SameFields.refl _, rfl, rfl, rfl⟩
  have hm := hm.trans (Moved.modTask s₄ s₄.taskActive hf)
  refine ⟨hinv, fun l hne => (hl l hne).trans (remaining_of_ne hne), hr, fun t => ?_,
    hm.vfs.trans h.vfs, hm.taskmap.trans h.taskmap, hm.taskres.trans h.taskres,
    ht.trans h.timens⟩
  obtain ⟨p, n, he⟩ := h.task t
  exact (hm.task t).trans ⟨p, n, _, _, he⟩

/-- **The timer interrupt** wakes exactly the tasks of `woken`, in place and
order, and then makes up for the task switch that is due. -/
theorem taskIrq_wakes (h : SchedInv s xs) : ∃ xs', Wakes s xs (taskIrq s) xs' := by
  have hw : Woke s xs (u64 (s.timens + TICK_NS)) _ _ _ := Woke.loops h
  unfold taskIrq
  dsimp only
  have hnow : (taskLockpost s).timens = s.timens := rfl
  rw [hnow]
  generalize wakeAll .pwait wakePwait _ = s₄ at hw ⊢
  obtain ⟨f, hf, hsame, he⟩ := endSlice_unlock hw.ticking.locked
  have hinv := hw.unlocked hf
  have hready : remaining xs (woken s xs (u64 (s.timens + TICK_NS))) .ready = _ := remaining_ready
  have hact : (unlocked f s₄).taskActive = s.taskActive := hw.taskActive
  rw [he, hw.postponed, hw.active h fun _ => woken_listed]
  cases hr : xs .ready ++ woken s xs (u64 (s.timens + TICK_NS)) with
  | nil =>
      have hstay := hinv.taskSchedule_nil (hready.trans hr)
      rw [hstay, ite_self]
      refine ⟨_, hw.wakes hsame (Moved.refl _) rfl hinv (fun _ _ => rfl) ?_⟩
      rw [hready, hact, hr, afterSwitch]
  | cons t ts =>
      obtain ⟨hinv', hrun⟩ := hinv.taskSchedule_cons (hready.trans hr)
      split
      · next hdue =>
          refine ⟨_, hw.wakes hsame (Moved.taskSchedule _) (taskSchedule_timens _) hinv'
            (fun l hl => Function.update_of_ne hl _ _) ?_⟩
          rw [Function.update_self, hrun, hact, hr, afterSwitch, if_pos]
          grind
      · next hdue =>
          refine ⟨_, hw.wakes hsame (Moved.refl _) rfl hinv (fun _ _ => rfl) ?_⟩
          rw [hready, hact, hr, afterSwitch, if_neg]
          grind

/-- A sleeper is due, two tasks are paused for one node, and one waits for a
task that does not exist: the sleeper runs next, the second paused task stays. -/
theorem taskIrq_wakes_example :
    ∃ s xs xs', Wakes s xs (taskIrq s) xs' ∧ (taskIrq s).taskActive = 1 ∧
      ((taskIrq s).task 2).state = .ready ∧ ((taskIrq s).task 3).state = .paused ∧
      ((taskIrq s).task 4).wstatus = ECW_EXITED := by
  have h : (System.run (fun s (e : SchedEvent) => if e.sound s then e.next s else none)
      (taskInit 0 default)
      [.new 1, .new 2, .new 3, .new 4, .schedule, .block .sleeping, .write { res := some 7 },
        .block .paused, .write { res := some 7 }, .block .paused, .write { pwait := 9 },
        .block .pwait]).any (fun s => (taskIrq s).taskActive == 1 &&
          ((taskIrq s).task 2).state == .ready && ((taskIrq s).task 3).state == .paused &&
          ((taskIrq s).task 4).wstatus == ECW_EXITED) = true := by decide +kernel
  obtain ⟨s, hs, hp⟩ := (Option.any_eq_true _ _).mp h
  simp only [Bool.and_eq_true, beq_iff_eq, and_assoc] at hp
  obtain ⟨xs, hinv⟩ := schedInv_of_reachable
    (reachable_taskInit.steps (System.steps_of_run_if SchedEvent.sound (fun _ _ h => h) hs))
  obtain ⟨xs', hw⟩ := taskIrq_wakes hinv
  exact ⟨s, xs, xs', hw, hp⟩

/-- **The end of the time slice** takes the first ready task off its list. -/
theorem not_taskIrq_wakesOnly :
    ¬ ∀ s xs, SchedInv s xs → ∃ xs', SchedInv (taskIrq s) xs' ∧
      ∀ l, xs' l = remaining xs (woken s xs (u64 (s.timens + TICK_NS))) l := by
  intro hall
  have h : (System.run (fun s (e : SchedEvent) => if e.sound s then e.next s else none)
      (taskInit 0 default) [.new 1, .irq, .irq, .irq, .irq]).any (fun s =>
        (s.lists .ready).first == some 1 && (taskIrq s).taskActive == 1) = true := by
    decide +kernel
  obtain ⟨s, hs, hp⟩ := (Option.any_eq_true _ _).mp h
  simp only [Bool.and_eq_true, beq_iff_eq] at hp
  obtain ⟨xs, hinv⟩ := schedInv_of_reachable
    (reachable_taskInit.steps (System.steps_of_run_if SchedEvent.sound (fun _ _ h => h) hs))
  obtain ⟨xs', hinv', hl⟩ := hall s xs hinv
  have hmem : 1 ∈ xs' .ready := by
    rw [hl, remaining_ready]
    have hf := (hinv.queues.lists.isList .ready).first_eq
    rw [hp.1] at hf
    exact List.mem_append_left _ (List.mem_of_mem_head? hf.symm)
  exact (hinv'.queues.mem _ _ hmem).2.2 (by simp [hp.2])

end Eclair
