import Eclair.Task.Wait

/-!
# Eclair.Task.WaitRuns

Waiting for processes over whole runs.

The history ties the tables of the kernel to processes: a slot of the task
map belongs to the process that got its pid last, and `taskres` holds the
exit status of that process once it has exited (`WaitInv`).  A caller of
`task_pwait` means the process that has the pid as long as nobody else gets
it (`AtPc`).
-/

namespace Eclair

open Kernel

variable {s s' : WaitState} {k k' k₀ : Kernel} {xs : TaskState → List TaskPtr}
variable {t u : TaskPtr} {pid : Int} {target : Option Nat}

/-! ## the fields that `task_pwait` and `task_terminate` use -/

structure SameWait (a b : Task) : Prop where
  id : a.id = b.id
  pwait : a.pwait = b.pwait
  wstatus : a.wstatus = b.wstatus
  loadRes : a.loadRes = b.loadRes

theorem SameWait.refl (a : Task) : SameWait a a := ⟨rfl, rfl, rfl, rfl⟩

theorem SameWait.trans {a b c : Task} (h : SameWait a b) (h' : SameWait b c) : SameWait a c :=
  ⟨h.id.trans h'.id, h.pwait.trans h'.pwait, h.wstatus.trans h'.wstatus,
    h.loadRes.trans h'.loadRes⟩

theorem SameFields.sameWait {a b : Task} (h : SameFields a b) : SameWait a b := by
  obtain ⟨p, n, st, q, rfl⟩ := h
  exact ⟨rfl, rfl, rfl, rfl⟩

theorem SameRest.wait {a b : Task} (h : SameRest a b) :
    a.id = b.id ∧ a.pwait = b.pwait ∧ a.loadRes = b.loadRes := by
  obtain ⟨p, n, st, q, w, ws, rfl⟩ := h
  exact ⟨rfl, rfl, rfl⟩

theorem sameWait_modTask {f : Task → Task} (hf : ∀ k, SameWait (f k) k) (t u : TaskPtr) :
    SameWait ((k.modTask t f).task u) (k.task u) := by
  rw [modTask_task]
  split
  · exact hf _
  · exact SameWait.refl _

theorem sameWait_taskFsCloseLocked (fd : Nat) (u : TaskPtr) :
    SameWait ((taskFsCloseLocked fd k).task u) (k.task u) := by
  unfold taskFsCloseLocked
  split
  · exact SameWait.refl _
  · have hstale : SameWait ((k.modActive fun x => { x with stale := false }).task u) (k.task u) := by
      refine sameWait_modTask (fun _ => ?_) _ u
      exact ⟨rfl, rfl, rfl, rfl⟩
    refine (sameWait_modTask (fun _ => ?_) _ u).trans hstale
    exact ⟨rfl, rfl, rfl, rfl⟩

/-- Closing the files changes neither. -/
theorem taskFree_wait (k : Kernel) :
    (∀ u, SameWait ((taskFree k).task u) (k.task u)) ∧ (taskFree k).taskres = k.taskres := by
  unfold taskFree
  generalize List.range TASK_MAXFILES = fds
  induction fds generalizing k with
  | nil => exact ⟨fun u => SameWait.refl _, rfl⟩
  | cons fd fds ih =>
      obtain ⟨h1, h2⟩ := ih (taskFsCloseLocked fd k)
      refine ⟨fun u => (h1 u).trans (sameWait_taskFsCloseLocked fd u), h2.trans ?_⟩
      unfold taskFsCloseLocked
      split <;> rfl

/-! ## the timer interrupt -/

theorem exitStatus_eq (pid : Int) (k : Kernel) :
    exitStatus pid k = if isGone pid k then some (resultOf pid k ||| ECW_EXITED) else none := by
  unfold exitStatus isGone resultOf
  cases taskGet pid k <;> rfl

theorem isGone_iff : isGone pid k = true ↔
    ∀ t, taskGet pid k = some t → k.waits t = some .terminated := by
  unfold isGone
  cases taskGet pid k with
  | none => simp
  | some t =>
      simp only [beq_iff_eq, Option.some.injEq, forall_eq']
      exact ⟨fun h => waits_of_blocked h (by decide) (by decide), waits_eq_some⟩

/-- What the interrupt may have done to the state `k₀` so far: it has woken
tasks, and tasks that waited for a process may have been told so. -/
structure Ticked (k₀ k : Kernel) : Prop where
  rest : ∀ u, SameRest (k.task u) (k₀.task u)
  taskmap : k.taskmap = k₀.taskmap
  taskres : k.taskres = k₀.taskres
  waits : ∀ u, k.waits u = k₀.waits u ∨ k.waits u = none ∧ k₀.waits u ≠ some .terminated
  status : ∀ u, (k.task u).wstatus = (k₀.task u).wstatus ∨
    k₀.waits u = some .pwait ∧ k.waits u = none ∧
      ((k.task u).wstatus = ECW_TIMEOUT ∨
        exitStatus (k₀.task u).pwait k₀ = some (k.task u).wstatus)

theorem Ticked.refl (k : Kernel) : Ticked k k :=
  ⟨fun _ => SameRest.refl _, rfl, rfl, fun _ => .inl rfl, fun _ => .inl rfl⟩

theorem Ticked.terminated (h : Ticked k₀ k) (u : TaskPtr) :
    k.waits u = some .terminated ↔ k₀.waits u = some .terminated := by
  rcases h.waits u with hu | ⟨hu, hne⟩
  · rw [hu]
  · simp [hu, hne]

/-- The interrupt does not change who has exited. -/
theorem Ticked.exitStatus (h : Ticked k₀ k) (pid : Int) :
    exitStatus pid k = exitStatus pid k₀ := by
  have hget : taskGet pid k = taskGet pid k₀ := by simp only [taskGet, h.taskmap]
  have hgone : isGone pid k = isGone pid k₀ := by
    rw [Bool.eq_iff_iff, isGone_iff, isGone_iff, hget]
    exact forall₂_congr fun t _ => h.terminated t
  rw [exitStatus_eq, exitStatus_eq, hgone]
  simp only [resultOf, h.taskres]

theorem Ticked.keep (h : Ticked k₀ k) (hm : Moved k' k) (hw : k'.waits = k.waits) :
    Ticked k₀ k' where
  rest u := (hm.task u).sameRest.trans (h.rest u)
  taskmap := hm.taskmap.trans h.taskmap
  taskres := hm.taskres.trans h.taskres
  waits u := by rw [hw]; exact h.waits u
  status u := by
    rw [hw, (hm.task u).sameWait.wstatus]
    exact h.status u

/-- A task is woken. -/
theorem Ticked.wake {st : TaskState} {f : Task → Task} (h : Ticked k₀ k)
    (ht : k.waits t = some st) (hst : st ≠ .terminated) (hf : Waking st t f k)
    (htask : ∀ u, SameFields (k'.task u) ((k.modTask t f).task u)) (hm : k'.taskmap = k.taskmap)
    (hr : k'.taskres = k.taskres) (hw : k'.waits = Function.update k.waits t none) :
    Ticked k₀ k' := by
  have h0 : k₀.waits t = some st := by
    rcases h.waits t with he | ⟨he, -⟩
    · rw [← he, ht]
    · simp [he] at ht
  have hws : (k.task t).wstatus = (k₀.task t).wstatus := by
    rcases h.status t with he | ⟨-, he, -⟩
    · exact he
    · simp [he] at ht
  refine ⟨fun u => ((htask u).sameRest.trans ?_).trans (h.rest u), hm.trans h.taskmap,
    hr.trans h.taskres, fun u => ?_, fun u => ?_⟩
  · rw [modTask_task]
    split
    · exact hf.rest _
    · exact SameRest.refl _
  · rw [hw]
    by_cases hu : u = t
    · subst hu
      exact .inr ⟨Function.update_self .., by simpa [h0] using hst⟩
    · rw [Function.update_of_ne hu]
      exact h.waits u
  · rw [(htask u).sameWait.wstatus, hw]
    by_cases hu : u = t
    · subst hu
      rw [modTask_task_self, Function.update_self]
      rcases hf.status with he | ⟨rfl, he⟩
      · exact .inl (he.trans hws)
      · refine .inr ⟨h0, rfl, he.imp_right fun he => ?_⟩
        rw [← h.exitStatus, ← (h.rest u).wait.2.1, he]
    · rw [modTask_task_of_ne _ _ _ _ hu, Function.update_of_ne hu]
      exact h.status u

theorem wakeRule_ticked (k₀ : Kernel) : WakeRule (Ticked k₀) where
  keep _ _ h hm hw := h.keep hm hw
  wake _ _ _ _ _ h _ hst _ ht hf hm hw := h.wake hst ht hf hm.task hm.taskmap hm.taskres hw
  grant k k' t n h _ hst _ _ hm hw := by
    have hid : (k.modTask t fun x => x).task = k.task := by
      funext u
      rw [modTask_task]
      split <;> rfl
    refine h.wake (f := fun x => x) hst (by decide) ⟨SameRest.refl, .inl rfl⟩ ?_ hm.taskmap
      hm.taskres hw
    rw [hid]
    exact hm.task

/-! ## the invariant -/

/-- An exited status is the one of the process that was meant. -/
def Told (s : WaitState) (target : Option Nat) (st : Nat) : Prop :=
  isExited st = true → ∃ c, s.codeOf target = some c ∧ st = c ||| ECW_EXITED

theorem told_zero : Told s target 0 := by simp [Told, isExited]

theorem told_timeout : Told s target ECW_TIMEOUT := by simp [Told, isExited, ECW_TIMEOUT, ECW_EXITED]

/-- What holds of a task at its point. -/
def AtPc (s : WaitState) (t : TaskPtr) : Prop :=
  match s.pc t with
  | .elsewhere => True
  | .gone pid target => s.codeOf target = some (resultOf pid s.k)
  | .armed pid target | .cleared pid target =>
      (s.k.task t).pwait = pid ∧ (s.k.task t).wstatus = 0 ∧ s.ownerOf pid = target ∧
        s.k.waits t ≠ some .pwait
  | .waiting pid target =>
      (s.k.task t).pwait = pid ∧ Told s target (s.k.task t).wstatus ∧
        (s.k.waits t = some .pwait → (s.k.task t).wstatus = 0 ∧ s.ownerOf pid = target)
  | .exiting => s.k.taskres (s.k.task t).id = ((s.k.task t).loadRes % 256).toNat

/-- The invariant between steps. -/
structure WaitInv (s : WaitState) : Prop where
  sched : ∃ xs, SchedInv s.k xs
  /-- the idle task is there and waits for nothing -/
  idle : ∃ t, s.k.taskmap 0 = some t ∧ s.k.waits t = none
  owners : ∀ i g, s.owner i = some g → g < s.born
  codes : ∀ g c, s.code g = some c → g < s.born
  owner_inj : ∀ i j g, s.owner i = some g → s.owner j = some g → i = j
  /-- a slot of the task map belongs to the last process that got its pid -/
  slot : ∀ i t, s.k.taskmap i = some t → ∃ g, s.owner i = some g ∧
    s.code g = if s.pc t = .exiting then some (s.k.taskres i) else none
  /-- a free slot holds the exit status of its last process -/
  free : ∀ i, s.k.taskmap i = none → s.codeOf (s.owner i) = some (s.k.taskres i)
  dead : ∀ i t, s.k.taskmap i = some t → s.k.waits t = some .terminated → s.pc t = .exiting
  atPc : ∀ i t, s.k.taskmap i = some t → AtPc s t
  honest : ∀ r ∈ s.returns, r.Honest s

theorem taskGet_eq_some : taskGet pid k = some t ↔
    ¬ (pid < 0 ∨ pid ≥ NTASKS) ∧ k.taskmap pid.toNat = some t := by
  unfold taskGet
  split <;> simp_all

/-- **The result code of a process that is gone** is the exit status of the
last process that had the pid. -/
theorem WaitInv.codeOf_of_gone (h : WaitInv s) (hg : isGone pid s.k = true) :
    s.codeOf (s.ownerOf pid) = some (resultOf pid s.k) := by
  rw [isGone_iff] at hg
  unfold WaitState.ownerOf resultOf
  split
  · rfl
  · next hp =>
      cases hm : s.k.taskmap pid.toNat with
      | none => exact h.free _ hm
      | some t =>
          obtain ⟨g, ho, hc⟩ := h.slot _ t hm
          have hw := hg t (taskGet_eq_some.mpr ⟨hp, hm⟩)
          rw [if_pos (h.dead _ t hm hw)] at hc
          rw [ho]
          exact hc

/-- What the interrupt tells a task that waits. -/
theorem WaitInv.told_exitStatus {st : Nat} (h : WaitInv s) (he : exitStatus pid s.k = some st) :
    Told s (s.ownerOf pid) st := by
  rw [exitStatus_eq] at he
  simp only [Option.ite_none_right_eq_some, Option.some.injEq] at he
  obtain ⟨hg, rfl⟩ := he
  exact fun _ => ⟨_, h.codeOf_of_gone hg, rfl⟩

/-- With the idle task there, another task that blocks finds a ready one. -/
theorem WaitInv.ready (h : WaitInv s) (hinv : SchedInv k xs) (hm : k.taskmap = s.k.taskmap)
    (hi : ∀ t, s.k.taskmap 0 = some t → k.waits t = none) (ha : k.active.id ≠ 0) :
    xs .ready ≠ [] := by
  obtain ⟨t, ht, -⟩ := h.idle
  have hlive : k.taskmap 0 = some t := by rw [hm, ht]
  have hid := (hinv.queues.map 0 t hlive).2.1
  have hne : t ≠ k.taskActive := by
    rintro rfl
    exact ha hid
  have hl := hinv.queues.listed hlive (by simpa using hne)
  have hw := hi t ht
  have hst : (k.task t).state = .ready ∨ (k.task t).state = .running := by
    unfold Kernel.waits at hw
    split at hw <;> simp_all
  rcases hst with hst | hst
  · rw [hst] at hl
    exact List.ne_nil_of_mem hl
  · rw [hst, hinv.queues.running] at hl
    simp at hl

/-! ## what a step keeps -/

/-- A task stays at its point if its own fields stay, no exit status is
forgotten, and the tables stay where it looks at them. -/
theorem AtPc.mono (h : AtPc s t) (hpc : s'.pc t = s.pc t)
    (hs : SameWait (s'.k.task t) (s.k.task t))
    (hc : ∀ w c, s.codeOf w = some c → s'.codeOf w = some c)
    (hr : ∀ i, s.reads i t = true → s'.k.taskres i = s.k.taskres i)
    (hx : s.pc t = .exiting → s'.k.taskres (s.k.task t).id = s.k.taskres (s.k.task t).id)
    (ho : ∀ i, s.awaits i t = true → s'.owner i = s.owner i)
    (hw : s'.k.waits t = some .pwait → s.k.waits t = some .pwait) : AtPc s' t := by
  have howner : ∀ pid : Int, (∀ i : Nat, pid = i → s.awaits i t = true) →
      s'.ownerOf pid = s.ownerOf pid := by
    intro pid hp
    unfold WaitState.ownerOf
    split
    · rfl
    · exact ho _ (hp _ (by omega))
  have htold : ∀ w st, Told s w st → Told s' w st := by
    intro w st ht he
    obtain ⟨c, h1, h2⟩ := ht he
    exact ⟨c, hc w c h1, h2⟩
  unfold AtPc at h ⊢
  rw [hpc]
  cases hp : s.pc t with
  | elsewhere => trivial
  | gone pid target =>
      rw [hp] at h
      dsimp only at h ⊢
      rw [hc _ _ h]
      unfold resultOf
      split
      · rfl
      · rw [hr _ (by simp only [WaitState.reads, hp, beq_iff_eq]; omega)]
  | armed pid target =>
      rw [hp] at h
      obtain ⟨h1, h2, h3, h4⟩ := h
      refine ⟨hs.pwait.trans h1, hs.wstatus.trans h2, (howner pid fun i hi => ?_).trans h3,
        fun he => h4 (hw he)⟩
      simp [WaitState.awaits, hp, hi]
  | cleared pid target =>
      rw [hp] at h
      obtain ⟨h1, h2, h3, h4⟩ := h
      refine ⟨hs.pwait.trans h1, hs.wstatus.trans h2, (howner pid fun i hi => ?_).trans h3,
        fun he => h4 (hw he)⟩
      simp [WaitState.awaits, hp, hi]
  | waiting pid target =>
      rw [hp] at h
      obtain ⟨h1, h2, h3⟩ := h
      refine ⟨hs.pwait.trans h1, hs.wstatus ▸ htold _ _ h2, fun he => ?_⟩
      obtain ⟨h4, h5⟩ := h3 (hw he)
      refine ⟨hs.wstatus.trans h4, (howner pid fun i hi => ?_).trans h5⟩
      simp [WaitState.awaits, hp, hi, waits_eq_some (hw he)]
  | exiting =>
      rw [hp] at h
      dsimp only at h ⊢
      rw [hs.id, hs.loadRes, hx hp, h]

/-- A change of the kernel alone. -/
theorem AtPc.kernel (h : AtPc s t) (hs : SameWait (k.task t) (s.k.task t))
    (hr : k.taskres = s.k.taskres) (hw : k.waits t = some .pwait → s.k.waits t = some .pwait) :
    AtPc { s with k := k } t :=
  h.mono rfl hs (fun _ _ he => he) (fun i _ => congrFun hr i) (fun _ => congrFun hr _)
    (fun _ _ => rfl) hw

theorem WaitInv.kernel (h : WaitInv s) (hinv : ∃ xs, SchedInv k xs)
    (hm : k.taskmap = s.k.taskmap) (hr : k.taskres = s.k.taskres)
    (hi : ∀ t, s.k.taskmap 0 = some t → k.waits t = none)
    (hd : ∀ i t, s.k.taskmap i = some t → k.waits t = some .terminated → s.pc t = .exiting)
    (hat : ∀ i t, s.k.taskmap i = some t → AtPc { s with k := k } t) :
    WaitInv { s with k := k } where
  sched := hinv
  idle := by
    obtain ⟨t, ht, -⟩ := h.idle
    exact ⟨t, by rw [← ht]; exact congrFun hm 0, hi t ht⟩
  owners := h.owners
  codes := h.codes
  owner_inj := h.owner_inj
  slot i t ht := by
    rw [show k.taskmap i = s.k.taskmap i from congrFun hm i] at ht
    dsimp only
    rw [hr]
    exact h.slot i t ht
  free i hn := by
    rw [show k.taskmap i = s.k.taskmap i from congrFun hm i] at hn
    dsimp only
    rw [hr]
    exact h.free i hn
  dead i t ht := hd i t (by rw [← hm]; exact ht)
  atPc i t ht := hat i t (by rw [← hm]; exact ht)
  honest := h.honest

/-- What the interrupt may do keeps every task at its point. -/
theorem WaitInv.ticked (h : WaitInv s) (hT : Ticked s.k k) (hsched : ∃ xs, SchedInv k xs) :
    WaitInv { s with k := k } := by
  refine h.kernel hsched hT.taskmap hT.taskres (fun t ht => ?_) (fun i t ht hw => ?_)
    fun i t ht => ?_
  · obtain ⟨t₀, h0, hw⟩ := h.idle
    obtain rfl : t₀ = t := by simpa [h0] using ht
    rcases hT.waits t₀ with he | ⟨he, -⟩
    · rw [he, hw]
    · exact he
  · exact h.dead i t ht ((hT.terminated t).mp hw)
  · have hat := h.atPc i t ht
    obtain ⟨hid, hpw, hlr⟩ := (hT.rest t).wait
    have hwait : k.waits t = some .pwait → s.k.waits t = some .pwait := by
      intro hw
      rcases hT.waits t with he | ⟨he, -⟩
      · rwa [he] at hw
      · simp [he] at hw
    rcases hT.status t with hws | ⟨hw, hnone, hst⟩
    · exact hat.kernel ⟨hid, hpw, hws, hlr⟩ hT.taskres hwait
    · -- the task waits for a process and is told
      have hpc : s.pc t = .exiting ∨ s.pc t = .elsewhere ∨ (∃ pid target, s.pc t = .gone pid target) ∨
          ∃ pid target, s.pc t = .waiting pid target := by
        unfold AtPc at hat
        cases hp : s.pc t <;> simp_all
      unfold AtPc at hat ⊢
      rcases hpc with hp | hp | ⟨pid, target, hp⟩ | ⟨pid, target, hp⟩
      · simp only [hp] at hat ⊢
        rw [hid, hlr, hT.taskres, hat]
      · simp only [hp]
      · simp only [hp, resultOf] at hat ⊢
        rw [hT.taskres]
        exact hat
      · simp only [hp] at hat ⊢
        obtain ⟨h1, h2, h3⟩ := hat
        obtain ⟨-, h5⟩ := h3 hw
        refine ⟨hpw.trans h1, ?_, fun he => ?_⟩
        · rcases hst with he | he
          · rw [he]
            exact told_timeout
          · rw [h1] at he
            exact h5 ▸ h.told_exitStatus he
        · rw [hnone] at he
          contradiction

/-- **The timer interrupt** keeps every task at its point. -/
theorem WaitInv.tick (h : WaitInv s) : WaitInv { s with k := taskIrq s.k } := by
  obtain ⟨xs, hinv⟩ := h.sched
  obtain ⟨hT, hsched⟩ := (wakeRule_ticked s.k).taskIrq hinv (Ticked.refl s.k)
  exact h.ticked hT hsched

@[simp] theorem goto_here {pc : Pc} : (s.goto k pc).pc s.k.taskActive = pc :=
  Function.update_self _ _ _

/-- A step of the active task that changes neither the task map nor
`taskres` and leaves the other tasks alone. -/
theorem WaitInv.goto {pc : Pc} (h : WaitInv s) (hinv : ∃ xs, SchedInv k xs)
    (hm : k.taskmap = s.k.taskmap) (hr : k.taskres = s.k.taskres) (h0 : s.k.active.id ≠ 0)
    (hs : ∀ u, u ≠ s.k.taskActive → SameWait (k.task u) (s.k.task u))
    (hw : ∀ u, u ≠ s.k.taskActive → k.waits u = s.k.waits u) (hx : s.here ≠ .exiting)
    (hpc : pc ≠ .exiting) (hd : k.waits s.k.taskActive ≠ some .terminated)
    (hat : AtPc (s.goto k pc) s.k.taskActive) : WaitInv (s.goto k pc) := by
  obtain ⟨xs, hinv₀⟩ := h.sched
  have hother : ∀ i t, s.k.taskmap i = some t → i = 0 → t ≠ s.k.taskActive := by
    rintro i t ht rfl rfl
    exact h0 (hinv₀.queues.map 0 _ ht).2.1
  have hexit : ∀ t, ((s.goto k pc).pc t = .exiting) ↔ s.pc t = .exiting := by
    intro t
    by_cases ht : t = s.k.taskActive
    · subst ht
      simp [WaitState.goto, hpc, hx]
    · simp [WaitState.goto, Function.update_of_ne ht]
  refine ⟨hinv, ?_, h.owners, h.codes, h.owner_inj, fun i t ht => ?_, fun i hn => ?_,
    fun i t ht hwt => ?_, fun i t ht => ?_, h.honest⟩
  · obtain ⟨t, ht, hwt⟩ := h.idle
    exact ⟨t, by rw [← ht]; exact congrFun hm 0, (hw t (hother 0 t ht rfl)).trans hwt⟩
  · obtain ⟨g, ho, hc⟩ := h.slot i t (by rw [← hm]; exact ht)
    refine ⟨g, ho, hc.trans ?_⟩
    simp only [hexit]
    simp only [WaitState.goto, hr]
  · have hf := h.free i (by rw [← hm]; exact hn)
    exact hf.trans (by simp only [WaitState.goto, hr])
  · have hne : t ≠ s.k.taskActive := by
      rintro rfl
      exact hd hwt
    exact (hexit t).mpr (h.dead i t (by rw [← hm]; exact ht) (by rw [← hw t hne]; exact hwt))
  · by_cases hta : t = s.k.taskActive
    · exact hta ▸ hat
    · refine (h.atPc i t (by rw [← hm]; exact ht)).mono ?_ (hs t hta) (fun _ _ he => he)
        (fun i _ => congrFun hr i) (fun _ => congrFun hr _) (fun _ _ => rfl) fun he => ?_
      · simp [WaitState.goto, Function.update_of_ne hta]
      · rw [← hw t hta]
        exact he

/-- Returning a status that is right. -/
theorem WaitInv.finish {r : Int} (h : WaitInv s) (h0 : s.k.active.id ≠ 0)
    (hx : s.here ≠ .exiting) (hr : (⟨target, r⟩ : Waited).Honest s) :
    WaitInv (s.finish target r) := by
  obtain ⟨xs, hinv⟩ := h.sched
  have hwa := hinv.waits_active
  have hg : WaitInv (s.goto s.k .elsewhere) :=
    h.goto ⟨xs, hinv⟩ rfl rfl h0 (fun _ _ => SameWait.refl _) (fun _ _ => rfl) hx (by decide)
      (by simp [hwa]) (by simp [AtPc, WaitState.goto])
  refine ⟨hg.sched, hg.idle, hg.owners, hg.codes, hg.owner_inj, hg.slot, hg.free, hg.dead, hg.atPc,
    fun r' hr' => ?_⟩
  rcases List.mem_cons.mp hr' with rfl | hr'
  · exact hr
  · exact h.honest r' hr'

theorem noTask_iff {p : TaskPtr → Bool} (hinv : SchedInv k xs) :
    k.noTask p = true ↔ ∀ i t, k.taskmap i = some t → p t = false := by
  simp only [Kernel.noTask, List.all_eq_true, List.mem_range, Option.all_eq_true,
    Bool.not_eq_true']
  exact ⟨fun h i t ht => h i (hinv.queues.map i t ht).1 t ht, fun h i _ t ht => h i t ht⟩

/-- **Exit**: the active task records its status, which is the one of its
process. -/
theorem WaitInv.startExit (h : WaitInv s) (h0 : s.k.active.id ≠ 0)
    (hreads : s.k.noTask (s.reads s.k.active.id) = true) : WaitInv (startExit s) := by
  obtain ⟨xs, hinv⟩ := h.sched
  have hlive := hinv.live_active
  obtain ⟨g, ho, hc⟩ := h.slot _ _ hlive
  rw [noTask_iff hinv] at hreads
  generalize hid : s.k.active.id = id at *
  generalize hcode : (s.k.active.loadRes % 256).toNat = c
  -- a second exit records the same status
  have hsame : ∀ c', s.code g = some c' → c' = c := by
    intro c' hc'
    rw [hc'] at hc
    split at hc
    · next hx =>
        have hat := h.atPc _ _ hlive
        simp only [AtPc, hx] at hat
        rw [← hcode, ← hat, show (s.k.task s.k.taskActive).id = id from hid]
        exact Option.some.inj hc
    · contradiction
  have heq : Eclair.startExit s =
      { s.goto (taskSetRes s.k) .exiting with code := Function.update s.code g (some c) } := by
    simp only [Eclair.startExit, hid, ho, hcode]
  have hgrow : ∀ w c', s.codeOf w = some c' → (Eclair.startExit s).codeOf w = some c' := by
    intro w c' hw
    rw [heq]
    cases w with
    | none => exact hw
    | some g' =>
        by_cases hg : g' = g
        · subst hg
          simp [WaitState.codeOf, hsame c' hw]
        · simpa [WaitState.codeOf, Function.update_of_ne hg] using hw
  have hres : ∀ i, i ≠ id → (Eclair.startExit s).k.taskres i = s.k.taskres i := by
    intro i hi
    rw [heq]
    simp [WaitState.goto, taskSetRes, hid, Function.update_of_ne hi]
  have hresid : (Eclair.startExit s).k.taskres id = c := by
    rw [heq]
    simp [WaitState.goto, taskSetRes, hid, hcode]
  have hpc : ∀ t, t ≠ s.k.taskActive → (Eclair.startExit s).pc t = s.pc t := by
    intro t ht
    rw [heq]
    simp [WaitState.goto, Function.update_of_ne ht]
  have hpca : (Eclair.startExit s).pc s.k.taskActive = .exiting := by
    rw [heq]
    simp [WaitState.goto]
  have hmap : (Eclair.startExit s).k.taskmap = s.k.taskmap := by rw [heq]; rfl
  have hwaits : (Eclair.startExit s).k.waits = s.k.waits := by rw [heq]; rfl
  have hown : (Eclair.startExit s).owner = s.owner := by rw [heq]; rfl
  have htask : (Eclair.startExit s).k.task = s.k.task := by rw [heq]; rfl
  have hslot : ∀ i t, s.k.taskmap i = some t → t ≠ s.k.taskActive → i ≠ id := by
    rintro i t ht hne rfl
    exact hne (Option.some.inj (ht.symm.trans hlive))
  refine ⟨⟨xs, ?_⟩, ?_, ?_, ?_, ?_, fun i t ht => ?_, fun i hn => ?_, fun i t ht hw => ?_,
    fun i t ht => ?_, fun r hr he => ?_⟩
  · rw [heq]
    exact (sameSched_taskSetRes s.k).inv xs hinv
  · rw [hmap, hwaits]
    exact h.idle
  · rw [heq]
    exact h.owners
  · intro g' c' hc'
    rw [heq] at hc' ⊢
    by_cases hg : g' = g
    · subst hg
      exact h.owners _ _ ho
    · rw [show (_ : WaitState).code = Function.update s.code g (some c) from rfl,
        Function.update_of_ne hg] at hc'
      exact h.codes g' c' hc'
  · rw [hown]
    exact h.owner_inj
  · rw [hmap] at ht
    rw [hown]
    by_cases hta : t = s.k.taskActive
    · subst hta
      have hi : i = id := by rw [← (hinv.queues.map i _ ht).2.1]; exact hid
      subst hi
      refine ⟨g, ho, ?_⟩
      rw [if_pos hpca, hresid, heq]
      simp
    · have hi := hslot i t ht hta
      obtain ⟨g', ho', hc'⟩ := h.slot i t ht
      have hg : g' ≠ g := by
        rintro rfl
        exact hi (h.owner_inj _ _ _ ho' ho)
      refine ⟨g', ho', ?_⟩
      rw [hpc t hta, hres i hi, ← hc', heq]
      simp [Function.update_of_ne hg]
  · rw [hmap] at hn
    have hi : i ≠ id := by
      rintro rfl
      rw [hlive] at hn
      contradiction
    rw [hown, hres i hi]
    exact hgrow _ _ (h.free i hn)
  · rw [hmap] at ht
    rw [hwaits] at hw
    have hta : t ≠ s.k.taskActive := by
      rintro rfl
      simp [hinv.waits_active] at hw
    rw [hpc t hta]
    exact h.dead i t ht hw
  · rw [hmap] at ht
    by_cases hta : t = s.k.taskActive
    · subst hta
      simp only [AtPc, hpca, htask]
      rw [show (s.k.task s.k.taskActive).id = id from hid, hresid, ← hcode]
    · have hi := hslot i t ht hta
      have hidt := (hinv.queues.map i t ht).2.1
      refine (h.atPc i t ht).mono (hpc t hta) (htask ▸ SameWait.refl _) hgrow (fun j hj => ?_)
        (fun _ => hres _ (hidt ▸ hi)) (fun _ _ => by rw [hown]) fun hw => hwaits ▸ hw
      refine hres j ?_
      rintro rfl
      simp [hreads i t ht] at hj
  · rw [show (Eclair.startExit s).returns = s.returns by rw [heq]; rfl] at hr
    obtain ⟨c', h1, h2⟩ := h.honest r hr he
    exact ⟨c', hgrow _ _ h1, h2⟩

/-! ## creation and clean-up -/

theorem taskNew_of_free (ptr : TaskPtr) {id : Nat} (hf : freeSlot k = some id) :
    (taskNew ptr k).taskmap = Function.update k.taskmap id (some ptr) ∧
      (taskNew ptr k).taskres = k.taskres ∧ (taskNew ptr k).waits ptr = none ∧
      ∀ u, u ≠ ptr → SameWait ((taskNew ptr k).task u) (k.task u) := by
  simp only [taskNew, hf]
  refine ⟨by simp, ?_, ?_, fun u hu => ?_⟩
  · rw [setSlot_taskres, (sameButLinks_taskAddToList _ _ _).taskres, modTask_taskres]
  · refine waits_of_ready ?_
    rw [setSlot_task, taskAddToList_state, modTask_task_self]
  · have hl := (Moved.add .ready ptr
      (k.modTask ptr fun _ => { state := .ready, nticks := NTICKS, id := id })).task u
    rw [modTask_task_of_ne _ _ _ _ hu] at hl
    exact hl.sameWait

/-- **Creation**: the new process gets a pid that nobody waits for. -/
theorem WaitInv.newProcess {ptr : TaskPtr} (h : WaitInv s) (hnew : s.k.isLive ptr ≠ true)
    (hfree : (freeSlot s.k).all (fun i => s.k.noTask (s.awaits i)) = true) :
    WaitInv (newProcess ptr s) := by
  obtain ⟨xs, hinv⟩ := h.sched
  unfold Eclair.newProcess
  cases hf : freeSlot s.k with
  | none => exact h
  | some id =>
      rw [hf, Option.all_some, noTask_iff hinv] at hfree
      rw [Ne, isLive_iff hinv, not_exists] at hnew
      obtain ⟨hid, hnone⟩ := freeSlot_spec hf
      obtain ⟨hsched, hother⟩ := hinv.taskNew hnew
      obtain ⟨hm, hr, hwp, hs⟩ := taskNew_of_free ptr hf
      generalize taskNew ptr s.k = k at *
      have hold : ∀ i t, i ≠ id → k.taskmap i = some t →
          s.k.taskmap i = some t ∧ t ≠ ptr ∧ k.waits t = s.k.waits t := by
        intro i t hi ht
        rw [hm, Function.update_of_ne hi] at ht
        refine ⟨ht, ?_, (hother i t ht).2⟩
        rintro rfl
        exact hnew i ht
      have hcase : ∀ i t, k.taskmap i = some t →
          i = id ∧ t = ptr ∨ i ≠ id ∧ s.k.taskmap i = some t ∧ t ≠ ptr ∧
            k.waits t = s.k.waits t := by
        intro i t ht
        by_cases hi : i = id
        · subst hi
          rw [hm, Function.update_self] at ht
          exact .inl ⟨rfl, (Option.some.inj ht).symm⟩
        · exact .inr ⟨hi, hold i t hi ht⟩
      refine ⟨hsched, ?_, fun i g ho => ?_, fun g c hc => ?_, fun i j g hi hj => ?_,
        fun i t ht => ?_, fun i hn => ?_, fun i t ht hw => ?_, fun i t ht => ?_, h.honest⟩
      · obtain ⟨t, ht, hw⟩ := h.idle
        exact ⟨t, (hother 0 t ht).1, (hother 0 t ht).2.trans hw⟩
      · dsimp only at ho ⊢
        by_cases hi : i = id
        · subst hi
          rw [Function.update_self] at ho
          have := Option.some.inj ho
          omega
        · rw [Function.update_of_ne hi] at ho
          exact Nat.lt_succ_of_lt (h.owners i g ho)
      · exact Nat.lt_succ_of_lt (h.codes g c hc)
      · dsimp only at hi hj
        have hlt : ∀ l, s.owner l = some g → g ≠ s.born := fun l hl => (h.owners l g hl).ne
        by_cases h1 : i = id <;> by_cases h2 : j = id
        · rw [h1, h2]
        · subst h1
          rw [Function.update_self] at hi
          rw [Function.update_of_ne h2] at hj
          exact absurd (Option.some.inj hi).symm (hlt j hj)
        · subst h2
          rw [Function.update_self] at hj
          rw [Function.update_of_ne h1] at hi
          exact absurd (Option.some.inj hj).symm (hlt i hi)
        · rw [Function.update_of_ne h1] at hi
          rw [Function.update_of_ne h2] at hj
          exact h.owner_inj i j g hi hj
      · rcases hcase i t ht with ⟨rfl, rfl⟩ | ⟨hi, ht', hne, -⟩
        · refine ⟨s.born, by simp, ?_⟩
          simp only [Function.update_self, reduceCtorEq, if_false]
          cases hc : s.code s.born with
          | none => rfl
          | some c => exact absurd (h.codes _ c hc) (Nat.lt_irrefl _)
        · obtain ⟨g, ho, hc⟩ := h.slot i t ht'
          refine ⟨g, by simpa [Function.update_of_ne hi] using ho, ?_⟩
          simp only [Function.update_of_ne hne, hr]
          exact hc
      · dsimp only at hn ⊢
        have hi : i ≠ id := by
          rintro rfl
          simp [hm] at hn
        rw [hm, Function.update_of_ne hi] at hn
        rw [Function.update_of_ne hi, hr]
        exact h.free i hn
      · rcases hcase i t ht with ⟨rfl, rfl⟩ | ⟨hi, ht', hne, hw'⟩
        · dsimp only at hw
          rw [hwp] at hw
          contradiction
        · dsimp only at hw ⊢
          rw [Function.update_of_ne hne]
          exact h.dead i t ht' (hw' ▸ hw)
      · rcases hcase i t ht with ⟨rfl, rfl⟩ | ⟨hi, ht', hne, hw'⟩
        · simp [AtPc]
        · refine (h.atPc i t ht').mono (Function.update_of_ne hne _ _) (hs t hne)
            (fun _ _ he => he) (fun j _ => congrFun hr j) (fun _ => congrFun hr _)
            (fun j hj => ?_) fun hw => hw' ▸ hw
          refine Function.update_of_ne ?_ _ _
          rintro rfl
          simp [hfree i t ht'] at hj

/-- What cleaning up may have done so far: it takes terminated tasks out of
the task map. -/
structure Cleaned (k₀ k : Kernel) : Prop where
  task : ∀ u, SameWait (k.task u) (k₀.task u)
  taskres : k.taskres = k₀.taskres
  waits : k.waits = k₀.waits
  taskmap : ∀ i, k.taskmap i = k₀.taskmap i ∨ k.taskmap i = none ∧
    ∃ t, k₀.taskmap i = some t ∧ k₀.waits t = some .terminated

theorem cleaned_cleanupLoop (hinv : SchedInv k xs) (n : Nat) : Cleaned k (cleanupLoop n k) := by
  induction n generalizing k xs with
  | zero => exact ⟨fun _ => SameWait.refl _, rfl, rfl, fun _ => .inl rfl⟩
  | succ n ih =>
      cases ht : xs .terminated with
      | nil =>
          have hfirst : (k.lists .terminated).first = none := by
            rw [(hinv.queues.lists.isList _).first_eq, ht]
            rfl
          rw [show cleanupLoop (n + 1) k = k by simp only [cleanupLoop, hfirst]]
          exact ⟨fun _ => SameWait.refl _, rfl, rfl, fun _ => .inl rfl⟩
      | cons t ts =>
          have hfirst : (k.lists .terminated).first = some t := by
            rw [(hinv.queues.lists.isList _).first_eq, ht]
            rfl
          rw [cleanupLoop_succ n hfirst]
          have h := ih (hinv.cleanupOne ht)
          have hm := hinv.queues.mem .terminated t (by simp [ht])
          have hmoved := Moved.remove .terminated t k
          refine ⟨fun u => (h.task u).trans (hmoved.task u).sameWait,
            h.taskres.trans hmoved.taskres, h.waits.trans (cleanupOne_waits t), fun i => ?_⟩
          have hold : (cleanupOne t k).taskmap i = k.taskmap i ∨
              (cleanupOne t k).taskmap i = none ∧ i = (k.task t).id := by
            by_cases hi : i = (k.task t).id
            · exact .inr ⟨by simp [cleanupOne, hi], hi⟩
            · exact .inl (by simp [cleanupOne, Function.update_of_ne hi])
          have hgone : i = (k.task t).id →
              ∃ t, k.taskmap i = some t ∧ k.waits t = some .terminated := by
            rintro rfl
            exact ⟨t, hm.2.1, waits_of_blocked hm.1 (by decide) (by decide)⟩
          rcases h.taskmap i with he | ⟨hn, u, hu, hw⟩
          · rcases hold with ho | ⟨ho, hi⟩
            · exact .inl (he.trans ho)
            · exact .inr ⟨he.trans ho, hgone hi⟩
          · rcases hold with ho | ⟨ho, -⟩
            · exact .inr ⟨hn, u, ho ▸ hu, cleanupOne_waits (s := k) t ▸ hw⟩
            · rw [ho] at hu
              contradiction

/-- **Clean-up**: a slot that becomes free holds the status of its process. -/
theorem WaitInv.cleanup (h : WaitInv s) : WaitInv { s with k := taskCleanup s.k } := by
  obtain ⟨xs, hinv⟩ := h.sched
  have hc : Cleaned s.k (taskCleanup s.k) := cleaned_cleanupLoop hinv NTASKS
  have hsub : ∀ i t, (taskCleanup s.k).taskmap i = some t → s.k.taskmap i = some t := by
    intro i t ht
    rcases hc.taskmap i with he | ⟨hn, -⟩
    · rw [← he, ht]
    · rw [hn] at ht
      contradiction
  refine ⟨⟨_, hinv.taskCleanup.1⟩, ?_, h.owners, h.codes, h.owner_inj, fun i t ht => ?_,
    fun i hn => ?_, fun i t ht hw => ?_, fun i t ht => ?_, h.honest⟩
  · obtain ⟨t, ht, hw⟩ := h.idle
    refine ⟨t, ?_, (congrFun hc.waits t).trans hw⟩
    rcases hc.taskmap 0 with he | ⟨-, u, hu, hw'⟩
    · exact he.trans ht
    · obtain rfl : t = u := Option.some.inj (ht.symm.trans hu)
      simp [hw] at hw'
  · dsimp only
    rw [hc.taskres]
    exact h.slot i t (hsub i t ht)
  · dsimp only
    rw [hc.taskres]
    rcases hc.taskmap i with he | ⟨-, t, ht, hw⟩
    · exact h.free i (he ▸ hn)
    · obtain ⟨g, ho, hcode⟩ := h.slot i t ht
      rw [if_pos (h.dead i t ht hw)] at hcode
      simpa [WaitState.codeOf, ho] using hcode
  · exact h.dead i t (hsub i t ht) (congrFun hc.waits t ▸ hw)
  · exact (h.atPc i t (hsub i t ht)).kernel (hc.task t) hc.taskres
      fun hw => congrFun hc.waits t ▸ hw

/-! ## the other steps -/

/-- The active task waits for nothing and is not the idle one. -/
theorem WaitInv.idle_ne (h : WaitInv s) (h0 : s.k.active.id ≠ 0)
    (ht : s.k.taskmap 0 = some t) : t ≠ s.k.taskActive ∧ s.k.waits t = none := by
  obtain ⟨xs, hinv⟩ := h.sched
  obtain ⟨t₀, ht₀, hw⟩ := h.idle
  obtain rfl : t₀ = t := Option.some.inj (ht₀.symm.trans ht)
  refine ⟨?_, hw⟩
  rintro rfl
  exact h0 (hinv.queues.map 0 _ ht).2.1

/-- The active task writes fields of its own that its point does not
depend on. -/
theorem WaitInv.modActive {f : Task → Task} (h : WaitInv s) (hf : InPlace f)
    (hs : s.here = .elsewhere ∨ ∀ k, SameWait (f k) k) :
    WaitInv { s with k := s.k.modActive f } := by
  obtain ⟨xs, hinv⟩ := h.sched
  have hw : (s.k.modActive f).waits = s.k.waits := hf.waits _
  refine h.kernel ⟨xs, hinv.modTask hf _⟩ rfl rfl (fun t ht => ?_)
    (fun i t ht hwt => h.dead i t ht (hw ▸ hwt)) fun i t ht => ?_
  · obtain ⟨t₀, ht₀, hwt⟩ := h.idle
    obtain rfl : t₀ = t := Option.some.inj (ht₀.symm.trans ht)
    rw [hw, hwt]
  · by_cases hta : t = s.k.taskActive ∧ s.here = .elsewhere
    · simp [AtPc, hta.1, hta.2]
    · refine (h.atPc i t ht).kernel ?_ rfl fun he => hw ▸ he
      rcases hs with hs | hs
      · rw [modTask_task_of_ne _ _ _ _ fun he => hta ⟨he, hs⟩]
        exact SameWait.refl _
      · exact sameWait_modTask hs _ _

/-- A kernel step after which one task waits in something else. -/
theorem WaitInv.rewait {w : Option TaskState} (h : WaitInv s) (hinv : ∃ xs, SchedInv k xs)
    (hm : k.taskmap = s.k.taskmap) (hr : k.taskres = s.k.taskres)
    (hs : ∀ u, SameWait (k.task u) (s.k.task u))
    (hw : k.waits = Function.update s.k.waits t w) (h0 : s.k.taskmap 0 ≠ some t)
    (hp : w ≠ some .pwait) (hd : w = some .terminated → s.pc t = .exiting) :
    WaitInv { s with k := k } := by
  refine h.kernel hinv hm hr (fun u hu => ?_) (fun i u hu hwu => ?_) fun i u hu => ?_
  · obtain ⟨t₀, ht₀, hwt⟩ := h.idle
    obtain rfl : t₀ = u := Option.some.inj (ht₀.symm.trans hu)
    have hne : t₀ ≠ t := by
      rintro rfl
      exact h0 hu
    rw [hw, Function.update_of_ne hne, hwt]
  · by_cases hut : u = t
    · subst hut
      rw [hw, Function.update_self] at hwu
      exact hd hwu
    · rw [hw, Function.update_of_ne hut] at hwu
      exact h.dead i u hu hwu
  · refine (h.atPc i u hu).kernel (hs u) hr fun hwu => ?_
    by_cases hut : u = t
    · subst hut
      rw [hw, Function.update_self] at hwu
      exact absurd hwu hp
    · rwa [hw, Function.update_of_ne hut] at hwu

/-- **The rest of the scheduler** leaves the processes alone. -/
theorem WaitInv.other {e : SchedEvent} (h : WaitInv s) (h0 : s.k.active.id ≠ 0)
    (hpc : s.here = .elsewhere) (hmild : e.mild s.k = true) (he : e.next s.k = some k) :
    WaitInv { s with k := k } := by
  obtain ⟨xs, hinv⟩ := h.sched
  have hready := h.ready hinv rfl (fun t ht => (h.idle_ne h0 ht).2) h0
  have hidle : s.k.taskmap 0 ≠ some s.k.taskActive := fun ht => (h.idle_ne h0 ht).1 rfl
  cases e with
  | block r =>
      simp only [SchedEvent.next, Option.ite_none_right_eq_some, Option.some.injEq] at he
      obtain ⟨hr, rfl⟩ := he
      have hrp : r ≠ .pwait := by simpa [SchedEvent.mild] using hmild
      obtain ⟨hs, hw⟩ := hinv.taskBlock (r := r) (by rintro rfl; simp at hr)
        (by rintro rfl; simp at hr) hready
      have hm := Moved.taskBlock r s.k
      exact h.rewait hs hm.taskmap hm.taskres (fun u => (hm.task u).sameWait) hw hidle
        (by simpa using hrp) (by rintro ⟨⟩; simp at hr)
  | kill pid sig =>
      simp only [SchedEvent.next, Option.ite_none_left_eq_some, Option.some.injEq] at he
      obtain ⟨hp0, rfl⟩ := he
      unfold sysKill
      cases hg : taskGet pid s.k with
      | none => exact h
      | some t =>
          obtain ⟨hp, hi⟩ := taskGet_eq_some.mp hg
          dsimp only
          by_cases ha : t = s.k.taskActive
          · subst ha
            obtain ⟨hs, hw⟩ := hinv.taskRaise hready sig
            rw [taskSignal, if_pos rfl]
            have hm := Moved.taskBlock .signaled
              (s.k.modActive fun k => { k with sig := sig, sigdone := false })
            refine h.rewait hs hm.taskmap hm.taskres (fun u => ?_) hw hidle (by decide) (by simp)
            refine (hm.task u).sameWait.trans (sameWait_modTask (fun _ => ?_) _ u)
            exact ⟨rfl, rfl, rfl, rfl⟩
          · obtain ⟨hs, hw⟩ := hinv.taskSignal hi ha sig
            have hne : s.k.taskmap 0 ≠ some t := by
              intro ht
              have h1 := (hinv.queues.map 0 t ht).2.1
              have h2 := (hinv.queues.map _ t hi).2.1
              omega
            have hm := Moved.requeue .signaled t s.k
            rw [taskSignal, if_neg ha] at hs hw ⊢
            refine h.rewait hs hm.taskmap hm.taskres (fun u => ?_) hw hne (by decide) (by simp)
            refine (sameWait_modTask (fun _ => ?_) _ u).trans (hm.task u).sameWait
            exact ⟨rfl, rfl, rfl, rfl⟩
  | write k =>
      obtain rfl := Option.some.inj he
      exact h.modActive (fun _ => ⟨rfl, rfl, rfl, rfl⟩) (.inl hpc)
  | files f =>
      obtain rfl := Option.some.inj he
      exact h.kernel ⟨xs, hinv.modVfs f⟩ rfl rfl (fun t ht => (h.idle_ne h0 ht).2) h.dead
        fun i t ht => (h.atPc i t ht).kernel (SameWait.refl _) rfl id
  | _ => simp [SchedEvent.mild] at hmild

/-- **The check** of `task_pwait`. -/
theorem WaitInv.taskPwait (h : WaitInv s) (h0 : s.k.active.id ≠ 0) (hpc : s.here = .elsewhere)
    (pid : Int) (timeout : Nat) : WaitInv (taskPwait pid timeout s) := by
  obtain ⟨xs, hinv⟩ := h.sched
  have hwa := hinv.waits_active
  have hx : s.here ≠ .exiting := by simp [hpc]
  unfold Eclair.taskPwait
  split
  · next hg =>
      refine h.goto ⟨xs, hinv⟩ rfl rfl h0 (fun _ _ => SameWait.refl _) (fun _ _ => rfl) hx
        (by simp) (by simp [hwa]) ?_
      unfold AtPc
      rw [goto_here]
      exact h.codeOf_of_gone hg
  · have hf : InPlace fun k =>
        { k with pwait := pid, wstatus := 0, waketime := u64 (timeout + s.k.timens) } :=
      fun _ => ⟨rfl, rfl, rfl, rfl⟩
    have hw : (pwaitArm pid timeout s.k).waits = s.k.waits := hf.waits _
    refine h.goto ⟨xs, hinv.modTask hf _⟩ rfl rfl h0 (fun u hu => ?_) (fun u _ => congrFun hw u) hx
      (by simp) (by simp [hw, hwa]) ?_
    · rw [pwaitArm, modTask_task_of_ne _ _ _ _ hu]
      exact SameWait.refl _
    · unfold AtPc
      rw [goto_here]
      refine ⟨?_, ?_, rfl, fun he => ?_⟩
      · simp [WaitState.goto, pwaitArm]
      · simp [WaitState.goto, pwaitArm]
      · change (pwaitArm pid timeout s.k).waits s.k.taskActive = _ at he
        rw [hw, hwa] at he
        contradiction

/-- **A step** in `task_pwait` or `task_terminate`. -/
theorem WaitInv.runTask (h : WaitInv s) (h0 : s.k.active.id ≠ 0)
    (hs : runTask s = some s') : WaitInv s' := by
  obtain ⟨xs, hinv⟩ := h.sched
  have hwa := hinv.waits_active
  have hidle : ∀ t, s.k.taskmap 0 = some t → t ≠ s.k.taskActive ∧ s.k.waits t = none :=
    fun t ht => h.idle_ne h0 ht
  have hat := h.atPc _ _ hinv.live_active
  have hready := h.ready hinv rfl (fun t ht => (hidle t ht).2) h0
  unfold Eclair.runTask at hs
  unfold AtPc at hat
  cases hp : s.here with
  | elsewhere => simp [hp] at hs
  | gone pid target =>
      simp only [hp, Option.some.injEq] at hs hat
      subst hs
      exact h.finish h0 (by simp [hp]) fun _ => ⟨_, hat, rfl⟩
  | armed pid target =>
      simp only [hp, Option.some.injEq] at hs hat
      subst hs
      obtain ⟨h1, h2, h3, h4⟩ := hat
      have hf : InPlace fun k => { k with stale := false } := fun _ => ⟨rfl, rfl, rfl, rfl⟩
      have hw : (s.k.modActive fun k => { k with stale := false }).waits = s.k.waits := hf.waits _
      refine h.goto ⟨xs, hinv.modTask hf _⟩ rfl rfl h0 (fun u hu => ?_)
        (fun u _ => congrFun hw u) (by simp [hp]) (by simp) (by simp [hw, hwa]) ?_
      · rw [modTask_task_of_ne _ _ _ _ hu]
        exact SameWait.refl _
      · unfold AtPc
        rw [goto_here]
        refine ⟨?_, ?_, h3, fun he => h4 (hw ▸ he)⟩
        · simpa [WaitState.goto] using h1
        · simpa [WaitState.goto] using h2
  | cleared pid target =>
      simp only [hp, Option.some.injEq] at hs hat
      subst hs
      obtain ⟨h1, h2, h3, h4⟩ := hat
      obtain ⟨hsched, hw⟩ := hinv.taskBlock (r := .pwait) (by decide) (by decide) hready
      have hm := Moved.taskBlock .pwait s.k
      have hsw := fun u => (hm.task u).sameWait
      refine h.goto hsched hm.taskmap hm.taskres h0 (fun u _ => hsw u)
        (fun u hu => by rw [hw, Function.update_of_ne hu]) (by simp [hp]) (by simp)
        (by simp [hw]) ?_
      have hzero := (hsw s.k.taskActive).wstatus.trans h2
      unfold AtPc
      rw [goto_here]
      exact ⟨(hsw _).pwait.trans h1, hzero ▸ told_zero, fun _ => ⟨hzero, h3⟩⟩
  | waiting pid target =>
      simp only [hp, Option.some.injEq] at hs hat
      subst hs
      refine h.finish h0 (by simp [hp]) fun he => ?_
      split at he
      · simp [isExited, EINTR] at he
      · next hst =>
          obtain ⟨c, h1, h2⟩ := hat.2.1 he
          exact ⟨c, h1, by rw [if_neg hst, h2]⟩
  | exiting =>
      simp only [hp, Option.some.injEq] at hs hat
      subst hs
      have hfree := sameSched_taskFree s.k
      obtain ⟨hsw, hres⟩ := taskFree_wait s.k
      have hinv' := hfree.inv xs hinv
      obtain ⟨hsched, hw⟩ := hinv'.taskBlock (r := .terminated) (by decide) (by decide) hready
      have hm := Moved.taskBlock .terminated (taskFree s.k)
      rw [hfree.waits, hfree.taskActive] at hw
      exact h.rewait hsched (hm.taskmap.trans hfree.taskmap) (hm.taskres.trans hres)
        (fun u => (hm.task u).sameWait.trans (hsw u)) hw (fun ht => (hidle _ ht).1 rfl)
        (by decide) fun _ => hp

/-- **The end of the interrupt**: a signal without a handler ends the
process. -/
theorem WaitInv.irqEnd (h : WaitInv s) (h0 : s.k.active.id ≠ 0)
    (hreads : s.k.active.sig ≠ 0 → s.k.active.sigh s.k.active.sig = 0 →
      s.k.noTask (s.reads s.k.active.id) = true) : WaitInv (irqEnd s) := by
  unfold Eclair.irqEnd
  split
  · exact h
  · next hsig =>
      have h1 : WaitInv { s with k := s.k.modActive fun k => { k with sig := 0 } } :=
        h.modActive (fun _ => ⟨rfl, rfl, rfl, rfl⟩) (.inr fun _ => ⟨rfl, rfl, rfl, rfl⟩)
      dsimp only
      split
      · next hh =>
          refine h1.startExit (by simpa [active] using h0) ?_
          have hr := hreads hsig (by simpa [active] using hh)
          simpa [active, Kernel.noTask, WaitState.reads] using hr
      · exact h1.modActive (fun _ => ⟨rfl, rfl, rfl, rfl⟩) (.inr fun _ => ⟨rfl, rfl, rfl, rfl⟩)

/-! ## runs -/

theorem waitInv_waitInit (ktask : TaskPtr) (vfs : Vfs) : WaitInv (waitInit ktask vfs) where
  sched := ⟨_, schedInv_taskInit ktask vfs⟩
  idle := ⟨ktask, rfl, waits_of_running (by simp [waitInit, taskInit])⟩
  owners i g ho := by
    simp only [waitInit, Option.ite_none_right_eq_some, Option.some.injEq] at ho ⊢
    omega
  codes g c hc := by simp [waitInit] at hc
  owner_inj i j g hi hj := by
    simp only [waitInit, Option.ite_none_right_eq_some] at hi hj
    omega
  slot i t ht := by
    simp only [waitInit, taskInit, Option.ite_none_right_eq_some] at ht
    exact ⟨0, by simp [waitInit, ht.1], by simp [waitInit]⟩
  free i hn := by
    have hi : i ≠ 0 := by
      rintro rfl
      simp [waitInit, taskInit] at hn
    simp [waitInit, taskInit, WaitState.codeOf, hi]
  dead i t ht hw := by
    simp only [waitInit, taskInit, Option.ite_none_right_eq_some, Option.some.injEq] at ht
    obtain ⟨-, rfl⟩ := ht
    rw [waits_of_running (by simp [waitInit, taskInit])] at hw
    contradiction
  atPc i t _ := by simp [AtPc, waitInit]
  honest r hr := by simp [waitInit] at hr

/-- **Step lemma**: an event that keeps the pids keeps the invariant. -/
theorem wait_step {e : WaitEvent} (h : WaitInv s) (hok : KeepsPids s e)
    (hs : e.next s = some s') : WaitInv s' := by
  unfold KeepsPids WaitEvent.sound at hok
  rw [Bool.and_eq_true] at hok
  have hexit : e.exits s = true → s.k.noTask (s.reads s.k.active.id) = true :=
    fun he => by simpa [he] using hok.1
  cases e with
  | new ptr =>
      simp only [WaitEvent.next, Option.ite_none_left_eq_some, Option.some.injEq] at hs
      obtain ⟨hlive, rfl⟩ := hs
      exact h.newProcess hlive hok.2
  | pwait pid timeout =>
      simp only [WaitEvent.next, Option.ite_none_right_eq_some, Option.some.injEq] at hs
      obtain ⟨⟨h0, hpc⟩, rfl⟩ := hs
      exact h.taskPwait h0 hpc pid timeout
  | run =>
      simp only [WaitEvent.next, Option.ite_none_right_eq_some] at hs
      exact h.runTask hs.1 hs.2
  | exit code =>
      simp only [WaitEvent.next, Option.ite_none_right_eq_some, Option.some.injEq] at hs
      obtain ⟨⟨h0, hpc⟩, rfl⟩ := hs
      have h1 : WaitInv { s with k := s.k.modActive fun k => { k with loadRes := code } } :=
        h.modActive (fun _ => ⟨rfl, rfl, rfl, rfl⟩) (.inl hpc)
      refine h1.startExit (by simpa [active] using h0) ?_
      simpa [active, Kernel.noTask, WaitState.reads] using hexit rfl
  | cleanup =>
      simp only [WaitEvent.next, Option.ite_none_right_eq_some, Option.some.injEq] at hs
      obtain ⟨-, rfl⟩ := hs
      exact h.cleanup
  | tick =>
      obtain rfl := Option.some.inj hs
      exact h.tick
  | irqSignal =>
      simp only [WaitEvent.next, Option.ite_none_right_eq_some, Option.some.injEq] at hs
      obtain ⟨h0, rfl⟩ := hs
      exact h.irqEnd h0 fun h1 h2 => hexit (by simp [WaitEvent.exits, h1, h2])
  | other e =>
      simp only [WaitEvent.next, Option.ite_none_right_eq_some, Option.map_eq_some_iff] at hs
      obtain ⟨⟨h0, hpc, hmild⟩, k, he, rfl⟩ := hs
      exact h.other h0 hpc hmild he

/-- **Waiting over whole runs**: as long as no process gets a pid that a
task waits for and none exits while a task is about to read the result code
of the process that had its pid before, every exited status is the one of
the process that was meant and nobody is left waiting on another one. -/
theorem waitCorrect_of_reachable (h : waitSystem.Reachable KeepsPids s) : WaitCorrect s := by
  have hinv : WaitInv s := by
    refine h.invariant ?_ fun _ _ _ hi hok hs => wait_step hi hok hs
    rintro _ ⟨ktask, vfs, rfl⟩
    exact waitInv_waitInit ktask vfs
  obtain ⟨xs, hsched⟩ := hinv.sched
  refine ⟨hinv.honest, fun t pid target hlive hp hst _ => ?_⟩
  obtain ⟨i, hi⟩ := (isLive_iff hsched).mp hlive
  have hat := hinv.atPc i t hi
  simp only [AtPc, hp] at hat
  exact (hat.2.2 (waits_of_blocked hst (by decide) (by decide))).2

/-- Process 1 waits for process 2, which exits with status 7; its pid is
given to process 3 when the wait is over. -/
theorem waitCorrect_of_reachable_example :
    ∃ s, s.returns = [⟨some 2, 0x107⟩] ∧ s.code 2 = some 7 ∧ WaitCorrect s := by
  have h : (System.run (fun s (e : WaitEvent) => if e.sound s then e.next s else none)
      (waitInit 0 default)
      (List.flatten [[.new 1, .new 2], List.replicate 5 .tick,
        [.pwait 2 1000000000, .run, .run, .exit 7, .run, .tick, .run],
        List.replicate 5 .tick, [.cleanup, .new 3]])).any
      (fun s => s.returns == [⟨some 2, 0x107⟩] && s.code 2 == some 7) = true := by decide +kernel
  obtain ⟨s, hs, hp⟩ := (Option.any_eq_true _ _).mp h
  simp only [Bool.and_eq_true, beq_iff_eq] at hp
  have hreach : waitSystem.Reachable KeepsPids (waitInit 0 default) := .of_init ⟨0, default, rfl⟩
  exact ⟨s, hp.1, hp.2, waitCorrect_of_reachable
    (hreach.steps (System.steps_of_run_if WaitEvent.sound (fun _ _ h => h) hs))⟩

/-- **A pid is reused under a caller**: process 2 exits and is cleaned up
after process 1 has looked it up and before it blocks; the new process 3
gets its pid, process 1 waits on that one and returns its status 9 for the
status 7 of process 2. -/
theorem not_waitCorrect :
    ¬ ∀ s, waitSystem.Reachable System.Any s → WaitCorrect s := by
  intro hall
  have h : (System.run WaitEvent.next (waitInit 0 default)
      (List.flatten [[.new 1, .new 2], List.replicate 5 .tick, [.pwait 2 1000000000],
        List.replicate 5 .tick, [.exit 7, .run, .cleanup, .new 3], List.replicate 5 .tick,
        [.run, .run, .tick, .exit 9, .run, .tick], List.replicate 4 .tick, [.run]])).any
      (fun s => s.returns == [⟨some 2, 0x109⟩] && s.code 2 == some 7) = true := by decide +kernel
  obtain ⟨s, hs, hp⟩ := (Option.any_eq_true _ _).mp h
  simp only [Bool.and_eq_true, beq_iff_eq] at hp
  have hreach : waitSystem.Reachable System.Any (waitInit 0 default) := .of_init ⟨0, default, rfl⟩
  obtain ⟨c, h1, h2⟩ := (hall s (hreach.steps (System.steps_of_run hs))).honest ⟨some 2, 0x109⟩
    (by simp [hp.1]) (by decide)
  obtain rfl : 7 = c := by simpa [WaitState.codeOf, hp.2] using h1
  exact absurd h2 (by decide)

end Eclair
