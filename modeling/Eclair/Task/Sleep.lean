import Eclair.Task.Turns

/-!
# Eclair.Task.Sleep

How long a task sleeps.

A sleeper is woken by the first timer interrupt that finds the clock at its
wake time, not by an earlier one, and by nothing else that spares it
(`Asleep`); then it waits for its turn like any ready task.
-/

namespace Eclair

open Linked Kernel System

variable {s s' : Kernel} {xs : TaskState → List TaskPtr} {t : TaskPtr} {w c n : Nat}

/-! ## the clock -/

theorem taskBlock_timens (r : TaskState) (s : Kernel) : (taskBlock r s).timens = s.timens := by
  simp [taskBlock, taskSchedule_timens, park]

theorem taskUnblock_timens (t : TaskPtr) (s : Kernel) : (taskUnblock t s).timens = s.timens := by
  unfold taskUnblock
  split
  · rfl
  · split <;> simp [taskSchedule_timens, requeue]

theorem taskSignal_timens (t : TaskPtr) (sig : Nat) (s : Kernel) :
    (taskSignal t sig s).timens = s.timens := by
  unfold taskSignal
  split
  · simp [taskRaise, taskBlock_timens]
  · simp [requeue]

theorem taskFsCloseLocked_timens (fd : Nat) (s : Kernel) :
    (taskFsCloseLocked fd s).timens = s.timens := by
  unfold taskFsCloseLocked
  split <;> rfl

theorem taskFree_timens (s : Kernel) : (taskFree s).timens = s.timens := by
  unfold taskFree
  generalize List.range TASK_MAXFILES = fds
  induction fds generalizing s with
  | nil => rfl
  | cons fd fds ih => exact (ih _).trans (taskFsCloseLocked_timens fd s)

theorem taskTerminate_timens (s : Kernel) : (taskTerminate s).timens = s.timens := by
  rw [taskTerminate, taskBlock_timens, taskFree_timens]
  rfl

theorem cleanupLoop_timens (n : Nat) (s : Kernel) : (cleanupLoop n s).timens = s.timens := by
  induction n generalizing s with
  | zero => rfl
  | succ n ih =>
      unfold cleanupLoop
      split
      · rfl
      · rw [ih]
        simp

theorem taskNew_timens (ptr : TaskPtr) (s : Kernel) : (taskNew ptr s).timens = s.timens := by
  unfold taskNew
  split
  · rfl
  · simp

/-- The clock only goes on in the timer interrupt. -/
theorem SchedEvent.timens {e : SchedEvent} (hs : e.next s = some s') (he : e.isIrq = false) :
    s'.timens = s.timens := by
  cases e with
  | new ptr =>
      obtain ⟨-, h⟩ := Option.ite_none_left_eq_some.mp hs
      exact Option.some.inj h ▸ taskNew_timens ptr s
  | schedule => exact Option.some.inj hs ▸ taskSchedule_timens s
  | block r =>
      obtain ⟨-, h⟩ := Option.ite_none_right_eq_some.mp hs
      exact Option.some.inj h ▸ taskBlock_timens r s
  | unblock u =>
      obtain ⟨-, h⟩ := Option.ite_none_right_eq_some.mp hs
      exact Option.some.inj h ▸ taskUnblock_timens u s
  | irq => simp [isIrq] at he
  | irqSignal =>
      obtain rfl := Option.some.inj hs
      unfold taskIrqSignal
      split
      · rfl
      · dsimp only
        split
        · exact taskTerminate_timens _
        · rfl
  | kill pid sig =>
      obtain ⟨-, h⟩ := Option.ite_none_left_eq_some.mp hs
      obtain rfl := Option.some.inj h
      unfold sysKill
      split
      · rfl
      · exact taskSignal_timens _ _ s
  | raise sig => exact Option.some.inj hs ▸ taskBlock_timens _ _
  | terminate => exact Option.some.inj hs ▸ taskTerminate_timens s
  | cleanup => exact Option.some.inj hs ▸ cleanupLoop_timens NTASKS s
  | write k => exact Option.some.inj hs ▸ rfl
  | files f => exact Option.some.inj hs ▸ rfl

/-! ## sleeping -/

/-- The task sleeps until `w`, and the clock shows `c`. -/
structure Asleep (t : TaskPtr) (w c : Nat) (s : Kernel) : Prop where
  sched : ∃ xs, SchedInv s xs ∧ t ∈ xs .sleeping
  waketime : (s.task t).waketime = w
  clock : s.timens = c

theorem SameFields.waketime {a b : Task} (h : SameFields a b) : a.waketime = b.waketime := by
  obtain ⟨p, n, st, k, rfl⟩ := h
  rfl

theorem Asleep.waits (h : Asleep t w c s) : s.waits t = some .sleeping := by
  obtain ⟨xs, hinv, ht⟩ := h.sched
  exact waits_of_blocked (hinv.queues.mem _ _ ht).1 (by decide) (by decide)

/-- Closing the files of the active task leaves the others alone. -/
theorem taskFree_task (ht : t ≠ s.taskActive) : (taskFree s).task t = s.task t := by
  unfold taskFree
  generalize List.range TASK_MAXFILES = fds
  induction fds generalizing s with
  | nil => rfl
  | cons fd fds ih =>
      have hone : (taskFsCloseLocked fd s).task t = s.task t := by
        unfold taskFsCloseLocked
        split
        · rfl
        · simp [modTask, ht]
      have ha := (sameSched_taskFsCloseLocked fd s).taskActive
      rw [List.foldl_cons, ih (ha ▸ ht), hone]

/-- A live task whose wait is not over is still on the list of sleepers. -/
theorem Asleep.of_waits (hs : ∃ xs, SchedInv s' xs) {i : Nat} (hi : s'.taskmap i = some t)
    (hw : s'.waits t = some .sleeping) (hwake : (s'.task t).waketime = w) :
    Asleep t w s'.timens s' := by
  obtain ⟨xs, hinv⟩ := hs
  have hst := waits_eq_some hw
  have hne : t ∉ [s'.taskActive] := by
    rw [List.mem_singleton]
    rintro rfl
    rw [hinv.waits_active] at hw
    contradiction
  exact ⟨⟨xs, hinv, hst ▸ hinv.queues.listed hi hne⟩, hwake, rfl⟩

/-- **Only the timer interrupt** ends the sleep of a task that is spared. -/
theorem Asleep.step {e : SchedEvent} (h : Asleep t w c s) (hok : Spares t s e)
    (hs : e.next s = some s') (he : e.isIrq = false) : Asleep t w c s' := by
  obtain ⟨xs, hinv, ht⟩ := h.sched
  obtain ⟨-, hlive, hne⟩ := hinv.queues.mem _ _ ht
  have hta : t ≠ s.taskActive := by simpa using hne
  have hinv' := (sched_step hinv hok.1 hs).1
  have hclock := SchedEvent.timens hs he
  rw [← h.clock, ← hclock]
  have hready : e.blocks s = true → xs .ready ≠ [] := fun hb => by
    have hsound := hok.1
    rw [Sound, SchedEvent.sound, Bool.and_eq_true] at hsound
    rw [← hinv.ready_first]
    simpa [hb, Option.isSome_iff_ne_none] using hsound.2
  -- what an event leaves to the task that sleeps on
  have hkeep : ∀ {s₁ : Kernel}, (∃ xs, SchedInv s₁ xs) → s₁.taskmap (s.task t).id = some t →
      s₁.waits t = s.waits t → SameFields (s₁.task t) (s.task t) → Asleep t w s₁.timens s₁ :=
    fun hx hm hw hsame =>
      .of_waits hx hm (hw.trans h.waits) (hsame.waketime.trans h.waketime)
  have hblock : ∀ {s₁ : Kernel} (r : TaskState), s₁.taskActive = s.taskActive →
      s₁.taskmap = s.taskmap → SameFields (s₁.task t) (s.task t) →
      (∃ xs, SchedInv (taskBlock r s₁) xs) ∧
        (taskBlock r s₁).waits = Function.update s.waits s.taskActive (some r) →
      Asleep t w (taskBlock r s₁).timens (taskBlock r s₁) := by
    intro s₁ r ha hm hsame hb
    have hmoved := Moved.taskBlock r s₁
    refine hkeep hb.1 ?_ ?_ ((hmoved.task t).trans hsame)
    · rw [hmoved.taskmap, hm, hlive]
    · rw [hb.2, Function.update_of_ne hta]
  have hraise : xs .ready ≠ [] → ∀ sig, Asleep t w (taskRaise sig s).timens (taskRaise sig s) := by
    intro hr sig
    refine hblock _ rfl rfl ?_ (hinv.taskRaise hr sig)
    rw [modTask_task_of_ne _ _ _ _ hta]
    exact .refl _
  have hterminate : ∀ {s₁ : Kernel}, SchedInv s₁ xs → s₁.taskActive = s.taskActive →
      s₁.taskmap = s.taskmap → s₁.waits = s.waits → SameFields (s₁.task t) (s.task t) →
      xs .ready ≠ [] → Asleep t w (taskTerminate s₁).timens (taskTerminate s₁) := by
    intro s₁ h₁ ha hm hw hsame hr
    have hfree := (sameSched_taskFree (taskSetRes s₁)).trans (sameSched_taskSetRes s₁)
    have hterm := h₁.taskTerminate hr
    rw [ha, hw] at hterm
    refine hblock _ (hfree.taskActive.trans ha) (hfree.taskmap.trans hm) ?_ hterm
    rwa [taskFree_task (show t ≠ (taskSetRes s₁).taskActive from ha ▸ hta)]
  cases e with
  | new ptr =>
      obtain ⟨hnew, h'⟩ := Option.ite_none_left_eq_some.mp hs
      obtain rfl := Option.some.inj h'
      have hfresh : ∀ i, s.taskmap i ≠ some ptr := fun i hi => hnew ((isLive_iff hinv).mpr ⟨i, hi⟩)
      obtain ⟨hm, hw⟩ := (hinv.taskNew hfresh).2 _ t hlive
      have hne' : t ≠ ptr := fun he => hfresh _ (he ▸ hlive)
      obtain ⟨p, n, hsame⟩ := taskNew_task (s := s) hne'
      exact hkeep hinv' hm hw ⟨p, n, _, _, hsame⟩
  | schedule =>
      obtain rfl := Option.some.inj hs
      have hm := Moved.taskSchedule s
      exact hkeep hinv' (hm.taskmap ▸ hlive)
        (congrFun (taskSchedule_waits hinv.queues hinv.unlocked) t) (hm.task t)
  | block r =>
      obtain ⟨hr, h'⟩ := Option.ite_none_right_eq_some.mp hs
      obtain rfl := Option.some.inj h'
      exact hblock r rfl rfl (.refl _) (hinv.taskBlock (by rintro rfl; simp at hr)
        (by rintro rfl; simp at hr) (hready rfl))
  | unblock u =>
      obtain ⟨hu, h'⟩ := Option.ite_none_right_eq_some.mp hs
      obtain rfl := Option.some.inj h'
      obtain ⟨i, hi⟩ := (isLive_iff hinv).mp hu
      have hm := Moved.taskUnblock u s
      refine hkeep hinv' (hm.taskmap ▸ hlive) ?_ (hm.task t)
      rw [(hinv.taskUnblock hi).2, Function.update_of_ne]
      rintro rfl
      exact hok.2 rfl
  | irq => simp [SchedEvent.isIrq] at he
  | irqSignal =>
      obtain rfl := Option.some.inj hs
      have hf : InPlace fun k => { k with sig := 0 } := fun _ => ⟨rfl, rfl, rfl, rfl⟩
      have hsame : SameFields ((s.modActive fun k => { k with sig := 0 }).task t) (s.task t) := by
        rw [modTask_task_of_ne _ _ _ _ hta]
        exact .refl _
      unfold taskIrqSignal at hinv' ⊢
      split
      · exact hkeep ⟨xs, hinv⟩ hlive rfl (.refl _)
      · next hsig =>
          dsimp only
          split
          · next hh =>
              have hh' : s.active.sigh s.active.sig = 0 := by simpa [active] using hh
              exact hterminate (hinv.modTask hf _) rfl rfl (hf.waits _) hsame
                (hready (by simp [SchedEvent.blocks, hsig, hh']))
          · have hf' : InPlace fun k => { k with sigdone := true } := fun _ => ⟨rfl, rfl, rfl, rfl⟩
            refine hkeep ⟨xs, (hinv.modTask hf _).modTask hf' _⟩ hlive ?_ ?_
            · rw [hf'.waits, hf.waits]
            · exact (modTask_task_of_ne _ _ _ _ hta).symm ▸ hsame
  | kill pid sig =>
      obtain ⟨-, h'⟩ := Option.ite_none_left_eq_some.mp hs
      obtain rfl := Option.some.inj h'
      unfold sysKill at hinv' ⊢
      cases hg : taskGet pid s with
      | none => exact hkeep ⟨xs, hinv⟩ hlive rfl (.refl _)
      | some u =>
          have hut : u ≠ t := by
            rintro rfl
            exact hok.2 hg
          simp only [hg] at hinv' ⊢
          by_cases ha : u = s.taskActive
          · have hr := hready (by simp [SchedEvent.blocks, hg, ha])
            rw [taskSignal, if_pos ha]
            exact hraise hr sig
          · have hi : s.taskmap pid.toNat = some u := by
              unfold taskGet at hg
              split at hg
              · contradiction
              · exact hg
            have hm := Moved.requeue .signaled u s
            refine hkeep hinv' ?_ ?_ ?_
            · rw [taskSignal_taskmap, hlive]
            · rw [(hinv.taskSignal hi ha sig).2, Function.update_of_ne (Ne.symm hut)]
            · rw [taskSignal, if_neg ha, modTask_task_of_ne _ _ _ _ (Ne.symm hut)]
              exact hm.task t
  | raise sig =>
      obtain rfl := Option.some.inj hs
      exact hraise (hready rfl) sig
  | terminate =>
      obtain rfl := Option.some.inj hs
      exact hterminate hinv rfl rfl rfl (.refl _) (hready rfl)
  | cleanup =>
      obtain rfl := Option.some.inj hs
      obtain ⟨hc, hw⟩ := hinv.taskCleanup
      have ht' : t ∈ Function.update xs .terminated [] .sleeping := by
        rwa [Function.update_of_ne (by decide)]
      obtain ⟨p, n, hsame⟩ := (cleanupLoop_same NTASKS s).2 t
      have hid : ((taskCleanup s).task t).id = (s.task t).id := by rw [taskCleanup, hsame]
      exact hkeep hinv' (hid ▸ (hc.queues.mem _ _ ht').2.1) (congrFun hw t) ⟨p, n, _, _, hsame⟩
  | write k =>
      obtain rfl := Option.some.inj hs
      have hf : InPlace (Task.write k) := fun _ => ⟨rfl, rfl, rfl, rfl⟩
      refine hkeep hinv' hlive (congrFun (hf.waits _) t) ?_
      rw [modTask_task_of_ne _ _ _ _ hta]
      exact .refl _
  | files f =>
      obtain rfl := Option.some.inj hs
      exact hkeep hinv' hlive rfl (.refl _)

/-- **The timer interrupt** lets the task sleep on while the clock is before
`w`, and else makes it ready. -/
theorem Asleep.irq (h : Asleep t w c s) (hs : Sliced s) :
    (u64 (c + TICK_NS) < w → Asleep t w (u64 (c + TICK_NS)) (taskIrq s)) ∧
      (w ≤ u64 (c + TICK_NS) → (taskIrq s).taskActive = t ∨
        ∃ m, InLine t m (taskIrq s) ∧ m < NTICKS * NTASKS) := by
  obtain ⟨xs, hinv, ht⟩ := h.sched
  obtain ⟨-, hlive, hne⟩ := hinv.queues.mem _ _ ht
  have hta : t ≠ s.taskActive := by simpa using hne
  have hslice := hs.taskIrq
  have hw : Woke s xs (u64 (s.timens + TICK_NS)) _ _ _ := Woke.loops hinv
  have hnow : (taskLockpost s).timens = s.timens := rfl
  unfold taskIrq at hslice ⊢
  dsimp only at hslice ⊢
  rw [hnow] at hslice ⊢
  rw [h.clock] at hw hslice ⊢
  generalize wakeAll .pwait wakePwait _ = s₄ at hw hslice ⊢
  obtain ⟨f, hf, -, he⟩ := endSlice_unlock hw.ticking.locked
  have hu := hw.unlocked hf
  rw [he] at hslice ⊢
  have hmem : t ∈ woken s xs (u64 (c + TICK_NS)) ↔ w ≤ u64 (c + TICK_NS) := by
    have hx := hinv.queues.lists.apart
    simp only [woken, List.mem_append, List.mem_filter, due, h.waketime, decide_eq_true_eq]
    constructor
    · rintro (((h1 | h1) | h1) | h1)
      · exact h1.2
      · exact absurd (hx _ _ _ ht h1.1) (by decide)
      · exact absurd (hx _ _ _ ht h1) (by decide)
      · exact absurd (hx _ _ _ ht h1.1) (by decide)
    · exact fun hle => .inl (.inl (.inl ⟨ht, hle⟩))
  constructor
  · intro hlt
    have hnot : t ∉ woken s xs (u64 (c + TICK_NS)) := fun hm => absurd (hmem.mp hm) (by omega)
    have ht' : t ∈ remaining xs (woken s xs (u64 (c + TICK_NS))) .sleeping := by
      rw [remaining_of_ne (by decide), List.mem_filter]
      exact ⟨ht, by simpa using hnot⟩
    obtain ⟨hst, hlive', -⟩ := hu.queues.mem _ _ ht'
    have hwake : ((unlocked f s₄).task t).waketime = w := by
      have hsame : (unlocked f s₄).task t = s₄.task t :=
        modTask_task_of_ne _ _ _ _ (by rwa [hw.taskActive])
      rw [hsame, (hw.of_not_mem hnot).waketime, h.waketime]
    have hclock : (unlocked f s₄).timens = u64 (c + TICK_NS) := hw.timens
    have hwaits := waits_of_blocked hst (by decide) (by decide)
    split
    · have hm := Moved.taskSchedule (unlocked f s₄)
      have hrest := Asleep.of_waits (w := w) hu.taskSchedule (hm.taskmap ▸ hlive')
        ((congrFun (taskSchedule_waits hu.queues hu.unlocked) t).trans hwaits)
        ((hm.task t).waketime.trans hwake)
      rwa [taskSchedule_timens, hclock] at hrest
    · exact ⟨⟨_, hu, ht'⟩, hwake, hclock⟩
  · intro hle
    have hm : t ∈ remaining xs (woken s xs (u64 (c + TICK_NS))) .ready := by
      rw [remaining_ready]
      exact List.mem_append_right _ (hmem.mpr hle)
    obtain ⟨as, bs, hr⟩ := Queues.split hm
    have hlen := hu.queues.length_le .ready
    rw [hr, List.length_append, List.length_cons] at hlen
    rw [NTICKS]
    split
    · obtain hrun | ⟨m, hq, hlt⟩ := InLine.of_preempt hu hr
      · exact .inl hrun
      · rw [NTICKS] at hlt
        exact .inr ⟨m, hq, by omega⟩
    · next hoff =>
        rw [if_neg hoff] at hslice
        have hactive := hslice (unlocked f s₄).taskActive
        refine .inr ⟨_, ⟨_, as, bs, hu, hr, rfl⟩, ?_⟩
        rw [NTICKS] at hactive ⊢
        rw [active]
        omega

/-! ## runs -/

/-- What the task still has to wait for, in ticks: to be due and then for its
turn. -/
def Waits (t : TaskPtr) (w : Nat) (n : Nat) (s : Kernel) : Prop :=
  InLine t n s ∨ ∃ c k, Asleep t w c s ∧ 0 < k ∧ w ≤ c + TICK_NS * k ∧
    c + TICK_NS * k < 2 ^ 64 ∧ n + 1 = k + NTICKS * NTASKS

theorem SchedEvent.eq_irq {e : SchedEvent} (h : e.isIrq = true) : e = .irq := by
  cases e with
  | irq => rfl
  | _ => cases h

/-- **Step**: the task runs, or what it waits for has not grown, and is one
tick less after a tick. -/
theorem Waits.step {e : SchedEvent} (hsl : Sliced s) (h : Waits t w n s) (hok : Spares t s e)
    (hs : e.next s = some s') :
    s'.taskActive = t ∨ ∃ m, Waits t w m s' ∧ m + (if e.isIrq then 1 else 0) ≤ n := by
  obtain hq | ⟨c, k, ha, hk, hdue, hclock, hn⟩ := h
  · obtain hrun | ⟨m, hm, hle⟩ := hq.step hok hs
    · exact .inl hrun
    · exact .inr ⟨m, .inl hm, hle⟩
  · cases he : e.isIrq with
    | false =>
        exact .inr ⟨n, .inr ⟨c, k, ha.step hok hs he, hk, hdue, hclock, hn⟩, by simp⟩
    | true =>
        obtain rfl := SchedEvent.eq_irq he
        obtain rfl := Option.some.inj hs
        obtain ⟨hon, hup⟩ := ha.irq hsl
        have htick : c + TICK_NS ≤ c + TICK_NS * k :=
          Nat.add_le_add_left (Nat.le_mul_of_pos_right _ hk) _
        have hnow : u64 (c + TICK_NS) = c + TICK_NS := Nat.mod_eq_of_lt (by omega)
        rw [hnow] at hon hup
        rw [if_pos rfl]
        by_cases hlt : c + TICK_NS < w
        · -- there are more ticks to come before the task is due
          obtain ⟨j, rfl⟩ : ∃ j, k = j + 1 := ⟨k - 1, by omega⟩
          rw [Nat.mul_succ] at hdue hclock
          have hj : 0 < j := by
            by_contra h0
            obtain rfl : j = 0 := by omega
            omega
          exact .inr ⟨n - 1, .inr ⟨_, j, hon hlt, hj, by omega, by omega, by omega⟩, by omega⟩
        · obtain hrun | ⟨m, hm, hlt'⟩ := hup (by omega)
          · exact .inl hrun
          · exact .inr ⟨m, .inl hm, by omega⟩

/-- Before its time the task sleeps on. -/
theorem Asleep.path {es : List SchedEvent} (hsl : Sliced s) (h : Asleep t w c s)
    (hp : schedSystem.Path (Spares t) s es s')
    (hearly : c + TICK_NS * es.countP SchedEvent.isIrq < w) (hw : w < 2 ^ 64) :
    (s'.task t).state = .sleeping := by
  induction hp generalizing c with
  | nil s => exact waits_eq_some h.waits
  | @cons s s₁ s' es e hok hs _ ih =>
      rw [List.countP_cons] at hearly
      cases he : e.isIrq with
      | false =>
          simp only [he, Bool.false_eq_true, if_false, Nat.add_zero] at hearly
          exact ih (hsl.step hs) (h.step hok hs he) hearly
      | true =>
          obtain rfl := SchedEvent.eq_irq he
          obtain rfl := Option.some.inj hs
          simp only [he, if_true, Nat.mul_succ] at hearly
          have hnow : u64 (c + TICK_NS) = c + TICK_NS := Nat.mod_eq_of_lt (by omega)
          have hon := (h.irq hsl).1 (by omega)
          rw [hnow] at hon
          exact ih hsl.taskIrq hon (by omega)

/-- **A task sleeps its time and then gets its turn**: it sleeps on as long as the clock is before
its wake time; and if the clock reaches the wake time within `k` ticks, it has run before
`k + NTICKS * NTASKS` ticks have gone by. -/
theorem sleeps_until {es : List SchedEvent} (h : schedSystem.Reachable Sound s)
    (hlive : s.isLive t = true) (hst : (s.task t).state = .sleeping)
    (hw : (s.task t).waketime < 2 ^ 64) (hp : schedSystem.Path (Spares t) s es s') :
    (s.timens + TICK_NS * es.countP SchedEvent.isIrq < (s.task t).waketime →
        (s'.task t).state = .sleeping) ∧
      ∀ k, 0 < k → (s.task t).waketime ≤ s.timens + TICK_NS * k →
        s.timens + TICK_NS * k < 2 ^ 64 → k + NTICKS * NTASKS ≤ es.countP SchedEvent.isIrq →
        schedSystem.Meets (Spares t) (fun s => s.taskActive = t) s es := by
  obtain ⟨xs, hinv⟩ := schedInv_of_reachable h
  obtain ⟨i, hi⟩ := (isLive_iff hinv).mp hlive
  have hsl := sliced_of_reachable h
  have ha : Asleep t (s.task t).waketime s.timens s :=
    .of_waits ⟨xs, hinv⟩ hi (waits_of_blocked hst (by decide) (by decide)) rfl
  refine ⟨fun hearly => ha.path hsl hp hearly hw, fun k hk hdue hclock hn => ?_⟩
  refine hp.meets (I := fun n s₁ => Sliced s₁ ∧ Waits t (s.task t).waketime n s₁)
    (c := SchedEvent.isIrq) (n := k + NTICKS * NTASKS - 1) ?_ ⟨hsl, ?_⟩ ?_
  · rintro m s₁ e s₂ ⟨hsl₁, hw₁⟩ hok hs
    obtain hrun | ⟨j, hj, hle⟩ := hw₁.step hsl₁ hok hs
    · exact .inl hrun
    · exact .inr ⟨j, ⟨hsl₁.step hs, hj⟩, hle⟩
  · exact .inr ⟨_, k, ha, hk, hdue, hclock, by omega⟩
  · omega

/-- Ticks go on in any state. -/
theorem irq_path (t : TaskPtr) (n : Nat) (s : Kernel) :
    ∃ s', schedSystem.Path (Spares t) s (List.replicate n .irq) s' := by
  induction n generalizing s with
  | zero => exact ⟨s, .nil s⟩
  | succ n ih =>
      obtain ⟨s', hp⟩ := ih (taskIrq s)
      have hok : Spares t s .irq := by simp [Spares, Sound, SchedEvent.sound, SchedEvent.target,
        SchedEvent.blocks]
      exact ⟨s', .cons .irq hok rfl hp⟩

/-- The first task sleeps for a tick and a half. -/
theorem sleeps_until_example :
    ∃ s, (s.task 0).state = .sleeping ∧
      schedSystem.Meets (Spares 0) (fun s => s.taskActive = 0) s (List.replicate 650 .irq) := by
  have h : (System.run (fun s (e : SchedEvent) => if e.sound s then e.next s else none)
      (taskInit 0 default) [.new 1, .write { waketime := 1500000 }, .block .sleeping]).any
      (fun s => s.isLive 0 && (s.task 0).state == .sleeping && (s.task 0).waketime == 1500000 &&
        s.timens == 0) = true := by decide
  obtain ⟨s, hs, hp⟩ := (Option.any_eq_true _ _).mp h
  simp only [Bool.and_eq_true, beq_iff_eq] at hp
  obtain ⟨⟨⟨hlive, hst⟩, hw⟩, hclock⟩ := hp
  obtain ⟨s', hpath⟩ := irq_path 0 650 s
  have hreach : schedSystem.Reachable Sound s :=
    reachable_taskInit.steps (System.steps_of_run_if SchedEvent.sound (fun _ _ h => h) hs)
  have hlt : (s.task 0).waketime < 2 ^ 64 := by rw [hw]; decide
  have hdue : (s.task 0).waketime ≤ s.timens + TICK_NS * 2 := by rw [hw, hclock]; decide
  have hend : s.timens + TICK_NS * 2 < 2 ^ 64 := by rw [hclock]; decide
  have hcount : 2 + NTICKS * NTASKS ≤
      (List.replicate 650 SchedEvent.irq).countP SchedEvent.isIrq := by
    rw [List.countP_replicate]
    decide
  exact ⟨s, hst, (sleeps_until hreach hlive hst hlt hpath).2 2 (by decide) hdue hend hcount⟩

end Eclair
