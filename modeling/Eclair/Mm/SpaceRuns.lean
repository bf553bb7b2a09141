import Mathlib.Order.Interval.Finset.Nat
import Eclair.Mm.Isolation

/-!
# Eclair.Mm.SpaceRuns

The address spaces over whole runs: from the state the boot code leaves,
through `page_init_top` and `task_init_memory`, and then any order of new
tasks, switches, and pages mapped and unmapped by the current task.
-/

namespace Eclair

open Loop System

/-! ## the state after boot -/

/-- The number of free frames. -/
def freeFrames (bitmap : Nat → Bool) : Nat :=
  ((Finset.range (BITMAP_SIZE * 8)).filter fun f => bitmap f = false).card

/-- The state `boot_init` leaves: the kernel's directory is the only one, its
user half is empty, and it has all tables up to `page_breakp`; the directory
lies below the window and `page_breakp` above.  There are frames and pages
left for the rest of the kernel half. -/
structure Booted (own : Nat → Option FrameUse) (b : Spaces) : Prop where
  inv : SpaceInv own (align b.pageBreakp 1024 / 1024) 0 b
  only : ∀ d, b.tasks d = true → d = 0
  dirPage : b.dirPage 0 < b.pageTableId
  window : b.pageTableId + 1024 ≤ b.pageBreakp
  pages : b.pageBreakp + NTASKS ≤ 2 ^ 20
  frames : 1024 - align b.pageBreakp 1024 / 1024 + NTASKS ≤ freeFrames b.bitmap

/-- The state in which the first task can be created. -/
def SpacesInit (s : Spaces) : Prop :=
  ∃ own b t, Booted own b ∧ pageInitTop b = some t ∧ taskInitMemory t = some s

variable {own : Nat → Option FrameUse} {n k d f i : Nat} {s b : Spaces}

theorem firstFree_none {bitmap : Nat → Bool} (h : firstFree bitmap n i = none) (hi : i ≤ f)
    (hn : f < i + n) : bitmap f = true := by
  induction n generalizing i with
  | zero => omega
  | succ n ih =>
      rw [firstFree] at h
      split at h
      · next hb =>
          by_cases hf : f = i
          · exact hf ▸ hb
          · exact ih h (by omega) (by omega)
      · cases h

theorem hasFree_of_freeFrames (h : 0 < freeFrames s.bitmap) : HasFree s := by
  intro hnone
  obtain ⟨f, hf⟩ := Finset.card_pos.mp h
  obtain ⟨hrange, hfree⟩ := Finset.mem_filter.mp hf
  have hlt := Finset.mem_range.mp hrange
  rw [firstFree_none hnone (Nat.zero_le f) (by omega)] at hfree
  cases hfree

theorem freeFrames_update {bitmap : Nat → Bool} :
    freeFrames bitmap ≤ freeFrames (Function.update bitmap f true) + 1 := by
  have hsub : ((Finset.range (BITMAP_SIZE * 8)).filter fun g => bitmap g = false).erase f ⊆
      (Finset.range (BITMAP_SIZE * 8)).filter fun g => Function.update bitmap f true g = false := by
    intro g hg
    obtain ⟨hgf, hg⟩ := Finset.mem_erase.mp hg
    obtain ⟨hrange, hfree⟩ := Finset.mem_filter.mp hg
    refine Finset.mem_filter.mpr ⟨hrange, ?_⟩
    rw [Function.update_of_ne hgf]
    exact hfree
  have hcard := Finset.card_le_card hsub
  have herase := Finset.pred_card_le_card_erase
    (s := (Finset.range (BITMAP_SIZE * 8)).filter fun g => bitmap g = false) (a := f)
  rw [freeFrames, freeFrames]
  omega

/-! ## `page_init_top` -/

/-- **A new table** of the kernel half, while the kernel's directory is the
only one. -/
theorem SpaceInv.mapKernelTable (h : SpaceInv own n k s) (honly : ∀ d, s.tasks d = true → d = 0)
    (hn : n < 1024) (hpage : ∀ d, Allocated k d → s.dirPage d / 1024 ≠ n) (hf : own f = none)
    (hlt : f < 2 ^ 20) (hbit : s.bitmap f = true) :
    ∃ m, pageMapTableFlags n f 0 s = some { s with mem := m } ∧
      SpaceInv (Function.update own f (some (.ktab n))) (n + 1) k { s with mem := m } := by
  have hent : Entry (pageEnt f 0) f := entry_pageEnt hlt (by decide)
  have hcr3 : s.cr3 = s.dirFrame 0 := by
    rw [h.cr3, honly _ h.active]
  have hlink : SpaceInv (Function.update own f (some (.ktab n))) (n + 1) k
      { s with mem := setFrameWord s.mem s.cr3 n (pageEnt f 0) } := by
    refine { h with used := ?_, dirs := ?_ }
    · intro g hg
      by_cases hgf : g = f
      · rw [hgf]
        exact ⟨hlt, hbit⟩
      · rw [Function.update_of_ne hgf] at hg
        exact h.used g hg
    · rw [hcr3]
      exact h.dirs.linkKernel honly hn hf hent
  have hself := Function.update_self f (some (FrameUse.ktab n)) own
  obtain ⟨m, hrun, hinv, -⟩ := hlink.zeroTable (p := n) (t := f) hn
    (by
      show Entry (setFrameWord s.mem s.cr3 n (pageEnt f 0) s.cr3 n) f
      rw [setFrameWord_self]
      exact hent)
    (fun d heq => by
      rw [hself] at heq
      cases heq)
    (fun d hd heq => by
      rw [hself] at heq
      injection heq with heq
      injection heq with heq
      exact hpage d hd heq.symm)
  refine ⟨m, ?_, hinv⟩
  rw [pageMapTableFlags, h.setPageDirWord, Option.bind_some]
  exact hrun

/-- The state between `page_init_top` and the first task. -/
structure Booting (own : Nat → Option FrameUse) (n k : Nat) (b s : Spaces) : Prop where
  inv : SpaceInv own n k s
  tasks : s.tasks = b.tasks
  pageTableId : s.pageTableId = b.pageTableId
  pageBreakp : s.pageBreakp = b.pageBreakp + k
  dirPage : ∀ d, Allocated k d → s.dirPage d < s.pageBreakp
  frames : 1024 - n + (NTASKS - k) ≤ freeFrames s.bitmap

/-- `page_init_top` completes the kernel half. -/
theorem Booted.pageInitTop (h : Booted own b) :
    ∃ s, pageInitTop b = some s ∧ ∃ own', Booting own' 1024 0 b s := by
  have hn := h.inv.dirs.windowTable
  have hw := h.inv.pageTableId
  have hloop := forLoop_spec (i := align b.pageBreakp 1024 / 1024)
    (n := 1024 - align b.pageBreakp 1024 / 1024) (s := b)
    (f := fun i s =>
      let r := Eclair.spaceFrameAlloc s
      pageMapTableFlags i r.1 0 r.2)
    (I := fun i s => ∃ own', Booting own' i 0 b s ∧ s.dirPage 0 = b.dirPage 0)
    ?_ ⟨own, ⟨h.inv, rfl, rfl, rfl, ?_, h.frames⟩, rfl⟩
  · obtain ⟨s, hrun, own', hs, -⟩ := hloop
    rw [show align b.pageBreakp 1024 / 1024 + (1024 - align b.pageBreakp 1024 / 1024) = 1024 by omega]
      at hs
    exact ⟨s, hrun, own', hs⟩
  · intro i s hi hlt hinv
    obtain ⟨own', hs, hpage⟩ := hinv
    obtain ⟨f, halloc, hf, hlt20, hinv⟩ := hs.inv.alloc (hasFree_of_freeFrames (by
      have hfr := hs.frames
      have hN : NTASKS = 128 := rfl
      omega))
    have honly : ∀ d, s.tasks d = true → d = 0 := by
      rw [hs.tasks]
      exact h.only
    obtain ⟨m, hrun, hinv'⟩ := hinv.mapKernelTable honly (by omega) (fun d hd => by
      have hd0 : d = 0 := by
        cases hd with
        | inl h0 => exact h0
        | inr hlt => omega
      have hlow := h.dirPage
      have heq : ({ s with bitmap := Function.update s.bitmap f true } : Spaces).dirPage d = b.dirPage 0 := by
        rw [hd0]
        exact hpage
      rw [heq]
      omega) hf hlt20 (Function.update_self _ _ _)
    refine ⟨_, ?_, _, ⟨hinv', hs.tasks, hs.pageTableId, hs.pageBreakp, hs.dirPage, ?_⟩, hpage⟩
    · dsimp only
      rw [halloc]
      exact hrun
    · have hfr := hs.frames
      have hup : freeFrames s.bitmap ≤ freeFrames (Function.update s.bitmap f true) + 1 :=
        freeFrames_update
      show 1024 - (i + 1) + (NTASKS - 0) ≤ freeFrames (Function.update s.bitmap f true)
      omega
  · intro d hd
    have hd0 : d = 0 := by
      cases hd with
      | inl h0 => exact h0
      | inr hlt => omega
    have hlow := h.dirPage
    have hwin := h.window
    rw [hd0]
    omega

/-! ## `task_init_memory` -/

/-- **The directory of a slot**: a free frame, mapped at the next page. -/
theorem SpaceInv.addDirectory (h : SpaceInv own 1024 k s) (page : Nat)
    (hpage : s.pageTableId + 1024 ≤ page) (hlast : page < 2 ^ 20)
    (hne : ∀ d, Allocated k d → s.dirPage d ≠ page) (hf : own f = none) (hlt : f < 2 ^ 20)
    (hbit : s.bitmap f = true) (hk : k ≠ 0 → s.dirFrame k = f ∧ s.dirPage k = page) :
    ∃ m, pageMapFlags page f 0 s = some { s with mem := m } ∧
      ∃ own', SpaceInv own' 1024 (k + 1) { s with mem := m } := by
  have hw := h.pageTableId
  have hwt := h.dirs.windowTable
  have hkp : KernelPage 1024 k s page := ⟨⟨by omega, by omega, by omega⟩, hne⟩
  obtain ⟨_, hrun, hinv, t, hown, ht, rfl⟩ := h.mapKernel f 0 hkp
  refine ⟨_, hrun, ?_⟩
  by_cases hk0 : k = 0
  · subst hk0
    refine ⟨own, { hinv with dirs := hinv.dirs.congr (fun d => ?_) fun _ _ => ⟨rfl, rfl⟩ }⟩
    simp [Allocated]
  · obtain ⟨rfl, hdirPage⟩ := hk hk0
    refine ⟨Function.update own (s.dirFrame k) (some (.dir k)),
      { hinv with used := ?_, dirs := hinv.dirs.addDir hf ?_ ?_ }⟩
    · intro g hg
      by_cases hgf : g = s.dirFrame k
      · rw [hgf]
        exact ⟨hlt, hbit⟩
      · rw [Function.update_of_ne hgf] at hg
        exact h.used g hg
    · show KernelTable s.windowEntry 1024 (s.dirPage k / 1024)
      rw [hdirPage]
      exact hkp.table
    · have hD0 : s.dirFrame 0 ≠ t := by
        intro heq
        rw [← heq, h.dirs.dir 0 (.inl rfl)] at hown
        cases hown
      show Entry (setFrameWord s.mem t (page % 1024) (pageEnt (s.dirFrame k) 0)
        (setFrameWord s.mem t (page % 1024) (pageEnt (s.dirFrame k) 0) (s.dirFrame 0)
          (s.dirPage k / 1024) / 4096) (s.dirPage k % 1024)) (s.dirFrame k)
      rw [setFrameWord_of_ne hD0, hdirPage, ht.2, setFrameWord_self]
      exact entry_pageEnt hlt (by decide)

/-- `task_init_memory` allocates the directories of all slots. -/
theorem Booting.taskInitMemory (h : Booting own 1024 0 b s) (hb : b.pageTableId + 1024 ≤ b.pageBreakp)
    (hpages : b.pageBreakp + NTASKS ≤ 2 ^ 20) :
    ∃ t, taskInitMemory s = some t ∧ ∃ own', Booting own' 1024 NTASKS b t := by
  have hloop := forLoop_spec (i := 0) (n := NTASKS) (s := s)
    (f := fun i s =>
      let r := Eclair.spaceFrameAlloc s
      let page := r.2.pageBreakp
      pageMapFlags page r.1 0
        { r.2 with
          pagedirs := Function.update r.2.pagedirs i ⟨r.1, page⟩
          pageBreakp := page + 1 })
    (I := fun j s => ∃ own', Booting own' 1024 j b s) ?_ ⟨own, h⟩
  · obtain ⟨t, hrun, own', ht⟩ := hloop
    rw [Nat.zero_add] at ht
    exact ⟨t, hrun, own', ht⟩
  · intro j s _ hj hs
    obtain ⟨own', hs⟩ := hs
    have hfr := hs.frames
    have hbrk := hs.pageBreakp
    have hptid := hs.pageTableId
    obtain ⟨f, halloc, hf, hlt20, hinv⟩ := hs.inv.alloc (hasFree_of_freeFrames (by omega))
    let t : Spaces := { s with
      bitmap := Function.update s.bitmap f true
      pagedirs := Function.update s.pagedirs j ⟨f, s.pageBreakp⟩
      pageBreakp := s.pageBreakp + 1 }
    have hdirOf : ∀ d, Allocated j d → t.dirOf d = s.dirOf d := by
      intro d hd
      by_cases h0 : d = 0
      · rw [Spaces.dirOf, Spaces.dirOf, if_pos h0, if_pos h0]
      · have hdj : d ≠ j := by
          cases hd with
          | inl heq => exact absurd heq h0
          | inr hlt => omega
        rw [Spaces.dirOf, Spaces.dirOf, if_neg h0, if_neg h0]
        exact Function.update_of_ne hdj _ _
    have hact := hdirOf _ (hs.inv.dirs.tasks _ hs.inv.active)
    have hinvt : SpaceInv own' 1024 j t := { hinv with
      cr3 := by
        rw [hinv.cr3]
        exact congrArg PageDirectory.frame hact.symm
      pageDirWrap := by
        rw [hinv.pageDirWrap]
        exact congrArg PageDirectory.page hact.symm
      dirs := hinv.dirs.congr (fun _ => Iff.rfl) fun d hd =>
        ⟨congrArg PageDirectory.frame (hdirOf d hd), congrArg PageDirectory.page (hdirOf d hd)⟩ }
    have hpageOf : ∀ d, Allocated j d → t.dirPage d = s.dirPage d :=
      fun d hd => congrArg PageDirectory.page (hdirOf d hd)
    have hnew : j ≠ 0 → t.dirOf j = ⟨f, s.pageBreakp⟩ := by
      intro h0
      rw [Spaces.dirOf, if_neg h0]
      exact Function.update_self _ _ _
    obtain ⟨m, hrun, own'', hinv'⟩ := hinvt.addDirectory s.pageBreakp
      (by
        show s.pageTableId + 1024 ≤ s.pageBreakp
        omega) (by omega)
      (fun d hd => by
        have hlow := hs.dirPage d hd
        rw [hpageOf d hd]
        omega)
      hf hlt20 (Function.update_self _ _ _)
      (fun h0 => ⟨congrArg PageDirectory.frame (hnew h0), congrArg PageDirectory.page (hnew h0)⟩)
    refine ⟨_, ?_, own'', ⟨hinv', hs.tasks, hs.pageTableId, ?_, ?_, ?_⟩⟩
    · dsimp only
      rw [halloc]
      exact hrun
    · show s.pageBreakp + 1 = b.pageBreakp + (j + 1)
      omega
    · intro d hd
      show t.dirPage d < s.pageBreakp + 1
      by_cases hdj : Allocated j d
      · have hlow := hs.dirPage d hdj
        rw [hpageOf d hdj]
        omega
      · have heq : d = j := by
          simp only [Allocated] at hd hdj
          omega
        have h0 : j ≠ 0 := fun h0 => hdj (.inl (heq.trans h0))
        rw [heq, Spaces.dirPage, hnew h0]
        exact Nat.lt_succ_self _
    · have hup : freeFrames s.bitmap ≤ freeFrames (Function.update s.bitmap f true) + 1 :=
        freeFrames_update
      show 1024 - 1024 + (NTASKS - (j + 1)) ≤ freeFrames (Function.update s.bitmap f true)
      omega

/-- The kernel reaches the first task with all directories in order. -/
theorem Booted.init (h : Booted own b) :
    ∃ t s, Eclair.pageInitTop b = some t ∧ Eclair.taskInitMemory t = some s ∧
      ∃ own', Booting own' 1024 NTASKS b s := by
  obtain ⟨t, ht, own1, hboot⟩ := h.pageInitTop
  obtain ⟨s, hs, hinv⟩ := hboot.taskInitMemory h.window h.pages
  exact ⟨t, s, ht, hs, hinv⟩

theorem SpacesInit.spaceInv (h : SpacesInit s) : ∃ own, SpaceInv own 1024 NTASKS s := by
  obtain ⟨own, b, t, hb, ht, hs⟩ := h
  obtain ⟨t', s', ht', hs', hinv⟩ := hb.init
  rw [ht] at ht'
  cases ht'
  rw [hs] at hs'
  cases hs'
  obtain ⟨own', hinv⟩ := hinv
  exact ⟨own', hinv.inv⟩

/-! ## runs -/

/-- What the tasks do. -/
inductive SpaceEvent where
  | pageFrameAlloc
  | pageMapFlags (p f : Nat) (flags : Fin 0x200)
  | pageUnmap (p : Nat)
  | taskNew (id : Nat)
  | taskSwitch (id : Nat)

namespace SpaceEvent

/-- One event; `none` is a page fault. -/
def next : Spaces → SpaceEvent → Option Spaces
  | s, .pageFrameAlloc => some (spaceFrameAlloc s).2
  | s, .pageMapFlags p f flags => Eclair.pageMapFlags p f flags s
  | s, .pageUnmap p => spaceUnmap p s
  | s, .taskNew id => taskNewSpace id s
  | s, .taskSwitch id => some (taskSwitchSpace id s)

/-- The page an event is an operation on. -/
def page : SpaceEvent → Option Nat
  | .pageMapFlags p _ _ | .pageUnmap p => some p
  | _ => none

/-- The events there are: the kernel task leaves its user half alone, a task
is created in a free slot, and the next task is one that exists. -/
def Allowed (s : Spaces) : SpaceEvent → Prop
  | .pageFrameAlloc => True
  | .pageMapFlags p _ _ | .pageUnmap p => p < 2 ^ 20 ∧ (p / 1024 < 768 → s.taskActive ≠ 0)
  | .taskNew id => id ≠ 0 ∧ id < NTASKS ∧ s.tasks id = false
  | .taskSwitch id => s.tasks id = true

/-- The condition on an event: a page of the kernel half is neither in the
window nor the page of a directory, and a page of the user half has a page
table, or a frame is left for it. -/
def Ok (s : Spaces) (e : SpaceEvent) : Prop :=
  e.Allowed s ∧ (∀ p, e.page = some p → 768 ≤ p / 1024 → KernelPage 1024 NTASKS s p) ∧
    match e with
    | .pageMapFlags p _ _ => p / 1024 < 768 → HasFree s ∨ s.mem s.cr3 (p / 1024) ≠ 0
    | _ => True

end SpaceEvent

/-- The address spaces after `task_init_memory`. -/
def spaceSystem : System Spaces SpaceEvent := System.ofNext SpacesInit SpaceEvent.next

/-- An operation on a page of the user half changes no translation in another
task's space, and one on a page of the kernel half gives the page one
translation in all spaces and changes no other; the other events change none. -/
def Isolated (s : Spaces) (e : SpaceEvent) (s' : Spaces) : Prop :=
  match e.page with
  | some p =>
      if p / 1024 < 768 then
        ∀ d q, s.tasks d = true → d ≠ s.taskActive → q < 2 ^ 20 →
          s'.translation d q = s.translation d q
      else
        (∀ d d', s.tasks d = true → s.tasks d' = true → s'.translation d p = s'.translation d' p) ∧
          ∀ d q, s.tasks d = true → q < 2 ^ 20 → q ≠ p → s'.translation d q = s.translation d q
  | none => ∀ d q, s.tasks d = true → q < 2 ^ 20 → s'.translation d q = s.translation d q

theorem SpaceInv.isolated_user (h : SpaceInv own 1024 NTASKS s) {s' : Spaces} {e : SpaceEvent} {p : Nat}
    (he : e.page = some p) (hp : p / 1024 < 768) (hs : UserStep own 1024 NTASKS s s') :
    (∃ own', SpaceInv own' 1024 NTASKS s') ∧ Isolated s e s' := by
  refine ⟨hs.inv, ?_⟩
  rw [Isolated, he]
  dsimp only
  rw [if_pos hp]
  exact fun d q hd hne hq => h.translation_of_userStep hs hd hne (by omega)

theorem SpaceInv.isolated_kernel (h : SpaceInv own 1024 NTASKS s) {s' : Spaces} {e : SpaceEvent}
    {p v : Nat} (he : e.page = some p) (hp : ¬ p / 1024 < 768) (hk : KernelPage 1024 NTASKS s p)
    (hs : KernelStep own 1024 NTASKS p v s s') :
    (∃ own', SpaceInv own' 1024 NTASKS s') ∧ Isolated s e s' := by
  refine ⟨⟨own, hs.1⟩, ?_⟩
  rw [Isolated, he]
  dsimp only
  rw [if_neg hp]
  refine ⟨fun d d' hd hd' => ?_, fun d q hd hq hne => h.translation_of_kernelStep hs hd (by omega) hne⟩
  obtain ⟨hinv, t, -, -, rfl⟩ := hs
  exact hinv.translation_shared hd hd' hk.table

/-- **One event** that meets the condition raises no page fault, keeps the
invariant, and is isolated. -/
theorem SpaceInv.next (h : SpaceInv own 1024 NTASKS s) {e : SpaceEvent} (ho : e.Ok s) :
    ∃ s', e.next s = some s' ∧ (∃ own', SpaceInv own' 1024 NTASKS s') ∧ Isolated s e s' := by
  obtain ⟨hallow, hkernel, hfree⟩ := ho
  cases e with
  | pageFrameAlloc =>
      obtain ⟨b, hrun, hinv⟩ := h.spaceFrameAlloc
      exact ⟨_, congrArg some hrun, ⟨own, hinv⟩, fun _ _ _ _ => rfl⟩
  | pageMapFlags p f flags =>
      by_cases hp : p / 1024 < 768
      · obtain ⟨s', hrun, hs⟩ := h.mapUser f (hallow.2 hp) hp (by omega : flags.val < 4096) (hfree hp)
        exact ⟨s', hrun, h.isolated_user rfl hp hs⟩
      · have hk := hkernel p rfl (by omega)
        obtain ⟨s', hrun, hs⟩ := h.mapKernel f flags hk
        exact ⟨s', hrun, h.isolated_kernel rfl hp hk hs⟩
  | pageUnmap p =>
      by_cases hp : p / 1024 < 768
      · obtain ⟨s', hrun, hs⟩ := h.unmapUser hp
        exact ⟨s', hrun, h.isolated_user rfl hp hs⟩
      · have hk := hkernel p rfl (by omega)
        obtain ⟨s', hrun, hs⟩ := h.unmapKernel hk
        exact ⟨s', hrun, h.isolated_kernel rfl hp hk hs⟩
  | taskNew id =>
      obtain ⟨hid0, hid, hnew⟩ := hallow
      obtain ⟨m, hrun, hinv, hm⟩ := h.taskNewSpace (.inr hid) hid0 hnew
      exact ⟨_, hrun, ⟨own, hinv⟩, fun d q hd hq =>
        h.translation_of_frame (.inr hid) hnew hm hd (by omega)⟩
  | taskSwitch id =>
      exact ⟨_, rfl, ⟨own, h.taskSwitchSpace hallow⟩, fun _ _ _ _ => translation_taskSwitchSpace⟩

theorem spaceInv_of_reachable (h : spaceSystem.Reachable (fun s e => e.Ok s) s) :
    ∃ own, SpaceInv own 1024 NTASKS s := by
  refine h.invariant (fun s => SpacesInit.spaceInv) ?_
  intro s e s' hinv ho hs
  obtain ⟨own, hinv⟩ := hinv
  obtain ⟨t, ht, hinv', -⟩ := hinv.next ho
  obtain rfl : t = s' := Option.some.inj (ht.symm.trans hs)
  exact hinv'

/-- **Isolation**: in every run whose events meet the condition, the next
event that meets it raises no page fault and is isolated. -/
theorem isolated_of_reachable (h : spaceSystem.Reachable (fun s e => e.Ok s) s) {e : SpaceEvent}
    (ho : e.Ok s) : ∃ s', e.next s = some s' ∧ Isolated s e s' := by
  obtain ⟨own, hinv⟩ := spaceInv_of_reachable h
  obtain ⟨s', hs, -, hiso⟩ := hinv.next ho
  exact ⟨s', hs, hiso⟩

/-! ## two tasks -/

/-- A state after boot: the directory in frame 1, tables for the entries 768
and 769 in frames of the same number, and the window at entry 770. -/
def bootedSpaces : Spaces where
  mem f i :=
    if f = 1 then
      if i = 768 ∨ i = 769 then pageEnt i 0 else if i = 770 then pageEnt 1 0 else 0
    else if f = 768 ∧ i = 0 then pageEnt 1 0 else 0
  bitmap f := f < 1024
  cr3 := 1
  pageDirWrap := 768 * 1024
  pageTableId := 770 * 1024
  pageBreakp := 771 * 1024
  pageDir := ⟨1, 768 * 1024⟩
  pagedirs _ := ⟨0, 0⟩
  taskActive := 0
  tasks d := d == 0

/-- The uses of its frames. -/
def bootedUse (f : Nat) : Option FrameUse :=
  if f = 1 then some (.dir 0) else if f = 768 ∨ f = 769 then some (.ktab f) else none

theorem booted_bootedSpaces : Booted bootedUse bootedSpaces where
  inv := by
    have hzero : ∀ d, Allocated 0 d → d = 0 := fun d hd => hd.resolve_right (Nat.not_lt_zero d)
    have hkernel : ∀ d, bootedSpaces.tasks d = true → d = 0 := fun d hd => by simpa [bootedSpaces] using hd
    refine ⟨by decide, fun f hf => ?_, rfl, rfl, rfl, ?_⟩
    · have hlt : f < 1024 := by
        rw [bootedUse] at hf
        split at hf
        · omega
        · split at hf
          · omega
          · exact absurd rfl hf
      exact ⟨by omega, by simpa [bootedSpaces] using hlt⟩
    · constructor
      case windowTable => decide
      case dir =>
        intro d hd
        rw [hzero d hd]
        rfl
      case dirTable =>
        intro d hd
        rw [hzero d hd]
        exact ⟨by decide, by decide, by decide⟩
      case dirPage =>
        intro d hd
        rw [hzero d hd]
        exact ⟨by decide, by decide⟩
      case tasks => exact fun d hd => .inl (hkernel d hd)
      case kernelTask => rfl
      case window =>
        intro d hd
        rw [hkernel d hd]
        exact ⟨by decide, by decide⟩
      case shared =>
        intro d hd i _
        rw [hkernel d hd]
      case ktab =>
        intro i hi
        have hlow := hi.low
        have hhigh : i < 771 := hi.high
        have hne : i ≠ 770 := hi.ne
        obtain rfl | rfl : i = 768 ∨ i = 769 := by omega
        · exact ⟨768, ⟨by decide, by decide⟩, rfl⟩
        · exact ⟨769, ⟨by decide, by decide⟩, rfl⟩
      case utab =>
        intro d hd i hi
        rw [hkernel d hd]
        left
        show (if i = 768 ∨ i = 769 then pageEnt i 0 else if i = 770 then pageEnt 1 0 else 0) = 0
        rw [if_neg (by omega), if_neg (by omega)]
      case kernelEmpty =>
        intro i hi
        show (if i = 768 ∨ i = 769 then pageEnt i 0 else if i = 770 then pageEnt 1 0 else 0) = 0
        rw [if_neg (by omega), if_neg (by omega)]
  only d hd := by simpa [bootedSpaces] using hd
  dirPage := by decide
  window := by decide
  pages := by decide
  frames := by
    have hsub : Finset.Ico 1024 1405 ⊆
        (Finset.range (BITMAP_SIZE * 8)).filter fun f => bootedSpaces.bitmap f = false := by
      intro f hf
      obtain ⟨h1, h2⟩ := Finset.mem_Ico.mp hf
      refine Finset.mem_filter.mpr ⟨Finset.mem_range.mpr ?_, ?_⟩
      · rw [BITMAP_SIZE]
        omega
      · simpa [bootedSpaces] using h1
    have hcard := Finset.card_le_card hsub
    rw [Nat.card_Ico] at hcard
    exact hcard

/-- Two tasks run after boot, and the first is the current one. -/
theorem exists_twoTasks : ∃ s, spaceSystem.Reachable (fun s e => e.Ok s) s ∧
    s.tasks 1 = true ∧ s.tasks 2 = true ∧ s.taskActive = 1 := by
  obtain ⟨t, s, ht, hs, own, hboot⟩ := booted_bootedSpaces.init
  have hinit : SpacesInit s := ⟨_, _, t, booted_bootedSpaces, ht, hs⟩
  have htasks : s.tasks = fun d => d == 0 := hboot.tasks
  have h1 : s.tasks 1 = false := by rw [htasks]; rfl
  have h2 : s.tasks 2 = false := by rw [htasks]; rfl
  obtain ⟨m₁, hrun₁, hinv₁, -⟩ :=
    hboot.inv.taskNewSpace (.inr (by decide) : Allocated NTASKS 1) (by decide) h1
  obtain ⟨m₂, hrun₂, -, -⟩ :=
    hinv₁.taskNewSpace (.inr (by decide) : Allocated NTASKS 2) (by decide) h2
  have hstart : spaceSystem.Reachable (fun s e => e.Ok s) s := Reachable.of_init hinit
  refine ⟨_, hstart.steps (Steps.head (.taskNew 1) ?_ hrun₁ (Steps.head (.taskNew 2) ?_ hrun₂
    (Steps.head (.taskSwitch 1) ?_ rfl Steps.refl))), ?_, ?_, ?_⟩
  · exact ⟨⟨by decide, by decide, h1⟩, (fun p hp => by cases hp), trivial⟩
  · exact ⟨⟨by decide, by decide, h2⟩, (fun p hp => by cases hp), trivial⟩
  · exact ⟨rfl, (fun p hp => by cases hp), trivial⟩
  · rw [taskSwitchSpace_tasks]
    rfl
  · rw [taskSwitchSpace_tasks]
    rfl
  · exact taskSwitchSpace_taskActive

/-- Task 1 unmaps a page of its user half while task 2 exists. -/
theorem isolated_of_reachable_example :
    ∃ s s', s.tasks 2 = true ∧ s.taskActive = 1 ∧ (SpaceEvent.pageUnmap 0x800).next s = some s' ∧
      Isolated s (.pageUnmap 0x800) s' := by
  obtain ⟨s, hs, -, h2, hact⟩ := exists_twoTasks
  have hok : (SpaceEvent.pageUnmap 0x800).Ok s := by
    refine ⟨⟨by decide, fun _ => ?_⟩, fun p hp hk => ?_, trivial⟩
    · rw [hact]
      decide
    · cases hp
      exact absurd hk (by decide)
  obtain ⟨s', hnext, hiso⟩ := isolated_of_reachable hs hok
  exact ⟨s, s', h2, hact, hnext, hiso⟩

/-- Both entries of a page are there. -/
theorem translate_eq {mem : Frames} {dir q t : Nat} (hd : Entry (mem dir (q / 1024)) t)
    (ht : Entry (mem t (q % 1024)) f) : ∃ r, translate mem dir q = some (f, r) := by
  have hde := hd.allows (.inl rfl)
  obtain ⟨-, rfl⟩ := hd
  have hte := ht.allows (.inl rfl)
  obtain ⟨-, rfl⟩ := ht
  exact ⟨_, if_pos ⟨hde, hte⟩⟩

/-- The window is no page for `page_map`: an entry set there is an entry of
the current directory only, so task 2 does not see what task 1 maps. -/
theorem not_isolated :
    ¬ ∀ s, spaceSystem.Reachable (fun s e => e.Allowed s) s → ∀ e : SpaceEvent, e.Allowed s →
      ∀ s', e.next s = some s' → Isolated s e s' := by
  intro hall
  obtain ⟨s, hs, h1, h2, hact⟩ := exists_twoTasks
  obtain ⟨own, hinv⟩ := spaceInv_of_reachable hs
  have hw := hinv.dirs.windowTable
  have hcr3 : s.cr3 = s.dirFrame 1 := by rw [hinv.cr3, hact]
  have hwin := hinv.dirs.window _ hinv.active
  rw [← hinv.cr3] at hwin
  have hown0 := hinv.dirs.dir 0 (.inl rfl)
  have hlt : s.dirFrame 0 < 2 ^ 20 := (hinv.used _ (by rw [hown0]; exact Option.some_ne_none _)).1
  -- page 5 of the window, mapped to the frame of the kernel's directory
  have hdiv : (s.windowEntry * 1024 + 5) / 1024 = s.windowEntry := by omega
  have hmod : (s.windowEntry * 1024 + 5) % 1024 = 5 := by omega
  have hnext : (SpaceEvent.pageMapFlags (s.windowEntry * 1024 + 5) (s.dirFrame 0) 0).next s =
      some { s with mem := setFrameWord s.mem s.cr3 5 (pageEnt (s.dirFrame 0) 0) } := by
    rw [SpaceEvent.next, pageMapFlags, hinv.pageDirWord, hdiv, Option.bind_some,
      if_neg hwin.ne_zero, Option.bind_some,
      hinv.setPageTableWord (by omega) (by rw [hdiv]; exact hwin), hmod]
    rfl
  have hallow : (SpaceEvent.pageMapFlags (s.windowEntry * 1024 + 5) (s.dirFrame 0) 0).Allowed s := by
    refine ⟨by omega, fun hp => ?_⟩
    omega
  have hiso := hall s (hs.mono fun _ _ ho => ho.1) _ hallow _ hnext
  rw [Isolated] at hiso
  dsimp only [SpaceEvent.page] at hiso
  rw [if_neg (by omega)] at hiso
  have heq := hiso.1 1 2 h1 h2
  obtain ⟨r, hr⟩ : ∃ r, translate (setFrameWord s.mem s.cr3 5 (pageEnt (s.dirFrame 0) 0)) (s.dirFrame 1)
      (s.windowEntry * 1024 + 5) = some (s.dirFrame 0, r) := by
    refine translate_eq (t := s.cr3) ?_ ?_
    · rw [hdiv, setFrameWord_index (by omega), ← hcr3]
      exact hwin
    · rw [hmod, setFrameWord_self]
      exact entry_pageEnt hlt (by decide)
  have hmem2 : setFrameWord s.mem s.cr3 5 (pageEnt (s.dirFrame 0) 0) (s.dirFrame 2) = s.mem (s.dirFrame 2) := by
    rw [hcr3]
    exact setFrameWord_of_ne (hinv.dirs.dirFrame_ne (hinv.dirs.tasks 2 h2) (hinv.dirs.tasks 1 h1) (by decide))
  have hwin2 : Entry (setFrameWord s.mem s.cr3 5 (pageEnt (s.dirFrame 0) 0) (s.dirFrame 2)
      ((s.windowEntry * 1024 + 5) / 1024)) (s.dirFrame 2) := by
    rw [hmem2, hdiv]
    exact hinv.dirs.window 2 h2
  have htrans : translate (setFrameWord s.mem s.cr3 5 (pageEnt (s.dirFrame 0) 0)) (s.dirFrame 2)
      (s.windowEntry * 1024 + 5) = some (s.dirFrame 0, r) := heq.symm.trans hr
  cases hinv.dirs.utab 2 h2 5 (by decide) with
  | inl h0 =>
      have hno : ¬ (0 &&& PAGE_FLAG_P = PAGE_FLAG_P) := by decide
      rw [translate, hwin2.2, hmod, hmem2, h0, if_neg (fun h => hno h.2)] at htrans
      cases htrans
  | inr ht =>
      obtain ⟨t, ht, hown⟩ := ht
      have ht2 : Entry (setFrameWord s.mem s.cr3 5 (pageEnt (s.dirFrame 0) 0) (s.dirFrame 2)
          ((s.windowEntry * 1024 + 5) % 1024)) t := by
        rw [hmem2, hmod]
        exact ht
      obtain ⟨r', hr'⟩ := translate_eq hwin2 ht2
      rw [hr'] at htrans
      injection htrans with htrans
      injection htrans with htrans
      rw [htrans, hown0] at hown
      cases hown

end Eclair
