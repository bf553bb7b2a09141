import Eclair.Lib.System
import Eclair.Mm.Space

/-!
# Eclair.Mm.Isolation

The address spaces of the tasks do not interfere.

Every frame that serves as a directory or a page table has one use
(`FrameUse`): directory of a task, table of the kernel half, or table of the
user half of one task.  `SpaceInv` ties the entries of all directories to
these uses, so that two spaces share exactly the tables of the kernel half.
The operations keep it; `isolated_of_reachable` follows.
-/

namespace Eclair

open Loop System

/-- The use of a frame for paging. -/
inductive FrameUse where
  | dir (id : Nat)
  | ktab (i : Nat)
  | utab (id i : Nat)
  deriving DecidableEq, Repr

/-! ## entries -/

/-- A present and writable entry for the frame. -/
def Entry (w f : Nat) : Prop := w % 4 = 3 ∧ w / 4096 = f

theorem entry_pageEnt {f flags : Nat} (hf : f < 2 ^ 20) (hfl : flags < 4096) :
    Entry (pageEnt f flags) f := by
  have hor : PAGE_FLAG_P ||| PAGE_FLAG_RW ||| flags < 2 ^ 12 :=
    Nat.or_lt_two_pow (by decide) hfl
  have hshift : u32 (f <<< 12) = f <<< 12 := by
    rw [Nat.shiftLeft_eq]
    exact u32_of_lt (by omega)
  have hlow : (PAGE_FLAG_P ||| PAGE_FLAG_RW ||| flags) % 4 = 3 := by
    rw [show 4 = 2 ^ 2 by rfl, Nat.or_mod_two_pow]
    have h4 : flags % 2 ^ 2 < 4 := Nat.mod_lt _ (by decide)
    generalize flags % 2 ^ 2 = x at h4
    revert x
    decide
  rw [Entry, pageEnt, hshift, ← Nat.shiftLeft_add_eq_or_of_lt hor, Nat.shiftLeft_eq]
  omega

variable {mem : Frames} {need dir page t f i j v : Nat}

/-- The flags that a read or a write needs are there. -/
theorem Entry.allows (h : Entry v f) (hn : need = PAGE_FLAG_P ∨ need = PAGE_FLAG_P ||| PAGE_FLAG_RW) :
    v &&& need = need := by
  obtain ⟨h4, -⟩ := h
  cases hn with
  | inl hn =>
      rw [hn, PAGE_FLAG_P, Nat.and_one_is_mod]
      omega
  | inr hn =>
      rw [hn, show PAGE_FLAG_P ||| PAGE_FLAG_RW = 2 ^ 2 - 1 by rfl, Nat.and_two_pow_sub_one_eq_mod]
      exact h4

theorem Entry.ne_zero (h : Entry v f) : v ≠ 0 := by
  intro h0
  have h4 := h.1
  omega

theorem walk_eq (hd : Entry (mem dir (page / 1024)) t) (ht : Entry (mem t (page % 1024)) f)
    (hn : need = PAGE_FLAG_P ∨ need = PAGE_FLAG_P ||| PAGE_FLAG_RW) :
    walk mem need dir page = some f := by
  have hde := hd.allows hn
  obtain ⟨-, rfl⟩ := hd
  have hte := ht.allows hn
  obtain ⟨-, rfl⟩ := ht
  rw [walk, if_pos ⟨hde, hte⟩]

theorem setFrameWord_self : setFrameWord mem f i v f i = v := by
  rw [setFrameWord, if_pos ⟨rfl, rfl⟩]

theorem setFrameWord_of_ne {g : Nat} (h : g ≠ f) : setFrameWord mem f i v g = mem g := by
  funext j
  rw [setFrameWord, if_neg (fun hc => h hc.1)]

theorem setFrameWord_index {g : Nat} (h : j ≠ i) : setFrameWord mem f i v g j = mem g j := by
  rw [setFrameWord, if_neg (fun hc => h hc.2)]

/-! ## the invariant -/

/-- An entry of the kernel half below `n` that is not the window `w`. -/
structure KernelTable (w n i : Nat) : Prop where
  low : 768 ≤ i
  high : i < n
  ne : i ≠ w

/-- The directories of the kernel and of the first `k` slots are allocated. -/
def Allocated (k d : Nat) : Prop := d = 0 ∨ d < k

/-- Directory `d` is frame `D d` and edited through page `P d`, the tables of
the kernel half below entry `n` are shared by the directories of all tasks,
and each task has the tables of its user half for itself. -/
structure DirInv (own : Nat → Option FrameUse) (w n k : Nat) (D P : Nat → Nat) (task : Nat → Bool)
    (mem : Frames) : Prop where
  windowTable : 768 ≤ w ∧ w < n ∧ n ≤ 1024
  dir : ∀ d, Allocated k d → own (D d) = some (.dir d)
  dirTable : ∀ d, Allocated k d → KernelTable w n (P d / 1024)
  dirPage : ∀ d, Allocated k d → Entry (mem (mem (D 0) (P d / 1024) / 4096) (P d % 1024)) (D d)
  tasks : ∀ d, task d = true → Allocated k d
  kernelTask : task 0 = true
  window : ∀ d, task d = true → Entry (mem (D d) w) (D d)
  shared : ∀ d, task d = true → ∀ i, KernelTable w n i → mem (D d) i = mem (D 0) i
  ktab : ∀ i, KernelTable w n i → ∃ t, Entry (mem (D 0) i) t ∧ own t = some (.ktab i)
  utab : ∀ d, task d = true → ∀ i, i < 768 → mem (D d) i = 0 ∨
    ∃ t, Entry (mem (D d) i) t ∧ own t = some (.utab d i)
  kernelEmpty : ∀ i, i < 768 → mem (D 0) i = 0

namespace Spaces

/-- The directory entry through which a directory is its own page table. -/
def windowEntry (s : Spaces) : Nat := s.pageTableId / 1024

/-- The frame of the directory of a task. -/
def dirFrame (s : Spaces) (id : Nat) : Nat := (s.dirOf id).frame

/-- The page of the directory of a task. -/
def dirPage (s : Spaces) (id : Nat) : Nat := (s.dirOf id).page

end Spaces

/-- The directories are as `DirInv` says, one task's is the current one, and
the frames in use are marked. -/
structure SpaceInv (own : Nat → Option FrameUse) (n k : Nat) (s : Spaces) : Prop where
  pageTableId : s.pageTableId = s.windowEntry * 1024
  used : ∀ f, own f ≠ none → f < 2 ^ 20 ∧ s.bitmap f = true
  active : s.tasks s.taskActive = true
  cr3 : s.cr3 = s.dirFrame s.taskActive
  pageDirWrap : s.pageDirWrap = s.dirPage s.taskActive
  dirs : DirInv own s.windowEntry n k s.dirFrame s.dirPage s.tasks s.mem

variable {own : Nat → Option FrameUse} {w n k d : Nat} {s : Spaces}

/-! ## writing to memory -/

namespace DirInv

variable {D P : Nat → Nat} {task : Nat → Bool}

/-- Two directories have two frames. -/
theorem dirFrame_ne (h : DirInv own w n k D P task mem) {e : Nat} (hd : Allocated k d)
    (he : Allocated k e) (hne : d ≠ e) : D d ≠ D e := by
  intro heq
  have hown := h.dir d hd
  rw [heq, h.dir e he] at hown
  cases hown
  exact hne rfl

/-- **A write** that hits no directory of a task and not the entry of a
directory's page keeps the invariant. -/
theorem setFrameWord (h : DirInv own w n k D P task mem)
    (hdir : ∀ d, task d = true → own f ≠ some (.dir d))
    (hpage : ∀ d, Allocated k d → own f = some (.ktab (P d / 1024)) → P d % 1024 ≠ j) :
    DirInv own w n k D P task (setFrameWord mem f j v) := by
  have hmem : ∀ d, task d = true → Eclair.setFrameWord mem f j v (D d) = mem (D d) := by
    intro d hd
    refine setFrameWord_of_ne fun heq => hdir d hd ?_
    rw [← heq]
    exact h.dir d (h.tasks d hd)
  have hmem0 := hmem 0 h.kernelTask
  refine { h with dirPage := ?_, window := ?_, shared := ?_, ktab := ?_, utab := ?_, kernelEmpty := ?_ }
  · intro d hd
    have hp := h.dirPage d hd
    obtain ⟨t, ht, hown⟩ := h.ktab _ (h.dirTable d hd)
    rw [hmem0]
    rw [ht.2] at hp ⊢
    by_cases hf : t = f
    · subst hf
      rw [setFrameWord_index (hpage d hd hown)]
      exact hp
    · rw [setFrameWord_of_ne hf]
      exact hp
  · intro d hd
    rw [hmem d hd]
    exact h.window d hd
  · intro d hd i hi
    rw [hmem d hd, hmem0]
    exact h.shared d hd i hi
  · rw [hmem0]
    exact h.ktab
  · intro d hd
    rw [hmem d hd]
    exact h.utab d hd
  · rw [hmem0]
    exact h.kernelEmpty

/-- Giving a free frame to somebody leaves the other owners. -/
theorem owner_update {x y : FrameUse} {g : Nat} (hf : own f = none) (hg : own g = some x) :
    Function.update own f (some y) g = some x := by
  refine (Function.update_of_ne (fun heq => ?_) _ _).trans hg
  rw [heq, hf] at hg
  cases hg

/-- **Linking** a free frame as a table of the user half of a task. -/
theorem linkUser (h : DirInv own w n k D P task mem) {a : Nat} (ha : task a = true) (ha0 : a ≠ 0)
    (hi : i < 768) (hf : own f = none) (hv : Entry v f) :
    DirInv (Function.update own f (some (.utab a i))) w n k D P task (Eclair.setFrameWord mem (D a) i v) := by
  have hmem : ∀ d, Allocated k d → d ≠ a → Eclair.setFrameWord mem (D a) i v (D d) = mem (D d) :=
    fun d hd hne => setFrameWord_of_ne (h.dirFrame_ne hd (h.tasks a ha) hne)
  have hmem0 := hmem 0 (.inl rfl) (Ne.symm ha0)
  have hkern : ∀ d j, task d = true → j ≠ i → Eclair.setFrameWord mem (D a) i v (D d) j = mem (D d) j :=
    fun d j _ hj => setFrameWord_index hj
  have hw := h.windowTable
  refine { h with dir := ?_, dirPage := ?_, window := ?_, shared := ?_, ktab := ?_, utab := ?_, kernelEmpty := ?_ }
  · intro d hd
    exact owner_update hf (h.dir d hd)
  · intro d hd
    obtain ⟨t, ht, hown⟩ := h.ktab _ (h.dirTable d hd)
    rw [hmem0, setFrameWord_of_ne]
    · exact h.dirPage d hd
    · rw [ht.2]
      intro heq
      rw [heq, h.dir a (h.tasks a ha)] at hown
      cases hown
  · intro d hd
    rw [hkern d w hd (by omega)]
    exact h.window d hd
  · intro d hd j hj
    have hlow := hj.low
    rw [hkern d j hd (by omega), hmem0]
    exact h.shared d hd j hj
  · intro j hj
    obtain ⟨t, ht, htown⟩ := h.ktab j hj
    rw [hmem0]
    exact ⟨t, ht, owner_update hf htown⟩
  · intro d hd j hj
    by_cases hda : d = a ∧ j = i
    · obtain ⟨rfl, rfl⟩ := hda
      rw [setFrameWord_self]
      exact .inr ⟨f, hv, Function.update_self _ _ _⟩
    · have hsame : Eclair.setFrameWord mem (D a) i v (D d) j = mem (D d) j := by
        by_cases hd' : d = a
        · exact setFrameWord_index fun hj' => hda ⟨hd', hj'⟩
        · rw [hmem d (h.tasks d hd) hd']
      rw [hsame]
      cases h.utab d hd j hj with
      | inl h0 => exact .inl h0
      | inr ht =>
          obtain ⟨t, ht, htown⟩ := ht
          exact .inr ⟨t, ht, owner_update hf htown⟩
  · rw [hmem0]
    exact h.kernelEmpty

/-- **Linking** a free frame as the next table of the kernel half, while the
kernel's directory is the only one. -/
theorem linkKernel (h : DirInv own w n k D P task mem) (honly : ∀ d, task d = true → d = 0)
    (hn : n < 1024) (hf : own f = none) (hv : Entry v f) :
    DirInv (Function.update own f (some (.ktab n))) w (n + 1) k D P task
      (Eclair.setFrameWord mem (D 0) n v) := by
  have hw := h.windowTable
  have hold : ∀ j, j ≠ n → Eclair.setFrameWord mem (D 0) n v (D 0) j = mem (D 0) j :=
    fun j hj => setFrameWord_index hj
  constructor
  case windowTable => omega
  case dir =>
    intro d hd
    exact owner_update hf (h.dir d hd)
  case dirTable =>
    intro d hd
    have ht := h.dirTable d hd
    exact ⟨ht.low, Nat.lt_succ_of_lt ht.high, ht.ne⟩
  case dirPage =>
    intro d hd
    obtain ⟨t, ht, htown⟩ := h.ktab _ (h.dirTable d hd)
    have hhigh := (h.dirTable d hd).high
    rw [hold _ (by omega), setFrameWord_of_ne]
    · exact h.dirPage d hd
    · rw [ht.2]
      intro heq
      rw [heq, h.dir 0 (.inl rfl)] at htown
      cases htown
  case tasks => exact h.tasks
  case kernelTask => exact h.kernelTask
  case window =>
    intro d hd
    rw [honly d hd, hold w (by omega)]
    exact h.window 0 h.kernelTask
  case shared =>
    intro d hd i _
    rw [honly d hd]
  case ktab =>
    intro i hi
    by_cases hin : i = n
    · subst hin
      rw [setFrameWord_self]
      exact ⟨f, hv, Function.update_self _ _ _⟩
    · have hhigh := hi.high
      obtain ⟨t, ht, htown⟩ := h.ktab i ⟨hi.low, by omega, hi.ne⟩
      rw [hold i hin]
      exact ⟨t, ht, owner_update hf htown⟩
  case utab =>
    intro d hd i hi
    rw [honly d hd, hold i (by omega)]
    exact .inl (h.kernelEmpty i hi)
  case kernelEmpty =>
    intro i hi
    rw [hold i (by omega)]
    exact h.kernelEmpty i hi

/-- **A new task** whose directory is a copy of the kernel's but for the
window. -/
theorem addTask (h : DirInv own w n k D P task mem) {id : Nat} (hid : Allocated k id)
    (hwin : Entry (mem (D id) w) (D id))
    (hcopy : ∀ i, i < 1024 → i ≠ w → mem (D id) i = mem (D 0) i) :
    DirInv own w n k D P (Function.update task id true) mem := by
  have hold : ∀ d, Function.update task id true d = true → d = id ∨ task d = true := by
    intro d hd
    by_cases hdi : d = id
    · exact .inl hdi
    · rw [Function.update_of_ne hdi] at hd
      exact .inr hd
  have hw := h.windowTable
  refine { h with tasks := ?_, kernelTask := ?_, window := ?_, shared := ?_, utab := ?_ }
  · intro d hd
    cases hold d hd with
    | inl heq => exact heq ▸ hid
    | inr hd => exact h.tasks d hd
  · by_cases h0 : id = 0
    · rw [h0, Function.update_self]
    · rw [Function.update_of_ne (Ne.symm h0)]
      exact h.kernelTask
  · intro d hd
    cases hold d hd with
    | inl heq => exact heq ▸ hwin
    | inr hd => exact h.window d hd
  · intro d hd i hi
    cases hold d hd with
    | inl heq =>
        have hhigh := hi.high
        rw [heq]
        exact hcopy i (by omega) hi.ne
    | inr hd => exact h.shared d hd i hi
  · intro d hd i hi
    cases hold d hd with
    | inl heq =>
        rw [heq, hcopy i (by omega) (by omega)]
        exact .inl (h.kernelEmpty i hi)
    | inr hd => exact h.utab d hd i hi

/-- **The directory of the next slot**: its frame is free, and its page leads
to it. -/
theorem addDir (h : DirInv own w n k D P task mem) (hf : own (D k) = none)
    (ht : KernelTable w n (P k / 1024))
    (hent : Entry (mem (mem (D 0) (P k / 1024) / 4096) (P k % 1024)) (D k)) :
    DirInv (Function.update own (D k) (some (.dir k))) w n (k + 1) D P task mem := by
  have hold : ∀ d, Allocated (k + 1) d → d = k ∨ Allocated k d := by
    intro d hd
    cases hd with
    | inl h0 => exact .inr (.inl h0)
    | inr hlt =>
        by_cases hdk : d = k
        · exact .inl hdk
        · exact .inr (.inr (by omega))
  refine { h with dir := ?_, dirTable := ?_, dirPage := ?_, tasks := ?_, ktab := ?_, utab := ?_ }
  · intro d hd
    cases hold d hd with
    | inl heq => rw [heq, Function.update_self]
    | inr hd =>
        exact owner_update hf (h.dir d hd)
  · intro d hd
    cases hold d hd with
    | inl heq => exact heq ▸ ht
    | inr hd => exact h.dirTable d hd
  · intro d hd
    cases hold d hd with
    | inl heq => exact heq ▸ hent
    | inr hd => exact h.dirPage d hd
  · intro d hd
    cases h.tasks d hd with
    | inl h0 => exact .inl h0
    | inr hlt => exact .inr (Nat.lt_succ_of_lt hlt)
  · intro i hi
    obtain ⟨t, ht, htown⟩ := h.ktab i hi
    exact ⟨t, ht, owner_update hf htown⟩
  · intro d hd i hi
    cases h.utab d hd i hi with
    | inl h0 => exact .inl h0
    | inr ht =>
        obtain ⟨t, ht, htown⟩ := ht
        exact .inr ⟨t, ht, owner_update hf htown⟩

/-- Only the directories that are allocated matter. -/
theorem congr (h : DirInv own w n k D P task mem) {l : Nat} {E Q : Nat → Nat}
    (hl : ∀ d, Allocated l d ↔ Allocated k d)
    (hsame : ∀ d, Allocated k d → E d = D d ∧ Q d = P d) : DirInv own w n l E Q task mem := by
  have h0 := (hsame 0 (.inl rfl)).1
  have htask : ∀ d, task d = true → E d = D d := fun d hd => (hsame d (h.tasks d hd)).1
  constructor
  case windowTable => exact h.windowTable
  case kernelTask => exact h.kernelTask
  case dir =>
    intro d hd
    rw [(hsame d ((hl d).mp hd)).1]
    exact h.dir d ((hl d).mp hd)
  case dirTable =>
    intro d hd
    rw [(hsame d ((hl d).mp hd)).2]
    exact h.dirTable d ((hl d).mp hd)
  case dirPage =>
    intro d hd
    obtain ⟨h1, h2⟩ := hsame d ((hl d).mp hd)
    rw [h0, h1, h2]
    exact h.dirPage d ((hl d).mp hd)
  case tasks => exact fun d hd => (hl d).mpr (h.tasks d hd)
  case window =>
    intro d hd
    rw [htask d hd]
    exact h.window d hd
  case shared =>
    intro d hd
    rw [htask d hd, h0]
    exact h.shared d hd
  case ktab =>
    rw [h0]
    exact h.ktab
  case utab =>
    intro d hd
    rw [htask d hd]
    exact h.utab d hd
  case kernelEmpty =>
    rw [h0]
    exact h.kernelEmpty

end DirInv

/-! ## frames -/

theorem firstFree_lt {bitmap : Nat → Bool} (h : firstFree bitmap n i = some f) : f < i + n := by
  induction n generalizing i with
  | zero => cases h
  | succ n ih =>
      rw [firstFree] at h
      split at h
      · have hlt := ih h
        omega
      · cases h
        omega

/-- A frame is left. -/
def HasFree (s : Spaces) : Prop := firstFree s.bitmap (BITMAP_SIZE * 8) 0 ≠ none

/-- The task's own frames: its directory and its tables, and free frames. -/
def OwnFrame (own : Nat → Option FrameUse) (a g : Nat) : Prop :=
  own g = none ∨ own g = some (.dir a) ∨ ∃ i, own g = some (.utab a i)

/-! ## steps -/

/-- What a step of a task on its user half does: it changes only memory and
bitmap, and of the memory only the task's own frames. -/
structure UserStep (own : Nat → Option FrameUse) (n k : Nat) (s s' : Spaces) : Prop where
  inv : ∃ own', SpaceInv own' n k s'
  rest : s' = { s with mem := s'.mem, bitmap := s'.bitmap }
  frame : ∀ g, ¬ OwnFrame own s.taskActive g → s'.mem g = s.mem g

/-- A page of the kernel half that is not in the window and that is not the
page of a directory. -/
structure KernelPage (n k : Nat) (s : Spaces) (p : Nat) : Prop where
  table : KernelTable s.windowEntry n (p / 1024)
  ne : ∀ d, Allocated k d → s.dirPage d ≠ p

/-- What a step on a page of the kernel half does: it sets the entry of the
page in the one table for it. -/
def KernelStep (own : Nat → Option FrameUse) (n k p v : Nat) (s s' : Spaces) : Prop :=
  SpaceInv own n k s' ∧ ∃ t, own t = some (.ktab (p / 1024)) ∧
    Entry (s.mem (s.dirFrame 0) (p / 1024)) t ∧ s' = { s with mem := setFrameWord s.mem t (p % 1024) v }

namespace SpaceInv

/-- A free frame has no use yet. -/
theorem alloc (h : SpaceInv own n k s) (hf : HasFree s) :
    ∃ f, spaceFrameAlloc s = (f, { s with bitmap := Function.update s.bitmap f true }) ∧
      own f = none ∧ f < 2 ^ 20 ∧
      SpaceInv own n k { s with bitmap := Function.update s.bitmap f true } := by
  obtain ⟨f, hfirst⟩ := Option.ne_none_iff_exists'.mp hf
  have hlt := firstFree_lt hfirst
  have hfree := firstFree_spec hfirst
  have hown : own f = none := by
    by_contra hne
    rw [(h.used f hne).2] at hfree
    cases hfree
  refine ⟨f, ?_, hown, ?_, { h with used := ?_ }⟩
  · rw [spaceFrameAlloc, hfirst]
  · rw [BITMAP_SIZE] at hlt
    omega
  · intro g hg
    refine ⟨(h.used g hg).1, ?_⟩
    have hgf : g ≠ f := by
      intro heq
      rw [heq] at hg
      exact hg hown
    show Function.update s.bitmap f true g = true
    rw [Function.update_of_ne hgf]
    exact (h.used g hg).2

end SpaceInv

namespace SpaceInv

/-! ## what the kernel reaches -/

/-- The page of a directory leads to it in every space. -/
theorem walk_dirPage (h : SpaceInv own n k s) (hd : Allocated k d)
    (hn : need = PAGE_FLAG_P ∨ need = PAGE_FLAG_P ||| PAGE_FLAG_RW) :
    walk s.mem need s.cr3 (s.dirPage d) = some (s.dirFrame d) := by
  have hk := h.dirs.dirTable d hd
  obtain ⟨t, ht, -⟩ := h.dirs.ktab _ hk
  have hp := h.dirs.dirPage d hd
  rw [ht.2] at hp
  rw [← h.dirs.shared _ h.active _ hk, ← h.cr3] at ht
  exact walk_eq ht hp hn

/-- The window leads to the page tables of the current space. -/
theorem walk_window (h : SpaceInv own n k s) (hi : i < 1024) (ht : Entry (s.mem s.cr3 i) t)
    (hn : need = PAGE_FLAG_P ∨ need = PAGE_FLAG_P ||| PAGE_FLAG_RW) :
    walk s.mem need s.cr3 (s.pageTableId + i) = some t := by
  have hw := h.dirs.window _ h.active
  rw [← h.cr3] at hw
  have hdiv : (s.pageTableId + i) / 1024 = s.windowEntry := by
    rw [h.pageTableId]
    omega
  have hmod : (s.pageTableId + i) % 1024 = i := by
    rw [h.pageTableId]
    omega
  rw [← hdiv] at hw
  rw [← hmod] at ht
  exact walk_eq hw ht hn

theorem readDir (h : SpaceInv own n k s) (hd : Allocated k d) :
    readWord (s.dirPage d) i s = some (s.mem (s.dirFrame d) i) := by
  rw [readWord, h.walk_dirPage hd (.inl rfl)]
  rfl

theorem writeDir (h : SpaceInv own n k s) (hd : Allocated k d) :
    writeWord (s.dirPage d) i v s = some { s with mem := setFrameWord s.mem (s.dirFrame d) i v } := by
  rw [writeWord, h.walk_dirPage hd (.inr rfl)]
  rfl

theorem pageDirWord (h : SpaceInv own n k s) : pageDirWord i s = some (s.mem s.cr3 i) := by
  rw [Eclair.pageDirWord, h.pageDirWrap, h.readDir (h.dirs.tasks _ h.active), h.cr3]

theorem setPageDirWord (h : SpaceInv own n k s) :
    setPageDirWord i v s = some { s with mem := setFrameWord s.mem s.cr3 i v } := by
  have hw := h.writeDir (i := i) (v := v) (h.dirs.tasks _ h.active)
  rw [← h.pageDirWrap, ← h.cr3] at hw
  exact hw

theorem setPageTableWord (h : SpaceInv own n k s) {p : Nat} (hp : p / 1024 < 1024)
    (ht : Entry (s.mem s.cr3 (p / 1024)) t) :
    setPageTableWord p v s = some { s with mem := setFrameWord s.mem t (p % 1024) v } := by
  rw [Eclair.setPageTableWord, writeWord, h.walk_window hp ht (.inr rfl)]
  rfl

/-! ## page tables -/

/-- The table of the current space is none of the directories. -/
theorem cr3_own (h : SpaceInv own n k s) : own s.cr3 = some (.dir s.taskActive) := by
  rw [h.cr3]
  exact h.dirs.dir _ (h.dirs.tasks _ h.active)

/-- Writing an entry of a page table that holds no page of a directory, or
not this one. -/
theorem setTable (h : SpaceInv own n k s) (hdir : ∀ d, own t ≠ some (.dir d))
    (hpage : ∀ d, Allocated k d → own t = some (.ktab (s.dirPage d / 1024)) → s.dirPage d % 1024 ≠ j) :
    SpaceInv own n k { s with mem := setFrameWord s.mem t j v } :=
  { h with dirs := h.dirs.setFrameWord (fun d _ => hdir d) hpage }

/-- **Clearing** a page table leaves all other frames as they are. -/
theorem zeroTable (h : SpaceInv own n k s) {p : Nat} (hp : p < 1024) (ht : Entry (s.mem s.cr3 p) t)
    (hdir : ∀ d, own t ≠ some (.dir d))
    (hpage : ∀ d, Allocated k d → own t ≠ some (.ktab (s.dirPage d / 1024))) :
    ∃ m, forLoop (fun i => Eclair.setPageTableWord (p * 1024 + i) 0) 0 1024 s =
        some { s with mem := m } ∧
      SpaceInv own n k { s with mem := m } ∧ ∀ g, g ≠ t → m g = s.mem g := by
  have hne : s.cr3 ≠ t := by
    intro heq
    exact hdir _ (heq ▸ h.cr3_own)
  have hloop := forLoop_spec (f := fun i => Eclair.setPageTableWord (p * 1024 + i) 0) (n := 1024)
    (I := fun _ s' => ∃ m, s' = { s with mem := m } ∧ SpaceInv own n k s' ∧ ∀ g, g ≠ t → m g = s.mem g)
    (i := 0) (s := s) ?_ ⟨s.mem, rfl, h, fun _ _ => rfl⟩
  · obtain ⟨_, hrun, m, rfl, hinv, hm⟩ := hloop
    exact ⟨m, hrun, hinv, hm⟩
  · intro j s' _ hj hi
    obtain ⟨m, rfl, hinv, hm⟩ := hi
    have hdiv : (p * 1024 + j) / 1024 = p := by omega
    have hent : Entry (m s.cr3 ((p * 1024 + j) / 1024)) t := by
      rw [hdiv, hm _ hne]
      exact ht
    refine ⟨_, hinv.setPageTableWord (by omega) hent, _, rfl,
      hinv.setTable hdir (fun d hd hown => absurd hown (hpage d hd)), fun g hg => ?_⟩
    rw [setFrameWord_of_ne hg]
    exact hm g hg

/-- **A new page table** of the user half of the current task. -/
theorem mapUserTable (h : SpaceInv own n k s) (ha : s.taskActive ≠ 0) (hi : i < 768)
    (hf : own f = none) (hlt : f < 2 ^ 20) (hbit : s.bitmap f = true) {flags : Nat}
    (hfl : flags < 4096) :
    ∃ m, pageMapTableFlags i f flags s = some { s with mem := m } ∧
      SpaceInv (Function.update own f (some (.utab s.taskActive i))) n k { s with mem := m } ∧
      Entry (m s.cr3 i) f ∧ ∀ g, g ≠ f → g ≠ s.cr3 → m g = s.mem g := by
  have hne : s.cr3 ≠ f := by
    intro heq
    have hown := h.cr3_own
    rw [heq, hf] at hown
    cases hown
  have hent := entry_pageEnt hlt hfl
  have hlink : SpaceInv (Function.update own f (some (.utab s.taskActive i))) n k
      { s with mem := setFrameWord s.mem s.cr3 i (pageEnt f flags) } := by
    refine { h with used := ?_, dirs := ?_ }
    · intro g hg
      by_cases hgf : g = f
      · rw [hgf]
        exact ⟨hlt, hbit⟩
      · rw [Function.update_of_ne hgf] at hg
        exact h.used g hg
    · rw [h.cr3]
      exact h.dirs.linkUser h.active ha hi hf hent
  have hself := Function.update_self f (some (FrameUse.utab s.taskActive i)) own
  obtain ⟨m, hrun, hinv, hm⟩ := hlink.zeroTable (p := i) (t := f) (by omega)
    (by
      show Entry (setFrameWord s.mem s.cr3 i (pageEnt f flags) s.cr3 i) f
      rw [setFrameWord_self]
      exact hent)
    (fun d heq => by
      rw [hself] at heq
      cases heq)
    (fun d _ heq => by
      rw [hself] at heq
      cases heq)
  refine ⟨m, ?_, hinv, ?_, fun g hg1 hg2 => ?_⟩
  · rw [pageMapTableFlags, h.setPageDirWord, Option.bind_some]
    exact hrun
  · rw [hm _ hne]
    show Entry (setFrameWord s.mem s.cr3 i (pageEnt f flags) s.cr3 i) f
    rw [setFrameWord_self]
    exact hent
  · rw [hm g hg1]
    exact setFrameWord_of_ne hg2

/-! ## pages of the user half -/

/-- Setting an entry of a table of the current task. -/
theorem setUserTable (h : SpaceInv own n k s) {p : Nat} (hp : p / 1024 < 768)
    (hne : s.mem s.cr3 (p / 1024) ≠ 0) :
    ∃ s', Eclair.setPageTableWord p v s = some s' ∧ UserStep own n k s s' := by
  have hu := h.dirs.utab _ h.active _ hp
  rw [← h.cr3] at hu
  cases hu with
  | inl h0 => exact absurd h0 hne
  | inr ht =>
      obtain ⟨t, ht, hown⟩ := ht
      refine ⟨_, h.setPageTableWord (by omega) ht, ⟨own, h.setTable ?_ ?_⟩, rfl, fun g hg => ?_⟩
      · intro d heq
        rw [hown] at heq
        cases heq
      · intro d _ heq
        rw [hown] at heq
        cases heq
      · refine setFrameWord_of_ne ?_
        intro heq
        exact hg (.inr (.inr ⟨_, heq ▸ hown⟩))

/-- **Mapping** a page of the user half. -/
theorem mapUser (h : SpaceInv own n k s) (fr : Nat) (ha : s.taskActive ≠ 0) {p flags : Nat}
    (hp : p / 1024 < 768) (hfl : flags < 4096) (hfree : HasFree s ∨ s.mem s.cr3 (p / 1024) ≠ 0) :
    ∃ s', pageMapFlags p fr flags s = some s' ∧ UserStep own n k s s' := by
  rw [pageMapFlags, h.pageDirWord, Option.bind_some]
  by_cases h0 : s.mem s.cr3 (p / 1024) = 0
  · obtain ⟨f, halloc, hf, hlt, hinv⟩ := h.alloc (hfree.resolve_right fun hne => hne h0)
    have hbit := Function.update_self f true s.bitmap
    obtain ⟨m, hrun, hinv, hent, hm⟩ := hinv.mapUserTable ha hp hf hlt hbit hfl
    obtain ⟨s', hset, ⟨own', hinv'⟩, hrest, hframe⟩ := hinv.setUserTable (v := pageEnt fr flags) hp hent.ne_zero
    rw [if_pos h0, halloc]
    dsimp only
    rw [hrun]
    refine ⟨s', hset, ⟨own', hinv'⟩, ?_, fun g hg => ?_⟩
    · rw [hrest]
    · have hgf : g ≠ f := by
        intro heq
        exact hg (.inl (heq ▸ hf))
      have hgc : g ≠ s.cr3 := by
        intro heq
        exact hg (.inr (.inl (heq ▸ h.cr3_own)))
      rw [hframe g]
      · exact hm g hgf hgc
      · intro hown
        apply hg
        rw [OwnFrame, Function.update_of_ne hgf] at hown
        exact hown
  · rw [if_neg h0]
    exact h.setUserTable hp h0

/-- **Unmapping** a page of the user half. -/
theorem unmapUser (h : SpaceInv own n k s) {p : Nat} (hp : p / 1024 < 768) :
    ∃ s', spaceUnmap p s = some s' ∧ UserStep own n k s s' := by
  rw [spaceUnmap, h.pageDirWord, Option.bind_some]
  by_cases h0 : s.mem s.cr3 (p / 1024) = 0
  · rw [if_pos h0]
    exact ⟨s, rfl, ⟨own, h⟩, rfl, fun _ _ => rfl⟩
  · rw [if_neg h0]
    exact h.setUserTable hp h0

/-! ## pages of the kernel half -/

/-- Setting an entry of a table of the kernel half. -/
theorem setKernelTable (h : SpaceInv own n k s) {p : Nat} (hp : KernelPage n k s p) :
    s.mem s.cr3 (p / 1024) ≠ 0 ∧
      ∃ s', Eclair.setPageTableWord p v s = some s' ∧ KernelStep own n k p v s s' := by
  obtain ⟨t, ht, hown⟩ := h.dirs.ktab _ hp.table
  have ht' := ht
  rw [← h.dirs.shared _ h.active _ hp.table, ← h.cr3] at ht'
  have hhigh := hp.table.high
  have hn := h.dirs.windowTable
  refine ⟨ht'.ne_zero, _, h.setPageTableWord (by omega) ht', h.setTable ?_ ?_, t, hown, ht, rfl⟩
  · intro d heq
    rw [hown] at heq
    cases heq
  · intro d hd heq hmod
    rw [hown] at heq
    have hdiv : p / 1024 = s.dirPage d / 1024 := by
      injection heq with heq
      injection heq
    exact hp.ne d hd (by omega)

/-- **Mapping** a page of the kernel half. -/
theorem mapKernel (h : SpaceInv own n k s) {p : Nat} (fr flags : Nat) (hp : KernelPage n k s p) :
    ∃ s', pageMapFlags p fr flags s = some s' ∧ KernelStep own n k p (pageEnt fr flags) s s' := by
  obtain ⟨hne, hset⟩ := h.setKernelTable (v := pageEnt fr flags) hp
  rw [pageMapFlags, h.pageDirWord, Option.bind_some, if_neg hne]
  exact hset

/-- **Unmapping** a page of the kernel half. -/
theorem unmapKernel (h : SpaceInv own n k s) {p : Nat} (hp : KernelPage n k s p) :
    ∃ s', spaceUnmap p s = some s' ∧ KernelStep own n k p 0 s s' := by
  obtain ⟨hne, hset⟩ := h.setKernelTable (v := 0) hp
  rw [spaceUnmap, h.pageDirWord, Option.bind_some, if_neg hne]
  exact hset

/-! ## new tasks and switches -/

/-- **Cloning** the kernel's directory into one that no task uses. -/
theorem pageCloneDirectory (h : SpaceInv own n k s) {id : Nat} (hid : Allocated k id)
    (hnew : s.tasks id = false) :
    ∃ m, pageCloneDirectory (s.dirFrame id) (s.dirPage id) s = some { s with mem := m } ∧
      SpaceInv own n k { s with mem := m } ∧ (∀ g, g ≠ s.dirFrame id → m g = s.mem g) ∧
      Entry (m (s.dirFrame id) s.windowEntry) (s.dirFrame id) ∧
      ∀ i, i < 1024 → i ≠ s.windowEntry → m (s.dirFrame id) i = s.mem (s.dirFrame 0) i := by
  have hown := h.dirs.dir id hid
  have hne : s.dirFrame 0 ≠ s.dirFrame id := by
    refine h.dirs.dirFrame_ne (.inl rfl) hid ?_
    intro h0
    rw [← h0, h.dirs.kernelTask] at hnew
    cases hnew
  -- writes to the new directory are harmless until it is in use
  have hwrite : ∀ m j v, SpaceInv own n k { s with mem := m } →
      SpaceInv own n k { s with mem := setFrameWord m (s.dirFrame id) j v } := by
    intro m j v hi
    refine { hi with dirs := hi.dirs.setFrameWord (fun d hd heq => ?_) (fun d _ heq => ?_) }
    · rw [hown] at heq
      cases heq
      rw [hd] at hnew
      cases hnew
    · rw [hown] at heq
      cases heq
  have hcopy := forLoop_spec (n := 1024) (i := 0) (s := s)
    (f := fun i t => (readWord t.pageDir.page i t).bind fun w => writeWord (s.dirPage id) i w t)
    (I := fun j t => ∃ m, t = { s with mem := m } ∧ SpaceInv own n k t ∧
      (∀ g, g ≠ s.dirFrame id → m g = s.mem g) ∧
      ∀ i, i < j → m (s.dirFrame id) i = s.mem (s.dirFrame 0) i)
    ?_ ⟨s.mem, rfl, h, fun _ _ => rfl, fun i hi => absurd hi (Nat.not_lt_zero i)⟩
  · obtain ⟨_, hrun, m, rfl, hinv, hm, hsame⟩ := hcopy
    have hlt : s.dirFrame id < 2 ^ 20 :=
      (h.used _ (by rw [hown]; exact Option.some_ne_none _)).1
    refine ⟨setFrameWord m (s.dirFrame id) s.windowEntry (pageEnt (s.dirFrame id) 0), ?_,
      hwrite m _ _ hinv, fun g hg => ?_, ?_, fun i hi hiw => ?_⟩
    · rw [Eclair.pageCloneDirectory, hrun, Option.bind_some]
      exact hinv.writeDir hid
    · rw [setFrameWord_of_ne hg]
      exact hm g hg
    · rw [setFrameWord_self]
      exact entry_pageEnt hlt (by decide)
    · rw [setFrameWord_index hiw]
      exact hsame i (by omega)
  · intro j t _ hj hi
    obtain ⟨m, rfl, hinv, hm, hsame⟩ := hi
    have hread : readWord s.pageDir.page j { s with mem := m } = some (s.mem (s.dirFrame 0) j) := by
      rw [← hm _ hne]
      exact hinv.readDir (.inl rfl)
    refine ⟨{ s with mem := setFrameWord m (s.dirFrame id) j (s.mem (s.dirFrame 0) j) }, ?_, _, rfl,
      hwrite m j _ hinv, fun g hg => ?_, fun i hi => ?_⟩
    · dsimp only
      rw [hread, Option.bind_some]
      exact hinv.writeDir hid
    · rw [setFrameWord_of_ne hg]
      exact hm g hg
    · by_cases hij : i = j
      · rw [hij, setFrameWord_self]
      · rw [setFrameWord_index hij]
        exact hsame i (by omega)

/-- **A new task** changes only the frame of its directory. -/
theorem taskNewSpace (h : SpaceInv own n k s) {id : Nat} (hid : Allocated k id) (hid0 : id ≠ 0)
    (hnew : s.tasks id = false) :
    ∃ m, taskNewSpace id s =
        some { s with mem := m, tasks := Function.update s.tasks id true } ∧
      SpaceInv own n k { s with mem := m, tasks := Function.update s.tasks id true } ∧
      ∀ g, g ≠ s.dirFrame id → m g = s.mem g := by
  obtain ⟨m, hrun, hinv, hm, hwin, hcopy⟩ := h.pageCloneDirectory hid hnew
  have hdirOf : s.dirOf id = s.pagedirs id := if_neg hid0
  have hm0 : m (s.dirFrame 0) = s.mem (s.dirFrame 0) :=
    hm _ (h.dirs.dirFrame_ne (.inl rfl) hid (Ne.symm hid0))
  refine ⟨m, ?_, { hinv with active := ?_, dirs := hinv.dirs.addTask hid hwin ?_ }, hm⟩
  · rw [Eclair.taskNewSpace, ← hdirOf]
    exact congrArg _ hrun
  · show Function.update s.tasks id true s.taskActive = true
    by_cases heq : s.taskActive = id
    · rw [heq, Function.update_self]
    · rw [Function.update_of_ne heq]
      exact h.active
  · intro i hi hiw
    show m (s.dirFrame id) i = m (s.dirFrame 0) i
    rw [hm0]
    exact hcopy i hi hiw

/-- **A switch** to another task. -/
theorem taskSwitchSpace (h : SpaceInv own n k s) {id : Nat} (hid : s.tasks id = true) :
    SpaceInv own n k (taskSwitchSpace id s) := by
  rw [Eclair.taskSwitchSpace]
  by_cases heq : (s.dirOf id).frame = s.cr3
  · have hact : id = s.taskActive := by
      by_contra hne
      refine h.dirs.dirFrame_ne (h.dirs.tasks _ hid) (h.dirs.tasks _ h.active) hne ?_
      rw [← h.cr3]
      exact heq
    rw [if_pos heq]
    exact { h with
      active := hid
      cr3 := heq.symm
      pageDirWrap := by
        rw [h.pageDirWrap, ← hact]
        rfl }
  · rw [if_neg heq]
    exact { h with active := hid, cr3 := rfl, pageDirWrap := rfl }

/-- Taking a frame changes no directory. -/
theorem spaceFrameAlloc (h : SpaceInv own n k s) :
    ∃ b, (spaceFrameAlloc s).2 = { s with bitmap := b } ∧ SpaceInv own n k { s with bitmap := b } := by
  by_cases hf : HasFree s
  · obtain ⟨f, hrun, -, -, hinv⟩ := h.alloc hf
    rw [hrun]
    exact ⟨_, rfl, hinv⟩
  · rw [HasFree, not_not] at hf
    rw [Eclair.spaceFrameAlloc, hf]
    exact ⟨_, rfl, h⟩

end SpaceInv

/-! ## translations -/

namespace Spaces

/-- The translation of a page in the space of a task. -/
def translation (s : Spaces) (id p : Nat) : Option (Nat × Nat) := translate s.mem (s.dirFrame id) p

end Spaces

theorem translation_taskSwitchSpace {id p : Nat} :
    (taskSwitchSpace id s).translation d p = s.translation d p := by
  unfold taskSwitchSpace
  by_cases heq : (s.dirOf id).frame = s.cr3
  · simp only [heq, if_true]
    rfl
  · simp only [heq, if_false]
    rfl

/-- A translation depends on one entry of the directory and one of the table. -/
theorem translate_congr {m : Frames} {dir q : Nat} (hd : m dir (q / 1024) = mem dir (q / 1024))
    (ht : mem dir (q / 1024) = 0 ∨
      m (mem dir (q / 1024) / 4096) (q % 1024) = mem (mem dir (q / 1024) / 4096) (q % 1024)) :
    translate m dir q = translate mem dir q := by
  rw [translate, translate, hd]
  cases ht with
  | inl h0 =>
      have hno : ¬ (0 &&& PAGE_FLAG_P = PAGE_FLAG_P) := by decide
      simp only [h0, hno, false_and, if_false]
  | inr ht => rw [ht]

namespace SpaceInv

variable {q : Nat}

/-- What a space reads to translate a page: its directory, and no table or
one that is its own or of the kernel half. -/
theorem table_own (h : SpaceInv own 1024 k s) (hd : s.tasks d = true) (hq : q / 1024 < 1024) :
    s.mem (s.dirFrame d) (q / 1024) = 0 ∨
      own (s.mem (s.dirFrame d) (q / 1024) / 4096) = some (.dir d) ∨
      own (s.mem (s.dirFrame d) (q / 1024) / 4096) = some (.ktab (q / 1024)) ∨
      own (s.mem (s.dirFrame d) (q / 1024) / 4096) = some (.utab d (q / 1024)) := by
  by_cases hlow : q / 1024 < 768
  · cases h.dirs.utab d hd _ hlow with
    | inl h0 => exact .inl h0
    | inr ht =>
        obtain ⟨t, ht, hown⟩ := ht
        rw [ht.2]
        exact .inr (.inr (.inr hown))
  · by_cases hw : q / 1024 = s.windowEntry
    · rw [hw, (h.dirs.window d hd).2]
      exact .inr (.inl (h.dirs.dir d (h.dirs.tasks d hd)))
    · have hk : KernelTable s.windowEntry 1024 (q / 1024) := ⟨by omega, hq, hw⟩
      obtain ⟨t, ht, hown⟩ := h.dirs.ktab _ hk
      rw [h.dirs.shared d hd _ hk, ht.2]
      exact .inr (.inr (.inl hown))

/-- Pages of the kernel half have one translation. -/
theorem translation_shared (h : SpaceInv own 1024 k s) {e : Nat} (hd : s.tasks d = true)
    (he : s.tasks e = true) (hq : KernelTable s.windowEntry 1024 (q / 1024)) :
    s.translation d q = s.translation e q := by
  rw [Spaces.translation, Spaces.translation, translate, translate, h.dirs.shared d hd _ hq,
    h.dirs.shared e he _ hq]

/-- A step of a task on its user half leaves the other spaces as they are. -/
theorem translation_of_userStep (h : SpaceInv own 1024 k s) {s' : Spaces} (hs : UserStep own 1024 k s s')
    (hd : s.tasks d = true) (hne : d ≠ s.taskActive) (hq : q / 1024 < 1024) :
    s'.translation d q = s.translation d q := by
  have hframe : s'.dirFrame d = s.dirFrame d := by
    rw [hs.rest]
    rfl
  have hdir : s'.mem (s.dirFrame d) = s.mem (s.dirFrame d) := by
    refine hs.frame _ ?_
    rw [OwnFrame, h.dirs.dir d (h.dirs.tasks d hd)]
    simp [hne]
  rw [Spaces.translation, Spaces.translation, hframe]
  refine translate_congr (congrFun hdir _) ?_
  rcases h.table_own hd hq with h0 | hown | hown | hown
  · exact .inl h0
  all_goals
    refine .inr (congrFun (hs.frame _ ?_) _)
    rw [OwnFrame, hown]
    simp [hne]

/-- A step on a page of the kernel half leaves all other pages as they are. -/
theorem translation_of_kernelStep (h : SpaceInv own 1024 k s) {s' : Spaces} {p : Nat}
    (hs : KernelStep own 1024 k p v s s') (hd : s.tasks d = true) (hq : q / 1024 < 1024)
    (hne : q ≠ p) : s'.translation d q = s.translation d q := by
  obtain ⟨-, t, hown, -, rfl⟩ := hs
  have hdir : s.dirFrame d ≠ t := by
    intro heq
    rw [← heq, h.dirs.dir d (h.dirs.tasks d hd)] at hown
    cases hown
  refine translate_congr (congrFun (setFrameWord_of_ne hdir) _) ?_
  by_cases ht : s.mem (s.dirFrame d) (q / 1024) / 4096 = t
  · cases h.table_own hd hq with
    | inl h0 => exact .inl h0
    | inr howns =>
        rw [ht, hown] at howns
        have hdiv : p / 1024 = q / 1024 := by simpa using howns
        exact .inr (setFrameWord_index (by omega))
  · exact .inr (congrFun (setFrameWord_of_ne ht) _)

/-- A new task changes no translation of the others. -/
theorem translation_of_frame (h : SpaceInv own 1024 k s) {m : Frames} {id : Nat} (hid : Allocated k id)
    (hnew : s.tasks id = false) (hm : ∀ g, g ≠ s.dirFrame id → m g = s.mem g)
    (hd : s.tasks d = true) (hq : q / 1024 < 1024) :
    translate m (s.dirFrame d) q = s.translation d q := by
  have hne : d ≠ id := by
    intro heq
    rw [← heq, hd] at hnew
    cases hnew
  have hown := h.dirs.dir id hid
  refine translate_congr (congrFun (hm _ (h.dirs.dirFrame_ne (h.dirs.tasks d hd) hid hne)) _) ?_
  cases h.table_own hd hq with
  | inl h0 => exact .inl h0
  | inr howns =>
      refine .inr (congrFun (hm _ fun heq => ?_) _)
      rw [heq, hown] at howns
      simp [Ne.symm hne] at howns

end SpaceInv

end Eclair
