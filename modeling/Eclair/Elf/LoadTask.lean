import Eclair.Lib.System
import Eclair.Elf.Args

/-!
# Eclair.Elf.LoadTask

Starting a program: `sys_pexec` and `elf_load_task` in the calling task,
`load_entry` and `task_terminate` in the new one, and `task_cleanup`.

The two tasks meet in the result word `res`, which belongs to the caller
that holds `dummy`; other callers take it in turns with this one.  The
steps of the tasks come in any order.  What lies between a `task_lockcli`
and its `task_unlockcli` is one step.

Of the new task only a load that fails is followed to its end.  It has no
special mappings and no open files then, so `task_free` releases the pages
below its break and their tables.
-/

namespace Eclair

open System

/-! ## the node -/

namespace LoadNode

/-- `load_entry` opens a node that is not open, or open for reading. -/
def canOpen (n : LoadNode) : Bool := n.refcnt = 0 || hasFlag n.oflags FS_READ

/-- `fs_close`. -/
def fsClose (n : LoadNode) : LoadNode := { n with refcnt := n.refcnt - 1 }

end LoadNode

/-- The node after `load_entry`, which closes it only when the load
succeeds. -/
def loadedNode (ok : Bool) (node : Option LoadNode) : Option LoadNode :=
  node.map fun n => if !n.canOpen then n else if ok then n.fsOpen.fsClose else n.fsOpen

/-! ## the frames -/

/-- `page_get_table_frame`. -/
def pageGetTableFrame (pt : Nat) (p : Paging) : Nat := (p.dir pt).getD 0

/-- `if (f) page_frame_free(f)` for each of the frames that `get` finds; also
the frames released. -/
def freeEach (get : Nat → Paging → Nat) (is : List Nat) (r : List Nat × Paging) :
    List Nat × Paging :=
  is.foldl (fun r i =>
    let f := get i r.2
    if f = 0 then r else (r.1 ++ [f], pageFrameFree f r.2)) r

/-- The frames part of `task_free`. -/
def taskFreeFrames (brkp : Nat) (p : Paging) : List Nat × Paging :=
  let npages := align brkp 0x1000 / 0x1000
  freeEach pageGetTableFrame (List.range (align npages 0x400 / 0x400))
    (freeEach pageGetFrame (List.range npages) ([], p))

/-- The frames that are in use in `p'` but not in `p`. -/
def newFrames (p p' : Paging) : List Nat :=
  (List.range (BITMAP_SIZE * 8)).filter fun f => !p.bitmap f && p'.bitmap f

/-! ## the two tasks -/

/-- A call of `sys_pexec`: its arguments, what `kmalloc` returns for the
copies, for the control block of the new task and for its stack, the node
that the path leads to, the page tables that `page_clone_directory` makes,
and the task map. -/
structure LoadCall where
  kmalloc : Nat → Nat → Nat
  path : Nat
  argv : Nat
  envp : Nat
  mem : ByteMem
  task : Nat
  stack : Nat
  node : Option LoadNode
  paging : Paging
  taskmap : Nat → Option TaskPtr

/-- Where the calling task is. -/
inductive Caller where
  | enter
  /-- the arguments are copied; at `task_acquire(dummy)` -/
  | acquire (px : Pexec)
  | create (px : Pexec)
  /-- `while (!res);` -/
  | wait (px : Pexec) (pid : Nat)
  | release (px : Pexec) (pid : Nat) (pres : Int)
  | finish (px : Pexec) (pid : Nat) (pres : Int)
  | returned (eax : Int)
  /-- `task->id` of the null pointer that `task_new` returned -/
  | fault

/-- Where the new task is. -/
inductive Child where
  | none
  | created (id : Nat)
  /-- the result is there; at `task_terminate` -/
  | failed (id : Nat)
  /-- at `task_entry` -/
  | loaded (id : Nat)
  | terminated (id : Nat)
  /-- after `task_cleanup` -/
  | gone

/-- Who holds `dummy`. -/
inductive Holder where
  | caller | other
  deriving DecidableEq

/-- The loader's static variables, the two tasks, and what they act upon. -/
structure LoadState where
  caller : Caller
  child : Child
  res : Int
  /-- `dummy->held` -/
  held : Option Holder
  node : Option LoadNode
  paging : Paging
  /-- the break of the new task -/
  brkp : Nat
  taskmap : Nat → Option TaskPtr
  /-- ghost: the blocks that `kmalloc` gave for this call, and those of them
  that `kfree` got back -/
  blocks : List Nat
  kfreed : List Nat
  /-- ghost: the frames that the load took, and those that were released -/
  frames : List Nat
  released : List Nat

/-- The slot that `task_new` takes. -/
def freeTaskSlot (taskmap : Nat → Option TaskPtr) : Option Nat :=
  (List.range NTASKS).find? fun i => (taskmap i).isNone

namespace Pexec

/-- The copies that `sys_pexec` made. -/
def blocks (px : Pexec) : List Nat := [px.npath, px.nargv, px.nenvp]

end Pexec

/-- A step of the calling task; `none` while it waits. -/
def callerNext (c : LoadCall) (s : LoadState) : Option LoadState :=
  match s.caller with
  | .enter => match sysPexec c.kmalloc c.path c.argv c.envp c.mem with
      | none => none
      | some (.error e) => some { s with caller := .returned e }
      | some (.ok px) => some { s with caller := .acquire px, blocks := s.blocks ++ px.blocks }
  | .acquire px =>
      if s.held.isSome then none else some { s with caller := .create px, held := some .caller }
  | .create px => match freeTaskSlot s.taskmap with
      | none => some { s with caller := .fault, res := 0 }
      | some id =>
          some { s with
            caller := .wait px id
            child := .created id
            res := 0
            taskmap := Function.update s.taskmap id (some c.task)
            blocks := s.blocks ++ [c.task, c.stack] }
  | .wait px pid =>
      if s.res = 0 then none else some { s with caller := .release px pid s.res, res := 0 }
  | .release px pid pres => some { s with caller := .finish px pid pres, held := none }
  | .finish px pid pres =>
      if pres < 0 then
        some { s with caller := .returned pres, kfreed := s.kfreed ++ px.blocks }
      else some { s with caller := .returned pid }
  | .returned _ => none
  | .fault => none

/-- A step of the new task: `load_entry`, or `task_terminate`. -/
def childNext (s : LoadState) : Option LoadState :=
  match s.child with
  | .created id =>
      let r := loadEntry s.node (freshTask s.paging)
      let s := { s with
        node := loadedNode r.1.isSome s.node
        paging := r.2.paging
        brkp := r.2.brkp
        frames := newFrames s.paging r.2.paging }
      if r.1.isSome then some { s with child := .loaded id, res := 1 }
      else some { s with child := .failed id, res := -1 }
  | .failed id =>
      let r := taskFreeFrames s.brkp s.paging
      some { s with child := .terminated id, paging := r.2, released := r.1 }
  | _ => none

/-- `task_cleanup`. -/
def cleanupNext (c : LoadCall) (s : LoadState) : Option LoadState :=
  match s.child with
  | .terminated id =>
      some { s with
        child := .gone
        taskmap := Function.update s.taskmap id none
        kfreed := s.kfreed ++ [c.stack, c.task] }
  | _ => none

inductive LoadEvent where
  | caller | child | cleanup
  /-- another caller takes `dummy`, uses the result word, and gives them
  back -/
  | otherAcquire
  | otherRes (r : Int)
  | otherRelease

def LoadEvent.next (c : LoadCall) (s : LoadState) : LoadEvent → Option LoadState
  | .caller => callerNext c s
  | .child => childNext s
  | .cleanup => cleanupNext c s
  | .otherAcquire => if s.held = none then some { s with held := some .other } else none
  | .otherRes r => if s.held = some .other then some { s with res := r } else none
  | .otherRelease => if s.held = some .other ∧ s.res = 0 then some { s with held := none } else none

/-- The call begins; `dummy` is free and the result word 0, or another caller
is using them. -/
def LoadInit (c : LoadCall) (s : LoadState) : Prop :=
  ∃ res held, (held = none → res = 0) ∧ held ≠ some .caller ∧
    s = ⟨.enter, .none, res, held, c.node, c.paging, 0, c.taskmap, [], [], [], []⟩

/-- The runs of one call. -/
def loadSystem (c : LoadCall) : System LoadState LoadEvent :=
  System.ofNext (LoadInit c) (LoadEvent.next c)

/-! ## the property -/

/-- The call has returned and the new task has been cleaned up. -/
def LoadState.Over (s : LoadState) : Prop := s.child = .gone ∧ ∃ eax, s.caller = .returned eax

/-- The call returned an error, and everything is as before it: the node, the
task map, every block and every frame given back once, and the loader free
for the next caller. -/
structure NoTrace (c : LoadCall) (s : LoadState) : Prop where
  error : ∃ e, e < 0 ∧ s.caller = .returned e
  node : s.node = c.node
  taskmap : s.taskmap = c.taskmap
  blocks : s.kfreed.Perm s.blocks
  frames : s.released.Perm s.frames
  ready : s.held ≠ some .caller ∧ (s.held = none → s.res = 0)

/-- Whatever order the steps come in, the call and the clean-up can be
completed, and then there is no trace. -/
def LeavesNoTrace (c : LoadCall) : Prop :=
  ∀ s, (loadSystem c).Reachable Any s →
    (∃ s', (loadSystem c).Steps Any s s' ∧ s'.Over) ∧ (s.Over → NoTrace c s)

/-- There is no task slot, or the new task cannot load the file. -/
def LoadFails (c : LoadCall) : Prop :=
  freeTaskSlot c.taskmap = none ∨ (loadEntry c.node (freshTask c.paging)).1 = none

/-- `page_clone_directory` copies the kernel's directory, which has no tables
in the user half. -/
def FreshDirectory (p : Paging) : Prop := ∀ pt, pt < 768 → p.dir pt = none

/-! ## the condition -/

/-- There is a task slot, and the file is missing or open, but not for
reading. -/
def FailsEarly (c : LoadCall) : Prop :=
  (freeTaskSlot c.taskmap).isSome ∧ ∀ n, c.node = some n → n.canOpen = false

variable {c : LoadCall} {s s' : LoadState} {px : Pexec} {id : Nat} {p : Paging}

/-! ## a load that opens nothing -/

/-- A file that cannot be opened is left alone, and nothing is mapped. -/
theorem loadEntry_of_cannotOpen {node : Option LoadNode} (l : Loader)
    (h : ∀ n, node = some n → n.canOpen = false) :
    loadEntry node l = (none, l) ∧ loadedNode false node = node := by
  cases node with
  | none => exact ⟨rfl, rfl⟩
  | some n =>
      have hn := h n rfl
      have hheader : loadHeader (some n) = none := by
        simp only [LoadNode.canOpen, Bool.or_eq_false_iff, decide_eq_false_iff_not] at hn
        simp [loadHeader, hn.1, hn.2]
      exact ⟨by simp [loadEntry, hheader], by simp [loadedNode, hn]⟩

/-- A file that is opened stays open when the load fails. -/
theorem loadedNode_ne {n : LoadNode} (h : n.canOpen = true) :
    loadedNode false (some n) ≠ some n := by
  intro he
  have hr := congrArg LoadNode.refcnt (Option.some.inj he)
  simp [h, LoadNode.fsOpen] at hr

theorem freeEach_nil {get : Nat → Paging → Nat} {is : List Nat} {r : List Nat × Paging}
    (h : ∀ i ∈ is, get i r.2 = 0) : freeEach get is r = r := by
  unfold freeEach
  induction is with
  | nil => rfl
  | cons i is ih =>
      rw [List.foldl_cons, h i (by simp)]
      exact ih fun j hj => h j (by simp [hj])

/-- A task that has mapped nothing has no frames to release. -/
theorem taskFreeFrames_fresh (h : FreshDirectory p) : taskFreeFrames TASK_PROG_ADDR p = ([], p) := by
  have hpages : align TASK_PROG_ADDR 0x1000 / 0x1000 = 2048 := by decide
  have htables : align 2048 0x400 / 0x400 = 2 := by decide
  have hfirst : freeEach pageGetFrame (List.range 2048) ([], p) = ([], p) :=
    freeEach_nil fun i hi => by
      have hlt := List.mem_range.mp hi
      simp [pageGetFrame, h (i / 1024) (by omega)]
  unfold taskFreeFrames
  dsimp only
  rw [hpages, htables, hfirst]
  refine freeEach_nil fun i hi => ?_
  have hlt := List.mem_range.mp hi
  simp [pageGetTableFrame, h i (by omega)]

theorem newFrames_self : newFrames p p = [] := by
  simp [newFrames]

/-! ## a call for which there is a slot -/

/-- How far the calling task is. -/
def Caller.stage : Caller → Nat
  | .enter => 0
  | .acquire _ => 1
  | .create _ => 2
  | .wait _ _ => 3
  | .release _ _ _ => 4
  | .finish _ _ _ => 5
  | .returned _ => 6
  | .fault => 7

/-- How far the new task is. -/
def Child.stage : Child → Nat
  | .none => 0
  | .created _ => 1
  | .failed _ => 2
  | .terminated _ => 3
  | .gone => 4
  | .loaded _ => 5

/-- The calling task goes on with its copies and the result -1. -/
def Caller.Fails (px : Pexec) : Caller → Prop
  | .enter => True
  | .acquire q | .create q | .wait q _ => q = px
  | .release q _ r | .finish q _ r => q = px ∧ r = -1
  | .returned r => r = -1
  | .fault => False

/-- The new task has the slot `id`, and does not load its file. -/
def Child.Fails (id : Nat) : Child → Prop
  | .none | .gone => True
  | .created i | .failed i | .terminated i => i = id
  | .loaded _ => False

/-- A call whose load fails, with a slot `id`: what the two tasks have done
so far follows from where they are. -/
structure Failing (c : LoadCall) (px : Pexec) (id : Nat) (s : LoadState) : Prop where
  caller : s.caller.Fails px
  child : s.child.Fails id
  created : s.child.stage = 0 ↔ s.caller.stage < 3
  answered : 3 < s.caller.stage → 2 ≤ s.child.stage
  res : s.caller.stage = 3 → s.res = if s.child.stage = 1 then 0 else -1
  read : s.caller.stage = 4 → s.res = 0
  held : s.held = some .caller ↔ s.caller.stage = 2 ∨ s.caller.stage = 3 ∨ s.caller.stage = 4
  idle : s.held = none → s.res = 0
  node : s.node = if s.child.stage < 2 then c.node else loadedNode false c.node
  paging : s.child.stage < 2 → s.paging = c.paging
  taskmap : s.taskmap =
    if s.child.stage = 0 ∨ s.child.stage = 4 then c.taskmap
    else Function.update c.taskmap id (some c.task)
  blocks : s.blocks = (if s.caller.stage = 0 then [] else px.blocks) ++
    if s.child.stage = 0 then [] else [c.task, c.stack]
  kfreed : s.kfreed.Perm ((if s.caller.stage = 6 then px.blocks else []) ++
    if s.child.stage = 4 then [c.stack, c.task] else [])

namespace Failing

theorem init (h : LoadInit c s) : Failing c px id s := by
  obtain ⟨res, held, h1, h2, rfl⟩ := h
  constructor
  case idle => exact h1
  all_goals simp [Caller.Fails, Child.Fails, Caller.stage, Child.stage, h2]

theorem callerNext (h : Failing c px id s)
    (hx : sysPexec c.kmalloc c.path c.argv c.envp c.mem = some (.ok px))
    (hid : freeTaskSlot c.taskmap = some id) (hs : callerNext c s = some s') :
    Failing c px id s' := by
  unfold Eclair.callerNext at hs
  cases hc : s.caller with
  | enter =>
      simp only [hc, hx, Option.some.injEq] at hs
      subst hs
      have h0 : s.child.stage = 0 := h.created.mpr (by simp [hc, Caller.stage])
      exact
        { h with
          caller := rfl
          created := by simpa [hc, Caller.stage] using h.created
          answered := by simp [Caller.stage]
          res := by simp [Caller.stage]
          read := by simp [Caller.stage]
          held := by simpa [hc, Caller.stage] using h.held
          blocks := by simp [h.blocks, hc, h0, Caller.stage]
          kfreed := by simpa [hc, Caller.stage] using h.kfreed }
  | acquire q =>
      simp only [hc, Option.ite_none_left_eq_some, Option.not_isSome_iff_eq_none,
        Option.some.injEq] at hs
      obtain ⟨hfree, rfl⟩ := hs
      exact
        { h with
          caller := by simpa [hc, Caller.Fails] using h.caller
          created := by simpa [hc, Caller.stage] using h.created
          answered := by simp [Caller.stage]
          res := by simp [Caller.stage]
          read := by simp [Caller.stage]
          held := by simp [Caller.stage]
          idle := by simp
          blocks := by simpa [hc, Caller.stage] using h.blocks
          kfreed := by simpa [hc, Caller.stage] using h.kfreed }
  | create q =>
      have h0 : s.child.stage = 0 := h.created.mpr (by simp [hc, Caller.stage])
      have htm : s.taskmap = c.taskmap := by simp [h.taskmap, h0]
      have h1 : (Child.created id).stage = 1 := rfl
      simp only [hc, htm, hid, Option.some.injEq] at hs
      subst hs
      exact
        { caller := by simpa [hc, Caller.Fails] using h.caller
          child := rfl
          created := by simp [Caller.stage, h1]
          answered := by simp [Caller.stage]
          res := by simp [h1]
          read := by simp [Caller.stage]
          held := by simpa [hc, Caller.stage] using h.held
          idle := fun _ => rfl
          node := by simp [h.node, h0, h1]
          paging := fun _ => h.paging (by omega)
          taskmap := by simp [h1]
          blocks := by simp [h.blocks, hc, h0, h1, Caller.stage]
          kfreed := by simpa [hc, h0, h1, Caller.stage] using h.kfreed }
  | wait q pid =>
      simp only [hc, Option.ite_none_left_eq_some, Option.some.injEq] at hs
      obtain ⟨hres, rfl⟩ := hs
      have hr := h.res (by simp [hc, Caller.stage])
      have h1 : s.child.stage ≠ 1 := fun he => hres (by rw [hr, if_pos he])
      have h0 : s.child.stage ≠ 0 := fun he => by simpa [hc, Caller.stage] using h.created.mp he
      exact
        { h with
          caller := ⟨by simpa [hc, Caller.Fails] using h.caller, by rw [hr, if_neg h1]⟩
          created := by simpa [hc, Caller.stage] using h.created
          answered := fun _ => show 2 ≤ s.child.stage by omega
          res := by simp [Caller.stage]
          read := fun _ => rfl
          held := by simpa [hc, Caller.stage] using h.held
          idle := fun _ => rfl
          blocks := by simpa [hc, Caller.stage] using h.blocks
          kfreed := by simpa [hc, Caller.stage] using h.kfreed }
  | release q pid r =>
      simp only [hc, Option.some.injEq] at hs
      subst hs
      exact
        { h with
          caller := by simpa [hc, Caller.Fails] using h.caller
          created := by simpa [hc, Caller.stage] using h.created
          answered := fun _ => h.answered (by simp [hc, Caller.stage])
          res := by simp [Caller.stage]
          read := by simp [Caller.stage]
          held := by simp [Caller.stage]
          idle := fun _ => h.read (by simp [hc, Caller.stage])
          blocks := by simpa [hc, Caller.stage] using h.blocks
          kfreed := by simpa [hc, Caller.stage] using h.kfreed }
  | finish q pid r =>
      obtain ⟨rfl, rfl⟩ : q = px ∧ r = -1 := by simpa [hc, Caller.Fails] using h.caller
      simp only [hc, Int.reduceNeg, Int.reduceLT, if_true, Option.some.injEq] at hs
      subst hs
      have hk := h.kfreed
      simp only [hc, Caller.stage, Nat.reduceEqDiff, if_false, List.nil_append] at hk
      exact
        { h with
          caller := rfl
          created := by simpa [hc, Caller.stage] using h.created
          answered := fun _ => h.answered (by simp [hc, Caller.stage])
          res := by simp [Caller.stage]
          read := by simp [Caller.stage]
          held := by simpa [hc, Caller.stage] using h.held
          blocks := by simpa [hc, Caller.stage] using h.blocks
          kfreed := (List.perm_append_comm).trans (hk.append_left _) }
  | returned r => simp [hc] at hs
  | fault => simp [hc] at hs

theorem childNext (h : Failing c px id s)
    (hfail : (loadEntry c.node (freshTask c.paging)).1 = none) (hs : childNext s = some s') :
    Failing c px id s' := by
  unfold Eclair.childNext at hs
  cases hc : s.child with
  | created i =>
      obtain rfl : i = id := by simpa [hc, Child.Fails] using h.child
      have h1 : s.child.stage = 1 := by rw [hc]; rfl
      have h2 : (Child.failed i).stage = 2 := rfl
      have h3 : s.caller.stage = 3 := by
        have hge := mt h.created.mpr (by omega)
        have hle := mt h.answered (by omega)
        omega
      have hnode : s.node = c.node := by simp [h.node, h1]
      simp only [hc, hnode, h.paging (by omega), hfail, Option.isSome_none, Bool.false_eq_true,
        if_false, Option.some.injEq] at hs
      subst hs
      exact
        { h with
          child := rfl
          created := by simp [h2, h3]
          answered := by simp [h2]
          res := by simp [h2]
          read := by simp [h3]
          idle := fun hn => by
            have hheld := h.held.mpr (.inr (.inl h3))
            simp [hheld] at hn
          node := by simp [h2]
          paging := by simp [h2]
          taskmap := by simp [h.taskmap, h1, h2]
          blocks := by simp [h.blocks, h1, h2]
          kfreed := by simpa [h1, h2] using h.kfreed }
  | failed i =>
      obtain rfl : i = id := by simpa [hc, Child.Fails] using h.child
      have h2 : s.child.stage = 2 := by rw [hc]; rfl
      have h3 : (Child.terminated i).stage = 3 := rfl
      simp only [hc, Option.some.injEq] at hs
      subst hs
      exact
        { h with
          child := rfl
          created := by simpa [h2, h3] using h.created
          answered := by simp [h3]
          res := by simpa [h2, h3] using h.res
          node := by simp [h.node, h2, h3]
          paging := by simp [h3]
          taskmap := by simp [h.taskmap, h2, h3]
          blocks := by simp [h.blocks, h2, h3]
          kfreed := by simpa [h2, h3] using h.kfreed }
  | none | terminated _ | gone | loaded _ => simp [hc] at hs

theorem cleanupNext (h : Failing c px id s) (hid : freeTaskSlot c.taskmap = some id)
    (hs : cleanupNext c s = some s') : Failing c px id s' := by
  unfold Eclair.cleanupNext at hs
  cases hc : s.child with
  | terminated i =>
      obtain rfl : i = id := by simpa [hc, Child.Fails] using h.child
      have h3 : s.child.stage = 3 := by rw [hc]; rfl
      have h4 : Child.gone.stage = 4 := rfl
      have hslot : c.taskmap i = none := by simpa using List.find?_some hid
      simp only [hc, Option.some.injEq] at hs
      subst hs
      exact
        { h with
          child := trivial
          created := by simpa [h3, h4] using h.created
          answered := by simp [h4]
          res := by simpa [h3, h4] using h.res
          node := by simp [h.node, h3, h4]
          paging := by simp [h4]
          taskmap := by
            rw [h.taskmap]
            simp [h3, h4, ← hslot]
          blocks := by simp [h.blocks, h3, h4]
          kfreed := by
            have hk := h.kfreed
            simp only [h3, Nat.reduceEqDiff, if_false, List.append_nil] at hk
            simpa [h4] using hk.append_right _ }
  | none | created _ | failed _ | gone | loaded _ => simp [hc] at hs

/-- The other callers use the result word only while they hold `dummy`. -/
theorem other {res : Int} {held : Option Holder} (h : Failing c px id s)
    (hs : s.caller.stage = 2 ∨ s.caller.stage = 3 ∨ s.caller.stage = 4 → False)
    (hh : held ≠ some .caller) (hi : held = none → res = 0) :
    Failing c px id { s with held := held, res := res } :=
  { h with
    res := fun hc => (hs (.inr (.inl hc))).elim
    read := fun hc => (hs (.inr (.inr hc))).elim
    held := ⟨fun hc => absurd hc hh, fun hc => (hs hc).elim⟩
    idle := hi }

/-- **Every step** keeps the invariant of a failing call. -/
theorem next {e : LoadEvent} (h : Failing c px id s)
    (hx : sysPexec c.kmalloc c.path c.argv c.envp c.mem = some (.ok px))
    (hid : freeTaskSlot c.taskmap = some id)
    (hfail : (loadEntry c.node (freshTask c.paging)).1 = none)
    (hs : LoadEvent.next c s e = some s') : Failing c px id s' := by
  have hother : ∀ o, s.held = o → o ≠ some .caller →
      s.caller.stage = 2 ∨ s.caller.stage = 3 ∨ s.caller.stage = 4 → False :=
    fun o ho hne hc => hne (ho ▸ h.held.mpr hc)
  cases e with
  | caller => exact h.callerNext hx hid hs
  | child => exact h.childNext hfail hs
  | cleanup => exact h.cleanupNext hid hs
  | otherAcquire =>
      simp only [LoadEvent.next, Option.ite_none_right_eq_some, Option.some.injEq] at hs
      obtain ⟨hn, rfl⟩ := hs
      exact h.other (hother _ hn (by simp)) (by simp) (by simp)
  | otherRes r =>
      simp only [LoadEvent.next, Option.ite_none_right_eq_some, Option.some.injEq] at hs
      obtain ⟨hn, rfl⟩ := hs
      exact h.other (hother _ hn (by simp)) (by simp [hn]) (by simp [hn])
  | otherRelease =>
      simp only [LoadEvent.next, Option.ite_none_right_eq_some, Option.some.injEq] at hs
      obtain ⟨⟨hn, h0⟩, rfl⟩ := hs
      exact h.other (hother _ hn (by simp)) (by simp) fun _ => h0

/-- The steps that are left, of this call and of one that holds `dummy`. -/
def left (s : LoadState) : Nat :=
  3 * (6 - s.caller.stage) + 3 * (4 - s.child.stage) +
    if s.held = some .other then if s.res = 0 then 1 else 2 else 0

/-- **Some step is possible** until the call is over. -/
theorem progress (h : Failing c px id s)
    (hx : sysPexec c.kmalloc c.path c.argv c.envp c.mem = some (.ok px))
    (hid : freeTaskSlot c.taskmap = some id)
    (hfail : (loadEntry c.node (freshTask c.paging)).1 = none) (ho : ¬ s.Over) :
    ∃ e s', LoadEvent.next c s e = some s' ∧ left s' < left s := by
  cases hc : s.caller with
  | enter =>
      refine ⟨.caller, _, by simp only [LoadEvent.next, Eclair.callerNext, hc, hx]; rfl, ?_⟩
      simp only [left, hc, Caller.stage]
      omega
  | acquire q =>
      cases hh : s.held with
      | none =>
          refine ⟨.caller, _, by simp only [LoadEvent.next, Eclair.callerNext, hc, hh]; rfl, ?_⟩
          simp [left, hc, hh, Caller.stage]
      | some w =>
          obtain rfl : w = .other := by
            cases w with
            | other => rfl
            | caller => simpa [hc, Caller.stage] using h.held.mp hh
          by_cases h0 : s.res = 0
          · refine ⟨.otherRelease, _, by simp only [LoadEvent.next, hh, h0]; rfl, ?_⟩
            simp [left, hh, h0]
          · refine ⟨.otherRes 0, _, by simp only [LoadEvent.next, hh]; rfl, ?_⟩
            simp [left, hh, h0]
  | create q =>
      have h0 : s.child.stage = 0 := h.created.mpr (by simp [hc, Caller.stage])
      have h1 : (Child.created id).stage = 1 := rfl
      have htm : s.taskmap = c.taskmap := by simp [h.taskmap, h0]
      have hh : s.held = some .caller := h.held.mpr (by simp [hc, Caller.stage])
      refine ⟨.caller, _, by simp only [LoadEvent.next, Eclair.callerNext, hc, htm, hid]; rfl, ?_⟩
      simp [left, hc, hh, h0, h1, Caller.stage]
  | wait q pid =>
      have h3 : s.caller.stage = 3 := by rw [hc]; rfl
      have hh : s.held = some .caller := h.held.mpr (by simp [h3])
      by_cases h1 : s.child.stage = 1
      · cases hch : s.child with
        | created i =>
            have hnode : s.node = c.node := by simp [h.node, h1]
            have hp : s.paging = c.paging := h.paging (by omega)
            refine ⟨.child, _, by
              simp only [LoadEvent.next, Eclair.childNext, hch, hnode, hp, hfail]; rfl, ?_⟩
            simp [left, hch, hh, Child.stage]
        | none | failed _ | terminated _ | gone | loaded _ => simp [hch, Child.stage] at h1
      · have hres := h.res h3
        rw [if_neg h1] at hres
        refine ⟨.caller, _, by simp only [LoadEvent.next, Eclair.callerNext, hc, hres]; rfl, ?_⟩
        simp [left, hc, hh, Caller.stage]
  | release q pid r =>
      have hh : s.held = some .caller := h.held.mpr (by simp [hc, Caller.stage])
      refine ⟨.caller, _, by simp only [LoadEvent.next, Eclair.callerNext, hc]; rfl, ?_⟩
      simp [left, hc, hh, Caller.stage]
  | finish q pid r =>
      obtain ⟨rfl, rfl⟩ : q = px ∧ r = -1 := by simpa [hc, Caller.Fails] using h.caller
      refine ⟨.caller, _, by simp only [LoadEvent.next, Eclair.callerNext, hc]; rfl, ?_⟩
      simp only [left, hc, Caller.stage]
      omega
  | returned r =>
      have h2 := h.answered (by simp [hc, Caller.stage])
      cases hch : s.child with
      | failed i =>
          refine ⟨.child, _, by simp only [LoadEvent.next, Eclair.childNext, hch]; rfl, ?_⟩
          simp only [left, hch, Child.stage]
          omega
      | terminated i =>
          refine ⟨.cleanup, _, by simp only [LoadEvent.next, Eclair.cleanupNext, hch]; rfl, ?_⟩
          simp only [left, hch, Child.stage]
          omega
      | gone => exact absurd ⟨hch, r, hc⟩ ho
      | loaded i => simpa [hch, Child.Fails] using h.child
      | none | created _ => simp [hch, Child.stage] at h2
  | fault => exact (by simpa [hc, Caller.Fails] using h.caller)

theorem of_reachable (hx : sysPexec c.kmalloc c.path c.argv c.envp c.mem = some (.ok px))
    (hid : freeTaskSlot c.taskmap = some id)
    (hfail : (loadEntry c.node (freshTask c.paging)).1 = none)
    (hs : (loadSystem c).Reachable Any s) : Failing c px id s :=
  hs.invariant (fun _ h => init h) fun _ _ _ h _ hs => h.next hx hid hfail hs

/-- **The call and the clean-up** can always be completed. -/
theorem completes (h : Failing c px id s)
    (hx : sysPexec c.kmalloc c.path c.argv c.envp c.mem = some (.ok px))
    (hid : freeTaskSlot c.taskmap = some id)
    (hfail : (loadEntry c.node (freshTask c.paging)).1 = none) :
    ∃ s', (loadSystem c).Steps Any s s' ∧ s'.Over :=
  Steps.reaches (I := Failing c px id) left (fun s hi ho => by
    obtain ⟨e, s', hs, hlt⟩ := hi.progress hx hid hfail ho
    exact ⟨e, s', trivial, hs, hi.next hx hid hfail hs, hlt⟩) h

end Failing

/-! ## no frames -/

/-- The new task has taken no frame and has released none. -/
structure Frameless (c : LoadCall) (s : LoadState) : Prop where
  node : s.node = c.node
  paging : s.paging = c.paging
  brkp : s.child.stage = 2 → s.brkp = TASK_PROG_ADDR
  frames : s.frames = []
  released : s.released = []

/-- Steps of others than the new task leave its memory alone. -/
theorem Frameless.congr (h : Frameless c s) (hn : s'.node = s.node) (hp : s'.paging = s.paging)
    (hb : s'.brkp = s.brkp) (hf : s'.frames = s.frames) (hr : s'.released = s.released)
    (hc : s'.child.stage = 2 → s.child.stage = 2) : Frameless c s' :=
  ⟨hn.trans h.node, hp.trans h.paging, fun h2 => hb.trans (h.brkp (hc h2)), hf.trans h.frames,
    hr.trans h.released⟩

theorem Frameless.callerNext (h : Frameless c s) (hs : callerNext c s = some s') :
    Frameless c s' := by
  unfold Eclair.callerNext at hs
  repeat' split at hs
  all_goals first
    | contradiction
    | (obtain rfl := Option.some.inj hs
       exact h.congr rfl rfl rfl rfl rfl (by simp [Child.stage]))

theorem Frameless.childNext (h : Frameless c s) (hp : FreshDirectory c.paging)
    (hopen : ∀ n, c.node = some n → n.canOpen = false) (hs : childNext s = some s') :
    Frameless c s' := by
  obtain ⟨hload, hnode⟩ := loadEntry_of_cannotOpen (freshTask c.paging) hopen
  unfold Eclair.childNext at hs
  cases hc : s.child with
  | created i =>
      simp only [hc, h.node, h.paging, hload, Option.isSome_none, Bool.false_eq_true, if_false,
        Option.some.injEq, hnode] at hs
      subst hs
      have hf : newFrames c.paging (freshTask c.paging).paging = [] := newFrames_self
      refine ⟨rfl, rfl, fun _ => rfl, ?_, h.released⟩
      dsimp only
      rw [hf]
  | failed i =>
      have hb := h.brkp (by rw [hc]; rfl)
      simp only [hc, h.paging, hb, taskFreeFrames_fresh hp, Option.some.injEq] at hs
      subst hs
      exact ⟨h.node, rfl, by simp [Child.stage], h.frames, rfl⟩
  | none | terminated _ | gone | loaded _ => simp [hc] at hs

theorem Frameless.next {e : LoadEvent} (h : Frameless c s) (hp : FreshDirectory c.paging)
    (hopen : ∀ n, c.node = some n → n.canOpen = false) (hs : LoadEvent.next c s e = some s') :
    Frameless c s' := by
  cases e with
  | caller => exact h.callerNext hs
  | child => exact h.childNext hp hopen hs
  | cleanup =>
      simp only [LoadEvent.next, cleanupNext] at hs
      split at hs
      · obtain rfl := Option.some.inj hs
        exact h.congr rfl rfl rfl rfl rfl (by simp [Child.stage])
      · contradiction
  | otherAcquire | otherRes r | otherRelease =>
      simp only [LoadEvent.next, Option.ite_none_right_eq_some, Option.some.injEq] at hs
      obtain ⟨-, rfl⟩ := hs
      exact h.congr rfl rfl rfl rfl rfl id

theorem Frameless.of_reachable (hp : FreshDirectory c.paging)
    (hopen : ∀ n, c.node = some n → n.canOpen = false) (hs : (loadSystem c).Reachable Any s) :
    Frameless c s := by
  refine hs.invariant (I := Frameless c) ?_ fun _ _ _ h _ hs => h.next hp hopen hs
  rintro _ ⟨res, held, -, -, rfl⟩
  exact ⟨rfl, rfl, by simp [Child.stage], rfl, rfl⟩

/-! ## a call for which there is no slot -/

/-- The calling task has not come to `task_new`, or it has stopped there. -/
structure Faulting (c : LoadCall) (px : Pexec) (s : LoadState) : Prop where
  caller : s.caller.stage < 3 ∨ s.caller = .fault
  taskmap : s.taskmap = c.taskmap
  child : s.child = .none

theorem Faulting.next {e : LoadEvent} (h : Faulting c px s)
    (hx : sysPexec c.kmalloc c.path c.argv c.envp c.mem = some (.ok px))
    (hid : freeTaskSlot c.taskmap = none) (hs : LoadEvent.next c s e = some s') :
    Faulting c px s' := by
  cases e with
  | caller =>
      simp only [LoadEvent.next, callerNext, hx, h.taskmap, hid] at hs
      cases hc : s.caller with
      | enter | create q =>
          simp only [hc, Option.some.injEq] at hs
          subst hs
          exact ⟨by simp [Caller.stage], rfl, h.child⟩
      | acquire q =>
          simp only [hc, Option.ite_none_left_eq_some, Option.some.injEq] at hs
          obtain ⟨-, rfl⟩ := hs
          exact ⟨by simp [Caller.stage], rfl, h.child⟩
      | wait q pid | release q pid r | finish q pid r =>
          have hc' := h.caller
          simp [hc, Caller.stage] at hc'
      | returned r | fault => simp [hc] at hs
  | child => simp [LoadEvent.next, childNext, h.child] at hs
  | cleanup => simp [LoadEvent.next, cleanupNext, h.child] at hs
  | otherAcquire | otherRes r | otherRelease =>
      simp only [LoadEvent.next, Option.ite_none_right_eq_some, Option.some.injEq] at hs
      obtain ⟨-, rfl⟩ := hs
      exact ⟨h.caller, h.taskmap, h.child⟩

theorem Faulting.not_over (h : Faulting c px s) : ¬ s.Over := by
  rintro ⟨hg, -⟩
  rw [h.child] at hg
  cases hg

theorem Faulting.of_reachable (hx : sysPexec c.kmalloc c.path c.argv c.envp c.mem = some (.ok px))
    (hid : freeTaskSlot c.taskmap = none) (hs : (loadSystem c).Reachable Any s) :
    Faulting c px s := by
  refine hs.invariant (I := Faulting c px) ?_ fun _ _ _ h _ hs => h.next hx hid hs
  rintro _ ⟨res, held, -, -, rfl⟩
  exact ⟨.inl (by simp [Caller.stage]), rfl, rfl⟩

/-! ## the result -/

theorem Failing.noTrace (h : Failing c px id s) (hf : Frameless c s)
    (ho : s.Over) : NoTrace c s := by
  obtain ⟨hch, r, hr⟩ := ho
  have h4 : s.child.stage = 4 := by rw [hch]; rfl
  have h6 : s.caller.stage = 6 := by rw [hr]; rfl
  have hfail := h.caller
  rw [hr] at hfail
  refine ⟨⟨r, by rw [show r = -1 from hfail]; decide, hr⟩, hf.node, ?_, ?_, ?_, ?_, h.idle⟩
  · rw [h.taskmap, if_pos (.inr h4)]
  · have hk := h.kfreed
    rw [h.blocks, if_neg (by omega), if_neg (by omega)]
    rw [if_pos h6, if_pos h4] at hk
    exact hk.trans ((List.Perm.swap _ _ _).append_left _)
  · rw [hf.frames, hf.released]
  · intro hh
    have hst := h.held.mp hh
    omega

/-- The call can begin. -/
theorem reachable_loadInit (c : LoadCall) : (loadSystem c).Reachable Any
    ⟨.enter, .none, 0, none, c.node, c.paging, 0, c.taskmap, [], [], [], []⟩ :=
  .of_init ⟨0, none, fun _ => rfl, by simp, rfl⟩

/-- Only a call that fails early leaves no trace. -/
theorem failsEarly_of_leavesNoTrace
    (hx : sysPexec c.kmalloc c.path c.argv c.envp c.mem = some (.ok px)) (hf : LoadFails c)
    (h : LeavesNoTrace c) : FailsEarly c := by
  have hstart := reachable_loadInit c
  obtain ⟨⟨s, hs, ho⟩, -⟩ := h _ hstart
  have hreach := hstart.steps hs
  cases hid : freeTaskSlot c.taskmap with
  | none => exact absurd ho (Faulting.of_reachable hx hid hreach).not_over
  | some id =>
      refine ⟨by simp [hid], fun n hn => ?_⟩
      have hfail := hf.resolve_left (by simp [hid])
      have hinv := Failing.of_reachable hx hid hfail hreach
      have hnode := hinv.node
      rw [((h s hreach).2 ho).node, ho.1, if_neg (by decide), hn] at hnode
      by_contra hopen
      exact loadedNode_ne (by simpa using hopen) hnode.symm

/-- **A program start that fails leaves no trace** exactly when the file is
missing or cannot be opened, and there is a task slot. -/
theorem leavesNoTrace_iff (hp : FreshDirectory c.paging)
    (hx : sysPexec c.kmalloc c.path c.argv c.envp c.mem = some (.ok px)) (hf : LoadFails c) :
    LeavesNoTrace c ↔ FailsEarly c := by
  refine ⟨failsEarly_of_leavesNoTrace hx hf, fun ⟨hslot, hopen⟩ s hs => ?_⟩
  obtain ⟨id, hid⟩ := Option.isSome_iff_exists.mp hslot
  have hfail := hf.resolve_left (by simp [hid])
  have hinv := Failing.of_reachable hx hid hfail hs
  exact ⟨hinv.completes hx hid hfail, hinv.noTrace (Frameless.of_reachable hp hopen hs)⟩

/-- A call without arguments, in memory full of zeros, whose path leads to
`node`. -/
def bareCall (node : Option LoadNode) : LoadCall where
  kmalloc k _ := KERNEL_ADDR + 0x100 * k
  path := 1
  argv := 4
  envp := 8
  mem _ := 0
  task := KERNEL_ADDR + 0x300
  stack := KERNEL_ADDR + 0x8000
  node := node
  paging := ⟨fun _ => false, 0, fun _ => none, fun _ => none, fun _ => none⟩
  taskmap := fun i => if i = 0 then some 0 else none

theorem bareCall_copies (node : Option LoadNode) :
    ∃ px, sysPexec (bareCall node).kmalloc (bareCall node).path (bareCall node).argv
      (bareCall node).envp (bareCall node).mem = some (.ok px) := by
  have h : (sysPexec (bareCall none).kmalloc 1 4 8 (bareCall none).mem).any Except.isOk = true := by
    decide +kernel
  obtain ⟨r, hr, hok⟩ := (Option.any_eq_true _ _).mp h
  cases r with
  | ok px => exact ⟨px, hr⟩
  | error e => cases hok

/-- The path leads nowhere. -/
theorem leavesNoTrace_iff_missing : LeavesNoTrace (bareCall none) := by
  obtain ⟨px, hx⟩ := bareCall_copies none
  have hslot : (freeTaskSlot (bareCall none).taskmap).isSome = true := by decide
  exact (leavesNoTrace_iff (fun _ _ => rfl) hx (.inr rfl)).mpr ⟨hslot, fun n hn => by cases hn⟩

/-- A text file that nobody has opened. -/
def textFile : LoadNode where
  refcnt := 0
  oflags := 0
  read := some ⟨fun offset nbytes => (([104, 101, 108, 108, 111] : Bytes).drop offset).take nbytes,
    fun _ _ => List.length_take_le _ _⟩

/-- **A file that is not an executable** stays open. -/
theorem not_leavesNoTrace :
    ¬ ∀ c px, FreshDirectory c.paging →
      sysPexec c.kmalloc c.path c.argv c.envp c.mem = some (.ok px) → LoadFails c →
      LeavesNoTrace c := by
  intro hall
  obtain ⟨px, hx⟩ := bareCall_copies (some textFile)
  have hf : LoadFails (bareCall (some textFile)) := .inr (by decide +kernel)
  have hearly := failsEarly_of_leavesNoTrace hx hf (hall _ px (fun _ _ => rfl) hx hf)
  exact absurd (hearly.2 textFile rfl) (by decide)

end Eclair
