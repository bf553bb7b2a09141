import Eclair.Lib.System
import Eclair.Task.File

/-!
# Eclair.Task.Sharing

A node that several descriptors share: which requests `task_fs_open` grants
when the node is open already, and which reads and writes then get past
`fs_read` and `fs_write` to the hook.

The code compares the flags of the node with a variable that is still 0, so
its answer does not depend on the request (`compatFlags_eq_none`).
-/

namespace Eclair

open Kernel

/-- A node with the flags of the descriptors open on it, and the number of
loaders that have it open. -/
structure Shared where
  vfs : Vfs
  ptr : NodePtr
  fds : List Nat
  loads : Nat

/-- The node. -/
abbrev Shared.node (s : Shared) : FsNode := s.vfs.node s.ptr

inductive ShareEvent where
  /-- `task_fs_open` by the task `tid` of the user `uid` -/
  | open (flags : Nat) (tid : Int) (uid : Nat)
  /-- `task_fs_close` -/
  | close (fd : Nat)
  /-- `task_fs_read` -/
  | read (fd offset nbytes : Nat) (tid : Int)
  /-- `task_fs_write` -/
  | write (fd offset : Nat) (data : Bytes)
  /-- `elf_load_task` opens the node, with its own flags if it is open -/
  | load (tid : Int)
  /-- and closes it -/
  | unload

/-- `task_fs_open` with the node found and acquired: the result, and the state
after. -/
def shareOpen (flags : Nat) (tid : Int) (uid : Nat) (s : Shared) : Int × Shared :=
  if !checkPerm s.node.uid s.node.gid flags s.node.mask uid s.vfs.user then (-EACCES, s)
  else match compatFlags flags s.node with
    | none => (-EINVAL, s)
    | some oflags =>
        (s.fds.length, { s with vfs := fsOpen s.ptr oflags tid s.vfs, fds := s.fds ++ [flags] })

/-- What a write does to the node; the other hooks change only what lies
behind it. -/
def shareWrite (offset : Nat) (data : Bytes) (s : Shared) : Shared :=
  match writeHook s.node with
  | some .ramfs => { s with vfs := (fsWriteRamfs s.ptr offset data s.vfs).2 }
  | _ => s

/-- The state after an event; without a descriptor, or with one that does not
ask for the access, there is no effect. -/
def ShareEvent.next (s : Shared) : ShareEvent → Shared
  | .open flags tid uid => (shareOpen flags tid uid s).2
  | .close fd =>
      if fd < s.fds.length then { s with vfs := fsClose s.ptr s.vfs, fds := s.fds.eraseIdx fd } else s
  | .read fd offset nbytes tid =>
      if (s.fds[fd]?).any (hasFlag · FS_READ) then
        { s with vfs := (fsRead s.ptr offset nbytes tid s.vfs).2 }
      else s
  | .write fd offset data =>
      if (s.fds[fd]?).any (hasFlag · FS_WRITE) then shareWrite offset data s else s
  | .load tid =>
      let oflags := if s.node.refcnt ≠ 0 then s.node.oflags else FS_READ
      { s with vfs := fsOpen s.ptr oflags tid s.vfs, loads := s.loads + 1 }
  | .unload =>
      if s.loads = 0 then s else { s with vfs := fsClose s.ptr s.vfs, loads := s.loads - 1 }

/-! ## the property -/

/-- The flags `f` do not go with the mode `m`. -/
def Differ (f m : Nat) : Bool :=
  hasFlag f FS_TRUNCATE != hasFlag m FS_TRUNCATE ||
    (!fsIsRw m && (hasFlag f FS_READ != hasFlag m FS_READ || hasFlag f FS_WRITE != hasFlag m FS_WRITE))

/-- `fs_read` and `fs_write` go on to the hook. -/
def FsNode.passes (bit : Nat) (x : FsNode) : Bool := x.refcnt ≠ 0 && hasFlag x.oflags bit

/-- A node that is open refuses the requests that do not go with its mode, and
a read or write on a descriptor that asked for it gets to the hook. -/
def ShareRight (s : Shared) : ShareEvent → Prop
  | .open flags tid uid =>
      checkPerm s.node.uid s.node.gid flags s.node.mask uid s.vfs.user → s.node.refcnt ≠ 0 →
        ((shareOpen flags tid uid s).1 = -EINVAL ↔ Differ flags s.node.oflags)
  | .read fd _ _ _ => (s.fds[fd]?).any (hasFlag · FS_READ) → s.node.passes FS_READ
  | .write fd _ _ => (s.fds[fd]?).any (hasFlag · FS_WRITE) → s.node.passes FS_WRITE
  | _ => True

/-- The mode is read-write, or neither read nor write, and does not truncate. -/
def Lenient (m : Nat) : Bool :=
  !hasFlag m FS_TRUNCATE && (hasFlag m FS_READ == hasFlag m FS_WRITE)

/-- A request goes with the mode of an open node exactly if the mode is
lenient. -/
def ShareFits (s : Shared) : ShareEvent → Prop
  | .open flags _ uid =>
      checkPerm s.node.uid s.node.gid flags s.node.mask uid s.vfs.user → s.node.refcnt ≠ 0 →
        (Differ flags s.node.oflags ↔ ¬ Lenient s.node.oflags)
  | _ => True

/-! ## the two layers -/

variable {x : FsNode} {s : Shared} {v : Vfs} {n : NodePtr} {flags : Nat} {tid : Int}

/-- `task_fs_open` with the node acquired returns what `shareOpen` does, with
the descriptor that it has found. -/
theorem openNode_val (fd : Nat) (path : Bytes) (k : Kernel) (h : k.vfs = s.vfs) (hfd : fd = s.fds.length) :
    ((openNode fd path flags s.ptr).run Op.exec k).map (fun r => r.1.val) =
      some (shareOpen flags tid k.active.uid s).1 := by
  simp only [openNode, shareOpen, Resume.Prog.run_step, Op.exec, h]
  split
  · simp [fail]
  · rw [Resume.Prog.run_step, Op.exec, h]
    cases compatFlags flags (s.vfs.node s.ptr) with
    | none => simp [fail]
    | some o => simp [hfd]

theorem fsRead_passes (offset nbytes : Nat) (h : ¬ (v.node n).passes FS_READ) :
    fsRead n offset nbytes tid v = ((0, []), v) := by
  have hdrop : (v.node n).refcnt = 0 ∨ (!hasFlag (v.node n).oflags FS_READ) = true := by
    simpa [FsNode.passes, Classical.or_iff_not_imp_left] using h
  rw [fsRead, if_pos hdrop]

theorem writeHook_passes : writeHook x = if x.passes FS_WRITE then x.write else none := by
  rw [writeHook]
  by_cases h0 : x.refcnt = 0 <;> cases hf : hasFlag x.oflags FS_WRITE <;>
    simp [FsNode.passes, h0, hf]

/-- A node that is open refuses every request or none. -/
theorem compatFlags_eq_none (flags : Nat) (h : x.refcnt ≠ 0) :
    compatFlags flags x = none ↔ ¬ Lenient x.oflags := by
  have hzero : ∀ bit, hasFlag 0 bit = false := by simp [hasFlag]
  have hif : ∀ b : Bool, (if b then none else some x.oflags) = none ↔ b = true := by simp
  rw [compatFlags, if_neg h]
  dsimp only
  rw [hif, Lenient, fsIsRw, hzero, hzero, hzero]
  cases hasFlag x.oflags FS_READ <;> cases hasFlag x.oflags FS_WRITE <;>
    cases hasFlag x.oflags FS_TRUNCATE <;> decide

theorem compatFlags_eq_some {o : Nat} (h : compatFlags flags x = some o) :
    if x.refcnt = 0 then o = flags &&& 0xff else o = x.oflags := by
  rw [compatFlags] at h
  split
  · next h0 =>
      rw [if_pos h0] at h
      exact (Option.some.inj h).symm
  · next h0 =>
      rw [if_neg h0] at h
      dsimp only at h
      split at h
      · contradiction
      · exact (Option.some.inj h).symm

/-! ## frames -/

/-- The node has the mode `m` and `k` opens. -/
def FsNode.OpenAs (m k : Nat) (x : FsNode) : Prop := x.oflags = m ∧ x.refcnt = k

theorem openHook_openAs {m k : Nat} (h : (v.node n).OpenAs m k) (flags : Nat) (tid : Int) :
    ((openHook n flags tid v).node n).OpenAs m k := by
  rw [openHook]
  split
  · simpa [FsNode.OpenAs] using h
  · exact h
  · exact h

/-- An open of a node that is closed, or with the mode that it has. -/
theorem fsOpen_openAs {m k : Nat} (flags : Nat) (h : (v.node n).OpenAs m k) (hm : k = 0 ∨ flags = m)
    (tid : Int) : ((fsOpen n flags tid v).node n).OpenAs flags (k + 1) := by
  have hno : ¬ ((v.node n).refcnt ≠ 0 ∧ (v.node n).oflags ≠ flags) := by
    rw [h.1, h.2]
    omega
  rw [fsOpen, if_neg hno]
  have hk := (openHook_openAs h flags tid).2
  simp [FsNode.OpenAs, hk]

theorem fsClose_openAs {m k : Nat} (h : (v.node n).OpenAs m (k + 1)) :
    ((fsClose n v).node n).OpenAs m k := by
  have h0 : (v.node n).refcnt ≠ 0 := by
    rw [h.2]
    omega
  rw [fsClose, if_neg h0]
  simp [FsNode.OpenAs, h.1, h.2]

theorem fsRead_openAs {m k : Nat} (h : (v.node n).OpenAs m k) (offset nbytes : Nat) (tid : Int) :
    ((fsRead n offset nbytes tid v).2.node n).OpenAs m k := by
  rw [fsRead]
  dsimp only
  split
  · exact h
  · split <;> exact h

theorem shareWrite_openAs {m k : Nat} (h : s.node.OpenAs m k) (offset : Nat) (data : Bytes) :
    (shareWrite offset data s).node.OpenAs m k := by
  rw [shareWrite]
  split
  · simpa [FsNode.OpenAs, Shared.node, fsWriteRamfs] using h
  · exact h

/-! ## runs -/

/-- The node counts its opens, and is open for what the descriptors ask for. -/
structure ShareInv (s : Shared) : Prop where
  refcnt : s.node.refcnt = s.fds.length + s.loads
  access : ∀ f ∈ s.fds, ∀ bit, bit = FS_READ ∨ bit = FS_WRITE → hasFlag f bit → hasFlag s.node.oflags bit

/-- The mode after the first open has its access flags. -/
theorem hasFlag_mode {bit : Nat} (h : bit = FS_READ ∨ bit = FS_WRITE) (f : Nat) :
    hasFlag (f &&& 0xff) bit = hasFlag f bit := by
  obtain rfl | rfl := h <;> simp [hasFlag, Nat.and_assoc, FS_READ, FS_WRITE]

/-- A mode that a request goes with has the access flags of the request. -/
theorem hasFlag_of_not_differ {f m bit : Nat} (hb : bit = FS_READ ∨ bit = FS_WRITE)
    (h : Differ f m = false) (hf : hasFlag f bit) : hasFlag m bit := by
  rw [Differ, fsIsRw] at h
  obtain rfl | rfl := hb <;>
    cases hr : hasFlag m FS_READ <;> cases hw : hasFlag m FS_WRITE <;> simp_all

/-- A descriptor that asks for an access has it as long as it is open. -/
theorem ShareInv.passes (h : ShareInv s) {fd bit : Nat} (hb : bit = FS_READ ∨ bit = FS_WRITE)
    (hf : (s.fds[fd]?).any (hasFlag · bit)) : s.node.passes bit := by
  obtain ⟨f, hget, hbit⟩ := (Option.any_eq_true _ _).mp hf
  have hmem := List.mem_of_getElem? hget
  have hpos := List.length_pos_of_mem hmem
  have hcnt := h.refcnt
  simp only [FsNode.passes, Bool.and_eq_true, decide_eq_true_eq]
  exact ⟨by omega, h.access f hmem bit hb hbit⟩

/-- Opens and closes that leave the mode keep the invariant. -/
theorem ShareInv.of_openAs {s' : Shared} {k : Nat} (h : ShareInv s)
    (ho : s'.node.OpenAs s.node.oflags k) (hk : k = s'.fds.length + s'.loads)
    (hfds : ∀ f ∈ s'.fds, f ∈ s.fds) : ShareInv s' := by
  refine ⟨ho.2.trans hk, fun f hf bit hb hbit => ?_⟩
  rw [ho.1]
  exact h.access f (hfds f hf) bit hb hbit

/-- A request that is granted: of a closed node, or with a mode that it goes
with. -/
theorem ShareInv.grant (h : ShareInv s) {f o : Nat} (tid : Int)
    (ho : if s.node.refcnt = 0 then o = f &&& 0xff else o = s.node.oflags)
    (hd : s.node.refcnt ≠ 0 → Differ f s.node.oflags = false) :
    ShareInv { s with vfs := fsOpen s.ptr o tid s.vfs, fds := s.fds ++ [f] } := by
  have hcnt := h.refcnt
  have hopen : ((fsOpen s.ptr o tid s.vfs).node s.ptr).OpenAs o (s.node.refcnt + 1) := by
    refine fsOpen_openAs o ⟨rfl, rfl⟩ ?_ tid
    split at ho
    · next h0 => exact .inl h0
    · exact .inr ho
  refine ⟨hopen.2.trans ?_, fun g hg bit hb hbit => ?_⟩
  · rw [List.length_append, List.length_singleton]
    show s.node.refcnt + 1 = s.fds.length + 1 + s.loads
    omega
  · rw [Shared.node, hopen.1]
    split at ho
    · next h0 =>
        have hnil : s.fds = [] := List.eq_nil_of_length_eq_zero (by omega)
        rw [hnil, List.nil_append, List.mem_singleton] at hg
        rw [ho, hasFlag_mode hb, ← hg]
        exact hbit
    · next h0 =>
        rw [ho]
        obtain hg | hg := List.mem_append.mp hg
        · exact h.access g hg bit hb hbit
        · rw [List.mem_singleton] at hg
          exact hasFlag_of_not_differ hb (hd h0) (hg ▸ hbit)

theorem shareOpen_of_none {uid : Nat}
    (hp : checkPerm s.node.uid s.node.gid flags s.node.mask uid s.vfs.user)
    (hc : compatFlags flags s.node = none) : shareOpen flags tid uid s = (-EINVAL, s) := by
  rw [shareOpen, if_neg (by simp [hp]), hc]

theorem shareOpen_of_some {uid o : Nat}
    (hp : checkPerm s.node.uid s.node.gid flags s.node.mask uid s.vfs.user)
    (hc : compatFlags flags s.node = some o) :
    shareOpen flags tid uid s =
      ((s.fds.length : Int),
        { s with vfs := fsOpen s.ptr o tid s.vfs, fds := s.fds ++ [flags] }) := by
  rw [shareOpen, if_neg (by simp [hp]), hc]

/-- The answer to a request for an open node. -/
theorem shareOpen_einval_iff {uid : Nat} (tid : Int)
    (hp : checkPerm s.node.uid s.node.gid flags s.node.mask uid s.vfs.user) (h0 : s.node.refcnt ≠ 0) :
    (shareOpen flags tid uid s).1 = -EINVAL ↔ ¬ Lenient s.node.oflags := by
  rw [← compatFlags_eq_none flags h0]
  cases hc : compatFlags flags s.node with
  | none => simp [shareOpen_of_none hp hc]
  | some o =>
      rw [shareOpen_of_some hp hc]
      simp [EINVAL]

theorem shareRight_iff (h : ShareInv s) (e : ShareEvent) : ShareRight s e ↔ ShareFits s e := by
  cases e with
  | «open» flags tid uid =>
      refine forall_congr' fun hp => forall_congr' fun h0 => ?_
      rw [shareOpen_einval_iff tid hp h0]
      exact iff_comm
  | read fd offset nbytes tid => exact iff_true_intro fun hf => h.passes (.inl rfl) hf
  | write fd offset data => exact iff_true_intro fun hf => h.passes (.inr rfl) hf
  | _ => exact Iff.rfl

theorem ShareInv.next (h : ShareInv s) (e : ShareEvent) (hr : ShareRight s e) :
    ShareInv (e.next s) := by
  have hcnt : (s.vfs.node s.ptr).refcnt = s.fds.length + s.loads := h.refcnt
  cases e with
  | «open» flags tid uid =>
      rw [ShareEvent.next]
      by_cases hp : checkPerm s.node.uid s.node.gid flags s.node.mask uid s.vfs.user
      · cases hc : compatFlags flags s.node with
        | none =>
            rw [shareOpen_of_none hp hc]
            exact h
        | some o =>
            have hright : s.node.refcnt ≠ 0 → Differ flags s.node.oflags = false := by
              intro h0
              have hd := (shareOpen_einval_iff tid hp h0).symm.trans (hr hp h0)
              have hlen : Lenient s.node.oflags = true := by
                by_contra hl
                have hnone := (compatFlags_eq_none flags h0).mpr hl
                rw [hc] at hnone
                contradiction
              simpa [hlen] using hd
            rw [shareOpen_of_some hp hc]
            exact h.grant tid (compatFlags_eq_some hc) hright
      · rw [shareOpen, if_pos (by simpa using hp)]
        exact h
  | close fd =>
      rw [ShareEvent.next]
      split
      · next hlt =>
          refine h.of_openAs (k := s.fds.length - 1 + s.loads) (fsClose_openAs ⟨rfl, ?_⟩) ?_
            fun f hf => List.mem_of_mem_eraseIdx hf
          · omega
          · rw [List.length_eraseIdx_of_lt hlt]
      · exact h
  | read fd offset nbytes tid =>
      rw [ShareEvent.next]
      split
      · exact h.of_openAs (fsRead_openAs ⟨rfl, rfl⟩ offset nbytes tid) hcnt fun _ hf => hf
      · exact h
  | write fd offset data =>
      rw [ShareEvent.next]
      split
      · have hfds : (shareWrite offset data s).fds = s.fds ∧ (shareWrite offset data s).loads = s.loads := by
          rw [shareWrite]
          split <;> exact ⟨rfl, rfl⟩
        refine h.of_openAs (shareWrite_openAs ⟨rfl, rfl⟩ offset data) ?_ fun f hf => hfds.1 ▸ hf
        rw [hfds.1, hfds.2, hcnt]
      · exact h
  | load tid =>
      rw [ShareEvent.next]
      by_cases h0 : (s.vfs.node s.ptr).refcnt = 0
      · have hopen := fsOpen_openAs (n := s.ptr) (v := s.vfs) FS_READ ⟨rfl, h0⟩ (.inl rfl) tid
        have hnil : s.fds = [] := List.eq_nil_of_length_eq_zero (by omega)
        rw [if_neg (by simpa using h0)]
        refine ⟨hopen.2.trans (by dsimp only; omega), fun f hf => ?_⟩
        rw [hnil] at hf
        simp at hf
      · rw [if_pos h0]
        refine h.of_openAs (fsOpen_openAs _ ⟨rfl, rfl⟩ (.inr rfl) tid) ?_ fun _ hf => hf
        show (s.vfs.node s.ptr).refcnt + 1 = s.fds.length + (s.loads + 1)
        omega
  | unload =>
      rw [ShareEvent.next]
      split
      · exact h
      · next h0 =>
          refine h.of_openAs (k := s.fds.length + (s.loads - 1)) (fsClose_openAs ⟨rfl, ?_⟩) rfl
            fun _ hf => hf
          omega

/-- **Shared opens**: from a node that is closed, all requests are answered
right and all reads and writes get to the hook if and only if the requests
fit. -/
theorem sharesRight_iff (s : Shared) (es : List ShareEvent) (h0 : s.node.refcnt = 0)
    (hfds : s.fds = []) (hloads : s.loads = 0) :
    System.Along ShareEvent.next ShareRight s es ↔ System.Along ShareEvent.next ShareFits s es := by
  refine System.along_iff (I := ShareInv) (fun _ e h => h.next e) (fun _ e h => shareRight_iff h e)
    ⟨?_, ?_⟩
  · rw [h0, hfds, hloads]
    rfl
  · rw [hfds]
    simp

/-- A node that everybody may read. -/
def Shared.readable : Shared where
  vfs := { (default : Vfs) with node := fun _ => { mask := 0o644 }, user := fun _ => some 0 }
  ptr := 0
  fds := []
  loads := 0

theorem sharesRight_iff_readable :
    System.Along ShareEvent.next ShareRight .readable [.open FS_READ 1 0, .open FS_WRITE 1 0] :=
  (sharesRight_iff .readable [.open FS_READ 1 0, .open FS_WRITE 1 0] rfl rfl rfl).mpr
    ⟨fun _ h => absurd rfl h, fun _ _ => by decide, trivial⟩

/-- A second descriptor for reading is refused. -/
theorem not_sharesRight :
    ¬ ∀ (s : Shared) (es : List ShareEvent), s.node.refcnt = 0 → s.fds = [] → s.loads = 0 →
      System.Along ShareEvent.next ShareRight s es := by
  intro hall
  have hrun := hall .readable [.open FS_READ 1 0, .open FS_READ 1 0] rfl rfl rfl
  have hsame := hrun.2.1 (by decide) (by decide)
  exact absurd (hsame.mp (by decide)) (by decide)

end Eclair
