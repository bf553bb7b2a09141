import Eclair.Vfs.CString
import Eclair.Vfs.Fs

/-!
# Eclair.Vfs.Path

`fs_resolve_full` on the characters of a path in memory
(`kernel/vfs/fs.c`): the position as a pointer and as a length, the static
buffer for the component, the loops over the `ptr` links and the entries.

`FileTree.walk` says which node a path is: the components between the
slashes are walked one after the other, and an empty one stays where it is.
The last component is the one that no slash is behind.
-/

namespace Eclair

open ByteMem

/-! ## the code -/

/-- What `fs_resolve_full` must not do. -/
inductive PathFault where
  /-- call a hook that is `NULL` -/
  | nullCall

/-- `while (node->ptr) node = node->ptr;` -/
def followPtr (v : Vfs) : NodePtr → Nat → Except (Stop PathFault) NodePtr
  | _, 0 => .error .fuel
  | n, k + 1 =>
      match (v.node n).ptr with
      | none => .ok n
      | some m => followPtr v m k

/-- The loop of `fs_readdir`, from entry `i` on; a pointer to an entry is
the rest of the list. -/
def readdirLoop (idx : Nat) : Nat → List FsDirent → List FsDirent
  | _, [] => []
  | i, e :: es => if i = idx then e :: es else readdirLoop idx (i + 1) es

/-- `fs_readdir`. -/
def fsReaddir (node : NodePtr) (idx : Nat) (v : Vfs) (k : Nat) :
    Except (Stop PathFault) (List FsDirent × Vfs) :=
  (followPtr v node k).bind fun node =>
    if (v.node node).noEntries then .error (.fault .nullCall)
    else .ok (readdirLoop idx 0 ((fsFill node v).node node).dirents, fsFill node v)

/-- The loop of `fs_finddir`. -/
def finddirLoop (name : ByteMem) : List FsDirent → Nat → Except (Stop PathFault) (Option NodePtr)
  | [], _ => .ok none
  | e :: es, k =>
      (strcmp (literal e.name) name 0 k).bind fun d =>
        if d = 0 then .ok e.node else finddirLoop name es k

/-- `fs_finddir`. -/
def fsFinddir (node : NodePtr) (name : ByteMem) (v : Vfs) (k : Nat) :
    Except (Stop PathFault) (Option NodePtr × Vfs) :=
  if !hasFlag (v.node node).flags FS_DIRECTORY then .ok (none, v)
  else (fsReaddir node 0 v k).bind fun r => (finddirLoop name r.1 k).bind fun n => .ok (n, r.2)

/-- The result of `fs_resolve_full`; `create` comes with `*fname`. -/
inductive PathResult where
  | missing
  | found (n : NodePtr)
  | create (dir : NodePtr) (fname : Nat)

/-- `end? (size_t)(end - path): pathlen - len`. -/
def componentSize (pathlen len path : Nat) : Option Nat → Nat
  | some stop => stop - path
  | none => sub32 pathlen len

/-- The loop of `fs_resolve_full`: `path`, `len`, `node` and `pathbuf`. -/
def resolveLoop (m : ByteMem) (pathlen : Nat) :
    Option Nat → Nat → NodePtr → ByteMem → Vfs → Nat → Except (Stop PathFault) (PathResult × Vfs)
  | _, _, _, _, _, 0 => .error .fuel
  | none, _, node, _, v, _ + 1 => .ok (.found node, v)
  | some path, len, node, pathbuf, v, k + 1 =>
      (followPtr v node k).bind fun node =>
      if !hasFlag (v.node node).flags FS_DIRECTORY then .ok (.missing, v)
      else (strchr m 47 path k).bind fun stop =>
        let size := componentSize pathlen len path stop
        let pathbuf := strncpy (fun i => m (path + i)) (min size (PATHBUFSZ - 1)) 0 pathbuf
        let next := stop.map (· + 1)
        let len := u32 (len + u32 (size + 1))
        if size = 0 then resolveLoop m pathlen next len node pathbuf v k
        else (fsFinddir node pathbuf v k).bind fun r =>
          match r.1, next with
          | some found, _ => resolveLoop m pathlen next len found pathbuf r.2 k
          | none, none => .ok (.create node path, r.2)
          | none, some _ => .ok (.missing, r.2)

/-- `fs_resolve_full` of the path at `p`; `pathbuf` is the static buffer. -/
def fsResolveFullAt (m : ByteMem) (p : Nat) (pathbuf : ByteMem) (v : Vfs) (k : Nat) :
    Except (Stop PathFault) (PathResult × Vfs) :=
  (strlenAt m p k).bind fun pathlen => resolveLoop m pathlen (some p) 0 v.fsRoot pathbuf v k

/-! ## the walk -/

/-- Nodes whose `ptr` links end, with directories that are filled and names
that are strings. -/
structure FileTree where
  vfs : Vfs
  acyclic : WellFounded fun m n => (vfs.node n).ptr = some m
  filled : ∀ n, (vfs.node n).ptr = none → hasFlag (vfs.node n).flags FS_DIRECTORY = true →
    (vfs.node n).dirents ≠ []
  named : ∀ n, ∀ e ∈ (vfs.node n).dirents, (0 : UInt8) ∉ e.name

namespace FileTree

variable (t : FileTree)

/-- Where the links of a node end. -/
noncomputable def target : NodePtr → NodePtr :=
  t.acyclic.fix fun n target =>
    match h : (t.vfs.node n).ptr with
    | none => n
    | some m => target m h

/-- The reference walk. -/
noncomputable def walk : NodePtr → List Bytes → Resolved
  | n, [] => .found n
  | n, c :: cs =>
      let d := t.target n
      if !hasFlag (t.vfs.node d).flags FS_DIRECTORY then .missing
      else if c = [] then walk d cs
      else match findName c (t.vfs.node d).dirents with
        | some next => walk next cs
        | none => if cs = [] then .create d c else .missing

end FileTree

/-- The result is this one, `*fname` pointing at the component. -/
inductive Answers (m : ByteMem) : PathResult → Resolved → Prop
  | missing : Answers m .missing .missing
  | found (n : NodePtr) : Answers m (.found n) (.found n)
  | create {dir : NodePtr} {fname : Nat} {c : Bytes} (h : CStr (fun _ => True) m fname c) :
      Answers m (.create dir fname) (.create dir c)

/-! ## the links and the entries -/

namespace FileTree

variable {t : FileTree} {n m d : NodePtr} {c s : Bytes} {es : List FsDirent} {name : ByteMem}

theorem target_of_none (h : (t.vfs.node n).ptr = none) : t.target n = n := by
  rw [target, WellFounded.fix_eq]
  split
  · rfl
  · next hm => simp [h] at hm

theorem target_of_some (h : (t.vfs.node n).ptr = some m) : t.target n = t.target m := by
  rw [target, WellFounded.fix_eq]
  split
  · next hn => simp [h] at hn
  · next k hk =>
      obtain rfl : m = k := Option.some.inj (h.symm.trans hk)
      rfl

/-- **Following the links** ends where they do. -/
theorem followPtr_returns (n : NodePtr) :
    Fuel.Returns (followPtr t.vfs n) (t.target n) ∧ (t.vfs.node (t.target n)).ptr = none := by
  induction n using t.acyclic.induction with
  | _ n ih =>
      cases hp : (t.vfs.node n).ptr with
      | none =>
          rw [target_of_none hp]
          refine ⟨.of_succ rfl ?_, hp⟩
          simp only [followPtr, hp]
          exact Fuel.returns_ok
      | some m =>
          obtain ⟨hm, hend⟩ := ih m hp
          rw [target_of_some hp]
          refine ⟨.of_succ rfl ?_, hend⟩
          simp only [followPtr, hp]
          exact hm

theorem fsFill_of_filled {v : Vfs} (h : (v.node n).dirents ≠ []) : fsFill n v = v := by
  have hnode : (fun m => if m = n then { v.node m with dirents := (v.node m).entries } else v.node m) =
      v.node := by
    funext m
    by_cases hm : m = n
    · simp [hm, FsNode.entries, h]
    · rw [if_neg hm]
  rw [fsFill, Vfs.modNode, hnode]

theorem readdirLoop_zero : readdirLoop 0 0 es = es := by
  cases es with
  | nil => rfl
  | cons e es => rw [readdirLoop, if_pos rfl]

/-- **The search** returns the node of the first entry of the name. -/
theorem finddirLoop_returns {P : Nat → Prop} (hname : CStr P name 0 c)
    (hes : ∀ e ∈ es, (0 : UInt8) ∉ e.name) : Fuel.Returns (finddirLoop name es) (findName c es) := by
  induction es with
  | nil => exact Fuel.returns_ok
  | cons e es ih =>
      obtain ⟨r, hr, hiff⟩ := strcmp_returns (E := PathFault) (cstr_literal (hes e List.mem_cons_self)) hname
      refine Fuel.Returns.bind hr ?_
      by_cases h0 : r = 0
      · have heq := hiff.mp h0
        simp only [if_pos h0, findName, List.find?_cons, heq, beq_self_eq_true, Option.bind_some]
        exact Fuel.returns_ok
      · have hne : (e.name == c) = false := by simpa using mt hiff.mpr h0
        simp only [if_neg h0, findName, List.find?_cons, hne]
        exact ih fun e he => hes e (List.mem_cons_of_mem _ he)

theorem fsFinddir_returns {P : Nat → Prop} (hname : CStr P name 0 c)
    (hptr : (t.vfs.node d).ptr = none) (hdir : hasFlag (t.vfs.node d).flags FS_DIRECTORY = true) :
    Fuel.Returns (fsFinddir d name t.vfs) (findName c (t.vfs.node d).dirents, t.vfs) := by
  have hfilled := t.filled d hptr hdir
  have hentries : ¬ (t.vfs.node d).noEntries = true := by simp [FsNode.noEntries, hfilled]
  have hread : Fuel.Returns (fsReaddir d 0 t.vfs) ((t.vfs.node d).dirents, t.vfs) := by
    have hd := (t.followPtr_returns d).1
    rw [target_of_none hptr] at hd
    refine Fuel.Returns.bind hd ?_
    simp only [if_neg hentries, fsFill_of_filled hfilled, readdirLoop_zero]
    exact Fuel.returns_ok
  have hsome : ¬ (!hasFlag (t.vfs.node d).flags FS_DIRECTORY) = true := by simp [hdir]
  show Fuel.Returns (fun k => fsFinddir d name t.vfs k) _
  simp only [fsFinddir, if_neg hsome]
  exact hread.bind ((finddirLoop_returns hname (t.named d)).bind Fuel.returns_ok)

/-! ## the loop -/

variable {mem pathbuf : ByteMem} {p pathlen len size : Nat} {stop : Option Nat}
variable {x : PathResult × Vfs}

theorem resolveLoop_end : Fuel.Returns (resolveLoop mem pathlen none len n pathbuf t.vfs)
    (.found n, t.vfs) :=
  .of_succ rfl Fuel.returns_ok

/-- What is not a directory ends the loop. -/
theorem resolveLoop_of_file (hdir : ¬ hasFlag (t.vfs.node (t.target n)).flags FS_DIRECTORY = true) :
    Fuel.Returns (resolveLoop mem pathlen (some p) len n pathbuf t.vfs) (.missing, t.vfs) := by
  refine .of_succ rfl (Fuel.Returns.bind (t.followPtr_returns n).1 ?_)
  simp only [hdir]
  exact Fuel.returns_ok

/-- **Round lemma**: a round looks for the component `c` that is in front
of the next slash. -/
theorem resolveLoop_round (hdir : hasFlag (t.vfs.node (t.target n)).flags FS_DIRECTORY = true)
    (hstop : Fuel.Returns (strchr (E := PathFault) mem 47 p) stop)
    (hsize : componentSize pathlen len p stop = c.length)
    (hstr : CStr (fun _ => True) mem p (c ++ s)) (hc : c.length < PATHBUFSZ)
    (hx : ∀ pathbuf, Fuel.Returns (fun k =>
      if c = [] then
        resolveLoop mem pathlen (stop.map (· + 1)) (u32 (len + u32 (c.length + 1))) (t.target n)
          pathbuf t.vfs k
      else match findName c (t.vfs.node (t.target n)).dirents, stop.map (· + 1) with
        | some found, next =>
            resolveLoop mem pathlen next (u32 (len + u32 (c.length + 1))) found pathbuf t.vfs k
        | none, none => .ok (.create (t.target n) p, t.vfs)
        | none, some _ => .ok (.missing, t.vfs)) x) :
    Fuel.Returns (resolveLoop mem pathlen (some p) len n pathbuf t.vfs) x := by
  obtain ⟨hfollow, hptr⟩ := t.followPtr_returns n
  refine .of_succ rfl (Fuel.Returns.bind hfollow ?_)
  have hsome : ¬ (!hasFlag (t.vfs.node (t.target n)).flags FS_DIRECTORY) = true := by simp [hdir]
  simp only [if_neg hsome]
  refine Fuel.Returns.bind hstop ?_
  have hmin : min c.length (PATHBUFSZ - 1) = c.length := by omega
  simp only [hsize, hmin]
  have hbuf : CStr (fun _ => True) (strncpy (fun i => mem (p + i)) c.length 0 pathbuf) 0 c :=
    strncpy_front hstr
  generalize strncpy (fun i => mem (p + i)) c.length 0 pathbuf = buf at hbuf
  have hround := hx buf
  by_cases h0 : c = []
  · have hlen : c.length = 0 := by rw [h0]; rfl
    simp only [if_pos hlen]
    simpa only [if_pos h0] using hround
  · have hlen : ¬ c.length = 0 := mt List.length_eq_zero_iff.mp h0
    simp only [if_neg hlen]
    simp only [if_neg h0] at hround
    refine Fuel.Returns.bind (fsFinddir_returns hbuf hptr hdir) ?_
    revert hround
    cases findName c (t.vfs.node (t.target n)).dirents with
    | some found => exact id
    | none => cases stop <;> exact id

/-! ## the path -/

theorem walk_cons (n : NodePtr) (c : Bytes) (cs : List Bytes) : t.walk n (c :: cs) =
    if !hasFlag (t.vfs.node (t.target n)).flags FS_DIRECTORY then .missing
    else if c = [] then t.walk (t.target n) cs
    else match findName c (t.vfs.node (t.target n)).dirents with
      | some next => t.walk next cs
      | none => if cs = [] then .create (t.target n) c else .missing := rfl

theorem walk_of_file (hdir : ¬ hasFlag (t.vfs.node (t.target n)).flags FS_DIRECTORY = true)
    {cs : List Bytes} (hcs : cs ≠ []) : t.walk n cs = .missing := by
  obtain ⟨c, cs, rfl⟩ := List.exists_cons_of_ne_nil hcs
  rw [walk_cons, if_pos (by simpa using hdir)]

/-- The last component, or an empty rest behind a slash. -/
theorem resolveLoop_last (hs : CStr (fun _ => True) mem p s) (hslash : (47 : UInt8) ∉ s)
    (hlen : len + s.length = pathlen) (hsmall : pathlen < 2 ^ 32) (hc : s.length < PATHBUFSZ)
    (hdir : hasFlag (t.vfs.node (t.target n)).flags FS_DIRECTORY = true) :
    ∃ r, (∀ pathbuf, Fuel.Returns (resolveLoop mem pathlen (some p) len n pathbuf t.vfs) (r, t.vfs)) ∧
      Answers mem r (t.walk n [s]) := by
  have hround := fun r pathbuf => @resolveLoop_round t n s [] mem pathbuf p pathlen len none (r, t.vfs) hdir
    (strchr_of_not_mem hs hslash) (by rw [componentSize, sub32_of_le (by omega) hsmall]; omega)
    (by rwa [List.append_nil]) hc
  rw [walk_cons, if_neg (by simp [hdir])]
  by_cases h0 : s = []
  · rw [if_pos h0]
    refine ⟨_, fun pathbuf => hround _ pathbuf fun buf => ?_, .found _⟩
    simp only [if_pos h0]
    exact resolveLoop_end
  rw [if_neg h0]
  simp only [if_neg h0, Option.map_none] at hround
  cases hf : findName s (t.vfs.node (t.target n)).dirents with
  | some found =>
      rw [hf] at hround
      exact ⟨_, fun pathbuf => hround _ pathbuf fun buf => resolveLoop_end, .found _⟩
  | none =>
      rw [hf] at hround
      exact ⟨_, fun pathbuf => hround _ pathbuf fun buf => Fuel.returns_ok, .create hs⟩

/-- **Run lemma**: the loop is the walk, by induction on what is left of the
path. -/
theorem resolveLoop_walk (hs : CStr (fun _ => True) mem p s) (hlen : len + s.length = pathlen)
    (hsmall : pathlen < 2 ^ 32) (hcomp : ∀ c ∈ components s, c.length < PATHBUFSZ) :
    ∃ r, (∀ pathbuf, Fuel.Returns (resolveLoop mem pathlen (some p) len n pathbuf t.vfs) (r, t.vfs)) ∧
      Answers mem r (t.walk n (components s)) := by
  induction hd : s.length using Nat.strongRecOn generalizing s p len n with
  | ind d ih =>
      by_cases hfile : ¬ hasFlag (t.vfs.node (t.target n)).flags FS_DIRECTORY = true
      · rw [walk_of_file hfile (components_ne_nil s)]
        exact ⟨_, fun pathbuf => resolveLoop_of_file hfile, .missing⟩
      have hdir := Decidable.not_not.mp hfile
      by_cases hslash : (47 : UInt8) ∉ s
      · rw [components_of_not_mem hslash] at hcomp ⊢
        exact resolveLoop_last hs hslash hlen hsmall (hcomp s List.mem_cons_self) hdir
      obtain ⟨c, rest, rfl, hnot⟩ := List.eq_append_cons_of_mem (Decidable.not_not.mp hslash)
      rw [components_append hnot] at hcomp ⊢
      rw [List.length_append, List.length_cons] at hlen hd
      have hnext : u32 (len + u32 (c.length + 1)) = len + (c.length + 1) := by
        rw [u32_of_lt (n := c.length + 1) (by omega), u32_of_lt (by omega)]
      have hrest : CStr (fun _ => True) mem (p + c.length + 1) rest := cstr_tail (cstr_append hs)
      have hstop := strchr_of_append (E := PathFault) hs hnot
      have hround := fun r pathbuf => @resolveLoop_round t n c (47 :: rest) mem pathbuf p pathlen len
        (some (p + c.length)) (r, t.vfs) hdir hstop (Nat.add_sub_cancel_left p c.length) hs
        (hcomp c List.mem_cons_self)
      -- the rest of the path, from any node
      have hgo : ∀ n, ∃ r, (∀ pathbuf, Fuel.Returns (resolveLoop mem pathlen (some (p + c.length + 1))
          (u32 (len + u32 (c.length + 1))) n pathbuf t.vfs) (r, t.vfs)) ∧
          Answers mem r (t.walk n (components rest)) := by
        intro n
        rw [hnext]
        exact ih rest.length (by omega) hrest (by omega)
          (fun b hb => hcomp b (List.mem_cons_of_mem c hb)) rfl
      rw [walk_cons, if_neg (by simp [hdir])]
      simp only [Option.map_some] at hround
      by_cases h0 : c = []
      · obtain ⟨r, hr, ha⟩ := hgo (t.target n)
        rw [if_pos h0]
        refine ⟨r, fun pathbuf => hround _ pathbuf fun buf => ?_, ha⟩
        simp only [if_pos h0]
        exact hr buf
      rw [if_neg h0]
      simp only [if_neg h0] at hround
      cases hf : findName c (t.vfs.node (t.target n)).dirents with
      | some found =>
          rw [hf] at hround
          obtain ⟨r, hr, ha⟩ := hgo found
          exact ⟨r, fun pathbuf => hround _ pathbuf fun buf => hr buf, ha⟩
      | none =>
          rw [hf] at hround
          simp only [if_neg (components_ne_nil rest)]
          exact ⟨_, fun pathbuf => hround _ pathbuf fun buf => Fuel.returns_ok, .missing⟩

/-- The loop over components is the walk too, if its fuel lasts for the links. -/
theorem fsResolveLoop_eq (hlinks : ∀ n, follow FUEL n t.vfs = t.target n) {cs : List Bytes}
    (hcomp : ∀ c ∈ cs, c.length < PATHBUFSZ) : fsResolveLoop cs n t.vfs = (t.walk n cs, t.vfs) := by
  induction cs generalizing n with
  | nil => rfl
  | cons c cs ih =>
      have hrest := fun n => @ih n fun c hc => hcomp c (List.mem_cons_of_mem _ hc)
      have hc : c.take (PATHBUFSZ - 1) = c := by
        have := hcomp c List.mem_cons_self
        exact List.take_of_length_le (by omega)
      rw [fsResolveLoop, walk_cons]
      simp only [hlinks, hc]
      by_cases hfile : ¬ hasFlag (t.vfs.node (t.target n)).flags FS_DIRECTORY = true
      · simp [hfile]
      have hdir := Decidable.not_not.mp hfile
      have hfilled := t.filled _ (t.followPtr_returns n).2 hdir
      have hentries : (t.vfs.node (t.target n)).entries = (t.vfs.node (t.target n)).dirents := by
        rw [FsNode.entries, if_neg hfilled]
      simp only [hdir, Bool.not_true, Bool.false_eq_true, if_false, fsFill_of_filled hfilled, hentries,
        FsNode.noEntries, List.isEmpty_eq_false_iff.mpr hfilled, Bool.false_and, hrest]
      split
      · rfl
      · cases findName c (t.vfs.node (t.target n)).dirents <;> rfl

end FileTree

/-- **Path resolution**: `fs_resolve_full` returns what the walk along the
components of the path finds, and leaves the tree as it is. -/
theorem fsResolveFullAt_walk (t : FileTree) (m : ByteMem) (p : Nat) (s : Bytes) (pathbuf : ByteMem)
    (hs : CStr (fun _ => True) m p s) (hsmall : s.length < 2 ^ 32)
    (hcomp : ∀ c ∈ components s, c.length < PATHBUFSZ) :
    ∃ r, Fuel.Returns (fsResolveFullAt m p pathbuf t.vfs) (r, t.vfs) ∧
      Answers m r (t.walk t.vfs.fsRoot (components s)) := by
  obtain ⟨r, hr, ha⟩ := @FileTree.resolveLoop_walk t t.vfs.fsRoot s m p s.length 0 hs
    (Nat.zero_add _) hsmall hcomp
  exact ⟨r, (strlenAt_returns hs).bind (hr pathbuf), ha⟩

/-- A root that a file system is mounted on, with a directory `a` in it. -/
def mountedTree : FileTree where
  vfs := { (default : Vfs) with
    node := fun n =>
      if n = 0 then { flags := FS_DIRECTORY, ptr := some 1 }
      else if n = 1 then { flags := FS_DIRECTORY, dirents := [⟨[97], some 2⟩, ⟨[98], none⟩] }
      else if n = 2 then { flags := FS_DIRECTORY, dirents := [⟨[46], some 2⟩] }
      else {} }
  acyclic := by
    refine Subrelation.wf (fun {m n} h => ?_)
      (InvImage.wf (fun n : NodePtr => if n = 0 then 1 else 0) Nat.lt_wfRel.wf)
    by_cases hn : n = 0
    · simp only [hn, if_true, Option.some.injEq] at h
      simp [hn, ← h, InvImage, WellFoundedRelation.rel]
    · by_cases h1 : n = 1 <;> by_cases h2 : n = 2 <;> simp_all
  filled n hptr hdir := by
    by_cases h0 : n = 0
    · simp [h0] at hptr
    · by_cases h1 : n = 1 <;> by_cases h2 : n = 2 <;> simp_all [hasFlag]
  named n e he := by
    by_cases h0 : n = 0
    · simp [h0] at he
    · by_cases h1 : n = 1 <;> by_cases h2 : n = 2 <;> simp_all
      obtain rfl | rfl := he <;> decide

/-- The last component of `/a//g` can be created in `a`. -/
theorem fsResolveFullAt_walk_example : ∃ fname,
    Fuel.Returns (fsResolveFullAt (literal [47, 97, 47, 47, 103]) 0 (fun _ => 0) mountedTree.vfs)
      (.create 2 fname, mountedTree.vfs) ∧
    CStr (fun _ => True) (literal [47, 97, 47, 47, 103]) fname [103] := by
  obtain ⟨r, hr, ha⟩ := fsResolveFullAt_walk mountedTree (literal [47, 97, 47, 47, 103]) 0
    [47, 97, 47, 47, 103] (fun _ => 0) (cstr_literal (by decide)) (by decide) (by decide)
  have hroot : mountedTree.target 0 = 1 :=
    (FileTree.target_of_some rfl).trans (FileTree.target_of_none rfl)
  have h1 : mountedTree.target 1 = 1 := FileTree.target_of_none rfl
  have h2 : mountedTree.target 2 = 2 := FileTree.target_of_none rfl
  have hwalk : mountedTree.walk 0 [[], [97], [], [103]] = .create 2 [103] := by
    have ha : mountedTree.walk 1 [[97], [], [103]] = mountedTree.walk 2 [[], [103]] := by
      rw [FileTree.walk_cons, h1]
      rfl
    have hg : mountedTree.walk 2 [[103]] = .create 2 [103] := by
      rw [FileTree.walk_cons, h2]
      rfl
    rw [FileTree.walk_cons, hroot]
    refine ha.trans ?_
    rw [FileTree.walk_cons, h2]
    exact hg
  have hsplit : components [47, 97, 47, 47, 103] = [[], [97], [], [103]] := by decide
  rw [hsplit] at ha
  cases (show Answers _ r (.create 2 [103]) from hwalk ▸ ha) with
  | create h => exact ⟨_, hr, h⟩

end Eclair
