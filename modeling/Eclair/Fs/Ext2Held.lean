import Eclair.Fs.Ext2
import Eclair.Lib.System

/-!
# Eclair.Fs.Ext2Held

The flag of an ext2 volume that says it is busy.

Every operation sets it on entry and clears it at its end, but `ext2_read`
returns from the middle of its loop at the end of the file and at a hole.
`held_of_reachable` says which operations leave it set, and that it is clear
in a run without those.
-/

namespace Eclair

/-- What a node of the volume has of its own: its inode's number, and its length. -/
structure Ext2Node where
  inode : Nat
  len : Nat

/-- The volume between operations: the flag, the cached block, the open
files by their nodes, and the nodes that have entries. -/
structure Ext2State where
  held : Bool
  cache : ByteMem
  files : Nat → Option Ext2File
  filled : Nat → Bool

/-- An operation on a node. -/
inductive Ext2Op where
  | open (n : Nat)
  | read (n offset nbytes : Nat)
  | close (n : Nat)
  | filldir (n : Nat)

/-- `ext2_isheld`, from the flags of the node, of the volume and of the device. -/
def ext2IsHeld (node info dev : Bool) : Bool := node || info || dev

section

variable (v : Ext2Info) (nodes : Nat → Ext2Node)

/-- One operation.  What the buffers hold at first is arbitrary; a node is
read and closed only when it was opened, and a `filldir` that does not end
is no step. -/
inductive Ext2Step : Ext2State → Ext2Op → Ext2State → Prop
  | open (s n bdata) :
      Ext2Step s (.open n)
        (let s := { s with held := true }
         let r := v.ext2Open (nodes n).inode s.cache bdata
         { s with files := Function.update s.files n (some r.1), cache := r.2, held := false })
  | read (s n offset nbytes f) (hf : s.files n = some f) :
      Ext2Step s (.read n offset nbytes)
        (let s := { s with held := true }
         let r := v.ext2Read (nodes n).len offset nbytes f
         let s := { s with files := Function.update s.files n (some r.2.1) }
         if r.2.2 then { s with held := false } else s)
  | close (s n f) (hf : s.files n = some f) :
      Ext2Step s (.close n)
        (let s := { s with held := true }
         { s with held := false })
  | filled (s n) (hn : s.filled n = true) : Ext2Step s (.filldir n) s
  | filldir (s n dirbuf mem fuel r) (hn : s.filled n = false)
      (hr : v.ext2Filldir (nodes n).inode s.cache dirbuf mem fuel = some r) :
      Ext2Step s (.filldir n)
        (let s := { s with held := true }
         let s := { s with cache := r.cache, filled := Function.update s.filled n (!r.entries.isEmpty) }
         { s with held := false })

/-- The volume from its mount on; what the cached block points to is arbitrary. -/
def ext2System : System Ext2State Ext2Op where
  init s := s.held = false ∧ (∀ n, s.files n = none) ∧ ∀ n, s.filled n = false
  step := Ext2Step v nodes

end

/-- A read that ends with its last byte: it stays in the file, and gets to no hole. -/
def Complete (v : Ext2Info) (nodes : Nat → Ext2Node) (s : Ext2State) : Ext2Op → Prop
  | .read n offset nbytes => ∀ f, s.files n = some f →
      ∀ i < nbytes, u32 (offset + i) < (nodes n).len ∧
        v.blockOf f.inode (u32 (offset + i) / v.blocksize) ≠ 0
  | _ => True

variable {v : Ext2Info} {nodes : Nat → Ext2Node} {s s' : Ext2State} {e : Ext2Op} {f : Ext2File}

/-! ## one read -/

/-- The loop keeps the cached block right, and gets to its end exactly if all
its bytes are in the file, and in no hole. -/
theorem ext2ReadFrom_spec (h : v.CachedBlock f) (len k pos : Nat) :
    v.CachedBlock (v.ext2ReadFrom len k pos f).2.1 ∧
      ((v.ext2ReadFrom len k pos f).2.2 = true ↔
        ∀ i < k, u32 (pos + i) < len ∧ v.blockOf f.inode (u32 (pos + i) / v.blocksize) ≠ 0) := by
  induction k generalizing pos f with
  | zero => exact ⟨h, by simp [Ext2Info.ext2ReadFrom]⟩
  | succ k ih =>
      obtain ⟨hi, -, hk⟩ := Ext2Info.loadFile_spec (b := u32 pos / v.blocksize) h
      have hc := Ext2Info.loadFile_cached (b := u32 pos / v.blocksize) h
      obtain ⟨ihc, ihe⟩ := ih hc (pos + 1)
      have hadd : ∀ i, pos + 1 + i = pos + (i + 1) := by omega
      simp only [hi, hadd] at ihe
      simp only [Nat.forall_lt_succ_left, Nat.add_zero, Ext2Info.ext2ReadFrom]
      by_cases hpos : u32 pos ≥ len
      · simp only [if_pos hpos]
        exact ⟨h, by simp; omega⟩
      · by_cases hz : (v.loadFile (u32 pos / v.blocksize) f).bblk = 0
        · simp only [if_neg hpos, if_pos hz]
          exact ⟨hc, by simp [← hk, hz]⟩
        · simp only [if_neg hpos, if_neg hz]
          refine ⟨ihc, ihe.trans ?_⟩
          rw [← hk, and_iff_right ⟨by omega, hz⟩]

/-! ## runs -/

/-- The flag is clear, and every open file has the block it says. -/
structure Ext2Idle (v : Ext2Info) (s : Ext2State) : Prop where
  clear : s.held = false
  cached : ∀ n f, s.files n = some f → v.CachedBlock f

/-- A file taken up again. -/
theorem cached_update (h : ∀ n f, s.files n = some f → v.CachedBlock f) (n : Nat)
    (hf : v.CachedBlock f) :
    ∀ m g, Function.update s.files n (some f) m = some g → v.CachedBlock g := by
  intro m g hg
  by_cases hm : m = n
  · subst hm
    rw [Function.update_self] at hg
    exact Option.some.inj hg ▸ hf
  · rw [Function.update_of_ne hm] at hg
    exact h m g hg

/-- An operation on an idle volume leaves it idle exactly if it is complete. -/
theorem Ext2Step.held_iff (h : Ext2Idle v s) (hs : Ext2Step v nodes s e s') :
    (∀ n f, s'.files n = some f → v.CachedBlock f) ∧ (s'.held = false ↔ Complete v nodes s e) := by
  cases hs with
  | «open» n bdata =>
      refine ⟨cached_update h.cached n ?_, by simp [Complete]⟩
      intro hz
      exact absurd rfl hz
  | read n offset nbytes f hf =>
      obtain ⟨hc, he⟩ := ext2ReadFrom_spec (h.cached n f hf) (nodes n).len nbytes offset
      have hcomp : Complete v nodes s (.read n offset nbytes) ↔
          (v.ext2Read (nodes n).len offset nbytes f).2.2 = true := by
        rw [Ext2Info.ext2Read, he, Complete]
        exact ⟨fun hall => hall f hf, fun hall g hg => Option.some.inj (hf.symm.trans hg) ▸ hall⟩
      rw [hcomp]
      dsimp only
      split
      · next hend => exact ⟨cached_update h.cached n hc, by simp [hend]⟩
      · next hend => exact ⟨cached_update h.cached n hc, by simp [hend]⟩
  | close n f hf => exact ⟨h.cached, by simp [Complete]⟩
  | filled n hn => exact ⟨h.cached, by simp [Complete, h.clear]⟩
  | filldir n dirbuf mem fuel r hn hr => exact ⟨h.cached, by simp [Complete]⟩

theorem idle_of_reachable (hr : (ext2System v nodes).Reachable (Complete v nodes) s) :
    Ext2Idle v s := by
  refine hr.invariant ?_ ?_
  · rintro s ⟨hh, hf, -⟩
    exact ⟨hh, fun n f hn => by simp [hf n] at hn⟩
  · intro s e s' h hok hs
    obtain ⟨hc, hh⟩ := hs.held_iff h
    exact ⟨hh.mpr hok, hc⟩

/-- **The volume is not busy after a run of complete operations**, so only
the node and the device decide whether a task waits; the next operation
leaves it so exactly if it is complete too. -/
theorem held_of_reachable (hr : (ext2System v nodes).Reachable (Complete v nodes) s) :
    s.held = false ∧ (∀ node dev, ext2IsHeld node s.held dev = (node || dev)) ∧
      ∀ e s', Ext2Step v nodes s e s' → (s'.held = false ↔ Complete v nodes s e) := by
  have h := idle_of_reachable hr
  refine ⟨h.clear, fun node dev => ?_, fun e s' hs => (hs.held_iff h).2⟩
  rw [h.clear, ext2IsHeld, Bool.or_false]

/-! ## a file of ten bytes -/

/-- A volume of ones. -/
def onesVolume : Ext2Info := ⟨fun _ _ => 1, 0, 0, 128, 8, 1, fun _ => 5⟩

def tenBytes : Nat → Ext2Node := fun _ => ⟨2, 10⟩

/-- The file of node 0 open, and nothing else done. -/
def tenOpened : Ext2State :=
  let r := onesVolume.ext2Open 2 (fun _ => 0) fun _ => 0
  ⟨false, r.2, Function.update (fun _ => none) 0 (some r.1), fun _ => false⟩

theorem tenOpened_reachable (ok : Ext2State → Ext2Op → Prop)
    (hok : ∀ s, ok s (.open 0)) : (ext2System onesVolume tenBytes).Reachable ok tenOpened := by
  have h0 : (ext2System onesVolume tenBytes).init
      ⟨false, fun _ => 0, fun _ => none, fun _ => false⟩ :=
    ⟨rfl, fun _ => rfl, fun _ => rfl⟩
  exact (System.Reachable.of_init h0).steps (System.Steps.refl.tail (.open 0) (hok _) (.open _ 0 _))

/-- Three bytes read. -/
theorem held_of_reachable_example :
    ∃ s', Ext2Step onesVolume tenBytes tenOpened (.read 0 4 3) s' ∧ s'.held = false := by
  have hr := tenOpened_reachable (Complete onesVolume tenBytes) fun _ => trivial
  have hs : Ext2Step onesVolume tenBytes tenOpened (.read 0 4 3) _ := .read _ _ _ _ _ rfl
  refine ⟨_, hs, ((held_of_reachable hr).2.2 _ _ hs).mpr ?_⟩
  intro f hf
  obtain rfl := Option.some.inj hf
  decide +kernel

/-- **A read at the end of the file leaves the volume busy.** -/
theorem not_held : ¬ ∀ v nodes s, (ext2System v nodes).Reachable System.Any s → s.held = false := by
  intro h
  have hs : Ext2Step onesVolume tenBytes tenOpened (.read 0 10 1) _ := .read _ _ _ _ _ rfl
  have hr := (tenOpened_reachable System.Any fun _ => trivial).steps
    (System.Steps.refl.tail _ trivial hs)
  exact absurd (h _ _ _ hr) (by decide +kernel)

end Eclair
