import Eclair.Lib.System
import Eclair.Libc.Memory

/-!
# Eclair.Libc.MemoryRuns

Runs of the libc heap: `malloc` and `free` of live pointers in any order,
from the heap that `__libc_init_heap` makes, each `ec_sbrk` of `malloc`
succeeding.

While every request is `Roomy` the regions are disjoint and the blocks do
not overlap; `not_libcCorrect` is a run where one is not.
-/

namespace Eclair

open Blocks

/-- The heap and the regions handed out and not freed. -/
structure LibcState where
  heap : LibcHeap
  live : List Region

/-! ## events -/

inductive LibcEvent where
  | malloc (size : Nat)
  | free (ptr : Nat)

/-- One event; only live pointers are freed. -/
def LibcEvent.next (s : LibcState) : LibcEvent → Option LibcState
  | .malloc size =>
      match Eclair.malloc size s.heap with
      | (some p, h) => some ⟨h, ⟨p, size⟩ :: s.live⟩
      | (none, _) => none
  | .free p =>
      if s.live.any fun r => r.ptr == p then
        some ⟨Eclair.free p s.heap, s.live.filter fun r => r.ptr != p⟩
      else none

/-- A program break of the task and the heap made there. -/
def LibcState.Init (s : LibcState) : Prop :=
  ∃ brkp, brkp < TASK_MAXBRKP ∧ libcInitHeap brkp = some s.heap ∧ s.live = []

/-- The runs of the heap. -/
def libcSystem : System LibcState LibcEvent := System.ofNext LibcState.Init LibcEvent.next

/-- Every request is roomy. -/
def RoomyEvent (s : LibcState) : LibcEvent → Prop
  | .malloc size => Roomy size s.heap
  | .free _ => True

instance (s : LibcState) : ∀ e, Decidable (RoomyEvent s e)
  | .malloc _ => inferInstanceAs (Decidable (Roomy _ _))
  | .free _ => inferInstanceAs (Decidable True)

/-! ## the property -/

/-- The blocks are linked both ways from `first` on, in address order and
without overlap; the live regions are as long as asked for, below the
program break, and disjoint from each other and from every header. -/
def LibcCorrect (s : LibcState) : Prop :=
  ∃ bs : List Blk,
    bs.head?.map Blk.addr = some s.heap.first ∧
    Links s.heap.mem bs ∧
    bs.Pairwise (fun b c => b.stop HBLK ≤ c.addr) ∧
    (∀ r ∈ s.live, Held HBLK bs r ∧ r.ptr + r.size ≤ s.heap.brkp) ∧
    s.live.Pairwise (fun r r' => Apart r.ptr r.size r'.ptr r'.size) ∧
    ∀ r ∈ s.live, ∀ b ∈ bs, Apart r.ptr r.size b.addr HBLK

/-! ## the invariant -/

/-- The heap invariant. -/
structure LibcInv (s : LibcState) (bs : List Blk) : Prop where
  rep : LibcRep s.heap bs
  held : ∀ r ∈ s.live, Held HBLK bs r
  behind : ∀ r ∈ s.live, r.ptr ≠ s.heap.first + HBLK
  nodup : (s.live.map Region.ptr).Nodup

variable {s s' : LibcState} {bs : List Blk} {e : LibcEvent} {size p : Nat}

theorem LibcInv.correct (h : LibcInv s bs) : LibcCorrect s := by
  refine ⟨bs, ?_, h.rep.links, h.rep.layout.ordered, fun r hr => ⟨h.held r hr, ?_⟩, ?_,
    fun r hr b hb => (h.held r hr).apart_header h.rep.layout hb⟩
  · rw [h.rep.head]
    rfl
  · obtain ⟨b, hb, -, hptr, hsize⟩ := h.held r hr
    have htop := h.rep.layout.top b hb
    simp only [Blk.stop] at htop
    omega
  · have hnd := h.nodup
    rw [List.Nodup, List.pairwise_map] at hnd
    exact hnd.imp_of_mem fun hr hr' hne => (h.held _ hr).apart h.rep.layout (h.held _ hr') hne

theorem LibcInv.malloc {h' : LibcHeap} (h : LibcInv s bs) (hroom : Roomy size s.heap)
    (hm : Eclair.malloc size s.heap = (some p, h')) :
    ∃ bs', LibcInv ⟨h', ⟨p, size⟩ :: s.live⟩ bs' := by
  obtain ⟨a, bs', rfl, ht⟩ := malloc_spec h.rep hroom hm
  have hsize : size ≤ align size 4 := le_align (by decide) hroom.1
  -- the new block is not the first one, which is in use
  have hfirst : s.heap.first ≠ a :=
    (ht.used ⟨s.heap.first, 0, false⟩ (List.mem_of_mem_head? h.rep.head) rfl).2
  refine ⟨bs', ht.rep, ?_, ?_, ?_⟩
  · intro r hr
    rcases List.mem_cons.mp hr with rfl | hr
    · exact ⟨_, ht.mem, rfl, rfl, hsize⟩
    · obtain ⟨c, hc, h1, h2, h3⟩ := h.held r hr
      exact ⟨c, (ht.used c hc h1).1, h1, h2, h3⟩
  · intro r hr
    simp only [ht.first]
    rcases List.mem_cons.mp hr with rfl | hr
    · simp only
      omega
    · exact h.behind r hr
  · simp only [List.map_cons, List.nodup_cons]
    refine ⟨fun hmem => ?_, h.nodup⟩
    obtain ⟨r, hr, hrp⟩ := List.mem_map.mp hmem
    obtain ⟨c, hc, h1, h2, -⟩ := h.held r hr
    exact (ht.used c hc h1).2 (by omega)

theorem LibcInv.free (h : LibcInv s bs) (hp : s.live.any fun r => r.ptr == p) :
    ∃ bs', LibcInv ⟨Eclair.free p s.heap, s.live.filter fun r => r.ptr != p⟩ bs' := by
  obtain ⟨r, hr, hrp⟩ := List.any_eq_true.mp hp
  obtain ⟨b, hb, -, hptr, -⟩ := h.held r hr
  have hbehind := h.behind r hr
  obtain rfl : p = b.addr + HBLK := (beq_iff_eq.mp hrp).symm.trans hptr
  obtain ⟨as, cs, rfl⟩ := List.append_of_mem hb
  obtain ⟨bs', hrep, hfirst, hused⟩ := free_spec h.rep (by omega)
  generalize Eclair.free (b.addr + HBLK) s.heap = h' at hrep hfirst ⊢
  refine ⟨bs', hrep, fun x hx => ?_, fun x hx => ?_, h.nodup.sublist (List.filter_sublist.map _)⟩
  · obtain ⟨hx, hxp⟩ := List.mem_filter.mp hx
    obtain ⟨c, hc, h1, h2, h3⟩ := h.held x hx
    have hcb : c ≠ b := by
      rintro rfl
      exact absurd h2 (by simpa using hxp)
    refine ⟨c, hused c ?_ h1, h1, h2, h3⟩
    simp only [List.mem_append, List.mem_cons] at hc ⊢
    grind
  · rw [hfirst]
    exact h.behind x (List.mem_filter.mp hx).1

/-- **Step lemma**: an event that is roomy keeps the heap invariant. -/
theorem libc_step (h : LibcInv s bs) (hroom : RoomyEvent s e) (hs : e.next s = some s') :
    ∃ bs', LibcInv s' bs' := by
  cases e with
  | malloc size =>
      simp only [LibcEvent.next] at hs
      split at hs
      · next p h' hm =>
          obtain rfl := Option.some.inj hs
          exact h.malloc hroom hm
      · contradiction
  | free p =>
      simp only [LibcEvent.next, Option.ite_none_right_eq_some, Option.some.injEq] at hs
      obtain ⟨hp, rfl⟩ := hs
      exact h.free hp

/-! ## runs -/

/-- **The libc heap over whole runs**: while every request is roomy, the live
regions are disjoint and the list of blocks is well formed. -/
theorem libcCorrect_of_reachable (h : libcSystem.Reachable RoomyEvent s) : LibcCorrect s := by
  have hinv : ∃ bs, LibcInv s bs := by
    refine h.invariant (I := fun s => ∃ bs, LibcInv s bs) ?_ ?_
    · rintro ⟨h, _⟩ ⟨brkp, hbrkp, hi, rfl⟩
      have hlt : brkp + HBLK < 2 ^ 32 := by
        have : TASK_MAXBRKP + HBLK < 2 ^ 32 := by decide
        omega
      exact ⟨_, libcRep_libcInitHeap hlt hi, by simp, by simp, by simp⟩
    · rintro s e s' ⟨bs, hinv⟩ hroom hs
      exact libc_step hinv hroom hs
  obtain ⟨bs, hinv⟩ := hinv
  exact hinv.correct

/-- The heap that a task starts with at the lowest break. -/
def libcStart : LibcState := ⟨⟨TASK_MINBRKP, fun _ => {}, TASK_MINBRKP + HBLK⟩, []⟩

theorem libcStart_init : LibcState.Init libcStart := ⟨TASK_MINBRKP, by decide, by rfl, rfl⟩

/-- A block that is split with room to spare, and the last one given back. -/
theorem libcCorrect_of_reachable_example :
    ∃ s, s.live = [⟨0x800020, 24⟩] ∧ LibcCorrect s := by
  have h : (System.run (fun s (e : LibcEvent) => if decide (RoomyEvent s e) then e.next s else none)
      libcStart [.malloc 100, .malloc 4, .free 0x800020, .malloc 24, .free 0x800094]).any
      (fun s => s.live == [⟨0x800020, 24⟩]) = true := by decide
  obtain ⟨s, hs, hp⟩ := (Option.any_eq_true _ _).mp h
  have hsteps : libcSystem.Steps RoomyEvent _ s :=
    System.steps_of_run_if (fun s e => decide (RoomyEvent s e)) (fun _ _ h => of_decide_eq_true h) hs
  exact ⟨s, beq_iff_eq.mp hp,
    libcCorrect_of_reachable ((System.Reachable.of_init libcStart_init).steps hsteps)⟩

/-- A block of 100 bytes is freed and split for a request of 60: the rest is
listed with 60 bytes, and handed out so, over the block behind it. -/
theorem not_libcCorrect : ¬ ∀ s, libcSystem.Reachable System.Any s → LibcCorrect s := by
  intro hall
  have h : (System.run LibcEvent.next libcStart [.malloc 100, .malloc 4, .free 0x800020,
      .malloc 60, .malloc 60]).any
      (fun s => s.live == [⟨0x80006c, 60⟩, ⟨0x800020, 60⟩, ⟨0x800094, 4⟩]) = true := by decide
  obtain ⟨s, hs, hp⟩ := (Option.any_eq_true _ _).mp h
  obtain ⟨-, -, -, -, -, hapart, -⟩ :=
    hall s ((System.Reachable.of_init libcStart_init).steps (System.steps_of_run hs))
  rw [beq_iff_eq.mp hp] at hapart
  exact absurd hapart (by simp [Apart])

end Eclair
