import Mathlib.Data.Nat.Log
import Eclair.Lib.System
import Eclair.Mm.Heap

/-!
# Eclair.Mm.HeapRuns

Runs of the kernel heap: `kmalloc`, `kmalloca` and `kfree` of live pointers
in any order, with the memory taken as flat.

The state remembers what is live and the total of the requests so far: the
start of the heap and, for each request, its size rounded up, its header
and its alignment.  As long as the total does not overflow 32 bits
(`Fits`), the live regions are disjoint from each other and from every
header.
-/

namespace Eclair

open Blocks

/-- A live pointer, with the size and the alignment asked for. -/
structure Alloc where
  ptr : Nat
  size : Nat
  align : Nat
  deriving DecidableEq, Repr

/-- The region of a live pointer. -/
def Alloc.region (r : Alloc) : Region := ⟨r.ptr, r.size⟩

/-- The heap, what is live, and the total of the requests. -/
structure HeapState where
  heap : Heap
  live : List Alloc
  total : Nat

/-! ## events -/

inductive HeapEvent where
  | kmalloc (sz : Nat)
  | kmalloca (sz a : Nat)
  | kfree (ptr : Nat)

/-- `a` is a power of two from 4 on. -/
def isAlignment (a : Nat) : Bool := a == 2 ^ Nat.log 2 a && decide (4 ≤ a)

/-- What a request adds to the total. -/
def HeapEvent.cost : HeapEvent → Nat
  | .kmalloc sz => HDR + (sz + 3) / 4 * 4
  | .kmalloca sz a => HDR + (a - 1) + (sz + 3) / 4 * 4
  | .kfree _ => 0

/-- One event; only live pointers are freed. -/
def HeapEvent.next (s : HeapState) : HeapEvent → Option HeapState
  | .kmalloc sz =>
      let r := Eclair.kmalloc sz s.heap
      some ⟨r.2, ⟨r.1, sz, 1⟩ :: s.live, s.total + (HeapEvent.kmalloc sz).cost⟩
  | .kmalloca sz a =>
      let r := Eclair.kmalloca sz a s.heap
      if isAlignment a then
        some ⟨r.2, ⟨r.1, sz, a⟩ :: s.live, s.total + (HeapEvent.kmalloca sz a).cost⟩
      else none
  | .kfree p =>
      if s.live.any fun r => r.ptr == p then
        some ⟨Eclair.kfree p s.heap, s.live.filter fun r => r.ptr != p, s.total⟩
      else none

/-- A heap whose first header is at the beginning of a page. -/
def HeapState.Init (s : HeapState) : Prop :=
  ∃ pg, 0 < pg ∧ pg * 4096 + HDR < 2 ^ 32 ∧ s = ⟨heapInit pg, [], pg * 4096 + HDR⟩

/-- The runs of the heap. -/
def heapSystem : System HeapState HeapEvent := System.ofNext HeapState.Init HeapEvent.next

/-- The total of the requests does not overflow 32 bits. -/
def Fits (s : HeapState) (e : HeapEvent) : Prop := s.total + e.cost < 2 ^ 32

instance (s : HeapState) (e : HeapEvent) : Decidable (Fits s e) :=
  inferInstanceAs (Decidable (_ < _))

/-! ## the property -/

/-- The blocks are linked both ways from `head` on, in address order and
without overlap; the live regions are as long as asked for, aligned, and
disjoint from each other and from every header. -/
def HeapCorrect (s : HeapState) : Prop :=
  ∃ bs : List Blk,
    bs.head?.map Blk.addr = some s.heap.head ∧
    Links s.heap.mem bs ∧
    bs.Pairwise (fun b c => b.stop HDR ≤ c.addr) ∧
    (∀ r ∈ s.live, r.ptr % r.align = 0 ∧ Held HDR bs r.region) ∧
    s.live.Pairwise (fun r r' => Apart r.ptr r.size r'.ptr r'.size) ∧
    ∀ r ∈ s.live, ∀ b ∈ bs, Apart r.ptr r.size b.addr HDR

/-! ## the invariant -/

/-- The heap invariant. -/
structure HeapInv (s : HeapState) (bs : List Blk) : Prop where
  rep : HeapRep s.total s.heap bs
  total : s.total < 2 ^ 32
  held : ∀ r ∈ s.live, Held HDR bs r.region
  aligned : ∀ r ∈ s.live, r.ptr % r.align = 0
  nodup : (s.live.map Alloc.ptr).Nodup

variable {s s' : HeapState} {bs : List Blk} {e : HeapEvent} {sz a : Nat}

theorem HeapInv.correct (h : HeapInv s bs) : HeapCorrect s := by
  refine ⟨bs, h.rep.head, h.rep.links, h.rep.layout.ordered, fun r hr => ⟨h.aligned r hr,
    h.held r hr⟩, ?_, fun r hr b hb => (h.held r hr).apart_header h.rep.layout hb⟩
  have hnd := h.nodup
  rw [List.Nodup, List.pairwise_map] at hnd
  exact hnd.imp_of_mem fun hr hr' hne => (h.held _ hr).apart h.rep.layout (h.held _ hr') hne

/-- A block that was taken becomes a live region. -/
theorem HeapInv.take {r : Nat × Heap} {as cs : List Blk} {b : Blk} {E cost k : Nat}
    (h : HeapInv s bs) (hf : Found E ((sz + 3) / 4 * 4) bs r as b cs)
    (hE : E + (sz + 3) / 4 * 4 = s.total + cost) (hfit : s.total + cost < 2 ^ 32)
    (ha : (b.addr + HDR) % k = 0) :
    ∃ bs', HeapInv ⟨heapTake r.1 ((sz + 3) / 4 * 4) r.2, ⟨u32 (r.1 + HDR), sz, k⟩ :: s.live,
      s.total + cost⟩ bs' := by
  obtain ⟨bs', hr, hb, hused⟩ := heapTake_spec hf (by omega)
  have htop := hr.layout.top _ hb
  simp only [Blk.stop] at htop
  have hptr : u32 (r.1 + HDR) = b.addr + HDR := by rw [hf.ptr, u32_of_lt (by omega)]
  rw [hE] at hr
  rw [hptr]
  refine ⟨bs', hr, hfit, ?_, ?_, ?_⟩
  · intro x hx
    rcases List.mem_cons.mp hx with rfl | hx
    · exact ⟨_, hb, rfl, rfl, by simp only [Alloc.region]; omega⟩
    · obtain ⟨c, hc, h1, h2, h3⟩ := h.held x hx
      exact ⟨c, (hused c hc h1).1, h1, h2, h3⟩
  · intro x hx
    rcases List.mem_cons.mp hx with rfl | hx
    · exact ha
    · exact h.aligned x hx
  · simp only [List.map_cons, List.nodup_cons]
    refine ⟨fun hm => ?_, h.nodup⟩
    obtain ⟨x, hx, hxp⟩ := List.mem_map.mp hm
    obtain ⟨c, hc, h1, h2, -⟩ := h.held x hx
    simp only [Alloc.region] at h2
    exact (hused c hc h1).2 (by omega)

/-- The rounded size of a request that fits. -/
theorem align_four (h : (sz + 3) / 4 * 4 < 2 ^ 32) : align sz 4 = (sz + 3) / 4 * 4 :=
  align_of_lt (by omega)

theorem HeapInv.kmalloc (h : HeapInv s bs) (hfit : Fits s (.kmalloc sz)) :
    ∃ bs', HeapInv ⟨(Eclair.kmalloc sz s.heap).2, ⟨(Eclair.kmalloc sz s.heap).1, sz, 1⟩ :: s.live,
      s.total + (HeapEvent.kmalloc sz).cost⟩ bs' := by
  simp only [Fits, HeapEvent.cost] at hfit
  rw [Eclair.kmalloc, align_four (by omega)]
  obtain ⟨as, b, cs, hf⟩ := heapFind_spec h.rep (by omega) ((sz + 3) / 4 * 4)
  exact h.take hf (by simp only [HeapEvent.cost]; omega) (by simp only [HeapEvent.cost]; omega)
    (Nat.mod_one _)

theorem HeapInv.kmalloca (h : HeapInv s bs) (hfit : Fits s (.kmalloca sz a)) (ha : 0 < a) :
    ∃ bs', HeapInv ⟨(Eclair.kmalloca sz a s.heap).2,
      ⟨(Eclair.kmalloca sz a s.heap).1, sz, a⟩ :: s.live,
      s.total + (HeapEvent.kmalloca sz a).cost⟩ bs' := by
  simp only [Fits, HeapEvent.cost] at hfit
  rw [Eclair.kmalloca, align_four (by omega)]
  obtain ⟨as, b, cs, hf, hal⟩ := heapFindAligned_spec h.rep ha (by omega) ((sz + 3) / 4 * 4)
  exact h.take hf (by simp only [HeapEvent.cost]; omega) (by simp only [HeapEvent.cost]; omega) hal

/-- A live pointer is the payload of a listed block. -/
theorem HeapInv.block {p : Nat} (h : HeapInv s bs) (hp : s.live.any fun r => r.ptr == p) :
    ∃ as b cs, bs = as ++ b :: cs ∧ b.avail = false ∧ p = b.addr + HDR := by
  obtain ⟨r, hr, hrp⟩ := List.any_eq_true.mp hp
  obtain ⟨b, hb, h1, h2, -⟩ := h.held r hr
  obtain ⟨as, cs, rfl⟩ := List.append_of_mem hb
  exact ⟨as, b, cs, rfl, h1, (beq_iff_eq.mp hrp).symm.trans h2⟩

/-- Freeing a live pointer: its block joins free neighbours, and what else is
live stays where it is. -/
theorem HeapInv.kfree {p : Nat} (h : HeapInv s bs) (hp : s.live.any fun r => r.ptr == p) :
    p ≠ 0 ∧ ∃ as b cs, b.avail = true ∧ (kfreeBlock p s.heap).1 = b.addr ∧
      HeapInv ⟨Eclair.kfree p s.heap, s.live.filter fun r => r.ptr != p, s.total⟩
        (as ++ b :: cs) := by
  obtain ⟨as, b, cs, rfl, -, rfl⟩ := h.block hp
  have hne : b.addr + HDR ≠ 0 := by
    have := HDR_pos
    omega
  rw [Eclair.kfree, if_neg hne]
  obtain ⟨as', ds, b', es, cs', rfl, rfl, havail, -, hb', hptr, hr⟩ :=
    kfreeBlock_spec h.rep h.total
  refine ⟨hne, as', b', cs', hb', hptr, hr, h.total, fun r hr' => ?_,
    fun r hr' => h.aligned r (List.mem_filter.mp hr').1, h.nodup.sublist (List.filter_sublist.map _)⟩
  obtain ⟨hr', hrp⟩ := List.mem_filter.mp hr'
  obtain ⟨c, hc, h1, h2, h3⟩ := h.held r hr'
  have hcb : c ≠ b := by
    rintro rfl
    exact absurd h2 (by simpa [Alloc.region] using hrp)
  have hcd : c ∉ ds ++ es := fun hc' => by simp [havail c hc'] at h1
  refine ⟨c, ?_, h1, h2, h3⟩
  simp only [List.mem_append, List.mem_cons, not_or] at hc hcd ⊢
  grind

/-- **Step lemma**: an event that fits keeps the heap invariant. -/
theorem heap_step (h : HeapInv s bs) (hfit : Fits s e) (hs : e.next s = some s') :
    ∃ bs', HeapInv s' bs' := by
  cases e with
  | kmalloc sz =>
      obtain rfl := Option.some.inj hs
      exact h.kmalloc hfit
  | kmalloca sz a =>
      simp only [HeapEvent.next, Option.ite_none_right_eq_some, Option.some.injEq] at hs
      obtain ⟨ha, rfl⟩ := hs
      simp only [isAlignment, Bool.and_eq_true, decide_eq_true_eq] at ha
      exact h.kmalloca hfit (by omega)
  | kfree p =>
      simp only [HeapEvent.next, Option.ite_none_right_eq_some, Option.some.injEq] at hs
      obtain ⟨hp, rfl⟩ := hs
      obtain ⟨-, as, b, cs, -, -, hinv⟩ := h.kfree hp
      exact ⟨_, hinv⟩

/-! ## runs -/

/-- **The kernel heap over whole runs**: while the requests do not overflow
32 bits, the live regions are disjoint and the list of blocks is well
formed. -/
theorem heapCorrect_of_reachable (h : heapSystem.Reachable Fits s) : HeapCorrect s := by
  have hinv : ∃ bs, HeapInv s bs := by
    refine h.invariant (I := fun s => ∃ bs, HeapInv s bs) ?_ ?_
    · rintro _ ⟨pg, -, hpg, rfl⟩
      exact ⟨_, heapRep_heapInit, hpg, by simp, by simp, by simp⟩
    · rintro s e s' ⟨bs, hinv⟩ hfit hs
      exact heap_step hinv hfit hs
  obtain ⟨bs, hinv⟩ := hinv
  exact hinv.correct

/-- Two requests, one of them aligned to a page, a release and a request
that reuses the block. -/
theorem heapCorrect_of_reachable_example :
    ∃ s, s.live = [⟨8232, 40, 1⟩, ⟨12288, 100, 4096⟩] ∧ HeapCorrect s := by
  have h : (System.run (fun s (e : HeapEvent) => if decide (Fits s e) then e.next s else none)
      ⟨heapInit 2, [], 2 * 4096 + HDR⟩
      [.kmalloc 100, .kmalloca 100 4096, .kfree 8232, .kmalloc 40]).any
      (fun s => s.live == [⟨8232, 40, 1⟩, ⟨12288, 100, 4096⟩]) = true := by decide
  obtain ⟨s, hs, hp⟩ := (Option.any_eq_true _ _).mp h
  have hinit : HeapState.Init ⟨heapInit 2, [], 2 * 4096 + HDR⟩ :=
    ⟨2, by decide, by decide, rfl⟩
  have hsteps : heapSystem.Steps Fits _ s :=
    System.steps_of_run_if (fun s e => decide (Fits s e)) (fun _ _ h => of_decide_eq_true h) hs
  exact ⟨s, beq_iff_eq.mp hp, heapCorrect_of_reachable ((System.Reachable.of_init hinit).steps hsteps)⟩

end Eclair
