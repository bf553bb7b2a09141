import Eclair.Mm.HeapRuns
import Eclair.Mm.Paging

/-!
# Eclair.Mm.HeapPages

The kernel heap together with its pages: `kmalloc` and `kmalloca` map the
pages of a block, `kfree` unmaps the pages inside the joined block and gives
their frames back.

`kfree` does so without looking: a header that runs into the first of these
pages loses its tail, and a page that an earlier `kfree` has already
unmapped is released once more, as frame 0.  What it releases is right
exactly if neither is the case (`Releasable`).
-/

namespace Eclair

open Blocks

/-- The heap and the page tables. -/
structure KMem where
  heap : Heap
  paging : Paging

/-! ## the functions -/

/-- The pages that `kmalloc` maps for the block `b`. -/
def blockPages (b sz : Nat) (h : Heap) : List Nat :=
  let boff := sub32 b (u32 (h.page b * 4096))
  List.range' (h.page b) (u32 (boff + sz + HDR * 2) / 4096 + 1)

/-- `kmalloc`. -/
def kmallocMap (sz : Nat) (s : KMem) : Nat × KMem :=
  let sz := align sz 4
  let r := heapFind s.heap.head sz s.heap
  let paging := mapRange .page (blockPages r.1 sz r.2) s.paging
  (u32 (r.1 + HDR), ⟨heapTake r.1 sz r.2, paging⟩)

/-- `kmalloca`. -/
def kmallocaMap (sz a : Nat) (s : KMem) : Nat × KMem :=
  let sz := align sz 4
  let r := heapFindAligned s.heap.head sz a s.heap
  let paging := mapRange .page (blockPages r.1 sz r.2) s.paging
  (u32 (r.1 + HDR), ⟨heapTake r.1 sz r.2, paging⟩)

/-- The loop of `kfree`: the pages it unmaps with the frames it frees. -/
def unmapLoop (next : Nat) : Nat → Nat → Paging → List (Nat × Nat) × Paging
  | 0, _, p => ([], p)
  | n + 1, pg, p =>
      if u32 ((pg + 1) * 4096) < next then
        let fr := pageGetFrame pg p
        let r := unmapLoop next n (pg + 1) (pageUnmap pg (pageFrameFree fr p))
        ((pg, fr) :: r.1, r.2)
      else ([], p)

/-- `kfree`: what is released, and the memory after. -/
def kfreeUnmap (ptr : Nat) (s : KMem) : List (Nat × Nat) × KMem :=
  if ptr = 0 then ([], s)
  else
    let r := kfreeBlock ptr s.heap
    let next := ((r.2.mem r.1).next).getD 0
    let u := unmapLoop next FUEL (r.2.page r.1 + 1) s.paging
    (u.1, ⟨r.2, u.2⟩)

theorem kfreeUnmap_heap (ptr : Nat) (s : KMem) :
    (kfreeUnmap ptr s).2.heap = kfree ptr s.heap := by
  unfold kfreeUnmap kfree
  split <;> rfl

/-! ## the pages inside a block -/

/-- The pages behind the one a block begins on that end before `next`. -/
def innerPages (page next : Nat) : List Nat :=
  List.range' (page + 1) ((next - 1) / 4096 - (page + 1))

theorem mem_innerPages {page next pg : Nat} :
    pg ∈ innerPages page next ↔ page + 1 ≤ pg ∧ (pg + 1) * 4096 < next := by
  simp only [innerPages, List.mem_range'_1]
  omega

variable {p : Paging} {n pg top : Nat}

/-- **The loop** releases the pages inside the block, each with the frame it
is mapped to, in order and once. -/
theorem unmapLoop_fst (htop : top ≤ 2 ^ 32 - 8192) (hpg : pg + 1 < 2 ^ 20)
    (hn : (top - 1) / 4096 - pg ≤ n) :
    (unmapLoop top n pg p).1 =
      (List.range' pg ((top - 1) / 4096 - pg)).map fun q => (q, pageGetFrame q p) := by
  induction n generalizing pg p with
  | zero =>
      have h0 : (top - 1) / 4096 - pg = 0 := by omega
      simp [unmapLoop, h0]
  | succ n ih =>
      have hu : u32 ((pg + 1) * 4096) = (pg + 1) * 4096 := u32_of_lt (by omega)
      rewrite [unmapLoop, hu]
      clear hu
      by_cases hlt : (pg + 1) * 4096 < top
      · have hk : (top - 1) / 4096 - pg = (top - 1) / 4096 - (pg + 1) + 1 := by omega
        rw [if_pos hlt, hk, List.range'_succ, List.map_cons]
        have h2 : pg + 1 + 1 < 2 ^ 20 := by omega
        dsimp only
        rw [ih h2 (by omega)]
        congr 1
        refine List.map_congr_left fun q hq => ?_
        rw [List.mem_range'_1] at hq
        rw [(page_release (by omega) _).1]
      · have h0 : (top - 1) / 4096 - pg = 0 := by omega
        rw [if_neg hlt, h0]
        rfl

/-- A page of the heap that may be released: mapped, and not to frame 0. -/
def Backed (p : Paging) (pg : Nat) : Prop := pageIsMapped pg p = true ∧ pageGetFrame pg p ≠ 0

instance (p : Paging) (pg : Nat) : Decidable (Backed p pg) := inferInstanceAs (Decidable (_ ∧ _))

/-- The loop keeps the pages in order if it releases backed pages only. -/
theorem PagingInv.unmapLoop {P : Nat} (h : PagingInv P p) (htop : top ≤ 2 ^ 32 - 8192)
    (hpg : pg + 1 < 2 ^ 20) (hP : P ≤ pg)
    (hb : ∀ q, pg ≤ q → (q + 1) * 4096 < top → Backed p q) :
    PagingInv P (unmapLoop top n pg p).2 := by
  induction n generalizing pg p with
  | zero => exact h
  | succ n ih =>
      have hu : u32 ((pg + 1) * 4096) = (pg + 1) * 4096 := u32_of_lt (by omega)
      rewrite [Eclair.unmapLoop, hu]
      clear hu
      by_cases hlt : (pg + 1) * 4096 < top
      · rw [if_pos hlt]
        obtain ⟨hm, h0⟩ := hb pg le_rfl hlt
        have h2 : pg + 1 + 1 < 2 ^ 20 := by omega
        refine ih (h.release hP hm h0).1 h2 (by omega) fun q hq hqn => ?_
        obtain ⟨hget, hmap⟩ := page_release (p := p) (show q ≠ pg by omega) (pageGetFrame pg p)
        have hbq := hb q (by omega) hqn
        rwa [Backed, hget, hmap]
      · rw [if_neg hlt]
        exact h

/-! ## runs -/

/-- The memory, what is live, and the total of the requests. -/
structure KMemState where
  mem : KMem
  live : List Alloc
  total : Nat

/-- The heap of the state, with its pages forgotten. -/
def KMemState.flat (s : KMemState) : HeapState := ⟨s.mem.heap, s.live, s.total⟩

inductive KMemEvent where
  | kmalloc (sz : Nat)
  | kmalloca (sz a : Nat)
  | kfree (ptr : Nat)
  /-- other code allocates a frame -/
  | frameAlloc
  /-- other code frees a frame it has allocated -/
  | frameFree (f : Nat)

/-- What a request adds to the total. -/
def KMemEvent.cost : KMemEvent → Nat
  | .kmalloc sz => (HeapEvent.kmalloc sz).cost
  | .kmalloca sz a => (HeapEvent.kmalloca sz a).cost
  | _ => 0

def KMemState.setPaging (p : Paging) (s : KMemState) : KMemState :=
  { s with mem := { s.mem with paging := p } }

/-- One event. -/
def KMemEvent.next (s : KMemState) : KMemEvent → Option KMemState
  | .kmalloc sz =>
      let r := kmallocMap sz s.mem
      some ⟨r.2, ⟨r.1, sz, 1⟩ :: s.live, s.total + (KMemEvent.kmalloc sz).cost⟩
  | .kmalloca sz a =>
      let r := kmallocaMap sz a s.mem
      if isAlignment a then
        some ⟨r.2, ⟨r.1, sz, a⟩ :: s.live, s.total + (KMemEvent.kmalloca sz a).cost⟩
      else none
  | .kfree p =>
      if s.live.any fun r => r.ptr == p then
        some ⟨(kfreeUnmap p s.mem).2, s.live.filter fun r => r.ptr != p, s.total⟩
      else none
  | .frameAlloc => some (s.setPaging (pageFrameAlloc .other s.mem.paging).2)
  | .frameFree f =>
      if s.mem.paging.owner f = some .other then
        some (s.setPaging (pageFrameFree f s.mem.paging))
      else none

/-- A heap with its first page mapped, and no page behind it. -/
def KMemState.Init (s : KMemState) : Prop :=
  ∃ pg p, 0 < pg ∧ pg * 4096 + HDR ≤ 2 ^ 32 - 8192 ∧ PagingInv pg p ∧
    (∀ q, pg < q → p.table q = none) ∧ s = ⟨⟨heapInit pg, p⟩, [], pg * 4096 + HDR⟩

/-- The runs of the kernel heap with its pages. -/
def kmemSystem : System KMemState KMemEvent := System.ofNext KMemState.Init KMemEvent.next

/-- The requests do not reach the last two pages. -/
def KMemFits (s : KMemState) (e : KMemEvent) : Prop := s.total + e.cost ≤ 2 ^ 32 - 8192

/-! ## the property -/

/-- **Releasing pages**: no page that `kfree` unmaps holds a byte of a header
in the list or of a live region, and each frame it frees is the one that was
allocated for the page and backs it, released once and not frame 0. -/
def FreeCorrect (s : KMemState) (ptr : Nat) : Prop :=
  let out := (kfreeUnmap ptr s.mem).1
  let heap := (kfreeUnmap ptr s.mem).2.heap
  (∃ bs, HeapRep s.total heap bs ∧
    ∀ r ∈ out, (∀ b ∈ bs, Apart (r.1 * 4096) 4096 b.addr HDR) ∧
      ∀ a ∈ s.live, a.ptr ≠ ptr → Apart (r.1 * 4096) 4096 a.ptr a.size) ∧
  (∀ r ∈ out, pageIsMapped r.1 s.mem.paging = true ∧ pageGetFrame r.1 s.mem.paging = r.2 ∧
    r.2 ≠ 0 ∧ s.mem.paging.owner r.2 = some (.page r.1)) ∧
  (out.map Prod.fst).Nodup ∧ (out.map Prod.snd).Nodup

/-- What the release of a pointer needs: with `b` the block that the joined
neighbours make up and `next` the block behind it, if there are pages
between them then the header of `b` lies on one page, and all of the pages
are backed. -/
def Releasable (s : KMemState) (ptr : Nat) : Prop :=
  let b := (kfreeBlock ptr s.mem.heap).1
  let next := (((kfreeBlock ptr s.mem.heap).2.mem b).next).getD 0
  ∀ pg ∈ innerPages (b / 4096) next, b % 4096 + HDR ≤ 4096 ∧ Backed s.mem.paging pg

instance (s : KMemState) (ptr : Nat) : Decidable (Releasable s ptr) :=
  inferInstanceAs (Decidable (∀ pg ∈ _, _))

/-- The condition on a step: requests fit, and what is freed is
releasable. -/
def KMemOk (s : KMemState) (e : KMemEvent) : Prop :=
  KMemFits s e ∧ match e with
    | .kfree p => Releasable s p
    | _ => True

/-! ## the invariant -/

/-- The heap invariant, the pages from the first one on, and room above. -/
structure KMemInv (P : Nat) (s : KMemState) (bs : List Blk) : Prop where
  heap : HeapInv s.flat bs
  paging : PagingInv P s.mem.paging
  head : s.mem.heap.head = P * 4096
  room : s.total ≤ 2 ^ 32 - 8192

variable {s s' : KMemState} {bs : List Blk} {e : KMemEvent} {P ptr : Nat}

/-- No block lies before the head. -/
theorem HeapRep.head_le {E : Nat} {h : Heap} {b : Blk} (hr : HeapRep E h bs) (hb : b ∈ bs) :
    h.head ≤ b.addr := by
  have hh := hr.head
  have ho := hr.layout.ordered
  cases bs with
  | nil => simp at hb
  | cons c cs =>
      have hc : c.addr = h.head := by simpa using hh
      rcases List.mem_cons.mp hb with rfl | hb
      · omega
      · have hcb := (List.pairwise_cons.mp ho).1 b hb
        simp only [Blk.stop] at hcb
        omega

/-- A page behind the one that `x` lies on shares nothing with what ends
before `x`. -/
theorem apart_before {pg x a n : Nat} (hpg : x / 4096 + 1 ≤ pg) (ha : a + n ≤ x) :
    Apart (pg * 4096) 4096 a n := by
  unfold Apart
  omega

/-- Nor with a header at `x` that stays on its page. -/
theorem apart_whole {pg x : Nat} (hpg : x / 4096 + 1 ≤ pg) (hx : x % 4096 + HDR ≤ 4096) :
    Apart (pg * 4096) 4096 x HDR := by
  unfold Apart
  omega

/-- A page that ends before `top` shares nothing with what lies from `top`
on. -/
theorem apart_behind {pg top a n : Nat} (hpg : (pg + 1) * 4096 < top) (ha : top ≤ a) :
    Apart (pg * 4096) 4096 a n := by
  unfold Apart
  omega

/-- A header that leaves its page reaches the next one. -/
theorem whole_of_apart {x : Nat} (h : Apart ((x / 4096 + 1) * 4096) 4096 x HDR) :
    x % 4096 + HDR ≤ 4096 := by
  have := HDR_pos
  unfold Apart at h
  omega

/-- **What a release does**: with `b` the joined block and `top` the block
behind it, the pages between them are released with their frames. -/
theorem KMemInv.kfree (h : KMemInv P s bs) (hp : s.live.any fun r => r.ptr == ptr) :
    ∃ as b cs, b.avail = true ∧
      HeapInv ⟨(kfreeUnmap ptr s.mem).2.heap, s.live.filter fun r => r.ptr != ptr, s.total⟩
        (as ++ b :: cs) ∧
      (kfreeBlock ptr s.mem.heap).1 = b.addr ∧
      ((kfreeBlock ptr s.mem.heap).2.mem b.addr).next = cs.head?.map Blk.addr ∧
      (kfreeUnmap ptr s.mem).1 =
        (innerPages (b.addr / 4096) ((cs.head?.map Blk.addr).getD 0)).map
          (fun q => (q, pageGetFrame q s.mem.paging)) ∧
      (kfreeUnmap ptr s.mem).2.paging =
        (unmapLoop ((cs.head?.map Blk.addr).getD 0) FUEL (b.addr / 4096 + 1) s.mem.paging).2 ∧
      (cs.head?.map Blk.addr).getD 0 ≤ 2 ^ 32 - 8192 ∧ b.addr / 4096 + 1 + 1 < 2 ^ 20 ∧
      P ≤ b.addr / 4096 := by
  obtain ⟨hne, as, b, cs, hb, hptr, hinv⟩ := h.heap.kfree hp
  change (kfreeBlock ptr s.mem.heap).1 = b.addr at hptr
  change HeapInv ⟨Eclair.kfree ptr s.mem.heap, s.live.filter fun r => r.ptr != ptr, s.total⟩
    (as ++ b :: cs) at hinv
  have hheap : Eclair.kfree ptr s.mem.heap = (kfreeBlock ptr s.mem.heap).2 := by
    rw [Eclair.kfree, if_neg hne]
  have hrep : HeapRep s.total (kfreeBlock ptr s.mem.heap).2 (as ++ b :: cs) := by
    rw [← hheap]
    exact hinv.rep
  have hnext := hrep.links.next_eq
  have hpage := hrep.page b (by simp)
  have hroom := h.room
  have hbtop := hrep.layout.top b (by simp)
  have hhead : P * 4096 ≤ b.addr := by
    rw [← h.head, ← kfreeBlock_head ptr s.mem.heap]
    exact hrep.head_le (by simp)
  have htop : (cs.head?.map Blk.addr).getD 0 ≤ 2 ^ 32 - 8192 := by
    cases cs with
    | nil => simp
    | cons c cs =>
        have hc : c.addr ≤ c.stop HDR := by
          simp only [Blk.stop]
          omega
        exact hc.trans ((hrep.layout.top c (by simp)).trans hroom)
  have hpg : b.addr / 4096 + 1 + 1 < 2 ^ 20 := by
    have := HDR_pos
    simp only [Blk.stop] at hbtop
    omega
  have hloop := unmapLoop_fst (p := s.mem.paging) (n := FUEL) htop hpg (by unfold FUEL; omega)
  simp only [kfreeUnmap, if_neg hne, hptr, hnext, hpage]
  rw [hheap] at hinv
  exact ⟨as, b, cs, hb, hinv, rfl, hnext, hloop, rfl, htop, hpg, by omega⟩

/-- **Releasing is right exactly if it is possible**: the header of the
joined block stays whole, and all pages are backed. -/
theorem KMemInv.freeCorrect_iff (h : KMemInv P s bs) (hp : s.live.any fun r => r.ptr == ptr) :
    FreeCorrect s ptr ↔ Releasable s ptr := by
  obtain ⟨as, b, cs, hb, hinv, hptr, hnext, hout, -, htop, hpg, hP⟩ := h.kfree hp
  have hrep := hinv.rep
  simp only [Releasable, hptr, hnext]
  generalize hn : (cs.head?.map Blk.addr).getD 0 = top at hout htop ⊢
  constructor
  · rintro ⟨⟨bs', hrep', hpages⟩, hframes, -⟩ pg hmem
    obtain rfl := hrep'.links.unique hrep.links (hrep'.head.trans hrep.head.symm)
    have hr : (pg, pageGetFrame pg s.mem.paging) ∈ (kfreeUnmap ptr s.mem).1 := by
      rw [hout]
      exact List.mem_map.mpr ⟨pg, hmem, rfl⟩
    obtain ⟨h1, h2⟩ := mem_innerPages.mp hmem
    obtain ⟨hmap, -, h0, -⟩ := hframes _ hr
    refine ⟨?_, hmap, h0⟩
    -- the header would reach the first of the pages
    have hfirst : b.addr / 4096 + 1 ∈ innerPages (b.addr / 4096) top :=
      mem_innerPages.mpr ⟨le_rfl, (Nat.mul_le_mul_right 4096 (Nat.succ_le_succ h1)).trans_lt h2⟩
    have hr1 : (b.addr / 4096 + 1, pageGetFrame (b.addr / 4096 + 1) s.mem.paging) ∈
        (kfreeUnmap ptr s.mem).1 := by
      rw [hout]
      exact List.mem_map.mpr ⟨_, hfirst, rfl⟩
    exact whole_of_apart ((hpages _ hr1).1 b (by simp))
  · intro hrel
    have hback : ∀ pg ∈ innerPages (b.addr / 4096) top, b.addr % 4096 + HDR ≤ 4096 ∧
        pageIsMapped pg s.mem.paging = true ∧ pageGetFrame pg s.mem.paging ≠ 0 ∧
        s.mem.paging.owner (pageGetFrame pg s.mem.paging) = some (.page pg) := by
      intro pg hmem
      obtain ⟨h1, h2, h3⟩ := hrel pg hmem
      have hle := (mem_innerPages.mp hmem).1
      exact ⟨h1, h2, h3, (h.paging.release (by omega) h2 h3).2⟩
    -- every other block lies before `b` or from `top` on
    have houter : ∀ c ∈ as ++ b :: cs, c ≠ b → c.stop HDR ≤ b.addr ∨ top ≤ c.addr := by
      intro c hc hcb
      rcases hrep.layout.apart hc (by simp) hcb with hl | hl
      · exact .inl hl
      · refine .inr ?_
        have hcs : c ∈ cs := by
          rcases List.mem_append.mp hc with hc' | hc'
          · have ho := hrep.layout.ordered
            have hcb' := (List.pairwise_append.mp ho).2.2 c hc' b (by simp)
            have := HDR_pos
            simp only [Blk.stop] at hl hcb'
            omega
          · exact (List.mem_cons.mp hc').resolve_left hcb
        cases cs with
        | nil => simp at hcs
        | cons d ds =>
            have hd : top = d.addr := by simpa using hn.symm
            rcases List.mem_cons.mp hcs with rfl | hcs
            · exact hd.le
            · have ho := (List.pairwise_append.mp hrep.layout.ordered).2.1
              have hdc := (List.pairwise_cons.mp (List.pairwise_cons.mp ho).2).1 c hcs
              simp only [Blk.stop] at hdc
              omega
    refine ⟨⟨as ++ b :: cs, hrep, fun r hr => ?_⟩, fun r hr => ?_, ?_, ?_⟩
    · rw [hout] at hr
      obtain ⟨pg, hmem, rfl⟩ := List.mem_map.mp hr
      obtain ⟨h1, h2⟩ := mem_innerPages.mp hmem
      have hwhole := (hback pg hmem).1
      refine ⟨fun c hc => ?_, fun a ha hne => ?_⟩
      · by_cases hcb : c = b
        · subst hcb
          exact apart_whole h1 hwhole
        · rcases houter c hc hcb with hl | hl
          · exact apart_before h1 ((Nat.le_add_right _ _).trans hl)
          · exact apart_behind h2 hl
      · obtain ⟨c, hc, hca, hcp, hcs⟩ := hinv.held a (List.mem_filter.mpr ⟨ha, by simpa using hne⟩)
        have hcb : c ≠ b := by
          rintro rfl
          simp [hb] at hca
        simp only [Alloc.region] at hcp hcs
        rw [hcp]
        rcases houter c hc hcb with hl | hl
        · exact apart_before h1 ((Nat.add_le_add_left hcs _).trans hl)
        · exact apart_behind h2 (hl.trans (Nat.le_add_right _ _))
    · rw [hout] at hr
      obtain ⟨pg, hmem, rfl⟩ := List.mem_map.mp hr
      obtain ⟨-, h2, h3, h4⟩ := hback pg hmem
      exact ⟨h2, rfl, h3, h4⟩
    · rw [hout, List.map_map]
      simpa [Function.comp_def, innerPages] using List.nodup_range'
    · rw [hout, List.map_map]
      refine List.Nodup.map_on (fun x hx y hy hxy => ?_) (by simpa [innerPages] using List.nodup_range')
      have hox := (hback x hx).2.2.2
      have hoy := (hback y hy).2.2.2
      simp only [Function.comp] at hxy
      rw [hxy, hoy] at hox
      simpa using hox.symm

theorem kmallocMap_head (sz : Nat) (s : KMem) : (kmallocMap sz s).2.heap.head = s.heap.head :=
  (heapTake_head _ _ _).trans (heapFind_head _ _ _)

theorem kmallocaMap_head (sz a : Nat) (s : KMem) :
    (kmallocaMap sz a s).2.heap.head = s.heap.head :=
  (heapTake_head _ _ _).trans (heapFindAligned_head _ _ _ _)

/-- **Step lemma**: a step that meets the condition keeps the invariant. -/
theorem kmem_step (h : KMemInv P s bs) (hok : KMemOk s e) (hs : e.next s = some s') :
    ∃ bs', KMemInv P s' bs' := by
  obtain ⟨hfit, hrel⟩ := hok
  simp only [KMemFits] at hfit
  cases e with
  | kmalloc sz =>
      obtain rfl := Option.some.inj hs
      have hfit' : Fits s.flat (.kmalloc sz) := hfit.trans_lt (by decide)
      obtain ⟨bs', hinv⟩ := h.heap.kmalloc hfit'
      exact ⟨bs', hinv, h.paging.mapRange _, (kmallocMap_head sz s.mem).trans h.head, hfit⟩
  | kmalloca sz a =>
      simp only [KMemEvent.next, Option.ite_none_right_eq_some, Option.some.injEq] at hs
      obtain ⟨ha, rfl⟩ := hs
      simp only [isAlignment, Bool.and_eq_true, decide_eq_true_eq] at ha
      have hfit' : Fits s.flat (.kmalloca sz a) := hfit.trans_lt (by decide)
      obtain ⟨bs', hinv⟩ := h.heap.kmalloca hfit' (by omega)
      exact ⟨bs', hinv, h.paging.mapRange _, (kmallocaMap_head sz a s.mem).trans h.head, hfit⟩
  | kfree ptr =>
      simp only [KMemEvent.next, Option.ite_none_right_eq_some, Option.some.injEq] at hs
      obtain ⟨hp, rfl⟩ := hs
      obtain ⟨as, b, cs, -, hinv, hptr, hnext, -, hpag, htop, hpg, hP⟩ := h.kfree hp
      refine ⟨_, hinv, ?_, ?_, h.room⟩
      · rw [hpag]
        refine h.paging.unmapLoop htop hpg (by omega) fun q h1 h2 => ?_
        simp only [Releasable, hptr, hnext] at hrel
        exact (hrel q (mem_innerPages.mpr ⟨h1, h2⟩)).2
      · rw [kfreeUnmap_heap, kfree_head]
        exact h.head
  | frameAlloc =>
      obtain rfl := Option.some.inj hs
      exact ⟨bs, h.heap, (h.paging.alloc .other).1, h.head, h.room⟩
  | frameFree f =>
      simp only [KMemEvent.next, Option.ite_none_right_eq_some, Option.some.injEq] at hs
      obtain ⟨hf, rfl⟩ := hs
      exact ⟨bs, h.heap, h.paging.free hf, h.head, h.room⟩

/-- The invariant holds in every state of a run that meets the condition. -/
theorem kmemInv_of_reachable (h : kmemSystem.Reachable KMemOk s) :
    ∃ P bs, KMemInv P s bs := by
  refine h.invariant (I := fun s => ∃ P bs, KMemInv P s bs) ?_ ?_
  · rintro _ ⟨pg, p, -, hpg, hp, -, rfl⟩
    exact ⟨pg, _, ⟨heapRep_heapInit, hpg.trans_lt (by decide), by simp [KMemState.flat],
      by simp [KMemState.flat], by simp [KMemState.flat]⟩, hp, rfl, hpg⟩
  · rintro s e s' ⟨P, bs, hinv⟩ hok hs
    exact ⟨P, kmem_step hinv hok hs⟩

/-- A heap on page 2, which frame 1 backs. -/
def exampleKMem : KMemState where
  mem := ⟨heapInit 2, {
    bitmap := fun f => decide (f < 2)
    nused := 2
    dir := fun _ => some 0
    table := fun q => if q = 2 then some 1 else none
    owner := fun f => if f = 1 then some (.page 2) else none }⟩
  live := []
  total := 2 * 4096 + HDR

theorem exampleKMem_init : exampleKMem.Init := by
  refine ⟨2, exampleKMem.mem.paging, by decide, by decide, ⟨fun f hf => ?_, fun pg f hpg hf hf0 => ?_⟩,
    fun q hq => if_neg (by omega), rfl⟩
  · simp only [exampleKMem, ne_eq, ite_eq_right_iff, reduceCtorEq, imp_false, not_not] at hf ⊢
    simp [hf]
  · simp only [exampleKMem, Option.ite_none_right_eq_some, Option.some.injEq] at hf ⊢
    simp [hf.1, ← hf.2]

instance (s : KMemState) (e : KMemEvent) : Decidable (KMemOk s e) := by
  unfold KMemOk KMemFits
  cases e <;> infer_instance

/-- A computed run from the example heap whose steps meet the condition. -/
theorem reachable_exampleKMem {es : List KMemEvent}
    (h : System.run (fun s (e : KMemEvent) => if decide (KMemOk s e) then e.next s else none)
      exampleKMem es = some s) : kmemSystem.Reachable KMemOk s :=
  (System.Reachable.of_init exampleKMem_init).steps
    (System.steps_of_run_if (fun s e => decide (KMemOk s e)) (fun _ _ h => of_decide_eq_true h) h)

end Eclair
