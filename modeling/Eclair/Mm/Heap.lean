import Eclair.Basic
import Eclair.Lib.Blocks

/-!
# Eclair.Mm.Heap

The kernel heap of `kernel/mm/heap.c`, on the blocks of `Eclair.Lib.Blocks`
with headers of 20 bytes; the mapping of pages is in `Eclair.Mm.HeapPages`.

Each function is followed by what it does to the list of blocks
(`HeapRep`).  `E` bounds the end of the last block: while it stays below
`2^32` no address wraps.
-/

namespace Eclair

open Blocks

/-- `sizeof(heap_block_t)`. -/
def HDR : Nat := 20

/-- The heap: `head` and the headers in memory, with their field `page` in a
map of its own. -/
structure Heap where
  head : Nat
  mem : Mem
  page : Nat → Nat

namespace Heap

/-- Change the headers. -/
def withMem (m : Mem) (h : Heap) : Heap := { h with mem := m }

/-- Change one header. -/
def write (b : Nat) (f : Header → Header) (h : Heap) : Heap := h.withMem (Blocks.write b f h.mem)

/-- `n->page = (uint32_t)n >> 12`. -/
def setPage (n : Nat) (h : Heap) : Heap :=
  { h with page := Function.update h.page n (n / 4096) }

section

variable (b : Nat) (f : Header → Header) (m : Mem) (h : Heap)

@[simp] theorem withMem_head : (h.withMem m).head = h.head := rfl
@[simp] theorem withMem_page : (h.withMem m).page = h.page := rfl
@[simp] theorem withMem_mem : (h.withMem m).mem = m := rfl
@[simp] theorem write_head : (h.write b f).head = h.head := rfl
@[simp] theorem setPage_head : (h.setPage b).head = h.head := rfl

end

end Heap

/-- `heap_init`, with the page `pg` as the page break. -/
def heapInit (pg : Nat) : Heap where
  head := pg * 4096
  mem := fun _ => {}
  page := fun _ => pg

/-- A usable block whose payload is aligned; `p & (a-1)` for a power of two
`a`. -/
def usableAligned (sz a : Nat) (x : Header) (p : Nat) : Bool :=
  usable sz x p && u32 (p + HDR) % a == 0

/-- `heap_find`. -/
def heapFind (b sz : Nat) (h : Heap) : Nat × Heap :=
  match find (usable sz) h.mem FUEL b with
  | .ok p => (p, h)
  | .error l =>
      let n := u32 (l + HDR + (h.mem l).size)
      (n, (h.withMem (append l n h.mem)).setPage n)

/-- `heap_find_aligned`. -/
def heapFindAligned (b sz a : Nat) (h : Heap) : Nat × Heap :=
  match find (usableAligned sz a) h.mem FUEL b with
  | .ok p => (p, h)
  | .error l =>
      let size := (h.mem l).size
      let pl := u32 (l + HDR)
      let pl := sub32 (sub32 (align (u32 (pl + size + HDR)) a) pl) HDR
      let n := u32 (l + HDR + pl)
      let avail := (h.mem l).avail
      let h := (h.withMem (append l n h.mem)).setPage n
      let nsz := sub32 pl size
      if avail then (n, h.write l fun x => { x with size := pl })
      else if HDR ≤ nsz then
        let f := u32 (l + HDR + size)
        (n, (h.withMem (insertAfter l f (sub32 nsz HDR) h.mem)).setPage f)
      else (n, h)

/-- `heap_split`. -/
def heapSplit (b sz : Nat) (h : Heap) : Heap :=
  if (h.mem b).size < u32 (sz + HDR) then h
  else
    let n := u32 (b + HDR + sz)
    let rest := sub32 (sub32 (h.mem b).size sz) HDR
    let h := h.write b fun x => { x with size := sz }
    (h.withMem (insertAfter b n rest h.mem)).setPage n

/-- `heap_merge`. -/
def heapMerge (b : Nat) (h : Heap) : Nat × Heap :=
  let r := mergeBack HDR (2 ^ 32) FUEL b h.mem
  (r.1, h.withMem (mergeFront HDR (2 ^ 32) FUEL r.1 r.2))

/-- `kmalloc` and `kmalloca` once they have a block: take it, split it and
set its size. -/
def heapTake (b sz : Nat) (h : Heap) : Heap :=
  let h := h.write b fun x => { x with avail := false }
  let h := heapSplit b sz h
  h.write b fun x => { x with size := sz }

/-- `kmalloc`, page mapping aside. -/
def kmalloc (sz : Nat) (h : Heap) : Nat × Heap :=
  let sz := align sz 4
  let r := heapFind h.head sz h
  (u32 (r.1 + HDR), heapTake r.1 sz r.2)

/-- `kmalloca`, page mapping aside. -/
def kmalloca (sz a : Nat) (h : Heap) : Nat × Heap :=
  let sz := align sz 4
  let r := heapFindAligned h.head sz a h
  (u32 (r.1 + HDR), heapTake r.1 sz r.2)

/-- `kfree` up to the unmapping of pages: the joined block. -/
def kfreeBlock (p : Nat) (h : Heap) : Nat × Heap :=
  let b := sub32 p HDR
  heapMerge b (h.write b fun x => { x with avail := true })

/-- `kfree`, page mapping aside. -/
def kfree (p : Nat) (h : Heap) : Heap :=
  if p = 0 then h else (kfreeBlock p h).2

/-! ## the list of blocks -/

/-- The heap holds the blocks, in address order and below `E`, and the
field `page` of each is its page. -/
structure HeapRep (E : Nat) (h : Heap) (bs : List Blk) : Prop where
  links : Links h.mem bs
  layout : Layout HDR E bs
  page : ∀ b ∈ bs, h.page b.addr = b.addr / 4096
  head : bs.head?.map Blk.addr = some h.head

theorem HDR_pos : 0 < HDR := by decide

variable {E sz a : Nat} {h : Heap} {as bs cs : List Blk} {b : Blk}

theorem heapRep_heapInit {pg : Nat} : HeapRep (pg * 4096 + HDR) (heapInit pg) [⟨pg * 4096, 0, false⟩] where
  links := ⟨⟨rfl, trivial⟩, by simp⟩
  layout := ⟨by simp, by simp [Blk.stop]⟩
  page := by simp [heapInit]
  head := rfl

/-- There is enough fuel for every walk over the blocks. -/
theorem HeapRep.length_lt (hr : HeapRep E h (as ++ b :: cs)) (hE : E ≤ 2 ^ 32) :
    as.length < FUEL ∧ cs.length < FUEL := by
  have hl := hr.layout.length_le HDR_pos
  simp only [List.length_append, List.length_cons] at hl
  unfold FUEL
  omega

/-- The header of a listed block is rewritten in place. -/
theorem HeapRep.write {f : Header → Header} {d : Blk} (hr : HeapRep E h (as ++ b :: cs))
    (ha : d.addr = b.addr) (hf : ∀ p q, f (cell b p q) = cell d p q)
    (hl : Layout HDR E (as ++ d :: cs)) : HeapRep E (h.write b.addr f) (as ++ d :: cs) where
  links := hr.links.write ha hf
  layout := hl
  page x hx := by
    simp only [List.mem_append, List.mem_cons] at hx
    rcases hx with hx | rfl | hx
    · exact hr.page x (by simp [hx])
    · rw [ha]
      exact hr.page b (by simp)
    · exact hr.page x (by simp [hx])
  head := by
    have hh := hr.head
    cases as with
    | nil => simpa [ha, Heap.write] using hh
    | cons x xs => simpa [Heap.write] using hh

/-- A block changes in place, within its own bounds. -/
theorem HeapRep.shrink {f : Header → Header} {d : Blk} (hr : HeapRep E h (as ++ b :: cs))
    (ha : d.addr = b.addr) (hf : ∀ p q, f (cell b p q) = cell d p q)
    (hs : d.size ≤ b.size) : HeapRep E (h.write b.addr f) (as ++ d :: cs) :=
  hr.write ha hf (hr.layout.shrink ha hs)

/-- The blocks are also below a larger bound. -/
theorem HeapRep.mono {E' : Nat} (hr : HeapRep E h bs) (hE : E ≤ E') : HeapRep E' h bs :=
  ⟨hr.links, hr.layout.mono hE, hr.page, hr.head⟩

/-- A change of the memory that keeps the head and gives one new block its
page. -/
theorem HeapRep.insert {c : Blk} {m : Mem} {F : Nat} (hr : HeapRep E h (as ++ b :: cs))
    (hm : Links m (as ++ b :: c :: cs)) (hl : Layout HDR F (as ++ b :: c :: cs)) :
    HeapRep F ((h.withMem m).setPage c.addr) (as ++ b :: c :: cs) where
  links := hm
  layout := hl
  page x hx := by
    by_cases hxc : x.addr = c.addr
    · simp [Heap.setPage, hxc]
    · simp only [Heap.setPage, Function.update_of_ne hxc]
      refine hr.page x ?_
      simp only [List.mem_append, List.mem_cons] at hx ⊢
      rcases hx with hx | hx | rfl | hx
      · exact .inl hx
      · exact .inr (.inl hx)
      · exact absurd rfl hxc
      · exact .inr (.inr hx)
  head := by
    have hh := hr.head
    cases as with
    | nil => simpa [Heap.setPage] using hh
    | cons x xs => simpa [Heap.setPage] using hh

/-! ## finding a block -/

/-- What a search leaves: the block it returns is free, long enough or the
last one, and every block in use is still there. -/
structure Found (E sz : Nat) (bs : List Blk) (r : Nat × Heap) (as : List Blk) (b : Blk)
    (cs : List Blk) : Prop where
  rep : HeapRep E r.2 (as ++ b :: cs)
  ptr : r.1 = b.addr
  avail : b.avail = true
  fits : sz ≤ b.size ∨ cs = []
  used : ∀ x ∈ bs, x.avail = false → x ∈ as ++ cs

/-- The list of blocks after a search of `bs` that returns `b`: a block of
`bs`, or a new last one.  The gap before a new block goes to a free last
block, becomes a free block, or is lost when no header fits. -/
inductive Searched (bs : List Blk) : List Blk → Blk → List Blk → Prop where
  | here {as cs : List Blk} {b : Blk} (hs : bs = as ++ b :: cs) : Searched bs as b cs
  | behind {as : List Blk} {l : Blk} {n : Nat} (hs : bs = as ++ [l]) (hl : l.avail = false)
      (hn : n < l.stop HDR + HDR) :
      Searched bs (as ++ [l]) ⟨n, 0, true⟩ []
  | stretched {as : List Blk} {l : Blk} {n size : Nat} (hs : bs = as ++ [l]) (hl : l.avail = true) :
      Searched bs (as ++ [⟨l.addr, size, true⟩]) ⟨n, 0, true⟩ []
  | gap {as : List Blk} {l : Blk} {n size : Nat} (hs : bs = as ++ [l]) (hl : l.avail = false) :
      Searched bs (as ++ [l, ⟨l.stop HDR, size, true⟩]) ⟨n, 0, true⟩ []

/-- A new block behind the last one, and with it the gap before. -/
theorem HeapRep.append {n : Nat} {F : Nat} (hr : HeapRep E h (as ++ [b]))
    (hn : b.stop HDR ≤ n) (hE : E ≤ F) (ht : n + HDR ≤ F) :
    HeapRep F ((h.withMem (Blocks.append b.addr n h.mem)).setPage n)
      (as ++ [b, ⟨n, 0, true⟩]) :=
  hr.insert (hr.links.append (hr.layout.addr_ne HDR_pos hn (by simp)))
    (hr.layout.insert hn (by simp) hE ht)

theorem used_of_split {bs as cs : List Blk} {b : Blk} (hs : bs = as ++ b :: cs)
    (hb : b.avail = true) : ∀ x ∈ bs, x.avail = false → x ∈ as ++ cs := by
  subst hs
  intro x hx hxa
  simp only [List.mem_append, List.mem_cons] at hx ⊢
  rcases hx with hx | rfl | hx
  · exact .inl hx
  · rw [hb] at hxa
    contradiction
  · exact .inr hx

/-- The last block, when no block is usable, is in use. -/
theorem usable_last {l : Header} {p : Nat} (hn : l.next = none) (h : usable sz l p = false) :
    l.avail = false := by
  simpa [usable, hn] using h

/-- The blocks as the search sees them, from the head on. -/
theorem HeapRep.find (hr : HeapRep E h bs) (hE : E ≤ 2 ^ 32) (ok : Header → Nat → Bool) :
    (∃ as b cs, bs = as ++ b :: cs ∧ find ok h.mem FUEL h.head = .ok b.addr ∧
        ok (h.mem b.addr) b.addr = true) ∨
      ∃ as b, bs = as ++ [b] ∧ Blocks.find ok h.mem FUEL h.head = .error b.addr ∧
        ok (h.mem b.addr) b.addr = false :=
  hr.links.find_first hr.head ((hr.layout.length_le HDR_pos).trans hE)

/-- The last block of a heap ends below the bound, so its end does not
wrap. -/
theorem HeapRep.end_eq (hr : HeapRep E h (as ++ [b])) (hE : E < 2 ^ 32) :
    u32 (b.addr + HDR + (h.mem b.addr).size) = b.stop HDR ∧ b.stop HDR ≤ E := by
  have htop := hr.layout.top b (by simp)
  have hsize := (hr.links.mem_header (b := b) (by simp)).1
  exact ⟨by rw [hsize, ← Blk.stop, u32_of_lt (by omega)], htop⟩

/-- `heap_find`, with the list it leaves. -/
theorem heapFind_searched (hr : HeapRep E h bs) (hE : E + HDR < 2 ^ 32) (sz : Nat) :
    ∃ as b cs, Found (E + HDR) sz bs (heapFind h.head sz h) as b cs ∧ Searched bs as b cs := by
  unfold heapFind
  rcases hr.find (by omega) (usable sz) with ⟨as, b, cs, rfl, h2, h3⟩ | ⟨as, b, rfl, h2, h3⟩
  · rw [h2]
    obtain ⟨hfits, havail⟩ := hr.links.usable_iff.mp h3
    exact ⟨as, b, cs, ⟨hr.mono (by omega), rfl, havail, hfits, used_of_split rfl havail⟩, .here rfl⟩
  · rw [h2]
    obtain ⟨hend, htop⟩ := hr.end_eq (by omega)
    have hused : b.avail = false := by
      rw [← (hr.links.mem_header (b := b) (by simp)).2]
      have hnext : (h.mem b.addr).next = ([] : List Blk).head?.map Blk.addr := hr.links.next_eq
      exact usable_last hnext h3
    dsimp only
    rw [hend]
    refine ⟨as ++ [b], ⟨b.stop HDR, 0, true⟩, [], ⟨?_, rfl, rfl, .inr rfl,
      fun x hx _ => by simpa using hx⟩, .behind rfl hused (Nat.lt_add_of_pos_right HDR_pos)⟩
    simpa using hr.append (n := b.stop HDR) le_rfl (Nat.le_add_right _ _) (by omega)

/-- `heap_find`. -/
theorem heapFind_spec (hr : HeapRep E h bs) (hE : E + HDR < 2 ^ 32) (sz : Nat) :
    ∃ as b cs, Found (E + HDR) sz bs (heapFind h.head sz h) as b cs := by
  obtain ⟨as, b, cs, hf, -⟩ := heapFind_searched hr hE sz
  exact ⟨as, b, cs, hf⟩

/-- The place of a new aligned block: behind the last one, at most `a - 1`
bytes further than needed. -/
theorem align_place (l size : Nat) {a : Nat} (ha : 0 < a) (hE : l + HDR + size + HDR + (a - 1) < 2 ^ 32) :
    let pl := sub32 (sub32 (align (u32 (u32 (l + HDR) + size + HDR)) a) (u32 (l + HDR))) HDR
    u32 (l + HDR + pl) = l + HDR + pl ∧ size ≤ pl ∧ pl ≤ size + (a - 1) ∧
      (l + HDR + pl + HDR) % a = 0 := by
  have h1 : u32 (l + HDR) = l + HDR := u32_of_lt (by omega)
  have h2 : u32 (l + HDR + size + HDR) = l + HDR + size + HDR := u32_of_lt (by omega)
  have h3 := le_align (x := l + HDR + size + HDR) ha hE
  have h4 := align_le (x := l + HDR + size + HDR) hE
  have h5 := Nat.mod_eq_zero_of_dvd (dvd_align (l + HDR + size + HDR) a)
  rw [h1, h2]
  obtain ⟨A, hA⟩ : ∃ A, align (l + HDR + size + HDR) a = A := ⟨_, rfl⟩
  rw [hA] at h3 h4 h5 ⊢
  have h6 : sub32 A (l + HDR) = A - (l + HDR) := sub32_of_le (by omega) (by omega)
  have h7 : sub32 (A - (l + HDR)) HDR = A - (l + HDR) - HDR := sub32_of_le (by omega) (by omega)
  have h8 : u32 (l + HDR + (A - (l + HDR) - HDR)) = l + HDR + (A - (l + HDR) - HDR) :=
    u32_of_lt (by omega)
  have h9 : l + HDR + (A - (l + HDR) - HDR) + HDR = A := by omega
  simp only [h6, h7, h8, h9]
  exact ⟨trivial, by omega, by omega, h5⟩

/-- `heap_find_aligned`, with the list it leaves. -/
theorem heapFindAligned_searched (hr : HeapRep E h bs) (ha : 0 < a)
    (hE : E + HDR + (a - 1) < 2 ^ 32) (sz : Nat) :
    ∃ as b cs, Found (E + HDR + (a - 1)) sz bs (heapFindAligned h.head sz a h) as b cs ∧
      (b.addr + HDR) % a = 0 ∧ Searched bs as b cs := by
  unfold heapFindAligned
  rcases hr.find (by omega) (usableAligned sz a) with ⟨as, b, cs, rfl, h2, h3⟩ | ⟨as, b, rfl, h2, -⟩
  · rw [h2]
    have htop := hr.layout.top b (by simp)
    have hdata : u32 (b.addr + HDR) = b.addr + HDR := by
      simp only [Blk.stop] at htop
      exact u32_of_lt (by omega)
    rw [usableAligned, hdata, Bool.and_eq_true, hr.links.usable_iff, beq_iff_eq] at h3
    obtain ⟨⟨hfits, havail⟩, hal⟩ := h3
    exact ⟨as, b, cs, ⟨hr.mono (by omega), rfl, havail, hfits, used_of_split rfl havail⟩, hal,
      .here rfl⟩
  · rw [h2]
    obtain ⟨hsize, havail⟩ := hr.links.mem_header (b := b) (by simp)
    have htop := hr.layout.top b (by simp)
    simp only [Blk.stop] at htop
    have hplace := align_place b.addr b.size ha (by omega)
    dsimp only at hplace ⊢
    rw [hsize, havail]
    obtain ⟨pl, hpl⟩ : ∃ pl, sub32 (sub32 (align (u32 (u32 (b.addr + HDR) + b.size + HDR)) a)
      (u32 (b.addr + HDR))) HDR = pl := ⟨_, rfl⟩
    rw [hpl] at hplace ⊢
    obtain ⟨hn, hle, hge, hal⟩ := hplace
    have hnsz : sub32 pl b.size = pl - b.size := sub32_of_le hle (by omega)
    have hbn : b.stop HDR ≤ b.addr + HDR + pl := by
      simp only [Blk.stop]
      omega
    -- the new last block, with the gap before it
    have happ := hr.append (F := E + HDR + (a - 1)) hbn (by omega) (by omega)
    rw [hn, hnsz]
    by_cases hb : b.avail = true
    · -- a free last block takes the gap
      rw [if_pos hb]
      have hlay : Layout HDR (E + HDR + (a - 1)) (as ++ [⟨b.addr, pl, true⟩]) :=
        hr.layout.extend rfl (by omega) (by simp only [Blk.stop]; omega)
      have hw := happ.write (d := ⟨b.addr, pl, true⟩) (f := fun x => { x with size := pl }) rfl
        (by simp [cell, hb]) (hlay.insert (c := ⟨b.addr + HDR + pl, 0, true⟩) le_rfl (by simp)
          le_rfl (by simp only [Blk.stop]; omega))
      refine ⟨as ++ [⟨b.addr, pl, true⟩], ⟨b.addr + HDR + pl, 0, true⟩, [], ⟨by simpa using hw, rfl,
        rfl, .inr rfl, fun x hx hxa => ?_⟩, hal, .stretched rfl hb⟩
      rcases List.mem_append.mp hx with hx | hx
      · simp [hx]
      · obtain rfl := List.mem_singleton.mp hx
        rw [hb] at hxa
        contradiction
    · rw [if_neg hb]
      by_cases hgap : HDR ≤ pl - b.size
      · -- a gap that can hold a header becomes a free block
        rw [if_pos hgap]
        have hf : u32 (b.addr + HDR + b.size) = b.stop HDR := u32_of_lt (by omega)
        have hstop : (⟨b.stop HDR, pl - b.size - HDR, true⟩ : Blk).stop HDR = b.addr + HDR + pl := by
          simp only [Blk.stop]
          omega
        have hfsz : sub32 (pl - b.size) HDR = pl - b.size - HDR := sub32_of_le hgap (by omega)
        rw [hf, hfsz]
        have hins := happ.insert (c := ⟨b.stop HDR, pl - b.size - HDR, true⟩)
          (F := E + HDR + (a - 1))
          (happ.links.insertAfter (happ.layout.addr_ne HDR_pos le_rfl ?_))
          (happ.layout.insert le_rfl ?_ le_rfl (by rw [hstop]; omega))
        · exact ⟨as ++ [b, ⟨b.stop HDR, pl - b.size - HDR, true⟩], ⟨b.addr + HDR + pl, 0, true⟩, [],
            ⟨by simpa using hins, rfl, rfl, .inr rfl, fun x hx _ => by simp at hx ⊢; grind⟩, hal,
            .gap rfl (by simpa using hb)⟩
        · rintro _ ⟨⟩
          have := HDR_pos
          simp only [Blk.stop]
          omega
        · rintro _ ⟨⟩
          exact hstop.le
      · rw [if_neg hgap]
        exact ⟨as ++ [b], ⟨b.addr + HDR + pl, 0, true⟩, [], ⟨by simpa using happ, rfl, rfl,
          .inr rfl, fun x hx _ => by simpa using hx⟩, hal,
          .behind rfl (by simpa using hb) (by simp only [Blk.stop]; omega)⟩

/-- `heap_find_aligned`. -/
theorem heapFindAligned_spec (hr : HeapRep E h bs) (ha : 0 < a) (hE : E + HDR + (a - 1) < 2 ^ 32)
    (sz : Nat) :
    ∃ as b cs, Found (E + HDR + (a - 1)) sz bs (heapFindAligned h.head sz a h) as b cs ∧
      (b.addr + HDR) % a = 0 := by
  obtain ⟨as, b, cs, hf, hal, -⟩ := heapFindAligned_searched hr ha hE sz
  exact ⟨as, b, cs, hf, hal⟩

/-! ## taking and freeing a block -/

/-- `heap_split` of a block that is long enough: a free block takes the rest
of it. -/
theorem heapSplit_spec (hr : HeapRep E h (as ++ b :: cs)) (hE : E < 2 ^ 32)
    (hsz : sz + HDR ≤ b.size) :
    ∃ n, n.avail = true ∧
      HeapRep E (heapSplit b.addr sz h) (as ++ ⟨b.addr, sz, b.avail⟩ :: n :: cs) := by
  have hsize := (hr.links.mem_header (b := b) (by simp)).1
  have htop := hr.layout.top b (by simp)
  simp only [Blk.stop] at htop
  have h1 : u32 (sz + HDR) = sz + HDR := u32_of_lt (by omega)
  have h2 : u32 (b.addr + HDR + sz) = b.addr + HDR + sz := u32_of_lt (by omega)
  have h3 : sub32 b.size sz = b.size - sz := sub32_of_le (by omega) (by omega)
  have h4 : sub32 (b.size - sz) HDR = b.size - sz - HDR := sub32_of_le (by omega) (by omega)
  rw [heapSplit, hsize, h1, if_neg (by omega), h2, h3, h4]
  have hw := hr.shrink (d := ⟨b.addr, sz, b.avail⟩) (f := fun x => { x with size := sz }) rfl
    (fun _ _ => rfl) (by simp only; omega)
  have hstop : (⟨b.addr + HDR + sz, b.size - sz - HDR, true⟩ : Blk).stop HDR = b.stop HDR := by
    simp only [Blk.stop]
    omega
  have hnext : ∀ c, cs.head? = some c → b.stop HDR ≤ c.addr := by
    intro c hc
    obtain ⟨cs', rfl⟩ : ∃ cs', cs = c :: cs' := ⟨cs.tail, (List.cons_head?_tail hc).symm⟩
    exact hr.layout.stop_le
  refine ⟨⟨b.addr + HDR + sz, b.size - sz - HDR, true⟩, rfl, hw.insert
    (hw.links.insertAfter (hw.layout.addr_ne HDR_pos le_rfl fun c hc => ?_))
    (hw.layout.insert le_rfl (fun c hc => hstop.trans_le (hnext c hc)) le_rfl ?_)⟩
  · have := hnext c hc
    have := HDR_pos
    simp only [Blk.stop] at *
    omega
  · simp only [Blk.stop]
    omega

/-- **Taking a block**: it is in use with the size asked for, with at most
one new block behind it. -/
theorem heapTake_rep {r : Nat × Heap} (hf : Found E sz bs r as b cs) (hE : E + sz < 2 ^ 32) :
    ∃ ns : List Blk, ns.length ≤ 1 ∧ (∀ n ∈ ns, n.avail = true) ∧
      HeapRep (E + sz) (heapTake r.1 sz r.2) (as ++ ⟨b.addr, sz, false⟩ :: (ns ++ cs)) := by
  obtain ⟨hr, hptr, -, hfits, -⟩ := hf
  rw [heapTake, hptr]
  have h1 := hr.shrink (d := ⟨b.addr, b.size, false⟩) (f := fun x => { x with avail := false }) rfl
    (fun _ _ => rfl) le_rfl
  have htop := h1.layout.top ⟨b.addr, b.size, false⟩ (by simp)
  simp only [Blk.stop] at htop
  by_cases hsz : sz + HDR ≤ b.size
  · obtain ⟨n, hn, h2⟩ := heapSplit_spec h1 (by omega) hsz
    have h3 := h2.shrink (d := ⟨b.addr, sz, false⟩) (f := fun x => { x with size := sz }) rfl
      (fun _ _ => rfl) le_rfl
    exact ⟨[n], le_rfl, by simpa using hn, h3.mono (by omega)⟩
  · have hsize : _ = b.size := (h1.links.mem_header (b := ⟨b.addr, b.size, false⟩) (by simp)).1
    have hno : heapSplit b.addr sz (r.2.write b.addr fun x => { x with avail := false }) =
        r.2.write b.addr fun x => { x with avail := false } := by
      rw [heapSplit, hsize, u32_of_lt (by omega), if_pos (by omega)]
    rw [hno]
    refine ⟨[], Nat.zero_le 1, by simp, ?_⟩
    rcases hfits with hle | rfl
    · have h3 := h1.shrink (d := ⟨b.addr, sz, false⟩) (f := fun x => { x with size := sz }) rfl
        (fun _ _ => rfl) hle
      exact h3.mono (by omega)
    · exact (h1.mono (Nat.le_add_right E sz)).write (d := ⟨b.addr, sz, false⟩)
        (f := fun x => { x with size := sz }) rfl (fun _ _ => rfl)
        (h1.layout.extend rfl (Nat.le_add_right E sz) (by simp only [Blk.stop]; omega))

/-- The other blocks in use stay. -/
theorem heapTake_spec {r : Nat × Heap} (hf : Found E sz bs r as b cs) (hE : E + sz < 2 ^ 32) :
    ∃ bs', HeapRep (E + sz) (heapTake r.1 sz r.2) bs' ∧ ⟨b.addr, sz, false⟩ ∈ bs' ∧
      ∀ x ∈ bs, x.avail = false → x ∈ bs' ∧ x.addr ≠ b.addr := by
  obtain ⟨ns, -, -, hrep⟩ := heapTake_rep hf hE
  refine ⟨_, hrep, by simp, fun x hx hxa => ?_⟩
  obtain ⟨hne, hne'⟩ := hf.rep.links.ne_addr
  rcases List.mem_append.mp (hf.used x hx hxa) with hx' | hx'
  · exact ⟨by simp [hx'], hne x hx'⟩
  · exact ⟨by simp [hx'], hne' x hx'⟩

/-- Joining blocks leaves the others, and the head, where they are. -/
theorem HeapRep.join {ds es : List Blk} {b' : Blk} {m : Mem}
    (hr : HeapRep E h (as ++ ds ++ b :: (es ++ cs))) (hb : b'.addr = start ds b)
    (hlinks : Links m (as ++ b' :: cs)) (hl : Layout HDR E (as ++ b' :: cs)) :
    HeapRep E (h.withMem m) (as ++ b' :: cs) where
  links := hlinks
  layout := hl
  page x hx := by
    simp only [List.mem_append, List.mem_cons] at hx
    rcases hx with hx | rfl | hx
    · exact hr.page x (by simp [hx])
    · rw [hb]
      cases ds with
      | nil => exact hr.page b (by simp)
      | cons d ds => exact hr.page d (by simp)
    · exact hr.page x (by simp [hx])
  head := by
    have hh := hr.head
    cases as with
    | nil =>
        rw [List.nil_append, List.head?_cons, Option.map_some, hb]
        cases ds <;> simpa [start] using hh
    | cons x xs => simpa using hh

/-- **Freeing a block in use** joins it with its free neighbours: what is
left before it is in use, and what is left behind it is in use or an empty
block that is not the last one. -/
theorem kfreeBlock_joined (hr : HeapRep E h (as ++ b :: cs)) (hE : E < 2 ^ 32) :
    ∃ as' ds b' es cs', as = as' ++ ds ∧ cs = es ++ cs' ∧
      (∀ x ∈ ds ++ es, x.avail = true) ∧ b'.addr = start ds b ∧ b'.avail = true ∧
      (kfreeBlock (b.addr + HDR) h).1 = b'.addr ∧
      HeapRep E (kfreeBlock (b.addr + HDR) h).2 (as' ++ b' :: cs') ∧
      (∀ x, as'.getLast? = some x → x.avail = false) ∧
      (∀ x xs, cs' = x :: xs → x.avail = false ∨ x.size = 0 ∧ xs ≠ []) := by
  have htop := hr.layout.top b (by simp)
  simp only [Blk.stop] at htop
  have hb : sub32 (b.addr + HDR) HDR = b.addr := by
    rw [sub32_of_le (by omega) (by omega)]
    omega
  rw [kfreeBlock, hb, heapMerge]
  have h1 := hr.shrink (d := ⟨b.addr, b.size, true⟩) (f := fun x => { x with avail := true }) rfl
    (fun _ _ => rfl) le_rfl
  obtain ⟨as', ds, b₁, m₁, rfl, hds, hlast, hback, haddr, havail, hlinks, hlay⟩ :=
    mergeBack_spec HDR_pos hE.le h1.links h1.layout rfl (h1.length_lt hE.le).1
  obtain ⟨es, cs', b₂, rfl, hes, hnext, haddr', havail', hlinks', hlay'⟩ :=
    mergeFront_spec HDR_pos hE.le hlinks hlay (h1.length_lt hE.le).2
  dsimp only at hback ⊢
  rw [hback]
  have hstart : start ds ⟨b.addr, b.size, true⟩ = start ds b := by cases ds <;> rfl
  refine ⟨as', ds, b₂, es, cs', rfl, rfl, ?_, (haddr'.trans haddr).trans hstart,
    havail'.trans havail, haddr'.symm,
    h1.join (haddr'.trans haddr) hlinks' hlay', hlast, hnext⟩
  intro x hx
  rcases List.mem_append.mp hx with hx | hx
  · exact hds x hx
  · exact hes x hx

/-- The other blocks in use stay. -/
theorem kfreeBlock_spec (hr : HeapRep E h (as ++ b :: cs)) (hE : E < 2 ^ 32) :
    ∃ as' ds b' es cs', as = as' ++ ds ∧ cs = es ++ cs' ∧
      (∀ x ∈ ds ++ es, x.avail = true) ∧ b'.addr = start ds b ∧ b'.avail = true ∧
      (kfreeBlock (b.addr + HDR) h).1 = b'.addr ∧
      HeapRep E (kfreeBlock (b.addr + HDR) h).2 (as' ++ b' :: cs') := by
  obtain ⟨as', ds, b', es, cs', h1, h2, h3, h4, h5, h6, h7, -⟩ := kfreeBlock_joined hr hE
  exact ⟨as', ds, b', es, cs', h1, h2, h3, h4, h5, h6, h7⟩

/-! ## the head stays -/

theorem heapFind_head (b sz : Nat) (h : Heap) : (heapFind b sz h).2.head = h.head := by
  unfold heapFind
  split <;> rfl

theorem heapFindAligned_head (b sz a : Nat) (h : Heap) :
    (heapFindAligned b sz a h).2.head = h.head := by
  unfold heapFindAligned
  split
  · rfl
  · dsimp only
    split
    · rfl
    · split <;> rfl

theorem heapTake_head (b sz : Nat) (h : Heap) : (heapTake b sz h).head = h.head := by
  unfold heapTake heapSplit
  dsimp only
  split <;> rfl

theorem heapMerge_head (b : Nat) (h : Heap) : (heapMerge b h).2.head = h.head := by
  unfold heapMerge
  exact Heap.withMem_head _ _

theorem kfreeBlock_head (p : Nat) (h : Heap) : (kfreeBlock p h).2.head = h.head := by
  rw [kfreeBlock]
  exact (heapMerge_head _ _).trans (Heap.write_head _ _ _)

theorem kfree_head (p : Nat) (h : Heap) : (kfree p h).head = h.head := by
  unfold kfree
  split
  · rfl
  · exact kfreeBlock_head p h

end Eclair
