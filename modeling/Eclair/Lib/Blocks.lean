import Mathlib.Data.Finset.Card
import Mathlib.Data.List.Chain
import Mathlib.Data.List.Pairwise
import Eclair.Lib.Linked

/-!
# Eclair.Lib.Blocks

Heaps whose blocks carry their headers in place: a header of `H` bytes, then
the payload, and the headers linked both ways in address order.

The memory maps an address to the header that starts there; that headers
never overlap is part of the invariant.  Addresses are reduced modulo `W`
where code adds to them.

* the operations on headers (`find`, `insertAfter`, `absorb`, `mergeBack`,
  `mergeFront`) and what they do to the list of blocks (`Links`);
* the layout of the blocks (`Ordered`) and how it survives that a part of
  the list is replaced by blocks within the part (`Ordered.splice`);
* regions handed out from unavailable blocks (`Held`) and why they are
  disjoint.
-/

namespace Blocks

open Linked

/-- A header: the size of the payload, whether the block is free, and the
headers before and after. -/
structure Header where
  size : Nat := 0
  avail : Bool := false
  prev : Option Nat := none
  next : Option Nat := none
  deriving DecidableEq, Repr

/-- The headers in memory. -/
abbrev Mem := Nat → Header

/-- A block of the list. -/
structure Blk where
  addr : Nat
  size : Nat
  avail : Bool
  deriving DecidableEq, Repr

/-- The header of a block between two others. -/
def cell (b : Blk) (p q : Option Nat) : Header := ⟨b.size, b.avail, p, q⟩

/-- The end of a block. -/
def Blk.stop (H : Nat) (b : Blk) : Nat := b.addr + H + b.size

/-! ## operations on headers -/

/-- Change one header. -/
def write (a : Nat) (f : Header → Header) (m : Mem) : Mem := Function.update m a (f (m a))

/-- `if (n) n->prev = p`. -/
def setPrev (n p : Option Nat) (m : Mem) : Mem :=
  match n with
  | some n => write n (fun x => { x with prev := p }) m
  | none => m

/-- Walk from a header to the first acceptable one, or to the last. -/
def find (ok : Header → Nat → Bool) (m : Mem) : Nat → Nat → Except Nat Nat
  | 0, b => .error b
  | n + 1, b =>
      if ok (m b) b then .ok b
      else match (m b).next with
        | some c => find ok m n c
        | none => .error b

/-- A header that a first fit accepts: free, and long enough or the last. -/
def usable (sz : Nat) (x : Header) (_ : Nat) : Bool :=
  (decide (sz ≤ x.size) || x.next.isNone) && x.avail

/-- Link a new free block behind `b`. -/
def insertAfter (b n size : Nat) (m : Mem) : Mem :=
  let next := (m b).next
  let m := write n (fun _ => ⟨size, true, some b, next⟩) m
  let m := write b (fun x => { x with next := some n }) m
  setPrev next (some n) m

/-- Put a new empty block behind the last one. -/
def append (l n : Nat) (m : Mem) : Mem :=
  let m := write l (fun x => { x with next := some n }) m
  write n (fun _ => ⟨0, true, some l, none⟩) m

/-- `if (b->prev) b->prev->next = NULL`. -/
def dropLast (b : Nat) (m : Mem) : Mem :=
  match (m b).prev with
  | some p => write p (fun x => { x with next := none }) m
  | none => m

/-- The block `c` behind `b` becomes part of `b`. -/
def absorb (H W b c : Nat) (m : Mem) : Mem :=
  let next := (m c).next
  let m := write b (fun x => { x with size := (x.size + (H + (m c).size)) % W }) m
  let m := write b (fun x => { x with next := next }) m
  setPrev next (some b) m

/-- Join a block with the free ones before it. -/
def mergeBack (H W : Nat) : Nat → Nat → Mem → Nat × Mem
  | 0, b, m => (b, m)
  | k + 1, b, m =>
      match (m b).prev with
      | some p => if (m p).avail then mergeBack H W k p (absorb H W p b m) else (b, m)
      | none => (b, m)

/-- Join a block with the free ones behind it, but for empty ones in the
middle of the list. -/
def mergeFront (H W : Nat) : Nat → Nat → Mem → Mem
  | 0, _, m => m
  | k + 1, b, m =>
      match (m b).next with
      | some c =>
          if (m c).avail && (decide (0 < (m c).size) || (m c).next.isNone) then
            mergeFront H W k b (absorb H W b c m)
          else m
      | none => m

@[simp] theorem write_self (a : Nat) (f : Header → Header) (m : Mem) : write a f m a = f (m a) :=
  Function.update_self _ _ _

theorem write_of_ne {a x : Nat} (f : Header → Header) (m : Mem) (h : x ≠ a) :
    write a f m x = m x := Function.update_of_ne h _ _

/-- Unlinking the last block changes no size. -/
theorem dropLast_size (b x : Nat) (m : Mem) : (dropLast b m x).size = (m x).size := by
  cases hp : (m b).prev with
  | none => simp [dropLast, hp]
  | some p =>
      by_cases hx : x = p
      · simp [dropLast, hp, hx]
      · simp [dropLast, hp, write_of_ne _ _ hx]

theorem seg_write {a : Nat} {f : Header → Header} {m : Mem} {p q : Option Nat} {xs : List Blk}
    (h : Seg Blk.addr cell m p xs q) (ha : ∀ x ∈ xs, x.addr ≠ a) :
    Seg Blk.addr cell (write a f m) p xs q := h.update ha

/-! ## the list of blocks in memory -/

theorem addr_ne {xs ys : List Blk} (h : ((xs ++ ys).map Blk.addr).Nodup) {x y : Blk}
    (hx : x ∈ xs) (hy : y ∈ ys) : x.addr ≠ y.addr := by
  rw [List.map_append] at h
  exact (List.nodup_append.mp h).2.2 _ (List.mem_map_of_mem hx) _ (List.mem_map_of_mem hy)

/-- The memory links the blocks, each at an address of its own. -/
structure Links (m : Mem) (bs : List Blk) : Prop where
  seg : Seg Blk.addr cell m none bs none
  nodup : (bs.map Blk.addr).Nodup

variable {H W E : Nat} {m : Mem} {as bs cs : List Blk} {b c : Blk} {n size : Nat}

namespace Links

theorem header (h : Links m (as ++ b :: cs)) :
    m b.addr = cell b (back Blk.addr none as) (front Blk.addr cs none) := by
  have hs := h.seg
  rw [seg_append, seg_cons] at hs
  exact hs.2.1

theorem mem_header (h : Links m bs) (hb : b ∈ bs) :
    (m b.addr).size = b.size ∧ (m b.addr).avail = b.avail := by
  obtain ⟨as, cs, rfl⟩ := List.append_of_mem hb
  rw [h.header]
  exact ⟨rfl, rfl⟩

theorem next_eq (h : Links m (as ++ b :: cs)) : (m b.addr).next = cs.head?.map Blk.addr := by
  rw [h.header]
  simp [cell, front]

theorem prev_eq (h : Links m (as ++ b :: cs)) : (m b.addr).prev = as.getLast?.map Blk.addr := by
  rw [h.header]
  simp [cell, back]

/-- The memory and the first address determine the blocks. -/
theorem unique {bs' : List Blk} (h : Links m bs) (h' : Links m bs')
    (hh : bs.head?.map Blk.addr = bs'.head?.map Blk.addr) : bs = bs' := by
  have key : ∀ (bs bs' : List Blk) (p : Option Nat), Seg Blk.addr cell m p bs none →
      Seg Blk.addr cell m p bs' none → bs.head?.map Blk.addr = bs'.head?.map Blk.addr →
      bs = bs' := by
    intro bs
    induction bs with
    | nil =>
        intro bs' p _ _ hh
        cases bs' <;> simp at hh ⊢
    | cons b bs ih =>
        intro bs' p hs hs' hh
        cases bs' with
        | nil => simp at hh
        | cons b' bs' =>
            have ha : b.addr = b'.addr := by simpa using hh
            rw [seg_cons] at hs hs'
            have hcell := hs.1.symm.trans ((congrArg m ha).trans hs'.1)
            simp only [cell, Header.mk.injEq, true_and] at hcell
            obtain ⟨hsize, havail, hnext⟩ := hcell
            have hb : b = b' := by
              cases b
              cases b'
              simp_all
            subst hb
            rw [ih bs' _ hs.2 hs'.2 (by simpa [front] using hnext)]
  exact key bs bs' none h.seg h'.seg hh

/-- The addresses around a block differ from its own. -/
theorem ne_addr (h : Links m (as ++ b :: cs)) :
    (∀ x ∈ as, x.addr ≠ b.addr) ∧ ∀ x ∈ cs, x.addr ≠ b.addr := by
  refine ⟨fun x hx => addr_ne h.nodup hx (by simp), fun x hx => ?_⟩
  have hnd := h.nodup
  rw [List.append_cons] at hnd
  exact (addr_ne hnd (by simp) hx).symm

/-- Rewriting the header of one block in place. -/
theorem write {f : Header → Header} {d : Blk} (h : Links m (as ++ b :: cs))
    (ha : d.addr = b.addr) (hf : ∀ p q, f (cell b p q) = cell d p q) :
    Links (write b.addr f m) (as ++ d :: cs) := by
  obtain ⟨hne, hne'⟩ := h.ne_addr
  have hs := h.seg
  rw [seg_append, seg_cons] at hs
  constructor
  · rw [seg_append, seg_cons]
    refine ⟨by simpa [ha] using seg_write hs.1 hne, ?_, by simpa [ha] using seg_write hs.2.2 hne'⟩
    rw [ha, write_self, h.header, hf]
  · simpa [ha] using h.nodup

/-- A block with a fresh address is linked in. -/
theorem insertAfter {z : Nat} (h : Links m (as ++ b :: cs)) (hn : ∀ x ∈ as ++ b :: cs, x.addr ≠ n) :
    Links (insertAfter b.addr n z m) (as ++ b :: ⟨n, z, true⟩ :: cs) := by
  obtain ⟨hne, hne'⟩ := h.ne_addr
  have hhead := h.header
  have hs := h.seg
  rw [seg_append, seg_cons] at hs
  have hbn : b.addr ≠ n := hn b (by simp)
  have hnext : (m b.addr).next = front Blk.addr cs none := by rw [hhead]; rfl
  constructor
  · simp only [seg_append, seg_cons, Blocks.insertAfter, hnext]
    cases cs with
    | nil =>
        simp only [front_nil, front_cons, setPrev] at hs ⊢
        refine ⟨seg_write (seg_write hs.1 fun x hx => hn x (by simp [hx])) hne, ?_, ?_, trivial⟩
        · simp [write_of_ne _ _ hbn, hhead, cell]
        · simp [write_of_ne _ _ hbn.symm, cell]
    | cons c cs =>
        have hcn : c.addr ≠ n := hn c (by simp)
        have hcb : c.addr ≠ b.addr := hne' c (by simp)
        obtain ⟨hac, hcc⟩ : (∀ x ∈ as ++ [b], x.addr ≠ c.addr) ∧ ∀ x ∈ cs, x.addr ≠ c.addr :=
          Links.ne_addr (m := m) (by rw [← List.append_cons]; exact h)
        simp only [front_cons, setPrev, seg_cons] at hs ⊢
        refine ⟨?_, ?_, ?_, ?_, ?_⟩
        · exact seg_write (seg_write (seg_write hs.1 fun x hx => hn x (by simp [hx])) hne)
            fun x hx => hac x (by simp [hx])
        · simp [write_of_ne _ _ hbn, write_of_ne _ _ hcb.symm, hhead, cell]
        · simp [write_of_ne _ _ hbn.symm, write_of_ne _ _ hcn.symm, cell]
        · simp [write_of_ne _ _ hcb, write_of_ne _ _ hcn, hs.2.2.1, cell]
        · exact seg_write (seg_write (seg_write hs.2.2.2 fun x hx => hn x (by simp [hx]))
            fun x hx => hne' x (by simp [hx])) hcc
  · have hnd := h.nodup
    simp only [List.map_append, List.map_cons, List.nodup_append, List.nodup_cons, List.mem_map,
      List.mem_cons, List.mem_append] at hnd hn ⊢
    grind

/-- A new last block. -/
theorem append (h : Links m (as ++ [b])) (hn : ∀ x ∈ as ++ [b], x.addr ≠ n) :
    Links (append b.addr n m) (as ++ [b, ⟨n, 0, true⟩]) := by
  have hnext : (m b.addr).next = none := by rw [h.next_eq]; rfl
  have hbn : b.addr ≠ n := hn b (by simp)
  have heq : Blocks.append b.addr n m = Blocks.insertAfter b.addr n 0 m := by
    simp only [Blocks.append, Blocks.insertAfter, hnext, setPrev, Blocks.write,
      Function.update_of_ne hbn]
    exact Function.update_comm hbn _ _ _
  rw [heq]
  exact h.insertAfter hn

/-- The last block is no longer linked. -/
theorem dropLast (h : Links m (as ++ [b])) : Links (dropLast b.addr m) as := by
  have hprev := h.prev_eq
  have hs := h.seg
  have hnd := h.nodup
  rcases List.eq_nil_or_concat' as with rfl | ⟨as, p, rfl⟩
  · exact ⟨trivial, by simp⟩
  · have hp : Links m (as ++ p :: [b]) := by rw [List.append_cons]; exact h
    obtain ⟨hne, -⟩ := hp.ne_addr
    have hhead := hp.header
    rw [Blocks.dropLast, hprev]
    simp only [List.getLast?_append, List.getLast?_singleton, Option.some_or, Option.map_some]
    rw [seg_append, seg_append, seg_cons] at hs
    constructor
    · rw [seg_append, seg_cons]
      exact ⟨seg_write hs.1.1 hne, by simp [hhead, cell], trivial⟩
    · rw [List.map_append] at hnd
      exact (List.nodup_append.mp hnd).1

/-- A block behind another one becomes part of it. -/
theorem absorb (h : Links m (as ++ b :: c :: cs)) :
    Links (absorb H W b.addr c.addr m)
      (as ++ ⟨b.addr, (b.size + (H + c.size)) % W, b.avail⟩ :: cs) := by
  obtain ⟨hne, hne'⟩ := h.ne_addr
  have hhead := h.header
  have hc : Links m ((as ++ [b]) ++ c :: cs) := by rw [← List.append_cons]; exact h
  have hcnext : (m c.addr).next = front Blk.addr cs none := by rw [hc.header]; rfl
  have hcsize : (m c.addr).size = c.size := (hc.mem_header (by simp)).1
  have hs := h.seg
  rw [seg_append, seg_cons, seg_cons] at hs
  constructor
  · simp only [seg_append, seg_cons, Blocks.absorb, hcnext, hcsize]
    cases cs with
    | nil =>
        simp only [front_nil, front_cons, setPrev] at hs ⊢
        refine ⟨seg_write (seg_write hs.1 hne) hne, ?_, trivial⟩
        simp [hhead, cell]
    | cons d cs =>
        have hdb : d.addr ≠ b.addr := hne' d (by simp)
        obtain ⟨had, hdd⟩ : (∀ x ∈ as ++ [b, c], x.addr ≠ d.addr) ∧ ∀ x ∈ cs, x.addr ≠ d.addr :=
          Links.ne_addr (m := m) (by simpa using h)
        simp only [front_cons, setPrev, seg_cons] at hs ⊢
        refine ⟨?_, ?_, ?_, ?_⟩
        · exact seg_write (seg_write (seg_write hs.1 hne) hne) fun x hx => had x (by simp [hx])
        · simp [write_of_ne _ _ hdb.symm, hhead, cell]
        · simp [write_of_ne _ _ hdb, hs.2.2.2.1, cell]
        · exact seg_write (seg_write (seg_write hs.2.2.2.2 fun x hx => hne' x (by simp [hx]))
            fun x hx => hne' x (by simp [hx])) hdd
  · have hnd := h.nodup
    simp only [List.map_append, List.map_cons, List.nodup_append, List.nodup_cons, List.mem_map,
      List.mem_cons] at hnd ⊢
    grind

/-- **Search**: the walk over the blocks ends at the first acceptable one or
at the last. -/
theorem find {t : Header → Nat → Bool} {k : Nat} (h : Links m (as ++ b :: cs))
    (hk : cs.length < k) :
    (∃ ds c es, b :: cs = ds ++ c :: es ∧ find t m k b.addr = .ok c.addr ∧
        t (m c.addr) c.addr = true) ∨
      ∃ ds c, b :: cs = ds ++ [c] ∧ find t m k b.addr = .error c.addr ∧
        t (m c.addr) c.addr = false := by
  induction cs generalizing as b k with
  | nil =>
      obtain ⟨k, rfl⟩ : ∃ j, k = j + 1 := ⟨k - 1, by omega⟩
      rw [Blocks.find, h.next_eq]
      by_cases hok : t (m b.addr) b.addr = true
      · exact .inl ⟨[], b, [], rfl, by simp [hok], hok⟩
      · exact .inr ⟨[], b, rfl, by simp [hok], by simpa using hok⟩
  | cons c cs ih =>
      obtain ⟨k, rfl⟩ : ∃ j, k = j + 1 := ⟨k - 1, by omega⟩
      rw [Blocks.find, h.next_eq]
      by_cases hok : t (m b.addr) b.addr = true
      · exact .inl ⟨[], b, c :: cs, rfl, by simp [hok], hok⟩
      · rw [if_neg hok]
        have hc : Links m ((as ++ [b]) ++ c :: cs) := by rw [← List.append_cons]; exact h
        rcases ih hc (by simpa using hk) with ⟨ds, x, es, h1, h2, h3⟩ | ⟨ds, x, h1, h2, h3⟩
        · exact .inl ⟨b :: ds, x, es, by rw [h1]; rfl, h2, h3⟩
        · exact .inr ⟨b :: ds, x, by rw [h1]; rfl, h2, h3⟩

/-- The search as a program starts it, at the first block. -/
theorem find_first {t : Header → Nat → Bool} {first k : Nat} (h : Links m bs)
    (hh : bs.head?.map Blk.addr = some first) (hk : bs.length ≤ k) :
    (∃ as b cs, bs = as ++ b :: cs ∧ Blocks.find t m k first = .ok b.addr ∧
        t (m b.addr) b.addr = true) ∨
      ∃ as b, bs = as ++ [b] ∧ Blocks.find t m k first = .error b.addr ∧
        t (m b.addr) b.addr = false := by
  cases bs with
  | nil => simp at hh
  | cons b bs =>
      have hb : first = b.addr := by simpa using hh.symm
      rw [hb]
      have h' : Links m ([] ++ b :: bs) := h
      rcases h'.find (t := t) (k := k) (by simp at hk ⊢; omega) with ⟨ds, c, es, h1⟩ | ⟨ds, c, h1⟩
      · exact .inl ⟨ds, c, es, h1⟩
      · exact .inr ⟨ds, c, h1⟩

/-- A usable block of the list is free, and long enough or the last. -/
theorem usable_iff {sz : Nat} (h : Links m (as ++ b :: cs)) :
    usable sz (m b.addr) b.addr = true ↔ (sz ≤ b.size ∨ cs = []) ∧ b.avail = true := by
  obtain ⟨hsize, havail⟩ := h.mem_header (b := b) (by simp)
  rw [usable, hsize, havail, h.next_eq]
  cases cs <;> simp

end Links

/-! ## the layout of the blocks -/

/-- The blocks lie in address order below `W` and do not overlap; there may
be gaps between them. -/
structure Layout (H W : Nat) (bs : List Blk) : Prop where
  ordered : bs.Pairwise fun b c => b.stop H ≤ c.addr
  top : ∀ b ∈ bs, b.stop H ≤ W

namespace Layout

variable {ys : List Blk}

theorem addr_lt (h : Layout H W bs) (hH : 0 < H) (hb : b ∈ bs) : b.addr < W := by
  have := h.top b hb
  simp only [Blk.stop] at this
  omega

theorem nodup (h : Layout H W bs) (hH : 0 < H) : (bs.map Blk.addr).Nodup := by
  rw [List.Nodup, List.pairwise_map]
  refine h.ordered.imp fun hbc => ?_
  simp only [Blk.stop] at hbc
  omega

/-- There are at most as many blocks as addresses. -/
theorem length_le (h : Layout H W bs) (hH : 0 < H) : bs.length ≤ W := by
  have hsub : (bs.map Blk.addr).toFinset ⊆ Finset.range W := by
    intro a ha
    simp only [List.mem_toFinset, List.mem_map] at ha
    obtain ⟨b, hb, rfl⟩ := ha
    exact Finset.mem_range.mpr (h.addr_lt hH hb)
  have hcard := Finset.card_le_card hsub
  rwa [List.toFinset_card_of_nodup (h.nodup hH), List.length_map, Finset.card_range] at hcard

/-- **Splice**: a part of the list may be replaced by blocks that lie in
order within the part; at the end of the list they may reach further. -/
theorem splice (h : Layout H E (as ++ ys ++ cs)) (zs : List Blk) (hz : Layout H E zs)
    (hlo : ∀ z ∈ zs, ∃ y ∈ ys, y.addr ≤ z.addr)
    (hhi : ∀ z ∈ zs, cs = [] ∨ ∃ y ∈ ys, z.stop H ≤ y.stop H) : Layout H E (as ++ zs ++ cs) := by
  have ho := h.ordered
  simp only [List.pairwise_append, List.mem_append] at ho
  obtain ⟨⟨has, -, hay⟩, hcs, hacs⟩ := ho
  refine ⟨?_, fun b hb => ?_⟩
  · simp only [List.pairwise_append, List.mem_append]
    refine ⟨⟨has, hz.ordered, fun a ha z hzz => ?_⟩, hcs, fun a ha c hc => ?_⟩
    · obtain ⟨y, hy, hle⟩ := hlo z hzz
      exact (hay a ha y hy).trans hle
    · rcases ha with ha | ha
      · exact hacs a (.inl ha) c hc
      · rcases hhi a ha with rfl | ⟨y, hy, hle⟩
        · simp at hc
        · exact hle.trans (hacs y (.inr hy) c hc)
  · simp only [List.mem_append] at hb
    rcases hb with (hb | hb) | hb
    · exact h.top b (by simp [hb])
    · exact hz.top b hb
    · exact h.top b (by simp [hb])

/-- A block may end earlier. -/
theorem shrink {d : Blk} (h : Layout H E (as ++ b :: cs)) (ha : d.addr = b.addr)
    (hs : d.size ≤ b.size) : Layout H E (as ++ d :: cs) := by
  have htop := h.top b (by simp)
  have hstop : d.stop H ≤ b.stop H := by
    simp only [Blk.stop]
    omega
  rw [List.append_cons] at h ⊢
  exact h.splice [d] ⟨by simp, by simpa using hstop.trans htop⟩ (by simp [ha])
    (by simpa using .inr hstop)

/-- The last block may reach further. -/
theorem extend {b' : Blk} {E' : Nat} (h : Layout H E (as ++ [b])) (ha : b'.addr = b.addr)
    (hE : E ≤ E') (ht : b'.stop H ≤ E') : Layout H E' (as ++ [b']) := by
  have hl : Layout H E' (as ++ [b] ++ []) := by
    rw [List.append_nil]
    exact ⟨h.ordered, fun x hx => (h.top x hx).trans hE⟩
  simpa using hl.splice [b'] ⟨by simp, by simpa using ht⟩ (by simp [ha]) (by simp)

/-- An address in the gap behind a block is the address of no block. -/
theorem addr_ne (h : Layout H E (as ++ b :: cs)) (hH : 0 < H) (hn : b.stop H ≤ n)
    (hc : ∀ c, cs.head? = some c → n < c.addr) : ∀ x ∈ as ++ b :: cs, x.addr ≠ n := by
  have ho := h.ordered
  simp only [List.pairwise_append, List.pairwise_cons] at ho
  obtain ⟨-, ⟨hbc, hcs⟩, hab⟩ := ho
  simp only [Blk.stop] at hn hbc hcs hab
  intro x hx
  simp only [List.mem_append, List.mem_cons] at hx
  rcases hx with hx | rfl | hx
  · have := hab x hx b (by simp)
    omega
  · omega
  · cases cs with
    | nil => simp at hx
    | cons c cs =>
        have hnc := hc c rfl
        rcases List.mem_cons.mp hx with rfl | hx
        · omega
        · have := (List.pairwise_cons.mp hcs).1 x hx
          omega

/-- A new block in the gap behind another one. -/
theorem insert {c : Blk} {F : Nat} (h : Layout H E (as ++ b :: cs)) (hn : b.stop H ≤ c.addr)
    (hc : ∀ d, cs.head? = some d → c.stop H ≤ d.addr) (hE : E ≤ F) (ht : c.stop H ≤ F) :
    Layout H F (as ++ b :: c :: cs) := by
  have ho := h.ordered
  simp only [List.pairwise_append, List.pairwise_cons, List.mem_cons] at ho
  obtain ⟨has, ⟨hbc, hcs⟩, hab⟩ := ho
  have hbs := hab
  simp only [Blk.stop] at hn hc hbc hcs hab ht
  have hcc : ∀ d ∈ cs, c.addr + H + c.size ≤ d.addr := by
    intro d hd
    cases cs with
    | nil => simp at hd
    | cons e es =>
        have hce := hc e rfl
        rcases List.mem_cons.mp hd with rfl | hd
        · exact hce
        · have := (List.pairwise_cons.mp hcs).1 d hd
          omega
  refine ⟨?_, fun x hx => ?_⟩
  · simp only [List.pairwise_append, List.pairwise_cons, List.mem_cons]
    refine ⟨has, ⟨?_, hcc, hcs⟩, ?_⟩
    · rintro x (rfl | hx)
      · exact hn
      · exact hbc x hx
    · rintro x hx y (rfl | rfl | hy)
      · exact hbs x hx y (.inl rfl)
      · have := hab x hx b (.inl rfl)
        simp only [Blk.stop]
        omega
      · exact hbs x hx y (.inr hy)
  · simp only [List.mem_append, List.mem_cons] at hx
    rcases hx with hx | rfl | rfl | hx
    · exact (h.top x (by simp [hx])).trans hE
    · exact (h.top x (by simp)).trans hE
    · exact ht
    · exact (h.top x (by simp [hx])).trans hE

/-- Two neighbours: the first ends before the second. -/
theorem stop_le (h : Layout H W (as ++ b :: c :: cs)) : b.stop H ≤ c.addr := by
  have ho := h.ordered
  simp only [List.pairwise_append, List.pairwise_cons] at ho
  exact ho.2.1.1 c (by simp)

/-- The blocks before another one end where it starts. -/
theorem prefix_top (h : Layout H E (as ++ b :: cs)) : Layout H b.addr as := by
  have ho := h.ordered
  rw [List.pairwise_append] at ho
  exact ⟨ho.1, fun x hx => ho.2.2 x hx b (by simp)⟩

/-- The blocks lie below any larger bound. -/
theorem mono {E' : Nat} (h : Layout H E bs) (hE : E ≤ E') : Layout H E' bs :=
  ⟨h.ordered, fun b hb => (h.top b hb).trans hE⟩

/-- The block that two neighbours become. -/
theorem absorb (h : Layout H E (as ++ b :: c :: cs)) (hH : 0 < H) (hE : E ≤ W) (a : Bool) :
    (b.size + (H + c.size)) % W = b.size + (H + c.size) ∧
      Layout H E (as ++ ⟨b.addr, b.size + (H + c.size), a⟩ :: cs) := by
  have hbc := h.stop_le
  have hc := h.top c (by simp)
  simp only [Blk.stop] at hbc hc
  refine ⟨Nat.mod_eq_of_lt (by omega), ?_⟩
  have hsp := (show Layout H E (as ++ [b, c] ++ cs) by simpa using h).splice
    [⟨b.addr, b.size + (H + c.size), a⟩]
  simp only [List.append_assoc, List.singleton_append] at hsp
  refine hsp ⟨by simp, ?_⟩ ?_ ?_
  · simp only [List.mem_singleton, forall_eq, Blk.stop]
    omega
  · simp
  · simp only [List.mem_singleton, forall_eq]
    refine .inr ⟨c, by simp, ?_⟩
    simp only [Blk.stop]
    omega

end Layout

/-! ## joining free blocks -/

/-- The first address of a nonempty list of blocks that ends with `b`. -/
def start (ds : List Blk) (b : Blk) : Nat := (ds.head?.getD b).addr

/-- **Joining backwards**: the free blocks right before `b` become part of
the block that starts with the first of them. -/
theorem mergeBack_spec {k : Nat} (hH : 0 < H) (hE : E ≤ W) (h : Links m (as ++ b :: cs))
    (hl : Layout H E (as ++ b :: cs)) (hb : b.avail = true) (hk : as.length < k) :
    ∃ as' ds b' m', as = as' ++ ds ∧ (∀ d ∈ ds, d.avail = true) ∧
      (∀ x, as'.getLast? = some x → x.avail = false) ∧
      mergeBack H W k b.addr m = (b'.addr, m') ∧ b'.addr = start ds b ∧ b'.avail = true ∧
      Links m' (as' ++ b' :: cs) ∧ Layout H E (as' ++ b' :: cs) := by
  induction k generalizing as b m with
  | zero => omega
  | succ k ih =>
      rcases List.eq_nil_or_concat' as with rfl | ⟨as, p, rfl⟩
      · have hprev : (m b.addr).prev = none := by rw [h.prev_eq]; rfl
        exact ⟨[], [], b, m, rfl, by simp, by simp, by simp [mergeBack, hprev], rfl, hb, h, hl⟩
      · have hprev : (m b.addr).prev = some p.addr := by rw [h.prev_eq]; simp
        have hpavail : (m p.addr).avail = p.avail := (h.mem_header (by simp)).2
        rw [mergeBack, hprev]
        simp only [hpavail]
        by_cases hp : p.avail = true
        · rw [← List.append_cons] at h hl
          obtain ⟨hmod, hl'⟩ := hl.absorb hH hE p.avail
          have h' := h.absorb (H := H) (W := W)
          rw [hmod] at h'
          obtain ⟨as', ds, b', m', rfl, h1, h2, h3, h4, h5⟩ :=
            ih h' hl' hp (by simp at hk; omega)
          refine ⟨as', ds ++ [p], b', m', by simp, ?_, h2, by simpa [hp] using h3, ?_, h5⟩
          · simpa [or_imp, forall_and, hp] using h1
          · rw [h4]
            cases ds <;> simp [start]
        · exact ⟨as ++ [p], [], b, m, by simp, by simp, by simp [hp], by simp [hp], rfl, hb, h, hl⟩

/-- **Joining forwards**: free blocks right behind `b` become part of it. -/
theorem mergeFront_spec {k : Nat} (hH : 0 < H) (hE : E ≤ W) (h : Links m (as ++ b :: cs))
    (hl : Layout H E (as ++ b :: cs)) (hk : cs.length < k) :
    ∃ es cs' b', cs = es ++ cs' ∧ (∀ e ∈ es, e.avail = true) ∧
      (∀ x xs, cs' = x :: xs → x.avail = false ∨ x.size = 0 ∧ xs ≠ []) ∧
      b'.addr = b.addr ∧ b'.avail = b.avail ∧
      Links (mergeFront H W k b.addr m) (as ++ b' :: cs') ∧ Layout H E (as ++ b' :: cs') := by
  induction k generalizing b cs m with
  | zero => omega
  | succ k ih =>
      cases cs with
      | nil =>
          have hnext : (m b.addr).next = none := by rw [h.next_eq]; rfl
          exact ⟨[], [], b, rfl, by simp, by simp, rfl, rfl, by simpa [mergeFront, hnext], hl⟩
      | cons c cs =>
          have hnext : (m b.addr).next = some c.addr := by rw [h.next_eq]; rfl
          have hc : Links m ((as ++ [b]) ++ c :: cs) := by rw [← List.append_cons]; exact h
          obtain ⟨hcsize, hcavail⟩ := hc.mem_header (b := c) (by simp)
          have hcnext := hc.next_eq
          rw [mergeFront, hnext]
          simp only [hcsize, hcavail, hcnext]
          split
          · next hjoin =>
              obtain ⟨hmod, hl'⟩ := hl.absorb hH hE b.avail
              have h' := h.absorb (H := H) (W := W)
              rw [hmod] at h'
              obtain ⟨es, cs', b', rfl, h1, h2, h3, h4, h5⟩ := ih h' hl' (by simpa using hk)
              refine ⟨c :: es, cs', b', rfl, ?_, h2, h3, h4, h5⟩
              simp only [Bool.and_eq_true] at hjoin
              simpa [hjoin.1] using h1
          · next hjoin =>
              refine ⟨[], c :: cs, b, rfl, by simp, ?_, rfl, rfl, h, hl⟩
              rintro x xs ⟨⟩
              cases hav : c.avail with
              | false => exact .inl rfl
              | true =>
                  simp only [hav, Bool.true_and, Bool.or_eq_true, decide_eq_true_eq, not_or] at hjoin
                  refine .inr ⟨by omega, ?_⟩
                  rintro rfl
                  simp at hjoin

/-! ## free blocks in a row -/

/-- Two neighbours that are both free: the second one is empty. -/
def Beside (x y : Blk) : Prop := x.avail = true → y.avail = true → y.size = 0

/-- Free blocks are joined up to empty blocks, and the last two are not both
free. -/
structure Coalesced (bs : List Blk) : Prop where
  beside : bs.IsChain Beside
  last : ∀ as x y, bs = as ++ [x, y] → x.avail = true → y.avail = false

namespace Coalesced

variable {c : Blk}

theorem nil : Coalesced [] := ⟨.nil, by simp⟩

theorem singleton (b : Blk) : Coalesced [b] where
  beside := .singleton b
  last as x y h := by
    have := congrArg List.length h
    simp at this

/-- The end of a list of blocks. -/
theorem right (h : Coalesced (as ++ cs)) : Coalesced cs where
  beside := (List.isChain_append.mp h.beside).2.1
  last ds x y hs := h.last (as ++ ds) x y (by simp [hs])

/-- A block before a list of blocks. -/
theorem cons (h : Coalesced cs)
    (hb : ∀ x xs, cs = x :: xs → b.avail = true → x.avail = true → x.size = 0 ∧ xs ≠ []) :
    Coalesced (b :: cs) where
  beside := by
    cases cs with
    | nil => exact .singleton b
    | cons x xs => exact .cons_cons (fun h1 h2 => (hb x xs rfl h1 h2).1) h.beside
  last as x y hs hx := by
    cases as with
    | nil =>
        obtain ⟨rfl, rfl⟩ : b = x ∧ cs = [y] := by simpa using hs
        by_contra hy
        exact (hb y [] rfl hx (by simpa using hy)).2 rfl
    | cons a as =>
        obtain ⟨-, hcs⟩ : b = a ∧ cs = as ++ [x, y] := by simpa using hs
        exact h.last as x y hcs hx

/-- Any block in the place of a free one. -/
theorem replace (h : Coalesced (b :: cs)) (hb : b.avail = true) : Coalesced (c :: cs) := by
  have hfront : Coalesced ([b] ++ cs) := h
  have hcs : Coalesced cs := hfront.right
  refine hcs.cons fun x xs hs _ hx => ?_
  subst hs
  refine ⟨(List.isChain_cons_cons.mp h.beside).1 hb hx, ?_⟩
  rintro rfl
  have := h.last [] b x rfl hb
  simp [hx] at this

/-- Two lists of blocks, one behind the other, where no free block comes
before the second one. -/
theorem append (has : as.IsChain Beside) (h : Coalesced (b :: cs))
    (hb : ∀ x, as.getLast? = some x → x.avail = true → b.avail = false) :
    Coalesced (as ++ b :: cs) where
  beside := by
    refine List.isChain_append.mpr ⟨has, h.beside, ?_⟩
    rintro x hx y hy h1 h2
    obtain rfl : b = y := by simpa using hy
    simp [hb x hx h1] at h2
  last ds x y hs hx := by
    rcases List.eq_nil_or_concat' cs with rfl | ⟨cs, z, rfl⟩
    · have hs' : as ++ [b] = (ds ++ [x]) ++ [y] := by simpa using hs
      obtain ⟨rfl, hby⟩ := List.append_inj' hs' rfl
      obtain rfl : b = y := by simpa using hby
      exact hb x (by simp) hx
    · have hs' : (as ++ b :: cs) ++ [z] = (ds ++ [x]) ++ [y] := by simpa using hs
      obtain ⟨hinit, hzy⟩ := List.append_inj' hs' rfl
      obtain rfl : z = y := by simpa using hzy
      rcases List.eq_nil_or_concat' (b :: cs) with hn | ⟨es, w, hes⟩
      · simp at hn
      · have hwx : (as ++ es) ++ [w] = ds ++ [x] := by rw [List.append_assoc, ← hes, hinit]
        obtain rfl : w = x := by simpa using (List.append_inj' hwx rfl).2
        exact h.last es w z (by rw [← List.cons_append, hes]; simp) hx

/-- The blocks up to a place in the list. -/
theorem left (h : Coalesced (as ++ cs)) : as.IsChain Beside := (List.isChain_append.mp h.beside).1

/-- **Nothing in use, one block**: when every block is free, there is at most
one. -/
theorem eq_of_avail (h : Coalesced bs) (ha : ∀ b ∈ bs, b.avail = true) :
    bs = [] ∨ ∃ b, bs = [b] ∧ b.avail = true := by
  rcases List.eq_nil_or_concat' bs with rfl | ⟨bs, y, rfl⟩
  · exact .inl rfl
  · rcases List.eq_nil_or_concat' bs with rfl | ⟨bs, x, rfl⟩
    · exact .inr ⟨y, rfl, ha y (by simp)⟩
    · have := h.last bs x y (by simp) (ha x (by simp))
      simp [ha y] at this

end Coalesced

/-! ## regions handed out -/

/-- A region: where it starts and how much was asked for. -/
structure Region where
  ptr : Nat
  size : Nat
  deriving DecidableEq, Repr

/-- The region is the beginning of the payload of a block that is not free. -/
def Held (H : Nat) (bs : List Blk) (r : Region) : Prop :=
  ∃ b ∈ bs, b.avail = false ∧ r.ptr = b.addr + H ∧ r.size ≤ b.size

/-- Two ranges of addresses share no address. -/
def Apart (a n a' n' : Nat) : Prop := a + n ≤ a' ∨ a' + n' ≤ a

theorem Layout.apart (h : Layout H W bs) (hb : b ∈ bs) (hc : c ∈ bs) (hne : b ≠ c) :
    b.stop H ≤ c.addr ∨ c.stop H ≤ b.addr := by
  let R : Blk → Blk → Prop := fun b c => b.stop H ≤ c.addr ∨ c.stop H ≤ b.addr
  have : Std.Symm R := ⟨fun _ _ => Or.symm⟩
  have hR : bs.Pairwise R := h.ordered.imp fun hbc => Or.inl hbc
  exact hR.forall hb hc hne

/-- **Regions are disjoint** from each other. -/
theorem Held.apart {r r' : Region} (h : Layout H W bs) (hr : Held H bs r) (hr' : Held H bs r')
    (hne : r.ptr ≠ r'.ptr) : Apart r.ptr r.size r'.ptr r'.size := by
  obtain ⟨b, hb, -, h1, h2⟩ := hr
  obtain ⟨c, hc, -, h3, h4⟩ := hr'
  have hbc : b ≠ c := by
    rintro rfl
    exact hne (h1.trans h3.symm)
  have := h.apart hb hc hbc
  simp only [Apart, Blk.stop] at this ⊢
  omega

/-- **Regions are disjoint from the headers.** -/
theorem Held.apart_header {r : Region} (h : Layout H W bs) (hr : Held H bs r) (hc : c ∈ bs) :
    Apart r.ptr r.size c.addr H := by
  obtain ⟨b, hb, -, h1, h2⟩ := hr
  by_cases hbc : b = c
  · subst hbc
    simp only [Apart]
    omega
  · have := h.apart hb hc hbc
    simp only [Apart, Blk.stop] at this ⊢
    omega

end Blocks
