import Eclair.Basic
import Eclair.Lib.Blocks

/-!
# Eclair.Libc.Memory

The heap of `libc/memory.c`, on the blocks of `Eclair.Lib.Blocks` with
headers of 16 bytes and grown by `ec_sbrk`.

* the last block is always in use: a free one is given back to the kernel;
* the first block is the empty one that `__libc_init_heap` makes and is
  never handed out.

`split_block` gives the rest of a block the size of the request, whatever
the rest is.  `Roomy` is when this does no harm.
-/

namespace Eclair

open Blocks

/-- `sizeof(struct hblock)`. -/
def HBLK : Nat := 16

def TASK_MINBRKP : Nat := 0x800000
def TASK_MAXBRKP : Nat := 0xB0000000

/-- The first block, the headers in memory, and the program break of the
task. -/
structure LibcHeap where
  first : Nat
  mem : Mem
  brkp : Nat

namespace LibcHeap

/-- Change the headers. -/
def withMem (m : Mem) (h : LibcHeap) : LibcHeap := { h with mem := m }

/-- Change one header. -/
def write (b : Nat) (f : Header → Header) (h : LibcHeap) : LibcHeap :=
  h.withMem (Blocks.write b f h.mem)

section

variable (b : Nat) (f : Header → Header) (m : Mem) (h : LibcHeap)

@[simp] theorem withMem_first : (h.withMem m).first = h.first := rfl
@[simp] theorem withMem_brkp : (h.withMem m).brkp = h.brkp := rfl
@[simp] theorem withMem_mem : (h.withMem m).mem = m := rfl
@[simp] theorem write_first : (h.write b f).first = h.first := rfl
@[simp] theorem write_brkp : (h.write b f).brkp = h.brkp := rfl
@[simp] theorem write_mem : (h.write b f).mem = Blocks.write b f h.mem := rfl

end

end LibcHeap

/-! ## the functions -/

/-- `task_sbrk`, pages aside: the old break and the new one. -/
def taskSbrk (inc brkp : Nat) : Option (Nat × Nat) :=
  let brkp' := u32 (brkp + inc)
  if brkp' < TASK_MINBRKP ∨ TASK_MAXBRKP ≤ brkp' then none else some (brkp, brkp')

/-- `ec_sbrk`. -/
def ecSbrk (inc : Nat) (h : LibcHeap) : Option (Nat × LibcHeap) :=
  (taskSbrk inc h.brkp).map fun r => (r.1, { h with brkp := r.2 })

/-- `__libc_init_heap`. -/
def libcInitHeap (brkp : Nat) : Option LibcHeap :=
  (taskSbrk HBLK brkp).map fun r => ⟨r.1, fun _ => {}, r.2⟩

/-- `find_block`.  When there is no memory left, `l->next` stays `NULL`. -/
def findBlock (size : Nat) (h : LibcHeap) : Option (Nat × LibcHeap) :=
  match find (usable size) h.mem FUEL h.first with
  | .ok p => some (p, h)
  | .error l => (ecSbrk (u32 (HBLK + size)) h).map fun r =>
      (r.1, r.2.withMem (append l r.1 r.2.mem))

/-- `split_block`. -/
def splitBlock (b size : Nat) (h : LibcHeap) : LibcHeap :=
  if (h.mem b).size < u32 (size + HBLK) then h
  else
    let n := u32 (b + HBLK + size)
    let h := h.withMem (insertAfter b n (sub32 (sub32 (h.mem b).size size) HBLK) h.mem)
    -- `next->size` is assigned a second time
    h.write n fun x => { x with size := size }

/-- `merge_block`. -/
def mergeBlock (b : Nat) (h : LibcHeap) : Nat × LibcHeap :=
  let r := mergeBack HBLK (2 ^ 32) FUEL b h.mem
  (r.1, h.withMem (mergeFront HBLK (2 ^ 32) FUEL r.1 r.2))

/-- `ec_sbrk(-n)`; that it fails goes unnoticed. -/
def giveBack (n : Nat) (h : LibcHeap) : LibcHeap :=
  match ecSbrk (sub32 0 (u32 n)) h with
  | some r => r.2
  | none => h

/-- `free`. -/
def free (ptr : Nat) (h : LibcHeap) : LibcHeap :=
  let b := sub32 ptr HBLK
  let r := mergeBlock b (h.write b fun x => { x with avail := true })
  let b := r.1
  let h := r.2
  if (h.mem b).next.isNone then
    let h := h.withMem (dropLast b h.mem)
    giveBack (HBLK + (h.mem b).size) h
  else h

/-- `malloc` once it has a block. -/
def mallocTake (b size : Nat) (h : LibcHeap) : LibcHeap :=
  let h := h.write b fun x => { x with avail := false }
  let h := splitBlock b size h
  h.write b fun x => { x with size := size }

/-- `malloc`. -/
def malloc (size : Nat) (h : LibcHeap) : Option Nat × LibcHeap :=
  let size := align size 4
  match findBlock size h with
  | none => (none, h)
  | some (b, h) => (some (u32 (b + HBLK)), mallocTake b size h)

/-! ## when a request does no harm -/

/-- A found block that will be split has room for the request twice; a new
block ends below `2^32`. -/
def RoomyAt (size : Nat) (h : LibcHeap) : Except Nat Nat → Prop
  | .ok b => size + HBLK ≤ (h.mem b).size →
      ∀ n ∈ (h.mem b).next, b + HBLK + size + HBLK + size ≤ n
  | .error _ => h.brkp + HBLK + size < 2 ^ 32

instance (size : Nat) (h : LibcHeap) : ∀ r, Decidable (RoomyAt size h r)
  | .ok _ => inferInstanceAs (Decidable (_ → _))
  | .error _ => inferInstanceAs (Decidable (_ < _))

/-- The request can be rounded up, and there is room for it where
`find_block` finds it. -/
def Roomy (size : Nat) (h : LibcHeap) : Prop :=
  size + 3 < 2 ^ 32 ∧
    RoomyAt (align size 4) h (find (usable (align size 4)) h.mem FUEL h.first)

instance (size : Nat) (h : LibcHeap) : Decidable (Roomy size h) :=
  inferInstanceAs (Decidable (_ ∧ _))

/-! ## the list of blocks -/

/-- The blocks of the heap: in address order below the program break, the
first one the empty one, the last one in use. -/
structure LibcRep (h : LibcHeap) (bs : List Blk) : Prop where
  links : Links h.mem bs
  layout : Layout HBLK h.brkp bs
  brkp : h.brkp < 2 ^ 32
  head : bs.head? = some ⟨h.first, 0, false⟩
  last : ∀ b ∈ bs.getLast?, b.avail = false

theorem HBLK_pos : 0 < HBLK := by decide

theorem taskSbrk_eq_some {inc brkp : Nat} {r : Nat × Nat} (h : taskSbrk inc brkp = some r) :
    r = (brkp, u32 (brkp + inc)) := by
  simp only [taskSbrk, Option.ite_none_left_eq_some, Option.some.injEq] at h
  exact h.2.symm

variable {h h' : LibcHeap} {as bs cs : List Blk} {b : Blk} {size p : Nat}

theorem ecSbrk_eq_some {inc : Nat} {r : Nat × LibcHeap} (hs : ecSbrk inc h = some r) :
    r = (h.brkp, { h with brkp := u32 (h.brkp + inc) }) := by
  obtain ⟨r', hr', rfl⟩ := Option.map_eq_some_iff.mp hs
  rw [taskSbrk_eq_some hr']

theorem libcRep_libcInitHeap {brkp : Nat} (hb : brkp + HBLK < 2 ^ 32)
    (hi : libcInitHeap brkp = some h) : LibcRep h [⟨brkp, 0, false⟩] := by
  obtain ⟨r, hr, rfl⟩ := Option.map_eq_some_iff.mp hi
  rw [taskSbrk_eq_some hr, u32_of_lt hb]
  exact ⟨⟨⟨rfl, trivial⟩, by simp⟩, ⟨by simp, by simp [Blk.stop]⟩, hb, rfl, by simp⟩

namespace LibcRep

/-- A free block, or one behind the first, has the first before it. -/
theorem behind_head (hr : LibcRep h (as ++ b :: cs)) (hb : b ≠ ⟨h.first, 0, false⟩) :
    ∃ as', as = ⟨h.first, 0, false⟩ :: as' := by
  have hh := hr.head
  cases as with
  | nil => exact absurd (by simpa using hh) hb
  | cons x xs => exact ⟨xs, by simpa using hh⟩

/-- There is enough fuel for every walk over the blocks. -/
theorem length_le (hr : LibcRep h bs) : bs.length ≤ FUEL :=
  (hr.layout.length_le HBLK_pos).trans hr.brkp.le

/-- The search ends at a free block in the middle that is long enough, or at
the last block. -/
theorem find (hr : LibcRep h bs) (size : Nat) :
    (∃ as b c cs, bs = ⟨h.first, 0, false⟩ :: as ++ b :: c :: cs ∧ b.avail = true ∧
        size ≤ b.size ∧ find (usable size) h.mem FUEL h.first = .ok b.addr) ∨
      ∃ as b, bs = as ++ [b] ∧ find (usable size) h.mem FUEL h.first = .error b.addr := by
  have hhead : bs.head?.map Blk.addr = some h.first := by rw [hr.head]; rfl
  rcases hr.links.find_first (t := usable size) hhead hr.length_le with
    ⟨as, b, cs, rfl, hf, hok⟩ | ⟨as, b, rfl, hf, -⟩
  · obtain ⟨hfits, havail⟩ := hr.links.usable_iff.mp hok
    obtain ⟨as', rfl⟩ := hr.behind_head (by rintro rfl; simp at havail)
    cases cs with
    | nil =>
        have hlast := hr.last b (by rw [Option.mem_def, List.getLast?_concat])
        rw [havail] at hlast
        contradiction
    | cons c cs => exact .inl ⟨as', b, c, cs, rfl, havail, by simpa using hfits, hf⟩
  · exact .inr ⟨as, b, rfl, hf⟩

end LibcRep

/-- A change between the first block and one behind. -/
theorem LibcRep.change {f c : Blk} {m : Mem} {z : List Blk}
    (hr : LibcRep h (f :: as ++ b :: c :: cs)) (hm : Links m (f :: as ++ (z ++ c :: cs)))
    (hl : Layout HBLK h.brkp (f :: as ++ (z ++ c :: cs))) :
    LibcRep (h.withMem m) (f :: as ++ (z ++ c :: cs)) where
  links := hm
  layout := hl
  brkp := hr.brkp
  head := hr.head
  last x hx := by
    have hlast := hr.last x
    rw [List.getLast?_append_of_ne_nil _ (by simp), List.getLast?_cons_cons] at hlast
    rw [List.getLast?_append_of_ne_nil _ (by simp),
      List.getLast?_append_of_ne_nil _ (by simp)] at hx
    exact hlast hx

/-! ## taking a block -/

/-- What `malloc` leaves: one more block in use, with the size asked for, and
the blocks in use before. -/
structure Taken (size a : Nat) (bs : List Blk) (h : LibcHeap) (bs' : List Blk) (h' : LibcHeap) :
    Prop where
  rep : LibcRep h' bs'
  first : h'.first = h.first
  mem : ⟨a, size, false⟩ ∈ bs'
  used : ∀ x ∈ bs, x.avail = false → x ∈ bs' ∧ x.addr ≠ a

/-- The blocks in use when a free one is taken. -/
theorem used_take {xs : List Blk} (hr : Links h.mem (as ++ b :: cs)) (hb : b.avail = true) :
    ∀ x ∈ as ++ b :: cs, x.avail = false →
      x ∈ as ++ (⟨b.addr, size, false⟩ :: xs ++ cs) ∧ x.addr ≠ b.addr := by
  intro x hx hxa
  obtain ⟨hne, hne'⟩ := hr.ne_addr
  simp only [List.mem_append, List.mem_cons] at hx ⊢
  rcases hx with hx | rfl | hx
  · exact ⟨.inl hx, hne x hx⟩
  · rw [hb] at hxa
    contradiction
  · exact ⟨.inr (.inr hx), hne' x hx⟩

/-- Taking a free block that is not split. -/
theorem mallocTake_whole {f c : Blk} (hr : LibcRep h (f :: as ++ b :: c :: cs))
    (hb : b.avail = true) (hsize : size ≤ b.size) (hlt : b.size < size + HBLK) :
    ∃ bs', Taken size b.addr (f :: as ++ b :: c :: cs) h bs' (mallocTake b.addr size h) := by
  have htop := hr.layout.top b (by simp)
  simp only [Blk.stop] at htop
  have h1 := hr.links.write (d := ⟨b.addr, b.size, false⟩)
    (f := fun x => { x with avail := false }) rfl fun _ _ => rfl
  have hmem := (h1.mem_header (b := ⟨b.addr, b.size, false⟩) (by simp)).1
  have hno : splitBlock b.addr size (h.write b.addr fun x => { x with avail := false }) =
      h.write b.addr fun x => { x with avail := false } := by
    rw [splitBlock, LibcHeap.write_mem, hmem, u32_of_lt (by have := hr.brkp; omega), if_pos hlt]
  have h2 := h1.write (d := ⟨b.addr, size, false⟩) (f := fun x => { x with size := size }) rfl
    fun _ _ => rfl
  rw [mallocTake, hno]
  exact ⟨_, hr.change (z := [_]) h2 (hr.layout.shrink rfl hsize), rfl, by simp,
    used_take hr.links hb⟩

/-- Taking a free block that is split, with room for the request twice. -/
theorem mallocTake_split {f c : Blk} (hr : LibcRep h (f :: as ++ b :: c :: cs))
    (hb : b.avail = true) (hsize : size + HBLK ≤ b.size)
    (hroom : b.addr + HBLK + size + HBLK + size ≤ c.addr) :
    ∃ bs', Taken size b.addr (f :: as ++ b :: c :: cs) h bs' (mallocTake b.addr size h) := by
  have htop := hr.layout.top b (by simp)
  have hctop := hr.layout.top c (by simp)
  have hbrkp := hr.brkp
  simp only [Blk.stop] at htop hctop
  obtain ⟨n, hn⟩ : ∃ n, n = b.addr + HBLK + size := ⟨_, rfl⟩
  have h1 := hr.links.write (d := ⟨b.addr, b.size, false⟩)
    (f := fun x => { x with avail := false }) rfl fun _ _ => rfl
  have hmem := (h1.mem_header (b := ⟨b.addr, b.size, false⟩) (by simp)).1
  have hshrink := hr.layout.shrink (d := ⟨b.addr, size, false⟩) rfl (by simp only; omega)
  have hfresh := hshrink.addr_ne HBLK_pos (n := n) (by simp only [Blk.stop]; omega) (by
    rintro _ ⟨⟩
    have := HBLK_pos
    omega)
  -- the new block behind it, first with the rest of the size and then with the size asked for
  have h2 := h1.insertAfter (n := n) (z := sub32 (sub32 b.size size) HBLK) (by
    intro x hx
    rcases List.mem_append.mp hx with hx | hx
    · exact hfresh x (List.mem_append_left _ hx)
    · rcases List.mem_cons.mp hx with rfl | hx
      · exact hfresh ⟨b.addr, size, false⟩ (by simp)
      · exact hfresh x (List.mem_append_right _ (List.mem_cons_of_mem _ hx)))
  rw [List.append_cons] at h2
  have h3 := h2.write (d := ⟨n, size, true⟩) (f := fun x => { x with size := size }) rfl
    fun _ _ => rfl
  rw [← List.append_cons] at h3
  have h4 := h3.write (d := ⟨b.addr, size, false⟩) (f := fun x => { x with size := size }) rfl
    fun _ _ => rfl
  have hlay := hshrink.insert (c := ⟨n, size, true⟩) (by simp only [Blk.stop]; omega)
    (by
      rintro _ ⟨⟩
      simp only [Blk.stop]
      omega) le_rfl (by simp only [Blk.stop]; omega)
  rw [mallocTake, splitBlock, LibcHeap.write_mem, hmem, u32_of_lt (by omega),
    if_neg (by simp only; omega), u32_of_lt (n := b.addr + HBLK + size) (by omega), ← hn]
  exact ⟨_, hr.change (z := [_, _]) h4 hlay, rfl, by simp, used_take hr.links hb⟩

/-- Taking a new block from `ec_sbrk`. -/
theorem mallocTake_append (hr : LibcRep h (as ++ [b])) (hE : h.brkp + HBLK + size < 2 ^ 32) :
    ∃ bs', Taken size h.brkp (as ++ [b]) h bs' (mallocTake h.brkp size
      ⟨h.first, append b.addr h.brkp h.mem, h.brkp + (HBLK + size)⟩) := by
  have htop := hr.layout.top b (by simp)
  have hfresh := hr.layout.addr_ne HBLK_pos (n := h.brkp) htop (by simp)
  have h1 := hr.links.append hfresh
  rw [List.append_cons] at h1
  have h2 := h1.write (d := ⟨h.brkp, 0, false⟩) (f := fun x => { x with avail := false }) rfl
    fun _ _ => rfl
  have hmem := (h2.mem_header (b := ⟨h.brkp, 0, false⟩) (by simp)).1
  have h3 := h2.write (d := ⟨h.brkp, size, false⟩) (f := fun x => { x with size := size }) rfl
    fun _ _ => rfl
  have hlay : Layout HBLK (h.brkp + (HBLK + size)) (as ++ [b] ++ [⟨h.brkp, size, false⟩]) := by
    simpa using hr.layout.insert (c := ⟨h.brkp, size, false⟩) htop (by simp)
      (Nat.le_add_right _ _) (by simp only [Blk.stop]; omega)
  rw [mallocTake, splitBlock, LibcHeap.write_mem, hmem, u32_of_lt (by omega),
    if_pos (by simp only [HBLK]; omega)]
  refine ⟨_, ⟨h3, hlay, ?_, ?_, by simp⟩, rfl, by simp,
    fun x hx hxa => ⟨List.mem_append_left _ hx, hfresh x hx⟩⟩
  · simp only [LibcHeap.write_brkp]
    omega
  · have hh := hr.head
    cases as <;> simpa using hh

/-- A `malloc` that succeeds takes the block that it finds. -/
theorem malloc_eq_some (hm : malloc size h = (some p, h')) :
    ∃ b h₁, findBlock (align size 4) h = some (b, h₁) ∧ p = u32 (b + HBLK) ∧
      h' = mallocTake b (align size 4) h₁ := by
  unfold malloc at hm
  dsimp only at hm
  cases hf : findBlock (align size 4) h with
  | none => simp [hf] at hm
  | some r =>
      simp only [hf, Prod.mk.injEq, Option.some.injEq] at hm
      exact ⟨r.1, r.2, rfl, hm.1.symm, hm.2.symm⟩

/-- **`malloc`** of a request that does no harm. -/
theorem malloc_spec (hr : LibcRep h bs) (hroom : Roomy size h)
    (hm : malloc size h = (some p, h')) :
    ∃ a bs', p = a + HBLK ∧ Taken (align size 4) a bs h bs' h' := by
  obtain ⟨hlt, hroom⟩ := hroom
  obtain ⟨a, h₁, hfind, rfl, rfl⟩ := malloc_eq_some hm
  have hbrkp := hr.brkp
  rw [findBlock] at hfind
  rcases hr.find (align size 4) with ⟨as, b, c, cs, rfl, havail, hsize, hf⟩ | ⟨as, b, rfl, hf⟩
  · -- a block in the middle of the list
    rw [hf] at hroom hfind
    simp only [Option.some.injEq, Prod.mk.injEq] at hfind
    obtain ⟨rfl, rfl⟩ := hfind
    have htop := hr.layout.top b (by simp)
    simp only [Blk.stop] at htop
    have hmem := (hr.links.mem_header (b := b) (by simp)).1
    rw [RoomyAt, hmem, hr.links.next_eq] at hroom
    rw [u32_of_lt (by omega)]
    by_cases hsplit : align size 4 + HBLK ≤ b.size
    · obtain ⟨bs', ht⟩ := mallocTake_split hr havail hsplit (hroom hsplit c.addr rfl)
      exact ⟨b.addr, bs', rfl, ht⟩
    · obtain ⟨bs', ht⟩ := mallocTake_whole hr havail hsize (by omega)
      exact ⟨b.addr, bs', rfl, ht⟩
  · -- a new block behind the last one
    rw [hf] at hroom hfind
    obtain ⟨r, hsbrk, hr'⟩ := Option.map_eq_some_iff.mp hfind
    obtain rfl := ecSbrk_eq_some hsbrk
    simp only [Prod.mk.injEq] at hr'
    obtain ⟨rfl, rfl⟩ := hr'
    rw [RoomyAt] at hroom
    obtain ⟨bs', ht⟩ := mallocTake_append hr hroom
    rw [u32_of_lt (by omega), u32_of_lt (n := HBLK + align size 4) (by omega),
      u32_of_lt (n := h.brkp + (HBLK + align size 4)) (by omega)]
    exact ⟨h.brkp, bs', rfl, ht⟩

/-! ## freeing a block -/

/-- The break goes down by `n`, or stays. -/
theorem giveBack_eq {n : Nat} (hn : n ≤ h.brkp) (hb : h.brkp < 2 ^ 32) :
    giveBack n h = { h with brkp := h.brkp - n } ∨ giveBack n h = h := by
  have hbrk : u32 (h.brkp + sub32 0 (u32 n)) = h.brkp - n := by
    rw [u32_of_lt (n := n) (by omega), sub32, u32_of_lt (n := n) (by omega), u32, u32]
    omega
  unfold giveBack
  cases hs : ecSbrk (sub32 0 (u32 n)) h with
  | none => exact .inr rfl
  | some r =>
      rw [ecSbrk_eq_some hs, hbrk]
      exact .inl rfl

/-- The blocks below what is given back stay. -/
theorem LibcRep.giveBack {n : Nat} (hr : LibcRep h bs) (hn : n ≤ h.brkp)
    (hl : Layout HBLK (h.brkp - n) bs) :
    LibcRep (giveBack n h) bs ∧ (giveBack n h).first = h.first := by
  have hb := hr.brkp
  rcases giveBack_eq hn hb with heq | heq
  · rw [heq]
    exact ⟨⟨hr.links, hl, by simp only; omega, hr.head, hr.last⟩, rfl⟩
  · rw [heq]
    exact ⟨hr, rfl⟩

/-- **`free`** of a block in use behind the first: the other blocks in use
stay. -/
theorem free_spec (hr : LibcRep h (as ++ b :: cs)) (hb : b.addr ≠ h.first) :
    ∃ bs', LibcRep (free (b.addr + HBLK) h) bs' ∧ (free (b.addr + HBLK) h).first = h.first ∧
      ∀ x ∈ as ++ cs, x.avail = false → x ∈ bs' := by
  have htop := hr.layout.top b (by simp)
  have hbrkp := hr.brkp
  have hlen := hr.length_le
  simp only [Blk.stop] at htop
  simp only [List.length_append, List.length_cons] at hlen
  have hptr : sub32 (b.addr + HBLK) HBLK = b.addr := by
    rw [sub32_of_le (by omega) (by omega)]
    omega
  have h1 := hr.links.write (d := ⟨b.addr, b.size, true⟩) (f := fun x => { x with avail := true })
    rfl fun _ _ => rfl
  have hlay := hr.layout.shrink (d := ⟨b.addr, b.size, true⟩) rfl le_rfl
  obtain ⟨as, rfl⟩ := hr.behind_head (by rintro rfl; exact hb rfl)
  obtain ⟨as', ds, b₁, m₁, hsplit, hds, hback, hmerge, -, -, hlinks₁, hlay₁⟩ :=
    mergeBack_spec (k := FUEL) HBLK_pos hbrkp.le h1 hlay rfl (by omega)
  -- the first block is in use, so it is not among the joined ones
  obtain ⟨as', rfl, rfl⟩ : ∃ as'', as' = ⟨h.first, 0, false⟩ :: as'' ∧ as = as'' ++ ds := by
    cases as' with
    | nil =>
        have hfirst := hds ⟨h.first, 0, false⟩ (by rw [← List.nil_append ds, ← hsplit]; simp)
        simp at hfirst
    | cons x xs =>
        obtain ⟨rfl, rfl⟩ := List.cons.inj hsplit
        exact ⟨xs, rfl, rfl⟩
  obtain ⟨es, cs', b₂, rfl, hes, -, haddr, -, hlinks₂, hlay₂⟩ :=
    mergeFront_spec (k := FUEL) HBLK_pos hbrkp.le hlinks₁ hlay₁ (by omega)
  have hused : ∀ x ∈ ⟨h.first, 0, false⟩ :: (as' ++ ds) ++ (es ++ cs'), x.avail = false →
      x ∈ ⟨h.first, 0, false⟩ :: as' ++ cs' := by
    intro x hx hxa
    have hxd : x ∉ ds := fun hx' => by simp [hds x hx'] at hxa
    have hxe : x ∉ es := fun hx' => by simp [hes x hx'] at hxa
    simp only [List.mem_append, List.mem_cons] at hx hxd hxe ⊢
    grind
  obtain ⟨m₂, hm₂⟩ : ∃ m₂, mergeFront HBLK (2 ^ 32) FUEL b₁.addr m₁ = m₂ := ⟨_, rfl⟩
  have hfree : mergeBlock b.addr (h.write b.addr fun x => { x with avail := true }) =
      (b₁.addr, h.withMem m₂) := by
    rw [mergeBlock, LibcHeap.write_mem, hmerge, hm₂]
    rfl
  rw [hm₂] at hlinks₂
  have hnext := hlinks₂.next_eq
  have hsize := (hlinks₂.mem_header (b := b₂) (by simp)).1
  rw [haddr] at hnext hsize
  rw [free, hptr, hfree]
  simp only [LibcHeap.withMem_mem, hnext]
  cases cs' with
  | nil =>
      -- the joined block is the last one: it is given back
      have hlinks₃ := hlinks₂.dropLast
      have hbtop := hlay₂.top b₂ (by simp)
      have hlay₃ := hlay₂.prefix_top
      simp only [Blk.stop] at hbtop
      simp only [List.append_nil] at hused
      simp only [List.head?_nil, Option.map_none, Option.isNone_none, if_true, dropLast_size, hsize]
      rw [haddr] at hlinks₃
      have hrep : LibcRep (h.withMem (dropLast b₁.addr m₂)) (⟨h.first, 0, false⟩ :: as') :=
        ⟨hlinks₃, hlay₃.mono (show b₂.addr ≤ h.brkp by omega), hbrkp, rfl, hback⟩
      obtain ⟨hrep, hfirst⟩ := hrep.giveBack (n := HBLK + b₂.size)
        (show HBLK + b₂.size ≤ h.brkp by omega)
        (hlay₃.mono (show b₂.addr ≤ h.brkp - (HBLK + b₂.size) by omega))
      exact ⟨_, hrep, hfirst, by simpa using hused⟩
  | cons c cs' =>
      simp only [List.head?_cons, Option.map_some, Option.isNone_some, Bool.false_eq_true, if_false]
      refine ⟨_, ⟨hlinks₂, hlay₂, hbrkp, rfl, ?_⟩, rfl, fun x hx hxa => ?_⟩
      · have hlast := hr.last
        rw [List.getLast?_append_of_ne_nil _ (by simp)] at hlast ⊢
        rw [← List.cons_append, List.getLast?_append_of_ne_nil _ (by simp)] at hlast
        exact hlast
      · have := hused x hx hxa
        simp only [List.mem_append, List.mem_cons] at this ⊢
        grind

end Eclair
