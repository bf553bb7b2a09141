import Eclair.Lib.System
import Eclair.Libc.Memory
import Eclair.Mm.Paging

/-!
# Eclair.Task.UserPages

The pages that a task asks for: `task_sbrk` with the pages below the break,
and `task_mmap` with the table of special mappings.

`task_sbrk` tests the sum of break and increment after it has wrapped, and
takes a page on frame 0 for one that is not mapped (`sbrkRight_iff`).
`task_mmap` looks only where a request begins and ends (`mmapsRight_iff`).
-/

namespace Eclair

def TASK_PROG_START : Nat := 0x800
def TASK_MAXMAPPINGS : Nat := 32

/-- An entry of `mappings`. -/
structure Mapping where
  used : Bool
  start : UInt32
  «end» : UInt32
  deriving DecidableEq

/-- What a task has of its address space. -/
structure UserSpace where
  brkp : Nat
  mappings : List Mapping
  paging : Paging

/-! ## the break -/

/-- Release the pages of a range that are on a frame. -/
def freeRange (pgs : List Nat) (p : Paging) : Paging :=
  pgs.foldl (fun p i =>
    let fr := pageGetFrame i p
    if fr ≠ 0 then pageUnmap i (pageFrameFree fr p) else p) p

/-- `ALIGN(brkp, 0x1000) >> 12`. -/
def pageUp (brkp : Nat) : Nat := align brkp 0x1000 / 4096

/-- `for (i = start; i < end; i++)`. -/
def pageSpan (start «end» : Nat) : List Nat := List.range' start («end» - start)

namespace UserSpace

/-- `task_sbrk`: the old break, or `NULL`. -/
def sbrk (inc : Int) (t : UserSpace) : Option Nat × UserSpace :=
  match taskSbrk (inc % 2 ^ 32).toNat t.brkp with
  | none => (none, t)
  | some (obrkp, brkp) =>
      let paging := if obrkp < brkp then
          mapRange .page (pageSpan (pageUp obrkp) (pageUp brkp)) t.paging
        else freeRange (pageSpan (pageUp brkp) (pageUp obrkp)) t.paging
      (some obrkp, { t with brkp := brkp, paging := paging })

/-- A page of the program below the break. -/
def Below (brkp pg : Nat) : Prop := TASK_PROG_START ≤ pg ∧ pg * 4096 < brkp

/-- The break is in its range, and the pages below it are mapped. -/
structure BreakInv (t : UserSpace) : Prop where
  min : TASK_MINBRKP ≤ t.brkp
  max : t.brkp < TASK_MAXBRKP
  mapped : ∀ pg, Below t.brkp pg → pageIsMapped pg t.paging

/-- The break that is asked for is in range. -/
def InRange (inc : Int) (t : UserSpace) : Prop :=
  TASK_MINBRKP ≤ t.brkp + inc ∧ t.brkp + inc < TASK_MAXBRKP

instance (inc : Int) (t : UserSpace) : Decidable (t.InRange inc) :=
  inferInstanceAs (Decidable (_ ∧ _))

/-- `task_sbrk` succeeds exactly if the sum is in range, moves the break there
and has the pages below it mapped and those above it, up to the old break,
unmapped; a call that fails changes nothing. -/
structure SbrkRight (t : UserSpace) (inc : Int) (r : Option Nat) (t' : UserSpace) : Prop where
  result : r = if t.InRange inc then some t.brkp else none
  brkp : r.isSome → (t'.brkp : Int) = t.brkp + inc
  mapped : r.isSome → ∀ pg, Below t'.brkp pg → pageIsMapped pg t'.paging
  freed : r.isSome → ∀ pg, t'.brkp ≤ pg * 4096 → pg * 4096 < t.brkp → ¬ pageIsMapped pg t'.paging
  failed : r = none → t' = t

/-- Neither does the sum wrap into the range, nor is a page to be freed on
frame 0. -/
structure SbrkFits (t : UserSpace) (inc : Int) : Prop where
  below : t.brkp + inc < 0 → TASK_MAXBRKP ≤ t.brkp + inc + 2 ^ 32
  above : 2 ^ 32 ≤ t.brkp + inc → t.brkp + inc < 2 ^ 32 + TASK_MINBRKP
  frames : t.InRange inc → ∀ pg : Nat, t.brkp + inc ≤ pg * 4096 → pg * 4096 < t.brkp →
    pageIsMapped pg t.paging → pageGetFrame pg t.paging ≠ 0

end UserSpace

/-! ## pages of the break -/

open UserSpace

variable {t : UserSpace} {inc : Int} {p : Paging} {q i brkp : Nat}

theorem pageIsMapped_pageUnmap : pageIsMapped i (pageUnmap i p) = false := by
  unfold pageUnmap
  split
  · next h => simp [pageIsMapped, Option.isNone_iff_eq_none.mp h]
  · simp [pageIsMapped]

/-- Freeing a range leaves the pages outside and those on frame 0. -/
theorem pageIsMapped_freeRange {pgs : List Nat} :
    pageIsMapped q (freeRange pgs p) = true ↔
      pageIsMapped q p = true ∧ (q ∈ pgs → pageGetFrame q p = 0) := by
  unfold freeRange
  induction pgs generalizing p with
  | nil => simp
  | cons i pgs ih =>
      rw [List.foldl_cons, ih]
      by_cases h0 : pageGetFrame i p = 0
      · rw [if_neg (by simpa using h0)]
        by_cases hq : q = i
        · subst hq
          simp [h0]
        · simp [hq]
      · rw [if_pos h0]
        by_cases hq : q = i
        · subst hq
          simp [pageIsMapped_pageUnmap, h0]
        · obtain ⟨hf, hm⟩ := page_release (p := p) hq (pageGetFrame i p)
          simp [hf, hm, hq]

theorem pageUp_le_iff (h : brkp < TASK_MAXBRKP) : pageUp brkp ≤ q ↔ brkp ≤ q * 4096 := by
  rw [TASK_MAXBRKP] at h
  rw [pageUp, align_of_lt (by omega)]
  omega

theorem mem_pageSpan {a b : Nat} (ha : a < TASK_MAXBRKP) (hb : b < TASK_MAXBRKP) :
    q ∈ pageSpan (pageUp a) (pageUp b) ↔ a ≤ q * 4096 ∧ q * 4096 < b := by
  have h1 := pageUp_le_iff (q := q) ha
  have h2 := pageUp_le_iff (q := q) hb
  rw [pageSpan, List.mem_range'_1]
  omega

/-! ## `task_sbrk` -/

/-- The sum as the code gets it. -/
theorem taskSbrk_eq (inc : Int) :
    taskSbrk (inc % 2 ^ 32).toNat t.brkp =
      if TASK_MINBRKP ≤ (t.brkp + inc) % 2 ^ 32 ∧ (t.brkp + inc) % 2 ^ 32 < TASK_MAXBRKP then
        some (t.brkp, ((t.brkp + inc) % 2 ^ 32).toNat) else none := by
  have hsum : u32 (t.brkp + (inc % 2 ^ 32).toNat) = ((t.brkp + inc) % 2 ^ 32).toNat := by
    rw [u32]
    omega
  rw [taskSbrk, hsum]
  by_cases hr : TASK_MINBRKP ≤ (t.brkp + inc) % 2 ^ 32 ∧ (t.brkp + inc) % 2 ^ 32 < TASK_MAXBRKP
  · rw [if_pos hr, if_neg (by omega)]
  · rw [if_neg hr, if_pos (by omega)]

/-- The pages after the break has moved to `b`. -/
def UserSpace.moved (t : UserSpace) (b : Nat) : Paging :=
  if t.brkp < b then mapRange .page (pageSpan (pageUp t.brkp) (pageUp b)) t.paging
  else freeRange (pageSpan (pageUp b) (pageUp t.brkp)) t.paging

theorem sbrk_eq (inc : Int) :
    t.sbrk inc =
      if TASK_MINBRKP ≤ (t.brkp + inc) % 2 ^ 32 ∧ (t.brkp + inc) % 2 ^ 32 < TASK_MAXBRKP then
        (some t.brkp, { t with
          brkp := ((t.brkp + inc) % 2 ^ 32).toNat
          paging := t.moved ((t.brkp + inc) % 2 ^ 32).toNat })
      else (none, t) := by
  rw [UserSpace.sbrk, taskSbrk_eq]
  by_cases hr : TASK_MINBRKP ≤ (t.brkp + inc) % 2 ^ 32 ∧ (t.brkp + inc) % 2 ^ 32 < TASK_MAXBRKP
  · rw [if_pos hr, if_pos hr]
    rfl
  · rw [if_neg hr, if_neg hr]

/-- Below the new break all pages are mapped. -/
theorem moved_mapped (h : t.BreakInv) {b : Nat} (hb : b < TASK_MAXBRKP) (hq : Below b q) :
    pageIsMapped q (t.moved b) := by
  obtain ⟨hprog, hlt⟩ := hq
  rw [UserSpace.moved]
  split
  · rw [pageIsMapped_mapRange, mem_pageSpan h.max hb]
    by_cases hold : q * 4096 < t.brkp
    · exact .inr (h.mapped q ⟨hprog, hold⟩)
    · exact .inl ⟨by omega, hlt⟩
  · rw [pageIsMapped_freeRange, mem_pageSpan hb h.max]
    exact ⟨h.mapped q ⟨hprog, by omega⟩, fun hin => by omega⟩

/-- Above it those are unmapped that were not on frame 0. -/
theorem moved_freed (h : t.BreakInv) {b : Nat} (hb : b < TASK_MAXBRKP) (h1 : b ≤ q * 4096)
    (h2 : q * 4096 < t.brkp) :
    pageIsMapped q (t.moved b) ↔ pageIsMapped q t.paging ∧ pageGetFrame q t.paging = 0 := by
  rw [UserSpace.moved, if_neg (by omega), pageIsMapped_freeRange, mem_pageSpan hb h.max]
  simp [h1, h2]

/-- A task without a page. -/
def UserSpace.fresh : UserSpace where
  brkp := TASK_MINBRKP
  mappings := List.replicate TASK_MAXMAPPINGS ⟨false, 0, 0⟩
  paging := ⟨fun _ => false, 0, fun _ => none, fun _ => none, fun _ => none⟩

theorem breakInv_fresh : UserSpace.fresh.BreakInv where
  min := Nat.le_refl _
  max := by decide
  mapped pg h := by
    have h1 : 0x800 ≤ pg := h.1
    have h2 : pg * 4096 < 0x800000 := h.2
    omega

/-- `task_mmap` finds an end of the request in the entry. -/
def Mapping.hit (area count : UInt32) (m : Mapping) : Bool :=
  (m.start ≤ area && area < m.end) || (m.start ≤ area + count && area + count < m.end)

/-- The first loop of `task_mmap`: the slot to use, or `-EINVAL`. -/
def mmapScan (area count : UInt32) : List Mapping → Nat → Option Nat → Except Int (Option Nat)
  | [], _, mapping => .ok mapping
  | m :: ms, i, mapping =>
      if m.used then
        if m.hit area count then .error (-EINVAL) else mmapScan area count ms (i + 1) mapping
      else mmapScan area count ms (i + 1) (mapping <|> some i)

/-- The second loop: the pages that are mapped get the frames instead of
their own. -/
def mmapPages (area start count : UInt32) (p : Paging) : Paging :=
  (List.range count.toNat).foldl (fun p i =>
    let page := (area + UInt32.ofNat i).toNat
    let active := pageGetFrame page p
    if active ≠ 0 then pageMap page (start + UInt32.ofNat i).toNat (pageFrameFree active p) else p) p

structure MmapCall where
  area : UInt32
  start : UInt32
  count : UInt32

/-- `task_mmap`. -/
def UserSpace.mmap (c : MmapCall) (t : UserSpace) : Int × UserSpace :=
  match mmapScan c.area c.count t.mappings 0 none with
  | .error e => (e, t)
  | .ok none => (-ENOBUFS, t)
  | .ok (some mapping) =>
      (0, { t with
        mappings := t.mappings.set mapping ⟨true, c.area, c.area + c.count⟩
        paging := mmapPages c.area c.start c.count t.paging })

/-! ## page ranges -/

/-- The pages of a range. -/
def InRangeOf (start count pg : UInt32) : Prop := ∃ i < count, pg = start + i

/-- Two ranges have a page in common. -/
def Meet (a c s n : UInt32) : Prop := ∃ pg, InRangeOf a c pg ∧ InRangeOf s n pg

/-- The request has a page in common with the entry. -/
def MmapCall.Overlaps (c : MmapCall) (m : Mapping) : Prop :=
  m.used ∧ Meet c.area c.count m.start (m.end - m.start)

/-- The used entries are disjoint. -/
def UserSpace.Disjoint (t : UserSpace) : Prop :=
  t.mappings.Pairwise fun m m' => m.used → m'.used →
    ¬ Meet m.start (m.end - m.start) m'.start (m'.end - m'.start)

/-- The answer to a request: `-EINVAL` if it overlaps an entry, `-ENOBUFS` if
the table is full; the table stays disjoint, and an error changes nothing. -/
structure MmapRight (t : UserSpace) (c : MmapCall) (res : Int) (t' : UserSpace) : Prop where
  overlap : (∃ m ∈ t.mappings, c.Overlaps m) → res = -EINVAL
  full : (∀ m ∈ t.mappings, m.used) → (¬ ∃ m ∈ t.mappings, c.Overlaps m) → res = -ENOBUFS
  refused : res ≠ 0 → t' = t
  disjoint : t'.Disjoint

/-- The request goes around the entry: it covers the entry and begins
outside, or the entry wraps and has a page of it. -/
def MmapCall.Encloses (c : MmapCall) (m : Mapping) : Prop :=
  (m.start < m.end ∧ ¬ (m.start ≤ c.area ∧ c.area < m.end) ∧
      (m.start - c.area).toNat + (m.end - m.start).toNat ≤ c.count.toNat) ∨
    (m.end < m.start ∧ 0 < c.count ∧
      (m.start ≤ c.area ∨ c.area < m.end ∨ m.start - c.area < c.count))

instance (c : MmapCall) (m : Mapping) : Decidable (c.Encloses m) :=
  inferInstanceAs (Decidable (_ ∨ _))

/-- The request touches the entry and has no page of it: it is empty, or it
ends where the entry begins. -/
def MmapCall.Touches (c : MmapCall) (m : Mapping) : Prop :=
  m.start < m.end ∧
    (c.count = 0 ∧ m.start ≤ c.area ∧ c.area < m.end ∨
      0 < c.count ∧ c.area + c.count = m.start ∧ ¬ (m.start ≤ c.area ∧ c.area < m.end))

/-- A request that goes around an entry has an end in another, and if the
table is full one that touches an entry overlaps another. -/
structure MmapFits (t : UserSpace) (c : MmapCall) : Prop where
  encloses : ∀ m ∈ t.mappings, m.used → c.Encloses m →
    ∃ m' ∈ t.mappings, m'.used ∧ m'.hit c.area c.count
  touches : (∀ m ∈ t.mappings, m.used) → ∀ m ∈ t.mappings, c.Touches m →
    ∃ m' ∈ t.mappings, c.Overlaps m'

section

variable {a c s n e pg : UInt32}

theorem inRangeOf_iff : InRangeOf s n pg ↔ pg - s < n := by
  constructor
  · rintro ⟨i, hi, rfl⟩
    rwa [UInt32.add_comm, UInt32.add_sub_cancel]
  · intro h
    exact ⟨pg - s, h, by rw [UInt32.add_comm, UInt32.sub_add_cancel]⟩

/-- Two ranges meet if one of them begins in the other. -/
theorem meet_iff : Meet a c s n ↔ 0 < c ∧ 0 < n ∧ (a - s < n ∨ s - a < c) := by
  simp only [Meet, inRangeOf_iff]
  constructor
  · rintro ⟨pg, h1, h2⟩
    simp only [UInt32.lt_iff_toNat_lt, UInt32.toNat_sub, UInt32.toNat_zero] at h1 h2 ⊢
    have := a.toNat_lt
    have := s.toNat_lt
    have := pg.toNat_lt
    have := c.toNat_lt
    have := n.toNat_lt
    omega
  · rintro ⟨hc, hn, h | h⟩
    · exact ⟨a, by simpa using hc, h⟩
    · exact ⟨s, h, by simpa using hn⟩

end

variable {m : Mapping} {c : MmapCall}

theorem hit_iff : m.hit c.area c.count = true ↔
    m.start ≤ c.area ∧ c.area < m.end ∨
      m.start ≤ c.area + c.count ∧ c.area + c.count < m.end := by
  simp [Mapping.hit]

/-- The request has a page of an entry that it goes around. -/
theorem MmapCall.Encloses.meet (h : c.Encloses m) : Meet c.area c.count m.start (m.end - m.start) := by
  rw [MmapCall.Encloses] at h
  rw [meet_iff]
  have ha := c.area.toNat_lt
  have hs := m.start.toNat_lt
  have he := m.end.toNat_lt
  simp only [UInt32.lt_iff_toNat_lt, UInt32.le_iff_toNat_le, UInt32.toNat_sub,
    UInt32.toNat_zero] at h ⊢
  omega

/-- A request that overlaps an entry has an end in it or goes around it. -/
theorem hit_or_encloses (h : Meet c.area c.count m.start (m.end - m.start)) :
    m.hit c.area c.count = true ∨ c.Encloses m := by
  rw [meet_iff] at h
  rw [hit_iff, MmapCall.Encloses]
  have ha := c.area.toNat_lt
  have hc := c.count.toNat_lt
  have hs := m.start.toNat_lt
  have he := m.end.toNat_lt
  simp only [UInt32.lt_iff_toNat_lt, UInt32.le_iff_toNat_le, UInt32.toNat_sub, UInt32.toNat_add,
    UInt32.toNat_zero] at h ⊢
  omega

theorem MmapCall.Touches.hit (h : c.Touches m) : m.hit c.area c.count = true := by
  rw [MmapCall.Touches] at h
  rw [hit_iff]
  obtain ⟨hlt, ⟨-, h⟩ | ⟨-, h, -⟩⟩ := h
  · exact .inl h
  · rw [h]
    exact .inr ⟨UInt32.le_refl _, hlt⟩

/-- A request with an end in an entry overlaps it or touches it. -/
theorem meet_or_touches (h : m.hit c.area c.count = true) :
    Meet c.area c.count m.start (m.end - m.start) ∨ c.Touches m := by
  rw [hit_iff] at h
  rw [meet_iff, MmapCall.Touches]
  have ha := c.area.toNat_lt
  have hc := c.count.toNat_lt
  have hs := m.start.toNat_lt
  have he := m.end.toNat_lt
  simp only [UInt32.lt_iff_toNat_lt, UInt32.le_iff_toNat_le, UInt32.toNat_sub, UInt32.toNat_add,
    UInt32.toNat_zero, ← UInt32.toNat_inj] at h ⊢
  omega

/-! ## `task_mmap` -/

/-- The first slot that is free, unless a used entry has an end of the
request. -/
theorem mmapScan_eq {area count : UInt32} (ms : List Mapping) (i : Nat) (mapping : Option Nat) :
    mmapScan area count ms i mapping =
      if ∃ m ∈ ms, m.used ∧ m.hit area count then .error (-EINVAL)
      else .ok (mapping <|> (ms.findIdx? fun m => !m.used).map (· + i)) := by
  induction ms generalizing i mapping with
  | nil => simp [mmapScan]
  | cons m ms ih =>
      rw [mmapScan]
      by_cases hu : m.used
      · by_cases hh : m.hit area count
        · simp [hu, hh]
        · simp only [hu, hh, ih]
          simp [hu, hh, List.findIdx?_cons, Function.comp_def, Nat.add_assoc, Nat.add_comm 1 i]
      · simp only [hu, ih]
        cases mapping <;> simp [hu, List.findIdx?_cons]

/-- An end of the request is in a used entry. -/
abbrev UserSpace.Hit (t : UserSpace) (c : MmapCall) : Prop :=
  ∃ m ∈ t.mappings, m.used ∧ m.hit c.area c.count

theorem mmap_of_hit (h : t.Hit c) : t.mmap c = (-EINVAL, t) := by
  rw [UserSpace.mmap, mmapScan_eq, if_pos h]

theorem mmap_of_full (h : ¬ t.Hit c) (hfull : ∀ m ∈ t.mappings, m.used) :
    t.mmap c = (-ENOBUFS, t) := by
  have hnone : t.mappings.findIdx? (fun m => !m.used) = none := by
    simpa [List.findIdx?_eq_none_iff] using hfull
  rw [UserSpace.mmap, mmapScan_eq, if_neg h, hnone]
  rfl

/-- A request that is granted takes a slot that was free. -/
theorem mmap_of_free (h : ¬ t.Hit c) (hfull : ¬ ∀ m ∈ t.mappings, m.used) :
    ∃ (i : Nat) (hi : i < t.mappings.length), t.mappings[i].used = false ∧
      (t.mmap c).1 = 0 ∧
      (t.mmap c).2.mappings = t.mappings.set i ⟨true, c.area, c.area + c.count⟩ := by
  cases hidx : t.mappings.findIdx? fun m => !m.used with
  | none =>
      refine absurd ?_ hfull
      simpa [List.findIdx?_eq_none_iff] using hidx
  | some i =>
      obtain ⟨hi, hfree, -⟩ := List.findIdx?_eq_some_iff_getElem.mp hidx
      refine ⟨i, hi, by simpa using hfree, ?_⟩
      rw [UserSpace.mmap, mmapScan_eq, if_neg h, hidx]
      exact ⟨rfl, rfl⟩

/-- Changing one element of a list keeps a relation that holds between it and
the others. -/
theorem pairwise_set {R : Mapping → Mapping → Prop} {ms : List Mapping} {x : Mapping}
    (h : ms.Pairwise R) (hl : ∀ y ∈ ms, R y x) (hr : ∀ y ∈ ms, R x y) (i : Nat) :
    (ms.set i x).Pairwise R := by
  rw [List.pairwise_iff_getElem] at h ⊢
  intro j k hj hk hjk
  rw [List.length_set] at hj hk
  rw [List.getElem_set, List.getElem_set]
  split
  · rw [if_neg (by omega)]
    exact hr _ (List.getElem_mem hk)
  · split
    · exact hl _ (List.getElem_mem hj)
    · exact h j k hj hk hjk

/-- A new entry keeps the table disjoint if the request overlaps none. -/
theorem disjoint_set {i : Nat} {t' : UserSpace} (hd : t.Disjoint)
    (hno : ¬ ∃ m ∈ t.mappings, c.Overlaps m)
    (ht : t'.mappings = t.mappings.set i ⟨true, c.area, c.area + c.count⟩) : t'.Disjoint := by
  have hcount : c.area + c.count - c.area = c.count := by
    rw [UInt32.add_comm, UInt32.add_sub_cancel]
  rw [UserSpace.Disjoint, ht]
  refine pairwise_set hd (fun m hm hu _ hmeet => ?_) (fun m hm _ hu hmeet => ?_) i
  · rw [hcount] at hmeet
    obtain ⟨pg, h1, h2⟩ := hmeet
    exact hno ⟨m, hm, hu, pg, h2, h1⟩
  · rw [hcount] at hmeet
    exact hno ⟨m, hm, hu, hmeet⟩

/-- **Mapping rule**: which requests are answered right. -/
theorem mmapRight_iff (hd : t.Disjoint) :
    MmapRight t c (t.mmap c).1 (t.mmap c).2 ↔ MmapFits t c := by
  have hhit : (∃ m ∈ t.mappings, c.Overlaps m) →
      t.Hit c ∨ ∃ m ∈ t.mappings, m.used ∧ c.Encloses m := by
    rintro ⟨m, hm, hu, hmeet⟩
    exact (hit_or_encloses hmeet).imp (fun h => ⟨m, hm, hu, h⟩) fun h => ⟨m, hm, hu, h⟩
  constructor
  · intro hright
    constructor
    · intro m hm hu he
      have hres := hright.overlap ⟨m, hm, hu, he.meet⟩
      by_contra hno
      by_cases hfull : ∀ m ∈ t.mappings, m.used
      · rw [mmap_of_full hno hfull] at hres
        exact absurd hres (show (-ENOBUFS : Int) ≠ -EINVAL by decide)
      · obtain ⟨i, hi, -, hzero, -⟩ := mmap_of_free hno hfull
        rw [hzero] at hres
        contradiction
    · intro hfull m hm htouch
      by_contra hno
      have hres := hright.full hfull hno
      rw [mmap_of_hit ⟨m, hm, hfull m hm, htouch.hit⟩] at hres
      exact absurd hres (show (-EINVAL : Int) ≠ -ENOBUFS by decide)
  · intro hfits
    by_cases hh : t.Hit c
    · rw [mmap_of_hit hh]
      refine ⟨fun _ => rfl, fun hfull hno => ?_, fun _ => rfl, hd⟩
      obtain ⟨m, hm, hu, hmh⟩ := hh
      obtain hmeet | htouch := meet_or_touches hmh
      · exact absurd ⟨m, hm, hu, hmeet⟩ hno
      · exact absurd (hfits.touches hfull m hm htouch) hno
    · have hno : ¬ ∃ m ∈ t.mappings, c.Overlaps m := by
        intro ho
        obtain h | ⟨m, hm, hu, he⟩ := hhit ho
        · exact hh h
        · exact hh (hfits.encloses m hm hu he)
      by_cases hfull : ∀ m ∈ t.mappings, m.used
      · rw [mmap_of_full hh hfull]
        exact ⟨fun ho => absurd ho hno, fun _ _ => rfl, fun _ => rfl, hd⟩
      · obtain ⟨i, hi, -, hzero, hset⟩ := mmap_of_free hh hfull
        exact ⟨fun ho => absurd ho hno, fun hf => absurd hf hfull, fun hne => absurd hzero hne,
          disjoint_set hd hno hset⟩

/-- **Special mappings**: in a run of requests from an empty table all are
answered right if and only if they all fit. -/
theorem mmapsRight_iff (t : UserSpace) (cs : List MmapCall) (h : ∀ m ∈ t.mappings, m.used = false) :
    System.Along (fun t c => (UserSpace.mmap c t).2)
        (fun t c => MmapRight t c (t.mmap c).1 (t.mmap c).2) t cs ↔
      System.Along (fun t c => (UserSpace.mmap c t).2) MmapFits t cs := by
  refine System.along_iff (I := UserSpace.Disjoint) (fun _ _ _ hr => hr.disjoint)
    (fun _ _ hd => mmapRight_iff hd) ?_
  refine List.Pairwise.imp_of_mem ?_ (List.pairwise_of_forall fun _ _ => trivial)
  intro m m' hm _ _ hu
  rw [h m hm] at hu
  contradiction

theorem mmapsRight_iff_fresh :
    System.Along (fun t c => (UserSpace.mmap c t).2)
      (fun t c => MmapRight t c (t.mmap c).1 (t.mmap c).2) .fresh [⟨2, 0, 1⟩, ⟨2, 0, 5⟩] := by
  refine (mmapsRight_iff .fresh [⟨2, 0, 1⟩, ⟨2, 0, 5⟩] (by decide)).mpr ⟨⟨?_, ?_⟩, ⟨?_, ?_⟩, trivial⟩
  · decide
  · exact fun hfull => absurd (hfull ⟨false, 0, 0⟩ (by decide)) (by decide)
  · decide
  · exact fun hfull => absurd (hfull ⟨false, 0, 0⟩ (by decide)) (by decide)

/-- The request for the pages 1 to 3 is granted with page 2 in the table. -/
theorem not_mmapsRight :
    ¬ ∀ (t : UserSpace) (cs : List MmapCall), (∀ m ∈ t.mappings, m.used = false) →
      System.Along (fun t c => (UserSpace.mmap c t).2)
        (fun t c => MmapRight t c (t.mmap c).1 (t.mmap c).2) t cs := by
  intro hall
  have hrun := hall .fresh [⟨2, 0, 1⟩, ⟨1, 0, 3⟩] (by decide)
  have hres := hrun.2.1.overlap ⟨⟨true, 2, 3⟩, by decide, rfl, 2, ⟨1, by decide, rfl⟩,
    ⟨0, by decide, rfl⟩⟩
  exact absurd hres (by decide)

end Eclair
