import Eclair.Ecfs.File

/-!
# Eclair.Ecfs.Contents

The bytes of a file behind its block map: the blocks that the file owns, and
what loading and writing one block does to the bytes.

`Contents` says of each offset which byte was last written there, if any.
`Writing` is the invariant of the loop of `fs_write`, where the block that is
kept may be newer than the one on disk.
-/

namespace Eclair

open ByteMem

/-- The byte last written at each offset. -/
abbrev Contents := Nat → Option UInt8

/-- Another open file on the same node. -/
def Node.withFile (n : Node) (f : OpenInfo) : Node := { n with file := f }

@[simp] theorem Node.withFile_file (n : Node) (f : OpenInfo) : (n.withFile f).file = f := rfl

@[simp] theorem Node.withFile_blk (n : Node) (f : OpenInfo) : (n.withFile f).blk = n.blk := rfl

@[simp] theorem Node.withFile_ablk (n : Node) (f : OpenInfo) (k : Nat) :
    (n.withFile f).ablk k = n.ablk k := rfl

@[simp] theorem blkAt_withFile (g : Geometry) (disk : Disk) (n : Node) (f : OpenInfo) (i : Nat) :
    blkAt g disk (n.withFile f) i = blkAt g disk n i := rfl

/-- The blocks of a file are marked, and none is used twice. -/
structure Owned (g : Geometry) (n : Node) (s : Maps) : Prop where
  reserved : ∀ b, b < g.nblkRsvd → bit s.brb b = true
  arrays : ∀ k, k ≤ N_TRACKEXT → n.ablk k ≠ 0 → bit s.brb (n.ablk k) = true
  data : ∀ i, blkAt g s.disk n i ≠ 0 → g.nblkRsvd ≤ blkAt g s.disk n i ∧
    blkAt g s.disk n i < g.nblk ∧ bit s.brb (blkAt g s.disk n i) = true
  apart : ∀ i k, blkAt g s.disk n i ≠ 0 → k ≤ N_TRACKEXT → blkAt g s.disk n i ≠ n.ablk k
  inj : ∀ i j, blkAt g s.disk n i ≠ 0 → blkAt g s.disk n i = blkAt g s.disk n j → i = j

/-- A block that is neither the allocator's nor the file's. -/
def Outside (g : Geometry) (n : Node) (s : Maps) (c : Nat) : Prop :=
  g.nblkRsvd ≤ c ∧ (∀ k, k ≤ N_TRACKEXT → c ≠ n.ablk k) ∧ ∀ i, c ≠ blkAt g s.disk n i

/-- The byte at `p`, in the block that is kept or on disk. -/
def byteAt (g : Geometry) (disk : Disk) (n : Node) (f : OpenInfo) (p : Nat) : UInt8 :=
  if f.bblk ≠ 0 ∧ p / g.blksz = f.i then f.blk (p % g.blksz)
  else disk (blkAt g disk n (p / g.blksz)) (p % g.blksz)

/-- The contents are on disk. -/
def Stored (g : Geometry) (disk : Disk) (n : Node) (d : Contents) : Prop :=
  ∀ p b, d p = some b → blkAt g disk n (p / g.blksz) ≠ 0 ∧
    disk (blkAt g disk n (p / g.blksz)) (p % g.blksz) = b

/-- The invariant of the loop of `fs_write`. -/
structure Writing (g : Geometry) (n : Node) (s : Maps) (f : OpenInfo) (d : Contents) : Prop where
  kept : (n.withFile f).Kept g s.disk
  owned : Owned g n s
  cached : f.bblk ≠ 0 → f.bblk = blkAt g s.disk n f.i
  holds : ∀ p b, d p = some b → blkAt g s.disk n (p / g.blksz) ≠ 0 ∧ byteAt g s.disk n f p = b

variable {g : Geometry} {s s' : Maps} {n : Node} {f : OpenInfo} {d : Contents} {disk : Disk}
  {i j k b c p : Nat} {m buf : ByteMem}

/-! ## the open file -/

/-- The open file is not part of the shape of a node. -/
theorem Node.Shape.withFile (hs : n.Shape g) : (n.withFile f).Shape g := ⟨hs.entry, hs.inside, hs.inj⟩

theorem Owned.withFile (h : Owned g n s) : Owned g (n.withFile f) s :=
  ⟨h.reserved, h.arrays, h.data, h.apart, h.inj⟩

/-- Only the array block that is kept matters. -/
theorem Node.Kept.withFile {f' : OpenInfo} (hk : (n.withFile f).Kept g disk) (ha : f'.ablk = f.ablk)
    (hr : f'.arr = f.arr) : (n.withFile f').Kept g disk := by
  constructor
  case le =>
    show f'.ablk ≤ N_TRACKEXT
    rw [ha]
    exact hk.le
  case there =>
    show n.ablk f'.ablk ≠ 0
    rw [ha]
    exact hk.there
  case same =>
    show ∀ i, i < g.blksz → f'.arr i = disk (n.ablk f'.ablk) i
    rw [ha, hr]
    exact hk.same

/-! ## data blocks -/

/-- Writing a block that is no array block leaves the map. -/
theorem blkAt_writeData (hv : g.Valid) (hc : ∀ k, k ≤ N_TRACKEXT → c ≠ n.ablk k) :
    blkAt g (writeBlk g c buf disk) n i = blkAt g disk n i := by
  refine blkAt_congr rfl (fun k x hk _ _ => ?_) hv
  rw [writeBlk_of_ne fun heq => hc k hk heq.symm]

theorem kept_writeData (hk : n.Kept g disk) (hc : ∀ k, k ≤ N_TRACKEXT → c ≠ n.ablk k) :
    n.Kept g (writeBlk g c buf disk) := by
  refine ⟨hk.le, hk.there, fun x hx => ?_⟩
  rw [writeBlk_of_ne fun heq => hc _ hk.le heq.symm]
  exact hk.same x hx

/-- Owned blocks stay so, when the map and the bitmap stay. -/
theorem Owned.congr (h : Owned g n s) (hmap : ∀ i, blkAt g s'.disk n i = blkAt g s.disk n i)
    (hbrb : s'.brb = s.brb) : Owned g n s' := by
  constructor
  case reserved =>
    rw [hbrb]
    exact h.reserved
  case arrays =>
    rw [hbrb]
    exact h.arrays
  case data =>
    intro i
    rw [hmap, hbrb]
    exact h.data i
  case apart =>
    intro i k
    rw [hmap]
    exact h.apart i k
  case inj =>
    intro i j
    rw [hmap, hmap]
    exact h.inj i j

/-- **Flushing** the block that is kept puts the contents on disk. -/
theorem Writing.flush (hv : g.Valid) (h : Writing g n s f d) (hb : f.bblk ≠ 0) :
    Writing g n (flush g s (n.withFile f)) f d ∧ Stored g (flush g s (n.withFile f)).disk n d ∧
      (∀ x, x < g.blksz → (flush g s (n.withFile f)).disk f.bblk x = f.blk x) ∧
      (∀ i, blkAt g (flush g s (n.withFile f)).disk n i = blkAt g s.disk n i) ∧
      ∀ c, c ≠ f.bblk → (flush g s (n.withFile f)).disk c = s.disk c := by
  have hat := h.cached hb
  have hne : blkAt g s.disk n f.i ≠ 0 := hat ▸ hb
  obtain ⟨-, hlt, -⟩ := h.owned.data f.i hne
  rw [← hat] at hlt
  have hapart : ∀ k, k ≤ N_TRACKEXT → f.bblk ≠ n.ablk k := by
    intro k hk
    rw [hat]
    exact h.owned.apart f.i k hne hk
  have hself : ∀ x, x < g.blksz → (Eclair.flush g s (n.withFile f)).disk f.bblk x = f.blk x :=
    fun x hx => writeBlk_self hlt hx
  have hother : ∀ c, c ≠ f.bblk → (Eclair.flush g s (n.withFile f)).disk c = s.disk c :=
    fun c hc => writeBlk_of_ne hc
  have hmap : ∀ i, blkAt g (Eclair.flush g s (n.withFile f)).disk n i = blkAt g s.disk n i :=
    fun i => blkAt_writeData hv hapart
  have hstored : Stored g (Eclair.flush g s (n.withFile f)).disk n d := by
    intro p b hp
    obtain ⟨hlink, hbyte⟩ := h.holds p b hp
    rw [hmap]
    refine ⟨hlink, ?_⟩
    rw [byteAt] at hbyte
    by_cases hpi : p / g.blksz = f.i
    · rw [if_pos ⟨hb, hpi⟩] at hbyte
      have hpos : 0 < g.blksz := by
        have hge := hv.blksz_ge
        omega
      rw [hpi, ← hat, hself _ (Nat.mod_lt p hpos), hbyte]
    · rw [if_neg fun hcon => hpi hcon.2] at hbyte
      rw [hother _ fun heq => hpi (h.owned.inj _ _ hlink (by rw [heq, hat])), hbyte]
  refine ⟨⟨kept_writeData h.kept hapart, h.owned.congr hmap rfl, ?_, ?_⟩, hstored, hself, hmap, hother⟩
  · intro _
    rw [hmap]
    exact hat
  · intro p b hp
    obtain ⟨hlink, hbyte⟩ := hstored p b hp
    refine ⟨hlink, ?_⟩
    rw [byteAt]
    by_cases hpi : f.bblk ≠ 0 ∧ p / g.blksz = f.i
    · have hold := (h.holds p b hp).2
      rw [byteAt, if_pos hpi] at hold
      rw [if_pos hpi, hold]
    · rw [if_neg hpi, hbyte]

/-- What is not outside is marked. -/
theorem Owned.marked (h : Owned g n s) (hv : g.Valid) (hc : ¬ Outside g n s c) :
    bit s.brb c = true := by
  have hroot := hv.root
  by_contra hbit
  refine hc ⟨?_, fun k hk heq => ?_, fun i heq => ?_⟩
  · by_contra hlow
    exact hbit (h.reserved c (by omega))
  · by_cases h0 : n.ablk k = 0
    · exact hbit (h.reserved c (by omega))
    · rw [heq] at hbit
      exact hbit (h.arrays k hk h0)
  · by_cases h0 : blkAt g s.disk n i = 0
    · exact hbit (h.reserved c (by omega))
    · rw [heq] at hbit
      exact hbit (h.data i h0).2.2

/-- A block that is outside when the file has grown was so before. -/
theorem Outside.before (hc : Outside g n s' c) (hv : g.Valid)
    (hmap : ∀ j, blkAt g s.disk n j ≠ 0 → blkAt g s'.disk n j = blkAt g s.disk n j) :
    Outside g n s c := by
  have hlow := hc.1
  have hroot := hv.root
  refine ⟨hlow, hc.2.1, fun j heq => hc.2.2 j ?_⟩
  rw [hmap j (by omega), heq]

/-! ## loading a block -/

/-- The block that is kept is as it is on disk. -/
structure Clean (g : Geometry) (n : Node) (s : Maps) (f : OpenInfo) : Prop where
  kept : (n.withFile f).Kept g s.disk
  cached : f.bblk ≠ 0 → f.bblk = blkAt g s.disk n f.i
  same : f.bblk ≠ 0 → ∀ x, x < g.blksz → f.blk x = s.disk f.bblk x

theorem Clean.writing (h : Clean g n s f) (ho : Owned g n s) (hs : Stored g s.disk n d)
    (hpos : 0 < g.blksz) : Writing g n s f d := by
  refine ⟨h.kept, ho, h.cached, fun p b hp => ?_⟩
  obtain ⟨hlink, hbyte⟩ := hs p b hp
  refine ⟨hlink, ?_⟩
  rw [byteAt]
  by_cases hpi : f.bblk ≠ 0 ∧ p / g.blksz = f.i
  · rw [if_pos hpi, h.same hpi.1 _ (Nat.mod_lt p hpos), h.cached hpi.1, ← hpi.2, hbyte]
  · rw [if_neg hpi, hbyte]

/-- Reading a block of the volume. -/
theorem readBlk_lt {x : Nat} (hb : b < g.nblk) (hx : x < g.blksz) :
    readBlk g b buf disk x = disk b x := by
  rw [readBlk, if_neg (by omega), write, if_pos (by omega), Nat.sub_zero]

/-- The blocks of the file after a free one was taken and set as entry `i`. -/
theorem Owned.extend (h : Owned g n s) (hv : g.Valid) (hc : g.nblkRsvd ≤ c) (hlt : c < g.nblk)
    (hmore : OneMore c s.brb s'.brb)
    (hmap : ∀ j, blkAt g s'.disk n j = if j = i then c else blkAt g s.disk n j) : Owned g n s' := by
  have hroot := hv.root
  have hmark : ∀ b, bit s.brb b = true → bit s'.brb b = true ∧ b ≠ c := by
    intro b hb
    have hne : b ≠ c := by
      intro heq
      rw [heq, hmore.clear] at hb
      cases hb
    rw [hmore.same b hne]
    exact ⟨hb, hne⟩
  constructor
  case reserved => exact fun b hb => (hmark b (h.reserved b hb)).1
  case arrays => exact fun k hk hl => (hmark _ (h.arrays k hk hl)).1
  case data =>
    intro j
    rw [hmap]
    by_cases hj : j = i
    · rw [if_pos hj]
      exact fun _ => ⟨hc, hlt, hmore.set⟩
    · rw [if_neg hj]
      intro hne
      obtain ⟨h1, h2, h3⟩ := h.data j hne
      exact ⟨h1, h2, (hmark _ h3).1⟩
  case apart =>
    intro j k
    rw [hmap]
    by_cases hj : j = i
    · rw [if_pos hj]
      intro _ hk heq
      by_cases h0 : n.ablk k = 0
      · omega
      · exact (hmark _ (h.arrays k hk h0)).2 heq.symm
    · rw [if_neg hj]
      exact h.apart j k
  case inj =>
    intro j l
    rw [hmap, hmap]
    by_cases hj : j = i
    · rw [if_pos hj]
      intro _ heq
      by_cases hl : l = i
      · rw [hj, hl]
      · rw [if_neg hl] at heq
        exact absurd heq.symm (hmark _ (h.data l (by omega)).2.2).2
    · rw [if_neg hj]
      intro hne heq
      by_cases hl : l = i
      · rw [if_pos hl] at heq
        exact absurd heq (hmark _ (h.data j hne).2.2).2
      · rw [if_neg hl] at heq
        exact h.inj j l hne heq

/-- Flushing, if a block is kept. -/
theorem Writing.flushed (hv : g.Valid) (h : Writing g n s f d) :
    ∃ s', (if f.bblk ≠ 0 then Eclair.flush g s (n.withFile f) else s) = s' ∧
      Writing g n s' f d ∧ Stored g s'.disk n d ∧ s'.brb = s.brb ∧
      (∀ i, blkAt g s'.disk n i = blkAt g s.disk n i) ∧
      ∀ c, Outside g n s c → s'.disk c = s.disk c := by
  by_cases hb : f.bblk = 0
  · refine ⟨s, if_neg (not_not.mpr hb), h, fun p b hp => ?_, rfl, fun i => rfl, fun c _ => rfl⟩
    obtain ⟨hlink, hbyte⟩ := h.holds p b hp
    rw [byteAt, if_neg fun hcon => hcon.1 hb] at hbyte
    exact ⟨hlink, hbyte⟩
  · obtain ⟨hw, hstored, -, hmap, hother⟩ := h.flush hv hb
    refine ⟨_, if_pos hb, hw, hstored, rfl, hmap, fun c hc => hother c ?_⟩
    rw [h.cached hb]
    exact hc.2.2 _

/-- Block `i` of the file was loaded for writing. -/
structure Loaded (g : Geometry) (n : Node) (i : Nat) (s s' : Maps) (f f' : OpenInfo)
    (d : Contents) : Prop where
  writing : Writing g n s' f' d
  index : f'.i = i
  there : f'.bblk ≠ 0
  entries : ∀ j, blkAt g s'.disk n j =
    if j = i ∧ blkAt g s.disk n i = 0 then f'.bblk else blkAt g s.disk n j
  count : countBits s'.brb 0 g.nblk =
    countBits s.brb 0 g.nblk + if blkAt g s.disk n i = 0 then 1 else 0
  frame : ∀ c, Outside g n s' c → s'.disk c = s.disk c
  same : f'.fsz = f.fsz ∧ f'.isOpen = f.isOpen ∧ f'.flags = f.flags

/-- **A new block** of the file. -/
theorem newForWrite_spec (hv : g.Valid) (hs : n.Shape g) (hk : (n.withFile f).Kept g s.disk)
    (ho : Owned g n s) (hst : Stored g s.disk n d) (hlim : f.i + FILE_WORDS < g.limit)
    (hlink : n.Linked g f.i) (hnone : blkAt g s.disk n f.i = 0)
    (hroom : countBits s.brb 0 g.nblk < g.nblk) :
    ∃ s' f', newForWrite g f.i s (n.withFile f) = some (0, s', n.withFile f') ∧
      Loaded g n f.i s s' f f' d := by
  have hlt := hv.nblk_lt
  have hroot := hv.root
  have hge := hv.blksz_ge
  obtain ⟨c, t, ht, hc, hcn, hmore, hdisk⟩ := allocBlk_free hv ho.reserved hroom
  have harr : ∀ k, k ≤ N_TRACKEXT → n.ablk k ≠ 0 → t.disk (n.ablk k) = s.disk (n.ablk k) :=
    fun k hk' hl => hdisk _ (hs.inside k hk' hl).1
  have hmapt : ∀ j, blkAt g t.disk n j = blkAt g s.disk n j := fun j =>
    blkAt_congr rfl (fun k x hk' hl _ => by rw [harr k hk' hl]) hv
  have hkt : (n.withFile f).Kept g t.disk := by
    refine ⟨hk.le, hk.there, fun x hx => ?_⟩
    show f.arr x = t.disk (n.ablk f.ablk) x
    rw [harr f.ablk hk.le hk.there]
    exact hk.same x hx
  have hs' : (n.withFile f).Shape g := hs.withFile
  have hnonet : blkAt g t.disk n f.i = 0 := (hmapt f.i).trans hnone
  obtain ⟨u, arr, hset, heff⟩ := nodeSetblk_spec (v := c) hv hs' hkt hlim hlink (by omega)
    fun hne => absurd hnonet hne
  have hmap : ∀ j, blkAt g u.disk n j = if j = f.i then c else blkAt g s.disk n j := by
    intro j
    rw [← hmapt j]
    exact heff.entries j
  have hbits : u.brb = t.brb := by
    refine ext_bit fun b => ?_
    rw [heff.bits b, blkAt_withFile, hnonet, decide_eq_true (.inr (.inl rfl)), Bool.and_true]
  have hou : Owned g n u := by
    rw [← hbits] at hmore
    exact ho.extend hv hc hcn hmore hmap
  have hframe : ∀ b, g.nblkRsvd ≤ b → b ≠ n.ablk (g.arrOf f.i) → u.disk b = s.disk b := by
    intro b hb hne
    have hbrb := hv.brb
    have htl := hv.tlrm
    have hhead := hv.head
    rw [heff.frame b (by omega) (.inr (by omega)) hne, hdisk b hb]
  have hstu : Stored g u.disk n d := by
    intro p b hp
    obtain ⟨hl, hbyte⟩ := hst p b hp
    have hne : p / g.blksz ≠ f.i := by
      intro heq
      rw [heq] at hl
      exact hl hnone
    rw [hmap, if_neg hne]
    refine ⟨hl, ?_⟩
    rw [hframe _ (ho.data _ hl).1 (ho.apart _ _ hl (arrOf_le hlim)), hbyte]
  refine ⟨u, { f with arr := arr, ablk := g.arrOf f.i, bblk := c, blk := readBlk g c f.blk u.disk },
    ?_, ?_⟩
  · have h0 : ¬ c = 0 := by omega
    rw [newForWrite, ht, Option.bind_some]
    dsimp only
    rw [if_neg h0, hset]
    rfl
  · constructor
    case writing =>
      refine Clean.writing ⟨Node.Kept.withFile heff.kept rfl rfl, fun _ => ?_,
        fun _ x hx => readBlk_lt hcn hx⟩ hou hstu (by omega)
      rw [hmap, if_pos rfl]
    case index => rfl
    case there =>
      show c ≠ 0
      omega
    case entries =>
      intro j
      rw [hmap]
      by_cases hj : j = f.i
      · rw [if_pos hj, if_pos ⟨hj, hnone⟩]
      · rw [if_neg hj, if_neg fun hcon => hj hcon.1]
    case count =>
      rw [hbits, if_pos hnone]
      exact countBits_succ hmore.clear hmore.set hmore.same (Nat.zero_le c) (by omega)
    case frame => exact fun b hb => hframe b hb.1 (hb.2.1 _ (arrOf_le hlim))
    case same => exact ⟨rfl, rfl, rfl⟩

/-- **Loading a block for writing**, while a block is free if a new one is needed. -/
theorem loadForWrite_spec (hv : g.Valid) (hs : n.Shape g) (h : Writing g n s f d)
    (hlim : i + FILE_WORDS < g.limit) (hlink : n.Linked g i)
    (hroom : blkAt g s.disk n i = 0 → countBits s.brb 0 g.nblk < g.nblk) :
    ∃ s' f', loadForWrite g i s (n.withFile f) = some (0, s', n.withFile f') ∧
      Loaded g n i s s' f f' d := by
  have hpos : 0 < g.blksz := by
    have hge := hv.blksz_ge
    omega
  have hlimlt := limit_lt (g := g)
  rw [loadForWrite]
  by_cases hload : f.bblk = 0 ∨ i ≠ f.i
  · obtain ⟨t, hs1, hw1, hstored1, hbrb1, hmap1, hframe1⟩ := h.flushed hv
    obtain ⟨arr, l, hget, hkept1⟩ := nodeGetblk_spec (n := n.withFile { f with i := i }) (i := i) hv
      hs.withFile (hw1.kept.withFile rfl rfl)
      (by omega) fun _ => hlink _ (Nat.le_refl _)
    have hout : ∀ c, Outside g n t c → t.disk c = s.disk c := by
      intro c hc
      refine hframe1 c ⟨hc.1, hc.2.1, fun j => ?_⟩
      rw [← hmap1]
      exact hc.2.2 j
    have hload' : (n.withFile f).file.bblk = 0 ∨ i ≠ (n.withFile f).file.i := hload
    have hs1' : (if (n.withFile f).file.bblk ≠ 0 then Eclair.flush g s (n.withFile f) else s) = t := hs1
    have hget' : nodeGetblk g t.disk i ((n.withFile f).modFile fun f => { f with i := i }) =
        (blkAt g t.disk n i, (n.withFile { f with i := i }).keep arr l) := hget
    rw [if_pos hload']
    dsimp only
    rw [hs1', hget']
    have hroom' : blkAt g t.disk n i = 0 → countBits t.brb 0 g.nblk < g.nblk := by
      rw [hmap1, hbrb1]
      exact hroom
    by_cases h0 : blkAt g t.disk n i = 0
    · rw [if_neg (not_not.mpr h0)]
      obtain ⟨u, f', hnew, hl⟩ := newForWrite_spec (s := t) (d := d)
        (f := { f with i := i, arr := arr, ablk := l, bblk := blkAt g t.disk n i }) hv hs
        ⟨hkept1.le, hkept1.there, hkept1.same⟩ hw1.owned hstored1 hlim hlink h0 (hroom' h0)
      refine ⟨u, f', hnew, hl.writing, hl.index, hl.there, fun j => ?_, ?_, fun c hc => ?_, hl.same⟩
      · rw [hl.entries j, hmap1, hmap1]
      · rw [hl.count, hmap1, hbrb1]
      · refine (hl.frame c hc).trans (hout c (hc.before hv fun j hj => ?_))
        rw [hl.entries j, if_neg fun hcon => hj (by rw [hcon.1, h0])]
    · rw [if_pos h0]
      have hlt := (hw1.owned.data i h0).2.1
      refine ⟨t, { f with i := i, arr := arr, ablk := l, bblk := blkAt g t.disk n i,
                          blk := readBlk g (blkAt g t.disk n i) f.blk t.disk }, rfl, ?_⟩
      constructor
      case writing =>
        exact Clean.writing ⟨⟨hkept1.le, hkept1.there, hkept1.same⟩, fun _ => rfl,
          fun _ x hx => readBlk_lt hlt hx⟩ hw1.owned hstored1 hpos
      case index => rfl
      case there => exact h0
      case entries =>
        intro j
        rw [hmap1, if_neg fun hcon => h0 ((hmap1 i).trans hcon.2)]
      case count =>
        rw [hbrb1, if_neg fun hcon => h0 ((hmap1 i).trans hcon), Nat.add_zero]
      case frame => exact hout
      case same => exact ⟨rfl, rfl, rfl⟩
  · obtain ⟨hb, hi⟩ := not_or.mp hload
    have hat := h.cached hb
    have hne : ¬ blkAt g s.disk n i = 0 := by
      rw [not_not.mp hi, ← hat]
      exact hb
    refine ⟨s, f, if_neg hload, h, (not_not.mp hi).symm, hb, fun j => ?_, ?_, fun c _ => rfl, rfl, rfl, rfl⟩
    · rw [if_neg fun hcon => hne hcon.2]
    · rw [if_neg hne, Nat.add_zero]

end Eclair
