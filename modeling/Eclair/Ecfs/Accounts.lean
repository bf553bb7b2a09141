import Eclair.Lib.System
import Eclair.Ecfs.Volume

/-!
# Eclair.Ecfs.Accounts

Block accounting on a mounted EcFS volume: the bitmap, the counts of the
top-level reservation map, the count in the head block, and the copies of
all three on disk.

`alloc_blk` keeps them in step.  `free_blk` finds the block of the bitmap by
dividing by the block size where a block of the bitmap stands for eight times
as many blocks, so it does so only for the first `blksz` blocks
(`accounts_iff`).
-/

namespace Eclair

open ByteMem System

/-- The number of blocks that a block of the bitmap stands for. -/
def Geometry.areaSize (g : Geometry) : Nat := 8 * g.blksz

/-- The number of set bits of the bitmap. -/
def nset (g : Geometry) (brb : ByteMem) : Nat := countBits brb 0 (g.areaSize * g.nblkBrb)

/-- The counts agree with the bitmap. -/
structure Counts (g : Geometry) (s : Maps) : Prop where
  areas : ∀ a, a < g.nblkBrb → word s.tlrm (4 * a) = countBits s.brb (a * g.areaSize) g.areaSize
  total : word s.hblk HBLK_NBLK_ALLOC = nset g s.brb

/-- The copies on disk are those in memory. -/
structure Synced (g : Geometry) (s : Maps) : Prop where
  tlrm : OnDisk g g.blkTlrm g.nblkTlrm s.tlrm s.disk
  brb : OnDisk g g.blkBrb g.nblkBrb s.brb s.disk
  hblk : ∀ i, i < HBLK_SIZEOF →
    s.disk (ECFS_HBLK_START / g.blksz) (ECFS_HBLK_START % g.blksz + i) = s.hblk i

/-- Maps, counts and their copies on disk agree. -/
structure Accounts (g : Geometry) (s : Maps) : Prop where
  counts : Counts g s
  synced : Synced g s

variable {g : Geometry} {s s' : Maps} {d : Nat → Nat} {blk b c i j : Nat} {m m' : ByteMem}

/-! ## one update of the maps -/

/-- The maps after `updateMaps` with the new bitmap `m`. -/
structure Updated (g : Geometry) (d : Nat → Nat) (blk : Nat) (m : ByteMem) (s s' : Maps) : Prop where
  brb : s'.brb = m
  tlrm : s'.tlrm = setWord (4 * blk) (d (word s.tlrm (4 * blk))) s.tlrm
  hblk : s'.hblk = setWord HBLK_NBLK_ALLOC (d (word s.hblk HBLK_NBLK_ALLOC)) s.hblk
  tlrmDisk : OnDisk g g.blkTlrm g.nblkTlrm s.tlrm s.disk →
    OnDisk g g.blkTlrm g.nblkTlrm s'.tlrm s'.disk
  brbDisk : (∀ x, x / g.blksz ≠ blk → m x = s.brb x) → OnDisk g g.blkBrb g.nblkBrb s.brb s.disk →
    OnDisk g g.blkBrb g.nblkBrb m s'.disk
  hblkDisk : ∀ i, i < HBLK_SIZEOF →
    s'.disk (ECFS_HBLK_START / g.blksz) (ECFS_HBLK_START % g.blksz + i) = s'.hblk i
  frame : ∀ b, b ≠ ECFS_HBLK_START / g.blksz → (b < g.blkTlrm ∨ g.blkBrb + g.nblkBrb ≤ b) →
    s'.disk b = s.disk b

/-- The block of the top-level map that holds an entry. -/
theorem entry_block (h : g.Valid) {x : Nat} (h1 : 4 * blk ≤ x) (h2 : x < 4 * blk + 4) :
    x / g.blksz = blk / (g.blksz / 4) := by
  rw [h.blksz_eq, ← Nat.div_div_eq_div_mul, Nat.mul_div_cancel_left _ (by decide)]
  congr 1
  omega

/-- **Updating** the maps for a block of the bitmap that there is. -/
theorem updateMaps_spec (h : g.Valid) (hblk : blk < g.nblkBrb) :
    ∃ s', updateMaps g d blk m s = some s' ∧ Updated g d blk m s s' := by
  have hbrb := h.brb
  have htl := h.tlrm
  have hroot := h.root
  have hrsvd := h.rsvd
  have hlt := h.nblk_lt
  have hhead := h.head
  have hw := h.blksz_eq
  have hge := h.blksz_ge
  have hsum := h.summarised
  have ht : blk / (g.blksz / 4) < g.nblkTlrm := by
    rw [Nat.div_lt_iff_lt_mul (by omega)]
    omega
  have hentry : 4 * blk + 4 ≤ g.nblkTlrm * g.blksz := by
    rw [hw, Nat.mul_left_comm]
    omega
  obtain ⟨t, htdef⟩ : ∃ t, blk / (g.blksz / 4) = t := ⟨_, rfl⟩
  rw [htdef] at ht
  obtain ⟨tlrm, htlrm⟩ : ∃ t, setWord (4 * blk) (d (word s.tlrm (4 * blk))) s.tlrm = t := ⟨_, rfl⟩
  have htsame : ∀ x, x / g.blksz ≠ t → tlrm x = s.tlrm x := by
    intro x hx
    rw [← htlrm]
    refine setWord_outside fun hin => hx ?_
    rw [← htdef]
    exact entry_block h hin.1 hin.2
  refine ⟨⟨writeHblk g (setWord HBLK_NBLK_ALLOC (d (word s.hblk HBLK_NBLK_ALLOC)) s.hblk)
        (writeBlk g (g.blkTlrm + t) (fun i => tlrm (t * g.blksz + i))
          (writeBlk g (g.blkBrb + blk) (fun i => m (blk * g.blksz + i)) s.disk)),
      setWord HBLK_NBLK_ALLOC (d (word s.hblk HBLK_NBLK_ALLOC)) s.hblk, tlrm, m⟩, ?_, ?_⟩
  · rw [updateMaps]
    have h1 : writeMap g g.blkBrb g.nblkBrb blk m s.disk =
        some (writeBlk g (g.blkBrb + blk) (fun i => m (blk * g.blksz + i)) s.disk) :=
      writeMap_of_lt (by omega) hblk (by omega)
    rw [h1, Option.bind_some, if_pos hentry, htdef]
    dsimp only
    rw [htlrm, writeMap_of_lt (by omega) ht (by omega)]
    rfl
  · constructor
    case brb => rfl
    case tlrm => exact htlrm.symm
    case hblk => rfl
    case tlrmDisk =>
      intro hon
      have hbrb' : OnDisk g g.blkTlrm g.nblkTlrm s.tlrm
          (writeBlk g (g.blkBrb + blk) (fun i => m (blk * g.blksz + i)) s.disk) :=
        hon.congr fun k hk => writeBlk_of_ne (by omega)
      exact (hbrb'.writeBlk (by omega) ht htsame).congr fun k hk => writeHblk_of_ne (by omega)
    case brbDisk =>
      intro hsame hon
      have hon' := hon.writeBlk (by omega) hblk hsame
      refine hon'.congr fun k hk => ?_
      dsimp only
      rw [writeHblk_of_ne (by omega), writeBlk_of_ne (by omega)]
    case hblkDisk => exact fun i hi => writeHblk_self hi
    case frame =>
      intro b hb hout
      dsimp only
      rw [writeHblk_of_ne hb, writeBlk_of_ne (by omega), writeBlk_of_ne (by omega)]

/-- What an update leaves, when there is one. -/
theorem updateMaps_some (h : updateMaps g d blk m s = some s') :
    s'.brb = m ∧ s'.tlrm = setWord (4 * blk) (d (word s.tlrm (4 * blk))) s.tlrm ∧
      s'.hblk = setWord HBLK_NBLK_ALLOC (d (word s.hblk HBLK_NBLK_ALLOC)) s.hblk := by
  obtain ⟨disk, -, h⟩ := Option.bind_eq_some_iff.mp h
  split at h
  · obtain ⟨disk', -, rfl⟩ := Option.map_eq_some_iff.mp h
    exact ⟨rfl, rfl, rfl⟩
  · cases h

/-- An update keeps the copies, when the bitmap changes in the block that is written. -/
theorem Updated.synced (hu : Updated g d blk m s s')
    (hsame : ∀ x, x / g.blksz ≠ blk → m x = s.brb x) (h : Synced g s) : Synced g s' := by
  constructor
  case tlrm => exact hu.tlrmDisk h.tlrm
  case brb =>
    rw [hu.brb]
    exact hu.brbDisk hsame h.brb
  case hblk => exact hu.hblkDisk

/-- An update keeps the counts, when the entry and the number in the head block
change as the bitmap does. -/
theorem Updated.counts (hu : Updated g d blk m s s') (h : Counts g s) (hblk : blk < g.nblkBrb)
    (harea : ∀ a, countBits m (a * g.areaSize) g.areaSize =
      if a = blk then d (countBits s.brb (a * g.areaSize) g.areaSize)
      else countBits s.brb (a * g.areaSize) g.areaSize)
    (hlt : countBits m (blk * g.areaSize) g.areaSize < 2 ^ 32)
    (htotal : nset g m = d (nset g s.brb)) (hn : nset g m < 2 ^ 32) : Counts g s' := by
  constructor
  case areas =>
    intro a ha
    rw [hu.brb, hu.tlrm, harea]
    by_cases hab : a = blk
    · subst hab
      rw [harea, if_pos rfl] at hlt
      rw [if_pos rfl, h.areas a ha, word_setWord hlt]
    · rw [if_neg hab, word_setWord_of_apart (by omega), h.areas a ha]
  case total =>
    rw [hu.brb, hu.hblk, h.total, ← htotal, word_setWord hn]

/-! ## one bit more -/

/-- Bit `c` is set in `m'` and not in `m`; the others are the same. -/
structure OneMore (c : Nat) (m m' : ByteMem) : Prop where
  clear : bit m c = false
  set : bit m' c = true
  same : ∀ b, b ≠ c → bit m' b = bit m b

/-- The area of the bit counts one more. -/
theorem OneMore.area (h : OneMore c m m') {A : Nat} (hA : 0 < A) (a : Nat) :
    countBits m' (a * A) A = if a = c / A then countBits m (a * A) A + 1 else countBits m (a * A) A := by
  have hdiv : a = c / A ↔ a * A ≤ c ∧ c < a * A + A := by
    rw [eq_comm, Nat.div_eq_iff hA]
    omega
  by_cases ha : a = c / A
  · rw [if_pos ha]
    exact countBits_succ h.clear h.set h.same (hdiv.mp ha).1 (hdiv.mp ha).2
  · rw [if_neg ha]
    refine countBits_congr fun b h1 h2 => h.same b fun hb => ha (hdiv.mpr ?_)
    omega

theorem OneMore.nset (h : OneMore c m m') (hc : c < g.areaSize * g.nblkBrb) :
    nset g m' = nset g m + 1 :=
  countBits_succ h.clear h.set h.same (Nat.zero_le c) (by omega)

/-- An area counts no more than all of them. -/
theorem area_le_nset {a : Nat} (ha : a < g.nblkBrb) :
    countBits m (a * g.areaSize) g.areaSize ≤ nset g m := by
  have hmul : (a + 1) * g.areaSize ≤ g.nblkBrb * g.areaSize := Nat.mul_le_mul_right _ ha
  refine countBits_mono (Nat.zero_le _) ?_
  rw [Nat.add_mul, Nat.one_mul] at hmul
  rw [Nat.mul_comm g.areaSize g.nblkBrb]
  omega

theorem oneMore_orBit (hj : j < 8) (h : bit m (8 * i + j) = false) :
    OneMore (8 * i + j) m (orBit i j m) := by
  constructor
  case clear => exact h
  case set =>
    rw [bit_orBit hj]
    simp
  case same =>
    intro b hb
    rw [bit_orBit hj, decide_eq_false hb, Bool.false_or]

theorem oneMore_firstClear (h : FirstClear m c) : OneMore c m (orBit (c / 8) (c % 8) m) := by
  have hbit := h.1
  rw [← Nat.div_add_mod c 8] at hbit
  have hone := oneMore_orBit (Nat.mod_lt c (by decide)) hbit
  rwa [Nat.div_add_mod] at hone

theorem oneMore_clearBit (h : bit m b = true) : OneMore b (clearBit (b / 8) (b % 8) m) m := by
  have hb : 8 * (b / 8) + b % 8 = b := Nat.div_add_mod b 8
  have hj : b % 8 < 8 := Nat.mod_lt b (by decide)
  constructor
  case clear =>
    rw [bit_clearBit hj, hb]
    simp
  case set => exact h
  case same =>
    intro c hc
    rw [bit_clearBit hj, hb, decide_eq_true hc, Bool.true_and]

theorem orBit_same (x : Nat) (hx : x ≠ i) : orBit i j m x = m x := if_neg hx

theorem clearBit_same (x : Nat) (hx : x ≠ i) : clearBit i j m x = m x := if_neg hx

/-! ## allocating and freeing -/

theorem areaSize_pos (h : g.Valid) : 0 < g.areaSize := by
  have hge := h.blksz_ge
  rw [Geometry.areaSize]
  omega

/-- The byte of a bit lies in the block of the bitmap that stands for its area. -/
theorem byte_div (c : Nat) : c / 8 / g.blksz = c / g.areaSize := Nat.div_div_eq_div_mul c 8 g.blksz

theorem area_lt (hc : c < g.areaSize * g.nblkBrb) : c / g.areaSize < g.nblkBrb :=
  Nat.div_lt_of_lt_mul hc

/-- The scan runs over all bits of the bitmap. -/
theorem scan_size (h : g.Valid) : u32 (g.blksz * g.nblkBrb) = g.blksz * g.nblkBrb := u32_of_lt h.brb_lt

theorem areaSize_mul : g.areaSize * g.nblkBrb = 8 * (g.blksz * g.nblkBrb) := Nat.mul_assoc 8 _ _

/-- `alloc_blk` takes the first clear bit. -/
theorem allocBlk_first (h : g.Valid) (hc : FirstClear s.brb c) (hlt : c < g.areaSize * g.nblkBrb) :
    ∃ s', allocBlk g s = some (u32 c, s') ∧
      Updated g (fun n => u32 (n + 1)) (c / g.areaSize) (orBit (c / 8) (c % 8) s.brb) s s' := by
  obtain ⟨s', hs', hu⟩ := updateMaps_spec (d := fun n => u32 (n + 1)) (s := s)
    (m := orBit (c / 8) (c % 8) s.brb) h (area_lt hlt)
  refine ⟨s', ?_, hu⟩
  rw [areaSize_mul] at hlt
  rw [allocBlk, scan_size h, scanBytes_firstClear hc hlt]
  dsimp only
  rw [byte_div, hs', Option.map_some, Nat.mul_comm, Nat.div_add_mod]

/-- On a full bitmap `alloc_blk` gives 0. -/
theorem allocBlk_full (h : g.Valid)
    (hfull : ∀ b, b < g.areaSize * g.nblkBrb → bit s.brb b = true) : allocBlk g s = some (0, s) := by
  rw [allocBlk, scan_size h]
  cases hs : scanBytes s.brb (g.blksz * g.nblkBrb) 0 with
  | none => rfl
  | some p =>
      obtain ⟨i, j⟩ := p
      obtain ⟨-, hi, hj, hclear, -⟩ := scanBytes_some hs
      rw [areaSize_mul] at hfull
      rw [hfull _ (by omega)] at hclear
      cases hclear

/-- Either all bits are set, or one of them is the first that is not. -/
theorem full_or_first (n : Nat) (m : ByteMem) :
    (∀ b, b < n → bit m b = true) ∨ ∃ c, c < n ∧ FirstClear m c := by
  induction n with
  | zero => exact .inl fun b hb => absurd hb (Nat.not_lt_zero b)
  | succ n ih =>
      cases ih with
      | inr hfirst =>
          obtain ⟨c, hc, hfc⟩ := hfirst
          exact .inr ⟨c, by omega, hfc⟩
      | inl hfull =>
          cases hbit : bit m n with
          | false => exact .inr ⟨n, Nat.lt_succ_self n, hbit, hfull⟩
          | true =>
              left
              intro b hb
              by_cases hbn : b = n
              · rw [hbn]
                exact hbit
              · exact hfull b (by omega)

/-- `free_blk` for an area that there is. -/
theorem freeBlk_spec (h : g.Valid) (hb : b < g.nblk) (hbit : bit s.brb b = true)
    (harea : b / g.blksz < g.nblkBrb) :
    ∃ s', freeBlk g b s = some s' ∧
      Updated g (fun n => sub32 n 1) (b / g.blksz) (clearBit (b / 8) (b % 8) s.brb) s s' := by
  have hin : b < g.areaSize * g.nblkBrb := Nat.lt_of_lt_of_le hb h.covers
  obtain ⟨s', hs', hu⟩ := updateMaps_spec (d := fun n => sub32 n 1) (s := s)
    (m := clearBit (b / 8) (b % 8) s.brb) h harea
  refine ⟨s', ?_, hu⟩
  rw [areaSize_mul, Nat.mul_comm g.blksz] at hin
  rw [freeBlk, if_neg (by omega), if_neg (by omega), hbit, hs']
  rfl

/-- `free_blk` finds the right area for the first `blksz` blocks. -/
theorem freeBlk_low (h : g.Valid) (hb : b < g.nblk) (hlow : b < g.blksz) (hbit : bit s.brb b = true) :
    ∃ s', freeBlk g b s = some s' ∧
      Updated g (fun n => sub32 n 1) (b / g.areaSize) (clearBit (b / 8) (b % 8) s.brb) s s' := by
  have hA : b < g.areaSize := by
    rw [Geometry.areaSize]
    omega
  have harea : b / g.areaSize = b / g.blksz := by
    rw [Nat.div_eq_of_lt hA, Nat.div_eq_of_lt hlow]
  have hin : b < g.areaSize * g.nblkBrb := Nat.lt_of_lt_of_le hb h.covers
  rw [harea]
  exact freeBlk_spec h hb hbit (harea ▸ area_lt hin)

/-- A block outside the volume is not freed. -/
theorem freeBlk_out (hb : g.nblk ≤ b) : freeBlk g b s = some s := if_pos hb

/-- What `free_blk` leaves of a block of the volume, when it succeeds. -/
theorem freeBlk_some (h : freeBlk g b s = some s') (hb : b < g.nblk) (hbit : bit s.brb b = true) :
    s'.brb = clearBit (b / 8) (b % 8) s.brb ∧
      s'.tlrm = setWord (4 * (b / g.blksz)) (sub32 (word s.tlrm (4 * (b / g.blksz))) 1) s.tlrm ∧
      s'.hblk = setWord HBLK_NBLK_ALLOC (sub32 (word s.hblk HBLK_NBLK_ALLOC) 1) s.hblk := by
  rw [freeBlk, if_neg (by omega), hbit, Bool.not_true, if_neg Bool.false_ne_true] at h
  split at h
  · cases h
  · exact updateMaps_some (d := fun n => sub32 n 1) h

/-- From the block size on the area that `free_blk` computes is a later one. -/
theorem area_ne (h : g.Valid) (hb : g.blksz ≤ b) : b / g.areaSize ≠ b / g.blksz := by
  have hge := h.blksz_ge
  have hpos : 0 < b / g.blksz := Nat.div_pos hb (by omega)
  rw [Geometry.areaSize, Nat.mul_comm, ← Nat.div_div_eq_div_mul]
  omega

/-! ## events -/

/-- A call that changes the maps. -/
inductive BlkEvent where
  | alloc
  | free (b : Nat)
  deriving DecidableEq, Repr

namespace BlkEvent

/-- `free_blk` is called for an allocated block. -/
def Enabled (g : Geometry) (s : Maps) : BlkEvent → Prop
  | alloc => True
  | free b => b < 2 ^ 32 ∧ b < g.areaSize * g.nblkBrb ∧ bit s.brb b = true

/-- The maps after the call. -/
def run (g : Geometry) (s : Maps) : BlkEvent → Option Maps
  | alloc => (allocBlk g s).map Prod.snd
  | free b => freeBlk g b s

/-- The block is one of the first `blksz`, or outside the volume; the count
of an allocation fits in 32 bits. -/
def Sound (g : Geometry) (s : Maps) : BlkEvent → Prop
  | alloc => (∀ b, b < g.areaSize * g.nblkBrb → bit s.brb b = true) ∨ nset g s.brb + 1 < 2 ^ 32
  | free b => b < g.nblk → b < g.blksz

end BlkEvent

/-- The maps just after mounting. -/
def Mounted (g : Geometry) (s : Maps) : Prop := ∃ vol tbuf bbuf, loadFs vol tbuf bbuf = some (g, s)

/-- A mounted volume under calls of `alloc_blk` and `free_blk`, from a
consistent image on. -/
def volume (g : Geometry) : System Maps BlkEvent where
  init s := Mounted g s ∧ g.Valid ∧ Counts g s
  step s e s' := e.Enabled g s ∧ e.run g s = some s'

/-! ## what the events keep -/

theorem nset_lt (h : Counts g s) : nset g s.brb < 2 ^ 32 := by
  rw [← h.total]
  exact word_lt

/-- **Allocating** keeps the accounts, when the new count fits. -/
theorem accounts_alloc (h : g.Valid) (ha : Accounts g s) (hc : FirstClear s.brb c)
    (hlt : c < g.areaSize * g.nblkBrb) (hn : nset g s.brb + 1 < 2 ^ 32)
    (hu : Updated g (fun n => u32 (n + 1)) (c / g.areaSize) (orBit (c / 8) (c % 8) s.brb) s s') :
    Accounts g s' := by
  have hmore := oneMore_firstClear hc
  have hle := area_le_nset (m := s.brb) (area_lt hlt)
  constructor
  case counts =>
    apply hu.counts ha.counts (area_lt hlt)
    case harea =>
      intro a
      rw [hmore.area (areaSize_pos h)]
      by_cases hac : a = c / g.areaSize
      · rw [if_pos hac, if_pos hac, hac, u32_of_lt (by omega)]
      · rw [if_neg hac, if_neg hac]
    case hlt =>
      rw [hmore.area (areaSize_pos h), if_pos rfl]
      omega
    case htotal => rw [hmore.nset hlt, u32_of_lt hn]
    case hn =>
      rw [hmore.nset hlt]
      exact hn
  case synced =>
    refine hu.synced (fun x hx => orBit_same x ?_) ha.synced
    intro hxc
    rw [hxc, byte_div] at hx
    exact hx rfl

/-- **Freeing** one of the first `blksz` blocks keeps the accounts. -/
theorem accounts_free (h : g.Valid) (ha : Accounts g s) (hbit : bit s.brb b = true)
    (hlt : b < g.areaSize * g.nblkBrb)
    (hu : Updated g (fun n => sub32 n 1) (b / g.areaSize) (clearBit (b / 8) (b % 8) s.brb) s s') :
    Accounts g s' := by
  have hmore := oneMore_clearBit hbit
  have hn := nset_lt ha.counts
  have hle := area_le_nset (m := s.brb) (area_lt hlt)
  have hnset := hmore.nset hlt
  have harea := hmore.area (areaSize_pos h)
  have hb := harea (b / g.areaSize)
  rw [if_pos rfl] at hb
  constructor
  case counts =>
    apply hu.counts ha.counts (area_lt hlt)
    case harea =>
      intro a
      by_cases hab : a = b / g.areaSize
      · rw [if_pos hab, hab, hb, sub32_of_le (by omega) (by omega), Nat.add_sub_cancel]
      · rw [if_neg hab, harea, if_neg hab]
    case hlt => omega
    case htotal => rw [hnset, sub32_of_le (by omega) (by omega), Nat.add_sub_cancel]
    case hn => omega
  case synced =>
    refine hu.synced (fun x hx => clearBit_same x ?_) ha.synced
    intro hxb
    rw [hxb, byte_div] at hx
    exact hx rfl

/-- Freeing a later block of the volume leaves an entry that counts the freed
block. -/
theorem not_counts_free (h : g.Valid) (ha : Counts g s) (hbit : bit s.brb b = true)
    (hb : b < g.nblk) (hhigh : g.blksz ≤ b) (hs : freeBlk g b s = some s') : ¬ Counts g s' := by
  intro ha'
  obtain ⟨hbrb, htlrm, -⟩ := freeBlk_some hs hb hbit
  have harea : b / g.areaSize < g.nblkBrb := area_lt (Nat.lt_of_lt_of_le hb h.covers)
  have hne := area_ne h hhigh
  have hcount := (oneMore_clearBit hbit).area (areaSize_pos h) (b / g.areaSize)
  rw [if_pos rfl] at hcount
  have hold := ha.areas _ harea
  have hnew := ha'.areas _ harea
  rw [hbrb, htlrm, word_setWord_of_apart (by omega), hold] at hnew
  omega

/-- An allocation whose count does not fit. -/
theorem not_counts_alloc (hc : FirstClear s.brb c)
    (hlt : c < g.areaSize * g.nblkBrb) (hn : 2 ^ 32 ≤ nset g s.brb + 1)
    (hu : Updated g (fun n => u32 (n + 1)) (c / g.areaSize) (orBit (c / 8) (c % 8) s.brb) s s') :
    ¬ Counts g s' := by
  intro ha
  have hbound := nset_lt ha
  rw [hu.brb, (oneMore_firstClear hc).nset hlt] at hbound
  omega

/-! ## mounting -/

/-- `load_fs` reads the maps from the disk. -/
theorem onDisk_readMap {base n : Nat} {disk : Disk} {buf : ByteMem} (hn : base + n ≤ g.nblk)
    (hlt : g.nblk < 2 ^ 32) : OnDisk g base n (readMap g base n disk buf) disk := by
  intro k i hk hi
  have hx : k * g.blksz + i < n * g.blksz := by
    have hmul : (k + 1) * g.blksz ≤ n * g.blksz := Nat.mul_le_mul_right _ hk
    rw [Nat.add_mul, Nat.one_mul] at hmul
    omega
  have hdiv : (k * g.blksz + i) / g.blksz = k := by
    rw [Nat.mul_comm, Nat.mul_add_div (by omega), Nat.div_eq_of_lt hi, Nat.add_zero]
  have hmod : (k * g.blksz + i) % g.blksz = i := by
    rw [Nat.mul_comm, Nat.mul_add_mod, Nat.mod_eq_of_lt hi]
  rw [readMap, if_pos hx, hdiv, hmod, u32_of_lt (by omega), readBlk, if_neg (by omega)]
  have hin := write_inside (a := 0) (f := disk (base + k)) (m := fun j => buf (k * g.blksz + j)) hi
  rw [Nat.zero_add] at hin
  exact hin.symm

/-- After mounting the copies on disk are those in memory. -/
theorem synced_mounted (h : Mounted g s) (hv : g.Valid) : Synced g s := by
  obtain ⟨vol, tbuf, bbuf, hload⟩ := h
  have htl := hv.tlrm
  have hbrb := hv.brb
  have hroot := hv.root
  have hrsvd := hv.rsvd
  rw [loadFs] at hload
  split at hload
  · cases hload
  · cases hload
    constructor
    case tlrm => exact onDisk_readMap (by omega) hv.nblk_lt
    case brb => exact onDisk_readMap (by omega) hv.nblk_lt
    case hblk =>
      intro i _
      show vol (_ * _ + (_ + i)) = vol (ECFS_HBLK_START + i)
      rw [← Nat.add_assoc, Nat.mul_comm, Nat.div_add_mod]

/-- One event that is sound keeps the accounts. -/
theorem accounts_step (h : g.Valid) (ha : Accounts g s) {e : BlkEvent} (hen : e.Enabled g s)
    (hok : e.Sound g s) : ∃ s', e.run g s = some s' ∧ Accounts g s' := by
  cases e with
  | alloc =>
      cases full_or_first (g.areaSize * g.nblkBrb) s.brb with
      | inl hfull =>
          refine ⟨s, ?_, ha⟩
          rw [BlkEvent.run, allocBlk_full h hfull]
          rfl
      | inr hfirst =>
          obtain ⟨c, hlt, hc⟩ := hfirst
          obtain ⟨s', hs', hu⟩ := allocBlk_first h hc hlt
          refine ⟨s', ?_, ?_⟩
          · rw [BlkEvent.run, hs']
            rfl
          · refine accounts_alloc h ha hc hlt ?_ hu
            cases hok with
            | inl hfull =>
                have hset := hfull c hlt
                rw [hc.1] at hset
                cases hset
            | inr hn => exact hn
  | free b =>
      obtain ⟨-, hlt, hbit⟩ := hen
      by_cases hb : b < g.nblk
      · obtain ⟨s', hs', hu⟩ := freeBlk_low h hb (hok hb) hbit
        exact ⟨s', hs', accounts_free h ha hbit hlt hu⟩
      · exact ⟨s, freeBlk_out (by omega), ha⟩

/-- An event that is not sound breaks them. -/
theorem not_accounts_step (h : g.Valid) (ha : Accounts g s) {e : BlkEvent} (hen : e.Enabled g s)
    (hok : ¬ e.Sound g s) : ¬ ∃ s', e.run g s = some s' ∧ Accounts g s' := by
  intro hex
  obtain ⟨s', hs', ha'⟩ := hex
  cases e with
  | alloc =>
      obtain ⟨hfull, hn⟩ := not_or.mp hok
      cases full_or_first (g.areaSize * g.nblkBrb) s.brb with
      | inl hall => exact hfull hall
      | inr hfirst =>
          obtain ⟨c, hlt, hc⟩ := hfirst
          obtain ⟨t, ht, hu⟩ := allocBlk_first h hc hlt
          rw [BlkEvent.run, ht] at hs'
          obtain rfl := Option.some.inj hs'
          exact not_counts_alloc hc hlt (by omega) hu ha'.counts
  | free b =>
      obtain ⟨hb, hhigh⟩ := Classical.not_imp.mp hok
      exact not_counts_free h ha.counts hen.2.2 hb (by omega) hs' ha'.counts

/-- Freeing block `c` just after `alloc_blk` returned it restores the maps. -/
def Restores (g : Geometry) (s : Maps) (c : Nat) : Prop :=
  ∃ s' s'', allocBlk g s = some (c, s') ∧ freeBlk g c s' = some s'' ∧
    s''.brb = s.brb ∧ s''.tlrm = s.tlrm ∧ s''.hblk = s.hblk

/-- Counting down after counting up. -/
theorem sub32_u32 {n : Nat} (h : n < 2 ^ 32) : sub32 (u32 (n + 1)) 1 = n := by
  rw [sub32, u32, u32, u32]
  omega

/-- Which block is restored. -/
theorem restores_iff (h : g.Valid) (ha : Accounts g s) (hc : FirstClear s.brb c)
    (hlt : c < g.areaSize * g.nblkBrb) : Restores g s c ↔ c < g.nblk ∧ c < g.blksz := by
  have hc32 : c < 2 ^ 32 := by
    have hfull : countBits s.brb 0 c = c := countBits_full fun b _ hb => hc.2 b (by omega)
    have hle : countBits s.brb 0 c ≤ nset g s.brb := countBits_mono (Nat.le_refl 0) (by omega)
    have hn := nset_lt ha.counts
    omega
  obtain ⟨s', hs', hu⟩ := allocBlk_first h hc hlt
  rw [u32_of_lt hc32] at hs'
  have hbit : bit s'.brb c = true := by
    rw [hu.brb]
    exact (oneMore_firstClear hc).set
  have hclear : clearBit (c / 8) (c % 8) s'.brb = s.brb := by
    rw [hu.brb]
    refine clearBit_orBit (Nat.mod_lt c (by decide)) ?_
    rw [Nat.div_add_mod]
    exact hc.1
  constructor
  case mp =>
    intro hre
    obtain ⟨t, u, ht, hfree, hbrb, htlrm, -⟩ := hre
    rw [hs'] at ht
    cases ht
    by_cases hb : c < g.nblk
    · refine ⟨hb, Nat.lt_of_not_le fun hhigh => ?_⟩
      obtain ⟨-, htl, -⟩ := freeBlk_some hfree hb hbit
      -- the entry of the block's own area still counts it
      have hne := area_ne h hhigh
      have hword : word u.tlrm (4 * (c / g.areaSize)) = word s.tlrm (4 * (c / g.areaSize)) := by
        rw [htlrm]
      have hold := word_lt (m := s.tlrm) (a := 4 * (c / g.areaSize))
      rw [htl, word_setWord_of_apart (by omega), hu.tlrm, word_setWord (u32_lt _)] at hword
      rw [u32] at hword
      omega
    · rw [freeBlk_out (by omega)] at hfree
      obtain rfl := Option.some.inj hfree
      rw [hbrb, hc.1] at hbit
      cases hbit
  case mpr =>
    intro hcond
    obtain ⟨s'', hs'', hu'⟩ := freeBlk_low h hcond.1 hcond.2 hbit
    refine ⟨s', s'', hs', hs'', ?_, ?_, ?_⟩
    · rw [hu'.brb, hclear]
    · rw [hu'.tlrm, hu.tlrm, word_setWord (u32_lt _), setWord_setWord, sub32_u32 word_lt, setWord_word]
    · rw [hu'.hblk, hu.hblk, word_setWord (u32_lt _), setWord_setWord, sub32_u32 word_lt, setWord_word]

/-! ## a volume of two areas -/

/-- The geometry of a volume of 10000 blocks of 1 KiB. -/
def smallGeometry : Geometry := ⟨1024, 10000, 2, 3, 1, 2, 6, 5⟩

/-- Its head block, with `n` allocated blocks. -/
def smallHblk (n : Nat) : ByteMem :=
  setWord HBLK_BLK_TLRM 2 (setWord HBLK_NBLK_TLRM 1 (setWord HBLK_BLK_BRB 3
    (setWord HBLK_NBLK_BRB 2 (setWord HBLK_BLK_ROOT 5 (setWord HBLK_BLKSZ 1024
      (setWord HBLK_NBLK 10000 (setWord HBLK_NBLK_ALLOC n (setWord HBLK_NBLK_RSVD 6
        (setWord HBLK_REVISION 1 fun i => ECFS_SIG.getD i 0)))))))))

/-- The volume with its first `n` blocks allocated, all in the first area. -/
def smallVolume (n : Nat) : ByteMem := fun x =>
  if x / 1024 = 1 then smallHblk n (x % 1024)
  else if x / 1024 = 2 then setWord 0 n (fun _ => 0) (x % 1024)
  else lowBits n (x - 3 * 1024)

/-- The maps of the volume. -/
def smallMaps (n : Nat) : Maps where
  disk := blocksOf 1024 (smallVolume n)
  hblk := volumeHblk (smallVolume n)
  tlrm := readMap smallGeometry 2 1 (blocksOf 1024 (smallVolume n)) fun _ => 0
  brb := readMap smallGeometry 3 2 (blocksOf 1024 (smallVolume n)) fun _ => 0

theorem smallGeometry_valid : smallGeometry.Valid where
  pow := ⟨10, by decide, by decide, rfl⟩
  nblk_lt := by decide
  head := by decide
  tlrm := by decide
  brb := by decide
  root := by decide
  rsvd := by decide
  covers := by decide
  exact := by decide
  summarised := by decide

theorem mounted_small : Mounted smallGeometry (smallMaps 1025) := by
  refine ⟨smallVolume 1025, fun _ => 0, fun _ => 0, ?_⟩
  have hsig : (List.range 4).map (volumeHblk (smallVolume 1025)) = ECFS_SIG := by decide +kernel
  have hgeo : Geometry.ofHblk (volumeHblk (smallVolume 1025)) = smallGeometry := by decide +kernel
  rw [loadFs]
  dsimp only
  rw [if_neg (not_not.mpr hsig), hgeo]
  rfl

theorem bit_small (b : Nat) : bit (smallMaps 1025).brb b = decide (b < 1025) := by
  by_cases hb : b / 8 < 2048
  · have hon : OnDisk smallGeometry 3 2 (smallMaps 1025).brb (smallMaps 1025).disk :=
      onDisk_readMap (by decide) (by decide)
    have hdisk : (smallMaps 1025).disk (3 + b / 8 / 1024) (b / 8 % 1024) =
        (smallMaps 1025).brb (b / 8 / 1024 * 1024 + b / 8 % 1024) :=
      hon _ _ (by omega) (Nat.mod_lt _ (by decide))
    rw [Nat.mul_comm, Nat.div_add_mod] at hdisk
    have hvol : (smallMaps 1025).disk (3 + b / 8 / 1024) (b / 8 % 1024) = lowBits 1025 (b / 8) := by
      show smallVolume 1025 ((3 + b / 8 / 1024) * 1024 + b / 8 % 1024) = _
      have hsub : (3 + b / 8 / 1024) * 1024 + b / 8 % 1024 - 3 * 1024 = b / 8 := by omega
      rw [smallVolume, if_neg (by omega), if_neg (by omega), hsub]
    rw [bit, ← hdisk, hvol]
    exact bit_lowBits
  · have hbuf : (smallMaps 1025).brb (b / 8) = 0 := if_neg hb
    rw [bit, hbuf, decide_eq_false (by omega)]
    exact Nat.zero_testBit _

theorem counts_small : Counts smallGeometry (smallMaps 1025) := by
  constructor
  case areas =>
    intro a ha
    have hcase : a = 0 ∨ a = 1 := by
      have hbound : a < 2 := ha
      omega
    rw [countBits_below bit_small]
    obtain rfl | rfl := hcase
    · decide +kernel
    · decide +kernel
  case total =>
    rw [nset, countBits_below bit_small]
    decide +kernel

theorem small_init : (volume smallGeometry).init (smallMaps 1025) :=
  ⟨mounted_small, smallGeometry_valid, counts_small⟩

/-! ## the accounts over runs -/

/-- **The accounts** hold after any events that are sound; the next event
keeps them just if it is sound; and freeing the block that `alloc_blk` takes
restores the maps just if it is one of the first `blksz` of the volume. -/
theorem accounts_iff (g : Geometry) (s : Maps)
    (hs : (volume g).Reachable (fun s e => e.Sound g s) s) :
    Accounts g s ∧
    (∀ e : BlkEvent, e.Enabled g s →
      ((∃ s', e.run g s = some s' ∧ Accounts g s') ↔ e.Sound g s)) ∧
    ∀ c, FirstClear s.brb c → c < g.areaSize * g.nblkBrb →
      (Restores g s c ↔ c < g.nblk ∧ c < g.blksz) := by
  have hinv : g.Valid ∧ Accounts g s := by
    apply hs.invariant
    · intro s hinit
      exact ⟨hinit.2.1, hinit.2.2, synced_mounted hinit.1 hinit.2.1⟩
    · intro s e s' hi hok hst
      obtain ⟨t, ht, ha⟩ := accounts_step hi.1 hi.2 hst.1 hok
      rw [hst.2] at ht
      obtain rfl := Option.some.inj ht
      exact ⟨hi.1, ha⟩
  obtain ⟨hv, ha⟩ := hinv
  refine ⟨ha, fun e hen => ?_, fun c hc hlt => restores_iff hv ha hc hlt⟩
  constructor
  · intro hex
    by_contra hok
    exact not_accounts_step hv ha hen hok hex
  · exact accounts_step hv ha hen

theorem accounts_iff_example :
    Accounts smallGeometry (smallMaps 1025) ∧ ¬ Restores smallGeometry (smallMaps 1025) 1025 := by
  obtain ⟨ha, -, hre⟩ := accounts_iff smallGeometry (smallMaps 1025) (Reachable.of_init small_init)
  have hfirst : FirstClear (smallMaps 1025).brb 1025 := by
    constructor
    · rw [bit_small]
      rfl
    · intro b hb
      rw [bit_small, decide_eq_true hb]
  have hiff := hre 1025 hfirst (by decide)
  refine ⟨ha, fun hcon => ?_⟩
  exact absurd (hiff.mp hcon).2 (by decide)

/-- Block 1024 is allocated and in the first area; freeing it counts down the
second. -/
theorem not_accounts : ¬ ∀ (g : Geometry) (s s' : Maps) (e : BlkEvent),
    (volume g).Reachable Any s → (volume g).step s e s' → Accounts g s' := by
  intro hall
  have hreach : (volume smallGeometry).Reachable Any (smallMaps 1025) := Reachable.of_init small_init
  have hbit : bit (smallMaps 1025).brb 1024 = true := by
    rw [bit_small]
    rfl
  have hblk : (1024 / smallGeometry.blksz : Nat) < smallGeometry.nblkBrb := by decide
  obtain ⟨s', hs', -⟩ := updateMaps_spec (d := fun n => sub32 n 1) (s := smallMaps 1025)
    (m := clearBit (1024 / 8) (1024 % 8) (smallMaps 1025).brb) smallGeometry_valid hblk
  have hfree : freeBlk smallGeometry 1024 (smallMaps 1025) = some s' := by
    rw [freeBlk, if_neg (by decide), if_neg (by decide), hbit, ← hs']
    rfl
  have hen : (BlkEvent.free 1024).Enabled smallGeometry (smallMaps 1025) := ⟨by decide, by decide, hbit⟩
  have ha := hall smallGeometry (smallMaps 1025) s' (.free 1024) hreach ⟨hen, hfree⟩
  exact not_counts_free smallGeometry_valid counts_small hbit (by decide) (by decide) hfree ha.counts

end Eclair
