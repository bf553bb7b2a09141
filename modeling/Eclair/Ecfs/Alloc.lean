import Eclair.Ecfs.Format

/-!
# Eclair.Ecfs.Alloc

What `alloc_blk` returns on a volume that `genfs` formatted.

The last block of the bitmap may stand for more blocks than the volume has.
`genfs` leaves the bits of those clear and `alloc_blk` does not look at
`nblk`, so on a full volume it returns one of them, unless the volume is a
whole number of areas (`allocSound_iff`).
-/

namespace Eclair

open ByteMem System

/-- **Soundness of an allocation**: `alloc_blk` returns 0 if no block of the
volume is free, and else a free block of the volume beyond the reserved ones,
so that what is written to it reaches the device. -/
def AllocSound (g : Geometry) (s : Maps) : Prop :=
  ∃ b s', allocBlk g s = some (b, s') ∧
    ((b = 0 ∧ ∀ c, c < g.nblk → bit s.brb c = true) ∨
      (g.nblkRsvd ≤ b ∧ b < g.nblk ∧ bit s.brb b = false ∧
        ∀ (buf : ByteMem) (i : Nat), i < g.blksz → writeBlk g b buf s'.disk b i = buf i))

/-- Reserved blocks are marked, and no block outside the volume is. -/
structure Marked (g : Geometry) (m : ByteMem) : Prop where
  reserved : ∀ b, b < g.nblkRsvd → bit m b = true
  padding : ∀ b, g.nblk ≤ b → b < g.areaSize * g.nblkBrb → bit m b = false

/-- There is something left to allocate, or nothing behind the last block. -/
def HasRoom (g : Geometry) (s : Maps) : Prop :=
  (∃ c, c < g.nblk ∧ bit s.brb c = false) ∨ g.areaSize ∣ g.nblk

/-- `alloc_blk` is called while there is room, and `free_blk` for a block that
is not allocated or one beyond the reserved ones whose area, as it computes
that, there is. -/
def BlkEvent.Safe (g : Geometry) (s : Maps) : BlkEvent → Prop
  | alloc => HasRoom g s
  | free b => g.nblk ≤ b ∨ bit s.brb b = false ∨ (g.nblkRsvd ≤ b ∧ b / g.blksz < g.nblkBrb)

/-- A volume under calls of `alloc_blk` and `free_blk`, from formatting on. -/
def newVolume (g : Geometry) : System Maps BlkEvent where
  init s := g.Valid ∧ ∃ osid tm blk vol vol' tbuf bbuf, g = newGeometry g.blksz g.nblk ∧
    genfs g.blksz g.nblk osid tm blk vol = some vol' ∧ loadFs vol' tbuf bbuf = some (g, s)
  step s e s' := e.run g s = some s'

variable {g : Geometry} {s s' : Maps} {b c : Nat}

/-! ## one call -/

/-- The bitmap has a whole number of areas. -/
theorem dvd_iff (h : g.Valid) : g.areaSize ∣ g.nblk ↔ g.nblk = g.areaSize * g.nblkBrb := by
  have hcov : g.nblk ≤ g.areaSize * g.nblkBrb := h.covers
  have hex : g.areaSize * (g.nblkBrb - 1) < g.nblk := h.exact
  have hpos := h.nblkBrb_pos
  constructor
  · intro hdvd
    obtain ⟨q, hq⟩ := hdvd
    rw [hq] at hcov hex ⊢
    have h1 := Nat.le_of_mul_le_mul_left hcov (areaSize_pos h)
    have h2 := Nat.lt_of_mul_lt_mul_left hex
    rw [show q = g.nblkBrb by omega]
  · intro heq
    rw [heq]
    exact Nat.dvd_mul_right _ _

/-- What `alloc_blk` can do while the marks are right. -/
theorem allocBlk_cases (h : g.Valid) (hm : Marked g s.brb) :
    (g.areaSize ∣ g.nblk ∧ (∀ c, c < g.nblk → bit s.brb c = true) ∧ allocBlk g s = some (0, s)) ∨
    ∃ c s', FirstClear s.brb c ∧ g.nblkRsvd ≤ c ∧ c ≤ g.nblk ∧ (g.areaSize ∣ g.nblk → c < g.nblk) ∧
      allocBlk g s = some (c, s') ∧
      Updated g (fun n => u32 (n + 1)) (c / g.areaSize) (orBit (c / 8) (c % 8) s.brb) s s' := by
  have hcov : g.nblk ≤ g.areaSize * g.nblkBrb := h.covers
  have hlt := h.nblk_lt
  cases full_or_first (g.areaSize * g.nblkBrb) s.brb with
  | inl hfull =>
      left
      refine ⟨?_, fun c hc => hfull c (by omega), allocBlk_full h hfull⟩
      rw [dvd_iff h]
      by_contra hne
      have hpad := hm.padding g.nblk (Nat.le_refl _) (by omega)
      rw [hfull g.nblk (by omega)] at hpad
      cases hpad
  | inr hfirst =>
      right
      obtain ⟨c, hc, hfc⟩ := hfirst
      have hge : g.nblkRsvd ≤ c := by
        by_contra hlow
        have hres := hm.reserved c (by omega)
        rw [hfc.1] at hres
        cases hres
      have hle : c ≤ g.nblk := by
        by_contra hgt
        have hpad := hm.padding g.nblk (Nat.le_refl _) (by omega)
        rw [hfc.2 g.nblk (by omega)] at hpad
        cases hpad
      obtain ⟨s', hs', hu⟩ := allocBlk_first h hfc hc
      rw [u32_of_lt (by omega)] at hs'
      refine ⟨c, s', hfc, hge, hle, fun hdvd => ?_, hs', hu⟩
      rw [dvd_iff h] at hdvd
      omega

/-- While there is room the first clear bit is a block of the volume. -/
theorem firstClear_lt (hroom : HasRoom g s) (hc : FirstClear s.brb c)
    (hdvd : g.areaSize ∣ g.nblk → c < g.nblk) : c < g.nblk := by
  cases hroom with
  | inl hfree =>
      obtain ⟨b, hb, hbit⟩ := hfree
      by_contra hge
      rw [hc.2 b (by omega)] at hbit
      cases hbit
  | inr hno => exact hdvd hno

/-- The next allocation is sound just if there is room. -/
theorem allocSound_hasRoom (h : g.Valid) (hm : Marked g s.brb) : AllocSound g s ↔ HasRoom g s := by
  have hroot := h.root
  cases allocBlk_cases h hm with
  | inl hfull =>
      obtain ⟨hdvd, hset, hs⟩ := hfull
      exact ⟨fun _ => .inr hdvd, fun _ => ⟨0, s, hs, .inl ⟨rfl, hset⟩⟩⟩
  | inr hfirst =>
      obtain ⟨c, s', hfc, hge, -, hdvd, hs', -⟩ := hfirst
      constructor
      · intro hsound
        obtain ⟨b, t, ht, hcase⟩ := hsound
        rw [hs'] at ht
        cases ht
        cases hcase with
        | inl h0 => omega
        | inr hin => exact .inl ⟨c, hin.2.1, hfc.1⟩
      · intro hroom
        have hin := firstClear_lt hroom hfc hdvd
        exact ⟨c, s', hs', .inr ⟨hge, hin, hfc.1, fun buf i hi => writeBlk_self hin hi⟩⟩

/-- Taking a block while one of the volume is free. -/
theorem allocBlk_free (h : g.Valid) (hres : ∀ b, b < g.nblkRsvd → bit s.brb b = true)
    (hfree : countBits s.brb 0 g.nblk < g.nblk) :
    ∃ c s', allocBlk g s = some (c, s') ∧ g.nblkRsvd ≤ c ∧ c < g.nblk ∧ OneMore c s.brb s'.brb ∧
      ∀ b, g.nblkRsvd ≤ b → s'.disk b = s.disk b := by
  have hcov : g.nblk ≤ g.areaSize * g.nblkBrb := h.covers
  have hlt := h.nblk_lt
  have hhead := h.head
  have htl := h.tlrm
  have hbrb := h.brb
  have hroot := h.root
  cases full_or_first g.nblk s.brb with
  | inl hfull =>
      rw [countBits_full fun b _ hb => hfull b (by omega)] at hfree
      exact absurd hfree (Nat.lt_irrefl _)
  | inr hfirst =>
      obtain ⟨c, hc, hfc⟩ := hfirst
      obtain ⟨s', hs', hu⟩ := allocBlk_first h hfc (by omega)
      rw [u32_of_lt (by omega)] at hs'
      refine ⟨c, s', hs', ?_, hc, ?_, fun b hb => hu.frame b (by omega) (.inr (by omega))⟩
      · by_contra hlow
        have hmark := hres c (by omega)
        rw [hfc.1] at hmark
        cases hmark
      · rw [hu.brb]
        exact oneMore_firstClear hfc

/-- `free_blk` of a block that is not allocated. -/
theorem freeBlk_clear (h : g.Valid) (hbit : bit s.brb b = false) : freeBlk g b s = some s := by
  by_cases hb : b < g.nblk
  · have hin : b < g.areaSize * g.nblkBrb := Nat.lt_of_lt_of_le hb h.covers
    rw [areaSize_mul, Nat.mul_comm g.blksz] at hin
    rw [freeBlk, if_neg (by omega), if_neg (by omega), hbit]
    rfl
  · exact freeBlk_out (by omega)

/-- A block of the volume that is taken. -/
theorem Marked.orBit (hm : Marked g s.brb) (hc : FirstClear s.brb c) (hlt : c < g.nblk) :
    Marked g (orBit (c / 8) (c % 8) s.brb) := by
  have hmore := oneMore_firstClear hc
  constructor
  case reserved =>
    intro d hd
    by_cases hdc : d = c
    · rw [hdc]
      exact hmore.set
    · rw [hmore.same d hdc]
      exact hm.reserved d hd
  case padding =>
    intro d h1 h2
    rw [hmore.same d (by omega)]
    exact hm.padding d h1 h2

/-- A block beyond the reserved ones that is given back. -/
theorem Marked.clearBit (hm : Marked g s.brb) (hbit : bit s.brb b = true) (hge : g.nblkRsvd ≤ b)
    (hlt : b < g.nblk) : Marked g (clearBit (b / 8) (b % 8) s.brb) := by
  have hmore := oneMore_clearBit hbit
  constructor
  case reserved =>
    intro d hd
    rw [← hmore.same d (by omega)]
    exact hm.reserved d hd
  case padding =>
    intro d h1 h2
    rw [← hmore.same d (by omega)]
    exact hm.padding d h1 h2

/-- A safe event succeeds and keeps the marks. -/
theorem marked_step (h : g.Valid) (hm : Marked g s.brb) {e : BlkEvent} (hok : e.Safe g s) :
    ∃ s', e.run g s = some s' ∧ Marked g s'.brb := by
  cases e with
  | alloc =>
      cases allocBlk_cases h hm with
      | inl hfull =>
          refine ⟨s, ?_, hm⟩
          rw [BlkEvent.run, hfull.2.2]
          rfl
      | inr hfirst =>
          obtain ⟨c, s', hfc, -, -, hdvd, hs', hu⟩ := hfirst
          refine ⟨s', ?_, ?_⟩
          · rw [BlkEvent.run, hs']
            rfl
          · rw [hu.brb]
            exact hm.orBit hfc (firstClear_lt hok hfc hdvd)
  | free b =>
      by_cases hb : b < g.nblk
      · cases hbit : bit s.brb b with
        | false => exact ⟨s, freeBlk_clear h hbit, hm⟩
        | true =>
            have hin : g.nblkRsvd ≤ b ∧ b / g.blksz < g.nblkBrb := by
              cases hok with
              | inl hge => omega
              | inr hok =>
                  rw [hbit] at hok
                  exact hok.resolve_left Bool.noConfusion
            obtain ⟨s', hs', hu⟩ := freeBlk_spec h hb hbit hin.2
            refine ⟨s', hs', ?_⟩
            rw [hu.brb]
            exact hm.clearBit hbit hin.1 hb
      · exact ⟨s, freeBlk_out (by omega), hm⟩

/-! ## runs -/

/-- A new volume has the reserved blocks marked, and no others. -/
theorem newVolume_init (hs : (newVolume g).init s) :
    g.Valid ∧ ∀ b, b < g.areaSize * g.nblkBrb → bit s.brb b = decide (b < g.nblkRsvd) := by
  obtain ⟨hv, osid, tm, blk, vol, vol', tbuf, bbuf, hg, hgen, hload⟩ := hs
  refine ⟨hv, ?_⟩
  rw [hg] at hv
  obtain ⟨v, hv', hw⟩ := genfs_written hv osid tm blk vol
  rw [hgen] at hv'
  obtain rfl := Option.some.inj hv'
  obtain ⟨t, ht, hdisk, -⟩ := loadFs_written hv hw tbuf bbuf
  rw [← hg] at ht hv hw hdisk
  rw [hload] at ht
  cases ht
  exact fun b hb => bit_brb hv hw (synced_mounted ⟨_, _, _, hload⟩ hv) hdisk hb

theorem marked_init (hs : (newVolume g).init s) : g.Valid ∧ Marked g s.brb := by
  obtain ⟨hv, hbits⟩ := newVolume_init hs
  have hcov : g.nblk ≤ g.areaSize * g.nblkBrb := hv.covers
  have hrsvd := hv.rsvd
  refine ⟨hv, ?_, ?_⟩
  · intro b hb
    rw [hbits b (by omega), decide_eq_true hb]
  · intro b h1 h2
    rw [hbits b h2, decide_eq_false (by omega)]

theorem newVolume_marked (hs : (newVolume g).Reachable (fun s e => e.Safe g s) s) :
    g.Valid ∧ Marked g s.brb := by
  apply hs.invariant
  · exact fun s => marked_init
  · intro s e s' hi hok hst
    obtain ⟨t, ht, hm⟩ := marked_step hi.1 hi.2 hok
    have heq : s' = t := Option.some.inj (hst.symm.trans ht)
    rw [heq]
    exact ⟨hi.1, hm⟩

/-- **Allocation**: after any safe events on a new volume every safe event
succeeds, and `alloc_blk` is sound just if there is room. -/
theorem allocSound_iff (g : Geometry) (s : Maps)
    (hs : (newVolume g).Reachable (fun s e => e.Safe g s) s) :
    (∀ e : BlkEvent, e.Safe g s → ∃ s', e.run g s = some s') ∧
      (AllocSound g s ↔ HasRoom g s) := by
  obtain ⟨hv, hm⟩ := newVolume_marked hs
  refine ⟨fun e hok => ?_, allocSound_hasRoom hv hm⟩
  obtain ⟨s', hs', -⟩ := marked_step hv hm hok
  exact ⟨s', hs'⟩

/-- There is a new volume of every size that has room for its maps. -/
theorem exists_newVolume (k nblk : Nat) (h1 : 10 ≤ k) (h2 : k ≤ 30) (hn : nblk < 2 ^ 32)
    (hroom : (newGeometry (2 ^ k) nblk).nblkRsvd ≤ nblk) :
    ∃ s, (newVolume (newGeometry (2 ^ k) nblk)).init s := by
  have hv := newGeometry_valid h1 h2 hn hroom
  obtain ⟨vol, hvol, hw⟩ := genfs_written hv [] 0 (fun _ => 0) fun _ => 0
  obtain ⟨s, hs, -, -⟩ := loadFs_written hv hw (fun _ => 0) fun _ => 0
  exact ⟨s, hv, [], 0, _, _, vol, _, _, rfl, hvol, hs⟩

theorem allocSound_iff_example :
    ∃ s, (newVolume (newGeometry (2 ^ 10) 2880)).init s ∧
      AllocSound (newGeometry (2 ^ 10) 2880) s := by
  obtain ⟨s, hs⟩ := exists_newVolume 10 2880 (by decide) (by decide) (by decide)
    (by decide)
  refine ⟨s, hs, (allocSound_iff _ s (Reachable.of_init hs)).2.mpr (.inl ⟨5, by decide, ?_⟩)⟩
  rw [(newVolume_init hs).2 5 (by decide)]
  decide

/-- A volume of 5 blocks is full from the start, and block 5 is returned. -/
theorem not_allocSound :
    ¬ ∀ (g : Geometry) (s : Maps), (newVolume g).Reachable Any s → AllocSound g s := by
  intro hall
  obtain ⟨s, hs⟩ := exists_newVolume 10 5 (by decide) (by decide) (by decide)
    (by decide)
  obtain ⟨hv, hm⟩ := marked_init hs
  have hroom := (allocSound_hasRoom hv hm).mp (hall _ s (Reachable.of_init hs))
  cases hroom with
  | inl hfree =>
      obtain ⟨c, hc, hbit⟩ := hfree
      rw [hm.reserved c hc] at hbit
      cases hbit
  | inr hdvd => exact absurd hdvd (by decide)

end Eclair
