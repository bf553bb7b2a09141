import Eclair.Ecfs.Contents

/-!
# Eclair.Ecfs.FileLoops

The loops of `fs_write`, `fs_read` and `fs_truncate`, each by its invariant:
`Writing` for the first, `Clean` for the second, and for the third what the
entries before the loop index have become.
-/

namespace Eclair

open ByteMem Loop

variable {g : Geometry} {s s' : Maps} {n : Node} {f f' : OpenInfo} {d : Contents} {disk : Disk}
  {i j k b c p pos lo hi : Nat} {m buf : ByteMem}

/-! ## `fs_write` -/

/-- The contents after `bs` was written at `pos`. -/
def writeAt (d : Contents) (pos : Nat) (bs : Bytes) : Contents :=
  fun p => if pos ≤ p ∧ p < pos + bs.length then bs[p - pos]? else d p

theorem writeAt_nil : writeAt d pos [] = d := by
  funext p
  exact if_neg fun h => by
    rw [List.length_nil] at h
    omega

/-- Byte by byte. -/
theorem writeAt_cons (b : UInt8) (bs : Bytes) :
    writeAt (Function.update d pos (some b)) (pos + 1) bs = writeAt d pos (b :: bs) := by
  funext p
  rw [writeAt, writeAt, List.length_cons]
  by_cases hp : p = pos
  · rw [if_neg (by omega), if_pos (by omega), hp, Function.update_self, Nat.sub_self]
    rfl
  · by_cases hin : pos + 1 ≤ p ∧ p < pos + 1 + bs.length
    · rw [if_pos hin, if_pos (by omega), show p - pos = p - (pos + 1) + 1 by omega,
        List.getElem?_cons_succ]
    · rw [if_neg hin, if_neg (by omega), Function.update_of_ne hp]

/-- The blocks from `lo` to `hi` that the file does not have. -/
def need (g : Geometry) (s : Maps) (n : Node) (lo hi : Nat) : Nat :=
  ((Finset.Ico lo hi).filter fun i => blkAt g s.disk n i = 0).card

/-- Loading block `lo` uses up what it needs. -/
theorem need_loaded (h : Loaded g n lo s s' f f' d) (hlo : lo < hi) (hle : lo ≤ k) :
    need g s' n k hi + (if blkAt g s.disk n lo = 0 then 1 else 0) ≤ need g s n lo hi := by
  have hsub : (Finset.Ico k hi).filter (fun i => blkAt g s'.disk n i = 0) ⊆
      ((Finset.Ico lo hi).filter fun i => blkAt g s.disk n i = 0).erase lo := by
    intro j hj
    obtain ⟨hj1, hj2⟩ := Finset.mem_filter.mp hj
    obtain ⟨hj3, hj4⟩ := Finset.mem_Ico.mp hj1
    have hent := h.entries j
    rw [hj2] at hent
    have hnew : ¬ (j = lo ∧ blkAt g s.disk n lo = 0) := by
      intro hcon
      rw [if_pos hcon] at hent
      exact h.there hent.symm
    rw [if_neg hnew] at hent
    rw [Finset.mem_erase, Finset.mem_filter, Finset.mem_Ico]
    refine ⟨fun heq => hnew ⟨heq, ?_⟩, ⟨by omega, hj4⟩, hent.symm⟩
    rw [← heq, ← hent]
  have hcard := Finset.card_le_card hsub
  by_cases h0 : blkAt g s.disk n lo = 0
  · have hmem : lo ∈ (Finset.Ico lo hi).filter fun i => blkAt g s.disk n i = 0 := by
      rw [Finset.mem_filter, Finset.mem_Ico]
      exact ⟨⟨Nat.le_refl lo, hlo⟩, h0⟩
    have hpos := Finset.card_pos.mpr ⟨lo, hmem⟩
    rw [Finset.card_erase_of_mem hmem] at hcard
    rw [if_pos h0, need, need]
    omega
  · rw [if_neg h0, need, need]
    exact hcard.trans (Finset.card_le_card (Finset.erase_subset _ _))

/-- Putting a byte into the block that is kept. -/
theorem Writing.put (h : Writing g n s f d) (hb : f.bblk ≠ 0) (hi : f.i = pos / g.blksz)
    (b : UInt8) :
    Writing g n s { f with blk := Function.update f.blk (pos % g.blksz) b }
      (Function.update d pos (some b)) := by
  have hat := h.cached hb
  refine ⟨h.kept.withFile rfl rfl, h.owned, h.cached, fun p c hp => ?_⟩
  rw [byteAt]
  dsimp only
  by_cases hpp : p = pos
  · rw [hpp, Function.update_self] at hp
    rw [hpp, if_pos ⟨hb, hi.symm⟩, Function.update_self, ← hi, ← hat]
    exact ⟨hb, Option.some.inj hp⟩
  · rw [Function.update_of_ne hpp] at hp
    obtain ⟨hlink, hbyte⟩ := h.holds p c hp
    refine ⟨hlink, ?_⟩
    rw [byteAt] at hbyte
    by_cases hin : f.bblk ≠ 0 ∧ p / g.blksz = f.i
    · have hne : p % g.blksz ≠ pos % g.blksz := by
        intro heq
        have h1 := Nat.div_add_mod p g.blksz
        have h2 := Nat.div_add_mod pos g.blksz
        rw [hin.2, hi, heq] at h1
        omega
      rw [if_pos hin] at hbyte ⊢
      rw [Function.update_of_ne hne, hbyte]
    · rw [if_neg hin] at hbyte ⊢
      exact hbyte

/-- What a run of the loop of `fs_write` leaves. -/
structure Wrote (g : Geometry) (n : Node) (s s' : Maps) (f f' : OpenInfo) (d : Contents) : Prop where
  writing : Writing g n s' f' d
  entries : ∀ j, blkAt g s.disk n j ≠ 0 → blkAt g s'.disk n j = blkAt g s.disk n j
  frame : ∀ c, Outside g n s' c → s'.disk c = s.disk c
  same : f'.fsz = f.fsz ∧ f'.isOpen = f.isOpen ∧ f'.flags = f.flags

/-- **The loop of `fs_write`**, while there are as many free blocks as it needs. -/
theorem writeLoop_spec (pos hi : Nat) (hv : g.Valid) (hs : n.Shape g) (bs : Bytes) (h : Writing g n s f d)
    (hhi : ∀ q, q < bs.length → (pos + q) / g.blksz < hi)
    (hrange : ∀ j, pos / g.blksz ≤ j → j < hi → j + FILE_WORDS < g.limit ∧ n.Linked g j)
    (hroom : countBits s.brb 0 g.nblk + need g s n (pos / g.blksz) hi ≤ g.nblk) :
    ∃ s' f', writeLoop g bs pos s (n.withFile f) = some (0, s', n.withFile f') ∧
      Wrote g n s s' f f' (writeAt d pos bs) ∧ (f.bblk ≠ 0 ∨ bs ≠ [] → f'.bblk ≠ 0) := by
  induction bs generalizing pos s f d with
  | nil =>
      refine ⟨s, f, rfl, ⟨?_, fun j _ => rfl, fun c _ => rfl, rfl, rfl, rfl⟩,
        fun hne => hne.resolve_right fun hcon => hcon rfl⟩
      rw [writeAt_nil]
      exact h
  | cons b bs ih =>
      have hlo : pos / g.blksz < hi := hhi 0 (Nat.succ_pos _)
      have hle : pos / g.blksz ≤ (pos + 1) / g.blksz := Nat.div_le_div_right (Nat.le_succ pos)
      obtain ⟨hlim, hlink⟩ := hrange _ (Nat.le_refl _) hlo
      have hlimlt := limit_lt (g := g)
      have hfree : blkAt g s.disk n (pos / g.blksz) = 0 → countBits s.brb 0 g.nblk < g.nblk := by
        intro h0
        have hmem : pos / g.blksz ∈ (Finset.Ico (pos / g.blksz) hi).filter
            fun i => blkAt g s.disk n i = 0 := by
          rw [Finset.mem_filter, Finset.mem_Ico]
          exact ⟨⟨Nat.le_refl _, hlo⟩, h0⟩
        have hpos := Finset.card_pos.mpr ⟨_, hmem⟩
        rw [need] at hroom
        omega
      obtain ⟨t, e, hload, hl⟩ := loadForWrite_spec hv hs h hlim hlink hfree
      have hneed := need_loaded hl hlo hle
      have hcount := hl.count
      have hput := hl.writing.put hl.there hl.index b
      obtain ⟨s', f', hrun, hw, hbb⟩ := ih (pos + 1) hput
        (fun q hq => by
          rw [Nat.add_assoc, Nat.add_comm 1 q]
          exact hhi (q + 1) (Nat.succ_lt_succ hq))
        (fun j h1 h2 => hrange j (hle.trans h1) h2) (by omega)
      have hgrow : ∀ j, blkAt g s.disk n j ≠ 0 → blkAt g t.disk n j = blkAt g s.disk n j := by
        intro j hj
        rw [hl.entries j, if_neg fun hcon => hj (by rw [hcon.1, hcon.2])]
      refine ⟨s', f', ?_, ⟨?_, fun j hj => ?_, fun c hc => ?_, ?_⟩,
        fun _ => hbb (.inl hl.there)⟩
      · rw [writeLoop, u32_of_lt (by omega), hload, Option.bind_some]
        exact hrun
      · rw [← writeAt_cons]
        exact hw.writing
      · rw [hw.entries j (by rw [hgrow j hj]; exact hj), hgrow j hj]
      · rw [hw.frame c hc]
        exact hl.frame c (hc.before hv hw.entries)
      · exact ⟨hw.same.1.trans hl.same.1, hw.same.2.1.trans hl.same.2.1, hw.same.2.2.trans hl.same.2.2⟩

/-! ## `fs_read` -/

/-- An entry that is set is tracked, and its array block linked. -/
theorem blkAt_ne_zero (h : blkAt g disk n i ≠ 0) :
    i + FILE_WORDS < g.limit ∧ n.ablk (g.arrOf i) ≠ 0 := by
  rw [blkAt] at h
  split at h
  · exact absurd rfl h
  · next hin =>
      obtain ⟨hlim, hlink⟩ := not_or.mp hin
      exact ⟨by omega, hlink⟩

/-- **Loading a block for reading**, when the file has it. -/
theorem loadForRead_spec (hv : g.Valid) (hs : n.Shape g) (h : Clean g n s f) (ho : Owned g n s)
    (hat : blkAt g s.disk n i ≠ 0) :
    ∃ f', loadForRead g s.disk i (n.withFile f) = (true, n.withFile f') ∧ Clean g n s f' ∧
      f'.i = i ∧ f'.bblk ≠ 0 ∧ f'.fsz = f.fsz ∧ f'.isOpen = f.isOpen ∧ f'.flags = f.flags := by
  have hlimlt := limit_lt (g := g)
  rw [loadForRead]
  by_cases hload : f.bblk = 0 ∨ i ≠ f.i
  · obtain ⟨hlim, hlink⟩ := blkAt_ne_zero hat
    obtain ⟨arr, l, hget, hkept⟩ := nodeGetblk_spec (n := n.withFile { f with i := i }) (i := i) hv
      hs.withFile (h.kept.withFile rfl rfl) (by omega) fun _ => hlink
    have hload' : (n.withFile f).file.bblk = 0 ∨ i ≠ (n.withFile f).file.i := hload
    have hget' : nodeGetblk g s.disk i ((n.withFile f).modFile fun f => { f with i := i }) =
        (blkAt g s.disk n i, (n.withFile { f with i := i }).keep arr l) := hget
    have hlt := (ho.data i hat).2.1
    rw [if_pos hload']
    dsimp only
    rw [hget', if_neg hat]
    refine ⟨{ f with i := i, arr := arr, ablk := l, bblk := blkAt g s.disk n i,
                     blk := readBlk g (blkAt g s.disk n i) f.blk s.disk }, rfl, ?_, rfl, hat, rfl, rfl, rfl⟩
    exact ⟨⟨hkept.le, hkept.there, hkept.same⟩, fun _ => rfl, fun _ x hx => readBlk_lt hlt hx⟩
  · obtain ⟨hb, hi⟩ := not_or.mp hload
    exact ⟨f, if_neg hload, h, (not_not.mp hi).symm, hb, rfl, rfl, rfl⟩

/-- **The loop of `fs_read`**, over blocks that the file has. -/
theorem readLoop_spec (pos : Nat) (hv : g.Valid) (hs : n.Shape g) (ho : Owned g n s) (hst : Stored g s.disk n d)
    (k : Nat) (h : Clean g n s f)
    (hall : ∀ p, pos ≤ p → p < pos + k → p < f.fsz → blkAt g s.disk n (p / g.blksz) ≠ 0) :
    ∃ bs f', readLoop g s.disk k pos (n.withFile f) = (bs, n.withFile f') ∧
      bs.length = min k (f.fsz - pos) ∧
      (∀ q b, q < bs.length → d (pos + q) = some b → bs[q]? = some b) ∧
      Clean g n s f' ∧ f'.fsz = f.fsz ∧ f'.isOpen = f.isOpen ∧ f'.flags = f.flags := by
  induction k generalizing pos f with
  | zero =>
      refine ⟨[], f, rfl, (Nat.zero_min _).symm, fun q _ hq => absurd hq (Nat.not_lt_zero q), h,
        rfl, rfl, rfl⟩
  | succ k ih =>
      rw [readLoop]
      by_cases hend : pos ≥ f.fsz
      · refine ⟨[], f, if_pos hend, ?_, fun q _ hq => absurd hq (Nat.not_lt_zero q), h, rfl, rfl, rfl⟩
        rw [Nat.sub_eq_zero_of_le hend, Nat.min_zero]
        rfl
      · have hge := hv.blksz_ge
        have hlimlt := limit_lt (g := g)
        have hat := hall pos (Nat.le_refl pos) (by omega) (by omega)
        have hlim := (blkAt_ne_zero hat).1
        obtain ⟨e, hload, hclean, hidx, hbb, hsz, hopen, hfl⟩ := loadForRead_spec hv hs h ho hat
        obtain ⟨bs, f', hrun, hlen, hbytes, hclean', hsz', hopen', hfl'⟩ :=
          ih (pos + 1) hclean fun p (h1 : pos + 1 ≤ p) h2 h3 => hall p (by omega) (by omega) (hsz ▸ h3)
        have hend' : ¬ pos ≥ (n.withFile f).file.fsz := hend
        refine ⟨e.blk (pos % g.blksz) :: bs, f', ?_, ?_, fun q b hq hd => ?_, hclean',
          hsz'.trans hsz, hopen'.trans hopen, hfl'.trans hfl⟩
        · rw [if_neg hend', u32_of_lt (by omega), hload]
          dsimp only
          rw [if_pos rfl, hrun, Node.withFile_file]
        · rw [List.length_cons, hlen, hsz]
          omega
        · cases q with
          | zero =>
              obtain ⟨-, hbyte⟩ := hst pos b hd
              rw [List.getElem?_cons_zero, hclean.same hbb _ (Nat.mod_lt pos (by omega)),
                hclean.cached hbb, hidx, hbyte]
          | succ q =>
              rw [List.length_cons] at hq
              rw [List.getElem?_cons_succ]
              refine hbytes q b (by omega) ?_
              rw [← hd, Nat.add_assoc, Nat.add_comm 1 q]

/-! ## `fs_truncate` -/

/-- The blocks of the file after entry `i` was cleared and its block freed. -/
theorem Owned.clear (h : Owned g n s)
    (hmap : ∀ j, blkAt g s'.disk n j = if j = i then 0 else blkAt g s.disk n j)
    (hbits : ∀ c, bit s'.brb c = (bit s.brb c &&
      decide (c ≠ blkAt g s.disk n i ∨ blkAt g s.disk n i = 0 ∨ g.nblk ≤ blkAt g s.disk n i))) :
    Owned g n s' := by
  have hmark : ∀ c, bit s.brb c = true → (blkAt g s.disk n i ≠ 0 → c ≠ blkAt g s.disk n i) →
      bit s'.brb c = true := by
    intro c hc hne
    rw [hbits, hc, Bool.true_and, decide_eq_true_eq]
    by_cases h0 : blkAt g s.disk n i = 0
    · exact .inr (.inl h0)
    · exact .inl (hne h0)
  constructor
  case reserved =>
    intro b hb
    refine hmark b (h.reserved b hb) fun hne => ?_
    have hdata := (h.data i hne).1
    omega
  case arrays =>
    intro k hk hl
    exact hmark _ (h.arrays k hk hl) fun hne => (h.apart i k hne hk).symm
  case data =>
    intro j
    rw [hmap]
    by_cases hj : j = i
    · rw [if_pos hj]
      exact fun hne => absurd rfl hne
    · rw [if_neg hj]
      intro hne
      obtain ⟨h1, h2, h3⟩ := h.data j hne
      exact ⟨h1, h2, hmark _ h3 fun _ heq => hj (h.inj j i hne heq)⟩
  case apart =>
    intro j k
    rw [hmap]
    by_cases hj : j = i
    · rw [if_pos hj]
      exact fun hne => absurd rfl hne
    · rw [if_neg hj]
      exact h.apart j k
  case inj =>
    intro j l
    rw [hmap, hmap]
    by_cases hj : j = i
    · rw [if_pos hj]
      exact fun hne => absurd rfl hne
    · rw [if_neg hj]
      intro hne heq
      by_cases hl : l = i
      · rw [if_pos hl] at heq
        exact absurd heq hne
      · rw [if_neg hl] at heq
        exact h.inj j l hne heq

/-- The first `j` entries are cleared; only array blocks were written beyond
the reserved ones. -/
structure Cleared (g : Geometry) (n : Node) (s s' : Maps) (f f' : OpenInfo) (j : Nat) : Prop where
  kept : (n.withFile f').Kept g s'.disk
  owned : Owned g n s'
  entries : ∀ l, blkAt g s'.disk n l = if l < j then 0 else blkAt g s.disk n l
  frame : ∀ c, g.nblkRsvd ≤ c → (∀ k, k ≤ N_TRACKEXT → c ≠ n.ablk k) → s'.disk c = s.disk c
  same : f' = { f with arr := f'.arr, ablk := f'.ablk }

/-- **The loop of `fs_truncate`**, when the blocks can be freed. -/
theorem truncLoop_spec (hv : g.Valid) (hs : n.Shape g) (ho : Owned g n s)
    (hk : (n.withFile f).Kept g s.disk) (k : Nat) (hk32 : k + FILE_WORDS < 2 ^ 32)
    (hall : ∀ i, i < k → i + FILE_WORDS < g.limit → n.Linked g i ∧
      (blkAt g s.disk n i ≠ 0 → blkAt g s.disk n i / g.blksz < g.nblkBrb)) :
    ∃ s' f', forLoop (fun i (s, n) => (nodeSetblk g i 0 s n).map Prod.snd) 0 k (s, n.withFile f) =
        some (s', n.withFile f') ∧ Cleared g n s s' f f' k := by
  have hspec := forLoop_spec (f := fun i (p : Maps × Node) => (nodeSetblk g i 0 p.1 p.2).map Prod.snd)
    (i := 0) (n := k) (s := (s, n.withFile f))
    (I := fun j p => ∃ f', p.2 = n.withFile f' ∧ Cleared g n s p.1 f f' j) ?_ ?_
  · obtain ⟨⟨s', n'⟩, hrun, f', hn, hc⟩ := hspec
    rw [Nat.zero_add] at hc
    dsimp only at hn hc
    rw [hn] at hrun
    exact ⟨s', f', hrun, hc⟩
  · intro j p _ hj hi
    obtain ⟨t, n'⟩ := p
    obtain ⟨e, hn, hc⟩ := hi
    dsimp only at hn hc ⊢
    rw [hn]
    have hs' : (n.withFile e).Shape g := hs.withFile
    have hcur : blkAt g t.disk n j = blkAt g s.disk n j := by
      rw [hc.entries, if_neg (Nat.lt_irrefl j)]
    by_cases hlim : j + FILE_WORDS < g.limit
    · obtain ⟨hlink, hfit⟩ := hall j (by omega) hlim
      have hfree : blkAt g t.disk n j ≠ 0 → FreeFits g t.brb (blkAt g t.disk n j) := by
        rw [hcur]
        exact fun hne => .inr (.inr (hfit hne))
      obtain ⟨u, arr, hset, heff⟩ :=
        nodeSetblk_spec (v := 0) hv hs' hc.kept hlim hlink (by decide) hfree
      refine ⟨(u, (n.withFile e).keep arr (g.arrOf j)), ?_, { e with arr := arr, ablk := g.arrOf j },
        rfl, ?_⟩
      · rw [hset]
        rfl
      · constructor
        case kept => exact ⟨heff.kept.le, heff.kept.there, heff.kept.same⟩
        case owned => exact hc.owned.clear heff.entries heff.bits
        case entries =>
          intro l
          have hent : blkAt g u.disk n l = if l = j then 0 else blkAt g t.disk n l := heff.entries l
          rw [hent, hc.entries]
          by_cases hl : l = j
          · rw [if_pos hl, if_pos (by omega)]
          · rw [if_neg hl]
            exact if_congr (by omega) rfl rfl
        case frame =>
          intro c h1 h2
          have hbrb := hv.brb
          have hroot := hv.root
          have htl := hv.tlrm
          have hhead := hv.head
          rw [heff.frame c (by omega) (.inr (by omega)) (h2 _ (arrOf_le hlim))]
          exact hc.frame c h1 h2
        case same =>
          have hsame := hc.same
          rw [hsame]
    · refine ⟨(t, n.withFile e), ?_, e, rfl, ?_⟩
      · rw [nodeSetblk_refused hv hs'.entry (by omega) (.inl (by omega))]
        rfl
      · refine ⟨hc.kept, hc.owned, fun l => ?_, hc.frame, hc.same⟩
        rw [hc.entries]
        by_cases hl : l = j
        · rw [if_neg (by omega), if_pos (by omega), hl, blkAt_untracked (by omega)]
        · exact if_congr (by omega) rfl rfl
  · exact ⟨f, rfl, hk, ho, fun l => by rw [if_neg (Nat.not_lt_zero l)], fun c _ _ => rfl, rfl⟩

end Eclair
