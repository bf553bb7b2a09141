import Eclair.Lib.System
import Eclair.Ecfs.Node

/-!
# Eclair.Ecfs.BlockMap

The block map of an open file under `node_getblk` and `node_setblk`.

While the extension blocks up to an index are linked the two are a map: an
entry is what was last set, and nothing but the entry's own array block and
the allocator's blocks is written (`blockMap_of_reachable`).  Linking a new
extension block zeroes block 0 in its place.
-/

namespace Eclair

open ByteMem System

/-- `free_blk` of `b` does nothing, or finds an area that there is. -/
def FreeFits (g : Geometry) (m : ByteMem) (b : Nat) : Prop :=
  g.nblk ≤ b ∨ bit m b = false ∨ b / g.blksz < g.nblkBrb

/-- Block `b` was freed: only the allocator's blocks were written. -/
structure Freed (g : Geometry) (b : Nat) (s s' : Maps) : Prop where
  bits : ∀ c, bit s'.brb c = (bit s.brb c && decide (c ≠ b ∨ g.nblk ≤ b))
  frame : ∀ c, c ≠ ECFS_HBLK_START / g.blksz → (c < g.blkTlrm ∨ g.blkBrb + g.nblkBrb ≤ c) →
    s'.disk c = s.disk c

variable {g : Geometry} {s s' : Maps} {n n' : Node} {disk disk' : Disk} {i j k l v b c : Nat}
  {arr : ByteMem}

theorem freeBlk_fits (hv : g.Valid) (hf : FreeFits g s.brb b) :
    ∃ s', freeBlk g b s = some s' ∧ Freed g b s s' := by
  by_cases hb : b < g.nblk
  · cases hbit : bit s.brb b with
    | false =>
        refine ⟨s, freeBlk_clear hv hbit, fun c => ?_, fun c _ _ => rfl⟩
        by_cases hcb : c = b
        · rw [hcb, hbit, Bool.false_and]
        · rw [decide_eq_true (.inl hcb), Bool.and_true]
    | true =>
        have harea : b / g.blksz < g.nblkBrb := by
          cases hf with
          | inl hge => omega
          | inr hf =>
              rw [hbit] at hf
              exact hf.resolve_left Bool.noConfusion
        obtain ⟨s', hs', hu⟩ := freeBlk_spec hv hb hbit harea
        have hmore := oneMore_clearBit hbit
        refine ⟨s', hs', fun c => ?_, hu.frame⟩
        rw [hu.brb]
        by_cases hcb : c = b
        · rw [hcb, hmore.clear, decide_eq_false (by omega), Bool.and_false]
        · rw [← hmore.same c hcb, decide_eq_true (.inl hcb), Bool.and_true]
  · refine ⟨s, freeBlk_out (by omega), fun c => ?_, fun c _ _ => rfl⟩
    rw [decide_eq_true (.inr (by omega)), Bool.and_true]

/-! ## setting an entry -/

/-- All array blocks up to that of entry `i` are linked. -/
def Node.Linked (g : Geometry) (n : Node) (i : Nat) : Prop :=
  ∀ l, l ≤ g.arrOf i → n.ablk l ≠ 0

/-- Nothing is left to link. -/
theorem linkExts_linked (h : ∀ l, j ≤ l → l < j + k → n.ablk l ≠ 0) :
    linkExts g k j s n = some (true, s, n) := by
  induction k generalizing j with
  | zero => rfl
  | succ k ih =>
      rw [linkExts, if_pos (h j (Nat.le_refl j) (by omega))]
      exact ih fun l h1 h2 => h l (by omega) (by omega)

/-- On a full bitmap nothing is linked. -/
theorem linkExts_full (hv : g.Valid)
    (hfull : ∀ b, b < g.areaSize * g.nblkBrb → bit s.brb b = true) :
    ∃ ok, linkExts g k j s n = some (ok, s, n) ∧
      (ok = true → ∀ l, j ≤ l → l < j + k → n.ablk l ≠ 0) := by
  induction k generalizing j with
  | zero => exact ⟨true, rfl, fun _ l h1 h2 => by omega⟩
  | succ k ih =>
      rw [linkExts]
      by_cases hj : n.ablk j = 0
      · refine ⟨false, ?_, Bool.noConfusion⟩
        rw [if_neg (not_not.mpr hj), allocBlk_full hv hfull]
        rfl
      · obtain ⟨ok, hok, hlinked⟩ := ih (j := j + 1)
        refine ⟨ok, ?_, fun ht l h1 h2 => ?_⟩
        · rw [if_pos hj, hok]
        · by_cases hlj : l = j
          · rw [hlj]
            exact hj
          · exact hlinked ht l (by omega) (by omega)

/-- Writing array block `arrOf i` with entry `i` changed. -/
theorem blkAt_write (hv : g.Valid) (hs : n.Shape g) (hlim : i + FILE_WORDS < g.limit)
    (hlink : n.ablk (g.arrOf i) ≠ 0) (hvlt : v < 2 ^ 32)
    (harr : ∀ x, x < g.blksz → arr x = disk (n.ablk (g.arrOf i)) x) :
    blkAt g (writeBlk g (n.ablk (g.arrOf i))
      (setWord (4 * ((i + FILE_WORDS) % g.perBlock)) v arr) disk) n j =
      if j = i then v else blkAt g disk n j := by
  have hsz := blksz_perBlock hv
  have hpos := perBlock_pos hv
  have hin := (hs.inside _ (arrOf_le hlim) hlink).2
  have hmod : ∀ x : Nat, (x + FILE_WORDS) % g.perBlock < g.perBlock :=
    fun x => Nat.mod_lt _ (by omega)
  by_cases hjlim : j + FILE_WORDS < g.limit
  · by_cases hjl : n.ablk (g.arrOf j) = 0
    · have hne : j ≠ i := by
        intro heq
        rw [heq] at hjl
        exact hlink hjl
      rw [if_neg hne, blkAt, blkAt, if_pos (.inr hjl), if_pos (.inr hjl)]
    · rw [blkAt_linked hjlim hjl, blkAt_linked hjlim hjl]
      by_cases hk : g.arrOf j = g.arrOf i
      · have hword : ∀ y, y < g.perBlock → word (writeBlk g (n.ablk (g.arrOf i))
            (setWord (4 * ((i + FILE_WORDS) % g.perBlock)) v arr) disk (n.ablk (g.arrOf i))) (4 * y) =
            word (setWord (4 * ((i + FILE_WORDS) % g.perBlock)) v arr) (4 * y) := by
          intro y hy
          refine word_congr fun x hx => ?_
          exact writeBlk_self hin (by omega)
        rw [hk, hword _ (hmod j)]
        by_cases hji : j = i
        · rw [if_pos hji, hji, word_setWord hvlt]
        · have hmodne : (j + FILE_WORDS) % g.perBlock ≠ (i + FILE_WORDS) % g.perBlock := by
            intro heq
            have h1 := Nat.div_add_mod (j + FILE_WORDS) g.perBlock
            have h2 := Nat.div_add_mod (i + FILE_WORDS) g.perBlock
            rw [heq, show (j + FILE_WORDS) / g.perBlock = (i + FILE_WORDS) / g.perBlock from hk] at h1
            omega
          rw [if_neg hji, word_setWord_of_apart (by omega)]
          refine word_congr fun x hx => ?_
          have hj := hmod j
          exact harr _ (by omega)
      · have hne : n.ablk (g.arrOf j) ≠ n.ablk (g.arrOf i) :=
          fun heq => hk (hs.inj _ _ (arrOf_le hjlim) (arrOf_le hlim) hjl heq)
        have hji : j ≠ i := fun heq => hk (by rw [heq])
        rw [if_neg hji, writeBlk_of_ne hne]
  · rw [if_neg (by omega), blkAt_untracked (by omega), blkAt_untracked (by omega)]

/-- Entry `i` was set to `v` in array block `arr`. -/
structure EntrySet (g : Geometry) (n : Node) (i v : Nat) (s s' : Maps) (arr : ByteMem) : Prop where
  kept : (n.keep arr (g.arrOf i)).Kept g s'.disk
  entries : ∀ j, blkAt g s'.disk n j = if j = i then v else blkAt g s.disk n j
  frame : ∀ c, c ≠ ECFS_HBLK_START / g.blksz → (c < g.blkTlrm ∨ g.blkBrb + g.nblkBrb ≤ c) →
    c ≠ n.ablk (g.arrOf i) → s'.disk c = s.disk c
  header : ∀ x, x < 4 * FILE_WORDS → s'.disk n.blk x = s.disk n.blk x
  bits : ∀ c, bit s'.brb c = (bit s.brb c &&
    decide (c ≠ blkAt g s.disk n i ∨ blkAt g s.disk n i = 0 ∨ g.nblk ≤ blkAt g s.disk n i))

/-- The array blocks of a node are not the allocator's. -/
theorem ablk_apart (hv : g.Valid) (hs : n.Shape g) (hk : k ≤ N_TRACKEXT) (hlink : n.ablk k ≠ 0) :
    n.ablk k ≠ ECFS_HBLK_START / g.blksz ∧ g.blkBrb + g.nblkBrb ≤ n.ablk k := by
  have hin := (hs.inside k hk hlink).1
  have hhead := hv.head
  have htl := hv.tlrm
  have hbrb := hv.brb
  have hroot := hv.root
  omega

/-- **`node_setblk`** sets the entry, when the array blocks up to it are linked
and the block that was there can be freed. -/
theorem nodeSetblk_spec (hv : g.Valid) (hs : n.Shape g) (hk : n.Kept g s.disk)
    (hlim : i + FILE_WORDS < g.limit) (hlink : n.Linked g i) (hvlt : v < 2 ^ 32)
    (hfit : blkAt g s.disk n i ≠ 0 → FreeFits g s.brb (blkAt g s.disk n i)) :
    ∃ s' arr, nodeSetblk g i v s n = some (0, s', n.keep arr (g.arrOf i)) ∧
      EntrySet g n i v s s' arr := by
  have hsz := blksz_perBlock hv
  have hpos := perBlock_pos hv
  have hlt := limit_lt (g := g)
  have hle := arrOf_le hlim
  have hl := hlink _ (Nat.le_refl _)
  have hin := (hs.inside _ hle hl).2
  have hmod : (i + FILE_WORDS) % g.perBlock < g.perBlock := Nat.mod_lt _ (by omega)
  obtain ⟨arr, hr, harr⟩ := readArr_spec hs hk hle hl
  obtain ⟨old, hold⟩ : ∃ old, blkAt g s.disk n i = old := ⟨_, rfl⟩
  have hword : word arr (4 * ((i + FILE_WORDS) % g.perBlock)) = old := by
    rw [← hold, blkAt_linked hlim hl]
    refine word_congr fun x hx => ?_
    exact harr _ (by omega)
  have hfree : ∃ t, (if old ≠ 0 then freeBlk g old s else some s) = some t ∧
      (∀ c, c ≠ ECFS_HBLK_START / g.blksz → (c < g.blkTlrm ∨ g.blkBrb + g.nblkBrb ≤ c) →
        t.disk c = s.disk c) ∧
      ∀ c, bit t.brb c = (bit s.brb c && decide (c ≠ old ∨ old = 0 ∨ g.nblk ≤ old)) := by
    by_cases h0 : old = 0
    · refine ⟨s, if_neg (not_not.mpr h0), fun c _ _ => rfl, fun c => ?_⟩
      rw [decide_eq_true (.inr (.inl h0)), Bool.and_true]
    · rw [hold] at hfit
      obtain ⟨t, ht, hfreed⟩ := freeBlk_fits hv (hfit h0)
      refine ⟨t, ?_, hfreed.frame, fun c => ?_⟩
      · rw [if_pos h0, ht]
      · rw [hfreed.bits]
        congr 1
        exact decide_eq_decide.mpr (by omega)
  obtain ⟨t, ht, hframe, hbits⟩ := hfree
  have hsame : ∀ k, k ≤ N_TRACKEXT → n.ablk k ≠ 0 → t.disk (n.ablk k) = s.disk (n.ablk k) := by
    intro k hk' hlk
    obtain ⟨h1, h2⟩ := ablk_apart hv hs hk' hlk
    exact hframe _ h1 (.inr h2)
  obtain ⟨p, hp⟩ : ∃ p, (i + FILE_WORDS) % g.perBlock = p := ⟨_, rfl⟩
  rw [hp] at hmod hword
  have harr' : ∀ x, x < g.blksz → arr x = t.disk (n.ablk (g.arrOf i)) x := by
    intro x hx
    rw [hsame _ hle hl, harr x hx]
  have hwrite := fun j => blkAt_write (j := j) hv hs hlim hl hvlt harr'
  rw [hp] at hwrite
  refine ⟨⟨writeBlk g (n.ablk (g.arrOf i)) (setWord (4 * p) v arr) t.disk, t.hblk, t.tlrm, t.brb⟩,
    setWord (4 * p) v arr, ?_, ?_⟩
  · rw [nodeSetblk, u32_of_lt (by omega), if_neg (by omega), hp,
      show (i + FILE_WORDS) / g.perBlock = g.arrOf i from rfl,
      linkExts_linked fun l _ h2 => hlink l (by omega), Option.bind_some]
    dsimp only
    rw [if_pos rfl, hr, Node.keep_file_arr, hword, ht]
    rfl
  · constructor
    case kept =>
      refine kept_keep hle hl fun x hx => ?_
      exact (writeBlk_self hin hx).symm
    case entries =>
      intro j
      have hcongr : blkAt g t.disk n j = blkAt g s.disk n j :=
        blkAt_congr rfl (fun k x hk' hlk _ => by rw [hsame k hk' hlk]) hv
      rw [hwrite j, hcongr]
    case frame =>
      intro c h1 h2 h3
      show writeBlk g _ _ t.disk c = _
      rw [writeBlk_of_ne h3, hframe c h1 h2]
    case header =>
      intro x hx
      have hentry : n.blk = n.ablk 0 := rfl
      have hwords : FILE_WORDS = 46 := rfl
      have hx' : x < g.blksz := by omega
      by_cases h0 : g.arrOf i = 0
      · show writeBlk g _ _ t.disk n.blk x = _
        -- entry `i` of the file entry itself comes after the header
        have hpi : p = i + FILE_WORDS := by
          rw [← hp]
          have hdiv : (i + FILE_WORDS) / g.perBlock = 0 := h0
          exact Nat.mod_eq_of_lt ((Nat.div_eq_zero_iff_lt (by omega)).mp hdiv)
        rw [h0] at harr hin ⊢
        rw [hentry, writeBlk_self hin hx', setWord_outside (by omega), harr x hx']
      · have hne : n.blk ≠ n.ablk (g.arrOf i) :=
          fun heq => h0 (hs.inj _ _ hle (Nat.zero_le _) hl heq.symm)
        show writeBlk g _ _ t.disk n.blk x = _
        rw [writeBlk_of_ne hne, hentry, hsame 0 (Nat.zero_le _) hs.entry]
    case bits =>
      intro c
      rw [hold]
      exact hbits c

/-- `node_setblk` refuses an index that is not tracked, and one whose array
block could not be linked because nothing is free. -/
theorem nodeSetblk_refused (hv : g.Valid) (hentry : n.blk ≠ 0) (hi : i + FILE_WORDS < 2 ^ 32)
    (h : g.limit ≤ i + FILE_WORDS ∨
      (¬ n.Linked g i ∧ ∀ b, b < g.areaSize * g.nblkBrb → bit s.brb b = true)) :
    nodeSetblk g i v s n = some (-ENOSPC, s, n) := by
  rw [nodeSetblk, u32_of_lt hi]
  by_cases hlim : i + FILE_WORDS < g.limit
  · have hfull := h.resolve_left (by omega)
    rw [if_neg (by omega), show (i + FILE_WORDS) / g.perBlock = g.arrOf i from rfl]
    obtain ⟨ok, hok, hlinked⟩ := linkExts_full (k := g.arrOf i) (j := 1) (n := n) hv hfull.2
    have hno : ok = false := by
      by_contra htrue
      refine hfull.1 fun l hl => ?_
      cases l with
      | zero => exact hentry
      | succ l => exact hlinked (by simpa using htrue) (l + 1) (by omega) (by omega)
    rw [hok, hno]
    rfl
  · rw [if_pos (by omega)]

/-! ## runs -/

/-- An open node, and what its entries were last set to. -/
structure MapState where
  maps : Maps
  node : Node
  last : Nat → Nat

/-- A call on the block map. -/
inductive MapEvent where
  | getblk (i : Nat)
  | setblk (i v : Nat)
  deriving DecidableEq, Repr

namespace MapEvent

def index : MapEvent → Nat
  | getblk i => i
  | setblk i _ => i

/-- The index is within the tracked extensions; the arguments are 32-bit numbers. -/
def Enabled (g : Geometry) (e : MapEvent) : Prop :=
  e.index < 2 ^ 32 ∧ e.index + FILE_WORDS < (N_TRACKEXT + 1) * g.perBlock ∧
    ∀ i v, e = setblk i v → v < 2 ^ 32

def run (g : Geometry) (st : MapState) : MapEvent → Option MapState
  | getblk i => some { st with node := (nodeGetblk g st.maps.disk i st.node).2 }
  | setblk i v => (nodeSetblk g i v st.maps st.node).map fun (code, s, n) =>
      ⟨s, n, if code = 0 then Function.update st.last i v else st.last⟩

/-- Where the index is tracked, its array block is linked already. -/
def Fits (g : Geometry) (st : MapState) : MapEvent → Prop
  | getblk i => i + FILE_WORDS < 2 ^ 32 ∧
      (i + FILE_WORDS < g.limit → st.node.ablk (g.arrOf i) ≠ 0)
  | setblk i _ => i + FILE_WORDS < 2 ^ 32 ∧
      (i + FILE_WORDS < g.limit →
        (st.node.Linked g i ∧ (blkAt g st.maps.disk st.node i ≠ 0 →
          FreeFits g st.maps.brb (blkAt g st.maps.disk st.node i))) ∨
        (¬ st.node.Linked g i ∧ ∀ b, b < g.areaSize * g.nblkBrb → bit st.maps.brb b = true))

/-- `node_getblk` returns what was last set; `node_setblk` writes only the
allocator's blocks and array blocks of the node. -/
def Right (g : Geometry) (st : MapState) : MapEvent → Prop
  | getblk i => ∃ n, nodeGetblk g st.maps.disk i st.node = (st.last i, n)
  | setblk i v => ∃ code s n, nodeSetblk g i v st.maps st.node = some (code, s, n) ∧
      ∀ c, c ≠ ECFS_HBLK_START / g.blksz → (c < g.blkTlrm ∨ g.blkBrb + g.nblkBrb ≤ c) →
        (∀ k, k ≤ N_TRACKEXT → st.node.ablk k ≠ 0 → c ≠ st.node.ablk k) →
        s.disk c = st.maps.disk c

end MapEvent

/-- A node that was just opened, under calls on its block map. -/
def blockMap (g : Geometry) : System MapState MapEvent where
  init st := g.Valid ∧ st.node.Shape g ∧
    (∃ (n : Node) (flags : Nat) (arr blk : ByteMem), st.node = n.openFile g st.maps.disk flags arr blk) ∧
    ∀ i, st.last i = blkAt g st.maps.disk st.node i
  step st e st' := e.Enabled g ∧ e.run g st = some st'

/-- Opening keeps the file entry. -/
theorem kept_openFile {flags : Nat} {blk : ByteMem} (hs : n.Shape g) :
    (n.openFile g disk flags arr blk).Kept g disk := by
  have hin := (hs.inside 0 (Nat.zero_le _) hs.entry).2
  refine ⟨Nat.zero_le _, hs.entry, fun x hx => ?_⟩
  show readBlk g n.blk arr disk x = disk n.blk x
  have hb : ¬ n.blk ≥ g.nblk := Nat.not_le.mpr hin
  rw [readBlk, if_neg hb, write, if_pos (by omega), Nat.sub_zero]

/-- What the calls keep. -/
structure MapInv (g : Geometry) (st : MapState) : Prop where
  valid : g.Valid
  shape : st.node.Shape g
  kept : st.node.Kept g st.maps.disk
  last : ∀ i, blkAt g st.maps.disk st.node i = st.last i

theorem Node.Shape.keep (hs : n.Shape g) : (n.keep arr k).Shape g := ⟨hs.entry, hs.inside, hs.inj⟩

variable {st st' : MapState} {e : MapEvent}

/-- **One call** that fits is right, and keeps the invariant. -/
theorem mapInv_step (h : MapInv g st) (hen : e.Enabled g) (hfit : e.Fits g st) :
    e.Right g st ∧ ∃ st', e.run g st = some st' ∧ MapInv g st' := by
  cases e with
  | getblk i =>
      obtain ⟨arr, l, hget, hkept⟩ := nodeGetblk_spec h.valid h.shape h.kept hfit.1 hfit.2
      rw [h.last] at hget
      refine ⟨⟨_, hget⟩, _, rfl, ?_⟩
      rw [hget]
      exact ⟨h.valid, h.shape.keep, hkept, h.last⟩
  | setblk i v =>
      have hvlt := hen.2.2 i v rfl
      by_cases hok : i + FILE_WORDS < g.limit ∧ st.node.Linked g i
      · obtain ⟨hlim, hlink⟩ := hok
        have hold := (hfit.2 hlim).resolve_right fun hno => hno.1 hlink
        obtain ⟨s', arr, hset, heff⟩ :=
          nodeSetblk_spec h.valid h.shape h.kept hlim hlink hvlt hold.2
        constructor
        · refine ⟨0, s', _, hset, fun c h1 h2 h3 => ?_⟩
          exact heff.frame c h1 h2 (h3 _ (arrOf_le hlim) (hlink _ (Nat.le_refl _)))
        · refine ⟨⟨s', st.node.keep arr (g.arrOf i), Function.update st.last i v⟩, ?_, ?_⟩
          · rw [MapEvent.run, hset]
            rfl
          · refine ⟨h.valid, h.shape.keep, heff.kept, fun j => ?_⟩
            show blkAt g s'.disk st.node j = Function.update st.last i v j
            rw [heff.entries j, Function.update_apply, h.last]
      · have hrefused : nodeSetblk g i v st.maps st.node = some (-ENOSPC, st.maps, st.node) := by
          refine nodeSetblk_refused h.valid h.shape.entry hfit.1 ?_
          by_cases hlim : i + FILE_WORDS < g.limit
          · have hno : ¬ st.node.Linked g i := fun hlink => hok ⟨hlim, hlink⟩
            exact .inr ((hfit.2 hlim).resolve_left fun hl => hno hl.1)
          · exact .inl (by omega)
        constructor
        · exact ⟨_, _, _, hrefused, fun c _ _ _ => rfl⟩
        · refine ⟨st, ?_, h⟩
          rw [MapEvent.run, hrefused]
          rfl

/-- **The block map**: after any calls that fit, the next call that fits is right. -/
theorem blockMap_of_reachable (g : Geometry) (st : MapState)
    (hs : (blockMap g).Reachable (fun st e => e.Fits g st) st) (e : MapEvent)
    (hen : e.Enabled g) (hfit : e.Fits g st) : e.Right g st := by
  have hinv : MapInv g st := by
    apply hs.invariant
    · intro st hinit
      obtain ⟨hv, hshape, ⟨n, flags, arr, blk, hn⟩, hlast⟩ := hinit
      rw [hn] at hshape
      refine ⟨hv, ?_, ?_, fun i => (hlast i).symm⟩
      · rw [hn]
        exact hshape
      · rw [hn]
        have hs' : n.Shape g := ⟨hshape.entry, hshape.inside, hshape.inj⟩
        exact kept_openFile hs'
    · intro st e st' hi hok hst
      obtain ⟨t, ht, hi'⟩ := (mapInv_step hi hst.1 hok).2
      have heq : st' = t := Option.some.inj (hst.2.symm.trans ht)
      rw [heq]
      exact hi'
  exact (mapInv_step hinv hen hfit).1

/-! ## a file without extension blocks -/

/-- A closed file whose entry is block `b`. -/
def Node.closed (b : Nat) : Node :=
  ⟨b, fun _ => 0, ⟨false, 0, fun _ => 0, fun _ => 0, 0, 0, 0, 0⟩⟩

theorem shape_closed (h0 : b ≠ 0) (h1 : g.nblkRsvd ≤ b) (h2 : b < g.nblk) :
    (Node.closed b).Shape g := by
  constructor
  case entry => exact h0
  case inside =>
    intro k _ hk
    cases k with
    | zero => exact ⟨h1, h2⟩
    | succ k => exact absurd rfl hk
  case inj =>
    intro k l _ _ hk heq
    cases k with
    | succ k => exact absurd rfl hk
    | zero =>
        cases l with
        | zero => rfl
        | succ l => exact absurd heq h0

/-- The volume of two areas, with a file whose entry is block 1000. -/
def smallMap : MapState where
  maps := smallMaps 1025
  node := (Node.closed 1000).openFile smallGeometry (smallMaps 1025).disk 2 (fun _ => 0) fun _ => 0
  last := blkAt smallGeometry (smallMaps 1025).disk
    ((Node.closed 1000).openFile smallGeometry (smallMaps 1025).disk 2 (fun _ => 0) fun _ => 0)

theorem smallMap_init : (blockMap smallGeometry).init smallMap := by
  have hs : (Node.closed 1000).Shape smallGeometry :=
    shape_closed (by decide) (by decide) (by decide)
  exact ⟨smallGeometry_valid, ⟨hs.entry, hs.inside, hs.inj⟩, ⟨Node.closed 1000, 2, _, _, rfl⟩,
    fun i => rfl⟩

theorem blockMap_of_reachable_example :
    (MapEvent.setblk 3 1024).Right smallGeometry smallMap := by
  refine blockMap_of_reachable smallGeometry smallMap (Reachable.of_init smallMap_init) _ ?_ ?_
  · exact ⟨by decide, by decide, fun i v h => by cases h; decide⟩
  · have hzero : blkAt smallGeometry smallMap.maps.disk smallMap.node 3 = 0 := by decide +kernel
    refine ⟨by decide, fun _ => .inl ⟨?_, fun hne => absurd hzero hne⟩⟩
    intro l hl
    have h0 : l = 0 := by
      have hle : l ≤ 0 := hl
      omega
    rw [h0]
    decide

/-- The first clear bit of the small volume. -/
theorem firstClear_small : FirstClear (smallMaps 1025).brb 1025 := by
  constructor
  · rw [bit_small]
    rfl
  · intro b hb
    rw [bit_small, decide_eq_true hb]

/-- Linking the first extension block of the file zeroes block 0. -/
theorem linkExts_small : ∃ s' n', linkExts smallGeometry 1 1 smallMap.maps smallMap.node =
    some (true, s', n') ∧ s'.disk 0 0 = 0 ∧ n'.ablk 1 = 1025 ∧ n'.file.ablk = 0 ∧
      s'.disk 1025 = smallMap.maps.disk 1025 := by
  obtain ⟨s', hs', hu⟩ := allocBlk_first smallGeometry_valid firstClear_small (by decide)
  have hframe : s'.disk 1025 = (smallMaps 1025).disk 1025 := hu.frame 1025 (by decide) (by decide)
  obtain ⟨arr, harr⟩ : ∃ arr, setWord (4 * smallGeometry.perBlock) 1025
    (readBlk smallGeometry 1000 smallMap.node.file.arr s'.disk) = arr := ⟨_, rfl⟩
  obtain ⟨d, hd⟩ : ∃ d, writeBlk smallGeometry 1000 arr s'.disk = d := ⟨_, rfl⟩
  have hlink : linkExts smallGeometry 1 1 smallMap.maps smallMap.node =
      some (true, { s' with disk := writeBlk smallGeometry 0 (fill 0 0 1024 arr) d },
        { smallMap.node with ext := Function.update smallMap.node.ext 0 1025,
                             file := { smallMap.node.file with arr := fill 0 0 1024 arr } }) := by
    have hnone : smallMap.node.ablk 1 = 0 := rfl
    rw [linkExts, if_neg (not_not.mpr hnone), show smallMap.maps = smallMaps 1025 from rfl, hs',
      u32_of_lt (by decide), Option.bind_some]
    dsimp only
    rw [if_neg (by decide)]
    show some _ = some _
    rw [← hd, ← harr]
    rfl
  refine ⟨_, _, hlink, ?_, rfl, rfl, ?_⟩
  · show writeBlk smallGeometry 0 (fill 0 0 1024 arr) d 0 0 = 0
    rw [writeBlk_self (by decide) (by decide)]
    rfl
  · show writeBlk smallGeometry 0 (fill 0 0 1024 arr) d 1025 = _
    rw [writeBlk_of_ne (by decide), ← hd, writeBlk_of_ne (by decide), hframe]
    rfl

/-- Entry 209 is the first of the first extension block; setting it zeroes block 0. -/
theorem not_blockMap : ¬ ∀ (g : Geometry) (st : MapState) (e : MapEvent),
    (blockMap g).Reachable Any st → e.Enabled g → e.Right g st := by
  intro hall
  have hright := hall smallGeometry smallMap (.setblk 209 1024) (Reachable.of_init smallMap_init)
    ⟨by decide, by decide, fun i v h => by cases h; decide⟩
  obtain ⟨code, s, n, hset, hframe⟩ := hright
  obtain ⟨s', n', hlink, hzero, h1, h2, h3⟩ := linkExts_small
  have hread : n'.readArr smallGeometry s'.disk 1 =
      n'.keep (readBlk smallGeometry 1025 n'.file.arr (smallMap.maps.disk)) 1 := by
    rw [Node.readArr, h2, if_pos (by decide), h1, readBlk, readBlk, h3]
  have hold : word (readBlk smallGeometry 1025 n'.file.arr smallMap.maps.disk) (4 * 0) = 0 := by
    have hzeros : ∀ x, x < 4 → smallVolume 1025 (1025 * 1024 + x) = 0 := by decide +kernel
    have hword : word (readBlk smallGeometry 1025 n'.file.arr smallMap.maps.disk) (4 * 0) =
        word (fun _ => 0) 0 := by
      refine word_congr fun x hx => ?_
      have hsize : smallGeometry.blksz = 1024 := rfl
      rw [readBlk, if_neg (by decide), write, if_pos ⟨Nat.zero_le _, by omega⟩]
      show smallVolume 1025 (1025 * 1024 + (4 * 0 + x - 0)) = 0
      rw [Nat.sub_zero, Nat.mul_zero, Nat.zero_add]
      exact hzeros x hx
    rw [hword]
    rfl
  rw [nodeSetblk, u32_of_lt (by decide), if_neg (by decide)] at hset
  have hidx : (209 + FILE_WORDS) / smallGeometry.perBlock = 1 := by decide
  have hpos : (209 + FILE_WORDS) % smallGeometry.perBlock = 0 := by decide
  rw [hidx, hpos, hlink, Option.bind_some] at hset
  dsimp only at hset
  rw [if_pos rfl, hread, Node.keep_file_arr, hold] at hset
  rw [if_neg (by decide)] at hset
  cases hset
  have hblk0 := congrFun (hframe 0 (by decide) (by decide) ?_) 0
  · rw [Node.keep_ablk, h1] at hblk0
    have hsame : writeBlk smallGeometry 1025 (setWord (4 * 0) 1024
        (readBlk smallGeometry 1025 n'.file.arr smallMap.maps.disk)) s'.disk 0 = s'.disk 0 :=
      writeBlk_of_ne (by decide)
    have hold0 : smallMap.maps.disk 0 0 = 0 := hblk0.symm.trans ((congrFun hsame 0).trans hzero)
    exact absurd hold0 (by decide +kernel)
  · intro k _ hk heq
    exact hk heq.symm

end Eclair
