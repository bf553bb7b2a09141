import Eclair.Ecfs.FileLoops

/-!
# Eclair.Ecfs.FileRuns

A file of `mntecfs` under every sequence of calls: it is an array of bytes,
with the size it is given, as long as the calls keep clear of what the code
gets wrong (`file_of_reachable`):

* the size is stored on `fs_release` only if bit 0 of the flags is set;
* a write of no bytes to an empty file makes its size 1;
* a read stops at a block that the file does not have;
* `fs_truncate` leaves the block that is kept, and a later write puts it, and
  new data, into a block that is free by then;
* the block map and the allocator have their own conditions.
-/

namespace Eclair

open ByteMem Loop System

/-- A file, and what was written to it. -/
structure FileState where
  maps : Maps
  node : Node
  data : Contents
  size : Nat

/-- A call on the file; `arr` and `blk` are what `malloc` gives, `tm` is the time. -/
inductive FileEvent where
  | fopen (flags : Nat) (arr blk : ByteMem)
  | fread (nbytes offset : Nat)
  | fwrite (bytes : Bytes) (offset : Nat)
  | ftruncate (offset : Nat)
  | frelease (tm : Nat)

namespace FileEvent

/-- The call, and what it means for the contents and the size. -/
def run (g : Geometry) (st : FileState) : FileEvent → Option FileState
  | fopen flags arr blk => some { st with node := (fsOpenFile g flags arr blk st.maps st.node).2 }
  | fread nbytes offset => some { st with node := (fsReadFile g nbytes offset st.maps st.node).2.2 }
  | fwrite bytes offset => (fsWriteFile g bytes offset st.maps st.node).map fun (code, s, n) =>
      if code < 0 ∨ bytes = [] then { st with maps := s, node := n }
      else ⟨s, n, writeAt st.data offset bytes, max st.size (offset + bytes.length)⟩
  | ftruncate offset => (fsTruncate g offset st.maps st.node).map fun (code, s, n) =>
      if code < 0 then { st with maps := s, node := n } else ⟨s, n, fun _ => none, 0⟩
  | frelease tm =>
      let r := fsRelease g tm st.maps st.node
      some { st with maps := r.2.1, node := r.2.2 }

/-- The call keeps clear of the defects, and within the capacity of the volume. -/
def Fits (g : Geometry) (st : FileState) : FileEvent → Prop
  | fopen _ _ _ => True
  | fread nbytes offset => offset < 2 ^ 32 ∧
      ∀ p, offset ≤ p → p < offset + nbytes → p < st.size →
        blkAt g st.maps.disk st.node (p / g.blksz) ≠ 0
  | fwrite bytes offset => st.node.file.isOpen = true →
      if bytes = [] then 0 < st.size
      else offset + bytes.length < 2 ^ 32 ∧
        (st.node.file.bblk = 0 ∨ st.node.file.bblk = blkAt g st.maps.disk st.node st.node.file.i) ∧
        (∀ j, offset / g.blksz ≤ j → j ≤ (offset + bytes.length - 1) / g.blksz →
          j + FILE_WORDS < g.limit ∧ st.node.Linked g j) ∧
        countBits st.maps.brb 0 g.nblk + need g st.maps st.node (offset / g.blksz)
          ((offset + bytes.length - 1) / g.blksz + 1) ≤ g.nblk
  | ftruncate offset => st.node.file.isOpen = true → offset = 0 → st.size + g.blksz ≤ 2 ^ 32 ∧
      ∀ i, i * g.blksz < st.size → i + FILE_WORDS < g.limit → st.node.Linked g i ∧
        (blkAt g st.maps.disk st.node i ≠ 0 →
          blkAt g st.maps.disk st.node i / g.blksz < g.nblkBrb)
  | frelease _ => st.node.file.isOpen = true →
      st.node.file.flags % 2 = 1 ∨ word (st.maps.disk st.node.blk) FILE_FSZ = st.size

/-- The file behaves as an array of bytes. -/
def Right (g : Geometry) (st : FileState) : FileEvent → Prop
  | fopen flags arr blk => st.node.file.isOpen = false → flags &&& O_APPEND = 0 →
      ∃ n, fsOpenFile g flags arr blk st.maps st.node = (0, n) ∧ n.file.fsz = st.size
  | fread nbytes offset => st.node.file.isOpen = true →
      if offset < st.size then
        ∃ bs n, fsReadFile g nbytes offset st.maps st.node = ((bs.length : Int), bs, n) ∧
          bs.length = min nbytes (st.size - offset) ∧
          ∀ q b, q < bs.length → st.data (offset + q) = some b → bs[q]? = some b
      else fsReadFile g nbytes offset st.maps st.node = (EOF, [], st.node)
  | fwrite bytes offset => st.node.file.isOpen = true →
      ∃ s n, fsWriteFile g bytes offset st.maps st.node = some ((bytes.length : Int), s, n) ∧
        (∀ c, s.disk c ≠ st.maps.disk c → bit s.brb c = true) ∧
        (bytes = [] → s = st.maps ∧ n = st.node) ∧
        (bytes ≠ [] → n.file.fsz = max st.size (offset + bytes.length))
  | ftruncate offset => st.node.file.isOpen = true → offset = 0 →
      ∃ s n, fsTruncate g offset st.maps st.node = some (0, s, n) ∧ n.file.fsz = 0
  | frelease tm => st.node.file.isOpen = true →
      ∃ s n, fsRelease g tm st.maps st.node = (0, s, n) ∧ word (s.disk n.blk) FILE_FSZ = st.size

end FileEvent

/-- What the calls keep. -/
structure FileInv (g : Geometry) (st : FileState) : Prop where
  valid : g.Valid
  shape : st.node.Shape g
  owned : Owned g st.node st.maps
  stored : Stored g st.maps.disk st.node st.data
  below : ∀ p, st.data p ≠ none → p < st.size
  size_lt : st.size < 2 ^ 32
  closed : st.node.file.isOpen = false → word (st.maps.disk st.node.blk) FILE_FSZ = st.size
  kept : st.node.file.isOpen = true → st.node.Kept g st.maps.disk
  fsz : st.node.file.isOpen = true → st.node.file.fsz = st.size
  fresh : st.node.file.isOpen = true → 0 < st.size → st.node.file.bblk = 0 ∨
    st.node.file.bblk = blkAt g st.maps.disk st.node st.node.file.i
  clean : st.node.file.isOpen = true → st.node.file.bblk ≠ 0 →
    st.node.file.bblk = blkAt g st.maps.disk st.node st.node.file.i →
    ∀ x, x < g.blksz → st.node.file.blk x = st.maps.disk st.node.file.bblk x

/-- A closed file on a consistent volume, under calls. -/
def fileSystem (g : Geometry) : System FileState FileEvent where
  init st := g.Valid ∧ st.node.Shape g ∧ Owned g st.node st.maps ∧
    Stored g st.maps.disk st.node st.data ∧ (∀ p, st.data p ≠ none → p < st.size) ∧
    st.node.file.isOpen = false ∧ word (st.maps.disk st.node.blk) FILE_FSZ = st.size
  step st e st' := e.run g st = some st'

variable {g : Geometry} {st st' : FileState} {n : Node} {s : Maps} {disk : Disk} {i : Nat} {buf : ByteMem}

/-- The block that is kept is that of the file, or none. -/
theorem FileInv.isClean (h : FileInv g st) (ho : st.node.file.isOpen = true)
    (hf : st.node.file.bblk = 0 ∨
      st.node.file.bblk = blkAt g st.maps.disk st.node st.node.file.i) :
    Clean g st.node st.maps st.node.file := by
  refine ⟨h.kept ho, fun hb => hf.resolve_left hb, fun hb => ?_⟩
  exact h.clean ho hb (hf.resolve_left hb)

/-- The test of the access mode in `fs_read` and `fs_write` refuses no open file. -/
theorem accessible {f : OpenInfo} (mode : Nat) (hopen : f.isOpen = true)
    (hmode : (O_ACCMODE == mode) = false) :
    ¬ (¬ f.isOpen = true ∨ f.flags &&& ofBool (O_ACCMODE == mode) ≠ 0) := by
  rw [hmode]
  exact not_or.mpr ⟨not_not.mpr hopen, not_not.mpr (Nat.and_zero _)⟩

/-! ## opening and reading -/

theorem FileInv.fopen (h : FileInv g st) (flags : Nat) (arr blk : ByteMem) :
    (FileEvent.fopen flags arr blk).Right g st ∧
      ∃ st', (FileEvent.fopen flags arr blk).run g st = some st' ∧ FileInv g st' := by
  have hin := (h.shape.inside 0 (Nat.zero_le _) h.shape.entry).2
  have hge := h.valid.blksz_ge
  have hfsz : (st.node.openFile g st.maps.disk flags arr blk).file.fsz =
      word (st.maps.disk st.node.blk) FILE_FSZ := by
    refine word_congr fun x hx => ?_
    have hoff : FILE_FSZ = 168 := rfl
    exact readBlk_lt hin (by omega)
  constructor
  · intro hclosed happ
    refine ⟨st.node.openFile g st.maps.disk flags arr blk, ?_, ?_⟩
    · have hno : ¬ st.node.file.isOpen = true := by
        rw [hclosed]
        exact Bool.false_ne_true
      rw [fsOpenFile, if_neg hno, if_neg (not_not.mpr happ)]
    · rw [hfsz]
      exact h.closed hclosed
  · refine ⟨_, rfl, ?_⟩
    rw [fsOpenFile]
    by_cases hopen : st.node.file.isOpen = true
    · rw [if_pos hopen]
      exact h
    · rw [if_neg hopen]
      by_cases happ : flags &&& O_APPEND = 0
      · rw [if_neg (not_not.mpr happ)]
        have hclosed := Bool.eq_false_iff.mpr hopen
        constructor
        case valid => exact h.valid
        case shape => exact h.shape.withFile
        case owned => exact h.owned.withFile
        case stored => exact h.stored
        case below => exact h.below
        case size_lt => exact h.size_lt
        case closed => exact fun hcon => Bool.noConfusion hcon
        case kept => exact fun _ => kept_openFile h.shape
        case fsz =>
          intro _
          show (st.node.openFile g st.maps.disk flags arr blk).file.fsz = st.size
          rw [hfsz]
          exact h.closed hclosed
        case fresh => exact fun _ _ => .inl rfl
        case clean => exact fun _ hb => absurd rfl hb
      · rw [if_pos happ]
        exact h

/-- The file after the open file changed to `f`, as `fs_read` changes it. -/
theorem FileInv.withFile (h : FileInv g st) (hopen : st.node.file.isOpen = true) {f : OpenInfo}
    (hc : Clean g st.node st.maps f) (hsz : f.fsz = st.node.file.fsz)
    (ho : f.isOpen = st.node.file.isOpen) : FileInv g { st with node := st.node.withFile f } := by
  constructor
  case valid => exact h.valid
  case shape => exact h.shape.withFile
  case owned => exact h.owned.withFile
  case stored => exact h.stored
  case below => exact h.below
  case size_lt => exact h.size_lt
  case closed =>
    intro hcl
    have hf : f.isOpen = false := hcl
    rw [ho, hopen] at hf
    cases hf
  case kept => exact fun _ => hc.kept
  case fsz => exact fun _ => hsz.trans (h.fsz hopen)
  case fresh =>
    intro _ _
    by_cases hb : f.bblk = 0
    · exact .inl hb
    · exact .inr (hc.cached hb)
  case clean => exact fun _ hb _ => hc.same hb

theorem FileInv.fread (h : FileInv g st) {nbytes offset : Nat}
    (hfit : (FileEvent.fread nbytes offset).Fits g st) :
    (FileEvent.fread nbytes offset).Right g st ∧
      ∃ st', (FileEvent.fread nbytes offset).run g st = some st' ∧ FileInv g st' := by
  obtain ⟨hoff, hall⟩ := hfit
  by_cases hopen : st.node.file.isOpen = true
  · have hgo := accessible O_WRONLY hopen rfl
    by_cases hin : offset < st.size
    · obtain ⟨bs, f', hrun, hlen, hbytes, hclean, hsz, ho, -⟩ :=
        readLoop_spec offset h.valid h.shape h.owned h.stored nbytes
          (h.isClean hopen (h.fresh hopen (by omega))) fun p h1 h2 h3 =>
            hall p h1 h2 (by rw [← h.fsz hopen]; exact h3)
      have hread : fsReadFile g nbytes offset st.maps st.node =
          ((bs.length : Int), bs, st.node.withFile f') := by
        have hnot : ¬ u32 offset ≥ st.node.file.fsz := by
          rw [u32_of_lt hoff, h.fsz hopen]
          omega
        have hrun' : readLoop g st.maps.disk nbytes offset st.node = (bs, st.node.withFile f') := hrun
        rw [fsReadFile, if_neg hgo, if_neg hnot, hrun']
      constructor
      · intro _
        rw [if_pos hin]
        refine ⟨bs, _, hread, ?_, hbytes⟩
        rw [hlen, h.fsz hopen]
      · refine ⟨_, rfl, ?_⟩
        rw [hread]
        exact h.withFile hopen hclean hsz ho
    · have hread : fsReadFile g nbytes offset st.maps st.node = (EOF, [], st.node) := by
        have hend : u32 offset ≥ st.node.file.fsz := by
          rw [u32_of_lt hoff, h.fsz hopen]
          omega
        rw [fsReadFile, if_neg hgo, if_pos hend]
      constructor
      · intro _
        rw [if_neg hin]
        exact hread
      · refine ⟨_, rfl, ?_⟩
        rw [hread]
        exact h
  · constructor
    · exact fun hcon => absurd hcon hopen
    · refine ⟨_, rfl, ?_⟩
      rw [fsReadFile, if_pos (.inl hopen)]
      exact h

/-! ## writing -/

theorem writeAt_ne_none {d : Contents} {pos p : Nat} {bs : Bytes} (h : writeAt d pos bs p ≠ none) :
    d p ≠ none ∨ (pos ≤ p ∧ p < pos + bs.length) := by
  rw [writeAt] at h
  by_cases hin : pos ≤ p ∧ p < pos + bs.length
  · exact .inr hin
  · rw [if_neg hin] at h
    exact .inl h

/-- A write of some bytes. -/
theorem FileInv.fwriteSome (h : FileInv g st) {bytes : Bytes} {offset : Nat} (hne : bytes ≠ [])
    (hopen : st.node.file.isOpen = true) (hfit : (FileEvent.fwrite bytes offset).Fits g st) :
    ∃ s f, fsWriteFile g bytes offset st.maps st.node =
        some ((bytes.length : Int), s, st.node.withFile f) ∧
      f.isOpen = true ∧ f.fsz = max st.size (offset + bytes.length) ∧ Clean g st.node s f ∧
      Owned g st.node s ∧ Stored g s.disk st.node (writeAt st.data offset bytes) ∧
      ∀ c, s.disk c ≠ st.maps.disk c → bit s.brb c = true := by
  have hge := h.valid.blksz_ge
  have hlen : 0 < bytes.length := List.length_pos_iff.mpr hne
  have hfit' := hfit hopen
  rw [if_neg hne] at hfit'
  obtain ⟨hsmall, hfresh, hrange, hroom⟩ := hfit'
  have hw := (h.isClean hopen hfresh).writing h.owned h.stored (by omega)
  obtain ⟨t, e, hrun, hwrote, hbb⟩ := writeLoop_spec offset ((offset + bytes.length - 1) / g.blksz + 1) h.valid
    h.shape bytes hw
    (fun q hq => by
      have hmono : (offset + q) / g.blksz ≤ (offset + bytes.length - 1) / g.blksz :=
        Nat.div_le_div_right (by omega)
      omega)
    (fun j h1 h2 => hrange j h1 (by omega)) hroom
  have hb := hbb (.inr hne)
  obtain ⟨hwf, hstored, hself, hmap, hother⟩ := hwrote.writing.flush h.valid hb
  obtain ⟨u, hu⟩ : ∃ u, flush g t (st.node.withFile e) = u := ⟨_, rfl⟩
  rw [hu] at hwf hstored hself hmap hother
  have hbrb : u.brb = t.brb := by
    rw [← hu]
    rfl
  have hgo := accessible O_RDONLY hopen rfl
  have hrun' : writeLoop g bytes offset st.maps st.node = some (0, t, st.node.withFile e) := hrun
  have hesz : e.fsz = st.size := hwrote.same.1.trans (h.fsz hopen)
  have hclean : Clean g st.node u e := by
    refine ⟨hwf.kept, hwf.cached, fun _ x hx => (hself x hx).symm⟩
  have hmarked : ∀ c, u.disk c ≠ st.maps.disk c → bit u.brb c = true := by
    intro c hc
    refine hwf.owned.marked h.valid fun hout => hc ?_
    have hout' : Outside g st.node t c :=
      hout.before h.valid fun j _ => hmap j
    rw [hother c, hwrote.frame c hout']
    intro heq
    rw [heq, hwrote.writing.cached hb, ← hmap] at hout
    exact hout.2.2 _ rfl
  have hret : fsWriteFile g bytes offset st.maps st.node = some ((bytes.length : Int), u,
      if offset + (bytes.length - 1) ≥ e.fsz then
        st.node.withFile { e with fsz := u32 (offset + (bytes.length - 1) + 1) }
      else st.node.withFile e) := by
    have hbuf : bytes.length ≠ 0 ∧ (st.node.withFile e).file.bblk ≠ 0 := ⟨by omega, hb⟩
    rw [fsWriteFile, if_neg hgo, hrun', Option.map_some]
    dsimp only
    rw [if_neg (by decide), if_pos hbuf, if_neg hbuf.1, hu]
    rfl
  by_cases hgrow : offset + (bytes.length - 1) ≥ e.fsz
  · rw [if_pos hgrow] at hret
    refine ⟨u, _, hret, hwrote.same.2.1.trans hopen, ?_, ?_, hwf.owned, hstored, hmarked⟩
    · show u32 _ = _
      rw [u32_of_lt (by omega)]
      omega
    · exact ⟨hclean.kept.withFile rfl rfl, hclean.cached, hclean.same⟩
  · rw [if_neg hgrow] at hret
    refine ⟨u, e, hret, hwrote.same.2.1.trans hopen, ?_, hclean, hwf.owned, hstored, hmarked⟩
    rw [hesz] at hgrow ⊢
    omega

theorem FileInv.fwrite (h : FileInv g st) {bytes : Bytes} {offset : Nat}
    (hfit : (FileEvent.fwrite bytes offset).Fits g st) :
    (FileEvent.fwrite bytes offset).Right g st ∧
      ∃ st', (FileEvent.fwrite bytes offset).run g st = some st' ∧ FileInv g st' := by
  by_cases hopen : st.node.file.isOpen = true
  · by_cases hne : bytes = []
    · have hfit' := hfit hopen
      rw [if_pos hne] at hfit'
      have hnothing : fsWriteFile g bytes offset st.maps st.node =
          some ((bytes.length : Int), st.maps, st.node) := by
        have hend : ¬ 0 ≥ st.node.file.fsz := by
          rw [h.fsz hopen]
          omega
        have hnil : ([] : Bytes).length = 0 := rfl
        rw [fsWriteFile, if_neg (accessible _ hopen rfl), hne, writeLoop,
          Option.map_some]
        dsimp only
        rw [if_neg (by decide), if_neg fun hcon => hcon.1 rfl, if_pos hnil, if_neg hend]
      constructor
      · intro _
        exact ⟨_, _, hnothing, fun c hc => absurd rfl hc, fun _ => ⟨rfl, rfl⟩,
          fun hcon => absurd hne hcon⟩
      · refine ⟨st, ?_, h⟩
        rw [FileEvent.run, hnothing, Option.map_some]
        dsimp only
        rw [if_pos (.inr hne)]
    · obtain ⟨s, f, hret, ho, hsz, hclean, howned, hstored, hmarked⟩ :=
        h.fwriteSome hne hopen hfit
      have hfit' := hfit hopen
      rw [if_neg hne] at hfit'
      have hsmall := hfit'.1
      have hsize := h.size_lt
      constructor
      · intro _
        exact ⟨s, _, hret, hmarked, fun hcon => absurd hcon hne, fun _ => hsz⟩
      · refine ⟨⟨s, st.node.withFile f, writeAt st.data offset bytes,
          max st.size (offset + bytes.length)⟩, ?_, ?_⟩
        · have hpos : ¬ ((bytes.length : Int) < 0 ∨ bytes = []) :=
            not_or.mpr ⟨by omega, hne⟩
          rw [FileEvent.run, hret, Option.map_some]
          dsimp only
          rw [if_neg hpos]
        · constructor
          case valid => exact h.valid
          case shape => exact h.shape.withFile
          case owned => exact howned.withFile
          case stored => exact hstored
          case below =>
            intro p hp
            show p < max st.size (offset + bytes.length)
            cases writeAt_ne_none hp with
            | inl hold =>
                have hlt := h.below p hold
                omega
            | inr hnew => omega
          case size_lt =>
            show max st.size (offset + bytes.length) < 2 ^ 32
            omega
          case closed =>
            intro hcl
            have hf : f.isOpen = false := hcl
            rw [ho] at hf
            cases hf
          case kept => exact fun _ => hclean.kept
          case fsz => exact fun _ => hsz
          case fresh =>
            intro _ _
            by_cases hb : f.bblk = 0
            · exact .inl hb
            · exact .inr (hclean.cached hb)
          case clean => exact fun _ hb _ => hclean.same hb
  · constructor
    · exact fun hcon => absurd hcon hopen
    · refine ⟨st, ?_, h⟩
      rw [FileEvent.run, fsWriteFile, if_pos (.inl hopen), Option.map_some]
      dsimp only
      rw [if_pos (.inl (by decide))]

/-! ## truncating and closing -/

theorem FileInv.ftruncate (h : FileInv g st) {offset : Nat}
    (hfit : (FileEvent.ftruncate offset).Fits g st) :
    (FileEvent.ftruncate offset).Right g st ∧
      ∃ st', (FileEvent.ftruncate offset).run g st = some st' ∧ FileInv g st' := by
  by_cases hopen : st.node.file.isOpen = true
  · by_cases hoff : offset = 0
    · have hge := h.valid.blksz_ge
      obtain ⟨hsmall, hall⟩ := hfit hopen hoff
      obtain ⟨k, hk⟩ : ∃ k, align st.node.file.fsz g.blksz / g.blksz = k := ⟨_, rfl⟩
      have hceil : k = (st.size + (g.blksz - 1)) / g.blksz := by
        rw [← hk, h.fsz hopen, align_of_lt (by omega), Nat.mul_div_cancel _ (by omega)]
      have hkle : k * g.blksz ≤ st.size + (g.blksz - 1) := by
        rw [hceil]
        exact Nat.div_mul_le_self _ _
      have hk32 : k * 1024 ≤ k * g.blksz := Nat.mul_le_mul_left k hge
      have hwords : FILE_WORDS = 46 := rfl
      obtain ⟨s, f, hrun, hc⟩ := truncLoop_spec h.valid h.shape h.owned (h.kept hopen) k (by omega)
        fun i hi hlim => by
          have hmul : (i + 1) * g.blksz ≤ k * g.blksz := Nat.mul_le_mul_right _ hi
          rw [Nat.succ_mul] at hmul
          exact hall i (by omega) hlim
      have hret : fsTruncate g offset st.maps st.node =
          some (0, s, st.node.withFile { f with fsz := 0 }) := by
        rw [fsTruncate, if_neg (not_not.mpr hopen), if_neg (by omega), hk]
        exact congrArg (Option.map _) hrun
      have hf := hc.same
      constructor
      · intro _ _
        exact ⟨s, _, hret, rfl⟩
      · refine ⟨⟨s, st.node.withFile { f with fsz := 0 }, fun _ => none, 0⟩, ?_, ?_⟩
        · rw [FileEvent.run, hret, Option.map_some]
          rfl
        · constructor
          case valid => exact h.valid
          case shape => exact h.shape.withFile
          case owned => exact hc.owned.withFile
          case stored =>
            intro p b hp
            cases hp
          case below => exact fun p hp => absurd rfl hp
          case size_lt => exact Nat.two_pow_pos 32
          case closed =>
            intro hcl
            have hcl' : f.isOpen = false := hcl
            rw [hf] at hcl'
            rw [hopen] at hcl'
            cases hcl'
          case kept => exact fun _ => hc.kept.withFile rfl rfl
          case fsz => exact fun _ => rfl
          case fresh => exact fun _ hpos => absurd hpos (Nat.lt_irrefl 0)
          case clean =>
            intro _ hb hat x hx
            -- only the entry of a block beyond the end may be left
            have hb' : st.node.file.bblk ≠ 0 := by
              have hb0 : f.bblk ≠ 0 := hb
              rw [hf] at hb0
              exact hb0
            have hat' : st.node.file.bblk = blkAt g s.disk st.node st.node.file.i := by
              have hat0 : f.bblk = blkAt g s.disk st.node f.i := hat
              rw [hf] at hat0
              exact hat0
            have hent := hc.entries st.node.file.i
            by_cases hi : st.node.file.i < k
            · rw [if_pos hi] at hent
              exact absurd (hat'.trans hent) hb'
            · rw [if_neg hi] at hent
              have hold := hat'.trans hent
              have hne : blkAt g st.maps.disk st.node st.node.file.i ≠ 0 := by
                rw [← hold]
                exact hb'
              have hdisk : s.disk st.node.file.bblk = st.maps.disk st.node.file.bblk := by
                rw [hold]
                exact hc.frame _ (h.owned.data _ hne).1 fun l hl => h.owned.apart _ l hne hl
              show f.blk x = s.disk f.bblk x
              rw [hf]
              show st.node.file.blk x = s.disk st.node.file.bblk x
              rw [hdisk]
              exact h.clean hopen hb' hold x hx
    · constructor
      · exact fun _ hcon => absurd hcon hoff
      · refine ⟨st, ?_, h⟩
        rw [FileEvent.run, fsTruncate, if_neg (not_not.mpr hopen), if_pos (by omega), Option.map_some]
        dsimp only
        rw [if_pos (by decide)]
  · constructor
    · exact fun hcon => absurd hcon hopen
    · refine ⟨st, ?_, h⟩
      rw [FileEvent.run, fsTruncate, if_pos hopen, Option.map_some]
      dsimp only
      rw [if_pos (by decide)]

/-- Writing the file entry with another header leaves the map. -/
theorem blkAt_writeHeader (hv : g.Valid) (hs : n.Shape g)
    (hbuf : ∀ x, 4 * FILE_WORDS ≤ x → x < g.blksz → buf x = disk n.blk x) :
    blkAt g (writeBlk g n.blk buf disk) n i = blkAt g disk n i := by
  have hsz := blksz_perBlock hv
  have hpos := perBlock_pos hv
  have hin : n.blk < g.nblk := (hs.inside 0 (Nat.zero_le _) hs.entry).2
  by_cases hlim : i + FILE_WORDS < g.limit
  · by_cases hl : n.ablk (g.arrOf i) = 0
    · rw [blkAt, blkAt, if_pos (.inr hl), if_pos (.inr hl)]
    · rw [blkAt_linked hlim hl, blkAt_linked hlim hl]
      by_cases h0 : g.arrOf i = 0
      · have hmod : (i + FILE_WORDS) % g.perBlock = i + FILE_WORDS := by
          have hdiv : (i + FILE_WORDS) / g.perBlock = 0 := h0
          exact Nat.mod_eq_of_lt ((Nat.div_eq_zero_iff_lt (by omega)).mp hdiv)
        have hlt : (i + FILE_WORDS) % g.perBlock < g.perBlock := Nat.mod_lt _ (by omega)
        rw [h0, hmod]
        rw [hmod] at hlt
        refine word_congr fun x hx => ?_
        show writeBlk g n.blk buf disk n.blk _ = disk n.blk _
        rw [writeBlk_self hin (by omega), hbuf _ (by omega) (by omega)]
      · have hne : n.ablk (g.arrOf i) ≠ n.blk :=
          fun heq => h0 (hs.inj _ 0 (arrOf_le hlim) (Nat.zero_le _) hl heq)
        rw [writeBlk_of_ne hne]
  · rw [blkAt_untracked (by omega), blkAt_untracked (by omega)]

/-- The entry that is written on closing keeps the block numbers. -/
theorem closedEntry_behind {tm x : Nat} (hin : n.blk < g.nblk) (h1 : 4 * FILE_WORDS ≤ x)
    (h2 : x < g.blksz) : closedEntry g tm disk n x = disk n.blk x := by
  have hwords : FILE_WORDS = 46 := rfl
  have hset : ∀ f v m, f + 4 ≤ 184 → setWord f v m x = m x :=
    fun f v m hf => setWord_outside (by omega)
  rw [closedEntry, hset _ _ _ (by decide), hset _ _ _ (by decide), hset _ _ _ (by decide), hset _ _ _ (by decide)]
  split
  · rw [hset _ _ _ (by decide), hset _ _ _ (by decide), readBlk_lt hin h2]
  · rw [readBlk_lt hin h2]

/-- The size in the entry that is written on closing. -/
theorem closedEntry_size {tm : Nat} (hin : n.blk < g.nblk) (hge : 1024 ≤ g.blksz)
    (hsz : n.file.fsz < 2 ^ 32) : word (closedEntry g tm disk n) FILE_FSZ =
      if n.file.flags % 2 = 1 then n.file.fsz else word (disk n.blk) FILE_FSZ := by
  have hand : n.file.flags &&& ofBool (O_ACCMODE != O_RDONLY) = n.file.flags % 2 :=
    Nat.and_one_is_mod _
  rw [closedEntry, hand, word_setWord_of_apart (by decide), word_setWord_of_apart (by decide),
    word_setWord_of_apart (by decide), word_setWord_of_apart (by decide)]
  by_cases hodd : n.file.flags % 2 = 1
  · rw [if_pos (by omega), if_pos hodd, word_setWord_of_apart (by decide), word_setWord hsz]
  · rw [if_neg (by omega), if_neg hodd]
    refine word_congr fun x hx => ?_
    have hoff : FILE_FSZ = 168 := rfl
    exact readBlk_lt hin (by omega)

theorem FileInv.frelease (h : FileInv g st) {tm : Nat}
    (hfit : (FileEvent.frelease tm).Fits g st) :
    (FileEvent.frelease tm).Right g st ∧
      ∃ st', (FileEvent.frelease tm).run g st = some st' ∧ FileInv g st' := by
  have hge := h.valid.blksz_ge
  have hin : st.node.blk < g.nblk := (h.shape.inside 0 (Nat.zero_le _) h.shape.entry).2
  by_cases hopen : st.node.file.isOpen = true
  · obtain ⟨buf, hbuf⟩ : ∃ b, closedEntry g tm st.maps.disk st.node = b := ⟨_, rfl⟩
    have hret : fsRelease g tm st.maps st.node =
        (0, { st.maps with disk := writeBlk g st.node.blk buf st.maps.disk },
          st.node.withFile { st.node.file with isOpen := false }) := by
      rw [fsRelease, if_neg (not_not.mpr hopen), hbuf]
      rfl
    have hmap : ∀ i, blkAt g (writeBlk g st.node.blk buf st.maps.disk) st.node i =
        blkAt g st.maps.disk st.node i := by
      intro i
      refine blkAt_writeHeader h.valid h.shape fun x h1 h2 => ?_
      rw [← hbuf]
      exact closedEntry_behind hin h1 h2
    have hsize : word (writeBlk g st.node.blk buf st.maps.disk st.node.blk) FILE_FSZ = st.size := by
      have hfsz : st.node.file.fsz < 2 ^ 32 := by
        rw [h.fsz hopen]
        exact h.size_lt
      have hword : word (writeBlk g st.node.blk buf st.maps.disk st.node.blk) FILE_FSZ =
          word buf FILE_FSZ := by
        refine word_congr fun x hx => ?_
        have hoff : FILE_FSZ = 168 := rfl
        exact writeBlk_self hin (by omega)
      rw [hword, ← hbuf, closedEntry_size hin hge hfsz]
      by_cases hodd : st.node.file.flags % 2 = 1
      · rw [if_pos hodd, h.fsz hopen]
      · rw [if_neg hodd]
        exact (hfit hopen).resolve_left hodd
    constructor
    · intro _
      exact ⟨_, _, hret, hsize⟩
    · refine ⟨_, rfl, ?_⟩
      rw [hret]
      constructor
      case valid => exact h.valid
      case shape => exact h.shape.withFile
      case owned =>
        have ho : Owned g st.node { st.maps with disk := writeBlk g st.node.blk buf st.maps.disk } :=
          h.owned.congr hmap rfl
        exact ho.withFile
      case stored =>
        intro p b hp
        obtain ⟨hlink, hbyte⟩ := h.stored p b hp
        show blkAt g (writeBlk g st.node.blk buf st.maps.disk) st.node _ ≠ 0 ∧
          writeBlk g st.node.blk buf st.maps.disk
            (blkAt g (writeBlk g st.node.blk buf st.maps.disk) st.node _) _ = b
        have hne : blkAt g st.maps.disk st.node (p / g.blksz) ≠ st.node.blk :=
          h.owned.apart _ 0 hlink (Nat.zero_le _)
        rw [hmap, writeBlk_of_ne hne]
        exact ⟨hlink, hbyte⟩
      case below => exact h.below
      case size_lt => exact h.size_lt
      case closed => exact fun _ => hsize
      case kept => exact fun hcon => Bool.noConfusion hcon
      case fsz => exact fun hcon => Bool.noConfusion hcon
      case fresh => exact fun hcon => Bool.noConfusion hcon
      case clean => exact fun hcon => Bool.noConfusion hcon
  · constructor
    · exact fun hcon => absurd hcon hopen
    · refine ⟨_, rfl, ?_⟩
      rw [fsRelease, if_pos hopen]
      exact h

/-! ## runs -/

/-- **One call** that fits is right, and keeps the invariant. -/
theorem fileInv_step (h : FileInv g st) {e : FileEvent} (hfit : e.Fits g st) :
    e.Right g st ∧ ∃ st', e.run g st = some st' ∧ FileInv g st' := by
  cases e with
  | fopen flags arr blk => exact h.fopen flags arr blk
  | fread nbytes offset => exact h.fread hfit
  | fwrite bytes offset => exact h.fwrite hfit
  | ftruncate offset => exact h.ftruncate hfit
  | frelease tm => exact h.frelease hfit

/-- **A file is an array of bytes**: after any calls that fit, the next call that fits
returns what the calls before wrote. -/
theorem file_of_reachable (g : Geometry) (st : FileState)
    (hs : (fileSystem g).Reachable (fun st e => e.Fits g st) st) (e : FileEvent)
    (hfit : e.Fits g st) : e.Right g st := by
  have hinv : FileInv g st := by
    apply hs.invariant
    · intro st hinit
      obtain ⟨hv, hshape, howned, hstored, hbelow, hclosed, hsize⟩ := hinit
      have hno : ∀ {P : Prop}, st.node.file.isOpen = true → P := by
        intro P hcon
        rw [hclosed] at hcon
        cases hcon
      refine ⟨hv, hshape, howned, hstored, hbelow, ?_, fun _ => hsize, hno, hno, hno, hno⟩
      rw [← hsize]
      exact word_lt
    · intro st e st' hi hok hst
      obtain ⟨t, ht, hi'⟩ := (fileInv_step hi hok).2
      have heq : st' = t := Option.some.inj (hst.symm.trans ht)
      rw [heq]
      exact hi'
  exact (fileInv_step hinv hfit).1

/-! ## a file of one byte -/

/-- The entry of a file of one byte, in block 1001. -/
def smallEntry : ByteMem := setWord (4 * FILE_WORDS) 1001 (setWord FILE_FSZ 1 fun _ => 0)

/-- The file on the small volume, with its entry in block 1000. -/
def smallFile : FileState where
  maps := { smallMaps 1025 with
    disk := fun b => if b = 1000 then smallEntry else (smallMaps 1025).disk b }
  node := Node.closed 1000
  data := fun p => if p = 0 then some 0 else none
  size := 1

theorem shape_small : smallFile.node.Shape smallGeometry :=
  shape_closed (by decide) (by decide) (by decide)

theorem smallFile_entry : smallFile.maps.disk 1000 = smallEntry := rfl

theorem blkAt_small (i : Nat) :
    blkAt smallGeometry smallFile.maps.disk smallFile.node i = if i = 0 then 1001 else 0 := by
  have hwords : FILE_WORDS = 46 := rfl
  have hsize : FILE_FSZ = 168 := rfl
  have hper : smallGeometry.perBlock = 255 := rfl
  by_cases hlim : i + FILE_WORDS < smallGeometry.limit
  · by_cases h0 : smallGeometry.arrOf i = 0
    · have hlt : i + FILE_WORDS < 255 := by
        have hdiv : (i + FILE_WORDS) / 255 = 0 := h0
        omega
      have hentry : smallFile.maps.disk (smallFile.node.ablk 0) = smallEntry := smallFile_entry
      rw [blkAt_linked hlim (by rw [h0]; decide), h0, hentry, hper, Nat.mod_eq_of_lt hlt, smallEntry]
      by_cases hi : i = 0
      · rw [if_pos hi, hi, Nat.zero_add, word_setWord (by decide)]
      · rw [if_neg hi, word_setWord_of_apart (by omega), word_setWord_of_apart (by omega)]
        rfl
    · have hnone : smallFile.node.ablk (smallGeometry.arrOf i) = 0 := by
        rw [Node.ablk, if_neg h0]
        rfl
      rw [blkAt, if_pos (.inr hnone), if_neg]
      intro hi
      rw [hi] at h0
      exact h0 rfl
  · rw [blkAt_untracked (by omega), if_neg]
    intro hi
    rw [hi] at hlim
    exact hlim (by decide)

theorem smallFile_init : (fileSystem smallGeometry).init smallFile := by
  have hbit : ∀ b, bit smallFile.maps.brb b = decide (b < 1025) := bit_small
  have hzero : ∀ i, blkAt smallGeometry smallFile.maps.disk smallFile.node i ≠ 0 → i = 0 := by
    intro i hne
    by_contra hi
    rw [blkAt_small, if_neg hi] at hne
    exact hne rfl
  have harr : ∀ k, smallFile.node.ablk k ≠ 0 → smallFile.node.ablk k = 1000 := by
    intro k hk
    cases k with
    | zero => rfl
    | succ k => exact absurd rfl hk
  refine ⟨smallGeometry_valid, shape_small, ?_, ?_, ?_, rfl, ?_⟩
  · constructor
    case reserved =>
      intro b hb
      have hrsvd : smallGeometry.nblkRsvd = 6 := rfl
      rw [hbit, decide_eq_true (by omega)]
    case arrays =>
      intro k _ hk
      rw [hbit, harr k hk]
      rfl
    case data =>
      intro i hne
      rw [hbit, hzero i hne, blkAt_small]
      decide
    case apart =>
      intro i k hne _ heq
      have hk : smallFile.node.ablk k ≠ 0 := heq ▸ hne
      rw [hzero i hne, harr k hk, blkAt_small] at heq
      exact absurd heq (by decide)
    case inj =>
      intro i j hne heq
      rw [hzero i hne, hzero j (heq ▸ hne)]
  · intro p b hp
    have hp0 : p = 0 := by
      by_contra hne
      have hnone : smallFile.data p = none := if_neg hne
      rw [hnone] at hp
      cases hp
    have hb : (0 : UInt8) = b := by
      rw [hp0] at hp
      exact Option.some.inj hp
    rw [hp0, ← hb, Nat.zero_div, Nat.zero_mod, blkAt_small, if_pos rfl]
    refine ⟨by decide, ?_⟩
    have hother : smallFile.maps.disk 1001 = (smallMaps 1025).disk 1001 := rfl
    rw [hother]
    decide +kernel
  · intro p hne
    by_contra hp
    have hsize : smallFile.size = 1 := rfl
    exact hne (if_neg (by omega))
  · have hentry : smallFile.maps.disk smallFile.node.blk = smallEntry := smallFile_entry
    rw [hentry, smallEntry, word_setWord_of_apart (by decide), word_setWord (by decide)]
    rfl

/-- The file, opened. -/
def smallOpen (flags : Nat) : FileState where
  maps := smallFile.maps
  node := smallFile.node.openFile smallGeometry smallFile.maps.disk flags (fun _ => 0) fun _ => 0
  data := smallFile.data
  size := smallFile.size

theorem file_of_reachable_example : (FileEvent.fread 2 0).Right smallGeometry (smallOpen 0) := by
  have hreach : (fileSystem smallGeometry).Reachable (fun st e => e.Fits smallGeometry st)
      (smallOpen 0) :=
    ⟨smallFile, smallFile_init, Steps.refl.tail (.fopen 0 (fun _ => 0) fun _ => 0) trivial rfl⟩
  refine file_of_reachable smallGeometry _ hreach (.fread 2 0) ⟨by decide, ?_⟩
  intro p _ _ hlt
  have hp : p = 0 := Nat.lt_one_iff.mp hlt
  show blkAt smallGeometry smallFile.maps.disk smallFile.node (p / 1024) ≠ 0
  rw [hp, blkAt_small]
  decide

/-- Truncating the file leaves the size in its entry. -/
theorem truncate_small : ∃ s n, fsTruncate smallGeometry 0 smallFile.maps (smallOpen O_RDWR).node =
    some (0, s, n) ∧ n.blk = 1000 ∧ n.file.flags = O_RDWR ∧ n.file.isOpen = true ∧
      n.file.fsz = 0 ∧ word (s.disk 1000) FILE_FSZ = 1 := by
  have hs : (smallOpen O_RDWR).node.Shape smallGeometry :=
    ⟨shape_small.entry, shape_small.inside, shape_small.inj⟩
  have hmap : blkAt smallGeometry smallFile.maps.disk (smallOpen O_RDWR).node 0 = 1001 := blkAt_small 0
  have hlinked : (smallOpen O_RDWR).node.Linked smallGeometry 0 := by
    intro l hl
    have h0 : l = 0 := Nat.le_zero.mp hl
    rw [h0]
    decide
  have hfit : FreeFits smallGeometry smallFile.maps.brb 1001 := .inr (.inr (by decide))
  obtain ⟨s, arr, hset, heff⟩ := nodeSetblk_spec (v := 0) smallGeometry_valid hs
    (kept_openFile shape_small) (by decide) hlinked (by decide) fun _ => by
      rw [hmap]
      exact hfit
  have hopen : (smallOpen O_RDWR).node.file.isOpen = true := rfl
  have hfsz : (smallOpen O_RDWR).node.file.fsz = 1 := by decide +kernel
  have hround : align 1 smallGeometry.blksz / smallGeometry.blksz = 1 := by decide
  refine ⟨s, ((smallOpen O_RDWR).node.keep arr (smallGeometry.arrOf 0)).modFile
    fun f => { f with fsz := 0 }, ?_, rfl, rfl, rfl, rfl, ?_⟩
  · rw [fsTruncate, if_neg (not_not.mpr hopen), if_neg (Nat.lt_irrefl 0), hfsz, hround]
    dsimp only
    rw [forLoop]
    dsimp only
    rw [hset]
    rfl
  · have hhead : word (s.disk 1000) FILE_FSZ = word (smallFile.maps.disk 1000) FILE_FSZ :=
      word_congr fun x hx => heff.header _ (by
        have hoff : FILE_FSZ = 168 := rfl
        have hwords : FILE_WORDS = 46 := rfl
        omega)
    rw [hhead, smallFile_entry, smallEntry, word_setWord_of_apart (by decide), word_setWord (by decide)]

/-- Opened with `O_RDWR`, truncated and closed, the file keeps its old size. -/
theorem not_file : ∃ st, (fileSystem smallGeometry).init smallFile ∧
    (FileEvent.fopen O_RDWR (fun _ => 0) fun _ => 0).run smallGeometry smallFile =
      some (smallOpen O_RDWR) ∧
    (FileEvent.ftruncate 0).run smallGeometry (smallOpen O_RDWR) = some st ∧
    ¬ (FileEvent.frelease 0).Right smallGeometry st := by
  obtain ⟨s, n, htrunc, hblk, hflags, hopen, hfsz, hold⟩ := truncate_small
  refine ⟨⟨s, n, fun _ => none, 0⟩, smallFile_init, rfl, ?_, ?_⟩
  · have htrunc' : fsTruncate smallGeometry 0 (smallOpen O_RDWR).maps (smallOpen O_RDWR).node =
        some (0, s, n) := htrunc
    rw [FileEvent.run, htrunc']
    rfl
  · intro hright
    obtain ⟨t, n', hrel, hsize⟩ := hright hopen
    have hin : n.blk < smallGeometry.nblk := by
      rw [hblk]
      decide
    rw [fsRelease, if_neg (not_not.mpr hopen)] at hrel
    cases hrel
    have hword : word (writeBlk smallGeometry n.blk (closedEntry smallGeometry 0 s.disk n) s.disk n.blk)
        FILE_FSZ = word (closedEntry smallGeometry 0 s.disk n) FILE_FSZ :=
      word_congr fun x hx => writeBlk_self hin (by
        have hoff : FILE_FSZ = 168 := rfl
        have hsz : smallGeometry.blksz = 1024 := rfl
        omega)
    have hzero : word (writeBlk smallGeometry n.blk (closedEntry smallGeometry 0 s.disk n) s.disk n.blk)
        FILE_FSZ = 0 := hsize
    have hkeeps := hzero.symm.trans (hword.trans (closedEntry_size hin (by decide) (by omega)))
    rw [if_neg (by rw [hflags]; decide), hblk, hold] at hkeeps
    cases hkeeps

end Eclair
