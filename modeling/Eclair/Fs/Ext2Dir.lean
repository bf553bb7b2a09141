import Eclair.Fs.Ext2Read
import Eclair.Vfs.CString

/-!
# Eclair.Fs.Ext2Dir

What `ext2_filldir` lists, against the records on the disk.

The loop takes whatever size a record gives and adds an entry for it,
whether or not the record is in use, and the types of inodes overlap in
their bits.  `Tame` says when the loop stays inside its buffer and the group
table and ends; `filldir_iff` says when the listing is right.
-/

namespace Eclair

open ByteMem

namespace Ext2Info

variable (v : Ext2Info)

/-- The access is in the block buffer, the group table, or the cached block. -/
def Inside : Ext2Access → Prop
  | .byte i => i < v.blocksize
  | .group bg => bg < v.nbgs
  | .inode off => off + 128 ≤ v.blocksize

/-! ## the records as they come -/

/-- Block `i` of a directory. -/
def dirBlock (dir : Ext2Inode) (i : Nat) : ByteMem := v.blockByte (v.blockOf dir i)

/-- The blocks taken up at a position, when there were `bidx` before. -/
def taken (pos bidx : Nat) : Nat := if pos % v.blocksize = 0 then bidx + 1 else bidx

/-- The chain of records from a position on, each in the block taken up last,
comes to the end of the directory or to a hole; every record and its name are
inside the block, and the inode's group is in the table. -/
inductive Tame (dir : Ext2Inode) : Nat → Nat → Prop
  | done (pos bidx) (h : dir.losize ≤ pos) : Tame dir pos bidx
  | hole (pos bidx) (h : pos < dir.losize) (h0 : pos % v.blocksize = 0)
      (hb : v.blockOf dir bidx = 0) : Tame dir pos bidx
  | record (pos bidx m) (h : pos < dir.losize)
      (hb : pos % v.blocksize = 0 → v.blockOf dir bidx ≠ 0)
      (hm : m = v.dirBlock dir (v.taken pos bidx - 1))
      (hin : ∀ a ∈ recordBytes m (pos % v.blocksize), v.Inside a)
      (hg : v.blockGroup (word m (pos % v.blocksize)) < v.nbgs)
      (hn : Tame dir (u32 (pos + halfAt m (pos % v.blocksize + 4))) (v.taken pos bidx)) :
      Tame dir pos bidx

/-! ## the records of a well-formed directory -/

/-- A record: the number of its inode, its size, and its name. -/
structure DirRecord where
  inode : Nat
  size : Nat
  name : Bytes
  deriving DecidableEq, Repr

/-- The records of a block from an offset on, up to its end. -/
inductive Records (m : ByteMem) : Nat → List DirRecord → Prop
  | nil : Records m v.blocksize []
  | cons (lpos r rs) (hi : word m lpos = r.inode) (hs : halfAt m (lpos + 4) = r.size)
      (hn : (List.range (m (lpos + 6)).toNat).map (nameFrom m lpos) = r.name)
      (h0 : 0 ∉ r.name) (hfit : EXT2_NAME + r.name.length ≤ r.size)
      (hrs : Records m (lpos + r.size) rs) : Records m lpos (r :: rs)

/-- A directory with the records `blocks`, block by block. -/
structure DirFormed (dir : Ext2Inode) (blocks : List (List DirRecord)) : Prop where
  size : dir.losize = blocks.length * v.blocksize
  block : ∀ i < blocks.length, v.blockOf dir i ≠ 0
  records : ∀ i (h : i < blocks.length), v.Records (v.dirBlock dir i) 0 blocks[i]
  inode : ∀ r ∈ blocks.flatten, r.inode ≠ 0 →
    v.blockGroup r.inode < v.nbgs ∧ v.Ext2Layout r.inode

end Ext2Info

/-- The type of the node for a `type` field, if there is one. -/
def nodeKind (type : Nat) : Option Nat :=
  match type / 0x1000 with
  | 1 => some FS_PIPE
  | 4 => some FS_DIRECTORY
  | 8 => some FS_FILE
  | 10 => some FS_SYMLINK
  | 12 => some FS_SOCKET
  | _ => none

namespace Ext2Info

variable (v : Ext2Info)

/-- The entry for a record: with its inode, its name, and the type in that inode. -/
structure EntryOf (e : Ext2Entry) (r : DirRecord) : Prop where
  inode : e.node.inode = r.inode
  name : CStr (· < FS_NAMESZ) e.mem 0 r.name
  flags : ∀ k, nodeKind (v.inodeOf r.inode).type = some k → e.node.flags = k

/-- **The listing is right**: it comes to an end, nothing outside is looked
at, and a well-formed directory gets an entry for each record in use. -/
def ListsRight (inode : Nat) (cache dirbuf : ByteMem) (mem : Nat → ByteMem) : Prop :=
  ∃ fuel r, v.ext2Filldir inode cache dirbuf mem fuel = some r ∧ (∀ a ∈ r.looked, v.Inside a) ∧
    ∀ blocks, v.DirFormed (v.readInode inode cache).1 blocks →
      List.Forall₂ v.EntryOf r.entries (blocks.flatten.filter (·.inode ≠ 0))

/-- The type of the inode survives `ext2_translate_type`: a pipe, and, where
another inode is found in its place, a symbolic link found as a character device. -/
def KindKept (n : Nat) : Prop :=
  ∀ k, nodeKind (v.inodeOf n).type = some k →
    (k = FS_PIPE ∧ (inodeAt v.part (v.foundPlace n)).type / 0x1000 = 1) ∨
      (k = FS_SYMLINK ∧ (inodeAt v.part (v.foundPlace n)).type / 0x1000 = 2)

variable {v} {dir : Ext2Inode} {s r : Ext2Filling} {m buf src src' : ByteMem}
variable {pos bidx lpos i k n : Nat}

/-! ## one record -/

/-- How much of a name is looked at depends on that much of it. -/
theorem strncpyReads_congr (h : ∀ j < strncpyReads src k i, src' (i + j) = src (i + j)) :
    strncpyReads src' k i = strncpyReads src k i := by
  induction k generalizing i with
  | zero => rfl
  | succ k ih =>
      simp only [strncpyReads] at h ⊢
      by_cases h0 : src i = 0
      · have hi := h 0 (by simp [h0])
        rw [Nat.add_zero] at hi
        rw [if_pos h0, if_pos (hi.trans h0)]
      · simp only [if_neg h0] at h ⊢
        have hi := h 0 (Nat.succ_pos _)
        rw [Nat.add_zero] at hi
        rw [if_neg (hi ▸ h0), ih fun j hj => ?_]
        have hj := h (j + 1) (Nat.succ_lt_succ hj)
        rwa [← Nat.add_assoc, Nat.add_right_comm] at hj

/-- The head of a record whose bytes are inside. -/
theorem head_inside (hin : ∀ a ∈ recordBytes m lpos, v.Inside a) : lpos + 6 < v.blocksize :=
  hin (.byte (lpos + 6))
    (List.mem_append_left _ (List.mem_map.mpr ⟨6, List.mem_range.mpr (by decide), rfl⟩))

/-- Buffers with the same block give the same record, if its bytes are inside. -/
theorem record_congr (ha : ∀ x < v.blocksize, buf x = m x)
    (hin : ∀ a ∈ recordBytes m lpos, v.Inside a) :
    recordBytes buf lpos = recordBytes m lpos ∧ word buf lpos = word m lpos ∧
      halfAt buf (lpos + 4) = halfAt m (lpos + 4) := by
  have hlt := head_inside hin
  have hsz : dnamesz buf lpos = dnamesz m lpos := by rw [dnamesz, dnamesz, ha _ hlt]
  refine ⟨?_, word_congr fun i hi => ha _ (by omega), halfAt_congr fun i hi => ha _ (by omega)⟩
  have hreads : strncpyReads (nameFrom buf lpos) (dnamesz m lpos) 0
      = strncpyReads (nameFrom m lpos) (dnamesz m lpos) 0 := by
    refine strncpyReads_congr fun j hj => ?_
    have hb : v.Inside (.byte (lpos + EXT2_NAME + j)) :=
      hin _ (List.mem_append_right _ (List.mem_map.mpr ⟨j, List.mem_range.mpr hj, rfl⟩))
    rw [Nat.zero_add]
    exact ha _ hb
  rw [recordBytes, recordBytes, hsz, hreads]

theorem inodeAccess_inside (hv : v.Sound) (hg : v.blockGroup n < v.nbgs) :
    ∀ a ∈ v.inodeAccess n, v.Inside a := by
  have hoff := (place_eq hv n).2
  have hrec := hv.record
  intro a ha
  obtain rfl | ha := List.mem_cons.mp ha
  · exact hg
  · obtain rfl := List.mem_singleton.mp ha
    show _ + 128 ≤ v.blocksize
    omega

/-! ## one round -/

/-- The loop is at a position, with `bidx` blocks taken up and the last of them
in the buffer. -/
structure Follows (v : Ext2Info) (dir : Ext2Inode) (pos bidx : Nat) (s : Ext2Filling) : Prop where
  place : s.pos = pos
  count : s.bidx = bidx
  data : pos % v.blocksize ≠ 0 → ∀ x < v.blocksize, s.dirbuf x = v.dirBlock dir (bidx - 1) x

theorem follows_start (v : Ext2Info) (dir : Ext2Inode) (dirbuf cache : ByteMem)
    (looked : List Ext2Access) : v.Follows dir 0 0 ⟨0, 0, dirbuf, cache, [], looked⟩ :=
  ⟨rfl, rfl, fun h => absurd (Nat.zero_mod _) h⟩

theorem fillBlock_none (h : v.Follows dir pos bidx s) (h0 : pos % v.blocksize = 0)
    (hb : v.blockOf dir bidx = 0) : v.fillBlock dir s = none := by
  rw [fillBlock, h.place, if_pos h0, h.count]
  dsimp only
  rw [readInodeBlock_fst, if_pos hb]

theorem fillBlock_some (h : v.Follows dir pos bidx s)
    (hb : pos % v.blocksize = 0 → v.blockOf dir bidx ≠ 0) :
    ∃ buf, v.fillBlock dir s = some { s with bidx := v.taken pos bidx, dirbuf := buf } ∧
      ∀ x < v.blocksize, buf x = v.dirBlock dir (v.taken pos bidx - 1) x := by
  rw [fillBlock, h.place, h.count, taken]
  split
  · next h0 =>
      have hlt := lt_of_blockOf (hb h0)
      have hbs : v.blocksize < 2 ^ 32 := u32_lt _
      rw [Nat.shiftRight_eq_div_pow] at hlt
      refine ⟨_, ?_, readInodeBlock_snd (hb h0) s.dirbuf⟩
      dsimp only
      rw [readInodeBlock_fst, if_neg (hb h0), u32_of_lt (by omega)]
  · next h0 => exact ⟨s.dirbuf, by rw [← h.count, ← h.place], h.data h0⟩

/-- One round of the loop, at a record. -/
theorem fillLoop_record (mem : Nat → ByteMem) (h : v.Follows dir pos bidx s) (hpos : pos < dir.losize)
    (hb : pos % v.blocksize = 0 → v.blockOf dir bidx ≠ 0) :
    ∃ buf, (∀ x < v.blocksize, buf x = v.dirBlock dir (v.taken pos bidx - 1) x) ∧
      (∀ n, v.fillLoop dir mem (n + 1) s = v.fillLoop dir mem n
        (v.fillRecord (mem s.entries.length) { s with bidx := v.taken pos bidx, dirbuf := buf })) ∧
      v.Follows dir (u32 (pos + halfAt buf (pos % v.blocksize + 4))) (v.taken pos bidx)
        (v.fillRecord (mem s.entries.length) { s with bidx := v.taken pos bidx, dirbuf := buf }) := by
  obtain ⟨buf, hsome, hbuf⟩ := fillBlock_some h hb
  refine ⟨buf, hbuf, fun n => ?_, ?_, rfl, fun _ => hbuf⟩
  · rw [fillLoop, if_neg (by rw [h.place]; omega), hsome]
  · rw [fillRecord, h.place]

/-! ## staying inside -/

theorem fillBlock_looked (h : v.fillBlock dir s = some r) : r.looked = s.looked := by
  rw [fillBlock] at h
  dsimp only at h
  split at h
  · split at h
    · contradiction
    · exact Option.some.inj h ▸ rfl
  · exact Option.some.inj h ▸ rfl

/-- What was looked at stays on the list. -/
theorem looked_subset {mem : Nat → ByteMem} (h : v.fillLoop dir mem n s = some r) : ∀ a ∈ s.looked, a ∈ r.looked := by
  induction n generalizing s with
  | zero => contradiction
  | succ n ih =>
      rw [fillLoop] at h
      split at h
      · exact Option.some.inj h ▸ fun a ha => ha
      · split at h
        · exact Option.some.inj h ▸ fun a ha => ha
        · next t ht =>
            intro a ha
            refine ih h a ?_
            rw [fillRecord]
            simp only [fillBlock_looked ht, List.mem_append]
            exact .inl (.inl ha)

/-- Where the chain is tame, the loop ends and looks at nothing outside. -/
theorem loop_of_tame (mem : Nat → ByteMem) (hv : v.Sound) (ht : v.Tame dir pos bidx) :
    ∀ s, v.Follows dir pos bidx s →
      ∃ n r, v.fillLoop dir mem n s = some r ∧ ∀ a ∈ r.looked, a ∈ s.looked ∨ v.Inside a := by
  induction ht with
  | done pos bidx h =>
      intro s hs
      exact ⟨1, s, by rw [fillLoop, if_pos (by rw [hs.place]; exact h)], fun a ha => .inl ha⟩
  | hole pos bidx h h0 hb =>
      intro s hs
      refine ⟨1, s, ?_, fun a ha => .inl ha⟩
      rw [fillLoop, if_neg (by rw [hs.place]; omega), fillBlock_none hs h0 hb]
  | record pos bidx m h hb hm hin hg hn ih =>
      intro s hs
      obtain ⟨buf, hbuf, hloop, hnext⟩ := fillLoop_record mem hs h hb
      rw [← hm] at hbuf
      obtain ⟨hbytes, hword, hhalf⟩ := record_congr hbuf hin
      rw [hhalf] at hnext
      obtain ⟨n, r, hr, hlook⟩ := ih _ hnext
      refine ⟨n + 1, r, (hloop n).trans hr, fun a ha => ?_⟩
      obtain hold | hnew := hlook a ha
      · rw [fillRecord] at hold
        simp only [hs.place, hbytes, hword, List.mem_append] at hold
        obtain (hold | hrec) | hacc := hold
        · exact .inl hold
        · exact .inr (hin a hrec)
        · exact .inr (inodeAccess_inside hv hg a hacc)
      · exact .inr hnew

/-- A loop that ends and looks at nothing outside follows a tame chain. -/
theorem tame_of_loop {mem : Nat → ByteMem} (hs : v.Follows dir pos bidx s) (h : v.fillLoop dir mem n s = some r)
    (hin : ∀ a ∈ r.looked, v.Inside a) : v.Tame dir pos bidx := by
  induction n generalizing s pos bidx with
  | zero => contradiction
  | succ n ih =>
      by_cases hpos : dir.losize ≤ pos
      · exact .done pos bidx hpos
      by_cases hhole : pos % v.blocksize = 0 ∧ v.blockOf dir bidx = 0
      · exact .hole pos bidx (by omega) hhole.1 hhole.2
      have hb : pos % v.blocksize = 0 → v.blockOf dir bidx ≠ 0 := fun h0 hz => hhole ⟨h0, hz⟩
      obtain ⟨buf, hbuf, hloop, hnext⟩ := fillLoop_record mem hs (by omega) hb
      rw [hloop] at h
      have hsub := looked_subset h
      have hlook : ∀ a, a ∈ recordBytes buf (pos % v.blocksize) ∨
          a ∈ v.inodeAccess (word buf (pos % v.blocksize)) → v.Inside a := by
        intro a ha
        refine hin a (hsub a ?_)
        rw [fillRecord]
        simp only [hs.place, List.mem_append]
        tauto
      obtain ⟨hbytes, hword, hhalf⟩ :=
        record_congr (fun x hx => (hbuf x hx).symm) fun a ha => hlook a (.inl ha)
      refine .record pos bidx _ (by omega) hb rfl ?_ ?_ ?_
      · rw [hbytes]
        exact fun a ha => hlook a (.inl ha)
      · rw [hword]
        exact hlook (.group _) (.inr List.mem_cons_self)
      · rw [hhalf]
        exact ih hnext h

/-! ## a well-formed directory -/

/-- The entry that the loop makes of a record. -/
structure Shown (v : Ext2Info) (e : Ext2Entry) (rec : DirRecord) : Prop where
  inode : e.node.inode = rec.inode
  name : CStr (· < FS_NAMESZ) e.mem 0 rec.name ↔ rec.name.length < FS_NAMESZ
  flags : rec.inode ≠ 0 →
    e.node.flags = ext2TranslateType (inodeAt v.part (v.foundPlace rec.inode)).type

theorem le_of_records {rs : List DirRecord} (h : v.Records m lpos rs) : lpos ≤ v.blocksize := by
  induction h with
  | nil => exact Nat.le_refl _
  | cons lpos r rs hi hs hn h0 hfit hrs ih => omega

/-- A name without a NUL is copied whole if it fits in its field with one behind it. -/
theorem strncpy_shown {name : Bytes} (dst : ByteMem) (h0 : 0 ∉ name)
    (hn : ∀ i < name.length, src i = name.getD i 0) :
    CStr (· < FS_NAMESZ) (strncpy src (min name.length FS_NAMESZ) 0 dst) 0 name ↔
      name.length < FS_NAMESZ := by
  constructor
  · intro h
    have hlt : 0 + name.length < FS_NAMESZ := h.inside _ (Nat.le_refl _)
    rwa [Nat.zero_add] at hlt
  · intro hlt
    rw [Nat.min_eq_left (Nat.le_of_lt hlt)]
    have hcopy : ∀ x, strncpy src name.length 0 dst x =
        if 0 ≤ x ∧ x < name.length then src x else if x = name.length then 0 else dst x := by
      intro x
      refine strncpy_at (fun l _ hl => ?_) (fun hl => ?_) (Nat.zero_le _) (by omega)
      · rw [hn l hl, List.getD_eq_getElem _ _ hl]
        exact fun hz => h0 (hz ▸ List.getElem_mem hl)
      · omega
    refine ⟨fun x hx hz => h0 (hz ▸ hx), fun i hi => by omega, fun i hi => ?_⟩
    rw [Nat.zero_add, hcopy]
    by_cases hi' : i < name.length
    · rw [if_pos ⟨Nat.zero_le i, hi'⟩, hn i hi']
    · rw [if_neg (by omega), if_pos (by omega), List.getD_eq_default _ _ (by omega)]

/-- The round at a record adds its entry. -/
theorem fillRecord_shown {rec : DirRecord} (hbuf : ∀ x < v.blocksize, s.dirbuf x = m x)
    (hpos : s.pos % v.blocksize = lpos) (hi : word m lpos = rec.inode)
    (hn : (List.range (m (lpos + 6)).toNat).map (nameFrom m lpos) = rec.name) (h0 : 0 ∉ rec.name)
    (hfit : lpos + EXT2_NAME + rec.name.length ≤ v.blocksize)
    (hlive : rec.inode ≠ 0 → v.Ext2Layout rec.inode) (dst : ByteMem) :
    ∃ e, (v.fillRecord dst s).entries = s.entries ++ [e] ∧ v.Shown e rec := by
  rw [EXT2_NAME] at hfit
  have hword : word s.dirbuf lpos = rec.inode := by
    rw [← hi]
    exact word_congr fun i hi => hbuf _ (by omega)
  have hlen : (m (lpos + 6)).toNat = rec.name.length := by
    rw [← hn, List.length_map, List.length_range]
  have hsz : dnamesz s.dirbuf lpos = min rec.name.length FS_NAMESZ := by
    rw [dnamesz, hbuf _ (by omega), hlen]
  have hname : ∀ i < rec.name.length, nameFrom s.dirbuf lpos i = rec.name.getD i 0 := by
    intro i hi
    have hget : rec.name.getD i 0 = nameFrom m lpos i := by
      rw [← hlen] at hi
      rw [← hn, List.getD_eq_getElem _ _ (by rwa [List.length_map, List.length_range]),
        List.getElem_map, List.getElem_range]
    rw [hget]
    exact hbuf _ (by rw [EXT2_NAME]; omega)
  refine ⟨_, rfl, ?_, ?_, ?_⟩
  · show word s.dirbuf (s.pos % v.blocksize) = rec.inode
    rw [hpos, hword]
  · simp only [hpos, hsz]
    exact strncpy_shown _ h0 hname
  · intro hne
    show ext2TranslateType (v.readInode (word s.dirbuf (s.pos % v.blocksize)) s.cache).1.type = _
    rw [hpos, hword, (readInode_found (hlive hne) _).type]

/-- **The records of a block** get their entries, one round each. -/
theorem fillLoop_records {rs : List DirRecord} (mem : Nat → ByteMem) (hs : 0 < v.blocksize) (hb : v.blockOf dir i ≠ 0)
    (hlen : (i + 1) * v.blocksize ≤ dir.losize) (hmax : dir.losize < 2 ^ 32)
    (hrs : v.Records (v.dirBlock dir i) lpos rs)
    (hlive : ∀ rec ∈ rs, rec.inode ≠ 0 → v.Ext2Layout rec.inode) :
    ∀ s, v.Follows dir (i * v.blocksize + lpos) (if lpos = 0 then i else i + 1) s →
      ∃ k s', (∀ n, v.fillLoop dir mem (n + k) s = v.fillLoop dir mem n s') ∧
        v.Follows dir ((i + 1) * v.blocksize) (i + 1) s' ∧
        ∃ es, s'.entries = s.entries ++ es ∧ List.Forall₂ v.Shown es rs := by
  rw [Nat.succ_mul] at hlen ⊢
  induction hrs with
  | nil =>
      intro s h
      rw [if_neg (by omega)] at h
      exact ⟨0, s, fun _ => rfl, h, [], (List.append_nil _).symm, .nil⟩
  | cons lpos rec rs hi hsz hn h0 hfit hrest ih =>
      intro s h
      have hle := le_of_records hrest
      rw [EXT2_NAME] at hfit
      have hmod : (i * v.blocksize + lpos) % v.blocksize = lpos := by
        rw [Nat.mul_comm, Nat.mul_add_mod, Nat.mod_eq_of_lt (by omega)]
      have htaken : v.taken (i * v.blocksize + lpos) (if lpos = 0 then i else i + 1) = i + 1 := by
        rw [taken, hmod]
        split <;> rfl
      have hblock : (i * v.blocksize + lpos) % v.blocksize = 0 →
          v.blockOf dir (if lpos = 0 then i else i + 1) ≠ 0 := by
        rw [hmod]
        intro hz
        rwa [if_pos hz]
      obtain ⟨buf, hbuf, hloop, hnext⟩ := fillLoop_record mem h (by omega) hblock
      rw [htaken, Nat.add_sub_cancel] at hbuf
      rw [htaken] at hloop hnext
      rw [hmod] at hnext
      have hhalf : halfAt buf (lpos + 4) = rec.size := by
        rw [← hsz]
        exact halfAt_congr fun i hi => hbuf _ (by omega)
      rw [hhalf, u32_of_lt (by omega), Nat.add_assoc] at hnext
      obtain ⟨e, he, hshown⟩ := fillRecord_shown (s := { s with bidx := i + 1, dirbuf := buf }) hbuf
        (by rw [h.place]; exact hmod) hi hn h0 (by rw [EXT2_NAME]; omega)
        (hlive rec List.mem_cons_self) (mem s.entries.length)
      rw [if_neg (by omega)] at ih
      obtain ⟨k, s', hk, hs', es, hes, hall⟩ :=
        ih (fun r hr => hlive r (List.mem_cons_of_mem _ hr)) _ hnext
      refine ⟨k + 1, s', fun n => ?_, hs', e :: es, ?_, .cons hshown hall⟩
      · rw [← Nat.add_assoc, hloop, hk]
      · rw [hes, he, List.append_assoc]
        rfl

/-- More fuel gives the same. -/
theorem fillLoop_add {mem : Nat → ByteMem} (h : v.fillLoop dir mem n s = some r) (k : Nat) :
    v.fillLoop dir mem (n + k) s = some r := by
  induction n generalizing s with
  | zero => contradiction
  | succ n ih =>
      rw [Nat.succ_add]
      rw [fillLoop] at h ⊢
      split
      · next hpos => rwa [if_pos hpos] at h
      · next hpos =>
          rw [if_neg hpos] at h
          split
          · next hb => rwa [hb] at h
          · next t ht =>
              rw [ht] at h
              exact ih h

theorem fillLoop_unique {mem : Nat → ByteMem} {r' : Ext2Filling} {n' : Nat} (h : v.fillLoop dir mem n s = some r)
    (h' : v.fillLoop dir mem n' s = some r') : r = r' := by
  have heq := fillLoop_add h n'
  rw [Nat.add_comm, fillLoop_add h' n] at heq
  exact (Option.some.inj heq).symm

/-- **A well-formed directory** gets an entry for each of its records. -/
theorem fillLoop_formed {blocks : List (List DirRecord)} (mem : Nat → ByteMem) (hv : v.Sound)
    (hmax : dir.losize < 2 ^ 32) (hd : v.DirFormed dir blocks) (h : v.Follows dir 0 0 s) (hs : s.entries = []) :
    ∃ n r, v.fillLoop dir mem n s = some r ∧ List.Forall₂ v.Shown r.entries blocks.flatten := by
  have hbs : 0 < v.blocksize := by have := hv.le_blocksize; omega
  have hblocks : ∀ j ≤ blocks.length, ∃ k s', (∀ n, v.fillLoop dir mem (n + k) s = v.fillLoop dir mem n s') ∧
      v.Follows dir (j * v.blocksize) j s' ∧ List.Forall₂ v.Shown s'.entries (blocks.take j).flatten := by
    intro j
    induction j with
    | zero => exact fun _ => ⟨0, s, fun _ => rfl, by rwa [Nat.zero_mul], by rw [hs]; exact .nil⟩
    | succ j ih =>
        intro hj
        obtain ⟨k, s', hk, hs', hall⟩ := ih (by omega)
        have hlen : (j + 1) * v.blocksize ≤ dir.losize := by
          rw [hd.size]
          exact Nat.mul_le_mul_right _ hj
        have hlive : ∀ rec ∈ blocks[j], rec.inode ≠ 0 → v.Ext2Layout rec.inode := fun rec hrec hne =>
          (hd.inode rec (List.mem_flatten.mpr ⟨_, List.getElem_mem hj, hrec⟩) hne).2
        obtain ⟨k', t, hk', ht, es, hes, hall'⟩ :=
          fillLoop_records mem hbs (hd.block j hj) hlen hmax (hd.records j hj) hlive s' hs'
        refine ⟨k' + k, t, fun n => ?_, ht, ?_⟩
        · rw [← Nat.add_assoc, hk, hk']
        · rw [hes, List.take_succ_eq_append_getElem hj, List.flatten_append, List.flatten_singleton]
          exact List.rel_append hall hall'
  obtain ⟨k, s', hk, hs', hall⟩ := hblocks _ (Nat.le_refl _)
  rw [List.take_length] at hall
  refine ⟨1 + k, s', ?_, hall⟩
  rw [hk, fillLoop, if_pos (by rw [hs'.place, hd.size])]

/-! ## types -/

/-- A flag of the type bits is one of what is above the permissions. -/
theorem hasFlag_type (t f : Nat) : hasFlag t (f * 0x1000) = hasFlag (t / 0x1000 * 0x1000) (f * 0x1000) := by
  have hand : t &&& f * 2 ^ 12 = t / 2 ^ 12 * 2 ^ 12 &&& f * 2 ^ 12 := by
    refine Nat.eq_of_testBit_eq fun i => ?_
    simp only [Nat.testBit_and, Nat.testBit_mul_two_pow, Nat.testBit_div_two_pow]
    by_cases hi : 12 ≤ i
    · rw [Nat.sub_add_cancel hi]
      simp [hi]
    · simp [hi]
  rw [hasFlag, hasFlag]
  exact congrArg (· != 0) hand

theorem translateType_type (t : Nat) :
    ext2TranslateType t = ext2TranslateType (t / 0x1000 * 0x1000) := by
  have hflag : ∀ f ∈ [EXT2_FIFO, EXT2_DIR, EXT2_REG, EXT2_SLINK, EXT2_SOCK],
      hasFlag t f = hasFlag (t / 0x1000 * 0x1000) f := by
    intro f hf
    have hdiv : f / 0x1000 * 0x1000 = f :=
      (by decide : ∀ f ∈ [EXT2_FIFO, EXT2_DIR, EXT2_REG, EXT2_SLINK, EXT2_SOCK],
        f / 0x1000 * 0x1000 = f) f hf
    rw [← hdiv]
    exact hasFlag_type t _
  rw [ext2TranslateType, ext2TranslateType]
  rw [hflag EXT2_FIFO (by decide), hflag EXT2_DIR (by decide), hflag EXT2_REG (by decide),
    hflag EXT2_SLINK (by decide), hflag EXT2_SOCK (by decide)]

/-- **`ext2_translate_type`** gives one type alone for a pipe, and a symbolic
link for a character device. -/
theorem translateType_eq_iff {t u kind : Nat} (ht : t < 0x10000) (hk : nodeKind u = some kind) :
    ext2TranslateType t = kind ↔
      (kind = FS_PIPE ∧ t / 0x1000 = 1) ∨ (kind = FS_SYMLINK ∧ t / 0x1000 = 2) := by
  have hkind : kind ∈ [FS_PIPE, FS_DIRECTORY, FS_FILE, FS_SYMLINK, FS_SOCKET] := by
    rw [nodeKind] at hk
    split at hk
    all_goals first | contradiction | (obtain rfl := Option.some.inj hk; decide)
  have hall : ∀ q < 16, ∀ kind ∈ [FS_PIPE, FS_DIRECTORY, FS_FILE, FS_SYMLINK, FS_SOCKET],
      ext2TranslateType (q * 0x1000) = kind ↔
        (kind = FS_PIPE ∧ q = 1) ∨ (kind = FS_SYMLINK ∧ q = 2) := by decide
  rw [translateType_type]
  exact hall _ (by omega) kind hkind

/-! ## the listing -/

/-- An entry of a record in use is right exactly if the name fits and the type
survives. -/
theorem entryOf_iff {e : Ext2Entry} {rec : DirRecord} (h : v.Shown e rec) (hne : rec.inode ≠ 0) :
    v.EntryOf e rec ↔ rec.name.length < FS_NAMESZ ∧ v.KindKept rec.inode := by
  have ht : (inodeAt v.part (v.foundPlace rec.inode)).type < 0x10000 := halfAt_lt
  constructor
  · intro he
    refine ⟨h.name.mp he.name, fun kind hk => ?_⟩
    rw [← translateType_eq_iff ht hk, ← h.flags hne]
    exact he.flags kind hk
  · rintro ⟨hname, hkept⟩
    refine ⟨h.inode, h.name.mpr hname, fun kind hk => ?_⟩
    rw [h.flags hne, translateType_eq_iff ht hk]
    exact hkept kind hk

/-- The entries are right for the records in use exactly if all records are in
use and each entry is. -/
theorem entries_iff {es : List Ext2Entry} {rs : List DirRecord} (h : List.Forall₂ v.Shown es rs) :
    List.Forall₂ v.EntryOf es (rs.filter (·.inode ≠ 0)) ↔
      ∀ rec ∈ rs, rec.inode ≠ 0 ∧ rec.name.length < FS_NAMESZ ∧ v.KindKept rec.inode := by
  constructor
  · intro hall
    have hlen := hall.length_eq.symm.trans h.length_eq
    have hlive := List.length_filter_eq_length_iff.mp hlen
    rw [List.filter_eq_self.mpr hlive] at hall
    simp only [decide_eq_true_eq] at hlive
    clear hlen
    induction h with
    | nil => exact fun rec hrec => absurd hrec List.not_mem_nil
    | cons hs hrest ih =>
        obtain ⟨he, hall⟩ := List.forall₂_cons.mp hall
        intro rec hrec
        obtain rfl | hrec := List.mem_cons.mp hrec
        · have hne := hlive _ List.mem_cons_self
          exact ⟨hne, (entryOf_iff hs hne).mp he⟩
        · exact ih hall (fun r hr => hlive r (List.mem_cons_of_mem _ hr)) rec hrec
  · intro hall
    rw [List.filter_eq_self.mpr fun r hr => by simpa using (hall r hr).1]
    induction h with
    | nil => exact .nil
    | cons hs hrest ih =>
        obtain ⟨hne, hok⟩ := hall _ List.mem_cons_self
        exact .cons ((entryOf_iff hs hne).mpr hok) (ih fun r hr => hall r (List.mem_cons_of_mem _ hr))

/-- A volume with the inodes 2, a directory, and 3, a regular file that is its
only record, with the name `a`. -/
def fileVolume : Ext2Info where
  dev sector o :=
    setWord 5248 0x4000 (setWord 5252 1024 (setWord 5288 7 (setWord 7168 3 (setWord 7172 0x10400
      (setWord 7176 0x61 (setWord 5376 0x8000 fun _ => 0)))))) (sector * 512 + o)
  startLba := 0
  sbBlocksize := 0
  inodesize := 128
  nbginodes := 8
  nbgs := 1
  bgdt _ := 5

theorem fileVolume_sound : fileVolume.Sound := ⟨by decide, by decide, by decide, by decide⟩

theorem fileVolume_formed :
    fileVolume.DirFormed (fileVolume.readInode 2 fun _ => 0).1 [[⟨3, 1024, [0x61]⟩]] where
  size := by decide +kernel
  block := by decide +kernel
  records := by
    intro i hi
    obtain rfl : i = 0 := by simpa using hi
    exact .cons 0 _ [] (by decide +kernel) (by decide +kernel) (by decide +kernel) (by decide)
      (by decide) .nil
  inode := by
    intro rec hrec _
    obtain rfl : rec = ⟨3, 1024, [0x61]⟩ := by simpa using hrec
    exact ⟨by decide, fileVolume_sound, by decide, by decide⟩

end Ext2Info

end Eclair
