import Eclair.Lib.Marking
import Eclair.Boot.Init

/-!
# Eclair.Boot.MemMap

Which frames `boot_init` marks as used, and which of those that the memory
map asks for it misses.

A page table that `page_map` allocates takes a frame too.  Where all page
tables are there already, `boot_init` marks exactly the frames of
`BootInput.Marked`.
-/

namespace Eclair

/-! ## frames -/

/-- Marked frames; the state is calm if `page_map` finds every page table. -/
def frameMarking : Marking BootState Nat where
  marked s f := s.paging.bitmap f = true
  calm s := ∀ pt, (s.paging.dir pt).isNone = false

open Marking (Marks)

section

variable {op op' : BootState → BootState} {F : Nat → Prop}

/-- What else is recorded does not matter. -/
theorem marks_of_paging (h : frameMarking.Marks op F) (hp : ∀ s, (op' s).paging = (op s).paging) :
    frameMarking.Marks op' F where
  grows s f hf := by simpa [frameMarking, hp] using h.grows s f hf
  calm s hs := by simpa [frameMarking, hp] using h.calm s hs
  only s f hs hf := h.only s f hs (by simpa [frameMarking, hp] using hf)

theorem marks_nothing (hp : ∀ s, (op s).paging = s.paging) :
    frameMarking.Marks op fun _ => False :=
  marks_of_paging .none hp

end

theorem marks_useFrame (f : Nat) : frameMarking.Marks (useFrame f) (· = f) where
  grows s g hg := by
    by_cases h : g = f
    · simp [frameMarking, useFrame, pageFrameUse, h]
    · simpa [frameMarking, useFrame, pageFrameUse, h] using hg
  calm s hs := hs
  only s g _ hg := by
    by_cases h : g = f
    · exact .inr h
    · exact .inl (by simpa [frameMarking, useFrame, pageFrameUse, h] using hg)

theorem bitmap_pageFrameAlloc {who : FrameOwner} {p : Paging} {f : Nat} (h : p.bitmap f = true) :
    (pageFrameAlloc who p).2.bitmap f = true := by
  unfold pageFrameAlloc
  split
  · simp only [pageFrameUse, Function.update_apply]
    split <;> simp [h]
  · exact h

theorem marks_mapNext (f : Nat) : frameMarking.Marks (mapNext f) fun _ => False where
  grows s g hg := by
    replace hg : s.paging.bitmap g = true := hg.resolve_right id
    simp only [frameMarking, mapNext, pageMap]
    split
    · exact bitmap_pageFrameAlloc hg
    · exact hg
  calm s hs pt := by
    simp only [mapNext, pageMap, hs (s.breakp / 1024)]
    exact hs pt
  only s g hs hg := by
    simp only [frameMarking, mapNext, pageMap, hs (s.breakp / 1024)] at hg
    exact .inl hg

theorem marks_takeFrame (f : Nat) : frameMarking.Marks (takeFrame f) (· = f) :=
  ((marks_useFrame f).comp (marks_mapNext f)).congr (by simp)

theorem marks_useFrames (start stop : Nat) :
    frameMarking.Marks (useFrames start stop) fun f => start ≤ f ∧ f < stop :=
  (Marks.foldl marks_useFrame _).congr fun f => by
    simp only [List.mem_range'_1, exists_eq_right']
    omega

theorem marks_takeFrames (start n : Nat) :
    frameMarking.Marks (takeFrames start n) fun f => start ≤ f ∧ f < start + n :=
  (Marks.foldl marks_takeFrame _).congr fun f => by simp [List.mem_range'_1]

/-- The frames of a framebuffer. -/
def Framebuf.Covers (fb : Framebuf) (f : Nat) : Prop :=
  fb.addr / 4096 ≤ f ∧ f < fb.addr / 4096 + fbFrames fb

theorem marks_fbMap (fb : Framebuf) : frameMarking.Marks (fbMap fb) fb.Covers := by
  have hsaved : frameMarking.Marks (fun s => { s with saved.framebuf := some fb }) fun _ => False :=
    marks_nothing fun _ => rfl
  exact (hsaved.comp (marks_takeFrames _ _)).congr fun f => by simp [Framebuf.Covers]

/-! ## multiboot -/

namespace Multiboot

section

variable {phys : ByteMem}

theorem marks_useEntry (entry : Nat) :
    frameMarking.Marks (useEntry phys entry) fun f =>
      entryType phys entry ≠ MULTIBOOT_MEMMAP_AVAIL ∧
        entryStart phys entry ≤ f ∧ f < entryEnd phys entry :=
  (marks_useFrames _ _).ite _

/-- The `i`-th entry of a tag. -/
def entryAt (phys : ByteMem) (tag i : Nat) : Nat := entries tag + entsize phys tag * i

/-- Entries do not lie behind the tag. -/
theorem entsize_mul {tag i : Nat} (hi : i < nentries phys tag) :
    u32 (entsize phys tag * i) = entsize phys tag * i := by
  have hsize := sub32_lt (tagSize phys tag) 16
  rw [nentries] at hi
  generalize sub32 (tagSize phys tag) 16 = size at hi hsize
  have hle : entsize phys tag * i ≤ entsize phys tag * (size / entsize phys tag) :=
    Nat.mul_le_mul_left _ (by omega)
  exact u32_of_lt (by have := Nat.mul_div_le size (entsize phys tag); omega)

theorem useEntries_aux {tag : Nat} (k i : Nat) (s : BootState)
    (hsize : ∀ j, j < i + k → u32 (entsize phys tag * j) = entsize phys tag * j) :
    useEntries phys tag k i (entryAt phys tag (i - 1)) s =
      (List.range' i k).foldl (fun s i => useEntry phys (entryAt phys tag (i - 1)) s) s := by
  induction k generalizing i s with
  | zero => rfl
  | succ k ih =>
      have hnext := ih (i + 1) (useEntry phys (entryAt phys tag (i - 1)) s)
        fun j hj => hsize j (by omega)
      rw [Nat.add_sub_cancel, entryAt] at hnext
      rw [useEntries, hsize i (by omega), List.range'_succ, List.foldl_cons, hnext]

/-- **The loop over the memory map** looks at the first entry twice, and
never at the last of several. -/
theorem useEntries_eq (tag : Nat) (s : BootState) :
    useEntries phys tag (nentries phys tag) 0 (entries tag) s =
      (List.range (nentries phys tag)).foldl
        (fun s i => useEntry phys (entryAt phys tag (i - 1)) s) s := by
  have hstart : entries tag = entryAt phys tag (0 - 1) := by simp [entryAt]
  rw [List.range_eq_range', hstart, useEntries_aux]
  intro j hj
  rw [Nat.zero_add] at hj
  exact entsize_mul hj

/-- A frame that the loop over the memory map marks. -/
def Looked (phys : ByteMem) (tag f : Nat) : Prop :=
  ∃ i < nentries phys tag, entryType phys (entryAt phys tag (i - 1)) ≠ MULTIBOOT_MEMMAP_AVAIL ∧
    entryStart phys (entryAt phys tag (i - 1)) ≤ f ∧ f < entryEnd phys (entryAt phys tag (i - 1))

theorem marks_useEntries (phys : ByteMem) (tag : Nat) :
    frameMarking.Marks (useEntries phys tag (nentries phys tag) 0 (entries tag))
      (Looked phys tag) := by
  have h := Marks.foldl (fun i => @marks_useEntry phys (entryAt phys tag (i - 1)))
    (List.range (nentries phys tag))
  rw [funext (useEntries_eq tag)]
  exact h.congr fun f => by simp only [Looked, List.mem_range]

/-- A frame that a tag marks. -/
def TagMarks (phys : ByteMem) (tag f : Nat) : Prop :=
  (tagType phys tag = MULTIBOOT_TAG_FRAMEBUFFER ∧ tagFbType phys tag = MULTIBOOT_FB_TYPE_RGB ∧
    (tagFramebuf phys tag).Covers f) ∨
  (tagType phys tag = MULTIBOOT_TAG_MEMMAP ∧ Looked phys tag f)

/-- A memory map that is no table. -/
def Faulty (phys : ByteMem) (tag : Nat) : Prop :=
  tagType phys tag = MULTIBOOT_TAG_MEMMAP ∧ entsize phys tag = 0

instance (tag : Nat) : Decidable (Faulty phys tag) := by unfold Faulty; infer_instance

theorem returns_readTag {tag : Nat} (h : ¬Faulty phys tag) :
    frameMarking.Returns (readTag phys tag) (TagMarks phys tag) := by
  have hskip : ∀ op : BootState → BootState, (∀ s, readTag phys tag s = some (op s)) →
      (∀ s, (op s).paging = s.paging) → tagType phys tag ≠ MULTIBOOT_TAG_FRAMEBUFFER →
      tagType phys tag ≠ MULTIBOOT_TAG_MEMMAP →
      frameMarking.Returns (readTag phys tag) (TagMarks phys tag) := fun op hop hp hfb hmap =>
    ((marks_nothing hp).congr fun f => by simp [TagMarks, hfb, hmap]).returns hop
  unfold TagMarks readTag Faulty at *
  generalize tagType phys tag = type at h hskip ⊢
  by_cases h1 : type = MULTIBOOT_TAG_CMDLINE
  · subst h1
    exact hskip _ (fun s => rfl) (fun _ => rfl) (by decide) (by decide)
  by_cases h2 : type = MULTIBOOT_TAG_DEV
  · subst h2
    exact hskip _ (fun s => rfl) (fun _ => rfl) (by decide) (by decide)
  by_cases h3 : type = MULTIBOOT_TAG_MEM
  · subst h3
    exact hskip _ (fun s => rfl) (fun _ => rfl) (by decide) (by decide)
  by_cases h4 : type = MULTIBOOT_TAG_FRAMEBUFFER
  · subst h4
    refine (((marks_fbMap (tagFramebuf phys tag)).ite
      (tagFbType phys tag = MULTIBOOT_FB_TYPE_RGB)).congr fun f => ?_).returns fun s => rfl
    have hmap : MULTIBOOT_TAG_FRAMEBUFFER ≠ MULTIBOOT_TAG_MEMMAP := by decide
    simp [hmap]
  by_cases h5 : type = MULTIBOOT_TAG_MEMMAP
  · subst h5
    have hfb : MULTIBOOT_TAG_MEMMAP ≠ MULTIBOOT_TAG_FRAMEBUFFER := by decide
    have hent : entsize phys tag ≠ 0 := fun hent => h ⟨rfl, hent⟩
    have hsaved : frameMarking.Marks
        (fun s => { s with saved.memmap := some (nentries phys tag, entsize phys tag) })
        fun _ => False := marks_nothing fun _ => rfl
    have hmarks := hsaved.comp (marks_useEntries phys tag)
    refine (hmarks.congr fun f => ?_).returns fun s => ?_
    · simp [hfb]
    · rw [if_neg h1, if_neg h2, if_neg h3, if_neg h4, if_pos rfl, if_neg hent]
  · refine hskip (fun s => s) (fun s => ?_) (fun _ => rfl) h4 h5
    rw [if_neg h1, if_neg h2, if_neg h3, if_neg h4, if_neg h5]

theorem readTag_of_faulty {tag : Nat} (h : Faulty phys tag) (s : BootState) :
    readTag phys tag s = none := by
  obtain ⟨htype, hent⟩ := h
  unfold readTag
  rw [htype, if_neg (by decide), if_neg (by decide), if_neg (by decide), if_neg (by decide),
    if_pos rfl, if_pos hent]

/-- The tags before the one that ends them; `none` if there is no such, or
if the code stops at one. -/
def tagOffsets (phys : ByteMem) (tags : Nat) : Nat → Nat → Option (List Nat)
  | fuel, tagsz =>
      if tagType phys (tags + tagsz) = 0 then some []
      else match fuel with
        | 0 => none
        | fuel + 1 =>
            if Faulty phys (tags + tagsz) then none
            else (tagOffsets phys tags fuel
              (u32 (tagsz + align (tagSize phys (tags + tagsz)) 8))).map ((tags + tagsz) :: ·)

theorem readTags_of_end {tags fuel tagsz : Nat} (h : tagType phys (tags + tagsz) = 0) :
    readTags phys tags fuel tagsz = some := by
  funext s
  unfold readTags
  rw [if_pos h]

theorem readTags_zero {tags tagsz : Nat} (h : tagType phys (tags + tagsz) ≠ 0) :
    readTags phys tags 0 tagsz = fun _ => none := by
  funext s
  unfold readTags
  rw [if_neg h]

theorem readTags_succ {tags fuel tagsz : Nat} (h : tagType phys (tags + tagsz) ≠ 0) :
    readTags phys tags (fuel + 1) tagsz = fun s => (readTag phys (tags + tagsz) s).bind
      (readTags phys tags fuel (u32 (tagsz + align (tagSize phys (tags + tagsz)) 8))) := by
  funext s
  conv => lhs; unfold readTags
  rw [if_neg h]

/-- **The loop over the tags** marks what they mark, or never ends. -/
theorem readTags_eq (phys : ByteMem) (tags fuel tagsz : Nat) :
    match tagOffsets phys tags fuel tagsz with
    | some offs => frameMarking.Returns (readTags phys tags fuel tagsz)
        fun f => ∃ tag ∈ offs, TagMarks phys tag f
    | none => ∀ s, readTags phys tags fuel tagsz s = none := by
  induction fuel generalizing tagsz with
  | zero =>
      unfold tagOffsets
      by_cases hend : tagType phys (tags + tagsz) = 0
      · rw [if_pos hend, readTags_of_end hend]
        exact (Marks.none.congr fun f => by simp).returns fun s => rfl
      · rw [if_neg hend, readTags_zero hend]
        exact fun s => rfl
  | succ fuel ih =>
      unfold tagOffsets
      by_cases hend : tagType phys (tags + tagsz) = 0
      · rw [if_pos hend, readTags_of_end hend]
        exact (Marks.none.congr fun f => by simp).returns fun s => rfl
      · rw [if_neg hend, readTags_succ hend]
        have hrest := ih (u32 (tagsz + align (tagSize phys (tags + tagsz)) 8))
        by_cases hfault : Faulty phys (tags + tagsz)
        · simp only [hfault, if_true, readTag_of_faulty hfault]
          exact fun s => rfl
        · obtain ⟨op, hop, hm⟩ := returns_readTag hfault
          simp only [hfault, if_false]
          split at hrest
          · next offs hoffs =>
              rw [hoffs]
              exact ((hm.returns hop).bind hrest).congr fun f => by simp
          · next hoffs =>
              rw [hoffs]
              exact fun s => by simp only [hop, Option.bind_some, hrest]

/-- The frames of the structure. -/
def StructFrame (phys : ByteMem) (info f : Nat) : Prop :=
  info / 4096 ≤ f ∧ f < info / 4096 + headFrames info + restFrames phys info

theorem marks_mapStructure (phys : ByteMem) (info : Nat) :
    frameMarking.Marks (mapStructure phys info) (StructFrame phys info) := by
  have h := (marks_takeFrames (info / 4096) (headFrames info)).comp
    (marks_takeFrames (info / 4096 + headFrames info) (restFrames phys info))
  refine h.congr fun f => ?_
  unfold StructFrame
  omega

end

end Multiboot

/-! ## s3boot -/

namespace S3boot

section

variable {phys : ByteMem}

/-- A frame that an entry marks. -/
def EntryMarks (phys : ByteMem) (entry f : Nat) : Prop :=
  entryType phys entry = BOOT_MEMMAP_ENTRY_UNUSABLE ∧
    startFrame phys entry ≤ f ∧ f < endFrame phys entry

theorem marks_useEntry (entry : Nat) :
    frameMarking.Marks (useEntry phys entry) (EntryMarks phys entry) := by
  have h := (marks_useFrames (startFrame phys entry) (endFrame phys entry)).ite
    (entryType phys entry = BOOT_MEMMAP_ENTRY_UNUSABLE)
  refine marks_of_paging h fun s => ?_
  unfold useEntry
  dsimp only
  split <;> rfl

/-- The entries before the one that ends them; `none` if there is no such. -/
def entryOffsets (phys : ByteMem) : Nat → Nat → Option (List Nat)
  | fuel, entry =>
      if entryType phys entry = BOOT_MEMMAP_ENTRY_NULL then some []
      else match fuel with
        | 0 => none
        | fuel + 1 => (entryOffsets phys fuel (entry + 12)).map (entry :: ·)

theorem useEntries_of_end {fuel entry : Nat}
    (h : entryType phys entry = BOOT_MEMMAP_ENTRY_NULL) : useEntries phys fuel entry = some := by
  funext s
  unfold useEntries
  rw [if_pos h]

theorem useEntries_zero {entry : Nat} (h : entryType phys entry ≠ BOOT_MEMMAP_ENTRY_NULL) :
    useEntries phys 0 entry = fun _ => none := by
  funext s
  unfold useEntries
  rw [if_neg h]

theorem useEntries_succ {fuel entry : Nat}
    (h : entryType phys entry ≠ BOOT_MEMMAP_ENTRY_NULL) :
    useEntries phys (fuel + 1) entry =
      fun s => useEntries phys fuel (entry + 12) (useEntry phys entry s) := by
  funext s
  conv => lhs; unfold useEntries
  rw [if_neg h]

/-- **The loop over the memory map** marks what its entries mark, or never
ends. -/
theorem useEntries_eq (phys : ByteMem) (fuel entry : Nat) :
    match entryOffsets phys fuel entry with
    | some offs => frameMarking.Returns (useEntries phys fuel entry)
        fun f => ∃ entry ∈ offs, EntryMarks phys entry f
    | none => ∀ s, useEntries phys fuel entry s = none := by
  induction fuel generalizing entry with
  | zero =>
      unfold entryOffsets
      by_cases hend : entryType phys entry = BOOT_MEMMAP_ENTRY_NULL
      · rw [if_pos hend, useEntries_of_end hend]
        exact (Marks.none.congr fun f => by simp).returns fun s => rfl
      · rw [if_neg hend, useEntries_zero hend]
        exact fun s => rfl
  | succ fuel ih =>
      unfold entryOffsets
      by_cases hend : entryType phys entry = BOOT_MEMMAP_ENTRY_NULL
      · rw [if_pos hend, useEntries_of_end hend]
        exact (Marks.none.congr fun f => by simp).returns fun s => rfl
      · rw [if_neg hend, useEntries_succ hend]
        have hrest := ih (entry + 12)
        dsimp only
        split at hrest
        · next offs hoffs =>
            rw [hoffs]
            obtain ⟨op, hop, hm⟩ := hrest
            exact (((marks_useEntry entry).comp hm).congr fun f => by simp).returns
              fun s => hop _
        · next hoffs =>
            rw [hoffs]
            exact fun s => hrest _

/-- The frames of the structure. -/
def StructFrame (phys : ByteMem) (info f : Nat) : Prop :=
  info / 4096 ≤ f ∧ f < info / 4096 + (infoSize phys info / 4096 + 1)

/-- The frames of the framebuffer. -/
def FbFrame (phys : ByteMem) (info f : Nat) : Prop :=
  infoOffset phys info BOOT_STRUCT_FRAMEBUF ≠ 0 ∧
    phys.word (info + infoOffset phys info BOOT_STRUCT_FRAMEBUF) = BOOT_FRAMEBUF_TYPE_RGB ∧
    (framebuf phys (info + infoOffset phys info BOOT_STRUCT_FRAMEBUF)).Covers f

/-- The frames of the initial ramdisk. -/
def InitrdFrame (phys : ByteMem) (info f : Nat) : Prop :=
  infoOffset phys info BOOT_STRUCT_INITRD ≠ 0 ∧
    initrdStart phys info ≤ f ∧ f < initrdStart phys info + initrdFrames phys info

theorem marks_readFramebuf (phys : ByteMem) (info : Nat) :
    frameMarking.Marks (readFramebuf phys info) (FbFrame phys info) := by
  have h := (marks_fbMap (framebuf phys (info + infoOffset phys info BOOT_STRUCT_FRAMEBUF))).ite
    (infoOffset phys info BOOT_STRUCT_FRAMEBUF ≠ 0 ∧
      phys.word (info + infoOffset phys info BOOT_STRUCT_FRAMEBUF) = BOOT_FRAMEBUF_TYPE_RGB)
  exact h.congr fun f => by simp only [FbFrame, and_assoc]

theorem marks_readInitrd (phys : ByteMem) (info : Nat) :
    frameMarking.Marks (readInitrd phys info) (InitrdFrame phys info) := by
  have h := (marks_takeFrames (initrdStart phys info) (initrdFrames phys info)).ite
    (infoOffset phys info BOOT_STRUCT_INITRD ≠ 0)
  refine marks_of_paging h fun s => ?_
  unfold readInitrd
  split <;> rfl

end

end S3boot

/-! ## the memory map -/

/-- A range of memory: from `base` on, before `stop`. -/
structure Region where
  base : Nat
  stop : Nat

/-- The frame and the range intersect. -/
def Region.Touches (r : Region) (f : Nat) : Prop :=
  r.base < r.stop ∧ f * 4096 < r.stop ∧ r.base < (f + 1) * 4096

/-- Aligning an address behind this one to a page gives zero. -/
def LAST_PAGE : Nat := 0xfffff000

/-- The end of an s3boot entry; the loader adds base and length in 32 bits. -/
def S3boot.entryStop (phys : ByteMem) (entry : Nat) : Nat :=
  if entryEnd phys entry = 0 ∧ entryStart phys entry ≠ 0 then 2 ^ 32 else entryEnd phys entry

namespace BootInput

/-- The tags of the multiboot structure. -/
def tags (boot : BootInput) : Option (List Nat) :=
  Multiboot.tagOffsets boot.phys (boot.multiboot + 8) FUEL 0

/-- Where the s3boot structure is read. -/
def info (boot : BootInput) : Nat := boot.s3boot / 4096 * 4096

/-- The s3boot structure has a memory map. -/
def HasMap (boot : BootInput) : Prop :=
  S3boot.checked boot.phys boot.info ∧
    S3boot.infoOffset boot.phys boot.info S3boot.BOOT_STRUCT_MEMMAP ≠ 0

/-- The entries of its memory map. -/
def entries (boot : BootInput) : Option (List Nat) :=
  S3boot.entryOffsets boot.phys FUEL
    (boot.info + S3boot.infoOffset boot.phys boot.info S3boot.BOOT_STRUCT_MEMMAP)

open Multiboot in
/-- The memory map has an entry for the region that is not marked usable,
and lies within 4 GiB.  The code misses it if it is the last of several
multiboot entries, if it is an s3boot entry of another type than
`BOOT_MEMMAP_ENTRY_UNUSABLE`, or if it ends in the last page. -/
inductive Reserves (boot : BootInput) : Region → Bool → Prop
  | multiboot {offs : List Nat} {tag i : Nat} (hboot : boot.multiboot ≠ 0)
      (hoffs : boot.tags = some offs) (htag : tag ∈ offs)
      (hmap : tagType boot.phys tag = MULTIBOOT_TAG_MEMMAP) (hi : i < nentries boot.phys tag)
      (htype : entryType boot.phys (entryAt boot.phys tag i) ≠ MULTIBOOT_MEMMAP_AVAIL)
      {stop : Nat} (hstop : entryAddr boot.phys (entryAt boot.phys tag i) +
        entryLength boot.phys (entryAt boot.phys tag i) = stop) (hle : stop ≤ 2 ^ 32) :
      boot.Reserves ⟨entryAddr boot.phys (entryAt boot.phys tag i), stop⟩
        (decide (0 < i ∧ i + 1 = nentries boot.phys tag) || decide (LAST_PAGE < stop))
  | s3boot {offs : List Nat} {entry : Nat} (hboot : boot.multiboot = 0) (hboot' : boot.s3boot ≠ 0)
      (hmap : boot.HasMap) (hoffs : boot.entries = some offs) (hentry : entry ∈ offs)
      (htype : S3boot.entryType boot.phys entry ≠ S3boot.BOOT_MEMMAP_ENTRY_USABLE) :
      boot.Reserves ⟨S3boot.entryStart boot.phys entry, S3boot.entryStop boot.phys entry⟩
        (decide (S3boot.entryType boot.phys entry ≠ S3boot.BOOT_MEMMAP_ENTRY_UNUSABLE) ||
          decide (LAST_PAGE < S3boot.entryStop boot.phys entry))

/-- What `boot_init` marks on its own account. -/
def Marked (boot : BootInput) (f : Nat) : Prop :=
  if boot.multiboot ≠ 0 then
    Multiboot.StructFrame boot.phys boot.multiboot f ∨
      ∃ offs, boot.tags = some offs ∧ ∃ tag ∈ offs, Multiboot.TagMarks boot.phys tag f
  else if boot.s3boot ≠ 0 then
    S3boot.StructFrame boot.phys boot.info f ∨
      (boot.HasMap ∧ ∃ offs, boot.entries = some offs ∧
        ∃ entry ∈ offs, S3boot.EntryMarks boot.phys entry f) ∨
      (S3boot.checked boot.phys boot.info ∧
        (S3boot.FbFrame boot.phys boot.info f ∨ S3boot.InitrdFrame boot.phys boot.info f))
  else False

end BootInput

variable {boot : BootInput} {r : Region} {f : Nat} {K : Nat → Bool}

/-- The frames of a range as the code calculates them. -/
theorem Region.Touches.bounds (h : r.Touches f) (hstop : r.stop ≤ LAST_PAGE) :
    r.base / 4096 ≤ f ∧ f < align r.stop 4096 / 4096 := by
  obtain ⟨h1, h2, h3⟩ := h
  rw [LAST_PAGE] at hstop
  rw [align_of_lt (by omega)]
  omega

theorem Multiboot.looked_of_touches {phys : ByteMem} {tag i stop : Nat}
    (hi : i < nentries phys tag) (hseen : ¬(0 < i ∧ i + 1 = nentries phys tag))
    (htype : entryType phys (entryAt phys tag i) ≠ MULTIBOOT_MEMMAP_AVAIL)
    (hsum : entryAddr phys (entryAt phys tag i) + entryLength phys (entryAt phys tag i) = stop)
    (hstop : stop ≤ LAST_PAGE)
    (hf : Region.Touches ⟨entryAddr phys (entryAt phys tag i), stop⟩ f) : Looked phys tag f := by
  -- the round that looks at the entry: the next one, or the first
  obtain ⟨j, hj, hji⟩ : ∃ j, j < nentries phys tag ∧ j - 1 = i := by
    by_cases h0 : i = 0
    · exact ⟨0, by omega, by omega⟩
    · exact ⟨i + 1, by omega, by omega⟩
  have hbounds := hf.bounds hstop
  have hlt : stop < 2 ^ 32 := Nat.lt_of_le_of_lt hstop (by decide)
  have hbase : entryAddr phys (entryAt phys tag i) < stop := hf.1
  refine ⟨j, hj, ?_⟩
  rw [hji, entryStart, entryEnd, hsum, u32_of_lt (Nat.lt_trans hbase hlt)]
  have h64 : u64 stop = stop := Nat.mod_eq_of_lt (by omega)
  rw [h64, u32_of_lt hlt]
  exact ⟨htype, hbounds⟩

theorem S3boot.entryMarks_of_touches {phys : ByteMem} {entry : Nat}
    (htype : entryType phys entry = BOOT_MEMMAP_ENTRY_UNUSABLE)
    (hstop : entryStop phys entry ≤ LAST_PAGE)
    (hf : Region.Touches ⟨entryStart phys entry, entryStop phys entry⟩ f) :
    EntryMarks phys entry f := by
  have hbounds := hf.bounds hstop
  have hend : entryStop phys entry = entryEnd phys entry := by
    unfold entryStop at hstop ⊢
    split
    · next h =>
        rw [if_pos h] at hstop
        exact absurd hstop (by decide)
    · rfl
  rw [hend] at hbounds
  exact ⟨htype, hbounds⟩

/-- **What is not missed** is marked. -/
theorem BootInput.Reserves.marked (h : boot.Reserves r false) (hf : r.Touches f) :
    boot.Marked f := by
  unfold BootInput.Marked
  generalize hm : false = missed at h
  cases h with
  | multiboot hboot hoffs htag hmap hi htype hsum hle =>
      obtain ⟨hseen, hstop⟩ := Bool.or_eq_false_iff.mp hm.symm
      rw [decide_eq_false_iff_not] at hseen hstop
      rw [if_pos hboot]
      exact .inr ⟨_, hoffs, _, htag, .inr ⟨hmap,
        Multiboot.looked_of_touches hi hseen htype hsum (Nat.le_of_not_lt hstop) hf⟩⟩
  | s3boot hboot hboot' hmap hoffs hentry htype =>
      obtain ⟨hun, hstop⟩ := Bool.or_eq_false_iff.mp hm.symm
      rw [decide_eq_false_iff_not] at hun hstop
      rw [if_neg (not_not_intro hboot), if_pos hboot']
      exact .inr (.inl ⟨hmap, _, hoffs, _, hentry,
        S3boot.entryMarks_of_touches (Decidable.not_not.mp hun) (Nat.le_of_not_lt hstop) hf⟩)

/-! ## the whole of `boot_init` -/

theorem Multiboot.bootInit_returns {offs : List Nat} (hboot : boot.multiboot ≠ 0)
    (hoffs : boot.tags = some offs) : frameMarking.Returns (bootInit boot) boot.Marked := by
  have htags := readTags_eq boot.phys (boot.multiboot + 8) FUEL 0
  rw [show tagOffsets boot.phys (boot.multiboot + 8) FUEL 0 = some offs from hoffs] at htags
  obtain ⟨op, hop, hm⟩ := htags
  refine (((marks_mapStructure boot.phys boot.multiboot).comp hm).congr fun f => ?_).returns fun s => ?_
  · simp [BootInput.Marked, hboot, hoffs]
  · rw [bootInit, if_pos hboot, init, hop]

theorem Multiboot.bootInit_none (hboot : boot.multiboot ≠ 0) (hoffs : boot.tags = none)
    (s : BootState) : bootInit boot s = none := by
  have htags := readTags_eq boot.phys (boot.multiboot + 8) FUEL 0
  rw [show tagOffsets boot.phys (boot.multiboot + 8) FUEL 0 = none from hoffs] at htags
  rw [bootInit, if_pos hboot, init, htags]

/-- The memory map of s3boot ends. -/
def BootInput.MapEnds (boot : BootInput) : Prop := boot.HasMap → boot.entries ≠ none

theorem S3boot.returns_readMemmap (hends : boot.MapEnds)
    (hchecked : checked boot.phys boot.info) :
    frameMarking.Returns (readMemmap boot.phys boot.info) fun f => boot.HasMap ∧
      ∃ offs, boot.entries = some offs ∧ ∃ entry ∈ offs, EntryMarks boot.phys entry f := by
  have hentries := useEntries_eq boot.phys FUEL
    (boot.info + infoOffset boot.phys boot.info BOOT_STRUCT_MEMMAP)
  by_cases hoff : infoOffset boot.phys boot.info BOOT_STRUCT_MEMMAP = 0
  · refine (Marks.none.congr fun f => ?_).returns fun s => ?_
    · simp [BootInput.HasMap, hoff]
    · rw [readMemmap, if_neg (not_not_intro hoff)]
  · have hmap : boot.HasMap := ⟨hchecked, hoff⟩
    obtain ⟨offs, hoffs⟩ := Option.ne_none_iff_exists'.mp (hends hmap)
    rw [show entryOffsets boot.phys FUEL
      (boot.info + infoOffset boot.phys boot.info BOOT_STRUCT_MEMMAP) = some offs from hoffs]
      at hentries
    obtain ⟨op, hop, hm⟩ := hentries
    refine (hm.congr fun f => ?_).returns fun s => ?_
    · simp [hmap, hoffs]
    · rw [readMemmap, if_pos hoff, hop]

theorem S3boot.marks_mapStructure (phys : ByteMem) (info : Nat) :
    frameMarking.Marks (mapStructure phys info) (StructFrame phys info) :=
  marks_takeFrames _ _

theorem S3boot.marks_readCmdline (phys : ByteMem) (info : Nat) :
    frameMarking.Marks (readCmdline phys info) fun _ => False :=
  marks_nothing fun s => by
    unfold readCmdline
    split <;> rfl

theorem S3boot.bootInit_eq (hboot : boot.multiboot = 0) (hboot' : boot.s3boot ≠ 0) :
    bootInit boot = init boot.phys boot.info := by
  funext s
  rw [bootInit, if_neg (not_not_intro hboot), if_pos hboot', BootInput.info]

theorem S3boot.bootInit_returns (hboot : boot.multiboot = 0) (hboot' : boot.s3boot ≠ 0)
    (hends : boot.MapEnds) : frameMarking.Returns (bootInit boot) boot.Marked := by
  rw [bootInit_eq hboot hboot']
  by_cases hchecked : checked boot.phys boot.info
  · obtain ⟨op, hop, hm⟩ := returns_readMemmap hends hchecked
    have hmarks := (marks_mapStructure boot.phys boot.info).comp
      ((marks_readCmdline boot.phys boot.info).comp (hm.comp
        ((marks_readFramebuf boot.phys boot.info).comp (marks_readInitrd boot.phys boot.info))))
    refine (hmarks.congr fun f => ?_).returns fun s => ?_
    · simp [BootInput.Marked, hboot, hboot', hchecked]
    · rw [init, if_pos hchecked, hop, Option.map_some]
  · refine ((marks_mapStructure boot.phys boot.info).congr fun f => ?_).returns fun s => ?_
    · simp [BootInput.Marked, BootInput.HasMap, hboot, hboot', hchecked]
    · rw [init, if_neg hchecked]

theorem S3boot.bootInit_none (hboot : boot.multiboot = 0) (hboot' : boot.s3boot ≠ 0)
    (hends : ¬boot.MapEnds) (s : BootState) : bootInit boot s = none := by
  obtain ⟨hmap, hoffs⟩ := Classical.not_imp.mp hends
  have hentries := useEntries_eq boot.phys FUEL
    (boot.info + infoOffset boot.phys boot.info BOOT_STRUCT_MEMMAP)
  rw [show entryOffsets boot.phys FUEL
    (boot.info + infoOffset boot.phys boot.info BOOT_STRUCT_MEMMAP) = none from
      Decidable.not_not.mp hoffs] at hentries
  rw [bootInit_eq hboot hboot', init, if_pos hmap.1, readMemmap, if_pos hmap.2, hentries,
    Option.map_none]

/-- **`boot_init`** marks `boot.Marked`, or never returns, and then no
memory map was found. -/
theorem bootInit_returns_or (boot : BootInput) :
    frameMarking.Returns (bootInit boot) boot.Marked ∨
      (∀ s, bootInit boot s = none) ∧ ∀ r missed, ¬boot.Reserves r missed := by
  by_cases hboot : boot.multiboot = 0
  · by_cases hboot' : boot.s3boot = 0
    · refine .inl ((Marks.none.congr fun f => ?_).returns fun s => ?_)
      · simp [BootInput.Marked, hboot, hboot']
      · rw [bootInit, if_neg (not_not_intro hboot), if_neg (not_not_intro hboot')]
    · by_cases hends : boot.MapEnds
      · exact .inl (S3boot.bootInit_returns hboot hboot' hends)
      · refine .inr ⟨S3boot.bootInit_none hboot hboot' hends, fun r missed h => ?_⟩
        cases h with
        | multiboot hm => exact hm hboot
        | s3boot _ _ hmap hoffs => exact hends fun _ => by simp [hoffs]
  · cases hoffs : boot.tags with
    | some offs => exact .inl (Multiboot.bootInit_returns hboot hoffs)
    | none =>
        refine .inr ⟨Multiboot.bootInit_none hboot hoffs, fun r missed h => ?_⟩
        cases h with
        | multiboot _ hsome => simp [hoffs] at hsome
        | s3boot hm => exact hboot hm

/-! ## the property -/

/-- After `boot_init`, with the frames `K` in use before, every frame that
intersects an entry not marked usable is in use, and `page_frame_alloc` does
not find it. -/
def MapKept (boot : BootInput) (K : Nat → Bool) : Prop :=
  ∀ s s', s.paging.bitmap = K → bootInit boot s = some s' →
    ∀ r missed, boot.Reserves r missed → ∀ f, r.Touches f →
      s'.paging.bitmap f = true ∧ firstFree s'.paging.bitmap (BITMAP_SIZE * 8) 0 ≠ some f

/-- All page tables are there. -/
def fullState (K : Nat → Bool) : BootState where
  paging := ⟨K, 0, fun _ => some 0, fun _ => none, fun _ => none⟩
  breakp := 0

/-- **Every reserved frame is kept**, exactly if the frames of the entries
that the code misses are in use or marked anyway. -/
theorem mapKept_iff (boot : BootInput) (K : Nat → Bool) :
    MapKept boot K ↔
      ∀ r, boot.Reserves r true → ∀ f, r.Touches f → K f = true ∨ boot.Marked f := by
  obtain ⟨op, hop, hm⟩ | ⟨hnone, hmap⟩ := bootInit_returns_or boot
  · constructor
    · intro h r hr f hf
      have hkept := h (fullState K) _ rfl (hop _) r true hr f hf
      exact hm.only (fullState K) f (fun _ => rfl) hkept.1
    · intro h s s' hK hs r missed hr f hf
      obtain rfl : op s = s' := Option.some.inj ((hop s).symm.trans hs)
      have hused : (op s).paging.bitmap f = true := by
        refine hm.grows s f ?_
        cases missed with
        | true => exact (h r hr f hf).imp_left fun hk => by rw [← hK] at hk; exact hk
        | false => exact .inr (hr.marked hf)
      refine ⟨hused, fun hfree => ?_⟩
      rw [firstFree_spec hfree] at hused
      contradiction
  · constructor
    · exact fun _ r hr => absurd hr (hmap r true)
    · exact fun _ s s' _ _ r missed hr => absurd hr (hmap r missed)

/-- A multiboot structure whose memory map reserves the page at `0x9f000`,
in the second of its two entries. -/
def twoEntries : BootInput where
  phys a :=
    let words := [80, 0, 6, 64, 24, 0, 0, 0, 0x9f000, 0, 1, 0, 0x9f000, 0, 0x1000, 0, 2, 0, 0, 8]
    if a < 0x10000 then 0
    else UInt8.ofNat (words.getD ((a - 0x10000) / 4) 0 / 256 ^ (a % 4))
  multiboot := 0x10000
  s3boot := 0

theorem twoEntries_reserves : twoEntries.Reserves ⟨0x9f000, 0xa0000⟩ true := by
  have htags : twoEntries.tags = some [0x10008] := by decide +kernel
  have haddr : Multiboot.entryAddr twoEntries.phys
      (Multiboot.entryAt twoEntries.phys 0x10008 1) = 0x9f000 := by decide +kernel
  have hlen : Multiboot.entryLength twoEntries.phys
      (Multiboot.entryAt twoEntries.phys 0x10008 1) = 0x1000 := by decide +kernel
  have hn : Multiboot.nentries twoEntries.phys 0x10008 = 2 := by decide +kernel
  have h := BootInput.Reserves.multiboot (by decide) htags (List.mem_singleton.mpr rfl)
    (by decide +kernel) (by rw [hn]; exact Nat.one_lt_two) (by decide +kernel)
    (by rw [haddr, hlen]) (by decide)
  rw [haddr, hn] at h
  exact h

/-- **The last entry** of a multiboot memory map is missed. -/
theorem not_mapKept : ¬∀ boot K, MapKept boot K := by
  intro h
  have hrun : (bootInit twoEntries (fullState fun _ => false)).any
      (fun s' => !s'.paging.bitmap 0x9f) = true := by decide +kernel
  obtain ⟨s', hs', hfree⟩ := Option.any_eq_true _ _ |>.mp hrun
  have hkept := h twoEntries _ (fullState fun _ => false) s' rfl hs' _ _ twoEntries_reserves 0x9f
    ⟨by decide, by decide, by decide⟩
  rw [hkept.1] at hfree
  contradiction

end Eclair
