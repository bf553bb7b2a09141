import Eclair.Lib.ByteMem
import Eclair.Mm.Paging

/-!
# Eclair.Boot.Init

`boot_init` of `kernel/boot.c` and `multiboot_init` of `kernel/multiboot.c`:
what the boot loader left in memory is read, and the page frames that it
covers are marked as used.

The structures are read from physical memory, which nothing writes to
meanwhile; `fb_map` is modelled up to the pages that it maps, without
clearing the screen.
-/

namespace Eclair

/-- What the boot loader leaves: memory, and where its structure is. -/
structure BootInput where
  phys : ByteMem
  /-- `multiboot_data_info` -/
  multiboot : Nat
  /-- `boot_data_info` -/
  s3boot : Nat

structure Framebuf where
  addr : Nat
  pitch : Nat
  width : Nat
  height : Nat
  bpp : Nat

/-- `boot_saved_info_t`; what has a flag of its own is `none` without it. -/
structure BootSaved where
  cmdline : Option Nat := none
  memlayout : Option (Nat × Nat) := none
  bootdev : Option (Nat × Nat × Nat) := none
  framebuf : Option Framebuf := none
  memmap : Option (Nat × Nat) := none
  initrdAddr : Nat := 0

structure BootState where
  paging : Paging
  /-- `page_breakp` -/
  breakp : Nat
  /-- `page_frame_max_count` -/
  maxCount : Nat := 0
  /-- `memmap_reserved_frames` -/
  reserved : Nat := 0
  saved : BootSaved := {}

/-! ## frames -/

/-- `page_frame_use`. -/
def useFrame (f : Nat) (s : BootState) : BootState := { s with paging := pageFrameUse f s.paging }

/-- `page_map(page_breakp++, f)`. -/
def mapNext (f : Nat) (s : BootState) : BootState :=
  { s with paging := pageMap s.breakp f s.paging, breakp := u32 (s.breakp + 1) }

/-- A frame is marked and mapped. -/
def takeFrame (f : Nat) (s : BootState) : BootState := mapNext f (useFrame f s)

/-- Mark the frames from `start` on, before `stop`. -/
def useFrames (start stop : Nat) (s : BootState) : BootState :=
  (List.range' start (stop - start)).foldl (fun s f => useFrame f s) s

/-- Mark and map `n` frames from `start` on. -/
def takeFrames (start n : Nat) (s : BootState) : BootState :=
  (List.range' start n).foldl (fun s f => takeFrame f s) s

/-- The frames of a framebuffer. -/
def fbFrames (fb : Framebuf) : Nat :=
  align (u32 (fb.addr % 4096 + u32 (fb.height * fb.pitch))) 4096 / 4096

/-- `fb_map`. -/
def fbMap (fb : Framebuf) (s : BootState) : BootState :=
  takeFrames (fb.addr / 4096) (fbFrames fb) { s with saved.framebuf := some fb }

/-! ## multiboot -/

namespace Multiboot

def MULTIBOOT_TAG_CMDLINE : Nat := 1
def MULTIBOOT_TAG_MEM : Nat := 4
def MULTIBOOT_TAG_DEV : Nat := 5
def MULTIBOOT_TAG_MEMMAP : Nat := 6
def MULTIBOOT_TAG_FRAMEBUFFER : Nat := 8
def MULTIBOOT_FB_TYPE_RGB : Nat := 1
def MULTIBOOT_MEMMAP_AVAIL : Nat := 1

section

variable (phys : ByteMem)

def dword (a : Nat) : Nat := phys.word a + 2 ^ 32 * phys.word (a + 4)

/-! A tag: its type and size, then its own fields. -/

def tagType (tag : Nat) : Nat := phys.word tag
def tagSize (tag : Nat) : Nat := phys.word (tag + 4)

/-! `multiboot_memmap_tag_t`. -/

def entsize (tag : Nat) : Nat := phys.word (tag + 8)
def entries (tag : Nat) : Nat := tag + 16
def nentries (tag : Nat) : Nat := sub32 (tagSize phys tag) 16 / entsize phys tag

/-! `multiboot_memmap_entry_t`. -/

def entryAddr (entry : Nat) : Nat := dword phys entry
def entryLength (entry : Nat) : Nat := dword phys (entry + 8)
def entryType (entry : Nat) : Nat := phys.word (entry + 16)

/-- The first frame of an entry. -/
def entryStart (entry : Nat) : Nat := u32 (entryAddr phys entry) / 4096

/-- The frame behind an entry, as the code calculates it. -/
def entryEnd (entry : Nat) : Nat :=
  align (u32 (u64 (entryAddr phys entry + entryLength phys entry))) 4096 / 4096

/-- Mark the frames of an entry that is not available. -/
def useEntry (entry : Nat) (s : BootState) : BootState :=
  if entryType phys entry ≠ MULTIBOOT_MEMMAP_AVAIL then
    useFrames (entryStart phys entry) (entryEnd phys entry) s
  else s

/-- The loop over the memory map of a tag, with `n` rounds left.  The entry
of the next round is set at the end of a round, from the round's own `i`. -/
def useEntries (tag : Nat) : Nat → Nat → Nat → BootState → BootState
  | 0, _, _, s => s
  | n + 1, i, entry, s =>
      useEntries tag n (i + 1) (entries tag + u32 (entsize phys tag * i)) (useEntry phys entry s)

/-- `multiboot_framebuffer_tag_t`. -/
def tagFramebuf (tag : Nat) : Framebuf where
  addr := phys.word (tag + 8)
  pitch := phys.word (tag + 16)
  width := phys.word (tag + 20)
  height := phys.word (tag + 24)
  bpp := (phys (tag + 28)).toNat

def tagFbType (tag : Nat) : Nat := (phys (tag + 29)).toNat

/-- One tag; an entry size of zero is a division fault. -/
def readTag (tag : Nat) (s : BootState) : Option BootState :=
  if tagType phys tag = MULTIBOOT_TAG_CMDLINE then some { s with saved.cmdline := some (tag + 8) }
  else if tagType phys tag = MULTIBOOT_TAG_DEV then
    some { s with
      saved.bootdev := some (phys.word (tag + 8), phys.word (tag + 12), phys.word (tag + 16)) }
  else if tagType phys tag = MULTIBOOT_TAG_MEM then
    some { s with saved.memlayout := some (phys.word (tag + 8), phys.word (tag + 12)) }
  else if tagType phys tag = MULTIBOOT_TAG_FRAMEBUFFER then
    some (if tagFbType phys tag = MULTIBOOT_FB_TYPE_RGB then fbMap (tagFramebuf phys tag) s else s)
  else if tagType phys tag = MULTIBOOT_TAG_MEMMAP then
    if entsize phys tag = 0 then none
    else some (useEntries phys tag (nentries phys tag) 0 (entries tag)
      { s with saved.memmap := some (nentries phys tag, entsize phys tag) })
  else some s

/-- The loop over the tags; `tags` is where they begin. -/
def readTags (tags : Nat) : Nat → Nat → BootState → Option BootState
  | fuel, tagsz, s =>
      if tagType phys (tags + tagsz) = 0 then some s
      else match fuel with
        | 0 => none
        | fuel + 1 =>
            (readTag phys (tags + tagsz) s).bind
              (readTags tags fuel (u32 (tagsz + align (tagSize phys (tags + tagsz)) 8)))

/-- How many frames `multiboot_map_structure` always takes. -/
def headFrames (info : Nat) : Nat := if info % 4096 + 8 > 4096 then 2 else 1

/-- How many frames it takes after them. -/
def restFrames (info : Nat) : Nat :=
  sub32 (u32 (info % 4096 + phys.word info) / 4096 + 1) (headFrames info)

/-- `multiboot_map_structure`. -/
def mapStructure (info : Nat) (s : BootState) : BootState :=
  takeFrames (info / 4096 + headFrames info) (restFrames phys info)
    (takeFrames (info / 4096) (headFrames info) s)

/-- `multiboot_init`, where there is a structure. -/
def init (info : Nat) (s : BootState) : Option BootState :=
  readTags phys (info + 8) FUEL 0 (mapStructure phys info s)

end

end Multiboot

/-! ## s3boot -/

namespace S3boot

def BOOT_STRUCT_CMDLINE : Nat := 0
def BOOT_STRUCT_MEMMAP : Nat := 1
def BOOT_STRUCT_FRAMEBUF : Nat := 2
def BOOT_STRUCT_INITRD : Nat := 3
def BOOT_FRAMEBUF_TYPE_RGB : Nat := 1
def BOOT_MEMMAP_ENTRY_NULL : Nat := 0
def BOOT_MEMMAP_ENTRY_USABLE : Nat := 1
def BOOT_MEMMAP_ENTRY_UNUSABLE : Nat := 2

section

variable (phys : ByteMem)

/-! `boot_info_t`. -/

def infoSize (info : Nat) : Nat := phys.word (info + 4)
def infoOffset (info i : Nat) : Nat := phys.word (info + 8 + 4 * i)

/-- The checksum that is stored is the one calculated. -/
def checked (info : Nat) : Prop :=
  (List.range' 4 (infoSize phys info - 4)).foldl (fun c i => u32 (c + (phys (info + i)).toNat)) 0 =
    phys.word info

instance (info : Nat) : Decidable (checked phys info) := by unfold checked; infer_instance

/-! `boot_memmap_entry_t`. -/

def entryType (entry : Nat) : Nat := phys.word entry
def entryStart (entry : Nat) : Nat := phys.word (entry + 4)
def entryEnd (entry : Nat) : Nat := phys.word (entry + 8)

/-- `startf`. -/
def startFrame (entry : Nat) : Nat := entryStart phys entry / 4096

/-- `endf`. -/
def endFrame (entry : Nat) : Nat := align (entryEnd phys entry) 4096 / 4096

/-- The frames of an entry that is not usable are marked and counted. -/
def useEntry (entry : Nat) (s : BootState) : BootState :=
  let s := if entryType phys entry = BOOT_MEMMAP_ENTRY_UNUSABLE then
      { useFrames (startFrame phys entry) (endFrame phys entry) s with
        reserved := u32 (s.reserved + (endFrame phys entry - startFrame phys entry)) }
    else s
  { s with maxCount := u32 (s.maxCount + sub32 (endFrame phys entry) (startFrame phys entry)) }

/-- The loop over the memory map. -/
def useEntries : Nat → Nat → BootState → Option BootState
  | fuel, entry, s =>
      if entryType phys entry = BOOT_MEMMAP_ENTRY_NULL then some s
      else match fuel with
        | 0 => none
        | fuel + 1 => useEntries fuel (entry + 12) (useEntry phys entry s)

/-- `boot_framebuf_t`. -/
def framebuf (fb : Nat) : Framebuf where
  addr := phys.word (fb + 4)
  pitch := phys.word (fb + 8)
  width := phys.word (fb + 12)
  height := phys.word (fb + 16)
  bpp := phys.word (fb + 20)

/-- The framebuffer of `boot_init`. -/
def readFramebuf (info : Nat) (s : BootState) : BootState :=
  let fb := info + infoOffset phys info BOOT_STRUCT_FRAMEBUF
  if infoOffset phys info BOOT_STRUCT_FRAMEBUF ≠ 0 ∧ phys.word fb = BOOT_FRAMEBUF_TYPE_RGB then
    fbMap (framebuf phys fb) s
  else s

/-- `boot_initrd_t`. -/
def initrdStart (info : Nat) : Nat :=
  phys.word (info + infoOffset phys info BOOT_STRUCT_INITRD) / 4096

def initrdFrames (info : Nat) : Nat :=
  phys.word (info + infoOffset phys info BOOT_STRUCT_INITRD + 4) / 4096 + 1

/-- The initial ramdisk of `boot_init`. -/
def readInitrd (info : Nat) (s : BootState) : BootState :=
  if infoOffset phys info BOOT_STRUCT_INITRD ≠ 0 then
    let page := s.breakp
    let addr := phys.word (info + infoOffset phys info BOOT_STRUCT_INITRD)
    let s := takeFrames (initrdStart phys info) (initrdFrames phys info) s
    { s with saved.initrdAddr := u32 (u32 (page * 4096) + addr % 4096) }
  else s

/-- The command line of `boot_init`. -/
def readCmdline (info : Nat) (s : BootState) : BootState :=
  if infoOffset phys info BOOT_STRUCT_CMDLINE ≠ 0 then
    { s with saved.cmdline := some (info + infoOffset phys info BOOT_STRUCT_CMDLINE) }
  else s

/-- The memory map of `boot_init`. -/
def readMemmap (info : Nat) (s : BootState) : Option BootState :=
  if infoOffset phys info BOOT_STRUCT_MEMMAP ≠ 0 then
    useEntries phys FUEL (info + infoOffset phys info BOOT_STRUCT_MEMMAP) s
  else some s

/-- `map_structure`: the structure begins at the start of a page. -/
def mapStructure (info : Nat) (s : BootState) : BootState :=
  takeFrames (info / 4096) (infoSize phys info / 4096 + 1) s

/-- `boot_init` without multiboot, where there is a structure. -/
def init (info : Nat) (s : BootState) : Option BootState :=
  let s := mapStructure phys info s
  if checked phys info then
    (readMemmap phys info (readCmdline phys info s)).map fun s =>
      readInitrd phys info (readFramebuf phys info s)
  else some s

end

end S3boot

/-- `boot_init`; `none` if it never returns. -/
def bootInit (boot : BootInput) (s : BootState) : Option BootState :=
  if boot.multiboot ≠ 0 then Multiboot.init boot.phys boot.multiboot s
  else if boot.s3boot ≠ 0 then S3boot.init boot.phys (boot.s3boot / 4096 * 4096) s
  else some s

end Eclair
