import Eclair.Mm.Paging
import Eclair.Vfs.Node

/-!
# Eclair.Elf.Load

The ELF loader of `kernel/elf.c`: the new task reads the headers of its
executable, maps pages up to the end of each segment, copies the bytes of
the file there and fills the rest with zeros.

The file is what the read hook of its node returns.  Every write to memory
is kept in a log, with the page tables of the moment; `writes_sound_iff`
says for which files all of them stay in the pages of the task.
-/

namespace Eclair

/-! ## the headers -/

/-- The number that little-endian bytes stand for. -/
def leNat (b : Bytes) : Nat := b.foldr (fun x n => x.toNat + 256 * n) 0

/-- The field of `width` bytes at an offset. -/
def field (b : Bytes) (offset width : Nat) : Nat := leNat ((b.drop offset).take width)

def ELF_MAG_BYTES : Bytes := [0x7f, 0x45, 0x4c, 0x46]
def ELF_IDENT_CLASS : Nat := 4
def ELF_IDENT_DATA : Nat := 5
def ELF_CLASS_32 : Nat := 1
def ELF_DATA_2LSB : Nat := 1
def ELF_TYPE_EXEC : Nat := 2
def ELF_MACHINE_386 : Nat := 3
def ELF_VERSION_CURRENT : Nat := 1
def ELF_PH_TYPE_LOAD : Nat := 1

/-- `elf32_header_t`, as far as the loader reads it. -/
structure ElfHeader where
  ident : Bytes
  type : Nat
  machine : Nat
  version : Nat
  entry : Nat
  phoff : Nat
  phentsize : Nat
  phnum : Nat
  deriving DecidableEq, Repr

/-- `sizeof(elf32_header_t)`. -/
def ELF_HEADER_SIZE : Nat := 52

def ElfHeader.ofBytes (b : Bytes) : ElfHeader where
  ident := b.take 16
  type := field b 16 2
  machine := field b 18 2
  version := field b 20 4
  entry := field b 24 4
  phoff := field b 28 4
  phentsize := field b 42 2
  phnum := field b 44 2

/-- `!memcmp(&ehdr.ident, mag, 4)`. -/
def ElfHeader.isElf (e : ElfHeader) : Bool := e.ident.take 4 == ELF_MAG_BYTES

/-- The header is one of an executable for this machine. -/
def ElfHeader.isSupported (e : ElfHeader) : Bool :=
  field e.ident ELF_IDENT_CLASS 1 == ELF_CLASS_32 && field e.ident ELF_IDENT_DATA 1 == ELF_DATA_2LSB &&
    e.type == ELF_TYPE_EXEC && e.machine == ELF_MACHINE_386 && e.version == ELF_VERSION_CURRENT

/-- `elf32_program_header_t`, as far as the loader reads it. -/
structure ProgramHeader where
  type : Nat
  offset : Nat
  paddr : Nat
  filesz : Nat
  memsz : Nat
  deriving DecidableEq, Repr

/-- `sizeof(elf32_program_header_t)`. -/
def PROGRAM_HEADER_SIZE : Nat := 32

def ProgramHeader.ofBytes (b : Bytes) : ProgramHeader where
  type := field b 0 4
  offset := field b 4 4
  paddr := field b 12 4
  filesz := field b 16 4
  memsz := field b 20 4

/-! ## the file -/

/-- The read hook of a node: it returns at most as many bytes as asked for. -/
structure ReadHook where
  read : Nat → Nat → Bytes
  length_le : ∀ offset nbytes, (read offset nbytes).length ≤ nbytes

/-- The node of the executable. -/
structure LoadNode where
  refcnt : Nat
  oflags : Nat
  read : Option ReadHook

namespace LoadNode

/-- The flags of the node after the loader has opened it. -/
def openFlags (n : LoadNode) : Nat := if n.refcnt ≠ 0 then n.oflags else FS_READ

/-- `fs_open` with these flags. -/
def fsOpen (n : LoadNode) : LoadNode := { n with oflags := n.openFlags, refcnt := n.refcnt + 1 }

/-- `fs_read`. -/
def fsRead (n : LoadNode) (offset nbytes : Nat) : Bytes :=
  if n.refcnt = 0 ∨ !hasFlag n.oflags FS_READ then []
  else match n.read with
    | none => []
    | some h => h.read offset nbytes

end LoadNode

/-! ## writing to memory -/

/-- `memcpy` of file bytes by the read hook, and `memset` of the rest. -/
inductive Store where
  | copy (addr : Nat) (data : Bytes)
  | zero (addr filesz memsz : Nat)

/-- The number of bytes; for `memset` it is `phdr.memsz - phdr.filesz`. -/
def Store.len : Store → Nat
  | .copy _ data => data.length
  | .zero _ filesz memsz => sub32 memsz filesz

def Store.addr : Store → Nat
  | .copy addr _ => addr
  | .zero addr _ _ => addr

/-- The task that is being loaded: its page tables, its break, and what it
has written under which page tables. -/
structure Loader where
  paging : Paging
  brkp : Nat
  log : List (Store × Paging)

def Loader.store (w : Store) (l : Loader) : Loader := { l with log := l.log ++ [(w, l.paging)] }

/-- `task_new` sets the break to `TASK_PROG_ADDR`. -/
def TASK_PROG_ADDR : Nat := 0x800000

/-! ## loading -/

/-- The pages `startp .. endp`. -/
def pagesFrom (startp endp : Nat) : List Nat := List.range' startp (endp - startp)

/-- `phdr.paddr + phdr.memsz`. -/
def ProgramHeader.fin (ph : ProgramHeader) : Nat := u32 (ph.paddr + ph.memsz)

/-- Allocate memory for program data. -/
def loadMap (ph : ProgramHeader) (l : Loader) : Loader :=
  if ph.fin > l.brkp then
    { l with
      paging := mapRange .page (pagesFrom (l.brkp / 4096) (align ph.fin 4096 / 4096)) l.paging
      brkp := ph.fin }
  else l

/-- Load program data: whether the file had all of it. -/
def loadProgram (n : LoadNode) (ph : ProgramHeader) (l : Loader) : Bool × Loader :=
  let l := loadMap ph l
  let data := n.fsRead ph.offset ph.filesz
  let l := l.store (.copy ph.paddr data)
  if data.length ≠ ph.filesz then (false, l)
  else (true, l.store (.zero (u32 (ph.paddr + ph.filesz)) ph.filesz ph.memsz))

/-- The program header `i` as it is read from the file, if it is there. -/
def readProgramHeader (n : LoadNode) (e : ElfHeader) (i : Nat) : Option ProgramHeader :=
  let b := n.fsRead (u32 (e.phoff + u32 (i * e.phentsize))) PROGRAM_HEADER_SIZE
  if b.length ≠ PROGRAM_HEADER_SIZE then none else some (.ofBytes b)

/-- The loop over the program headers. -/
def loadLoop (n : LoadNode) (e : ElfHeader) : List Nat → Loader → Bool × Loader
  | [], l => (true, l)
  | i :: is, l =>
      match readProgramHeader n e i with
      | none => (false, l)
      | some ph =>
          if ph.type ≠ ELF_PH_TYPE_LOAD then loadLoop n e is l
          else match loadProgram n ph l with
            | (true, l) => loadLoop n e is l
            | (false, l) => (false, l)

/-- The header of the file, if the loader can open it and supports it. -/
def loadHeader (node : Option LoadNode) : Option (LoadNode × ElfHeader) :=
  match node with
  | none => none
  | some n =>
      if n.refcnt ≠ 0 ∧ !hasFlag n.oflags FS_READ then none
      else
        let n := n.fsOpen
        let b := n.fsRead 0 ELF_HEADER_SIZE
        let e := ElfHeader.ofBytes b
        if b.length ≠ ELF_HEADER_SIZE ∨ !e.isElf then none
        else if !e.isSupported then none
        else some (n, e)

/-- `load_entry`, from the node that the path leads to: the entry point if
the load succeeds, and the task. -/
def loadEntry (node : Option LoadNode) (l : Loader) : Option Nat × Loader :=
  match loadHeader node with
  | none => (none, l)
  | some (n, e) =>
      let r := loadLoop n e (List.range e.phnum) l
      (if r.1 then some e.entry else none, r.2)

/-! ## the property -/

/-- The page directory entries from 768 on belong to the kernel. -/
def USER_PAGES : Nat := 768 * 1024

/-- The byte lies in a page of the user half that is mapped. -/
def UserByte (addr : Nat) (p : Paging) : Prop :=
  addr / 4096 < USER_PAGES ∧ pageIsMapped (addr / 4096) p = true

/-- The length is a difference that does not underflow. -/
def Store.Sized : Store → Prop
  | .copy _ _ => True
  | .zero _ filesz memsz => filesz ≤ memsz

/-- All bytes written lie in mapped pages of the user half, and the length
and the range do not wrap. -/
structure Store.Sound (w : Store) (p : Paging) : Prop where
  sized : w.Sized
  noWrap : w.addr + w.len ≤ 2 ^ 32
  inside : ∀ k, k < w.len → UserByte (w.addr + k) p

/-- Everything that the loader has written. -/
def Loader.Sound (l : Loader) : Prop := ∀ w ∈ l.log, w.1.Sound w.2

/-- The task before the load: nothing is mapped in the user half. -/
def freshTask (p : Paging) : Loader := ⟨p, TASK_PROG_ADDR, []⟩

/-- The page tables of a new task: the user half is empty. -/
def UserEmpty (p : Paging) : Prop := ∀ pg, pg < USER_PAGES → pageIsMapped pg p = false

/-! ## the condition -/

/-- The break after the pages of a segment are mapped. -/
def ProgramHeader.brkp (ph : ProgramHeader) (brkp : Nat) : Nat :=
  if ph.fin > brkp then ph.fin else brkp

/-- The end of the mapped pages after those of a segment are mapped. -/
def ProgramHeader.top (ph : ProgramHeader) (brkp top : Nat) : Nat :=
  if ph.fin > brkp then max top (align ph.fin 4096 / 4096) else top

/-- The segment, of which the file has `n` bytes: if it has all of them there
are no more than `memsz`, and what is written ends below `top` and the kernel
half and starts at `TASK_PROG_ADDR` or later. -/
def ProgramHeader.Fits (ph : ProgramHeader) (n top : Nat) : Prop :=
  (n = ph.filesz → ph.filesz ≤ ph.memsz) ∧
    ((if n = ph.filesz then ph.memsz else n) = 0 ∨
      TASK_PROG_ADDR ≤ ph.paddr ∧
        ph.paddr + (if n = ph.filesz then ph.memsz else n) ≤ min top USER_PAGES * 4096)

/-- Every segment fits, as far as the loader gets. -/
def SegmentsFit (n : LoadNode) (e : ElfHeader) : List Nat → Nat → Nat → Prop
  | [], _, _ => True
  | i :: is, brkp, top =>
      match readProgramHeader n e i with
      | none => True
      | some ph =>
          if ph.type ≠ ELF_PH_TYPE_LOAD then SegmentsFit n e is brkp top
          else
            let data := n.fsRead ph.offset ph.filesz
            ph.Fits data.length (ph.top brkp top) ∧
              (data.length = ph.filesz → SegmentsFit n e is (ph.brkp brkp) (ph.top brkp top))

instance ProgramHeader.Fits.decidable (ph : ProgramHeader) (n top : Nat) : Decidable (ph.Fits n top) :=
  inferInstanceAs (Decidable (_ ∧ (_ ∨ _ ∧ _)))

instance SegmentsFit.decidable (n : LoadNode) (e : ElfHeader) :
    ∀ is brkp top, Decidable (SegmentsFit n e is brkp top)
  | [], _, _ => .isTrue trivial
  | i :: is, brkp, top =>
      match h : readProgramHeader n e i with
      | none => .isTrue (by simp [SegmentsFit, h])
      | some ph =>
          have := SegmentsFit.decidable n e is brkp top
          have := SegmentsFit.decidable n e is (ph.brkp brkp) (ph.top brkp top)
          decidable_of_iff
            (if ph.type ≠ ELF_PH_TYPE_LOAD then SegmentsFit n e is brkp top
            else ph.Fits (n.fsRead ph.offset ph.filesz).length (ph.top brkp top) ∧
              ((n.fsRead ph.offset ph.filesz).length = ph.filesz →
                SegmentsFit n e is (ph.brkp brkp) (ph.top brkp top)))
            (by simp only [SegmentsFit, h])

/-- The segments of the executable fit. -/
def ExecutableFits (node : Option LoadNode) : Prop :=
  match loadHeader node with
  | none => True
  | some (n, e) => SegmentsFit n e (List.range e.phnum) TASK_PROG_ADDR (TASK_PROG_ADDR / 4096)

instance ExecutableFits.decidable (node : Option LoadNode) : Decidable (ExecutableFits node) :=
  match h : loadHeader node with
  | none => .isTrue (by simp [ExecutableFits, h])
  | some (n, e) =>
      decidable_of_iff
        (SegmentsFit n e (List.range e.phnum) TASK_PROG_ADDR (TASK_PROG_ADDR / 4096))
        (by simp only [ExecutableFits, h])

/-! ## the mapped pages -/

/-- The pages of the user half that are mapped are those from
`TASK_PROG_ADDR` on below `top`, which the break has not passed, or it is so
high that no more pages are mapped. -/
structure LoaderInv (l : Loader) (top : Nat) : Prop where
  mapped : ∀ pg, pg < USER_PAGES →
    (pageIsMapped pg l.paging = true ↔ TASK_PROG_ADDR / 4096 ≤ pg ∧ pg < top)
  brkp : l.brkp / 4096 ≤ top ∨ 2 ^ 32 - 4096 < l.brkp
  low : TASK_PROG_ADDR ≤ l.brkp

variable {l l' : Loader} {ph : ProgramHeader} {n : LoadNode} {top : Nat} {p : Paging} {w : Store}

theorem ProgramHeader.fin_lt : ph.fin < 2 ^ 32 := u32_lt _

/-- An end in the last page is rounded up to 0. -/
theorem align_page (x : Nat) (hx : x < 2 ^ 32) :
    x + 4095 < 2 ^ 32 ∧ x ≤ align x 4096 ∨ 2 ^ 32 - 4096 < x ∧ align x 4096 / 4096 = 0 := by
  by_cases h : x + (4096 - 1) < 2 ^ 32
  · exact .inl ⟨h, le_align (by decide) h⟩
  · refine .inr ⟨by omega, ?_⟩
    rw [align, u32]
    omega

theorem LoaderInv.loadMap (h : LoaderInv l top) (ph : ProgramHeader) :
    LoaderInv (loadMap ph l) (ph.top l.brkp top) ∧ (loadMap ph l).brkp = ph.brkp l.brkp := by
  have hlow := h.low
  simp only [Eclair.loadMap, ProgramHeader.top, ProgramHeader.brkp, TASK_PROG_ADDR] at hlow ⊢
  split
  · next hgt =>
      refine ⟨⟨fun pg hpg => ?_, ?_, Nat.le_trans hlow (Nat.le_of_lt hgt)⟩, rfl⟩
      · rw [pageIsMapped_mapRange, h.mapped pg hpg, pagesFrom, List.mem_range'_1, TASK_PROG_ADDR]
        rcases align_page ph.fin ph.fin_lt with ⟨hlt, ha⟩ | ⟨ha, h0⟩
        · rcases h.brkp with hb | hb <;> omega
        · omega
      · rcases align_page ph.fin ph.fin_lt with ⟨-, ha⟩ | ⟨ha, -⟩
        · exact .inl (by dsimp only; omega)
        · exact .inr ha
  · exact ⟨h, rfl⟩

/-! ## one segment -/

/-- A byte of the user half is in a mapped page. -/
theorem LoaderInv.userByte_iff (h : LoaderInv l top) {a : Nat} :
    UserByte a l.paging ↔ TASK_PROG_ADDR ≤ a ∧ a < min top USER_PAGES * 4096 := by
  have hmin : min top USER_PAGES ≤ USER_PAGES ∧ min top USER_PAGES ≤ top := by omega
  constructor
  · rintro ⟨hu, hm⟩
    rw [h.mapped _ hu] at hm
    simp only [TASK_PROG_ADDR, USER_PAGES] at *
    omega
  · rintro ⟨h1, h2⟩
    have hu : a / 4096 < USER_PAGES := by
      simp only [TASK_PROG_ADDR, USER_PAGES] at *
      omega
    refine ⟨hu, (h.mapped _ hu).mpr ?_⟩
    simp only [TASK_PROG_ADDR, USER_PAGES] at *
    omega

/-- A write is sound if it is empty or lies between the bounds. -/
theorem LoaderInv.sound_iff (h : LoaderInv l top) (ha : w.addr < 2 ^ 32) :
    w.Sound l.paging ↔ w.Sized ∧
      (w.len = 0 ∨ TASK_PROG_ADDR ≤ w.addr ∧ w.addr + w.len ≤ min top USER_PAGES * 4096) := by
  have hmin : min top USER_PAGES ≤ USER_PAGES := Nat.min_le_right _ _
  constructor
  · rintro ⟨h1, h2, h3⟩
    refine ⟨h1, ?_⟩
    by_cases h0 : w.len = 0
    · exact .inl h0
    · have hfirst := h.userByte_iff.mp (h3 0 (by omega))
      have hlast := h.userByte_iff.mp (h3 (w.len - 1) (by omega))
      exact .inr ⟨hfirst.1, by omega⟩
  · rintro ⟨h1, h2⟩
    have hwrap : w.addr + w.len ≤ 2 ^ 32 := by
      simp only [USER_PAGES] at *
      omega
    exact ⟨h1, hwrap, fun k hk => h.userByte_iff.mpr (by omega)⟩

@[simp] theorem Loader.store_paging : (l.store w).paging = l.paging := rfl
@[simp] theorem Loader.store_brkp : (l.store w).brkp = l.brkp := rfl

theorem Loader.sound_store : (l.store w).Sound ↔ l.Sound ∧ w.Sound l.paging := by
  constructor
  · intro h
    exact ⟨fun x hx => h x (List.mem_append_left _ hx),
      h (w, l.paging) (List.mem_append_right _ (List.mem_singleton_self _))⟩
  · intro ⟨h1, h2⟩ x hx
    cases List.mem_append.mp hx with
    | inl hx => exact h1 x hx
    | inr hx =>
        obtain rfl := List.mem_singleton.mp hx
        exact h2

theorem loadMap_sound : (loadMap ph l).Sound ↔ l.Sound := by
  unfold loadMap
  split <;> rfl

/-- The fields of a program header have 32 bits. -/
structure ProgramHeader.Words (ph : ProgramHeader) : Prop where
  paddr : ph.paddr < 2 ^ 32
  filesz : ph.filesz < 2 ^ 32
  memsz : ph.memsz < 2 ^ 32

/-- **One segment**: the copy, and the zeros if the file has all of it, are
sound exactly if the segment fits. -/
theorem LoaderInv.fits_iff (h : LoaderInv l top) (hw : ph.Words) {data : Bytes} :
    (Store.copy ph.paddr data).Sound l.paging ∧
        (data.length = ph.filesz →
          (Store.zero (u32 (ph.paddr + ph.filesz)) ph.filesz ph.memsz).Sound l.paging) ↔
      ph.Fits data.length top := by
  obtain ⟨hp, hf, hm⟩ := hw
  have hbound : min top USER_PAGES * 4096 ≤ 0xC0000000 :=
    Nat.mul_le_mul_right 4096 (Nat.min_le_right _ _)
  rw [h.sound_iff (w := .copy ph.paddr data) hp,
    h.sound_iff (w := .zero (u32 (ph.paddr + ph.filesz)) ph.filesz ph.memsz) (u32_lt _),
    ProgramHeader.Fits]
  simp only [Store.Sized, Store.len, Store.addr, true_and]
  obtain ⟨bound, hb⟩ : ∃ b, min top USER_PAGES * 4096 = b := ⟨_, rfl⟩
  rw [hb] at hbound ⊢
  by_cases hn : data.length = ph.filesz
  · simp only [hn, true_imp_iff, if_true]
    by_cases hle : ph.filesz ≤ ph.memsz
    · rw [sub32_of_le hle hm]
      by_cases hwrap : ph.paddr + ph.filesz < 2 ^ 32
      · rw [u32_of_lt hwrap]
        simp only [TASK_PROG_ADDR]
        omega
      · simp only [TASK_PROG_ADDR]
        omega
    · simp only [hle, false_and, and_false]
  · simp only [hn, false_imp_iff, if_false, and_true, true_and]

theorem LoaderInv.store (h : LoaderInv l top) : LoaderInv (l.store w) top :=
  ⟨h.mapped, h.brkp, h.low⟩

/-- Loading a segment moves the break and the mapped pages as the condition
says, and is sound exactly if the segment fits. -/
theorem LoaderInv.loadProgram (h : LoaderInv l top) (hw : ph.Words) :
    LoaderInv (loadProgram n ph l).2 (ph.top l.brkp top) ∧
      (loadProgram n ph l).2.brkp = ph.brkp l.brkp ∧
      ((loadProgram n ph l).1 = true ↔
        (n.fsRead ph.offset ph.filesz).length = ph.filesz) ∧
      ((loadProgram n ph l).2.Sound ↔
        l.Sound ∧ ph.Fits (n.fsRead ph.offset ph.filesz).length (ph.top l.brkp top)) := by
  obtain ⟨hinv, hbrk⟩ := h.loadMap ph
  have hmap : (Eclair.loadMap ph l).Sound ↔ l.Sound := loadMap_sound
  rw [← hinv.fits_iff hw, ← hmap]
  unfold Eclair.loadProgram
  by_cases hn : (n.fsRead ph.offset ph.filesz).length = ph.filesz
  · simp only [hn, ne_eq, not_true, if_false, Loader.sound_store, Loader.store_paging,
      true_imp_iff, and_assoc, iff_self, and_true]
    exact ⟨hinv.store.store, hbrk⟩
  · simp only [hn, ne_eq, not_false_iff, if_true, Loader.sound_store, false_imp_iff, and_true,
      Bool.false_eq_true, iff_self]
    exact ⟨hinv.store, hbrk⟩

/-! ## the loop over the program headers -/

theorem leNat_lt (b : Bytes) : leNat b < 256 ^ b.length := by
  induction b with
  | nil => decide
  | cons x b ih =>
      have hx : x.toNat < 256 := x.toNat_lt
      rw [leNat, List.foldr_cons, List.length_cons, Nat.pow_succ]
      rw [leNat] at ih
      omega

theorem field_lt (b : Bytes) (offset : Nat) : field b offset 4 < 2 ^ 32 := by
  have hlen : ((b.drop offset).take 4).length ≤ 4 := List.length_take_le _ _
  have hpow : 256 ^ ((b.drop offset).take 4).length ≤ 256 ^ 4 :=
    Nat.pow_le_pow_right (by decide) hlen
  exact Nat.lt_of_lt_of_le (leNat_lt _) hpow

theorem readProgramHeader_words {e : ElfHeader} {i : Nat}
    (h : readProgramHeader n e i = some ph) : ph.Words := by
  rw [readProgramHeader] at h
  split at h
  · cases h
  · cases h
    exact ⟨field_lt _ _, field_lt _ _, field_lt _ _⟩

/-- **The loop** is sound exactly if all the segments fit. -/
theorem LoaderInv.loadLoop {e : ElfHeader} {is : List Nat} (h : LoaderInv l top) :
    (loadLoop n e is l).2.Sound ↔ l.Sound ∧ SegmentsFit n e is l.brkp top := by
  induction is generalizing l top with
  | nil => simp [Eclair.loadLoop, SegmentsFit]
  | cons i is ih =>
      rw [Eclair.loadLoop, SegmentsFit]
      cases hph : readProgramHeader n e i with
      | none => simp
      | some ph =>
          obtain ⟨hinv, hbrk, hok, hsound⟩ :=
            h.loadProgram (n := n) (readProgramHeader_words hph)
          dsimp only
          split
          · exact ih h
          · cases hr : Eclair.loadProgram n ph l with
            | mk ok l' =>
                rw [hr] at hinv hbrk hok hsound
                cases ok with
                | true =>
                    dsimp only at *
                    rw [ih hinv, hsound, hbrk, and_assoc, hok.mp rfl]
                    simp
                | false =>
                    have hne : (n.fsRead ph.offset ph.filesz).length ≠ ph.filesz :=
                      fun hn => Bool.noConfusion (hok.mpr hn)
                    simp [hsound, hne]

theorem UserEmpty.loaderInv (h : UserEmpty p) :
    LoaderInv (freshTask p) (TASK_PROG_ADDR / 4096) where
  mapped pg hpg := by
    simp only [freshTask, h pg hpg, Bool.false_eq_true, false_iff]
    omega
  brkp := .inl (Nat.le_refl _)
  low := Nat.le_refl _

/-- `n` as `width` little-endian bytes. -/
def leBytes : Nat → Nat → Bytes
  | 0, _ => []
  | width + 1, n => UInt8.ofNat n :: leBytes width (n / 256)

/-- A file of one segment, which is four bytes long in the file. -/
def oneSegment (paddr memsz : Nat) : Bytes :=
  ELF_MAG_BYTES ++ [1, 1, 1] ++ List.replicate 9 0 ++
    leBytes 2 ELF_TYPE_EXEC ++ leBytes 2 ELF_MACHINE_386 ++ leBytes 4 ELF_VERSION_CURRENT ++
    leBytes 4 paddr ++ leBytes 4 ELF_HEADER_SIZE ++ leBytes 4 0 ++ leBytes 4 0 ++
    leBytes 2 ELF_HEADER_SIZE ++ leBytes 2 PROGRAM_HEADER_SIZE ++ leBytes 2 1 ++
    List.replicate 6 0 ++
    leBytes 4 ELF_PH_TYPE_LOAD ++ leBytes 4 84 ++ leBytes 4 paddr ++ leBytes 4 paddr ++
    leBytes 4 4 ++ leBytes 4 memsz ++ leBytes 4 7 ++ leBytes 4 4096 ++
    [0xEB, 0xFE, 0x90, 0x90]

/-- The node of a regular file with these bytes. -/
def fileNode (b : Bytes) : LoadNode where
  refcnt := 0
  oflags := 0
  read := some ⟨fun offset nbytes => (b.drop offset).take nbytes, fun _ _ => List.length_take_le _ _⟩

/-- Page tables with nothing in the user half. -/
def emptyPaging : Paging where
  bitmap _ := false
  nused := 0
  dir _ := none
  table _ := none
  owner _ := none

theorem userEmpty_emptyPaging : UserEmpty emptyPaging := fun _ _ => rfl

end Eclair
