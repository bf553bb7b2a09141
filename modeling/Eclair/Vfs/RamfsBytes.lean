import Mathlib.Data.List.Basic
import Eclair.Vfs.Ramfs

/-!
# Eclair.Vfs.RamfsBytes

The bytes of a ramfs file behind its blocks.

A write is `splice`d into the bytes, cut off at the `RAMFS_MAX` bytes that
the blocks can hold; blocks that are allocated, shared by several writes or
freed on the way do not show.
-/

namespace Eclair

/-- What the blocks of a file can hold. -/
def RAMFS_MAX : Nat := MAX_BLOCKS * BLOCK_SIZE

/-- The bytes of a file. -/
def RamfsFile.contents (f : RamfsFile) : Bytes := (List.range f.size).map f.byte

/-- No block behind the end of `blocks[]` is in use. -/
def RamfsFile.Within (f : RamfsFile) : Prop := ∀ i, MAX_BLOCKS ≤ i → f.blocks i = none

/-- The bytes `xs` with `ys` in the place of those from `pos` on. -/
def splice (pos : Nat) (ys xs : Bytes) : Bytes := xs.take pos ++ ys ++ xs.drop (pos + ys.length)

variable {f : RamfsFile} {pos n : Nat} {xs ys : Bytes} {x : UInt8}

theorem length_splice (h : pos ≤ xs.length) :
    (splice pos ys xs).length = max xs.length (pos + ys.length) := by
  simp only [splice, List.length_append, List.length_take, List.length_drop]
  omega

/-- A byte is that of the new bytes, or the one it was. -/
theorem getElem?_splice (h : pos ≤ xs.length) (q : Nat) :
    (splice pos ys xs)[q]? = if pos ≤ q ∧ q < pos + ys.length then ys[q - pos]? else xs[q]? := by
  have htake : (xs.take pos).length = pos := List.length_take_of_le h
  rw [splice, List.append_assoc]
  rcases Nat.lt_or_ge q pos with hq | hq
  · rw [List.getElem?_append_left (by omega), if_neg (by omega), List.getElem?_take_of_lt hq]
  · rw [List.getElem?_append_right (by omega), htake]
    rcases Nat.lt_or_ge q (pos + ys.length) with hq' | hq'
    · rw [List.getElem?_append_left (by omega), if_pos ⟨hq, hq'⟩]
    · rw [List.getElem?_append_right (by omega), if_neg (by omega), List.getElem?_drop]
      congr 1
      omega

@[simp] theorem length_contents : f.contents.length = f.size := by simp [RamfsFile.contents]

theorem getElem?_contents (q : Nat) :
    f.contents[q]? = if q < f.size then some (f.byte q) else none := by
  rw [RamfsFile.contents, List.getElem?_map]
  split
  · next h => rw [List.getElem?_range h, Option.map_some]
  · next h => rw [List.getElem?_eq_none (by simpa using h), Option.map_none]

/-! ## one byte -/

/-- A position is its block and its place in the block. -/
theorem byte_setByte (q : Nat) :
    (f.setByte pos x).byte q = if q = pos then x else f.byte q := by
  have hsplit : q = pos ↔ q / 2 ^ BLOCK_SHIFT = pos / 2 ^ BLOCK_SHIFT ∧
      q % BLOCK_SIZE = pos % BLOCK_SIZE := by
    simp only [BLOCK_SHIFT, BLOCK_SIZE]
    omega
  simp only [RamfsFile.byte, RamfsFile.setByte]
  by_cases hb : q / 2 ^ BLOCK_SHIFT = pos / 2 ^ BLOCK_SHIFT
  · rw [hb, Function.update_self]
    by_cases hm : q % BLOCK_SIZE = pos % BLOCK_SIZE
    · rw [if_pos (hsplit.mpr ⟨hb, hm⟩), hm]
      exact Function.update_self _ _ _
    · have hne : q ≠ pos := fun h => hm (hsplit.mp h).2
      rw [if_neg hne]
      dsimp only
      rw [Function.update_of_ne hm]
      cases f.blocks (pos / 2 ^ BLOCK_SHIFT) <;> rfl
  · have hne : q ≠ pos := fun h => hb (hsplit.mp h).1
    rw [if_neg hne, Function.update_of_ne hb]

theorem RamfsFile.Within.setByte (h : f.Within) (hpos : ¬ MAX_BLOCKS ≤ pos / 2 ^ BLOCK_SHIFT) :
    (f.setByte pos x).Within := by
  intro i hi
  have hne : i ≠ pos / 2 ^ BLOCK_SHIFT := fun h => hpos (h ▸ hi)
  simp only [RamfsFile.setByte, Function.update_of_ne hne]
  exact h i hi

/-! ## the hooks -/

/-- The loop of `ramfs_write`: it stores what fits in the blocks, and nothing
else changes. -/
theorem ramfsStore_spec (data : Bytes) (pos : Nat) (f : RamfsFile) :
    (ramfsStore pos data f).1 = min data.length (RAMFS_MAX - pos) ∧
      (ramfsStore pos data f).2.size = f.size ∧
      (f.Within → (ramfsStore pos data f).2.Within) ∧
      ∀ q, (ramfsStore pos data f).2.byte q =
        if pos ≤ q ∧ q < pos + (ramfsStore pos data f).1 then data.getD (q - pos) 0 else f.byte q := by
  induction data generalizing pos f with
  | nil =>
      refine ⟨by simp [ramfsStore], rfl, id, fun q => ?_⟩
      rw [if_neg (by simp only [ramfsStore]; omega)]
      rfl
  | cons x xs ih =>
      rw [ramfsStore]
      by_cases hfull : MAX_BLOCKS ≤ pos / 2 ^ BLOCK_SHIFT
      · have hmax : RAMFS_MAX - pos = 0 := by
          simp only [MAX_BLOCKS, BLOCK_SHIFT, RAMFS_MAX, BLOCK_SIZE] at hfull ⊢
          omega
        rw [if_pos hfull, hmax]
        exact ⟨by simp, rfl, id, fun q => by rw [if_neg (by dsimp only; omega)]⟩
      · have hlt : pos < RAMFS_MAX := by
          simp only [MAX_BLOCKS, BLOCK_SHIFT, RAMFS_MAX, BLOCK_SIZE] at hfull ⊢
          omega
        obtain ⟨hcount, hsize, hin, hbyte⟩ := ih (pos + 1) (f.setByte pos x)
        rw [if_neg hfull]
        dsimp only
        refine ⟨?_, hsize, fun h => hin (h.setByte hfull), fun q => ?_⟩
        · rw [hcount, List.length_cons]
          omega
        · rw [hbyte, byte_setByte]
          rcases Nat.lt_trichotomy q pos with hq | rfl | hq
          · rw [if_neg (by omega), if_neg (by omega), if_neg (by omega)]
          · rw [if_neg (by omega), if_pos rfl, if_pos (by omega), Nat.sub_self]
            rfl
          · have hne : q ≠ pos := by omega
            have hidx : q - pos = q - (pos + 1) + 1 := by omega
            rw [if_neg hne, hidx, List.getD_cons_succ]
            congr 1
            apply propext
            omega

/-- **Writing** within the file or at its end: the bytes are spliced in, as
far as they fit. -/
theorem ramfsWrite_contents (hpos : pos ≤ f.size) (hmax : f.size ≤ RAMFS_MAX) (data : Bytes) :
    (ramfsWrite pos data f).1 = (data.take (RAMFS_MAX - pos)).length ∧
      (ramfsWrite pos data f).2.contents = splice pos (data.take (RAMFS_MAX - pos)) f.contents := by
  obtain ⟨hcount, hsize, -, hbyte⟩ := ramfsStore_spec data pos f
  have hlen : (data.take (RAMFS_MAX - pos)).length = (ramfsStore pos data f).1 := by
    rw [hcount, List.length_take, Nat.min_comm]
  refine ⟨hlen.symm, ?_⟩
  have hfinal : (ramfsWrite pos data f).2.size = max f.size (pos + (ramfsStore pos data f).1) := by
    rw [ramfsWrite]
    dsimp only
    rw [hsize]
    split
    · simp only
      omega
    · rw [hsize]
      omega
  have hsame : ∀ q, (ramfsWrite pos data f).2.byte q = (ramfsStore pos data f).2.byte q := by
    intro q
    rw [ramfsWrite]
    dsimp only
    split <;> rfl
  refine List.ext_getElem? fun q => ?_
  rw [getElem?_splice (by simpa using hpos), hlen, getElem?_contents, getElem?_contents, hfinal, hsame,
    hbyte]
  by_cases hq : pos ≤ q ∧ q < pos + (ramfsStore pos data f).1
  · have hget : q - pos < data.length := by omega
    rw [if_pos hq, if_pos hq, if_pos (by omega), List.getElem?_take_of_lt (by omega),
      List.getElem?_eq_getElem hget]
    simp [hget]
  · rw [if_neg hq, if_neg hq]
    by_cases hs : q < f.size
    · rw [if_pos (by omega), if_pos hs]
    · rw [if_neg (by omega), if_neg hs]

theorem ramfsWrite_within (h : f.Within) (data : Bytes) : (ramfsWrite pos data f).2.Within := by
  have hstore := (ramfsStore_spec data pos f).2.2.1 h
  rw [ramfsWrite]
  dsimp only
  split
  · exact hstore
  · exact hstore

/-- **Reading** within the file. -/
theorem ramfsRead_contents (hpos : pos ≤ f.size) (hmax : f.size ≤ RAMFS_MAX) (n : Nat) :
    ramfsRead pos n f = (f.contents.drop pos).take n := by
  have hmax32 : RAMFS_MAX < 2 ^ 32 := by decide
  have hsub : sub32 f.size pos = f.size - pos := sub32_of_le hpos (by omega)
  rw [ramfsRead, hsub]
  refine List.ext_getElem? fun q => ?_
  rw [List.getElem?_map, List.getElem?_take, List.getElem?_drop, getElem?_contents]
  by_cases hq : q < n ∧ pos + q < f.size
  · have hlt : q < if n > f.size - pos then f.size - pos else n := by split <;> omega
    rw [List.getElem?_range hlt, if_pos hq.1, if_pos hq.2, Option.map_some]
  · have hge : (List.range (if n > f.size - pos then f.size - pos else n)).length ≤ q := by
      rw [List.length_range]
      split <;> omega
    rw [List.getElem?_eq_none hge, Option.map_none]
    split
    · rw [if_neg (by omega)]
    · rfl

/-- **Closing** frees no block that holds a byte of the file. -/
theorem ramfsClose_contents (hmax : f.size ≤ RAMFS_MAX) : (ramfsClose f).contents = f.contents := by
  have hmax32 : RAMFS_MAX + BLOCK_SIZE < 2 ^ 32 := by decide
  have halign : align f.size BLOCK_SIZE = (f.size + 1023) / 1024 * 1024 :=
    align_of_lt (by simp only [BLOCK_SIZE, RAMFS_MAX, MAX_BLOCKS] at *; omega)
  refine List.map_congr_left fun q hq => ?_
  have hq : q < f.size := List.mem_range.mp hq
  have hkeep : ¬ (align f.size BLOCK_SIZE / 2 ^ BLOCK_SHIFT ≤ q / 2 ^ BLOCK_SHIFT ∧
      q / 2 ^ BLOCK_SHIFT < MAX_BLOCKS) := by
    rw [halign]
    simp only [BLOCK_SHIFT]
    omega
  simp only [RamfsFile.byte, ramfsClose, if_neg hkeep]

theorem ramfsClose_within (h : f.Within) : (ramfsClose f).Within := by
  intro i hi
  simp only [ramfsClose]
  split
  · rfl
  · exact h i hi

/-- **Opening** empties the file if the flags say so. -/
theorem ramfsOpen_contents (flags : Nat) :
    (ramfsOpen flags f).contents = if hasFlag flags FS_TRUNCATE then [] else f.contents := by
  rw [ramfsOpen]
  split <;> rfl

theorem ramfsOpen_within (h : f.Within) (flags : Nat) : (ramfsOpen flags f).Within := by
  rw [ramfsOpen]
  split
  · exact h
  · exact h

end Eclair
