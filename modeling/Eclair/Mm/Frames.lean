import Eclair.Lib.Bits
import Eclair.Lib.System
import Eclair.Mm.Paging

/-!
# Eclair.Mm.Frames

The bytes of the frame bitmap (`kernel/mm/paging.c`) and the counter of the
used frames, over any sequence of calls.

`Paging` has the bitmap as a set of frames; `Shows` connects the two.
-/

namespace Eclair

open ByteMem

/-- The frames that the bitmap has bits for. -/
def FRAMES : Nat := BITMAP_SIZE * 8

/-- `bitmap` and `nused`. -/
structure FrameMap where
  bitmap : ByteMem
  nused : Nat

namespace FrameMap

/-- `page_frame_use`. -/
def pageFrameUse (id : Nat) (s : FrameMap) : FrameMap where
  nused := if bit s.bitmap id then s.nused else u32 (s.nused + 1)
  bitmap := orBit (id / 8) (id % 8) s.bitmap

/-- `page_frame_free`. -/
def pageFrameFree (id : Nat) (s : FrameMap) : FrameMap where
  nused := if bit s.bitmap id then sub32 s.nused 1 else s.nused
  bitmap := clearBit (id / 8) (id % 8) s.bitmap

/-- `page_frame_alloc`. -/
def pageFrameAlloc (s : FrameMap) : Nat × FrameMap :=
  match scanBytes s.bitmap BITMAP_SIZE 0 with
  | some (i, j) => (8 * i + j, pageFrameUse (8 * i + j) s)
  | none => (0, s)

/-! ## sequences of calls -/

inductive Op where
  | use (id : Nat)
  | free (id : Nat)
  | alloc
  deriving DecidableEq

/-- One call. -/
def call (s : FrameMap) : Op → FrameMap
  | .use id => pageFrameUse id s
  | .free id => pageFrameFree id s
  | .alloc => (pageFrameAlloc s).2

/-- The bitmap of the boot, after the first call of `page_frame_init`. -/
def start : FrameMap := pageFrameUse 0 ⟨fun _ => 0, 0⟩

def system : System FrameMap Op := .ofNext (· = start) fun s op => some (s.call op)

/-- The frame is in range, and frame 0 is not freed. -/
def InRange (_ : FrameMap) : Op → Prop
  | .use id => id < FRAMES
  | .free id => id < FRAMES ∧ id ≠ 0
  | .alloc => True

/-- The number of set bits. -/
def nset (s : FrameMap) : Nat := countBits s.bitmap 0 FRAMES

/-- What `page_frame_alloc` is for: the least clear bit, and no other bit changes. -/
structure AllocOk (s : FrameMap) : Prop where
  least : (∃ f < FRAMES, bit s.bitmap f = false) →
    s.pageFrameAlloc.1 < FRAMES ∧ FirstClear s.bitmap s.pageFrameAlloc.1 ∧
      bit s.pageFrameAlloc.2.bitmap s.pageFrameAlloc.1 = true
  only : ∀ f, f ≠ s.pageFrameAlloc.1 → bit s.pageFrameAlloc.2.bitmap f = bit s.bitmap f
  full : s.pageFrameAlloc.1 = 0 → ∀ f < FRAMES, bit s.bitmap f = true

/-- The counter is right, and frame 0 is used. -/
structure Inv (s : FrameMap) : Prop where
  nused : s.nused = s.nset
  zero : bit s.bitmap 0 = true

variable {s s' : FrameMap} {id f : Nat} {op : Op} {p : Paging} {who : FrameOwner}

@[simp] theorem bit_use : bit (pageFrameUse id s).bitmap f = (decide (f = id) || bit s.bitmap f) := by
  rw [pageFrameUse, bit_orBit (Nat.mod_lt id (by decide)), Nat.div_add_mod]

@[simp] theorem bit_free :
    bit (pageFrameFree id s).bitmap f = (decide (f ≠ id) && bit s.bitmap f) := by
  rw [pageFrameFree, bit_clearBit (Nat.mod_lt id (by decide)), Nat.div_add_mod]

theorem nset_le (s : FrameMap) : s.nset ≤ FRAMES := by
  rw [nset, countBits]
  refine Nat.le_trans (Finset.card_filter_le _ _) ?_
  rw [Nat.card_Ico]
  omega

/-! ## one call -/

theorem Inv.use (h : Inv s) (hid : id < FRAMES) : Inv (pageFrameUse id s) where
  zero := by simp [h.zero]
  nused := by
    cases hb : bit s.bitmap id with
    | true =>
        have hsame : (pageFrameUse id s).nset = s.nset := countBits_congr fun b _ _ => by
          by_cases hb' : b = id
          · simp [hb', hb]
          · simp [hb']
        rw [hsame, ← h.nused, pageFrameUse, hb]
        rfl
    | false =>
        have hmore : (pageFrameUse id s).nset = s.nset + 1 :=
          countBits_succ hb (by simp) (fun b hb => by simp [hb]) (Nat.zero_le id) (by omega)
        have hlt : s.nset < 2 ^ 32 - 1 := Nat.lt_of_le_of_lt (nset_le s) (by decide)
        rw [hmore, ← h.nused, pageFrameUse, hb, if_neg Bool.false_ne_true,
          u32_of_lt (by rw [h.nused]; omega)]

theorem Inv.free (h : Inv s) (hid : id < FRAMES) (h0 : id ≠ 0) : Inv (pageFrameFree id s) where
  zero := by simp [h.zero, Ne.symm h0]
  nused := by
    cases hb : bit s.bitmap id with
    | true =>
        have hless : s.nset = (pageFrameFree id s).nset + 1 :=
          countBits_succ (by simp) hb (fun b hb => by simp [hb]) (Nat.zero_le id) (by omega)
        have hlt : s.nset < 2 ^ 32 := Nat.lt_of_le_of_lt (nset_le s) (by decide)
        rw [pageFrameFree, hb, if_pos rfl, h.nused, sub32_of_le (by omega) hlt, hless]
        rfl
    | false =>
        have hsame : (pageFrameFree id s).nset = s.nset := countBits_congr fun b _ _ => by
          by_cases hb' : b = id
          · simp [hb', hb]
          · simp [hb']
        rw [hsame, ← h.nused, pageFrameFree, hb]
        rfl

/-- **What `page_frame_alloc` does**: it uses the first clear bit, if there is one. -/
theorem alloc_cases (s : FrameMap) :
    (∃ f < FRAMES, FirstClear s.bitmap f ∧ s.pageFrameAlloc = (f, pageFrameUse f s)) ∨
      (∀ f < FRAMES, bit s.bitmap f = true) ∧ s.pageFrameAlloc = (0, s) := by
  cases hs : scanBytes s.bitmap BITMAP_SIZE 0 with
  | some p =>
      obtain ⟨i, j⟩ := p
      obtain ⟨-, hi, hj, hclear, hbelow⟩ := scanBytes_some hs
      have halloc : s.pageFrameAlloc = (8 * i + j, pageFrameUse (8 * i + j) s) := by
        rw [pageFrameAlloc, hs]
      exact .inl ⟨8 * i + j, by rw [FRAMES]; omega, ⟨hclear, fun b => hbelow b (Nat.zero_le b)⟩, halloc⟩
  | none =>
      have halloc : s.pageFrameAlloc = (0, s) := by rw [pageFrameAlloc, hs]
      exact .inr ⟨fun f hf => scanBytes_none hs (Nat.zero_le f) (by rw [FRAMES] at hf; omega), halloc⟩

theorem Inv.alloc (h : Inv s) : Inv s.pageFrameAlloc.2 := by
  obtain ⟨f, hf, -, halloc⟩ | ⟨-, halloc⟩ := alloc_cases s
  · rw [halloc]
    exact h.use hf
  · rwa [halloc]

/-- **One call** keeps the counter right. -/
theorem Inv.call (h : Inv s) (hok : InRange s op) : Inv (s.call op) := by
  cases op with
  | use id => exact h.use hok
  | free id => exact h.free hok.1 hok.2
  | alloc => exact h.alloc

theorem Inv.allocOk (h : Inv s) : AllocOk s := by
  obtain ⟨f, hf, hfirst, halloc⟩ | ⟨hall, halloc⟩ := alloc_cases s
  · refine ⟨fun _ => ?_, fun g hg => ?_, fun h0 => ?_⟩
    · rw [halloc]
      exact ⟨hf, hfirst, by simp⟩
    · rw [halloc] at hg ⊢
      simp [show g ≠ f from hg]
    · -- frame 0 is used, so that it is not the first clear one
      rw [halloc] at h0
      obtain rfl : f = 0 := h0
      exact absurd (hfirst.1.symm.trans h.zero) Bool.false_ne_true
  · refine ⟨fun hclear => ?_, fun g _ => by rw [halloc], fun _ => hall⟩
    obtain ⟨f, hf, hb⟩ := hclear
    exact absurd (hb.symm.trans (hall f hf)) Bool.false_ne_true

theorem inv_start : Inv start where
  zero := by simp [start]
  nused := by
    have hnone : countBits (fun _ => 0) 0 FRAMES = min FRAMES (0 - 0) :=
      countBits_below fun b => by simp [bit]
    have hone : start.nset = countBits (fun _ => 0) 0 FRAMES + 1 :=
      countBits_succ (c := 0) (by simp [bit]) (by simp [start])
        (fun b hb => by simp [start, hb]) (Nat.le_refl 0) (by decide)
    rw [hone, hnone]
    rfl

/-- **In every run** the counter is the number of set bits, and `page_frame_alloc` gives the least clear
frame away. -/
theorem reachable_sound (h : system.Reachable InRange s) : s.nused = s.nset ∧ AllocOk s := by
  have hinv : Inv s := h.invariant (fun _ h => h ▸ inv_start) fun s op s' hs hok hstep => by
    obtain rfl := Option.some.inj hstep
    exact hs.call hok
  exact ⟨hinv.nused, hinv.allocOk⟩

/-- The first state. -/
theorem reachable_sound_start : start.nused = start.nset ∧ AllocOk start :=
  reachable_sound (.of_init rfl)

/-! ## the set of frames -/

/-- The bitmap and the counter of the pages are these. -/
structure Shows (s : FrameMap) (p : Paging) : Prop where
  nused : p.nused = s.nused
  bitmap : p.bitmap = bit s.bitmap

theorem Shows.use (h : Shows s p) (id : Nat) : Shows (pageFrameUse id s) (Eclair.pageFrameUse id p) where
  nused := by simp [Eclair.pageFrameUse, pageFrameUse, h.nused, h.bitmap]
  bitmap := by
    funext f
    by_cases hf : f = id
    · simp [Eclair.pageFrameUse, hf]
    · simp [Eclair.pageFrameUse, hf, h.bitmap]

theorem Shows.free (h : Shows s p) (id : Nat) :
    Shows (pageFrameFree id s) (Eclair.pageFrameFree id p) where
  nused := by simp [Eclair.pageFrameFree, pageFrameFree, h.nused, h.bitmap]
  bitmap := by
    funext f
    by_cases hf : f = id
    · simp [Eclair.pageFrameFree, hf]
    · simp [Eclair.pageFrameFree, hf, h.bitmap]

theorem firstFree_eq_some {bitmap : Nat → Bool} {n i : Nat} (h : bitmap f = false) (hi : i ≤ f)
    (hn : f < i + n) (hbelow : ∀ b, i ≤ b → b < f → bitmap b = true) :
    firstFree bitmap n i = some f := by
  induction n generalizing i with
  | zero => omega
  | succ n ih =>
      rw [firstFree]
      by_cases hif : i = f
      · rw [hif, h]
        rfl
      · rw [hbelow i (Nat.le_refl i) (by omega), if_pos rfl]
        exact ih (by omega) (by omega) fun b hb => hbelow b (by omega)

theorem firstFree_eq_none {bitmap : Nat → Bool} {n i : Nat}
    (h : ∀ b, i ≤ b → b < i + n → bitmap b = true) : firstFree bitmap n i = none := by
  induction n generalizing i with
  | zero => rfl
  | succ n ih =>
      rw [firstFree, h i (Nat.le_refl i) (by omega), if_pos rfl]
      exact ih fun b hb hlt => h b (by omega) (by omega)

/-- **`page_frame_alloc`** on the bytes and on the set of frames. -/
theorem Shows.alloc (h : Shows s p) (who : FrameOwner) :
    s.pageFrameAlloc.1 = (Eclair.pageFrameAlloc who p).1 ∧
      Shows s.pageFrameAlloc.2 (Eclair.pageFrameAlloc who p).2 := by
  obtain ⟨f, hf, hfirst, halloc⟩ | ⟨hall, halloc⟩ := alloc_cases s
  · have hfree : firstFree p.bitmap (BITMAP_SIZE * 8) 0 = some f := by
      rw [h.bitmap]
      exact firstFree_eq_some hfirst.1 (Nat.zero_le f) (by simpa [FRAMES] using hf)
        fun b _ => hfirst.2 b
    have huse := h.use f
    rw [halloc, Eclair.pageFrameAlloc, hfree]
    exact ⟨rfl, huse.nused, huse.bitmap⟩
  · have hnone : firstFree p.bitmap (BITMAP_SIZE * 8) 0 = none := by
      rw [h.bitmap]
      exact firstFree_eq_none fun b _ hb => hall b (by simpa [FRAMES] using hb)
    rw [halloc, Eclair.pageFrameAlloc, hnone]
    exact ⟨rfl, h⟩

end FrameMap

end Eclair
