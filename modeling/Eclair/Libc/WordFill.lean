import Eclair.Basic
import Eclair.Lib.ByteMem

/-!
# Eclair.Libc.WordFill

`memcpy` and `memset` of the libc (`libc/string.c`), which go by words while
more than four bytes are left, and those of the kernel
(`kernel/util/string.c`), which go by bytes.

The word to fill with is made by a multiplication of the whole `int`, not of
its low byte: `wordwise_iff` says for which values it is right.
-/

namespace Eclair

open ByteMem

/-- An `int` as a `uint32_t`. -/
def intU32 (ch : Int) : Nat := (ch % 2 ^ 32).toNat

namespace LibcString

/-- The loop of `memcpy`. -/
def memcpyLoop (s1 s2 n : Nat) (m : ByteMem) : ByteMem :=
  if n = 0 then m
  else if n > 4 then memcpyLoop (s1 + 4) (s2 + 4) (n - 4) (setWord s1 (word m s2) m)
  else memcpyLoop (s1 + 1) (s2 + 1) (n - 1) (copy s1 s2 1 m)
termination_by n

/-- `memcpy`. -/
def memcpy (s1 s2 n : Nat) (m : ByteMem) : Nat × ByteMem := (s1, memcpyLoop s1 s2 n m)

/-- The loop of `memset`, with the word `d`. -/
def memsetLoop (d : Nat) (ch : Int) (dst cnt : Nat) (m : ByteMem) : ByteMem :=
  if cnt = 0 then m
  else if cnt > 4 then memsetLoop d ch (dst + 4) (cnt - 4) (setWord dst d m)
  else memsetLoop d ch (dst + 1) (cnt - 1) (fill dst (UInt8.ofInt ch) 1 m)
termination_by cnt

/-- `memset`. -/
def memset (dst : Nat) (ch : Int) (cnt : Nat) (m : ByteMem) : Nat × ByteMem :=
  (dst, memsetLoop (u32 (intU32 ch * 0x01010101)) ch dst cnt m)

end LibcString

namespace KernelString

/-- The loop of `memset`, with `cnt` bytes left from `i` on. -/
def memsetLoop (dst : Nat) (ch : Int) : Nat → Nat → ByteMem → ByteMem
  | _, 0, m => m
  | i, cnt + 1, m => memsetLoop dst ch (i + 1) cnt (fill (dst + i) (UInt8.ofInt ch) 1 m)

/-- `memset`; `NULL` is 0. -/
def memset (dst : Nat) (ch : Int) (cnt : Nat) (m : ByteMem) : Nat × ByteMem :=
  if dst = 0 then (0, m) else (dst, memsetLoop dst ch 0 cnt m)

/-- The loop of `memcpy`, with `cnt` bytes left from `i` on. -/
def memcpyLoop (dst src : Nat) : Nat → Nat → ByteMem → ByteMem
  | _, 0, m => m
  | i, cnt + 1, m => memcpyLoop dst src (i + 1) cnt (copy (dst + i) (src + i) 1 m)

/-- `memcpy`. -/
def memcpy (dst src cnt : Nat) (m : ByteMem) : Nat × ByteMem :=
  if dst = 0 then (0, m) else (dst, memcpyLoop dst src 0 cnt m)

end KernelString

/-- `n` bytes at `a` and `n` bytes at `b` do not overlap. -/
def Disjoint32 (a b n : Nat) : Prop := a + n ≤ b ∨ b + n ≤ a

variable {a b i n cnt d dst src : Nat} {ch : Int} {m : ByteMem}

/-! ## bytes -/

theorem kernel_memcpyLoop_eq (h : Disjoint32 (dst + i) (src + i) n) :
    KernelString.memcpyLoop dst src i n m = copy (dst + i) (src + i) n m := by
  simp only [Disjoint32] at h
  induction n generalizing i m with
  | zero =>
      funext x
      rw [copy_outside (by omega)]
      rfl
  | succ n ih =>
      rw [KernelString.memcpyLoop, ih (by omega), ← Nat.add_assoc, ← Nat.add_assoc, copy_add (by omega),
        Nat.add_comm 1 n]

theorem kernel_memsetLoop_eq :
    KernelString.memsetLoop dst ch i n m = fill (dst + i) (UInt8.ofInt ch) n m := by
  induction n generalizing i m with
  | zero =>
      funext x
      rw [fill_outside (by omega)]
      rfl
  | succ n ih => rw [KernelString.memsetLoop, ih, ← Nat.add_assoc, fill_add, Nat.add_comm 1 n]

/-! ## words -/

/-- Going by words copies the bytes. -/
theorem libc_memcpyLoop_eq (h : Disjoint32 a b n) : LibcString.memcpyLoop a b n m = copy a b n m := by
  simp only [Disjoint32] at h
  induction n using Nat.strongRecOn generalizing a b m with
  | ind n ih =>
      rw [LibcString.memcpyLoop]
      split_ifs with h0 h4
      · funext x
        rw [copy_outside (by omega)]
      · obtain ⟨k, rfl⟩ := Nat.exists_eq_add_of_le (Nat.le_of_lt h4)
        rw [setWord_word_eq_copy, Nat.add_sub_cancel_left, ih k (by omega) (by omega), copy_add (by omega)]
      · obtain ⟨k, rfl⟩ := Nat.exists_eq_add_of_le (Nat.pos_of_ne_zero h0)
        rw [Nat.succ_eq_add_one, Nat.zero_add, Nat.add_sub_cancel_left, ih k (by omega) (by omega),
          copy_add (by omega)]

/-- The word of the byte fills with the byte. -/
theorem memsetLoop_splat :
    LibcString.memsetLoop (splat (UInt8.ofInt ch)) ch dst cnt m = fill dst (UInt8.ofInt ch) cnt m := by
  induction cnt using Nat.strongRecOn generalizing dst m with
  | ind n ih =>
      rw [LibcString.memsetLoop]
      split_ifs with h0 h4
      · funext x
        rw [fill_outside (by omega)]
      · obtain ⟨k, rfl⟩ := Nat.exists_eq_add_of_le (Nat.le_of_lt h4)
        rw [setWord_splat, Nat.add_sub_cancel_left, ih k (by omega), fill_add]
      · obtain ⟨k, rfl⟩ := Nat.exists_eq_add_of_le (Nat.pos_of_ne_zero h0)
        rw [Nat.succ_eq_add_one, Nat.zero_add, Nat.add_sub_cancel_left, ih k (by omega), fill_add]

/-- Up to four bytes no word is filled. -/
theorem memsetLoop_short (h : cnt ≤ 4) :
    LibcString.memsetLoop d ch dst cnt m = fill dst (UInt8.ofInt ch) cnt m := by
  induction cnt generalizing dst m with
  | zero =>
      funext x
      rw [LibcString.memsetLoop, if_pos rfl, fill_outside (by omega)]
  | succ n ih =>
      rw [LibcString.memsetLoop, if_neg (by omega), if_neg (by omega), Nat.add_sub_cancel, ih (by omega),
        fill_add, Nat.add_comm 1 n]

theorem memsetLoop_before {x : Nat} (hx : x < dst) : LibcString.memsetLoop d ch dst cnt m x = m x := by
  induction cnt using Nat.strongRecOn generalizing dst m with
  | ind n ih =>
      rw [LibcString.memsetLoop]
      split_ifs with h0 h4
      · rfl
      · rw [ih (n - 4) (by omega) (by omega), setWord_outside (by omega)]
      · rw [ih (n - 1) (by omega) (by omega), fill_outside (by omega)]

/-- The first word that is filled stays. -/
theorem word_memsetLoop (hd : d < 2 ^ 32) (h : 4 < cnt) :
    word (LibcString.memsetLoop d ch dst cnt m) dst = d := by
  rw [LibcString.memsetLoop, if_neg (by omega), if_pos h]
  have hword : word (setWord dst d m) dst = d := word_setWord hd
  refine Eq.trans (word_congr fun i hi => ?_) hword
  exact memsetLoop_before (by omega)

theorem word_fill {c : UInt8} (h : 4 < cnt) : word (fill dst c cnt m) dst = splat c := by
  rw [← word_setWord splat_lt (a := dst) (m := m), setWord_splat]
  refine word_congr fun i hi => ?_
  rw [fill, write_inside (by omega), fill, write_inside hi]

/-- The multiplication makes the word of the low byte of no value but the bytes. -/
theorem splat_iff (h1 : -2 ^ 31 ≤ ch) (h2 : ch < 2 ^ 31) :
    u32 (intU32 ch * 0x01010101) = splat (UInt8.ofInt ch) ↔ 0 ≤ ch ∧ ch < 256 := by
  have hlow : (UInt8.ofInt ch).toNat = intU32 ch % 256 := by
    rw [UInt8.ofInt, UInt8.toNat_ofNat', intU32]
    omega
  have hbyte : intU32 ch < 256 ↔ 0 ≤ ch ∧ ch < 256 := by
    rw [intU32]
    omega
  have hlt : intU32 ch < 2 ^ 32 := by
    rw [intU32]
    omega
  rw [splat, hlow, u32, ← hbyte]
  generalize intU32 ch = v at *
  -- 0x01010101 is odd, so that the upper bytes do not vanish
  constructor
  · omega
  · intro h
    rw [Nat.mod_eq_of_lt h]
    exact Nat.mod_eq_of_lt (by omega)

/-! ## both -/

/-- `memcpy` copies the bytes, as that of the kernel does. -/
structure MemcpyRight (m : ByteMem) (s1 s2 n : Nat) : Prop where
  bytes : LibcString.memcpy s1 s2 n m = (s1, copy s1 s2 n m)
  kernel : s1 ≠ 0 → KernelString.memcpy s1 s2 n m = LibcString.memcpy s1 s2 n m

/-- `memset` fills with the byte, as that of the kernel does. -/
structure MemsetRight (m : ByteMem) (dst : Nat) (ch : Int) (cnt : Nat) : Prop where
  bytes : LibcString.memset dst ch cnt m = (dst, fill dst (UInt8.ofInt ch) cnt m)
  kernel : dst ≠ 0 → KernelString.memset dst ch cnt m = LibcString.memset dst ch cnt m

theorem memcpyRight {s1 s2 : Nat} (h : Disjoint32 s1 s2 n) : MemcpyRight m s1 s2 n := by
  have hbytes : LibcString.memcpy s1 s2 n m = (s1, copy s1 s2 n m) := by
    rw [LibcString.memcpy, libc_memcpyLoop_eq h]
  refine ⟨hbytes, fun h0 => ?_⟩
  rw [hbytes, KernelString.memcpy, if_neg h0,
    kernel_memcpyLoop_eq (i := 0) (by rwa [Nat.add_zero, Nat.add_zero]), Nat.add_zero, Nat.add_zero]

theorem memsetRight_iff (h1 : -2 ^ 31 ≤ ch) (h2 : ch < 2 ^ 31) :
    MemsetRight m dst ch cnt ↔ cnt ≤ 4 ∨ 0 ≤ ch ∧ ch < 256 := by
  have hkernel : LibcString.memset dst ch cnt m = (dst, fill dst (UInt8.ofInt ch) cnt m) →
      MemsetRight m dst ch cnt := by
    refine fun hbytes => ⟨hbytes, fun h0 => ?_⟩
    rw [hbytes, KernelString.memset, if_neg h0, kernel_memsetLoop_eq, Nat.add_zero]
  constructor
  · intro h
    by_cases hcnt : cnt ≤ 4
    · exact .inl hcnt
    · refine .inr ((splat_iff h1 h2).mp ?_)
      have hmem := (Prod.mk.inj h.bytes).2
      rw [← word_memsetLoop (u32_lt _) (Nat.not_le.mp hcnt), hmem, word_fill (Nat.not_le.mp hcnt)]
  · rintro (hcnt | hbyte)
    · exact hkernel (by rw [LibcString.memset, memsetLoop_short hcnt])
    · exact hkernel (by rw [LibcString.memset, (splat_iff h1 h2).mpr hbyte, memsetLoop_splat])

/-- **Going by words is going by bytes**: always for `memcpy`, and for `memset` exactly if at most
four bytes are filled or the `int` is the value of a byte. -/
theorem wordwise_iff (m : ByteMem) (cnt : Nat) :
    (∀ s1 s2, Disjoint32 s1 s2 cnt → MemcpyRight m s1 s2 cnt) ∧
    ∀ dst ch, -2 ^ 31 ≤ ch → ch < 2 ^ 31 →
      (MemsetRight m dst ch cnt ↔ cnt ≤ 4 ∨ 0 ≤ ch ∧ ch < 256) :=
  ⟨fun _ _ h => memcpyRight h, fun _ _ h1 h2 => memsetRight_iff h1 h2⟩

theorem wordwise_iff_example :
    MemcpyRight (fun _ => 0) 8 16 7 ∧ MemsetRight (fun _ => 0) 8 255 7 := by
  obtain ⟨hcpy, hset⟩ := wordwise_iff (fun _ => 0) 7
  exact ⟨hcpy 8 16 (.inl (by decide)), (hset 8 255 (by decide) (by decide)).mpr (.inr (by decide))⟩

/-- Five bytes filled with -1: the word is `0xfefefeff`. -/
theorem not_wordwise : ¬MemsetRight (fun _ => 0) 8 (-1) 5 := by
  rw [memsetRight_iff (by decide) (by decide)]
  decide

end Eclair
