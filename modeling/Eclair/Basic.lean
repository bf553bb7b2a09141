import Mathlib.Algebra.Ring.Int.Defs
import Mathlib.Algebra.Ring.Nat

/-!
# Eclair.Basic

Pointers, bytes, error numbers and the alignment macro, as the headers
`kernel/types.h` and `errno.h` give them.

A pointer is its address or an opaque number; `NULL` is `none`.  Unsigned
C integers are natural numbers, reduced by `u32` or `u64` wherever the code
can carry past their width.
-/

namespace Eclair

/-- `task_t *`. -/
abbrev TaskPtr := Nat

/-- `fs_node_t *`. -/
abbrev NodePtr := Nat

/-- A string or a buffer of bytes. -/
abbrev Bytes := List UInt8

/-- `uint32_t` arithmetic. -/
def u32 (n : Nat) : Nat := n % 2 ^ 32

/-- `uint32_t` subtraction. -/
def sub32 (a b : Nat) : Nat := u32 (a + 2 ^ 32 - u32 b)

/-- `uint64_t` arithmetic. -/
def u64 (n : Nat) : Nat := n % 2 ^ 64

theorem u32_of_lt {n : Nat} (h : n < 2 ^ 32) : u32 n = n := Nat.mod_eq_of_lt h

theorem sub32_of_le {a b : Nat} (h : b ≤ a) (ha : a < 2 ^ 32) : sub32 a b = a - b := by
  have hb : u32 b = b := u32_of_lt (by omega)
  rw [sub32, hb, u32]
  omega

theorem u32_lt (n : Nat) : u32 n < 2 ^ 32 := Nat.mod_lt _ (by decide)

theorem sub32_lt (a b : Nat) : sub32 a b < 2 ^ 32 := u32_lt _

/-- `ALIGN(x, sz)` for a power of two `sz`: clearing the low bits of
`x + (sz-1)` is rounding it down to a multiple of `sz`. -/
def align (x sz : Nat) : Nat := u32 (x + (sz - 1)) / sz * sz

theorem align_of_lt {x sz : Nat} (h : x + (sz - 1) < 2 ^ 32) :
    align x sz = (x + (sz - 1)) / sz * sz := by
  rw [align, u32_of_lt h]

theorem le_align {x sz : Nat} (hs : 0 < sz) (h : x + (sz - 1) < 2 ^ 32) : x ≤ align x sz := by
  rw [align_of_lt h]
  have h1 := Nat.div_add_mod (x + (sz - 1)) sz
  have h2 := Nat.mod_lt (x + (sz - 1)) hs
  rw [Nat.mul_comm] at h1
  omega

theorem align_le {x sz : Nat} (h : x + (sz - 1) < 2 ^ 32) : align x sz ≤ x + (sz - 1) := by
  rw [align_of_lt h]
  exact Nat.div_mul_le_self _ _

theorem dvd_align (x sz : Nat) : sz ∣ align x sz := Nat.dvd_mul_left _ _

/-- Fuel for a loop over structures that lie at different addresses: it
visits each address at most once. -/
def FUEL : Nat := 2 ^ 32

/-- The number of task slots, and of page directories for them. -/
def NTASKS : Nat := 128

/-! ## `errno.h` -/

def EPERM : Int := 1
def ENOENT : Int := 2
def EINTR : Int := 4
def EBADF : Int := 9
def EAGAIN : Int := 11
def EACCES : Int := 13
def EINVAL : Int := 22
def EMFILE : Int := 24
def ENOSYS : Int := 38
def ENOBUFS : Int := 105

end Eclair
