import Mathlib.Algebra.Ring.Nat
import Mathlib.Tactic.SplitIfs

/-!
# Eclair.Lib.ByteMem

Memory as bytes at addresses, and 32-bit little-endian words in it.

`write a n f m` puts `n` bytes at `a`; copying, filling and storing a word
are cases of it, so one lemma says what each of them leaves alone.
-/

/-- Memory: a byte at each address. -/
abbrev ByteMem := Nat → UInt8

namespace ByteMem

variable {m m' : ByteMem} {f g : Nat → UInt8} {a b n v x : Nat}

/-- `n` bytes at `a`. -/
def write (a n : Nat) (f : Nat → UInt8) (m : ByteMem) : ByteMem :=
  fun x => if a ≤ x ∧ x < a + n then f (x - a) else m x

/-- `memcpy(a, b, n)`. -/
def copy (a b n : Nat) (m : ByteMem) : ByteMem := write a n (fun i => m (b + i)) m

/-- `memset(a, c, n)`. -/
def fill (a : Nat) (c : UInt8) (n : Nat) (m : ByteMem) : ByteMem := write a n (fun _ => c) m

/-- The word at `a`. -/
def word (m : ByteMem) (a : Nat) : Nat :=
  (m a).toNat + 256 * (m (a + 1)).toNat + 65536 * (m (a + 2)).toNat + 16777216 * (m (a + 3)).toNat

/-- Store a word at `a`. -/
def setWord (a v : Nat) (m : ByteMem) : ByteMem := write a 4 (fun i => UInt8.ofNat (v / 256 ^ i)) m

theorem write_inside (h : x < n) : write a n f m (a + x) = f x := by
  rw [write, if_pos (by omega), Nat.add_sub_cancel_left]

theorem write_outside (h : ¬ (a ≤ x ∧ x < a + n)) : write a n f m x = m x := if_neg h

theorem copy_outside (h : ¬ (a ≤ x ∧ x < a + n)) : copy a b n m x = m x := if_neg h

theorem setWord_outside (h : ¬ (a ≤ x ∧ x < a + 4)) : setWord a v m x = m x := if_neg h

theorem word_lt : word m a < 2 ^ 32 := by
  have h0 := (m a).toNat_lt
  have h1 := (m (a + 1)).toNat_lt
  have h2 := (m (a + 2)).toNat_lt
  have h3 := (m (a + 3)).toNat_lt
  rw [word]
  omega

/-- A word depends on its four bytes. -/
theorem word_congr (h : ∀ i, i < 4 → m' (b + i) = m (a + i)) : word m' b = word m a := by
  have h0 := h 0 (by decide)
  rw [Nat.add_zero, Nat.add_zero] at h0
  rw [word, word, h0, h 1 (by decide), h 2 (by decide), h 3 (by decide)]

theorem word_setWord (hv : v < 2 ^ 32) : word (setWord a v m) a = v := by
  have hb : ∀ i, i < 4 → (setWord a v m (a + i)).toNat = v / 256 ^ i % 256 := by
    intro i hi
    rw [setWord, write_inside hi, UInt8.toNat_ofNat']
  have h0 := hb 0 (by decide)
  have h1 := hb 1 (by decide)
  have h2 := hb 2 (by decide)
  have h3 := hb 3 (by decide)
  rw [Nat.add_zero] at h0
  rw [word, h0, h1, h2, h3]
  omega

/-- Other words stay. -/
theorem word_setWord_of_apart (h : b + 4 ≤ a ∨ a + 4 ≤ b) : word (setWord a v m) b = word m b :=
  word_congr fun i hi => setWord_outside (by omega)

/-- The last word stored is the one that stays. -/
theorem setWord_setWord : setWord a v (setWord a n m) = setWord a v m := by
  funext x
  by_cases hx : a ≤ x ∧ x < a + 4
  · obtain ⟨k, rfl⟩ := Nat.exists_eq_add_of_le hx.1
    rw [setWord, write_inside (by omega), setWord, write_inside (by omega)]
  · rw [setWord_outside hx, setWord_outside hx, setWord_outside hx]

/-- Storing the word that is there. -/
theorem setWord_word : setWord a (word m a) m = m := by
  funext x
  by_cases hx : a ≤ x ∧ x < a + 4
  · obtain ⟨k, rfl⟩ := Nat.exists_eq_add_of_le hx.1
    have hk : k = 0 ∨ k = 1 ∨ k = 2 ∨ k = 3 := by omega
    have h0 := (m a).toNat_lt
    have h1 := (m (a + 1)).toNat_lt
    have h2 := (m (a + 2)).toNat_lt
    have h3 := (m (a + 3)).toNat_lt
    rw [setWord, write_inside (by omega)]
    apply UInt8.toNat_inj.mp
    rw [UInt8.toNat_ofNat', word]
    obtain rfl | rfl | rfl | rfl := hk
    · simp only [Nat.add_zero]
      omega
    all_goals omega
  · exact setWord_outside hx

/-! ## in parts -/

/-- A copy in two parts, where no byte is read that was written. -/
theorem copy_add {k : Nat} (h : a + (k + n) ≤ b ∨ b + (k + n) ≤ a) :
    copy (a + k) (b + k) n (copy a b k m) = copy a b (k + n) m := by
  funext x
  by_cases hx : a ≤ x ∧ x < a + (k + n)
  · obtain ⟨i, rfl⟩ := Nat.exists_eq_add_of_le hx.1
    have hin : copy a b (k + n) m (a + i) = m (b + i) := write_inside (by omega)
    rw [hin]
    by_cases hi : i < k
    · rw [copy_outside (by omega)]
      exact write_inside hi
    · obtain ⟨j, rfl⟩ := Nat.exists_eq_add_of_le (Nat.not_lt.mp hi)
      have hsecond : copy (a + k) (b + k) n (copy a b k m) (a + k + j) = copy a b k m (b + k + j) :=
        write_inside (by omega)
      rw [← Nat.add_assoc, hsecond, copy_outside (by omega), Nat.add_assoc]
  · rw [copy_outside (by omega), copy_outside (by omega), copy_outside (by omega)]

theorem fill_outside {c : UInt8} (h : ¬ (a ≤ x ∧ x < a + n)) : fill a c n m x = m x := if_neg h

/-- Filling in two parts. -/
theorem fill_add {c : UInt8} {k : Nat} : fill (a + k) c n (fill a c k m) = fill a c (k + n) m := by
  funext x
  simp only [fill, write]
  split_ifs <;> first | rfl | omega

/-- A word that is copied is four bytes. -/
theorem setWord_word_eq_copy : setWord a (word m b) m = copy a b 4 m := by
  funext x
  by_cases hx : a ≤ x ∧ x < a + 4
  · obtain ⟨k, rfl⟩ := Nat.exists_eq_add_of_le hx.1
    have hk : k = 0 ∨ k = 1 ∨ k = 2 ∨ k = 3 := by omega
    have h0 := (m b).toNat_lt
    have h1 := (m (b + 1)).toNat_lt
    have h2 := (m (b + 2)).toNat_lt
    have h3 := (m (b + 3)).toNat_lt
    rw [setWord, write_inside (by omega), copy, write_inside (by omega)]
    apply UInt8.toNat_inj.mp
    rw [UInt8.toNat_ofNat', word]
    obtain rfl | rfl | rfl | rfl := hk
    · simp only [Nat.add_zero]
      omega
    all_goals omega
  · rw [setWord_outside hx, copy_outside hx]

/-- The word of four times the same byte. -/
def splat (c : UInt8) : Nat := c.toNat * 0x01010101

theorem setWord_splat {c : UInt8} : setWord a (splat c) m = fill a c 4 m := by
  funext x
  by_cases hx : a ≤ x ∧ x < a + 4
  · obtain ⟨k, rfl⟩ := Nat.exists_eq_add_of_le hx.1
    have hk : k = 0 ∨ k = 1 ∨ k = 2 ∨ k = 3 := by omega
    have hc := c.toNat_lt
    rw [setWord, write_inside (by omega), fill, write_inside (by omega)]
    apply UInt8.toNat_inj.mp
    rw [UInt8.toNat_ofNat', splat]
    have h1 : c.toNat * 0x01010101 / 256 = c.toNat * 0x010101 := by omega
    have h2 : c.toNat * 0x01010101 / 65536 = c.toNat * 0x0101 := by omega
    have h3 : c.toNat * 0x01010101 / 16777216 = c.toNat := by omega
    obtain rfl | rfl | rfl | rfl := hk
    all_goals simp only [Nat.reducePow, Nat.div_one, h1, h2, h3]
    all_goals omega
  · rw [setWord_outside hx, fill_outside hx]

theorem splat_lt {c : UInt8} : splat c < 2 ^ 32 := by
  have hc := c.toNat_lt
  rw [splat]
  omega

end ByteMem
