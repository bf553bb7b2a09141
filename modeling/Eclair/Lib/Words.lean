import Eclair.Lib.ByteMem

/-!
# Eclair.Lib.Words

Lists of bytes that begin with 32-bit little-endian words.

`Words.all ws` is what a structure of words looks like in memory.  Read back
by `ByteMem.word`, each word is found at four times its index, wherever the
structure stands and whatever follows it.
-/

namespace Words

variable {ws : List Nat} {pre rest b : List UInt8} {v k off : Nat}

/-- The four bytes of a word. -/
def bytes (v : Nat) : List UInt8 := (List.range 4).map fun i => UInt8.ofNat (v / 256 ^ i)

/-- The bytes of a list of words. -/
def all (ws : List Nat) : List UInt8 := ws.flatMap bytes

/-- The word at an offset. -/
def wordAt (b : List UInt8) (off : Nat) : Nat := ByteMem.word (fun i => b.getD i 0) off

@[simp] theorem length_bytes : (bytes v).length = 4 := rfl

theorem all_cons : all (v :: ws) = bytes v ++ all ws := rfl

theorem all_append {ws' : List Nat} : all (ws ++ ws') = all ws ++ all ws' := List.flatMap_append

@[simp] theorem length_all : (all ws).length = 4 * ws.length := by
  induction ws with
  | nil => rfl
  | cons v ws ih =>
      rw [all_cons, List.length_append, length_bytes, ih, List.length_cons]
      omega

/-- What stands before makes the offsets larger. -/
theorem wordAt_append (h : off = pre.length + k) : wordAt (pre ++ b) off = wordAt b k := by
  refine ByteMem.word_congr fun i _ => ?_
  have hplace : off + i - pre.length = k + i := by omega
  rw [List.getD_eq_getElem?_getD, List.getElem?_append_right (by omega), hplace,
    List.getD_eq_getElem?_getD]

/-- The first word. -/
theorem wordAt_bytes (v : Nat) (rest : List UInt8) : wordAt (bytes v ++ rest) 0 = v % 2 ^ 32 := by
  have hword : wordAt (bytes v ++ rest) 0 =
      v % 256 + 256 * (v / 256 % 256) + 65536 * (v / 65536 % 256) + 16777216 * (v / 16777216 % 256) := by
    simp [wordAt, ByteMem.word, bytes, List.range_succ]
  rw [hword]
  omega

/-- **Each word is found** at its place. -/
theorem wordAt_all (hk : k < ws.length) :
    wordAt (all ws ++ rest) (4 * k) = ws.getD k 0 % 2 ^ 32 := by
  induction ws generalizing k with
  | nil => exact absurd hk (Nat.not_lt_zero k)
  | cons v ws ih =>
      rw [all_cons, List.append_assoc]
      cases k with
      | zero => exact wordAt_bytes v _
      | succ k =>
          have hplace : 4 * (k + 1) = (bytes v).length + 4 * k := by
            rw [length_bytes]
            omega
          rw [wordAt_append hplace, ih (Nat.lt_of_succ_lt_succ hk)]
          rfl

end Words
