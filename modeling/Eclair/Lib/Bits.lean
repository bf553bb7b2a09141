import Mathlib.Data.Finset.Card
import Mathlib.Order.Interval.Finset.Nat
import Eclair.Lib.ByteMem

/-!
# Eclair.Lib.Bits

Bitmaps in byte memory: bit `b` is bit `b % 8` of byte `b / 8`.

Setting and clearing one bit, counting the set bits of a range, and finding
the first clear bit by a scan over bytes and the bits of each.
-/

namespace ByteMem

variable {m m' : ByteMem} {b c i j n lo : Nat}

/-- Bit `b` of a bitmap. -/
def bit (m : ByteMem) (b : Nat) : Bool := (m (b / 8)).toNat.testBit (b % 8)

/-- `m[i] |= 1 << j`. -/
def orBit (i j : Nat) (m : ByteMem) : ByteMem :=
  fun x => if x = i then m i ||| (1 <<< UInt8.ofNat j) else m x

/-- `m[i] &= ~(1 << j)`. -/
def clearBit (i j : Nat) (m : ByteMem) : ByteMem :=
  fun x => if x = i then m i &&& ~~~(1 <<< UInt8.ofNat j) else m x

theorem toNat_shift (hj : j < 8) : ((1 : UInt8) <<< UInt8.ofNat j).toNat = 2 ^ j := by
  revert j
  decide

theorem testBit_mask : ∀ j, j < 8 → ∀ k, k < 8 →
    (~~~((1 : UInt8) <<< UInt8.ofNat j)).toNat.testBit k = decide (k ≠ j) := by
  decide

theorem bit_orBit (hj : j < 8) : bit (orBit i j m) b = (decide (b = 8 * i + j) || bit m b) := by
  rw [bit, orBit, bit]
  by_cases hi : b / 8 = i
  · rw [if_pos hi, UInt8.toNat_or, toNat_shift hj, Nat.testBit_or, Nat.testBit_two_pow, hi,
      Bool.or_comm]
    congr 1
    exact decide_eq_decide.mpr (by omega)
  · rw [if_neg hi, decide_eq_false (by omega), Bool.false_or]

theorem bit_clearBit (hj : j < 8) :
    bit (clearBit i j m) b = (decide (b ≠ 8 * i + j) && bit m b) := by
  rw [bit, clearBit, bit]
  by_cases hi : b / 8 = i
  · rw [if_pos hi, UInt8.toNat_and, Nat.testBit_and, testBit_mask j hj _ (Nat.mod_lt _ (by decide)),
      hi, Bool.and_comm]
    congr 1
    exact decide_eq_decide.mpr (by omega)
  · rw [if_neg hi, decide_eq_true (by omega), Bool.true_and]

/-- Bitmaps with the same bits are the same. -/
theorem ext_bit (h : ∀ b, bit m b = bit m' b) : m = m' := by
  funext x
  apply UInt8.toNat_inj.mp
  apply Nat.eq_of_testBit_eq
  intro k
  by_cases hk : k < 8
  · have hb := h (8 * x + k)
    rw [bit, bit, show (8 * x + k) / 8 = x by omega, show (8 * x + k) % 8 = k by omega] at hb
    exact hb
  · have hpow : 2 ^ 8 ≤ 2 ^ k := Nat.pow_le_pow_right (by decide) (by omega)
    have h1 : (m x).toNat < 2 ^ 8 := (m x).toNat_lt
    have h2 : (m' x).toNat < 2 ^ 8 := (m' x).toNat_lt
    rw [Nat.testBit_lt_two_pow (by omega), Nat.testBit_lt_two_pow (by omega)]

/-- Clearing a bit that was just set. -/
theorem clearBit_orBit (hj : j < 8) (h : bit m (8 * i + j) = false) :
    clearBit i j (orBit i j m) = m := by
  apply ext_bit
  intro b
  rw [bit_clearBit hj, bit_orBit hj]
  by_cases hb : b = 8 * i + j
  · rw [hb, h]
    simp
  · simp [hb]

/-! ## counting -/

/-- The number of set bits among the `n` from `lo` on. -/
def countBits (m : ByteMem) (lo n : Nat) : Nat :=
  ((Finset.Ico lo (lo + n)).filter fun b => bit m b = true).card

theorem countBits_congr (h : ∀ b, lo ≤ b → b < lo + n → bit m' b = bit m b) :
    countBits m' lo n = countBits m lo n := by
  rw [countBits, countBits]
  congr 1
  refine Finset.filter_congr fun b hb => ?_
  obtain ⟨h1, h2⟩ := Finset.mem_Ico.mp hb
  rw [h b h1 h2]

/-- One bit more. -/
theorem countBits_succ (hc : bit m c = false) (hc' : bit m' c = true)
    (h : ∀ b, b ≠ c → bit m' b = bit m b) (hlo : lo ≤ c) (hhi : c < lo + n) :
    countBits m' lo n = countBits m lo n + 1 := by
  have hins : (Finset.Ico lo (lo + n)).filter (fun b => bit m' b = true) =
      insert c ((Finset.Ico lo (lo + n)).filter fun b => bit m b = true) := by
    ext b
    simp only [Finset.mem_filter, Finset.mem_insert, Finset.mem_Ico]
    by_cases hb : b = c
    · simp [hb, hc', hlo, hhi]
    · simp [hb, h b hb]
  rw [countBits, countBits, hins, Finset.card_insert_of_notMem]
  simp [hc]

/-- A range counts no more than one that contains it. -/
theorem countBits_mono {lo' n' : Nat} (hlo : lo' ≤ lo) (hhi : lo + n ≤ lo' + n') :
    countBits m lo n ≤ countBits m lo' n' :=
  Finset.card_le_card (Finset.filter_subset_filter _ (Finset.Ico_subset_Ico hlo hhi))

/-- All bits of a range are set. -/
theorem countBits_full (h : ∀ b, lo ≤ b → b < lo + n → bit m b = true) : countBits m lo n = n := by
  rw [countBits, Finset.filter_true_of_mem, Nat.card_Ico, Nat.add_sub_cancel_left]
  intro b hb
  exact h b (Finset.mem_Ico.mp hb).1 (Finset.mem_Ico.mp hb).2

/-- The bits below `c` are set and no others. -/
theorem countBits_below (h : ∀ b, bit m b = decide (b < c)) :
    countBits m lo n = min n (c - lo) := by
  have hico : (Finset.Ico lo (lo + n)).filter (fun b => bit m b = true) =
      Finset.Ico lo (min (lo + n) c) := by
    ext b
    rw [Finset.mem_filter, Finset.mem_Ico, Finset.mem_Ico, h, decide_eq_true_eq, lt_min_iff]
    exact and_assoc
  rw [countBits, hico, Nat.card_Ico]
  omega

/-- The bitmap of the bits below `n`. -/
def lowBits (n : Nat) : ByteMem := fun x => UInt8.ofNat (2 ^ min 8 (n - 8 * x) - 1)

theorem bit_lowBits : bit (lowBits n) b = decide (b < n) := by
  have hle : 2 ^ min 8 (n - 8 * (b / 8)) ≤ 2 ^ 8 := Nat.pow_le_pow_right (by decide) (Nat.min_le_left _ _)
  have hpos := Nat.two_pow_pos (min 8 (n - 8 * (b / 8)))
  rw [bit, lowBits, UInt8.toNat_ofNat', Nat.mod_eq_of_lt (by omega), Nat.testBit_two_pow_sub_one]
  exact decide_eq_decide.mpr (by omega)

/-! ## the first clear bit -/

/-- All bits below `c` are set and `c` is not. -/
def FirstClear (m : ByteMem) (c : Nat) : Prop := bit m c = false ∧ ∀ b, b < c → bit m b = true

/-- The first clear one of the `n` bits of a byte from `j` on. -/
def scanBits (x : UInt8) : Nat → Nat → Option Nat
  | 0, _ => none
  | n + 1, j => if x.toNat.testBit j then scanBits x n (j + 1) else some j

/-- The first of `n` bytes from `i` on that has a clear bit, and the bit. -/
def scanBytes (m : ByteMem) : Nat → Nat → Option (Nat × Nat)
  | 0, _ => none
  | n + 1, i =>
      match scanBits (m i) 8 0 with
      | some j => some (i, j)
      | none => scanBytes m n (i + 1)

theorem scanBits_some {x : UInt8} (h : scanBits x n lo = some j) :
    lo ≤ j ∧ j < lo + n ∧ x.toNat.testBit j = false ∧
      ∀ k, lo ≤ k → k < j → x.toNat.testBit k = true := by
  induction n generalizing lo with
  | zero => cases h
  | succ n ih =>
      rw [scanBits] at h
      split at h
      · next hbit =>
          obtain ⟨h1, h2, h3, h4⟩ := ih h
          refine ⟨by omega, by omega, h3, fun k hk1 hk2 => ?_⟩
          by_cases hk : k = lo
          · rw [hk]
            exact hbit
          · exact h4 k (by omega) hk2
      · next hbit =>
          cases h
          exact ⟨Nat.le_refl _, by omega, by simpa using hbit, fun k hk1 hk2 => by omega⟩

theorem scanBits_none {x : UInt8} (h : scanBits x n lo = none) {k : Nat} (hk1 : lo ≤ k)
    (hk2 : k < lo + n) : x.toNat.testBit k = true := by
  induction n generalizing lo with
  | zero => omega
  | succ n ih =>
      rw [scanBits] at h
      split at h
      · next hbit =>
          by_cases hk : k = lo
          · rw [hk]
            exact hbit
          · exact ih h (by omega) (by omega)
      · cases h

/-- The bit that the scan finds is clear, and all before it are set. -/
theorem scanBytes_some (h : scanBytes m n lo = some (i, j)) :
    lo ≤ i ∧ i < lo + n ∧ j < 8 ∧ bit m (8 * i + j) = false ∧
      ∀ b, 8 * lo ≤ b → b < 8 * i + j → bit m b = true := by
  induction n generalizing lo with
  | zero => cases h
  | succ n ih =>
      rw [scanBytes] at h
      cases hs : scanBits (m lo) 8 0 with
      | some k =>
          rw [hs] at h
          cases h
          obtain ⟨-, h2, h3, h4⟩ := scanBits_some hs
          refine ⟨Nat.le_refl _, by omega, by omega, ?_, fun b hb1 hb2 => ?_⟩
          · rw [bit, show (8 * i + j) / 8 = i by omega, show (8 * i + j) % 8 = j by omega]
            exact h3
          · rw [bit, show b / 8 = i by omega]
            exact h4 _ (Nat.zero_le _) (by omega)
      | none =>
          rw [hs] at h
          obtain ⟨h1, h2, h3, h4, h5⟩ := ih h
          refine ⟨by omega, by omega, h3, h4, fun b hb1 hb2 => ?_⟩
          by_cases hb : b / 8 = lo
          · rw [bit, hb]
            exact scanBits_none hs (Nat.zero_le _) (by omega)
          · exact h5 b (by omega) hb2

/-- If the scan finds nothing all bits are set. -/
theorem scanBytes_none (h : scanBytes m n lo = none) (hb1 : 8 * lo ≤ b) (hb2 : b < 8 * (lo + n)) :
    bit m b = true := by
  induction n generalizing lo with
  | zero => omega
  | succ n ih =>
      rw [scanBytes] at h
      cases hs : scanBits (m lo) 8 0 with
      | some k =>
          rw [hs] at h
          cases h
      | none =>
          rw [hs] at h
          by_cases hb : b / 8 = lo
          · rw [bit, hb]
            exact scanBits_none hs (Nat.zero_le _) (by omega)
          · exact ih h (by omega) (by omega)

/-- The scan of the whole bitmap finds the first clear bit. -/
theorem scanBytes_firstClear (h : FirstClear m c) (hc : c < 8 * n) :
    scanBytes m n 0 = some (c / 8, c % 8) := by
  cases hs : scanBytes m n 0 with
  | none =>
      have hset := scanBytes_none hs (Nat.zero_le c) (by omega)
      rw [h.1] at hset
      cases hset
  | some p =>
      obtain ⟨i, j⟩ := p
      obtain ⟨-, -, hj, hclear, hbelow⟩ := scanBytes_some hs
      have hle : ¬ c < 8 * i + j := by
        intro hlt
        have hset := hbelow c (Nat.zero_le c) hlt
        rw [h.1] at hset
        cases hset
      have hge : ¬ 8 * i + j < c := by
        intro hlt
        rw [h.2 _ hlt] at hclear
        cases hclear
      rw [show c / 8 = i by omega, show c % 8 = j by omega]

end ByteMem
