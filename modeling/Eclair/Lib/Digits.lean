import Mathlib.Algebra.Ring.Nat

/-!
# Eclair.Lib.Digits

Numbers as text, in a base of at most 16.

`numeral` writes the digits of a number, and `foldl_numeral` says that a loop
over these characters that takes each digit in reads the number back.
-/

namespace Digits

variable {base v d : Nat} {upper : Bool} {b : UInt8}

/-- The byte of a digit character. -/
def byteOf (upper : Bool) (c : Char) : UInt8 := UInt8.ofNat (if upper then c.toUpper else c).toNat

/-- The byte of a digit. -/
def digit (upper : Bool) (d : Nat) : UInt8 := byteOf upper d.digitChar

/-- The digits of a number. -/
def numeral (base : Nat) (upper : Bool) (v : Nat) : List UInt8 :=
  (Nat.toDigits base v).map (byteOf upper)

theorem numeral_ne_nil : numeral base upper v ≠ [] :=
  fun h => Nat.toDigits_ne_nil (List.map_eq_nil_iff.mp h)

/-- The last digit. -/
theorem numeral_eq (h : 1 < base) : numeral base upper v =
    if v < base then [digit upper v] else numeral base upper (v / base) ++ [digit upper (v % base)] := by
  rw [numeral, Nat.toDigits_eq_if h, apply_ite (List.map (byteOf upper)), List.map_append]
  rfl

/-- Along the digits of a number, from the last to the first. -/
theorem numeral_induction (h : 1 < base) {motive : Nat → Prop} (last : ∀ d < base, motive d)
    (more : ∀ v, base ≤ v → motive (v / base) → motive v) (v : Nat) : motive v := by
  induction v using Nat.strongRecOn with
  | ind v ih =>
      by_cases hv : v < base
      · exact last v hv
      · exact more v (Nat.le_of_not_lt hv) (ih (v / base) (Nat.div_lt_self (by omega) h))

theorem mem_numeral (h : 1 < base) (hb : b ∈ numeral base upper v) :
    ∃ d < base, b = digit upper d := by
  induction v using numeral_induction h with
  | last v hv =>
      rw [numeral_eq h, if_pos hv] at hb
      exact ⟨v, hv, List.mem_singleton.mp hb⟩
  | more v hv ih =>
      rw [numeral_eq h, if_neg (Nat.not_lt.mpr hv)] at hb
      obtain hb | hb := List.mem_append.mp hb
      · exact ih hb
      · exact ⟨v % base, Nat.mod_lt v (by omega), List.mem_singleton.mp hb⟩

/-- A byte that is no digit. -/
theorem not_mem_numeral (h : 1 < base) (hb : ∀ d < base, digit upper d ≠ b) :
    b ∉ numeral base upper v := by
  intro hmem
  obtain ⟨d, hd, rfl⟩ := mem_numeral h hmem
  exact hb d hd rfl

/-- **A number is read back** by a loop that takes in each digit, as long as the value so far is not
above it. -/
theorem foldl_numeral (h : 1 < base) {step : Nat → UInt8 → Nat}
    (hstep : ∀ n d, d < base → n * base + d ≤ v → step n (digit upper d) = n * base + d) :
    (numeral base upper v).foldl step 0 = v := by
  induction v using numeral_induction h with
  | last v hv =>
      rw [numeral_eq h, if_pos hv]
      simpa using hstep 0 v hv (by simp)
  | more v hv ih =>
      have hdiv : v / base * base + v % base = v := Nat.div_add_mod' v base
      have hle : v / base ≤ v := Nat.div_le_self v base
      rw [numeral_eq h, if_neg (Nat.not_lt.mpr hv), List.foldl_append,
        ih fun n d hd hn => hstep n d hd (Nat.le_trans hn hle)]
      exact (hstep _ _ (Nat.mod_lt v (by omega)) (Nat.le_of_eq hdiv)).trans hdiv

/-- A number below a power of the base has as many digits at most. -/
theorem length_numeral_le {k : Nat} (h : 1 < base) (hk : 0 < k) (hv : v < base ^ k) :
    (numeral base upper v).length ≤ k := by
  rw [numeral, List.length_map, Nat.length_toDigits_le_iff h hk]
  exact hv

end Digits
