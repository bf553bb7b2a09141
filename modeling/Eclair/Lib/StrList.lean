import Eclair.Lib.ByteMem

/-!
# Eclair.Lib.StrList

NUL-terminated strings in memory, and arrays of pointers to them that end
with a null pointer.

`CStr` and `StrList` say that a string or a list of strings is at an
address, and that all its bytes lie in a region `P`; memory that agrees on
the region holds it too.  `Packed` is the state of a loop that lays out an
array of pointers and, behind each other, the strings they point to.
-/

namespace ByteMem

variable {P Q : Nat → Prop} {m m' m'' : ByteMem} {a fuel i j arr str : Nat} {s : List UInt8}
  {ss : List (List UInt8)}

/-! ## strings -/

/-- `strlen`, for a string that ends within `fuel` bytes. -/
def strlen (m : ByteMem) : Nat → Nat → Option Nat
  | 0, _ => none
  | fuel + 1, a => if m a = 0 then some 0 else (strlen m fuel (a + 1)).map (· + 1)

/-- A string at `a`. -/
structure CStr (P : Nat → Prop) (m : ByteMem) (a : Nat) (s : List UInt8) : Prop where
  nonzero : ∀ x ∈ s, x ≠ 0
  inside : ∀ i, i ≤ s.length → P (a + i)
  byte : ∀ i, i ≤ s.length → m (a + i) = s.getD i 0

theorem CStr.congr (h : CStr P m a s) (hm : ∀ x, P x → m' x = m x) : CStr P m' a s where
  nonzero := h.nonzero
  inside := h.inside
  byte i hi := by rw [hm _ (h.inside i hi), h.byte i hi]

theorem CStr.mono (h : CStr P m a s) (hPQ : ∀ x, P x → Q x) : CStr Q m a s :=
  { h with inside := fun i hi => hPQ _ (h.inside i hi) }

theorem CStr.strlen (h : CStr P m a s) (hf : s.length < fuel) : strlen m fuel a = some s.length := by
  induction s generalizing a fuel with
  | nil =>
      obtain ⟨n, rfl⟩ : ∃ n, fuel = n + 1 := ⟨fuel - 1, by simp at hf; omega⟩
      have h0 : m a = 0 := h.byte 0 (Nat.le_refl 0)
      rw [ByteMem.strlen, if_pos h0]
      rfl
  | cons c s ih =>
      obtain ⟨n, rfl⟩ : ∃ n, fuel = n + 1 := ⟨fuel - 1, by simp at hf; omega⟩
      rw [List.length_cons] at hf
      have h0 : m a = c := h.byte 0 (Nat.zero_le _)
      have hc : c ≠ 0 := h.nonzero c List.mem_cons_self
      have htail : CStr P m (a + 1) s := by
        refine ⟨fun x hx => h.nonzero x (List.mem_cons_of_mem c hx), fun i hi => ?_, fun i hi => ?_⟩
        · rw [Nat.add_right_comm]
          exact h.inside (i + 1) (by rw [List.length_cons]; omega)
        · rw [Nat.add_right_comm]
          exact h.byte (i + 1) (by rw [List.length_cons]; omega)
      rw [ByteMem.strlen, h0, if_neg hc, ih htail (by omega)]
      rfl

/-! ## lists of strings -/

/-- A list of strings at `a`. -/
structure StrList (P : Nat → Prop) (m : ByteMem) (a : Nat) (ss : List (List UInt8)) : Prop where
  inside : ∀ x, a ≤ x → x < a + 4 * (ss.length + 1) → P x
  ptr : ∀ i s, ss[i]? = some s → word m (a + 4 * i) ≠ 0 ∧ CStr P m (word m (a + 4 * i)) s
  null : word m (a + 4 * ss.length) = 0

theorem StrList.word_eq (h : StrList P m a ss) (hm : ∀ x, P x → m' x = m x) (hi : i ≤ ss.length) :
    word m' (a + 4 * i) = word m (a + 4 * i) :=
  word_congr fun k hk => hm _ (h.inside _ (by omega) (by omega))

theorem StrList.congr (h : StrList P m a ss) (hm : ∀ x, P x → m' x = m x) : StrList P m' a ss where
  inside := h.inside
  ptr i s hs := by
    have hi : i < ss.length := (List.getElem?_eq_some_iff.mp hs).1
    rw [h.word_eq hm (Nat.le_of_lt hi)]
    obtain ⟨h0, hstr⟩ := h.ptr i s hs
    exact ⟨h0, hstr.congr hm⟩
  null := by
    rw [h.word_eq hm (Nat.le_refl _)]
    exact h.null

theorem StrList.mono (h : StrList P m a ss) (hPQ : ∀ x, P x → Q x) : StrList Q m a ss where
  inside x h1 h2 := hPQ x (h.inside x h1 h2)
  ptr i s hs := ⟨(h.ptr i s hs).1, (h.ptr i s hs).2.mono hPQ⟩
  null := h.null

/-! ## sizes -/

/-- Where string `i` starts when the strings lie behind each other. -/
def strOff (ss : List (List UInt8)) (i : Nat) : Nat := ((ss.take i).map fun s => s.length + 1).sum

@[simp] theorem strOff_zero : strOff ss 0 = 0 := rfl

theorem strOff_succ (h : ss[i]? = some s) : strOff ss (i + 1) = strOff ss i + (s.length + 1) := by
  rw [strOff, strOff, List.take_add_one, h]
  simp

theorem strOff_le (h : i ≤ j) : strOff ss i ≤ strOff ss j := by
  obtain ⟨d, rfl⟩ := Nat.exists_eq_add_of_le h
  rw [strOff, strOff, List.take_add, List.map_append, List.sum_append]
  exact Nat.le_add_right _ _

/-- The size of the array and of the strings. -/
def listSize (ss : List (List UInt8)) : Nat := 4 * (ss.length + 1) + strOff ss ss.length

/-! ## packing -/

/-- The first `j` strings are laid out from `str` on, with the pointers from
`arr` on, and nothing else has changed. -/
structure Packed (arr str : Nat) (ss : List (List UInt8)) (j : Nat) (m m' : ByteMem) : Prop where
  ptr : ∀ i s, i < j → ss[i]? = some s → word m' (arr + 4 * i) = str + strOff ss i ∧
    CStr (fun x => str ≤ x ∧ x < str + strOff ss j) m' (str + strOff ss i) s
  frame : ∀ x, ¬ (arr ≤ x ∧ x < arr + 4 * j) → ¬ (str ≤ x ∧ x < str + strOff ss j) → m' x = m x

theorem packed_zero : Packed arr str ss 0 m m :=
  ⟨fun i _ hi _ => absurd hi (Nat.not_lt_zero i), fun _ _ _ => rfl⟩

/-- **One round**: the pointer is stored and the string is laid out. -/
theorem Packed.step (h : Packed arr str ss j m m') (hs : ss[j]? = some s) (hnz : ∀ x ∈ s, x ≠ 0)
    (hsep : arr + 4 * ss.length ≤ str) (hlt : str + strOff ss ss.length ≤ 2 ^ 32)
    (hstr : ∀ i, i ≤ s.length → m'' (str + strOff ss j + i) = s.getD i 0)
    (hout : ∀ x, ¬ (str + strOff ss j ≤ x ∧ x ≤ str + strOff ss j + s.length) →
      m'' x = setWord (arr + 4 * j) (str + strOff ss j) m' x) :
    Packed arr str ss (j + 1) m m'' := by
  have hj : j < ss.length := (List.getElem?_eq_some_iff.mp hs).1
  have hoff := strOff_succ hs
  have hend : strOff ss (j + 1) ≤ strOff ss ss.length := strOff_le hj
  -- what the earlier rounds have laid out is below both writes
  have hold : ∀ x, x < arr + 4 * j ∨ str ≤ x ∧ x < str + strOff ss j → m'' x = m' x := by
    intro x hx
    rw [hout x (by omega), setWord_outside (by omega)]
  constructor
  · intro i t hi ht
    by_cases hij : i = j
    · subst hij
      rw [hs] at ht
      cases ht
      refine ⟨?_, hnz, fun k hk => ?_, hstr⟩
      · rw [← word_setWord (a := arr + 4 * i) (m := m') (v := str + strOff ss i) (by omega)]
        exact word_congr fun k hk => hout _ (by omega)
      · omega
    · obtain ⟨hw, hc⟩ := h.ptr i t (by omega) ht
      refine ⟨?_, (hc.congr fun x hx => hold x (.inr hx)).mono fun x hx => ?_⟩
      · rw [← hw]
        exact word_congr fun k hk => hold _ (.inl (by omega))
      · omega
  · intro x h1 h2
    rw [hout x (by omega), setWord_outside (by omega)]
    exact h.frame x (by omega) (by omega)

/-- The list is complete once the null pointer is stored behind the others. -/
theorem Packed.strList (h : Packed arr str ss ss.length m m') (m'' : ByteMem)
    (hsep : arr + 4 * (ss.length + 1) ≤ str) (hout : ∀ x, ¬ (arr + 4 * ss.length ≤ x ∧
      x < arr + 4 * (ss.length + 1)) → m'' x = m' x) (hnull : word m'' (arr + 4 * ss.length) = 0) :
    StrList (fun x => arr ≤ x ∧ x < arr + 4 * (ss.length + 1) ∨
      str ≤ x ∧ x < str + strOff ss ss.length) m'' arr ss := by
  refine ⟨fun x h1 h2 => .inl ⟨h1, h2⟩, fun i s hs => ?_, hnull⟩
  have hi : i < ss.length := (List.getElem?_eq_some_iff.mp hs).1
  obtain ⟨hw, hc⟩ := h.ptr i s hi hs
  have hw' : word m'' (arr + 4 * i) = str + strOff ss i := by
    rw [← hw]
    exact word_congr fun k hk => hout _ (by omega)
  rw [hw']
  refine ⟨by omega, (hc.congr fun x hx => hout x (by omega)).mono fun x hx => .inr hx⟩

end ByteMem
