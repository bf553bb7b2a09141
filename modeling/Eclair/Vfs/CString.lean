import Mathlib.Logic.Function.Basic
import Eclair.Basic
import Eclair.Lib.Fuel
import Eclair.Lib.StrList

/-!
# Eclair.Vfs.CString

The string functions of the kernel (`kernel/util/string.c`) on strings in
memory: what each of them returns, and that it returns.
-/

namespace Eclair

open ByteMem

universe u

/-- A string literal. -/
def literal (s : Bytes) : ByteMem := fun i => s.getD i 0

/-- `strncpy` of the kernel, from byte `i` on: it ends what it copies with a
NUL, which is behind the `cnt` bytes if these hold none. -/
def strncpy (src : ByteMem) : Nat → Nat → ByteMem → ByteMem
  | 0, i, dst => Function.update dst i 0
  | k + 1, i, dst =>
      if src i = 0 then Function.update dst i 0
      else strncpy src k (i + 1) (Function.update dst i (src i))

section

variable {E : Type u}

/-- `strchr`. -/
def strchr (m : ByteMem) (ch : UInt8) : Nat → Nat → Except (Stop E) (Option Nat)
  | _, 0 => .error .fuel
  | p, k + 1 =>
      if m p = 0 then .ok none
      else if m p = ch then .ok (some p)
      else strchr m ch (p + 1) k

/-- `strcmp`, from byte `i` of both strings on. -/
def strcmp (a b : ByteMem) : Nat → Nat → Except (Stop E) Int
  | _, 0 => .error .fuel
  | i, k + 1 =>
      if a i = b i ∧ a i ≠ 0 then strcmp a b (i + 1) k
      else .ok ((a i).toNat - (b i).toNat : Int)

/-- `strlen`. -/
def strlenAt (m : ByteMem) (p k : Nat) : Except (Stop E) Nat :=
  match ByteMem.strlen m k p with
  | some n => .ok n
  | none => .error .fuel

end

/-! ## strings in memory -/

variable {P Q : Nat → Prop} {m a b dst : ByteMem} {i j k p x : Nat} {s t : Bytes} {c ch : UInt8}

theorem cstr_literal (h : (0 : UInt8) ∉ s) : CStr (fun _ => True) (literal s) 0 s where
  nonzero x hx h0 := h (h0 ▸ hx)
  inside _ _ := trivial
  byte i _ := by rw [Nat.zero_add, literal]

theorem cstr_end (h : CStr P m p []) : m p = 0 := h.byte 0 (Nat.le_refl 0)

theorem cstr_first (h : CStr P m p (c :: s)) : m p = c ∧ c ≠ 0 :=
  ⟨h.byte 0 (Nat.zero_le _), h.nonzero c List.mem_cons_self⟩

/-- The rest of a string is one. -/
theorem cstr_append (h : CStr P m p (s ++ t)) : CStr P m (p + s.length) t where
  nonzero x hx := h.nonzero x (List.mem_append_right s hx)
  inside i hi := by
    rw [Nat.add_assoc]
    exact h.inside _ (by rw [List.length_append]; omega)
  byte i hi := by
    rw [Nat.add_assoc, h.byte _ (by rw [List.length_append]; omega),
      List.getD_eq_getElem?_getD, List.getElem?_append_right (Nat.le_add_right _ _),
      Nat.add_sub_cancel_left, List.getD_eq_getElem?_getD]

theorem cstr_tail (h : CStr P m p (c :: s)) : CStr P m (p + 1) s := @cstr_append P m p [c] s h

/-! ## the functions -/

section

variable {E : Type u}

/-- **`strchr`** of a byte that the string does not have. -/
theorem strchr_of_not_mem (h : CStr P m p s) (hch : ch ∉ s) :
    Fuel.Returns (strchr (E := E) m ch p) none := by
  induction s generalizing p with
  | nil =>
      refine .of_succ rfl ?_
      simp only [strchr, cstr_end h, if_true]
      exact Fuel.returns_ok
  | cons c s ih =>
      obtain ⟨hc, h0⟩ := cstr_first h
      obtain ⟨hne, hrest⟩ := not_or.mp (mt List.mem_cons.mpr hch)
      refine .of_succ rfl ?_
      simp only [strchr, hc, if_neg h0, if_neg (Ne.symm hne)]
      exact ih (cstr_tail h) hrest

/-- **`strchr`** of a byte that the string has. -/
theorem strchr_of_append (h : CStr P m p (s ++ ch :: t)) (hch : ch ∉ s) :
    Fuel.Returns (strchr (E := E) m ch p) (some (p + s.length)) := by
  induction s generalizing p with
  | nil =>
      obtain ⟨hc, h0⟩ := cstr_first h
      refine .of_succ rfl ?_
      simp only [strchr, hc, if_neg h0, if_true]
      exact Fuel.returns_ok
  | cons c s ih =>
      obtain ⟨hc, h0⟩ := cstr_first h
      obtain ⟨hne, hrest⟩ := not_or.mp (mt List.mem_cons.mpr hch)
      refine .of_succ rfl ?_
      simp only [strchr, hc, if_neg h0, if_neg (Ne.symm hne)]
      rw [List.length_cons, Nat.add_comm s.length, ← Nat.add_assoc]
      exact ih (cstr_tail h) hrest

/-- Where the strings differ or end, the result is the difference there. -/
theorem strcmp_stop (hn : ¬ (a i = b i ∧ a i ≠ 0)) :
    Fuel.Returns (strcmp (E := E) a b i) ((a i).toNat - (b i).toNat : Int) := by
  refine .of_succ rfl ?_
  simp only [strcmp, if_neg hn]
  exact Fuel.returns_ok

/-- **`strcmp`** is 0 for equal strings and only for them. -/
theorem strcmp_returns (ha : CStr P a i s) (hb : CStr Q b i t) :
    ∃ d, Fuel.Returns (strcmp (E := E) a b i) d ∧ (d = 0 ↔ s = t) := by
  induction s generalizing i t with
  | nil =>
      have h0 := cstr_end ha
      refine ⟨_, strcmp_stop fun h => h.2 h0, ?_⟩
      cases t with
      | nil => simp [h0, cstr_end hb]
      | cons c t =>
          obtain ⟨hc, hn⟩ := cstr_first hb
          simpa [h0, hc, ← UInt8.toNat_inj] using hn
  | cons c s ih =>
      obtain ⟨hc, hn⟩ := cstr_first ha
      cases t with
      | nil =>
          have h0 := cstr_end hb
          refine ⟨_, strcmp_stop fun h => h.2 (h.1.trans h0), ?_⟩
          simpa [h0, hc, ← UInt8.toNat_inj] using hn
      | cons d t =>
          obtain ⟨hd, -⟩ := cstr_first hb
          by_cases hcd : c = d
          · subst hcd
            have hgo : a i = b i ∧ a i ≠ 0 := ⟨hc.trans hd.symm, hc ▸ hn⟩
            obtain ⟨r, hr, hiff⟩ := ih (cstr_tail ha) (cstr_tail hb)
            refine ⟨r, .of_succ rfl ?_, by simpa using hiff⟩
            simp only [strcmp, if_pos hgo]
            exact hr
          · refine ⟨_, strcmp_stop fun h => hcd (hc.symm.trans (h.1.trans hd)), ?_⟩
            have hsub : ((c.toNat : Int) - d.toNat = 0) ↔ c = d := by
              rw [← UInt8.toNat_inj]
              omega
            simp [hc, hd, hsub, hcd]

theorem strlenAt_returns (h : CStr P m p s) : Fuel.Returns (strlenAt (E := E) m p) s.length := by
  have hshort : ∀ k, k ≤ s.length → ByteMem.strlen m k p = none := by
    intro k hk
    induction s generalizing p k with
    | nil => rw [Nat.le_zero.mp hk, ByteMem.strlen]
    | cons c s ih =>
        cases k with
        | zero => rw [ByteMem.strlen]
        | succ k =>
            obtain ⟨hc, h0⟩ := cstr_first h
            rw [ByteMem.strlen, hc, if_neg h0, ih (cstr_tail h) k (Nat.le_of_succ_le_succ hk),
              Option.map_none]
  refine ⟨s.length + 1, fun k => ?_⟩
  by_cases hk : s.length < k
  · rw [strlenAt, h.strlen hk]
    exact (if_pos hk).symm
  · rw [strlenAt, hshort k (Nat.not_lt.mp hk)]
    exact (if_neg hk).symm

end

/-- The end that `strncpy` puts. -/
theorem strncpy_stop (hij : i = j) : (Function.update dst i 0 : ByteMem) x =
    if i ≤ x ∧ x < j then a x else if x = j then 0 else dst x := by
  rw [hij, if_neg (by omega)]
  by_cases hx : x = j
  · rw [if_pos hx, hx, Function.update_self]
  · rw [if_neg hx, Function.update_of_ne hx]

/-- **`strncpy`** from byte `i` on copies the bytes before `j`, where the
string or what is to be copied ends. -/
theorem strncpy_at (hne : ∀ l, i ≤ l → l < j → a l ≠ 0) (h0 : j < i + k → a j = 0)
    (hij : i ≤ j) (hj : j ≤ i + k) :
    strncpy a k i dst x = if i ≤ x ∧ x < j then a x else if x = j then 0 else dst x := by
  induction k generalizing i dst with
  | zero => exact strncpy_stop (by omega)
  | succ k ih =>
      rw [strncpy]
      by_cases hi : a i = 0
      · rw [if_pos hi]
        exact strncpy_stop (by_contra fun hcon => hne i (Nat.le_refl i) (by omega) hi)
      · have hlt : i ≠ j := fun heq => hi (heq ▸ h0 (by omega))
        rw [if_neg hi, ih (fun l h1 h2 => hne l (by omega) h2) (fun h => h0 (by omega)) (by omega)
          (by omega)]
        by_cases hx : x = i
        · rw [if_neg (by omega), if_neg (by omega), if_pos (by omega), hx, Function.update_self]
        · rw [Function.update_of_ne hx]
          exact if_congr (by omega) rfl rfl

/-- **`strncpy`** of the front of a string. -/
theorem strncpy_front (h : CStr P m p (s ++ t)) :
    CStr (fun _ => True) (strncpy (fun i => m (p + i)) s.length 0 dst) 0 s := by
  have hbyte : ∀ i < s.length, m (p + i) = s.getD i 0 := by
    intro i hi
    rw [h.byte i (by rw [List.length_append]; omega), List.getD_eq_getElem?_getD,
      List.getElem?_append_left hi, List.getD_eq_getElem?_getD]
  have hmem : ∀ i < s.length, s.getD i 0 ∈ s := by
    intro i hi
    rw [List.getD_eq_getElem?_getD, List.getElem?_eq_getElem hi, Option.getD_some]
    exact List.getElem_mem hi
  have hne : ∀ l, 0 ≤ l → l < s.length → m (p + l) ≠ 0 := by
    intro l _ hl
    rw [hbyte l hl]
    exact h.nonzero _ (List.mem_append_left t (hmem l hl))
  refine ⟨fun x hx => h.nonzero x (List.mem_append_left t hx), fun _ _ => trivial, fun i hi => ?_⟩
  rw [Nat.zero_add, strncpy_at hne (fun hlt => by omega) (Nat.zero_le _) (by omega)]
  by_cases hlt : i < s.length
  · rw [if_pos ⟨Nat.zero_le i, hlt⟩, hbyte i hlt]
  · rw [if_neg (by omega), if_pos (by omega), List.getD_eq_getElem?_getD,
      List.getElem?_eq_none (by omega), Option.getD_none]

end Eclair
