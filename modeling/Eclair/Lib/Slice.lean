import Mathlib.Data.List.Induction

/-!
# Eclair.Lib.Slice

Arrays that are accessed by signed indices, and the loops that shift a
slice of one by a place.

An access outside the array fails.  `closeUp` moves a slice down over the
place before it and `openUp` moves one up over the place behind it; with
the array written as a concatenation of lists both are one equation.
-/

namespace Slice

universe u

variable {α : Type u}

/-- The entry at `i`. -/
def read (w : List α) (i : Int) : Option α := if 0 ≤ i then w[i.toNat]? else none

/-- The array with `v` at `i`. -/
def write (w : List α) (i : Int) (v : α) : Option (List α) :=
  if 0 ≤ i ∧ i < w.length then some (w.set i.toNat v) else none

/-- `w[i] = w[j]`. -/
def move (w : List α) (i j : Int) : Option (List α) := (read w j).bind (write w i)

/-- `n` rounds of `for (; …; i++) w[i] = w[i+1]`. -/
def closeUp : Nat → Int → List α → Option (List α)
  | 0, _, w => some w
  | n + 1, i, w => (move w i (i + 1)).bind (closeUp n (i + 1))

/-- `n` rounds of `for (; …; i--) w[i+1] = w[i]`. -/
def openUp : Nat → Int → List α → Option (List α)
  | 0, _, w => some w
  | n + 1, i, w => (move w (i + 1) i).bind (openUp n (i - 1))

/-- The first place among `n` from `i` on that holds `v`; `i + n` if none does. -/
def search [DecidableEq α] (w : List α) (v : α) : Nat → Int → Option Int
  | 0, i => some i
  | n + 1, i => (read w i).bind fun x => if x = v then some i else search w v n (i + 1)

variable {a b c w : List α} {x y v : α} {n : Nat} {i : Int}

@[simp] theorem read_append : read (a ++ x :: c) (a.length : Int) = some x := by simp [read]

@[simp] theorem write_append : write (a ++ x :: c) (a.length : Int) v = some (a ++ v :: c) := by
  have h : 0 ≤ (a.length : Int) ∧ (a.length : Int) < (a ++ x :: c).length := by
    rw [List.length_append, List.length_cons]
    omega
  rw [write, if_pos h, Int.toNat_natCast, List.set_append_right _ _ (Nat.le_refl _), Nat.sub_self,
    List.set_cons_zero]

theorem read_eq (hi : i = a.length) : read (a ++ x :: c) i = some x := by rw [hi, read_append]

theorem write_eq (hi : i = a.length) : write (a ++ x :: c) i v = some (a ++ v :: c) := by
  rw [hi, write_append]

/-- What is read in a slice is the entry at its place. -/
theorem read_slice (h : (a.length : Int) ≤ i) (h' : i < a.length + b.length) :
    ∃ p x q, b = p ++ x :: q ∧ i = a.length + p.length ∧ read (a ++ (b ++ c)) i = some x := by
  obtain ⟨n, hi⟩ := Int.eq_ofNat_of_zero_le (show 0 ≤ i - a.length by omega)
  have hn : n < b.length := by omega
  have hb : b = b.take n ++ b[n] :: b.drop (n + 1) := by simp
  have hlen : (b.take n).length = n := List.length_take_of_le (Nat.le_of_lt hn)
  refine ⟨b.take n, b[n], b.drop (n + 1), hb, by omega, ?_⟩
  have hread : a ++ (b ++ c) = (a ++ b.take n) ++ b[n] :: (b.drop (n + 1) ++ c) := by
    rw [List.append_assoc, ← List.cons_append, ← List.append_assoc (b.take n), ← hb]
  rw [hread]
  exact read_eq (by simp only [List.length_append]; omega)

theorem move_down : move (a ++ x :: y :: c) a.length (a.length + 1) = some (a ++ y :: y :: c) := by
  have hr : read (a ++ x :: y :: c) ((a.length : Int) + 1) = some y := by
    rw [List.append_cons]
    exact read_eq (by simp)
  rw [move, hr, Option.bind_some, write_append]

theorem move_up : move (a ++ x :: y :: c) (a.length + 1) a.length = some (a ++ x :: x :: c) := by
  rw [move, read_append, Option.bind_some, List.append_cons, write_eq (by simp), ← List.append_cons]

/-- **Closing a gap**: the slice `b` moves down over the place before it. -/
theorem closeUp_spec (hi : i = a.length) :
    ∃ y, closeUp b.length i (a ++ x :: (b ++ c)) = some (a ++ (b ++ y :: c)) := by
  induction b generalizing a x i with
  | nil => exact ⟨x, rfl⟩
  | cons z b ih =>
      obtain ⟨y, hy⟩ := ih (a := a ++ [z]) (x := z) (i := i + 1) (by simp [hi])
      refine ⟨y, ?_⟩
      rw [List.length_cons, closeUp, hi, List.cons_append, move_down, Option.bind_some, ← hi]
      simpa using hy

/-- **Opening a gap**: the slice `b` moves up over the place behind it. -/
theorem openUp_spec (hi : i + 1 = a.length + b.length) :
    ∃ y, openUp b.length i (a ++ (b ++ x :: c)) = some (a ++ y :: (b ++ c)) := by
  induction b using List.reverseRecOn generalizing x c i with
  | nil => exact ⟨x, rfl⟩
  | append_singleton b z ih =>
      have hlen : i = (a ++ b).length := by
        simp only [List.length_append, List.length_singleton] at hi ⊢
        omega
      obtain ⟨y, hy⟩ := ih (x := z) (c := z :: c) (i := i - 1) (by
        simp only [List.length_append] at hlen
        omega)
      refine ⟨y, ?_⟩
      have hmove : move (a ++ (b ++ [z] ++ x :: c)) (i + 1) i = some (a ++ b ++ z :: z :: c) := by
        rw [hlen, ← move_up (a := a ++ b) (y := x)]
        simp
      rw [List.length_append, List.length_singleton, openUp, hmove, Option.bind_some]
      simpa using hy

/-- A slice moved up, and the place before it filled. -/
theorem openUp_write {j : Int} (hi : i + 1 = a.length + b.length) (hj : j = a.length) :
    ((openUp b.length i (a ++ (b ++ x :: c))).bind fun w => write w j v) =
      some (a ++ v :: (b ++ c)) := by
  obtain ⟨y, hy⟩ := openUp_spec (x := x) (c := c) hi
  rw [hy, Option.bind_some, write_eq hj]

/-- A slice moved down, and the place behind it filled. -/
theorem closeUp_write {j : Int} (hi : i = a.length) (hj : j = a.length + b.length) :
    ((closeUp b.length i (a ++ x :: (b ++ c))).bind fun w => write w j v) =
      some (a ++ (b ++ v :: c)) := by
  obtain ⟨y, hy⟩ := closeUp_spec (b := b) (x := x) (c := c) hi
  rw [hy, Option.bind_some, ← List.append_assoc, write_eq (by simp [hj]), List.append_assoc]

variable [DecidableEq α]

/-- A value that is not in the slice before it is found where it stands. -/
theorem search_spec (hi : i = a.length) (hx : v ∉ b) (hn : b.length < n) :
    search (a ++ (b ++ v :: c)) v n i = some (i + b.length) := by
  induction b generalizing a i n with
  | nil =>
      obtain ⟨n, rfl⟩ := Nat.exists_eq_succ_of_ne_zero (Nat.ne_of_gt hn)
      rw [search, List.nil_append, read_eq hi]
      simp
  | cons z b ih =>
      obtain ⟨n, rfl⟩ := Nat.exists_eq_succ_of_ne_zero (Nat.ne_of_gt (Nat.zero_lt_of_lt hn))
      have hz : z ≠ v := fun h => hx (h ▸ List.mem_cons_self)
      have hrest := ih (a := a ++ [z]) (i := i + 1) (n := n) (by simp [hi])
        (fun h => hx (List.mem_cons_of_mem z h)) (Nat.lt_of_succ_lt_succ hn)
      rw [search, List.cons_append, read_eq hi, Option.bind_some, if_neg hz]
      simp only [List.append_assoc, List.singleton_append] at hrest
      rw [hrest, List.length_cons]
      congr 1
      omega

end Slice
