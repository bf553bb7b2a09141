import Mathlib.Data.List.Forall2

/-!
# Eclair.Lib.Walk

Walks in a hierarchy: a place is the list of names from the top to it, and
each move stays, goes up (which does nothing at the top) or goes down to a
name.

A walk that goes up where another one stays ends at a sublist of the place
of the other one, so the two end at the same place exactly if they end
equally deep.
-/

namespace Walk

/-- One move. -/
inductive Move (α : Type*) where
  | stay
  | up
  | down (a : α)
  deriving DecidableEq

variable {α β : Type*} {d d' : List α} {m m' : Move α} {ms ms' : List (Move α)}

/-- The place after a move. -/
def step (d : List α) : Move α → List α
  | .stay => d
  | .up => d.dropLast
  | .down a => d ++ [a]

/-- The place after the moves. -/
def walk (d : List α) (ms : List (Move α)) : List α := ms.foldl step d

/-- How deep a move ends. -/
def deep (n : Nat) : Move α → Nat
  | .stay => n
  | .up => n - 1
  | .down _ => n + 1

/-- How deep the moves end. -/
def depth (n : Nat) (ms : List (Move α)) : Nat := ms.foldl deep n

@[simp] theorem walk_nil (d : List α) : walk d [] = d := rfl

@[simp] theorem walk_cons (d : List α) (m : Move α) (ms : List (Move α)) :
    walk d (m :: ms) = walk (step d m) ms := rfl

theorem walk_append : walk d (ms ++ ms') = walk (walk d ms) ms' := List.foldl_append

theorem length_step : (step d m).length = deep d.length m := by
  cases m <;> simp [step, deep]

theorem length_walk : (walk d ms).length = depth d.length ms := by
  induction ms generalizing d with
  | nil => rfl
  | cons m ms ih => rw [walk_cons, ih, length_step, depth, depth, List.foldl_cons]

/-- Names that are walked down one after the other. -/
theorem walk_down (as : List α) : walk d (as.map .down) = d ++ as := by
  induction as generalizing d with
  | nil => simp
  | cons a as ih => rw [List.map_cons, walk_cons, step, ih, List.append_assoc, List.singleton_append]

/-- Every name of the place was there or was walked down to. -/
theorem mem_walk {a : α} (h : a ∈ walk d ms) : a ∈ d ∨ .down a ∈ ms := by
  induction ms generalizing d with
  | nil => exact .inl h
  | cons m ms ih =>
      obtain hd | hms := ih h
      · cases m with
        | stay => exact .inl hd
        | up => exact .inl (List.dropLast_subset d hd)
        | down b =>
            obtain hd | hb := List.mem_append.mp hd
            · exact .inl hd
            · exact .inr (by rw [List.mem_singleton.mp hb]; exact List.mem_cons_self)
      · exact .inr (List.mem_cons_of_mem m hms)

/-! ## going up instead of staying -/

/-- The same move, or up instead of staying. -/
inductive Lower : Move α → Move α → Prop
  | refl (m : Move α) : Lower m m
  | up : Lower .up .stay

theorem dropLast_sublist_dropLast (h : d'.Sublist d) : d'.dropLast.Sublist d.dropLast := by
  have ht := h.reverse.tail
  rw [List.tail_reverse, List.tail_reverse] at ht
  exact List.reverse_sublist.mp ht

theorem Lower.step (h : Lower m' m) (hd : d'.Sublist d) : (step d' m').Sublist (step d m) := by
  cases h with
  | up => exact (List.dropLast_sublist d').trans hd
  | refl m =>
      cases m with
      | stay => exact hd
      | up => exact dropLast_sublist_dropLast hd
      | down a => exact hd.append_right [a]

theorem Lower.walk (h : List.Forall₂ Lower ms' ms) (hd : d'.Sublist d) :
    (walk d' ms').Sublist (walk d ms) := by
  induction h generalizing d d' with
  | nil => exact hd
  | cons hm _ ih => exact ih (hm.step hd)

/-- **Depth rule**: the walks end at the same place exactly if they end
equally deep. -/
theorem Lower.walk_eq_iff (h : List.Forall₂ Lower ms' ms) :
    Walk.walk d ms' = Walk.walk d ms ↔ depth d.length ms' = depth d.length ms := by
  rw [← length_walk, ← length_walk]
  constructor
  · exact congrArg List.length
  · exact (Lower.walk h (List.Sublist.refl d)).eq_of_length

end Walk
