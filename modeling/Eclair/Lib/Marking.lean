/-!
# Eclair.Lib.Marking

Operations that mark elements in a state and never take a mark away.

`Marks op F` says that `op` marks at least the elements of `F`, in every
state, and in a calm state no others.  So what a sequence of operations
marks is the union of what they mark, and in a calm state exactly that.
-/

universe u v w

/-- A state with marks, and the states in which an operation marks only what
it is meant to. -/
structure Marking (S : Type u) (α : Type v) where
  marked : S → α → Prop
  calm : S → Prop

namespace Marking

variable {S : Type u} {α : Type v} {ι : Type w} {M : Marking S α}

/-- `op` marks the elements of `F`. -/
structure Marks (M : Marking S α) (op : S → S) (F : α → Prop) : Prop where
  grows : ∀ s a, M.marked s a ∨ F a → M.marked (op s) a
  calm : ∀ s, M.calm s → M.calm (op s)
  only : ∀ s a, M.calm s → M.marked (op s) a → M.marked s a ∨ F a

variable {op op' : S → S} {F G : α → Prop}

theorem Marks.none : M.Marks (fun s => s) fun _ => False where
  grows _ _ h := h.resolve_right id
  calm _ h := h
  only _ _ _ h := .inl h

theorem Marks.congr (h : M.Marks op F) (hF : ∀ a, F a ↔ G a) : M.Marks op G where
  grows s a ha := h.grows s a (ha.imp_right (hF a).mpr)
  calm := h.calm
  only s a hs ha := (h.only s a hs ha).imp_right (hF a).mp

theorem Marks.comp (h : M.Marks op F) (h' : M.Marks op' G) :
    M.Marks (fun s => op' (op s)) fun a => F a ∨ G a where
  grows s a ha := by
    obtain ha | ha | ha := ha
    · exact h'.grows _ a (.inl (h.grows s a (.inl ha)))
    · exact h'.grows _ a (.inl (h.grows s a (.inr ha)))
    · exact h'.grows _ a (.inr ha)
  calm s hs := h'.calm _ (h.calm s hs)
  only s a hs ha := by
    obtain ha | ha := h'.only _ a (h.calm s hs) ha
    · exact (h.only s a hs ha).imp_right .inl
    · exact .inr (.inr ha)

/-- An operation under a condition. -/
theorem Marks.ite (h : M.Marks op F) (c : Prop) [Decidable c] :
    M.Marks (fun s => if c then op s else s) fun a => c ∧ F a := by
  by_cases hc : c
  · simpa [hc] using h
  · simpa [hc] using Marks.none

/-- A loop over a list. -/
theorem Marks.foldl {op : ι → S → S} {F : ι → α → Prop} (h : ∀ i, M.Marks (op i) (F i))
    (is : List ι) : M.Marks (fun s => is.foldl (fun s i => op i s) s) fun a => ∃ i ∈ is, F i a := by
  induction is with
  | nil => exact Marks.none.congr (by simp)
  | cons i is ih => exact ((h i).comp ih).congr (by simp)

/-- `r` returns, and marks the elements of `F`. -/
def Returns (M : Marking S α) (r : S → Option S) (F : α → Prop) : Prop :=
  ∃ op, (∀ s, r s = some (op s)) ∧ M.Marks op F

theorem Returns.bind {r r' : S → Option S} (h : M.Returns r F) (h' : M.Returns r' G) :
    M.Returns (fun s => (r s).bind r') fun a => F a ∨ G a := by
  obtain ⟨op, hr, hm⟩ := h
  obtain ⟨op', hr', hm'⟩ := h'
  exact ⟨fun s => op' (op s), fun s => by simp only [hr, hr', Option.bind_some], hm.comp hm'⟩

theorem Marks.returns {r : S → Option S} (h : M.Marks op F) (hr : ∀ s, r s = some (op s)) :
    M.Returns r F := ⟨op, hr, h⟩

theorem Returns.congr {r : S → Option S} (h : M.Returns r F) (hF : ∀ a, F a ↔ G a) :
    M.Returns r G := by
  obtain ⟨op, hr, hm⟩ := h
  exact ⟨op, hr, hm.congr hF⟩

end Marking
