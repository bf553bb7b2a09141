import Mathlib.Logic.Function.Basic

/-!
# Eclair.Lib.Toggle

Drawing by toggling: an involution is applied to the cells of a set.

Toggling twice gives the picture back (`toggle_toggle`), and toggling the
parts of a disjoint union one after the other is toggling the union
(`toggle_or`), so a loop over cells is one toggle.
-/

universe u v

variable {α : Type u} {β : Type v} {f : β → β} {P Q : α → Prop} {m : α → β}

open Classical in
/-- `m` with `f` applied on `P`. -/
noncomputable def toggle (f : β → β) (P : α → Prop) (m : α → β) : α → β :=
  fun a => if P a then f (m a) else m a

theorem toggle_none (h : ∀ a, ¬ P a) : toggle f P m = m := by
  funext a
  rw [toggle, if_neg (h a)]

theorem toggle_congr (h : ∀ a, P a ↔ Q a) : toggle f P m = toggle f Q m := by
  rw [show P = Q from funext fun a => propext (h a)]

/-- **Erasing**: toggling twice changes nothing. -/
theorem toggle_toggle (hf : Function.Involutive f) : toggle f P (toggle f P m) = m := by
  funext a
  by_cases h : P a
  · simp [toggle, h, hf (m a)]
  · simp [toggle, h]

/-- **Parts**: toggling disjoint sets one after the other. -/
theorem toggle_or (h : ∀ a, P a → ¬ Q a) :
    toggle f Q (toggle f P m) = toggle f (fun a => P a ∨ Q a) m := by
  funext a
  by_cases hp : P a
  · simp [toggle, hp, h a hp]
  · by_cases hq : Q a <;> simp [toggle, hp, hq]
