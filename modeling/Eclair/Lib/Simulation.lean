/-!
# Eclair.Lib.Simulation

Machines that answer every event, and the refinement of one by another.

A machine is a function from a state and an event to an answer and a state.
`refines` is the simulation rule: where related states answer alike and stay
related, two machines cannot be told apart by any sequence of events.
-/

namespace Simulation

universe u v w x

variable {S : Type u} {T : Type v} {E : Type w} {R : Type x}

/-- The answers to a sequence of events, and the state at its end. -/
def answers (next : S → E → R × S) : S → List E → List R × S
  | s, [] => ([], s)
  | s, e :: es =>
      let r := next s e
      let rs := answers next r.2 es
      (r.1 :: rs.1, rs.2)

/-- One step of the first machine is one step of the second. -/
def Step (Rel : S → T → Prop) (r : R × S) (q : R × T) : Prop := r.1 = q.1 ∧ Rel r.2 q.2

variable {Rel : S → T → Prop} {next : S → E → R × S} {next' : T → E → R × T} {s : S} {t : T}

/-- **Simulation rule**. -/
theorem refines (h : ∀ s t e, Rel s t → Step Rel (next s e) (next' t e)) (hs : Rel s t) (es : List E) :
    Step Rel (answers next s es) (answers next' t es) := by
  induction es generalizing s t with
  | nil => exact ⟨rfl, hs⟩
  | cons e es ih =>
      obtain ⟨hr, hrel⟩ := h s t e hs
      obtain ⟨hrs, hrel'⟩ := ih hrel
      exact ⟨by simp only [answers, hr, hrs], hrel'⟩

/-- What every step keeps holds at the end of a sequence. -/
theorem invariant {I : S → Prop} (h : ∀ s e, I s → I (next s e).2) (hs : I s) (es : List E) :
    I (answers next s es).2 := by
  induction es generalizing s with
  | nil => exact hs
  | cons e es ih => exact ih (h s e hs)

end Simulation
