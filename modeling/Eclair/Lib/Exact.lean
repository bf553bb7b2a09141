import Eclair.Lib.Loop

/-!
# Eclair.Lib.Exact

Computations that can fail, with the exact condition under which they do not.

`Exact x P Q` says that `x` has a result if and only if `P` holds, and that
the result then satisfies `Q`.  A rule for each way to build a computation
gives the condition of the whole from those of its parts; the rule for
loops (`Exact.tryLoop`) says that every round which is reached has to succeed.
-/

universe u v w

/-- `x` succeeds exactly if `P`, and then with a result of which `Q` holds. -/
structure Exact {E : Type u} {α : Type v} (x : Except E α) (P : Prop) (Q : α → Prop) : Prop where
  iff : (∃ a, x = .ok a) ↔ P
  post : ∀ a, x = .ok a → Q a

namespace Exact

variable {E : Type u} {α : Type v} {β : Type w} {x y : Except E α} {f : α → Except E β}
variable {P C : Prop} {Q Q' : α → Prop} {R : β → Prop} {a : α} {e : E}

theorem ok (h : Q a) : Exact (.ok a : Except E α) True Q where
  iff := by simp
  post b hb := Except.ok.inj hb ▸ h

theorem error : Exact (.error e : Except E α) False Q where
  iff := by simp
  post b hb := by contradiction

theorem congr (h : Exact x P Q) (hp : P ↔ C) : Exact x C Q := ⟨h.iff.trans hp, h.post⟩

theorem mono (h : Exact x P Q) (hq : ∀ a, Q a → Q' a) : Exact x P Q' :=
  ⟨h.iff, fun a ha => hq a (h.post a ha)⟩

/-- A sequence that succeeds, taken apart. -/
theorem bind_eq_ok {b : β} : x.bind f = .ok b ↔ ∃ a, x = .ok a ∧ f a = .ok b := by
  cases x <;> simp [Except.bind]

/-- **Sequence rule**: the condition of the second part must not depend on
the result of the first beyond what `Q` says of it. -/
theorem bind (hx : Exact x P Q) (hf : ∀ a, Q a → Exact (f a) C R) :
    Exact (x.bind f) (P ∧ C) R := by
  cases x with
  | error e =>
      have hp : ¬ P := fun hp => by simpa using hx.iff.mpr hp
      exact error.congr (by simp [hp])
  | ok a =>
      have hp : P := hx.iff.mp ⟨a, rfl⟩
      exact (hf a (hx.post a rfl)).congr (by simp [hp])

/-- The sequence rule where the first result is known. -/
theorem bind_eq (hx : Exact x P fun b => b = a) (hf : Exact (f a) C R) : Exact (x.bind f) (P ∧ C) R :=
  bind hx fun _ hb => hb ▸ hf

/-- **Branch rule**. -/
theorem ite {c : Prop} [Decidable c] (hx : c → Exact x P Q) (hy : ¬ c → Exact y C Q) :
    Exact (if c then x else y) ((c → P) ∧ (¬ c → C)) Q := by
  by_cases hc : c
  · rw [if_pos hc]
    exact (hx hc).congr (by simp [hc])
  · rw [if_neg hc]
    exact (hy hc).congr (by simp [hc])

/-- A check. -/
theorem check {c : Prop} [Decidable c] (h : c → Q a) :
    Exact (if c then .ok a else .error e : Except E α) c Q :=
  (ite (fun hc => ok (h hc)) fun _ => error).congr (by simp)

/-! ## loops -/

/-- **Loop rule**: `I` is kept by the rounds, and what a round needs and
whether it goes on depends on its number only.  The loop succeeds exactly
if every round does that is reached. -/
theorem tryLoop {f : Nat → α → Except E (α × Bool)} {I : α → Prop} {P Go : Nat → Prop} {i n : Nat}
    (hstep : ∀ j a, i ≤ j → j < i + n → I a → Exact (f j a) (P j) fun r => I r.1 ∧ (r.2 = true ↔ Go j))
    (h : I a) : Exact (Loop.tryLoop f i n a) (∀ j, i ≤ j → j < i + n → (∀ l, i ≤ l → l < j → Go l) → P j) I := by
  induction n generalizing i a with
  | zero => exact (ok h).congr (iff_of_true trivial fun j h1 h2 => by omega)
  | succ n ih =>
      have hrest : ∀ r : α × Bool, I r.1 ∧ (r.2 = true ↔ Go i) →
          Exact (if r.2 then Loop.tryLoop f (i + 1) n r.1 else .ok r.1)
            (Go i → ∀ j, i + 1 ≤ j → j < i + 1 + n → (∀ l, i + 1 ≤ l → l < j → Go l) → P j) I := by
        rintro ⟨b, go⟩ ⟨hb, hgo⟩
        refine (ite (c := go = true)
          (fun _ => ih (i := i + 1) (fun j a h1 h2 => hstep j a (by omega) (by omega)) hb)
          fun _ => ok hb).congr ?_
        rw [hgo]
        exact ⟨fun hr => hr.1, fun hr => ⟨hr, fun _ => trivial⟩⟩
      refine (bind (hstep i a (Nat.le_refl i) (by omega) h) hrest).congr ?_
      constructor
      · rintro ⟨hp, hr⟩ j h1 h2 hl
        by_cases hj : j = i
        · exact hj ▸ hp
        · exact hr (hl i (Nat.le_refl i) (by omega)) j (by omega) (by omega)
            fun l h3 h4 => hl l (by omega) h4
      · intro hr
        refine ⟨hr i (Nat.le_refl i) (by omega) fun l h1 h2 => by omega, ?_⟩
        intro hgo j h1 h2 hl
        refine hr j (by omega) (by omega) fun l h3 h4 => ?_
        by_cases hli : l = i
        · exact hli ▸ hgo
        · exact hl l (by omega) h4

/-- **Loop rule** without an early end. -/
theorem tryEach {f : Nat → α → Except E α} {I : α → Prop} {P : Nat → Prop} {i n : Nat}
    (hstep : ∀ j a, i ≤ j → j < i + n → I a → Exact (f j a) (P j) I) (h : I a) :
    Exact (Loop.tryLoop (Loop.tryEach f) i n a) (∀ j, i ≤ j → j < i + n → P j) I := by
  have hround : ∀ j a, i ≤ j → j < i + n → I a →
      Exact (Loop.tryEach f j a) (P j) fun r => I r.1 ∧ (r.2 = true ↔ True) := by
    intro j a h1 h2 ha
    exact (bind (hstep j a h1 h2 ha) fun b hb => ok ⟨hb, by simp⟩).congr (iff_of_eq (and_true _))
  exact (tryLoop hround h).congr (by simp)

end Exact
