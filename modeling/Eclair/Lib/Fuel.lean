/-!
# Eclair.Lib.Fuel

Computations with fuel that can also fail.

A program with loops is a function of its fuel: a result, a failure, or
that the fuel ran out.  `Returns f x` says that `f` has the result `x` with
enough fuel and no failure with less; `Hangs f` says that no fuel is
enough.  The rules below follow the shape of a program: a value, one
computation after the other, one round of a loop.
-/

universe u v w

/-- What stops a computation: the fuel, or a failure of the program. -/
inductive Stop (E : Type u) where
  | fuel
  | fault (e : E)
  deriving DecidableEq, Repr

namespace Fuel

variable {E : Type u} {α : Type v} {β : Type w} {f : Nat → Except (Stop E) α} {g : α → Nat → Except (Stop E) β}
variable {x x' : α} {y : β}

/-- The computation ends with the result `x`. -/
def Returns (f : Nat → Except (Stop E) α) (x : α) : Prop :=
  ∃ n, ∀ m, f m = if n ≤ m then .ok x else .error .fuel

/-- The computation never ends. -/
def Hangs (f : Nat → Except (Stop E) α) : Prop := ∀ m, f m = .error .fuel

/-- The computation ends, whatever its result is. -/
def Ends (f : Nat → Except (Stop E) α) : Prop := ∃ x, Returns f x

theorem returns_ok : Returns (E := E) (fun _ => .ok x) x := ⟨0, fun m => by simp⟩

theorem Returns.exists_ok (h : Returns f x) : ∃ m, f m = .ok x := by
  obtain ⟨n, hn⟩ := h
  exact ⟨n, by simp [hn]⟩

theorem Returns.ok_or_fuel (h : Returns f x) (m : Nat) : f m = .ok x ∨ f m = .error .fuel := by
  obtain ⟨n, hn⟩ := h
  by_cases hm : n ≤ m <;> simp [hn, hm]

/-- A computation that ends never fails. -/
theorem Returns.ne_fault (h : Returns f x) (m : Nat) (e : E) : f m ≠ .error (.fault e) := by
  obtain hok | hfuel := h.ok_or_fuel m
  · simp [hok]
  · simp [hfuel]

theorem Returns.eq_of_ok {m : Nat} (h : Returns f x) (ho : f m = .ok x') : x' = x := by
  obtain hok | hfuel := h.ok_or_fuel m
  · rw [hok] at ho
    exact (Except.ok.inj ho).symm
  · rw [hfuel] at ho
    contradiction

theorem Hangs.ne_ok (h : Hangs f) (m : Nat) : f m ≠ .ok x := by simp [h m]

theorem Hangs.not_ends (h : Hangs f) : ¬ Ends f := by
  intro hends
  obtain ⟨x, hx⟩ := hends
  obtain ⟨m, hm⟩ := hx.exists_ok
  exact h.ne_ok m hm

/-! ## one computation after the other -/

/-- **Sequence rule**. -/
theorem Returns.bind (hf : Returns f x) (hg : Returns (g x) y) :
    Returns (fun m => (f m).bind fun a => g a m) y := by
  obtain ⟨n, hn⟩ := hf
  obtain ⟨k, hk⟩ := hg
  refine ⟨max n k, fun m => ?_⟩
  by_cases hm : n ≤ m
  · by_cases hkm : k ≤ m <;> simp [hn, hk, hm, hkm, Except.bind, Nat.max_le]
  · simp [hn, hm, Except.bind, Nat.max_le]

theorem Hangs.bind (hf : Hangs f) : Hangs fun m => (f m).bind fun a => g a m := by
  intro m
  simp [hf m, Except.bind]

theorem Returns.bind_hangs (hf : Returns f x) (hg : Hangs (g x)) :
    Hangs fun m => (f m).bind fun a => g a m := by
  intro m
  obtain hok | hfuel := hf.ok_or_fuel m
  · simp [hok, hg m, Except.bind]
  · simp [hfuel, Except.bind]

/-! ## one round of a loop -/

/-- **Round rule**: a loop that spends one unit of fuel on a round. -/
theorem Returns.of_succ (h0 : f 0 = .error .fuel) (h : Returns (fun m => f (m + 1)) x) :
    Returns f x := by
  obtain ⟨n, hn⟩ := h
  refine ⟨n + 1, fun m => ?_⟩
  cases m with
  | zero => simp [h0]
  | succ m => simp [hn m]

end Fuel
