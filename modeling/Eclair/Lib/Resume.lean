import Mathlib.Logic.Function.Basic

/-!
# Eclair.Lib.Resume

Programs that run one step at a time on a state they share with others.

A `Prog` is what is left of a computation: it has returned, it hangs, or it
will do the operation `op` and go on with what it reads from the state
before.  Between two steps anybody may change the state.

What the others may do is said by a `Contract`: `rely` bounds their changes
while the operation is due, `ok` is what the program promises of each of its
own operations.  `Safe` is that the promise is kept from here on, and the
`Triple` rules prove it statement by statement.
-/

namespace Resume

/-- What is left of a computation with operations `O` and results `R`. -/
inductive Prog (S O R : Type*) where
  | ret (r : R)
  | hang
  | step (op : O) (k : S → Prog S O R)

variable {S O R : Type*}

namespace Prog

/-- The operation that is due. -/
def next : Prog S O R → Option O
  | .step op _ => some op
  | _ => none

/-- Run a program to its end, with nobody else around. -/
def run (exec : O → S → S) : Prog S O R → S → Option (R × S)
  | .ret r, s => some (r, s)
  | .hang, _ => none
  | .step op k, s => run exec (k s) (exec op s)

@[simp] theorem next_step (op : O) (k : S → Prog S O R) : (Prog.step op k).next = some op := rfl
@[simp] theorem next_ret (r : R) : (Prog.ret r : Prog S O R).next = none := rfl

@[simp] theorem run_ret (exec : O → S → S) (r : R) (s : S) :
    (Prog.ret r).run exec s = some (r, s) := rfl

@[simp] theorem run_step (exec : O → S → S) (op : O) (k : S → Prog S O R) (s : S) :
    (Prog.step op k).run exec s = (k s).run exec (exec op s) := rfl

end Prog

/-- What a program may expect of the others and what it promises. -/
structure Contract (S O : Type*) where
  /-- the states in which the program may go on -/
  can : S → Prop
  /-- what the others may change while an operation is due -/
  rely : Option O → S → S → Prop
  /-- what the program promises of its operations -/
  ok : O → S → Prop
  /-- what holds when it has returned -/
  post : S → Prop

/-- From the state on, the program keeps its promises. -/
def Safe (exec : O → S → S) (C : Contract S O) : Prog S O R → S → Prop
  | .ret _, s => ∀ s', C.rely none s s' → C.post s'
  | .hang, _ => True
  | .step op k, s => ∀ s', C.rely (some op) s s' → C.can s' →
      C.ok op s' ∧ Safe exec C (k s') (exec op s')

variable {exec : O → S → S} {C : Contract S O} {p : Prog S O R} {s s' : S} {op : O}
variable {k : S → Prog S O R}

/-- Changes by others keep a program safe. -/
theorem Safe.rely (h : Safe exec C p s) (hr : C.rely p.next s s')
    (htrans : ∀ o s₁ s₂ s₃, C.rely o s₁ s₂ → C.rely o s₂ s₃ → C.rely o s₁ s₃) :
    Safe exec C p s' := by
  cases p with
  | ret r => exact fun s₁ h1 => h s₁ (htrans _ _ _ _ hr h1)
  | hang => trivial
  | step op k => exact fun s₁ h1 hc => h s₁ (htrans _ _ _ _ hr h1) hc

/-- A safe program makes a step. -/
theorem Safe.step (h : Safe exec C (.step op k) s) (hc : C.can s)
    (hrefl : C.rely (some op) s s) : C.ok op s ∧ Safe exec C (k s) (exec op s) := h s hrefl hc

/-! ## rules -/

/-- Started in a state with `P`, the program is safe. -/
def Triple (exec : O → S → S) (C : Contract S O) (P : S → Prop) (p : Prog S O R) : Prop :=
  ∀ s, P s → Safe exec C p s

variable {P Q : S → Prop}

/-- Others do not disturb the assertion. -/
def Stable (C : Contract S O) (o : Option O) (P : S → Prop) : Prop :=
  ∀ s s', P s → C.rely o s s' → P s'

theorem Triple.weaken (h : Triple exec C Q p) (hPQ : ∀ s, P s → Q s) : Triple exec C P p :=
  fun s hs => h s (hPQ s hs)

theorem Triple.ret {r : R} (hst : Stable C none P) (h : ∀ s, P s → C.post s) :
    Triple exec C P (.ret r : Prog S O R) :=
  fun s hs s' hr => h s' (hst s s' hs hr)

theorem Triple.hang : Triple exec C P (.hang : Prog S O R) := fun _ _ => trivial

/-- **Step rule**: the operation keeps its promise, and what it makes true
starts the rest of the program. -/
theorem Triple.step {Q : S → S → Prop} (hst : Stable C (some op) P)
    (h : ∀ s, P s → C.can s → C.ok op s ∧ Q s (exec op s))
    (hk : ∀ s, P s → C.can s → Triple exec C (Q s) (k s)) : Triple exec C P (.step op k) := by
  intro s hs s' hr hc
  have hs' := hst s s' hs hr
  obtain ⟨hok, hq⟩ := h s' hs' hc
  exact ⟨hok, hk s' hs' hc _ hq⟩

end Resume
