import Mathlib.Logic.Relation

/-!
# Eclair.Lib.System

Labelled transition systems and the induction over their runs.

A `System` has initial states and a step relation labelled by events.  A
*condition* `ok` on a state and the event about to happen cuts the runs
down to those whose steps all meet it:

* `Steps ok s s'` — `s'` is reached from `s` by such steps;
* `Reachable ok s` — `s` is reached so from an initial state.

`Reachable.invariant` and `Steps.invariant` are the only inductions over
runs: an invariant is proved by its initial case and one step lemma.
Nothing here depends on what the states are.
-/

/-- A labelled transition system. -/
structure System (S E : Type*) where
  init : S → Prop
  step : S → E → S → Prop

namespace System

variable {S E : Type*} (M : System S E) {ok ok' : S → E → Prop} {s s' s'' : S}

/-- The condition every event meets. -/
abbrev Any : S → E → Prop := fun _ _ => True

/-- One step by an event that meets `ok`. -/
def Move (ok : S → E → Prop) (s s' : S) : Prop := ∃ e, ok s e ∧ M.step s e s'

/-- `s'` is reached from `s` by steps that all meet `ok`. -/
def Steps (ok : S → E → Prop) : S → S → Prop := Relation.ReflTransGen (M.Move ok)

/-- `s` is reached from an initial state by steps that all meet `ok`. -/
def Reachable (ok : S → E → Prop) (s : S) : Prop := ∃ s₀, M.init s₀ ∧ M.Steps ok s₀ s

variable {M}

theorem Steps.refl : M.Steps ok s s := Relation.ReflTransGen.refl

theorem Steps.tail (h : M.Steps ok s s') (e : E) (ho : ok s' e) (hs : M.step s' e s'') :
    M.Steps ok s s'' := Relation.ReflTransGen.tail h ⟨e, ho, hs⟩

theorem Steps.head (e : E) (ho : ok s e) (hs : M.step s e s') (h : M.Steps ok s' s'') :
    M.Steps ok s s'' := Relation.ReflTransGen.head ⟨e, ho, hs⟩ h

theorem Reachable.of_init (h : M.init s) : M.Reachable ok s := ⟨s, h, Steps.refl⟩

theorem Reachable.steps (h : M.Reachable ok s) (hs : M.Steps ok s s') : M.Reachable ok s' := by
  obtain ⟨s₀, h0, hr⟩ := h
  exact ⟨s₀, h0, hr.trans hs⟩

/-- Weakening the condition keeps every run. -/
theorem Steps.mono (h : ∀ s e, ok s e → ok' s e) (hs : M.Steps ok s s') : M.Steps ok' s s' :=
  Relation.ReflTransGen.mono (fun a _ ⟨e, ho, hst⟩ => ⟨e, h a e ho, hst⟩) _ _ hs

theorem Reachable.mono (h : M.Reachable ok s) (ho : ∀ s e, ok s e → ok' s e) :
    M.Reachable ok' s := by
  obtain ⟨s₀, h0, hr⟩ := h
  exact ⟨s₀, h0, hr.mono ho⟩

/-- **Run rule**: what one step preserves, a whole run preserves. -/
theorem Steps.invariant {I : S → Prop} (hs : M.Steps ok s s')
    (hstep : ∀ s e s', I s → ok s e → M.step s e s' → I s') (h : I s) : I s' := by
  induction hs with
  | refl => exact h
  | tail _ hmove ih =>
      obtain ⟨e, ho, hst⟩ := hmove
      exact hstep _ e _ ih ho hst

/-- **Invariant rule**: an invariant of the initial states that every step
preserves holds of every reachable state. -/
theorem Reachable.invariant {I : S → Prop} (hs : M.Reachable ok s)
    (hinit : ∀ s, M.init s → I s)
    (hstep : ∀ s e s', I s → ok s e → M.step s e s' → I s') : I s := by
  obtain ⟨s₀, h0, hr⟩ := hs
  exact hr.invariant hstep (hinit s₀ h0)

/-- **Progress rule**: a state is reached in which `D` holds if otherwise
some step keeps the invariant and lowers the measure. -/
theorem Steps.reaches {I D : S → Prop} (m : S → Nat)
    (hstep : ∀ s, I s → ¬ D s → ∃ e s', ok s e ∧ M.step s e s' ∧ I s' ∧ m s' < m s) (h : I s) :
    ∃ s', M.Steps ok s s' ∧ D s' := by
  induction hn : m s using Nat.strongRecOn generalizing s with
  | ind n ih =>
      by_cases hd : D s
      · exact ⟨s, Steps.refl, hd⟩
      · obtain ⟨e, t, ho, hs, ht, hlt⟩ := hstep s h hd
        obtain ⟨s', hs', hd'⟩ := ih (m t) (hn ▸ hlt) ht rfl
        exact ⟨s', Steps.head e ho hs hs', hd'⟩

/-! ## paths -/

variable (M ok) in
/-- `s'` is reached from `s` by the events `es`, which all meet `ok`. -/
inductive Path : S → List E → S → Prop
  | nil (s : S) : Path s [] s
  | cons {s t s' : S} {es : List E} (e : E) (ho : ok s e) (hs : M.step s e t) (h : Path t es s') :
      Path s (e :: es) s'

variable (M ok) in
/-- `D` holds in some state that the events `es` go through. -/
def Meets (D : S → Prop) (s : S) (es : List E) : Prop :=
  ∃ es₁ es₂ t, es = es₁ ++ es₂ ∧ M.Path ok s es₁ t ∧ D t

theorem Path.steps {es : List E} (h : M.Path ok s es s') : M.Steps ok s s' := by
  induction h with
  | nil s => exact Steps.refl
  | cons e ho hs _ ih => exact Steps.head e ho hs ih

theorem Meets.cons {D : S → Prop} {es : List E} {t : S} (e : E) (ho : ok s e) (hs : M.step s e t)
    (h : M.Meets ok D t es) : M.Meets ok D s (e :: es) := by
  obtain ⟨es₁, es₂, u, rfl, hp, hd⟩ := h
  exact ⟨e :: es₁, es₂, u, rfl, .cons e ho hs hp, hd⟩

/-- **Bound rule**: if every step leads to `D` or keeps the invariant and lowers
its bound by the counted events, a path that counts more than the bound goes
through `D`. -/
theorem Path.meets {I : Nat → S → Prop} {D : S → Prop} {c : E → Bool} {es : List E} {n : Nat}
    (hstep : ∀ n s e t, I n s → ok s e → M.step s e t →
      D t ∨ ∃ m, I m t ∧ m + (if c e then 1 else 0) ≤ n)
    (h : M.Path ok s es s') (hi : I n s) (hn : n < es.countP c) : M.Meets ok D s es := by
  induction h generalizing n with
  | nil s => simp at hn
  | @cons s t s' es e ho hs hp ih =>
      obtain hd | ⟨m, hm, hle⟩ := hstep n s e t hi ho hs
      · exact ⟨[e], es, t, rfl, .cons e ho hs (.nil t), hd⟩
      · rw [List.countP_cons] at hn
        exact (ih hm (by omega)).cons e ho hs

/-! ## executable systems -/

/-- The system of a transition function; `none` means that the event is
not enabled. -/
def ofNext (init : S → Prop) (next : S → E → Option S) : System S E :=
  ⟨init, fun s e s' => next s e = some s'⟩

/-- Run a list of events. -/
def run (next : S → E → Option S) : S → List E → Option S
  | s, [] => some s
  | s, e :: es => (next s e).bind fun s' => run next s' es

/-- A computed run is a run of the system. -/
theorem steps_of_run {init : S → Prop} {next : S → E → Option S} {es : List E}
    (h : run next s es = some s') : (ofNext init next).Steps Any s s' := by
  induction es generalizing s with
  | nil =>
      obtain rfl := Option.some.inj h
      exact Steps.refl
  | cons e es ih =>
      obtain ⟨t, ht, hr⟩ := Option.bind_eq_some_iff.mp h
      exact Steps.head e trivial ht (ih hr)

/-- A computed run whose events all pass the test is a path. -/
theorem path_of_run_if {init : S → Prop} {next : S → E → Option S} {es : List E}
    (okb : S → E → Bool) (hok : ∀ s e, okb s e = true → ok s e)
    (h : run (fun s e => if okb s e then next s e else none) s es = some s') :
    (ofNext init next).Path ok s es s' := by
  induction es generalizing s with
  | nil =>
      obtain rfl := Option.some.inj h
      exact .nil _
  | cons e es ih =>
      obtain ⟨t, ht, hr⟩ := Option.bind_eq_some_iff.mp h
      dsimp only at ht
      split at ht
      · next hb => exact .cons e (hok s e hb) ht (ih hr)
      · contradiction

/-- A computed run whose events all pass the test `okb` is a run that meets
the condition the test decides. -/
theorem steps_of_run_if {init : S → Prop} {next : S → E → Option S} {es : List E}
    (okb : S → E → Bool) (hok : ∀ s e, okb s e = true → ok s e)
    (h : run (fun s e => if okb s e then next s e else none) s es = some s') :
    (ofNext init next).Steps ok s s' :=
  (path_of_run_if okb hok h).steps

/-! ## runs of a function -/

section

variable {next : S → E → S} {I : S → Prop} {P Q : S → E → Prop} {es : List E}

/-- Every event of the run meets `P` in the state in which it happens. -/
def Along (next : S → E → S) (P : S → E → Prop) : S → List E → Prop
  | _, [] => True
  | s, e :: es => P s e ∧ Along next P (next s e) es

/-- What every step of a run establishes holds at its end. -/
theorem Along.last (h : Along next P s es) (hP : ∀ s e, P s e → I (next s e)) (hs : I s) :
    I (es.foldl next s) := by
  induction es generalizing s with
  | nil => exact hs
  | cons e es ih => exact ih h.2 (hP s e h.1)

/-- **Condition rule**: what follows from a condition where an invariant holds
follows along a run, if steps that meet the condition keep the invariant. -/
theorem Along.imp (h : Along next P s es) (hstep : ∀ s e, I s → P s e → I (next s e))
    (hQ : ∀ s e, I s → P s e → Q s e) (hs : I s) : Along next Q s es := by
  induction es generalizing s with
  | nil => trivial
  | cons e es ih => exact ⟨hQ s e hs h.1, ih h.2 (hstep s e hs h.1)⟩

/-- **Exactness rule** for an invariant that also bounds what is still to come: conditions that
agree where it holds agree along a run, if steps that meet them keep it. -/
theorem along_iff_of (J : S → List E → Prop)
    (hstep : ∀ s e es, J s (e :: es) → P s e → J (next s e) es)
    (h : ∀ s e es, J s (e :: es) → (P s e ↔ Q s e)) (hs : J s es) :
    Along next P s es ↔ Along next Q s es := by
  induction es generalizing s with
  | nil => exact Iff.rfl
  | cons e es ih =>
      constructor
      · rintro ⟨hp, hr⟩
        exact ⟨(h s e es hs).mp hp, (ih (hstep s e es hs hp)).mp hr⟩
      · rintro ⟨hq, hr⟩
        have hp := (h s e es hs).mpr hq
        exact ⟨hp, (ih (hstep s e es hs hp)).mpr hr⟩

/-- **Exactness rule**: conditions that agree where an invariant holds agree
along a run, if steps that meet them keep the invariant. -/
theorem along_iff (hstep : ∀ s e, I s → P s e → I (next s e)) (h : ∀ s e, I s → (P s e ↔ Q s e))
    (hs : I s) : Along next P s es ↔ Along next Q s es :=
  along_iff_of (fun s _ => I s) (fun s e _ => hstep s e) (fun s e _ => h s e) hs

end

end System
