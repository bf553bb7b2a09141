/-!
# Eclair.Lib.Loop

Counting loops whose body can fail, and the rule for them.

`forLoop f i n s` is `for (j = i; j < i + n; j++)` with body `f j`.  A
loop invariant that every round keeps, together with the fact that the
round does not fail, carries the whole loop (`forLoop_spec`).
-/

namespace Loop

universe u v w

variable {S : Type u} {f : Nat → S → Option S} {i n : Nat} {s : S}

/-- `n` rounds of the body from `i` on. -/
def forLoop (f : Nat → S → Option S) : Nat → Nat → S → Option S
  | _, 0, s => some s
  | i, n + 1, s => (f i s).bind (forLoop f (i + 1) n)

/-- **Loop rule**: from an invariant and rounds that succeed. -/
theorem forLoop_spec {I : Nat → S → Prop}
    (hstep : ∀ j s, i ≤ j → j < i + n → I j s → ∃ t, f j s = some t ∧ I (j + 1) t)
    (h : I i s) : ∃ t, forLoop f i n s = some t ∧ I (i + n) t := by
  induction n generalizing i s with
  | zero => exact ⟨s, rfl, h⟩
  | succ n ih =>
      obtain ⟨u, hu, hi⟩ := hstep i s (Nat.le_refl i) (by omega) h
      obtain ⟨t, ht, hn⟩ := ih (fun j s h1 h2 => hstep j s (by omega) (by omega)) hi
      refine ⟨t, ?_, ?_⟩
      · rw [forLoop, hu, Option.bind_some, ht]
      · rwa [show i + (n + 1) = i + 1 + n by omega]

/-- The last round apart. -/
theorem forLoop_succ : forLoop f i (n + 1) s = (forLoop f i n s).bind (f (i + n)) := by
  induction n generalizing i s with
  | zero =>
      show (f i s).bind some = (some s).bind (f i)
      rw [Option.bind_fun_some, Option.bind_some]
  | succ n ih =>
      rw [forLoop, forLoop, Option.bind_assoc]
      congr 1
      funext u
      rw [ih, show i + 1 + n = i + (n + 1) by omega]

/-! ## rounds that end the loop -/

variable {E : Type v} {A : Type w}

/-- As `forLoop`, with the kind of failure; a round says whether to go on. -/
def tryLoop (f : Nat → A → Except E (A × Bool)) : Nat → Nat → A → Except E A
  | _, 0, a => .ok a
  | i, n + 1, a => (f i a).bind fun r => if r.2 then tryLoop f (i + 1) n r.1 else .ok r.1

/-- The rounds of the loop that go on. -/
def rounds (f : Nat → A → Except E (A × Bool)) : Nat → Nat → A → List Nat
  | _, 0, _ => []
  | i, n + 1, a =>
      match f i a with
      | .ok (b, true) => i :: rounds f (i + 1) n b
      | _ => []

/-- **Loop rule**: where every round goes on, the loop does them all. -/
theorem tryLoop_spec {f : Nat → A → Except E (A × Bool)} {I : Nat → A → Prop} {i n : Nat} {a : A}
    (hstep : ∀ j a, i ≤ j → j < i + n → I j a → ∃ b, f j a = .ok (b, true) ∧ I (j + 1) b)
    (h : I i a) :
    ∃ b, tryLoop f i n a = .ok b ∧ I (i + n) b ∧ rounds f i n a = List.range' i n := by
  induction n generalizing i a with
  | zero => exact ⟨a, rfl, h, rfl⟩
  | succ n ih =>
      obtain ⟨b, hb, hi⟩ := hstep i a (Nat.le_refl i) (by omega) h
      obtain ⟨c, hc, hn, hr⟩ := ih (fun j a h1 h2 => hstep j a (by omega) (by omega)) hi
      refine ⟨c, ?_, ?_, ?_⟩
      · simpa [tryLoop, hb, Except.bind] using hc
      · rwa [show i + (n + 1) = i + 1 + n by omega]
      · rw [rounds, hb, List.range'_succ]
        exact congrArg (i :: ·) hr

/-- A round that goes on. -/
def tryEach (f : Nat → A → Except E A) (i : Nat) (a : A) : Except E (A × Bool) :=
  (f i a).bind fun a => .ok (a, true)

/-- The last round apart. -/
theorem tryLoop_tryEach_succ {f : Nat → A → Except E A} {a : A} :
    tryLoop (tryEach f) i (n + 1) a = (tryLoop (tryEach f) i n a).bind (f (i + n)) := by
  induction n generalizing i a with
  | zero =>
      show (tryEach f i a).bind _ = f i a
      rw [tryEach]
      cases f i a <;> rfl
  | succ n ih =>
      rw [tryLoop, tryLoop]
      unfold tryEach
      cases f i a with
      | error e => rfl
      | ok b =>
          have hrest := ih (i := i + 1) (a := b)
          rwa [show i + 1 + n = i + (n + 1) by omega] at hrest

/-- A loop that ends at the first round for which `C` fails is one over the
rounds before it, where the invariant decides `C`. -/
theorem tryLoop_while {C : Nat → A → Prop} [∀ j a, Decidable (C j a)] {I : A → Prop}
    {f : Nat → A → Except E A} {k : Nat} {a : A} (hk : k ≤ n)
    (hkeep : ∀ j a b, I a → f j a = .ok b → I b)
    (hin : ∀ j a, i ≤ j → j < i + k → I a → C j a) (hout : k < n → ∀ a, I a → ¬C (i + k) a) (h : I a) :
    tryLoop (fun j a => if C j a then tryEach f j a else .ok (a, false)) i n a
      = tryLoop (tryEach f) i k a := by
  induction k generalizing i n a with
  | zero =>
      cases n with
      | zero => rfl
      | succ n =>
          have hi : ¬C i a := hout (Nat.succ_pos n) a h
          rw [tryLoop, tryLoop, if_neg hi]
          rfl
  | succ k ih =>
      obtain ⟨n, rfl⟩ : ∃ m, n = m + 1 := ⟨n - 1, by omega⟩
      rw [tryLoop, tryLoop, if_pos (hin i a (Nat.le_refl i) (by omega) h), tryEach]
      cases hf : f i a with
      | error e => rfl
      | ok b =>
          refine ih (by omega) (fun j c h1 h2 => hin j c (by omega) (by omega)) (fun hlt c hc => ?_)
            (hkeep i a b h hf)
          have hend := hout (by omega) c hc
          rwa [show i + 1 + k = i + (k + 1) by omega]

/-! ## loops over a list -/

/-- **Loop rule** for a loop over a list: the invariant speaks of the part
that is done. -/
theorem foldl_prefix {α : Type v} {β : Type w} {I : List α → β → Prop} {g : β → α → β}
    {xs : List α} {b : β} (h : I [] b)
    (hstep : ∀ as x bs b, xs = as ++ x :: bs → I as b → I (as ++ [x]) (g b x)) :
    I xs (xs.foldl g b) := by
  suffices hs : ∀ bs as b, xs = as ++ bs → I as b → I xs (bs.foldl g b) from hs xs [] b rfl h
  intro bs
  induction bs with
  | nil =>
      intro as b hx hi
      rwa [hx, List.append_nil]
  | cons x bs ih =>
      intro as b hx hi
      exact ih (as ++ [x]) (g b x) (by simpa using hx) (hstep as x bs b hx hi)

end Loop
