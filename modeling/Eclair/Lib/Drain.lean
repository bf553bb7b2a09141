import Mathlib.Data.List.Forall2

/-!
# Eclair.Lib.Drain

Functions that are called again and again until they have no more.

`Drained next stop s rs s'` says that the calls from state `s` on return the
results `rs`, then one that stops, and leave the state `s'`.  What is ahead of
a state is a list of items; if each call gives the first of them and leaves
the others, the calls give them all (`drained_of_feeds`), unless one of them
looks like the stop (`Drained.length_lt`).
-/

universe u v w

variable {S : Type u} {R : Type v} {I : Type w}

/-- The results of the calls up to the one that stops. -/
inductive Drained (next : S → Option (R × S)) (stop : R → Prop) : S → List R → S → Prop where
  | last {s s' : S} {r : R} (h : next s = some (r, s')) (hr : stop r) : Drained next stop s [] s'
  | more {s t s' : S} {r : R} {rs : List R} (h : next s = some (r, t)) (hr : ¬stop r)
      (hd : Drained next stop t rs s') : Drained next stop s (r :: rs) s'

/-- A call gives the first item and leaves the others, or stops. -/
structure Feeds (next : S → Option (R × S)) (stop : R → Prop) (ahead : S → List I)
    (gives : R → I → Prop) (s : S) (r : R) (s' : S) : Prop where
  next_eq : next s = some (r, s')
  nil : ahead s = [] → stop r ∧ ahead s' = []
  cons : ∀ i is, ahead s = i :: is → gives r i ∧ ahead s' = is

variable {next : S → Option (R × S)} {stop : R → Prop} {ahead : S → List I}
variable {gives : R → I → Prop} {J : S → Prop} {s s' s'' : S} {rs rs' : List R} {i : I}

/-- The calls have one outcome. -/
theorem Drained.unique (h : Drained next stop s rs s') (h' : Drained next stop s rs' s'') :
    rs = rs' ∧ s' = s'' := by
  induction h generalizing rs' with
  | last h hr =>
      cases h' with
      | last g gr =>
          rw [h] at g
          cases g
          exact ⟨rfl, rfl⟩
      | more g gr gd =>
          rw [h] at g
          cases g
          contradiction
  | more h hr hd ih =>
      cases h' with
      | last g gr =>
          rw [h] at g
          cases g
          contradiction
      | more g gr gd =>
          rw [h] at g
          cases g
          obtain ⟨rfl, rfl⟩ := ih gd
          exact ⟨rfl, rfl⟩

/-- The calls depend on what the first one does. -/
theorem Drained.congr {t : S} (hn : next s = next t) :
    Drained next stop s rs s' ↔ Drained next stop t rs s' := by
  constructor
  · intro h
    cases h with
    | last h hr => exact .last (hn ▸ h) hr
    | more h hr hd => exact .more (hn ▸ h) hr hd
  · intro h
    cases h with
    | last h hr => exact .last (hn ▸ h) hr
    | more h hr hd => exact .more (hn ▸ h) hr hd

/-- **Run rule**: the calls give all items, in order. -/
theorem drained_of_feeds
    (hstep : ∀ s, J s → ∃ r s', Feeds next stop ahead gives s r s' ∧ J s')
    (hs : J s) (hgo : ∀ i ∈ ahead s, ∀ r, gives r i → ¬stop r) :
    ∃ rs s', Drained next stop s rs s' ∧ List.Forall₂ gives rs (ahead s) ∧ ahead s' = [] ∧
      J s' := by
  induction ha : ahead s generalizing s with
  | nil =>
      obtain ⟨r, s', hf, hj⟩ := hstep s hs
      obtain ⟨hr, hnil⟩ := hf.nil ha
      exact ⟨[], s', .last hf.next_eq hr, .nil, hnil, hj⟩
  | cons i is ih =>
      obtain ⟨r, t, hf, hj⟩ := hstep s hs
      obtain ⟨hr, ht⟩ := hf.cons i is ha
      have hrest : ∀ i ∈ ahead t, ∀ r, gives r i → ¬stop r := by
        intro i hi
        exact hgo i (by rw [ha]; exact List.mem_cons_of_mem _ (ht ▸ hi))
      obtain ⟨rs, s', hd, hall, hnil, hj'⟩ := ih hj hrest ht
      have hr' := hgo i (by rw [ha]; exact List.mem_cons_self) r hr
      exact ⟨r :: rs, s', .more hf.next_eq hr' hd, .cons hr hall, hnil, hj'⟩

/-- An item whose result stops the calls is not among the results. -/
theorem Drained.length_lt
    (hstep : ∀ s, J s → ∃ r s', Feeds next stop ahead gives s r s' ∧ J s')
    (hs : J s) (hi : i ∈ ahead s) (hstop : ∀ r, gives r i → stop r)
    (h : Drained next stop s rs s') : rs.length < (ahead s).length := by
  induction h with
  | last => exact List.length_pos_of_mem hi
  | @more s t s' r rs h hr hd ih =>
      obtain ⟨r', t', hf, hj⟩ := hstep s hs
      obtain ⟨rfl, rfl⟩ : r' = r ∧ t' = t := by
        have heq := hf.next_eq
        rw [h] at heq
        cases heq
        exact ⟨rfl, rfl⟩
      cases ha : ahead s with
      | nil => exact absurd (hf.nil ha).1 hr
      | cons i' is =>
          obtain ⟨hgive, hrest⟩ := hf.cons i' is ha
          rw [ha] at hi
          obtain rfl | hi := List.mem_cons.mp hi
          · exact absurd (hstop _ hgive) hr
          · have hlen := ih hj (by rw [hrest]; exact hi)
            rw [hrest] at hlen
            exact Nat.succ_lt_succ hlen
