/-!
# Eclair.Lib.Outbox

A queue of bounded size whose contents are sent in batches.

`all` is everything that was ever put in: what has been sent and what is
still queued.  Sending does not change it, so a sender is right as long as
it puts in what it should and never exceeds the bound.

`putFlush` puts in one item and sends when the bound is reached; a list put
in so leaves as many items in the queue as are left over (`putAll_eq`).
-/

universe u v

/-- What is queued, and the batches sent so far. -/
structure Outbox (α : Type u) where
  queue : List α := []
  sent : List (List α) := []

namespace Outbox

variable {α : Type u} {E : Type v} {cap : Nat} {e : E} {x : α} {xs ys : List α} {b b' : Outbox α}

/-- Everything that was put in, in order. -/
def all (b : Outbox α) : List α := b.sent.flatten ++ b.queue

/-- Send what is queued. -/
def flush (b : Outbox α) : Outbox α :=
  if b.queue.isEmpty then b else ⟨[], b.sent ++ [b.queue]⟩

/-- Send if the bound is reached. -/
def flushFull (cap : Nat) (b : Outbox α) : Outbox α :=
  if b.queue.length ≥ cap then b.flush else b

/-- Put in one item; there has to be room for it. -/
def put (cap : Nat) (e : E) (x : α) (b : Outbox α) : Except E (Outbox α) :=
  if b.queue.length < cap then .ok { b with queue := b.queue ++ [x] } else .error e

/-- Put in one item, and send if the bound is reached. -/
def putFlush (cap : Nat) (e : E) (x : α) (b : Outbox α) : Except E (Outbox α) :=
  (put cap e x b).map (flushFull cap)

/-- Put in a list, one item after the other. -/
def putAll (cap : Nat) (e : E) : List α → Outbox α → Except E (Outbox α)
  | [], b => .ok b
  | x :: xs, b => (putFlush cap e x b).bind (putAll cap e xs)

@[simp] theorem all_flush : b.flush.all = b.all := by
  simp [flush, all]
  split <;> simp_all

@[simp] theorem queue_flush : b.flush.queue = [] := by
  simp [flush]
  split <;> simp_all

@[simp] theorem all_flushFull : (flushFull cap b).all = b.all := by
  unfold flushFull
  split <;> simp

theorem put_of_lt (h : b.queue.length < cap) :
    put cap e x b = .ok { b with queue := b.queue ++ [x] } := if_pos h

theorem put_of_ge (h : cap ≤ b.queue.length) : put cap e x b = .error e :=
  if_neg (by omega)

/-- Putting in an item adds it at the end; a queue that gets full is sent. -/
theorem putFlush_of_lt (h : b.queue.length < cap) :
    ∃ b', putFlush cap e x b = .ok b' ∧ b'.all = b.all ++ [x] ∧
      b'.queue.length = (b.queue.length + 1) % cap := by
  refine ⟨flushFull cap { b with queue := b.queue ++ [x] }, ?_, by rw [all_flushFull]; simp [all], ?_⟩
  · rw [putFlush, put_of_lt h]
    rfl
  · unfold flushFull
    split
    · next hf =>
        have hc : b.queue.length + 1 = cap := by simp at hf; omega
        simp [hc]
    · next hf =>
        simp at hf
        rw [Nat.mod_eq_of_lt hf]
        simp

/-- **A list put in** item by item: it needs room for its first item only. -/
theorem putAll_of_lt (h : b.queue.length < cap) :
    ∃ b', putAll cap e xs b = .ok b' ∧ b'.all = b.all ++ xs ∧
      b'.queue.length = (b.queue.length + xs.length) % cap := by
  induction xs generalizing b with
  | nil => exact ⟨b, rfl, by simp, by simp [Nat.mod_eq_of_lt h]⟩
  | cons x xs ih =>
      obtain ⟨b₁, h1, hall, hlen⟩ := putFlush_of_lt (e := e) (x := x) h
      obtain ⟨b', h2, hall', hlen'⟩ := ih (b := b₁) (by rw [hlen]; exact Nat.mod_lt _ (by omega))
      refine ⟨b', ?_, by simp [hall', hall], ?_⟩
      · rw [putAll, h1]
        exact h2
      · rw [hlen', hlen, Nat.mod_add_mod, List.length_cons]
        congr 1
        omega

/-! ## the size of the batches -/

/-- No more than `cap` items are queued, or have been sent in one batch. -/
structure Bounded (cap : Nat) (b : Outbox α) : Prop where
  queue : b.queue.length ≤ cap
  sent : ∀ xs ∈ b.sent, xs.length ≤ cap

theorem bounded_empty : Bounded cap ({} : Outbox α) := ⟨Nat.zero_le _, by simp⟩

namespace Bounded

theorem flush (h : Bounded cap b) : Bounded cap b.flush := by
  refine ⟨by simp, fun xs hxs => ?_⟩
  unfold Outbox.flush at hxs
  split at hxs
  · exact h.sent xs hxs
  · obtain hxs | rfl := (by simpa using hxs : xs ∈ b.sent ∨ xs = b.queue)
    · exact h.sent xs hxs
    · exact h.queue

theorem put (h : Bounded cap b) (hput : put cap e x b = .ok b') : Bounded cap b' := by
  unfold Outbox.put at hput
  split at hput
  · next hlt =>
      obtain rfl := Except.ok.inj hput
      refine ⟨?_, h.sent⟩
      rw [List.length_append, List.length_singleton]
      exact hlt
  · contradiction

theorem putFlush (h : Bounded cap b) (hput : putFlush cap e x b = .ok b') : Bounded cap b' := by
  unfold Outbox.putFlush at hput
  cases hp : Outbox.put cap e x b with
  | error e' =>
      rw [hp] at hput
      contradiction
  | ok b₁ =>
      rw [hp] at hput
      obtain rfl : flushFull cap b₁ = b' := Except.ok.inj hput
      have hb := h.put hp
      unfold flushFull
      split
      · exact hb.flush
      · exact hb

end Bounded

/-! ## a receiver that takes a part of each batch -/

/-- What is received if `n i b` items are taken of the `i`-th batch `b`. -/
def received (n : Nat → List α → Nat) (bs : List (List α)) : List α :=
  (bs.mapIdx fun i b => b.take (n i b)).flatten

theorem received_cons (n : Nat → List α → Nat) (b : List α) (bs : List (List α)) :
    received n (b :: bs) = b.take (n 0 b) ++ received (fun i => n (i + 1)) bs := by
  simp [received, List.mapIdx_cons]

theorem length_received_le (n : Nat → List α → Nat) (bs : List (List α)) :
    (received n bs).length ≤ bs.flatten.length := by
  induction bs generalizing n with
  | nil => simp [received]
  | cons b bs ih =>
      have hrest := ih fun i => n (i + 1)
      rw [received_cons, List.flatten_cons, List.length_append, List.length_append,
        List.length_take]
      omega

/-- **Everything is received** exactly if every batch is taken whole. -/
theorem received_eq_iff (n : Nat → List α → Nat) (bs : List (List α)) :
    received n bs = bs.flatten ↔ ∀ i b, bs[i]? = some b → b.length ≤ n i b := by
  induction bs generalizing n with
  | nil => simp [received]
  | cons b bs ih =>
      have hrest := length_received_le (fun i => n (i + 1)) bs
      rw [received_cons, List.flatten_cons]
      constructor
      · intro h
        have hlen := congrArg List.length h
        rw [List.length_append, List.length_append, List.length_take] at hlen
        have htake : (b.take (n 0 b)).length = b.length := by
          rw [List.length_take]
          omega
        have htail := (ih _).mp (List.append_inj_right h htake)
        intro i c hc
        cases i with
        | zero =>
            obtain rfl : b = c := by simpa using hc
            rw [List.length_take] at htake
            omega
        | succ i => exact htail i c (by simpa using hc)
      · intro h
        have hhead : b.length ≤ n 0 b := h 0 b rfl
        rw [List.take_of_length_le hhead, (ih _).mpr fun i c hc => h (i + 1) c (by simpa using hc)]

end Outbox
