import Eclair.Lib.RingBuf

/-!
# Eclair.Lib.Fifo

FIFO queues of bounded size, and the rings that implement them.

`Fifo.next` is the queue as a list: a put without room changes nothing.  A
`RingFifo` is an implementation whose states are rings that are asked for
room; `RingFifo.refines` says that it answers every list of operations as
the queue of all slots but one does.
-/

/-- An operation on a queue. -/
inductive FifoOp (α : Type*) where
  | put (a : α)
  | get
  | flush
  deriving DecidableEq, Repr

namespace Fifo

variable {α : Type*} {room : Nat} {q : List α} {ops : List (FifoOp α)}

/-- What a queue with room for `room` elements answers, and the queue after it. -/
def next (room : Nat) (q : List α) : FifoOp α → Option α × List α
  | .put a => (none, if q.length < room then q ++ [a] else q)
  | .get => (q.head?, q.tail)
  | .flush => (none, [])

/-- The queue after the operations. -/
def after (room : Nat) : List α → List (FifoOp α) → List α
  | q, [] => q
  | q, op :: ops => after room (next room q op).2 ops

/-- What the operations are answered. -/
def answers (room : Nat) : List α → List (FifoOp α) → List (Option α)
  | _, [] => []
  | q, op :: ops => (next room q op).1 :: answers room (next room q op).2 ops

/-- The elements that were put. -/
def puts : List (FifoOp α) → List α
  | [] => []
  | .put a :: ops => a :: puts ops
  | .get :: ops => puts ops
  | .flush :: ops => puts ops

/-- **In the order put, once each**: what is given out, and then what is left, are elements that
were put. -/
theorem answers_sublist :
    ((answers room q ops).filterMap id ++ after room q ops).Sublist (q ++ puts ops) := by
  induction ops generalizing q with
  | nil => simp [answers, after, puts]
  | cons op ops ih =>
      have hrest := ih (q := (next room q op).2)
      cases op with
      | put a =>
          refine List.Sublist.trans hrest ?_
          rw [next, puts]
          split
          · rw [List.append_assoc, List.singleton_append]
          · exact List.Sublist.append_left (List.sublist_cons_self a _) q
      | get =>
          cases q with
          | nil => exact hrest
          | cons b q => exact List.Sublist.cons_cons b hrest
      | flush => exact hrest.trans (List.sublist_append_right q _)

end Fifo

/-- An implementation of a queue whose states are rings of `slots` slots, and
whose gets answer by `answer`. -/
structure RingFifo (S α β : Type*) [Inhabited α] where
  slots : Nat
  slots_pos : 0 < slots
  put : S → α → S
  get : S → β × S
  flush : S → S
  ring : S → RingBuf α
  answer : Option α → β
  ring_put : ∀ s a, (ring s).size = slots → ring (put s a) = (ring s).offer a
  put_full : ∀ s a, (ring s).size = slots → ((ring s).last + 1) % slots = (ring s).first → put s a = s
  get_none : ∀ s, (ring s).size = slots → (ring s).take = none → get s = (answer none, s)
  get_some : ∀ s a r, (ring s).size = slots → (ring s).take = some (a, r) →
    (get s).1 = answer (some a) ∧ ring (get s).2 = r
  ring_flush : ∀ s, ring (flush s) = (ring s).clear

namespace RingFifo

variable {S α β : Type*} [Inhabited α] (Q : RingFifo S α β) {s : S}

/-- The elements a state keeps. -/
def pending (s : S) : List α := (Q.ring s).pending

/-- One operation; only a get has an answer. -/
def next (s : S) : FifoOp α → β × S
  | .put a => (Q.answer none, Q.put s a)
  | .get => Q.get s
  | .flush => (Q.answer none, Q.flush s)

/-- The state after the operations. -/
def after : S → List (FifoOp α) → S
  | s, [] => s
  | s, op :: ops => after (Q.next s op).2 ops

/-- What the operations are answered. -/
def answers : S → List (FifoOp α) → List β
  | _, [] => []
  | s, op :: ops => (Q.next s op).1 :: answers (Q.next s op).2 ops

/-- A state that is a ring of the right size; its ends are slots. -/
def Valid (s : S) : Prop := (Q.ring s).Valid ∧ (Q.ring s).size = Q.slots

/-- After the operations the state is what a FIFO queue with room for all slots but one makes of
them; a put without room changes nothing. -/
structure Refines (s : S) (ops : List (FifoOp α)) : Prop where
  inside : Q.Valid (Q.after s ops)
  answers : Q.answers s ops = (Fifo.answers (Q.slots - 1) (Q.pending s) ops).map Q.answer
  pending : Q.pending (Q.after s ops) = Fifo.after (Q.slots - 1) (Q.pending s) ops
  bounded : (Q.pending (Q.after s ops)).length ≤ Q.slots - 1
  full : (Q.pending (Q.after s ops)).length = Q.slots - 1 → ∀ a, Q.put (Q.after s ops) a = Q.after s ops

variable {Q}

theorem Valid.length_le (h : Q.Valid s) : (Q.pending s).length ≤ Q.slots - 1 := by
  have hlt := RingBuf.count_lt h.1
  rw [h.2] at hlt
  rw [RingFifo.pending, RingBuf.length_pending]
  omega

/-- **Step**: an operation does what it does on the queue. -/
theorem Valid.next_spec (h : Q.Valid s) (op : FifoOp α) :
    Q.Valid (Q.next s op).2 ∧ (Q.next s op).1 = Q.answer (Fifo.next (Q.slots - 1) (Q.pending s) op).1 ∧
      Q.pending (Q.next s op).2 = (Fifo.next (Q.slots - 1) (Q.pending s) op).2 := by
  obtain ⟨hv, hsize⟩ := h
  cases op with
  | put a =>
      have hring : Q.ring (Q.next s (.put a)).2 = (Q.ring s).offer a := Q.ring_put s a hsize
      refine ⟨⟨?_, ?_⟩, rfl, ?_⟩
      · rw [hring]
        exact RingBuf.offer_valid hv
      · rw [hring, RingBuf.size_offer, hsize]
      · rw [RingFifo.pending, hring, RingBuf.pending_offer hv, hsize]
        rfl
  | get =>
      cases hp : (Q.ring s).pending with
      | nil =>
          have hget : Q.next s .get = (Q.answer none, s) :=
            Q.get_none s hsize (RingBuf.take_eq_none hv hp)
          rw [hget]
          exact ⟨⟨hv, hsize⟩, by rw [RingFifo.pending, hp]; rfl, by rw [RingFifo.pending, hp]; rfl⟩
      | cons b l =>
          obtain ⟨r, htake, hv', hsize', hl⟩ := RingBuf.take_eq_some hv hp
          obtain ⟨hanswer, hring⟩ := Q.get_some s b r hsize htake
          have hring' : Q.ring (Q.next s .get).2 = r := hring
          refine ⟨⟨?_, ?_⟩, ?_, ?_⟩
          · rwa [hring']
          · rw [hring', hsize', hsize]
          · rw [RingFifo.pending, hp]
            exact hanswer
          · rw [RingFifo.pending, RingFifo.pending, hring', hl, hp]
            rfl
  | flush =>
      have hring : Q.ring (Q.next s .flush).2 = (Q.ring s).clear := Q.ring_flush s
      refine ⟨⟨?_, ?_⟩, rfl, ?_⟩
      · rw [hring]
        exact RingBuf.clear_valid (hsize ▸ Q.slots_pos)
      · rw [hring, RingBuf.size_clear, hsize]
      · rw [RingFifo.pending, hring]
        exact RingBuf.pending_clear

/-- **Run**: every list of operations is answered as by the queue. -/
theorem Valid.refines (h : Q.Valid s) (ops : List (FifoOp α)) : Q.Refines s ops := by
  induction ops generalizing s with
  | nil =>
      refine ⟨h, rfl, rfl, h.length_le, fun hfull a => Q.put_full s a h.2 ?_⟩
      have hcount : (Q.ring s).count = Q.slots - 1 := by rw [← RingBuf.length_pending]; exact hfull
      have hpos := Q.slots_pos
      rw [← h.2, RingBuf.full_iff h.1, h.2]
      omega
  | cons op ops ih =>
      obtain ⟨hv, hanswer, hpending⟩ := h.next_spec op
      have hrest := ih hv
      refine ⟨hrest.inside, ?_, ?_, hrest.bounded, hrest.full⟩
      · rw [RingFifo.answers, Fifo.answers, List.map_cons, ← hanswer, ← hpending, ← hrest.answers]
      · rw [Fifo.after, ← hpending, ← hrest.pending]
        rfl

end RingFifo
