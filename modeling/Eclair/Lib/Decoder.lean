import Mathlib.Data.List.Flatten

/-!
# Eclair.Lib.Decoder

Devices that send messages as bytes, and the queues that keep the messages.

A `Decoder` turns a stream into elements, one byte at a time.  `decodes` is
the round trip: if each message alone is decoded from the idle state back to
the idle state, so is every sequence of messages.

A `Port` is a decoder whose elements go to a queue of bounded size, from
which requests are answered; a full queue drops what comes in.
-/

/-- A state machine that some bytes make give out an element. -/
structure Decoder (B α D : Type*) where
  step : D → B → Option α × D

namespace Decoder

variable {B α D M : Type*} (T : Decoder B α D) {d idle : D}

/-- The elements that come out of the bytes. -/
def elems : D → List B → List α
  | _, [] => []
  | d, b :: bs => (T.step d b).1.toList ++ elems (T.step d b).2 bs

/-- The state after the bytes. -/
def after (d : D) (bs : List B) : D := bs.foldl (fun d b => (T.step d b).2) d

theorem elems_append (as bs : List B) :
    T.elems d (as ++ bs) = T.elems d as ++ T.elems (T.after d as) bs := by
  induction as generalizing d with
  | nil => rfl
  | cons a as ih => simp [elems, after, ih]

theorem after_append (as bs : List B) : T.after d (as ++ bs) = T.after (T.after d as) bs :=
  List.foldl_append

/-- The bytes of the message are decoded to its element, and leave nothing
behind. -/
structure Takes (idle : D) (bytes : List B) (elem : Option α) : Prop where
  elems : T.elems idle bytes = elem.toList
  after : T.after idle bytes = idle

variable {T}

/-- **Round trip**: messages that are each decoded are decoded in a row. -/
theorem decodes {bytes : M → List B} {elem : M → Option α} {ms : List M}
    (h : ∀ m ∈ ms, T.Takes idle (bytes m) (elem m)) :
    T.elems idle (ms.flatMap bytes) = ms.filterMap elem ∧ T.after idle (ms.flatMap bytes) = idle := by
  induction ms with
  | nil => exact ⟨rfl, rfl⟩
  | cons m ms ih =>
      obtain ⟨he, ha⟩ := h m (by simp)
      obtain ⟨ihe, iha⟩ := ih fun m hm => h m (by simp [hm])
      rw [List.flatMap_cons, elems_append, after_append, he, ha, ihe, iha]
      refine ⟨?_, rfl⟩
      cases hm : elem m <;> simp [hm]

end Decoder

/-! ## ports -/

/-- What happens at a port: a byte comes in, or someone asks. -/
inductive PortOp (B Q : Type*) where
  | byte (b : B)
  | ask (q : Q)

/-- A decoder, the queue it fills and how requests are answered from it. -/
structure Port (B α D Q R : Type*) extends Decoder B α D where
  room : Nat
  reply : Q → List α → R × List α

namespace Port

variable {B α D Q R : Type*} (P : Port B α D Q R)

/-- The queue takes the element, if it has room. -/
def push (q : List α) : Option α → List α
  | none => q
  | some a => if q.length < P.room then q ++ [a] else q

/-- One operation: what is answered, the decoder and the queue. -/
def next (d : D) (q : List α) : PortOp B Q → Option R × D × List α
  | .byte b => (none, (P.step d b).2, P.push q (P.step d b).1)
  | .ask r => (some (P.reply r q).1, d, (P.reply r q).2)

/-- What the requests are answered, in order. -/
def answers : D → List α → List (PortOp B Q) → List R
  | _, _, [] => []
  | d, q, op :: ops =>
      (P.next d q op).1.toList ++ answers (P.next d q op).2.1 (P.next d q op).2.2 ops

/-- The bytes that come in. -/
def bytes : List (PortOp B Q) → List B
  | [] => []
  | .byte b :: ops => b :: bytes ops
  | .ask _ :: ops => bytes ops

end Port
