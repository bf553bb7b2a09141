import Mathlib.Data.List.Basic
import Eclair.Lib.System

/-!
# Eclair.Lib.RingBuf

Ring buffers that read equal ends as empty.

A `RingBuf` is an array with the place `first` of the oldest element and the
place `last` of the next one.  `post` does not look at `first`: with one
slot free the ends meet, and everything pending is gone.

`offer` is a post that does look, and leaves a ring without room as it is.

`RingQueue` is an implementation of a queue whose states are rings.  It is
run by a list of `QueueOp`s under observation (`Seen`), and
`RingQueue.keeps_iff` says which runs keep what was posted: those in which
no post finds `size - 1` elements pending, which is counted on the list
alone (`Fits`).
-/

/-- A ring buffer: the slots, the oldest one, and the next one to fill. -/
structure RingBuf (α : Type*) where
  slots : List α
  first : Nat
  last : Nat

namespace RingBuf

variable {α : Type*} {r : RingBuf α} {a : α} {i n : Nat}

/-- How many slots there are. -/
def size (r : RingBuf α) : Nat := r.slots.length

/-- How many elements are pending. -/
def count (r : RingBuf α) : Nat := (r.last + r.size - r.first) % r.size

/-- The slot `i` places after the oldest one. -/
def slotAt (r : RingBuf α) (i : Nat) : Nat := (r.first + i) % r.size

/-- The slot `last` filled and passed. -/
def post (r : RingBuf α) (a : α) : RingBuf α :=
  { r with slots := r.slots.set r.last a, last := (r.last + 1) % r.size }

/-- A post that leaves a ring without room as it is. -/
def offer (r : RingBuf α) (a : α) : RingBuf α :=
  if (r.last + 1) % r.size = r.first then r else r.post a

/-- Both ends at the first slot. -/
def clear (r : RingBuf α) : RingBuf α := { r with first := 0, last := 0 }

/-- Both ends are slots. -/
structure Valid (r : RingBuf α) : Prop where
  first : r.first < r.size
  last : r.last < r.size

@[simp] theorem size_post : (r.post a).size = r.size := by simp [post, size]

@[simp] theorem slots_post : (r.post a).slots = r.slots.set r.last a := rfl

@[simp] theorem first_post : (r.post a).first = r.first := rfl

@[simp] theorem last_post : (r.post a).last = (r.last + 1) % r.size := rfl

@[simp] theorem slotAt_post : (r.post a).slotAt i = r.slotAt i := by simp [slotAt]

/-! ## places -/

/-- One turn around. -/
theorem mod_turn {k : Nat} (h : k < 2 * n) : k % n = if k < n then k else k - n := by
  split
  · next hk => exact Nat.mod_eq_of_lt hk
  · next hk => rw [Nat.mod_eq_sub_mod (by omega), Nat.mod_eq_of_lt (by omega)]

theorem count_eq (hv : r.Valid) :
    r.count = if r.first ≤ r.last then r.last - r.first else r.last + r.size - r.first := by
  have := hv.first
  have := hv.last
  rw [count, mod_turn (by omega)]
  split <;> split <;> omega

theorem count_lt (hv : r.Valid) : r.count < r.size := Nat.mod_lt _ (by have := hv.first; omega)

/-- The slots of the pending elements are not the next one. -/
theorem slotAt_ne_last (hv : r.Valid) (h : i < r.count) : r.slotAt i ≠ r.last := by
  have := hv.first
  have := hv.last
  rw [count_eq hv] at h
  rw [slotAt, mod_turn (by split at h <;> omega)]
  split at h <;> split <;> omega

theorem slotAt_count (hv : r.Valid) : r.slotAt r.count = r.last := by
  have := hv.first
  have := hv.last
  have := count_eq hv
  rw [slotAt, mod_turn (by split at this <;> omega)]
  split at this <;> split <;> omega

theorem post_valid (hv : r.Valid) : (r.post a).Valid where
  first := by simpa only [first_post, size_post] using hv.first
  last := by simpa only [last_post, size_post] using Nat.mod_lt _ (by have := hv.first; omega)

theorem count_post (hv : r.Valid) :
    (r.post a).count = if r.count + 1 = r.size then 0 else r.count + 1 := by
  have := hv.first
  have := hv.last
  have hturn := mod_turn (by omega : r.last + 1 < 2 * r.size)
  rw [count_eq (post_valid hv), count_eq hv]
  simp only [first_post, last_post, size_post, hturn]
  split_ifs <;> omega

/-- The ring has room unless all slots but one are pending. -/
theorem full_iff (hv : r.Valid) : (r.last + 1) % r.size = r.first ↔ r.count + 1 = r.size := by
  have := hv.first
  have := hv.last
  have hturn := mod_turn (by omega : r.last + 1 < 2 * r.size)
  rw [count_eq hv, hturn]
  split_ifs <;> omega

theorem offer_valid (hv : r.Valid) : (r.offer a).Valid := by
  rw [offer]
  split
  · exact hv
  · exact post_valid hv

@[simp] theorem size_offer : (r.offer a).size = r.size := by
  rw [offer]
  split
  · rfl
  · exact size_post

theorem clear_valid (h : 0 < r.size) : r.clear.Valid := ⟨h, h⟩

@[simp] theorem size_clear : r.clear.size = r.size := rfl

/-! ## the operations -/

variable [Inhabited α]

/-- The pending elements, the oldest one first. -/
def pending (r : RingBuf α) : List α :=
  (List.range r.count).map fun i => r.slots.getD (r.slotAt i) default

/-- The oldest element, and the ring without it. -/
def take (r : RingBuf α) : Option (α × RingBuf α) :=
  if r.first = r.last then none
  else some (r.slots.getD r.first default, { r with first := (r.first + 1) % r.size })

theorem length_pending : r.pending.length = r.count := by simp [pending]

/-- Equal ends are empty. -/
theorem pending_of_eq (h : r.first = r.last) : r.pending = [] := by
  have hc : r.count = 0 := by rw [count, h, Nat.add_sub_cancel_left, Nat.mod_self]
  rw [pending, hc, List.range_zero, List.map_nil]

/-- A post to a ring with room. -/
theorem pending_post (hv : r.Valid) (h : r.count + 1 < r.size) :
    (r.post a).pending = r.pending ++ [a] := by
  have hc : (r.post a).count = r.count + 1 := by rw [count_post hv, if_neg (by omega)]
  have hl : r.last < r.slots.length := hv.last
  rw [pending, hc, List.range_succ, List.map_append, List.map_singleton, slotAt_post,
    slotAt_count hv]
  congr 1
  · refine List.map_congr_left fun i hi => ?_
    have hne := slotAt_ne_last hv (List.mem_range.mp hi)
    simp [List.getD_eq_getElem?_getD, List.getElem?_set_ne (Ne.symm hne)]
  · simp [List.getD_eq_getElem?_getD, hl]

/-- A post to a ring without room: nothing is left. -/
theorem pending_post_full (hv : r.Valid) (h : r.count + 1 = r.size) : (r.post a).pending = [] := by
  simp [pending, count_post hv, h]

/-- A post where the ring is asked for room. -/
theorem pending_offer (hv : r.Valid) :
    (r.offer a).pending = if r.pending.length < r.size - 1 then r.pending ++ [a] else r.pending := by
  have hlt := count_lt hv
  rw [offer, length_pending]
  by_cases hfull : r.count + 1 = r.size
  · rw [if_pos ((full_iff hv).mpr hfull), if_neg (by omega)]
  · rw [if_neg (mt (full_iff hv).mp hfull), if_pos (by omega), pending_post hv (by omega)]

theorem pending_clear : r.clear.pending = [] := pending_of_eq rfl

theorem eq_of_take (h : r.take = none) : r.first = r.last := by
  by_contra hne
  rw [take, if_neg hne] at h
  contradiction

theorem take_eq_none (hv : r.Valid) (h : r.pending = []) : r.take = none := by
  have hc : r.count = 0 := by rw [← length_pending, h, List.length_nil]
  have := hv.first
  rw [count_eq hv] at hc
  rw [take, if_pos (by split at hc <;> omega)]

/-- What is taken is the first pending element. -/
theorem take_eq_some {l : List α} (hv : r.Valid) (h : r.pending = a :: l) :
    ∃ r', r.take = some (a, r') ∧ r'.Valid ∧ r'.size = r.size ∧ r'.pending = l := by
  have hc : r.count = l.length + 1 := by rw [← length_pending, h, List.length_cons]
  have hf := hv.first
  have hl := hv.last
  have hd := count_eq hv
  have hne : r.first ≠ r.last := fun he => by
    rw [if_pos (by omega)] at hd
    omega
  let r' : RingBuf α := { r with first := (r.first + 1) % r.size }
  have hv' : r'.Valid := ⟨Nat.mod_lt _ (by omega), hl⟩
  have hc' : r'.count = l.length := by
    have hturn := mod_turn (by omega : r.first + 1 < 2 * r.size)
    have hs : r'.size = r.size := rfl
    have hlast : r'.last = r.last := rfl
    have hfirst : r'.first = (r.first + 1) % r.size := rfl
    rw [count_eq hv', hs, hlast, hfirst, hturn]
    split at hd <;> split_ifs <;> omega
  rw [pending, hc, List.range_succ_eq_map, List.map_cons] at h
  obtain ⟨ha, ht⟩ := List.cons.inj h
  refine ⟨r', ?_, hv', rfl, ?_⟩
  · have h0 : r.slotAt 0 = r.first := Nat.mod_eq_of_lt hf
    rw [take, if_neg hne, ← ha, h0]
  · rw [← ht, pending, hc', List.map_map]
    refine List.map_congr_left fun i _ => ?_
    simp only [r', slotAt, size, Function.comp_apply, Nat.mod_add_mod, Nat.add_assoc,
      Nat.add_comm 1 i, Nat.succ_eq_add_one]

end RingBuf

/-! ## queues under observation -/

/-- An operation on a queue. -/
inductive QueueOp (α : Type*) where
  | post (a : α)
  | take
  deriving DecidableEq, Repr

namespace QueueOp

variable {α : Type*}

/-- How many elements are pending after the operation, if `n` are before it. -/
def backlog (n : Nat) : QueueOp α → Nat
  | post _ => n + 1
  | take => n - 1

/-- There is room for the operation if `n` elements are pending. -/
def HasRoom (room n : Nat) : QueueOp α → Prop
  | post _ => n < room
  | take => True

instance (room n : Nat) : (op : QueueOp α) → Decidable (op.HasRoom room n)
  | post _ => inferInstanceAs (Decidable (n < room))
  | take => inferInstanceAs (Decidable True)

/-- No post of the list finds `room` elements pending. -/
def Fits (room : Nat) (n : Nat) (ops : List (QueueOp α)) : Prop :=
  System.Along backlog (HasRoom room) n ops

instance Fits.dec (room : Nat) : (n : Nat) → (ops : List (QueueOp α)) → Decidable (Fits room n ops)
  | _, [] => inferInstanceAs (Decidable True)
  | n, op :: ops => @instDecidableAnd _ _ _ (Fits.dec room (op.backlog n) ops)

end QueueOp

/-- A queue with everything that was posted to it and taken from it. -/
structure Seen (S α : Type*) where
  state : S
  posted : List α
  taken : List α

/-- A queue of which nothing was seen yet. -/
def Seen.start {S α : Type*} (s : S) : Seen S α := ⟨s, [], []⟩

/-- An implementation of a queue whose states are rings of `slots` slots. -/
structure RingQueue (S α : Type*) [Inhabited α] where
  slots : Nat
  post : S → α → S
  take : S → Option (α × S)
  ring : S → RingBuf α
  ring_post : ∀ s a, (ring s).size = slots → ring (post s a) = (ring s).post a
  ring_take : ∀ s, (ring s).size = slots → (take s).map (Prod.map id ring) = (ring s).take

namespace RingQueue

variable {S α : Type*} [Inhabited α] (Q : RingQueue S α) {s : S} {a : α} {l : List α}
  {q : Seen S α} {op : QueueOp α} {ops : List (QueueOp α)}

/-- The events a state keeps. -/
def pending (s : S) : List α := (Q.ring s).pending

/-- One operation, observed. -/
def next (q : Seen S α) : QueueOp α → Seen S α
  | .post a => { q with state := Q.post q.state a, posted := q.posted ++ [a] }
  | .take =>
      match Q.take q.state with
      | none => q
      | some (a, s) => { q with state := s, taken := q.taken ++ [a] }

/-- What is asked of an operation: the elements taken are a subsequence of
those posted, what is kept are recent ones and fits, a take loses nothing,
and a post loses one element at most and leaves something. -/
structure Keeps (q : Seen S α) (op : QueueOp α) : Prop where
  inOrder : (Q.next q op).taken.Sublist (Q.next q op).posted
  recent : Q.pending (Q.next q op).state <:+ (Q.next q op).posted
  bounded : (Q.pending (Q.next q op).state).length < Q.slots
  taking : op = .take →
    (Q.next q op).taken ++ Q.pending (Q.next q op).state = q.taken ++ Q.pending q.state
  posting : ∀ a, op = .post a →
    (Q.pending (Q.next q op).state).Sublist (Q.pending q.state ++ [a]) ∧
    (Q.pending q.state).length ≤ (Q.pending (Q.next q op).state).length ∧
    Q.pending (Q.next q op).state ≠ []

/-- Every operation of the list keeps what it should. -/
def KeepsAll (q : Seen S α) (ops : List (QueueOp α)) : Prop := System.Along Q.next Q.Keeps q ops

/-- A state that is a ring of the right size. -/
def Valid (s : S) : Prop := (Q.ring s).Valid ∧ (Q.ring s).size = Q.slots

/-- Everything posted was taken or is pending. -/
structure Inv (q : Seen S α) : Prop where
  valid : Q.Valid q.state
  posted : q.posted = q.taken ++ Q.pending q.state

variable {Q}

/-! ## one operation -/

theorem Valid.post (h : Q.Valid s) : Q.Valid (Q.post s a) := by
  rw [Valid, Q.ring_post s a h.2]
  exact ⟨RingBuf.post_valid h.1, RingBuf.size_post.trans h.2⟩

theorem Valid.length_lt (h : Q.Valid s) : (Q.pending s).length < Q.slots := by
  rw [pending, RingBuf.length_pending, ← h.2]
  exact RingBuf.count_lt h.1

/-- A post with room. -/
theorem Valid.pending_post (h : Q.Valid s) (hr : (Q.pending s).length < Q.slots - 1) :
    Q.pending (Q.post s a) = Q.pending s ++ [a] := by
  rw [pending, RingBuf.length_pending, ← h.2] at hr
  rw [pending, Q.ring_post s a h.2, RingBuf.pending_post h.1 (by omega), pending]

/-- A post without room. -/
theorem Valid.pending_post_full (h : Q.Valid s) (hr : ¬ (Q.pending s).length < Q.slots - 1) :
    Q.pending (Q.post s a) = [] := by
  have hlt := h.length_lt
  rw [pending, RingBuf.length_pending, ← h.2] at hr hlt
  rw [pending, Q.ring_post s a h.2, RingBuf.pending_post_full h.1 (by omega)]

/-- A take from an empty queue. -/
theorem Valid.take_nil (h : Q.Valid s) (hp : Q.pending s = []) : Q.take s = none := by
  have ht := Q.ring_take s h.2
  rw [RingBuf.take_eq_none h.1 hp] at ht
  exact Option.map_eq_none_iff.mp ht

/-- A take from a queue with elements. -/
theorem Valid.take_cons (h : Q.Valid s) (hp : Q.pending s = a :: l) :
    ∃ t, Q.take s = some (a, t) ∧ Q.Valid t ∧ Q.pending t = l := by
  obtain ⟨r, hr, hv, hs, hl⟩ := RingBuf.take_eq_some h.1 hp
  have ht := (Q.ring_take s h.2).trans hr
  obtain ⟨⟨b, t⟩, htake, heq⟩ := Option.map_eq_some_iff.mp ht
  obtain ⟨rfl, rfl⟩ := Prod.mk.inj heq
  exact ⟨t, htake, ⟨hv, hs.trans h.2⟩, hl⟩

/-! ## the runs -/

/-- A take keeps the invariant and what it should. -/
theorem Inv.take (h : Q.Inv q) : Q.Inv (Q.next q .take) ∧ Q.Keeps q .take := by
  cases hp : Q.pending q.state with
  | nil =>
      have hq : Q.next q .take = q := by simp only [next, h.valid.take_nil hp]
      have hpost : q.posted = q.taken := by rw [h.posted, hp, List.append_nil]
      refine ⟨hq.symm ▸ h, ?_, ?_, ?_, ?_, fun a ha => by contradiction⟩
      · rw [hq, hpost]
      · rw [hq, hp]
        exact List.nil_suffix
      · rw [hq]
        exact h.valid.length_lt
      · rw [hq]
        exact fun _ => rfl
  | cons a l =>
      obtain ⟨t, ht, hv, hl⟩ := h.valid.take_cons hp
      have hq : Q.next q .take = { q with state := t, taken := q.taken ++ [a] } := by
        simp only [next, ht]
      have hpost : q.posted = (q.taken ++ [a]) ++ Q.pending t := by simp [h.posted, hp, hl]
      refine ⟨hq ▸ ⟨hv, hpost⟩, ?_, ?_, ?_, ?_, fun a ha => by contradiction⟩
      · rw [hq, hpost]
        exact List.sublist_append_left _ _
      · rw [hq, hpost]
        exact List.suffix_append _ _
      · rw [hq]
        exact hv.length_lt
      · rw [hq, hl, hp]
        simp

/-- A ring with equal ends starts a run. -/
theorem inv_start (hv : Q.Valid s) (h : Q.pending s = []) : Q.Inv (.start s) :=
  ⟨hv, h.symm⟩

/-- A post with room keeps the invariant and what it should. -/
theorem Inv.post (h : Q.Inv q) (hr : (Q.pending q.state).length < Q.slots - 1) :
    Q.Inv (Q.next q (.post a)) ∧ Q.Keeps q (.post a) := by
  have hp : Q.pending (Q.post q.state a) = Q.pending q.state ++ [a] := h.valid.pending_post hr
  have hpost : q.posted ++ [a] = q.taken ++ Q.pending (Q.post q.state a) := by
    rw [h.posted, hp, List.append_assoc]
  have hq : Q.next q (.post a) = ⟨Q.post q.state a, q.posted ++ [a], q.taken⟩ := rfl
  refine ⟨⟨h.valid.post, hpost⟩, ?_, ?_, h.valid.post.length_lt, fun ht => by contradiction, ?_⟩
  · rw [hq, hpost]
    exact List.sublist_append_left _ _
  · rw [hq, hpost]
    exact List.suffix_append _ _
  · intro b hb
    obtain rfl := QueueOp.post.inj hb
    rw [hq, hp]
    exact ⟨.refl _, by simp, by simp⟩

/-- **What an operation should keep it keeps exactly if there is room for it.** -/
theorem Inv.keeps_iff (h : Q.Inv q) :
    Q.Keeps q op ↔ op.HasRoom (Q.slots - 1) (Q.pending q.state).length := by
  cases op with
  | take => exact iff_of_true h.take.2 trivial
  | post a =>
      refine ⟨fun hk => ?_, fun hr => (h.post hr).2⟩
      by_contra hr
      exact (hk.posting a rfl).2.2 (h.valid.pending_post_full hr)

/-- An operation with room for it keeps the invariant, and the count of what is pending. -/
theorem Inv.next (h : Q.Inv q) (hr : op.HasRoom (Q.slots - 1) (Q.pending q.state).length) :
    Q.Inv (Q.next q op) ∧
      (Q.pending (Q.next q op).state).length = op.backlog (Q.pending q.state).length := by
  cases op with
  | post a =>
      refine ⟨(h.post hr).1, ?_⟩
      have hp : Q.pending (Q.next q (.post a)).state = Q.pending q.state ++ [a] :=
        h.valid.pending_post hr
      rw [hp, List.length_append, List.length_singleton, QueueOp.backlog]
  | take =>
      refine ⟨h.take.1, ?_⟩
      cases hp : Q.pending q.state with
      | nil => simp only [RingQueue.next, h.valid.take_nil hp, hp, List.length_nil, QueueOp.backlog]
      | cons a l =>
          obtain ⟨t, ht, -, hl⟩ := h.valid.take_cons hp
          simp only [RingQueue.next, ht, hl, List.length_cons, QueueOp.backlog, Nat.add_sub_cancel]

/-- **A run keeps what it should exactly if no post finds `slots - 1` elements pending.** -/
theorem Inv.keepsAll_iff (h : Q.Inv q) :
    Q.KeepsAll q ops ↔ QueueOp.Fits (Q.slots - 1) (Q.pending q.state).length ops := by
  induction ops generalizing q with
  | nil => exact Iff.rfl
  | cons op ops ih =>
      refine (and_congr_left' h.keeps_iff).trans (and_congr_right fun hr => ?_)
      obtain ⟨hi, hl⟩ := h.next hr
      rw [← hl]
      exact ih hi

end RingQueue
