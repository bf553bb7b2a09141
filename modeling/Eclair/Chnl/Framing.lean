import Eclair.Vfs.Chnlfs

/-!
# Eclair.Chnl.Framing

Reading one message in parts.  `read_fs` counts down the length of the
message but always copies from the start of the buffer: a second part is
again the beginning of the message.  So the parts make up the message
exactly when every part of it looks like its beginning (`Recurs`), above all
when the first read takes everything; the channel is freed with the last
byte in any case.
-/

namespace Eclair

/-- Successive reads by one task: what they return and the channel after. -/
def readAll (tid : Int) : List Nat → ChnlInfo → List Bytes × ChnlInfo
  | [], c => ([], c)
  | n :: ns, c =>
      let r := chnlRead tid n c
      let rs := readAll tid ns r.2
      (r.1 :: rs.1, rs.2)

/-- **Framing**: the reads of sizes `ns` return the message `m` in order and
once each, as far as they reach, and free the channel with its last byte. -/
def Framed (tid : Int) (m : Bytes) (ns : List Nat) (c : ChnlInfo) : Prop :=
  (readAll tid ns c).1.flatten = m.take ns.sum ∧
    ((readAll tid ns c).2.source = -1 ∧ (readAll tid ns c).2.dest = -1 ↔ m.length ≤ ns.sum)

/-- Every part of the message that a read of sizes `ns` from position `k` on
takes looks like the beginning of the message. -/
def Recurs (m : Bytes) : Nat → List Nat → Prop
  | _, [] => True
  | k, n :: ns =>
      (m.drop k).take n = m.take (min n (m.length - k)) ∧ Recurs m (k + n) ns

variable {tid : Int} {m : Bytes} {c : ChnlInfo} {k n : Nat} {ns : List Nat}

/-- The message is in the buffer and `k` bytes of it are counted as read. -/
structure Pending (tid : Int) (m : Bytes) (k : Nat) (c : ChnlInfo) : Prop where
  bytes : ∀ j, j ≤ m.length → c.bytes j = m.take j
  size : c.size = m.length - k
  free : m.length ≤ k → (c.source = -1 ∧ c.dest = -1) ∨ (k = 0 ∧ c.dest = tid)
  dest : k < m.length → c.dest = tid

/-- **One read** counts its part of the message off and returns as many
bytes from the beginning. -/
theorem Pending.read (h : Pending tid m k c) (ht : 0 ≤ tid) (hn : 0 < n) :
    (chnlRead tid n c).1 = m.take (min n (m.length - k)) ∧
      Pending tid m (k + n) (chnlRead tid n c).2 ∧
      ((chnlRead tid n c).2.source = -1 ∧ (chnlRead tid n c).2.dest = -1 ↔
        m.length ≤ k + n) := by
  by_cases hd : tid = c.dest
  · rw [chnlRead_of_eq hd]
    have hb : c.bytes (min n c.size) = m.take (min n (m.length - k)) := by
      rw [h.size]
      exact h.bytes _ (by omega)
    refine ⟨hb, ?_, ?_⟩
    · dsimp only
      split
      · next hs =>
          rw [h.size] at hs
          exact ⟨h.bytes, by simp [ChnlInfo.reset]; omega, fun _ => .inl ⟨rfl, rfl⟩,
            fun hk => by omega⟩
      · next hs =>
          rw [h.size] at hs
          exact ⟨h.bytes, by simp [h.size]; omega, fun hk => by omega, fun _ => hd.symm⟩
    · dsimp only
      split
      · next hs =>
          rw [h.size] at hs
          exact ⟨fun _ => by omega, fun _ => ⟨rfl, rfl⟩⟩
      · next hs =>
          rw [h.size] at hs
          exact ⟨fun hf => by simp [← hd] at hf; omega, fun hk => by omega⟩
  · rw [chnlRead_of_ne hd]
    have hk : m.length ≤ k := Nat.le_of_not_lt fun hk => hd (h.dest hk).symm
    have hfree : c.source = -1 ∧ c.dest = -1 :=
      (h.free hk).resolve_right fun hr => hd hr.2.symm
    refine ⟨?_, ⟨h.bytes, by rw [h.size]; omega, fun _ => .inl hfree, fun hk' => by omega⟩, ?_⟩
    · have h0 : m.length - k = 0 := by omega
      simp [h0]
    · exact ⟨fun _ => by omega, fun _ => hfree⟩

/-- **All reads**: the channel is free once the message has been counted
off, and the parts make up the rest of it exactly if they recur. -/
theorem Pending.readAll (h : Pending tid m k c) (ht : 0 ≤ tid) (hns : ∀ n ∈ ns, 0 < n) :
    ((readAll tid ns c).1.flatten = (m.drop k).take ns.sum ↔ Recurs m k ns) ∧
      (ns ≠ [] → ((Eclair.readAll tid ns c).2.source = -1 ∧
        (Eclair.readAll tid ns c).2.dest = -1 ↔ m.length ≤ k + ns.sum)) := by
  induction ns generalizing k c with
  | nil => simp [Eclair.readAll, Recurs]
  | cons n ns ih =>
      have hn : 0 < n := hns n (by simp)
      obtain ⟨hout, hpend, hfree⟩ := h.read ht hn
      obtain ⟨ih1, ih2⟩ := ih hpend fun x hx => hns x (by simp [hx])
      simp only [Eclair.readAll, List.flatten_cons, List.sum_cons, Recurs]
      constructor
      · -- the first part and the others, by their lengths
        have hsplit : (m.drop k).take (n + ns.sum) =
            (m.drop k).take n ++ (m.drop (k + n)).take ns.sum := by
          rw [List.take_add, List.drop_drop]
        rw [hout, hsplit, ← ih1]
        constructor
        · intro he
          have hlen : (m.take (min n (m.length - k))).length = ((m.drop k).take n).length := by
            simp only [List.length_take, List.length_drop]
            omega
          obtain ⟨h1, h2⟩ := List.append_inj he hlen
          exact ⟨h1.symm, h2⟩
        · rintro ⟨h1, h2⟩
          rw [h1, h2]
      · intro _
        cases ns with
        | nil => simpa [Eclair.readAll] using hfree
        | cons n' ns' =>
            rw [ih2 (by simp), Nat.add_assoc]

/-- A message that has just been written is pending. -/
theorem pending_chnlWrite {writer : Int} (hok : chnlAgain writer c = false)
    (hdest : (chnlWrite writer m c).2.dest = tid) :
    Pending tid (chnlFit m) 0 (chnlWrite writer m c).2 := by
  rw [chnlWrite_of_ok hok] at hdest ⊢
  refine ⟨fun j hj => bytes_chnlCopy hj, rfl, fun _ => .inr ⟨rfl, hdest⟩, fun _ => hdest⟩

/-- **Framing of channel messages**: after an accepted write the reads of
the addressee return the message, in order and once each, exactly if every
later part of it looks like its beginning. -/
theorem framed_iff_recurs (writer : Int) (tid : Nat) (m : Bytes) (c : ChnlInfo) (ns : List Nat)
    (hok : 0 ≤ (chnlWrite writer m c).1) (hdest : (chnlWrite writer m c).2.dest = tid)
    (hne : ns ≠ []) (hns : ∀ n ∈ ns, 0 < n) :
    Framed tid (chnlFit m) ns (chnlWrite writer m c).2 ↔ Recurs (chnlFit m) 0 ns := by
  have hagain : chnlAgain writer c = false := by
    cases h : chnlAgain writer c with
    | false => rfl
    | true => simp [chnlWrite, h, EAGAIN] at hok
  obtain ⟨h1, h2⟩ := (pending_chnlWrite hagain hdest).readAll (Int.natCast_nonneg tid) hns
  have hfree := h2 hne
  rw [Nat.zero_add] at hfree
  rw [List.drop_zero] at h1
  exact ⟨fun h => h1.mp h.1, fun h => ⟨h1.mpr h, hfree⟩⟩

/-- Task 3 reads the message `7 7 7` from task 2 in two parts. -/
theorem framed_iff_recurs_example :
    Framed 3 [7, 7, 7] [2, 2] (chnlWrite 2 [7, 7, 7] (chnlOpen 0 3 {})).2 :=
  (framed_iff_recurs 2 3 [7, 7, 7] (chnlOpen 0 3 {}) [2, 2]
    (by decide) (by decide) (by decide) (by decide)).mpr ⟨rfl, rfl, trivial⟩

/-- **The second part repeats the first**: task 3 reads the message `1 2`
from task 2 one byte at a time and gets `1 1`. -/
theorem not_framed :
    ¬ ∀ (writer : Int) (tid : Nat) (m : Bytes) (c : ChnlInfo) (ns : List Nat),
      0 ≤ (chnlWrite writer m c).1 → (chnlWrite writer m c).2.dest = tid → ns ≠ [] →
      (∀ n ∈ ns, 0 < n) → Framed tid (chnlFit m) ns (chnlWrite writer m c).2 := by
  intro hall
  have h := (hall 2 3 [1, 2] (chnlOpen 0 3 {}) [1, 1]
    (by decide) (by decide) (by decide) (by decide)).1
  exact absurd h (by decide)

end Eclair
