import Eclair.Basic
import Eclair.Lib.ByteMem

/-!
# Eclair.Fs.TarScan

The loop of `tarfs_mount` (`kernel/fs/tarfs.c`) over the headers of an
archive in memory.

The place of the next header is computed in 32 bits, from a size that was
parsed in 32 bits.  `scan_iff` says for which memories the loop goes forward
at every step and ends: those whose entries, laid end to end with no bound
on the addresses, come to an empty name in memory.

`create_node`, which the loop calls for each header, writes to the heap
only and is left out.
-/

namespace Eclair

def TAR_HEADER_SIZE : Nat := 512

/-- `offsetof(tar_header_t, size)`. -/
def TAR_SIZE : Nat := 124

/-- The byte at an address. -/
def tarByte (m : ByteMem) (a : Nat) : UInt8 := m (u32 a)

/-- `(uint32_t)c` of a `char`. -/
def charWord (c : UInt8) : Nat := if c.toNat < 128 then c.toNat else c.toNat + 2 ^ 32 - 256

/-- The loop of `readoct`. -/
def readoctLoop (m : ByteMem) (val : Nat) : Nat → Nat → Nat → Nat
  | 0, _, res => res
  | n + 1, i, res =>
      if tarByte m (val + i) = 0 then res
      else readoctLoop m val n (i + 1)
        (u32 (u32 (res <<< 3) + sub32 (charWord (tarByte m (val + i))) '0'.toNat))

/-- `readoct`. -/
def readoct (m : ByteMem) (val sz : Nat) : Nat := readoctLoop m val sz 0 0

/-- `asize` of the header. -/
def entryAsize (m : ByteMem) (header : Nat) : Nat :=
  align (readoct m (header + TAR_SIZE) 12) TAR_HEADER_SIZE

/-- `header + TAR_HEADER_SIZE + asize`. -/
def nextHeader (m : ByteMem) (header : Nat) : Nat :=
  u32 (header + TAR_HEADER_SIZE + entryAsize m header)

/-- The loop of `tarfs_mount`: the headers it comes to, up to the one with an
empty name. -/
def scan (m : ByteMem) : Nat → Nat → Option (List Nat)
  | 0, _ => none
  | n + 1, header =>
      if tarByte m header = 0 then some [header]
      else (scan m n (nextHeader m header)).map (header :: ·)

/-- The loop ends, and every header is further up than those before. -/
def ScanForward (m : ByteMem) (addr : Nat) : Prop :=
  ∃ n headers, scan m n addr = some headers ∧ headers.Pairwise (· < ·)

/-- The entries from an address on, each right behind the one before, come
to an empty name in memory. -/
inductive EndToEnd (m : ByteMem) : Nat → Prop
  | stop (h : Nat) (hm : h < 2 ^ 32) (h0 : tarByte m h = 0) : EndToEnd m h
  | entry (h : Nat) (h0 : tarByte m h ≠ 0)
      (hn : EndToEnd m (h + TAR_HEADER_SIZE + entryAsize m h)) : EndToEnd m h

variable {m : ByteMem} {a n : Nat} {headers : List Nat}

/-! ## one step -/

/-- No size is larger than what `ALIGN` can give. -/
theorem entryAsize_le (m : ByteMem) (a : Nat) : entryAsize m a ≤ 2 ^ 32 - TAR_HEADER_SIZE := by
  have h := u32_lt (readoct m (a + TAR_SIZE) 12 + (TAR_HEADER_SIZE - 1))
  simp only [entryAsize, align, TAR_HEADER_SIZE] at h ⊢
  omega

/-- The step goes forward exactly if nothing wraps. -/
theorem lt_nextHeader_iff (ha : a < 2 ^ 32) :
    a < nextHeader m a ↔ a + TAR_HEADER_SIZE + entryAsize m a < 2 ^ 32 := by
  have hle := entryAsize_le m a
  simp only [nextHeader, u32, TAR_HEADER_SIZE] at hle ⊢
  omega

theorem EndToEnd.lt (h : EndToEnd m a) : a < 2 ^ 32 := by
  induction h with
  | stop a hm => exact hm
  | entry a h0 hn ih => omega

/-- The first header is the one the loop starts with. -/
theorem scan_head (h : scan m n a = some headers) : ∃ rest, headers = a :: rest := by
  cases n with
  | zero => contradiction
  | succ n =>
      rw [scan] at h
      split at h
      · exact ⟨[], (Option.some.inj h).symm⟩
      · obtain ⟨rest, -, rfl⟩ := Option.map_eq_some_iff.mp h
        exact ⟨rest, rfl⟩

/-! ## the whole loop -/

/-- Where the loop goes forward to its end, the entries lie end to end. -/
theorem endToEnd_of_scan (ha : a < 2 ^ 32) (h : scan m n a = some headers)
    (hp : headers.Pairwise (· < ·)) : EndToEnd m a := by
  induction n generalizing a headers with
  | zero => contradiction
  | succ n ih =>
      rw [scan] at h
      split at h
      · next h0 => exact .stop a ha h0
      · next h0 =>
          obtain ⟨rest, hrest, rfl⟩ := Option.map_eq_some_iff.mp h
          obtain ⟨hlt, hp⟩ := List.pairwise_cons.mp hp
          obtain ⟨tail, rfl⟩ := scan_head hrest
          have hfit := (lt_nextHeader_iff ha).mp (hlt _ List.mem_cons_self)
          have hnext : nextHeader m a = a + TAR_HEADER_SIZE + entryAsize m a := u32_of_lt hfit
          rw [hnext] at hrest
          exact .entry a h0 (ih hfit hrest (hnext ▸ hp))

/-- Where they do, the loop goes forward to its end. -/
theorem EndToEnd.scan (h : EndToEnd m a) : ScanForward m a := by
  induction h with
  | stop a hm h0 => exact ⟨1, [a], by rw [Eclair.scan, if_pos h0], List.pairwise_singleton _ _⟩
  | entry a h0 hn ih =>
      obtain ⟨n, headers, hs, hp⟩ := ih
      have hfit := hn.lt
      have hnext : nextHeader m a = a + TAR_HEADER_SIZE + entryAsize m a := u32_of_lt hfit
      refine ⟨n + 1, a :: headers, by rw [Eclair.scan, if_neg h0, hnext, hs, Option.map_some], ?_⟩
      refine List.pairwise_cons.mpr ⟨fun b hb => ?_, hp⟩
      obtain ⟨rest, rfl⟩ := scan_head hs
      have hle : a + TAR_HEADER_SIZE + entryAsize m a ≤ b := by
        obtain rfl | hb := List.mem_cons.mp hb
        · exact Nat.le_refl _
        · exact Nat.le_of_lt ((List.pairwise_cons.mp hp).1 b hb)
      simp only [TAR_HEADER_SIZE] at hle
      omega

/-- **The scan** of an archive goes forward to its end exactly if the entries
lie end to end in memory. -/
theorem scan_iff (m : ByteMem) (addr : UInt32) :
    ScanForward m addr.toNat ↔ EndToEnd m addr.toNat := by
  constructor
  · rintro ⟨n, headers, hs, hp⟩
    exact endToEnd_of_scan addr.toNat_lt hs hp
  · exact EndToEnd.scan

/-- A file of 037777777000 bytes at 1 MiB: its end is where it starts. -/
def zeroStep : ByteMem := fun a =>
  if a = 0x100000 then 97
  else [51, 55, 55, 55, 55, 55, 55, 55, 48, 48, 48].getD (a - 0x10007c) 0

theorem not_scan : ¬ ∀ (m : ByteMem) (addr : UInt32), ScanForward m addr.toNat := by
  intro h
  obtain ⟨n, headers, hs, hp⟩ := h zeroStep 0x100000
  have he := endToEnd_of_scan (by decide) hs hp
  cases he with
  | stop _ _ h0 => revert h0; decide
  | entry _ _ hn =>
      have hsize : entryAsize zeroStep 0x100000 = 0xfffffe00 := by decide +kernel
      have hlt := hn.lt
      simp only [UInt32.reduceToNat, hsize, TAR_HEADER_SIZE] at hlt
      omega

end Eclair
