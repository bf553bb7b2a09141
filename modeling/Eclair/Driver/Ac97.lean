import Mathlib.Logic.Function.Basic
import Mathlib.Tactic.SplitIfs
import Eclair.Basic
import Eclair.Lib.System

/-!
# Eclair.Driver.Ac97

The ring of audio buffers of the AC97 driver (`kernel/driver/ac97.c`).

A write fills the slot `nwritten` places after the one that is played, and an
interrupt moves on to the next slot; each is a step of its own.  `Audio`
watches a run: what was accepted, what was played, and how often each slot has
been reached since it was written.

An interrupt moves on also when no buffer waits.  The slots it reaches then
keep what they held, so that old buffers are played again.
-/

namespace Eclair

/-! ## the device -/

def AC97_NABM_BOX_BDL : Nat := 0x00
def AC97_NABM_BOX_NDESC : Nat := 0x05
def AC97_NABM_BOX_TSTAT : Nat := 0x06
def AC97_NABM_BOX_TCTRL : Nat := 0x0b

def AC97_TSTAT_DMA : Nat := 0x1
def AC97_TSTAT_EOT : Nat := 0x2
def AC97_TSTAT_IOC : Nat := 0x10

def ECIO_SND_SETATTR : Nat := 0x02
def ECIO_SND_START : Nat := 0x03
def ECIO_SND_STOP : Nat := 0x04

def ECIO_SNDFMT_I16 : Nat := 0x01

/-- `ecio_sndattr_t`. -/
structure SndAttr where
  channels : Nat
  rate : Nat
  format : Nat
  bufsz : Nat

/-- `struct ac97_device`; `ports` is what was written to the registers of the output box. -/
structure Ac97Device where
  buffers : Nat → Bytes
  pos : Nat
  nwritten : Nat
  started : Bool
  physmem : Nat
  ports : List (Nat × Nat)

/-- `port_outb`, `port_outw` and `port_outd` to a register of the output box. -/
def Ac97Device.out (reg val : Nat) (device : Ac97Device) : Ac97Device :=
  { device with ports := device.ports ++ [(reg, val)] }

/-- `ac97_irq`. -/
def ac97Irq (device : Ac97Device) : Ac97Device :=
  let device : Ac97Device := { device with pos := device.pos + 1 }
  let device : Ac97Device :=
    if 31 ≤ device.pos then
      let device : Ac97Device := { device with pos := 0 }
      if device.nwritten ≠ 0 then
        device.out AC97_NABM_BOX_TCTRL (AC97_TSTAT_IOC + AC97_TSTAT_DMA)
      else device
    else device
  let device : Ac97Device :=
    if device.nwritten ≠ 0 then { device with nwritten := device.nwritten - 1 } else device
  device.out AC97_NABM_BOX_TSTAT 0x1c

/-- The slot that `write_fs` fills. -/
def writeSlot (device : Ac97Device) : Nat := (device.pos + (device.nwritten + 1)) % 31

/-- `write_fs`, for the `size` bytes of `buf`. -/
def writeFs (buf : Bytes) (device : Ac97Device) : Int × Ac97Device :=
  if buf.length ≠ 0x1000 then (-EINVAL, device)
  else if device.started = false then (-EPERM, device)
  else if 30 ≤ device.nwritten then (0, device)
  else
    let buffers := Function.update device.buffers (writeSlot device) buf
    let device : Ac97Device := { device with nwritten := device.nwritten + 1, buffers := buffers }
    (buf.length, device.out AC97_NABM_BOX_NDESC 31)

/-- What `ECIO_SND_START` does to a device that is not started; the wait for the box is left out. -/
def startDevice (device : Ac97Device) : Ac97Device :=
  let device : Ac97Device := { device with
    pos := 0
    nwritten := 0
    started := true
    buffers := Function.update device.buffers 0 (List.replicate 0x1000 0) }
  (((device.out AC97_NABM_BOX_TCTRL AC97_TSTAT_EOT).out AC97_NABM_BOX_BDL device.physmem).out
    AC97_NABM_BOX_NDESC 31).out AC97_NABM_BOX_TCTRL (AC97_TSTAT_IOC + AC97_TSTAT_DMA)

/-- `ioctl_fs`, with the attributes that `arg` points to. -/
def ioctlFs (op : Nat) (arg : Option SndAttr) (device : Ac97Device) :
    Int × Option SndAttr × Ac97Device :=
  if op = ECIO_SND_SETATTR then
    match arg with
    | none => (-EINVAL, none, device)
    | some _ => (0, some ⟨2, 48000, ECIO_SNDFMT_I16, 0x1000⟩, device)
  else if op = ECIO_SND_START then
    if device.started then (-EPERM, arg, device) else (0, arg, startDevice device)
  else if op = ECIO_SND_STOP then
    if device.started = false then (-EPERM, arg, device)
    else (0, arg, { device.out AC97_NABM_BOX_TCTRL 0 with started := false })
  else (-ENOSYS, arg, device)

/-! ## the runs -/

inductive AudioEvent where
  | write (buf : Bytes)
  | irq

/-- A device under observation: the buffers accepted, those played for the first time, and how often
a slot was reached since it was written, if it was. -/
structure Audio where
  device : Ac97Device
  accepted : List Bytes
  played : List Bytes
  plays : Nat → Option Nat

namespace Audio

/-- After a start command. -/
def start (device : Ac97Device) : Audio := ⟨startDevice device, [], [], fun _ => none⟩

def next (q : Audio) : AudioEvent → Audio
  | .write buf =>
      let r := writeFs buf q.device
      if r.1 = 0x1000 then
        { q with
          device := r.2
          accepted := q.accepted ++ [buf]
          plays := Function.update q.plays (writeSlot q.device) (some 0) }
      else { q with device := r.2 }
  | .irq =>
      let device : Ac97Device := ac97Irq q.device
      { q with
        device := device
        played :=
          if q.plays device.pos = some 0 then q.played ++ [device.buffers device.pos] else q.played
        plays := Function.update q.plays device.pos ((q.plays device.pos).map (· + 1)) }

/-- The state after the events. -/
def after (q : Audio) (events : List AudioEvent) : Audio := events.foldl next q

/-- Some buffer was accepted and has not been played. -/
def Waits (q : Audio) : Prop := q.played ≠ q.accepted

/-- No interrupt comes while no buffer waits. -/
def NoUnderrun (q : Audio) (events : List AudioEvent) : Prop :=
  System.Along next (fun q e => e = .irq → q.Waits) q events

/-- Writes spare the slot that is played and those that wait, the buffers are played in the order
accepted, and a write is refused only when 30 buffers wait. -/
structure Right (q : Audio) : Prop where
  spared : ∀ buf s, (writeFs buf q.device).2.buffers s ≠ q.device.buffers s →
    s ≠ q.device.pos ∧ q.plays s ≠ some 0
  slot : ∀ buf, (writeFs buf q.device).1 = 0x1000 →
    writeSlot q.device ≠ q.device.pos ∧ q.plays (writeSlot q.device) ≠ some 0
  inOrder : q.played <+: q.accepted
  drain : ∀ k, (q.after (List.replicate k .irq)).played = q.accepted.take (q.played.length + k)
  again : q.Waits → q.plays (ac97Irq q.device).pos = some 0
  refused : ∀ buf, (writeFs buf q.device).1 = 0 → q.accepted.length = q.played.length + 30

/-- The slots that wait are the `nwritten` ones behind the one that is played. -/
structure Inv (q : Audio) : Prop where
  started : q.device.started = true
  pos : q.device.pos < 31
  room : q.device.nwritten ≤ 30
  waiting : ∀ s, q.plays s = some 0 ↔
    ∃ i, 1 ≤ i ∧ i ≤ q.device.nwritten ∧ s = (q.device.pos + i) % 31
  kept : q.accepted = q.played ++ (List.range q.device.nwritten).map fun i =>
    q.device.buffers ((q.device.pos + (i + 1)) % 31)

end Audio

variable {device : Ac97Device} {q : Audio} {events : List AudioEvent} {k s n : Nat}

/-! ## one step -/

@[simp] theorem ac97Irq_buffers : (ac97Irq device).buffers = device.buffers := by
  simp only [ac97Irq, Ac97Device.out]
  split_ifs <;> rfl

@[simp] theorem ac97Irq_started : (ac97Irq device).started = device.started := by
  simp only [ac97Irq, Ac97Device.out]
  split_ifs <;> rfl

theorem ac97Irq_pos (h : device.pos < 31) : (ac97Irq device).pos = (device.pos + 1) % 31 := by
  simp only [ac97Irq, Ac97Device.out]
  split_ifs <;> dsimp only <;> omega

@[simp] theorem ac97Irq_nwritten : (ac97Irq device).nwritten = device.nwritten - 1 := by
  simp only [ac97Irq, Ac97Device.out]
  split_ifs <;> dsimp only <;> simp_all

/-- **A write** is accepted, or changes nothing. -/
theorem writeFs_cases (buf : Bytes) (hs : device.started = true) :
    (buf.length = 0x1000 ∧ device.nwritten < 30 ∧ (writeFs buf device).1 = 0x1000 ∧
      (writeFs buf device).2 = { device with
        nwritten := device.nwritten + 1
        buffers := Function.update device.buffers (writeSlot device) buf
        ports := device.ports ++ [(AC97_NABM_BOX_NDESC, 31)] }) ∨
    ((writeFs buf device).1 = 0 → device.nwritten ≥ 30) ∧ (writeFs buf device).1 ≠ 0x1000 ∧
      (writeFs buf device).2 = device := by
  rw [writeFs]
  by_cases hlen : buf.length = 0x1000
  · rw [if_neg (not_not.mpr hlen), if_neg (by simp [hs])]
    by_cases hroom : 30 ≤ device.nwritten
    · rw [if_pos hroom]
      exact .inr ⟨fun _ => hroom, fun h => absurd h (show (0 : Int) ≠ 0x1000 by decide), rfl⟩
    · rw [if_neg hroom, hlen]
      exact .inl ⟨rfl, by omega, rfl, rfl⟩
  · rw [if_pos hlen]
    exact .inr ⟨fun h => absurd h (show -EINVAL ≠ 0 by decide),
      fun h => absurd h (show -EINVAL ≠ 0x1000 by decide), rfl⟩

namespace Audio

theorem inv_start (device : Ac97Device) : (start device).Inv where
  started := rfl
  pos := Nat.zero_lt_succ _
  room := Nat.zero_le _
  waiting s := by
    constructor
    · exact fun h => nomatch h
    · rintro ⟨i, h1, h2, -⟩
      have h0 : i ≤ 0 := h2
      omega
  kept := rfl

/-- An accepted buffer waits behind the others. -/
theorem Inv.write {buf : Bytes} (h : q.Inv) (hroom : q.device.nwritten < 30)
    (ports : List (Nat × Nat)) :
    Inv { q with
      device := { q.device with
        nwritten := q.device.nwritten + 1
        buffers := Function.update q.device.buffers (writeSlot q.device) buf
        ports := ports }
      accepted := q.accepted ++ [buf]
      plays := Function.update q.plays (writeSlot q.device) (some 0) } where
  started := h.started
  pos := h.pos
  room := hroom
  waiting s := by
    dsimp only
    by_cases hs : s = writeSlot q.device
    · rw [hs, Function.update_self]
      exact iff_of_true rfl ⟨_, Nat.le_add_left 1 _, Nat.le_refl _, rfl⟩
    · rw [Function.update_of_ne hs, h.waiting s]
      rw [writeSlot] at hs
      constructor
      · rintro ⟨i, h1, h2, h3⟩
        exact ⟨i, h1, by omega, h3⟩
      · rintro ⟨i, h1, h2, h3⟩
        refine ⟨i, h1, Nat.le_of_lt_succ (Nat.lt_of_le_of_ne h2 fun hi => hs ?_), h3⟩
        rw [h3, hi]
  kept := by
    dsimp only
    rw [List.range_succ, List.map_append, List.map_singleton, ← List.append_assoc]
    congr 1
    · rw [h.kept]
      congr 1
      refine List.map_congr_left fun i hi => ?_
      have hlt := List.mem_range.mp hi
      rw [Function.update_of_ne]
      rw [writeSlot]
      omega
    · rw [writeSlot, Function.update_self]

/-- With a buffer waiting, an interrupt plays the oldest one. -/
theorem Inv.irq_waits (h : q.Inv) (hn : q.device.nwritten = n + 1) :
    q.plays (ac97Irq q.device).pos = some 0 ∧
      q.accepted = q.played ++ q.device.buffers (ac97Irq q.device).pos ::
        (List.range n).map fun i => q.device.buffers (((ac97Irq q.device).pos + (i + 1)) % 31) := by
  rw [ac97Irq_pos h.pos]
  refine ⟨(h.waiting _).mpr ⟨1, Nat.le_refl _, by omega, rfl⟩, ?_⟩
  rw [h.kept, hn, List.range_succ_eq_map, List.map_cons, List.map_map]
  congr 2
  refine List.map_congr_left fun i _ => ?_
  simp only [Function.comp_apply]
  congr 1
  omega

theorem Inv.waits_iff (h : q.Inv) : q.Waits ↔ q.device.nwritten ≠ 0 := by
  rw [Waits, h.kept]
  refine not_congr ⟨fun he => ?_, fun h0 => by simp [h0]⟩
  have hlen := congrArg List.length he
  simp only [List.length_append, List.length_map, List.length_range] at hlen
  omega

theorem Inv.irq (h : q.Inv) : (q.next .irq).Inv := by
  have hpos := ac97Irq_pos h.pos
  have hlt := h.pos
  have hroom := h.room
  refine ⟨?_, ?_, ?_, fun s => ?_, ?_⟩
  · exact ac97Irq_started.trans h.started
  · rw [next, hpos]
    exact Nat.mod_lt _ (by decide)
  · rw [next, ac97Irq_nwritten]
    omega
  · simp only [next, ac97Irq_nwritten]
    by_cases hs : s = (ac97Irq q.device).pos
    · subst hs
      rw [Function.update_self]
      refine iff_of_false (fun he => ?_) ?_
      · obtain ⟨j, -, hj⟩ := Option.map_eq_some_iff.mp he
        omega
      · rintro ⟨i, h1, h2, h3⟩
        omega
    · rw [Function.update_of_ne hs, h.waiting s]
      constructor
      · rintro ⟨i, h1, h2, h3⟩
        -- the slot of the oldest one is the one that is reached
        have hi : i ≠ 1 := fun hi => hs (by rw [h3, hi, hpos])
        exact ⟨i - 1, by omega, by omega, by omega⟩
      · rintro ⟨i, h1, h2, h3⟩
        exact ⟨i + 1, by omega, by omega, by omega⟩
  · cases hn : q.device.nwritten with
    | zero =>
        have hnone : q.plays (ac97Irq q.device).pos ≠ some 0 := by
          intro he
          obtain ⟨i, h1, h2, -⟩ := (h.waiting _).mp he
          omega
        have hkept := h.kept
        simp only [next, if_neg hnone, ac97Irq_nwritten, hn]
        rwa [hn] at hkept
    | succ n =>
        obtain ⟨hzero, hkept⟩ := h.irq_waits hn
        simp only [next, if_pos hzero, ac97Irq_nwritten, ac97Irq_buffers, hn, Nat.add_sub_cancel]
        rw [List.append_assoc]
        exact hkept

/-- **Step**: the slots that wait stay those behind the one that is played. -/
theorem Inv.next (h : q.Inv) (e : AudioEvent) : (q.next e).Inv := by
  cases e with
  | irq => exact h.irq
  | write buf =>
      rw [Audio.next]
      obtain ⟨-, hroom, hret, hdev⟩ | ⟨-, hret, hdev⟩ := writeFs_cases buf h.started
      · rw [if_pos hret, hdev]
        exact h.write hroom _
      · rw [if_neg hret, hdev]
        exact h

/-! ## the runs from a start command -/

/-- **Run**: so they do after every list of events. -/
theorem Inv.after (h : q.Inv) : (q.after events).Inv := by
  induction events generalizing q with
  | nil => exact h
  | cons e events ih => exact ih (h.next e)

/-- Interrupts play what waits, and then nothing new. -/
theorem Inv.drain (h : q.Inv) :
    (q.after (List.replicate k .irq)).played = q.accepted.take (q.played.length + k) := by
  induction k generalizing q with
  | zero =>
      rw [h.kept, Nat.add_zero, List.take_left]
      rfl
  | succ k ih =>
      refine (ih h.irq).trans ?_
      have hacc : (q.next .irq).accepted = q.accepted := rfl
      rw [hacc]
      cases hn : q.device.nwritten with
      | zero =>
          have hnone : q.plays (ac97Irq q.device).pos ≠ some 0 := by
            intro he
            obtain ⟨i, h1, h2, -⟩ := (h.waiting _).mp he
            omega
          have hplayed : (q.next .irq).played = q.played := if_neg hnone
          have hall : q.accepted = q.played := by
            rw [h.kept, hn, List.range_zero, List.map_nil, List.append_nil]
          rw [hplayed, hall, List.take_of_length_le (by omega), List.take_of_length_le (by omega)]
      | succ n =>
          simp only [Audio.next, if_pos (h.irq_waits hn).1, List.length_append,
            List.length_singleton]
          congr 1
          omega

theorem Inv.right (h : q.Inv) : q.Right := by
  have hpos := h.pos
  have hslot : q.device.nwritten < 30 →
      writeSlot q.device ≠ q.device.pos ∧ q.plays (writeSlot q.device) ≠ some 0 := by
    intro hroom
    rw [Ne, Ne, h.waiting, writeSlot]
    refine ⟨by omega, ?_⟩
    rintro ⟨i, h1, h2, h3⟩
    omega
  refine ⟨fun buf s hs => ?_, fun buf hret => ?_, ?_, fun k => h.drain, fun hw => ?_,
    fun buf hret => ?_⟩
  · obtain ⟨-, hroom, -, hdev⟩ | ⟨-, -, hdev⟩ := writeFs_cases buf h.started
    · rw [hdev] at hs
      have he : s = writeSlot q.device := by
        by_contra he
        exact hs (Function.update_of_ne he _ _)
      rw [he]
      exact hslot hroom
    · rw [hdev] at hs
      exact absurd rfl hs
  · obtain ⟨-, hroom, -, -⟩ | ⟨-, hne, -⟩ := writeFs_cases buf h.started
    · exact hslot hroom
    · exact absurd hret hne
  · rw [h.kept]
    exact List.prefix_append _ _
  · obtain ⟨n, hn⟩ := Nat.exists_eq_succ_of_ne_zero (h.waits_iff.mp hw)
    exact (h.irq_waits hn).1
  · have hroom := h.room
    rw [h.kept, List.length_append, List.length_map, List.length_range]
    obtain ⟨-, -, hacc, -⟩ | ⟨hfull, -, -⟩ := writeFs_cases buf h.started
    · rw [hacc] at hret
      exact absurd hret (by decide)
    · have := hfull hret
      omega

/-- No slot is reached twice before it is written again. -/
def Once (q : Audio) : Prop := ∀ s n, q.plays s = some n → n ≤ 1

/-- **Step**: a slot is reached twice only when no buffer waits. -/
theorem Inv.once_next (h : q.Inv) (ho : q.Once) (e : AudioEvent) (hw : e = .irq → q.Waits) :
    (q.next e).Once := by
  intro s n hs
  cases e with
  | write buf =>
      rw [Audio.next] at hs
      split at hs
      · dsimp only at hs
        by_cases he : s = writeSlot q.device
        · rw [he, Function.update_self] at hs
          obtain rfl := Option.some.inj hs
          exact Nat.zero_le 1
        · rw [Function.update_of_ne he] at hs
          exact ho s n hs
      · exact ho s n hs
  | irq =>
      have hzero := h.right.again (hw rfl)
      simp only [Audio.next] at hs
      by_cases he : s = (ac97Irq q.device).pos
      · rw [he, Function.update_self, hzero] at hs
        obtain rfl := Option.some.inj hs
        exact Nat.le_refl 1
      · rw [Function.update_of_ne he] at hs
        exact ho s n hs

/-- **Run**: a run without underruns reaches no slot twice. -/
theorem Inv.once (h : q.Inv) (ho : q.Once) (hr : q.NoUnderrun events) : (q.after events).Once := by
  induction events generalizing q with
  | nil => exact ho
  | cons e events ih => exact ih (h.next e) (h.once_next ho e hr.1) hr.2

end Audio

end Eclair
