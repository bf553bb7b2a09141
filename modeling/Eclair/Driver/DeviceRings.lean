import Eclair.Lib.Fifo

/-!
# Eclair.Driver.DeviceRings

The rings of keyboards and mice (`kernel/driver/device.c`).

The interrupt puts and the readers get and flush; each is a step of its own.
`deviceRings_refine` says that both rings are FIFO queues.  The functions
return at once for a device of another class; here a device is of its class.
-/

namespace Eclair

/-! ## keyboards -/

def DEVICE_KEYBOARD_MAX_KEYS : Nat := 32

/-- `device_keyboard_t`. -/
structure DeviceKeyboard where
  keys : List Int
  kstart : Nat
  kend : Nat

/-- `device_keyboard_new`; `keys` is what `kmalloc` leaves there. -/
def deviceKeyboardNew (keys : Nat → Int) : DeviceKeyboard :=
  ⟨(List.range DEVICE_KEYBOARD_MAX_KEYS).map keys, 0, 0⟩

/-- `device_keyboard_putkey`. -/
def deviceKeyboardPutkey (kbdev : DeviceKeyboard) (key : Int) : DeviceKeyboard :=
  let kend := (kbdev.kend + 1) % DEVICE_KEYBOARD_MAX_KEYS
  if kend = kbdev.kstart then kbdev
  else { kbdev with keys := kbdev.keys.set kbdev.kend key, kend := kend }

/-- `device_keyboard_getkey`. -/
def deviceKeyboardGetkey (kbdev : DeviceKeyboard) : Int × DeviceKeyboard :=
  if kbdev.kstart = kbdev.kend then (0, kbdev)
  else (kbdev.keys.getD kbdev.kstart 0,
    { kbdev with kstart := (kbdev.kstart + 1) % DEVICE_KEYBOARD_MAX_KEYS })

/-- `device_keyboard_getkey_block`; `none` while it waits. -/
def deviceKeyboardGetkeyBlock (kbdev : DeviceKeyboard) : Option (Int × DeviceKeyboard) :=
  if kbdev.kstart = kbdev.kend then none
  else some (kbdev.keys.getD kbdev.kstart 0,
    { kbdev with kstart := (kbdev.kstart + 1) % DEVICE_KEYBOARD_MAX_KEYS })

/-- `device_keyboard_flushkeys`. -/
def deviceKeyboardFlushkeys (kbdev : DeviceKeyboard) : DeviceKeyboard :=
  { kbdev with kstart := 0, kend := 0 }

/-- The ring of a keyboard; without a key the answer is 0. -/
def keyboardRing : RingFifo DeviceKeyboard Int Int where
  slots := DEVICE_KEYBOARD_MAX_KEYS
  slots_pos := by decide
  put := deviceKeyboardPutkey
  get := deviceKeyboardGetkey
  flush := deviceKeyboardFlushkeys
  ring kbdev := ⟨kbdev.keys, kbdev.kstart, kbdev.kend⟩
  answer key := key.getD 0
  ring_put kbdev key h := by
    simp only [deviceKeyboardPutkey, RingBuf.offer, h]
    split
    · rfl
    · simp only [RingBuf.post, h]
  put_full kbdev key h hfull := by
    rw [deviceKeyboardPutkey]
    exact if_pos hfull
  get_none kbdev h htake := by
    rw [deviceKeyboardGetkey, if_pos (RingBuf.eq_of_take htake)]
    rfl
  get_some kbdev key r h htake := by
    rw [RingBuf.take] at htake
    split at htake
    · contradiction
    · next hne =>
        obtain ⟨rfl, rfl⟩ := Prod.mk.inj (Option.some.inj htake)
        rw [deviceKeyboardGetkey, if_neg hne]
        exact ⟨rfl, by rw [h]⟩
  ring_flush kbdev := rfl

/-- A reader that waits gets what one that does not wait gets. -/
theorem deviceKeyboardGetkeyBlock_eq (kbdev : DeviceKeyboard) (h : keyboardRing.Valid kbdev) :
    deviceKeyboardGetkeyBlock kbdev =
      if keyboardRing.pending kbdev = [] then none else some (deviceKeyboardGetkey kbdev) := by
  rw [deviceKeyboardGetkeyBlock, deviceKeyboardGetkey]
  by_cases hp : keyboardRing.pending kbdev = []
  · have heq : kbdev.kstart = kbdev.kend := RingBuf.eq_of_take (RingBuf.take_eq_none h.1 hp)
    rw [if_pos heq, if_pos hp]
  · have hne : kbdev.kstart ≠ kbdev.kend := fun heq => hp (RingBuf.pending_of_eq heq)
    rw [if_neg hne, if_neg hp, if_neg hne]

/-! ## mice -/

def DEVICE_MOUSE_MAX_EVENTS : Nat := 32

/-- `device_mouse_event_t`. -/
structure DeviceMouseEvent where
  x : Int
  y : Int
  st : List Bool
  deriving DecidableEq, Inhabited

/-- `device_mouse_t`. -/
structure DeviceMouse where
  ev : List DeviceMouseEvent
  evstart : Nat
  evend : Nat

/-- `device_mouse_new`; `ev` is what `kmalloc` leaves there. -/
def deviceMouseNew (ev : Nat → DeviceMouseEvent) : DeviceMouse :=
  ⟨(List.range DEVICE_MOUSE_MAX_EVENTS).map ev, 0, 0⟩

/-- `device_mouse_putev`. -/
def deviceMousePutev (msdev : DeviceMouse) (ev : DeviceMouseEvent) : DeviceMouse :=
  let evend := (msdev.evend + 1) % DEVICE_MOUSE_MAX_EVENTS
  if evend = msdev.evstart then msdev
  else { msdev with ev := msdev.ev.set msdev.evend ev, evend := evend }

/-- `device_mouse_getev`: the slot of the event.  The source counts by the size of
the ring of a keyboard. -/
def deviceMouseGetev (msdev : DeviceMouse) : Option Nat × DeviceMouse :=
  if msdev.evstart = msdev.evend then (none, msdev)
  else (some msdev.evstart, { msdev with evstart := (msdev.evstart + 1) % DEVICE_KEYBOARD_MAX_KEYS })

/-- `device_mouse_flushevs`. -/
def deviceMouseFlushevs (msdev : DeviceMouse) : DeviceMouse := { msdev with evstart := 0, evend := 0 }

/-- An event read by the pointer that `device_mouse_getev` returned. -/
def deviceMouseRead (msdev : DeviceMouse) : Option DeviceMouseEvent × DeviceMouse :=
  let r := deviceMouseGetev msdev
  (r.1.map fun slot => r.2.ev.getD slot default, r.2)

/-- The ring of a mouse. -/
def mouseRing : RingFifo DeviceMouse DeviceMouseEvent (Option DeviceMouseEvent) where
  slots := DEVICE_MOUSE_MAX_EVENTS
  slots_pos := by decide
  put := deviceMousePutev
  get := deviceMouseRead
  flush := deviceMouseFlushevs
  ring msdev := ⟨msdev.ev, msdev.evstart, msdev.evend⟩
  answer := id
  ring_put msdev ev h := by
    simp only [deviceMousePutev, RingBuf.offer, h]
    split
    · rfl
    · simp only [RingBuf.post, h]
  put_full msdev ev h hfull := by
    rw [deviceMousePutev]
    exact if_pos hfull
  get_none msdev h htake := by
    rw [deviceMouseRead, deviceMouseGetev, if_pos (RingBuf.eq_of_take htake)]
    rfl
  get_some msdev ev r h htake := by
    rw [RingBuf.take] at htake
    split at htake
    · contradiction
    · next hne =>
        obtain ⟨rfl, rfl⟩ := Prod.mk.inj (Option.some.inj htake)
        rw [deviceMouseRead, deviceMouseGetev, if_neg hne]
        exact ⟨rfl, by rw [h]; rfl⟩
  ring_flush msdev := rfl

/-! ## what the rings are -/

theorem valid_deviceKeyboardNew (keys : Nat → Int) : keyboardRing.Valid (deviceKeyboardNew keys) := by
  have hsize : (keyboardRing.ring (deviceKeyboardNew keys)).size = 32 := by
    simp [keyboardRing, deviceKeyboardNew, RingBuf.size, DEVICE_KEYBOARD_MAX_KEYS]
  have hpos : 0 < (keyboardRing.ring (deviceKeyboardNew keys)).size := by omega
  exact ⟨⟨hpos, hpos⟩, hsize⟩

theorem valid_deviceMouseNew (ev : Nat → DeviceMouseEvent) : mouseRing.Valid (deviceMouseNew ev) := by
  have hsize : (mouseRing.ring (deviceMouseNew ev)).size = 32 := by
    simp [mouseRing, deviceMouseNew, RingBuf.size, DEVICE_MOUSE_MAX_EVENTS]
  have hpos : 0 < (mouseRing.ring (deviceMouseNew ev)).size := by omega
  exact ⟨⟨hpos, hpos⟩, hsize⟩

/-- A new ring refines a FIFO queue that is empty at first, and gives out what was put
in this order, once each. -/
structure IsFifo {S α β : Type*} [Inhabited α] (Q : RingFifo S α β) (s : S) (ops : List (FifoOp α)) :
    Prop where
  empty : Q.pending s = []
  refines : Q.Refines s ops
  inOrder : ((Fifo.answers (Q.slots - 1) [] ops).filterMap id ++ Q.pending (Q.after s ops)).Sublist
    (Fifo.puts ops)

theorem isFifo_of_valid {S α β : Type*} [Inhabited α] {Q : RingFifo S α β} {s : S} (h : Q.Valid s)
    (hempty : Q.pending s = []) (ops : List (FifoOp α)) : IsFifo Q s ops := by
  have hrefines := h.refines ops
  refine ⟨hempty, hrefines, ?_⟩
  rw [hrefines.pending, hempty]
  exact Fifo.answers_sublist

/-- **The rings of keyboards and mice are FIFO queues** of all slots but one, whatever puts, gets
and flushes there are, in whatever order. -/
theorem deviceRings_refine (keys : Nat → Int) (ev : Nat → DeviceMouseEvent)
    (keyOps : List (FifoOp Int)) (evOps : List (FifoOp DeviceMouseEvent)) :
    IsFifo keyboardRing (deviceKeyboardNew keys) keyOps ∧ IsFifo mouseRing (deviceMouseNew ev) evOps :=
  ⟨isFifo_of_valid (valid_deviceKeyboardNew keys) (RingBuf.pending_of_eq rfl) keyOps,
    isFifo_of_valid (valid_deviceMouseNew ev) (RingBuf.pending_of_eq rfl) evOps⟩

end Eclair
