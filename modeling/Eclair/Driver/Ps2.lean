import Eclair.Lib.Decoder
import Eclair.Driver.DeviceRings
import Eclair.Driver.Lines

/-!
# Eclair.Driver.Ps2

The keyboard and the mouse of the PS/2 controller (`kernel/driver/ps2.c`).

The interrupts of both ports decode one byte each and keep what they have
read so far in the same static variables; the readers come through the
device nodes.  `ps2_separate` says that a keyboard and a mouse are two ports
that do not see each other, and `ps2_decodes` that what they send is what is
queued.
-/

namespace Eclair

/-! ## scancodes -/

/-- `ec_keycode_t`, up to `ECK_COUNT`. -/
inductive EcKeycode where
  | none | d0 | d1 | d2 | d3 | d4 | d5 | d6 | d7 | d8 | d9 | a | b | c | d | e | f | g | h | i
  | j | k | l | m | n | o | p | q | r | s | t | u | v | w | x | y | z | backtick | semicolon
  | quote | leftParen | rightParen | leftBracket | rightBracket | slash | backslash | comma | dot
  | equals | minus | space | backspace | leftShift | rightShift | leftControl | rightControl
  | leftAlt | rightAlt | capsLock | numLock | tab | escape | return_ | printScreen | insert
  | delete | home | end_ | pageUp | pageDown | left | right | up | down | numpad0 | numpad1
  | numpad2 | numpad3 | numpad4 | numpad5 | numpad6 | numpad7 | numpad8 | numpad9 | numpadSlash
  | numpadAsterisk | numpadMinus | numpadPlus | numpadDot | numpadEnter | f1 | f2 | f3 | f4 | f5
  | f6 | f7 | f8 | f9 | f10 | f11 | f12
  deriving DecidableEq

/-- The number of a key code. -/
def EcKeycode.code (key : EcKeycode) : Nat := key.ctorIdx

/-- The rows that `ps2_fill_scancode_sets` fills in. -/
def scancodes2Rows : List (Nat × EcKeycode) :=
  [(0x01, .f9), (0x03, .f5), (0x04, .f3), (0x05, .f1), (0x06, .f6), (0x07, .f12), (0x09, .f10),
   (0x0a, .f8), (0x0b, .f6), (0x0c, .f4), (0x0d, .tab), (0x0e, .backtick), (0x11, .leftAlt),
   (0x12, .leftShift), (0x14, .leftControl), (0x15, .q), (0x16, .d1), (0x1a, .z), (0x1b, .s),
   (0x1c, .a), (0x1d, .w), (0x1e, .d2), (0x21, .c), (0x22, .x), (0x23, .d), (0x24, .e),
   (0x25, .d4), (0x26, .d3), (0x29, .space), (0x2a, .v), (0x2b, .f), (0x2c, .t), (0x2d, .r),
   (0x2e, .d5), (0x31, .n), (0x32, .b), (0x33, .h), (0x34, .g), (0x35, .y), (0x36, .d6),
   (0x3a, .m), (0x3b, .j), (0x3c, .u), (0x3d, .d7), (0x3e, .d8), (0x41, .comma), (0x42, .k),
   (0x43, .i), (0x44, .o), (0x45, .d0), (0x46, .d9), (0x49, .dot), (0x4a, .slash), (0x4b, .l),
   (0x4c, .semicolon), (0x4d, .p), (0x4e, .minus), (0x52, .quote), (0x54, .leftBracket),
   (0x55, .equals), (0x58, .capsLock), (0x59, .rightShift), (0x5a, .return_),
   (0x5b, .rightBracket), (0x5d, .backslash), (0x66, .backspace), (0x69, .numpad1),
   (0x6b, .numpad4), (0x6c, .numpad7), (0x70, .numpad0), (0x71, .numpadDot), (0x72, .numpad2),
   (0x73, .numpad5), (0x74, .numpad6), (0x75, .numpad8), (0x76, .escape), (0x77, .numLock),
   (0x78, .f11), (0x79, .numpadPlus), (0x7a, .numpad3), (0x7b, .numpadMinus),
   (0x7c, .numpadAsterisk), (0x7d, .numpad9)]

def scancodes2OtherRows : List (Nat × EcKeycode) :=
  [(0x11, .rightAlt), (0x14, .rightControl), (0x4a, .numpadSlash), (0x5a, .numpadEnter),
   (0x69, .end_), (0x6b, .left), (0x6c, .home), (0x70, .insert), (0x71, .delete), (0x72, .down),
   (0x74, .right), (0x75, .up), (0x7a, .pageDown), (0x7d, .pageUp)]

/-- `scancodes2`. -/
def scancodes2 (b : Nat) : Nat := ((scancodes2Rows.lookup b).getD .none).code

/-- `scancodes2_other`. -/
def scancodes2Other (b : Nat) : Nat := ((scancodes2OtherRows.lookup b).getD .none).code

/-! ## the driver -/

def PS2_MOUSE_FLAG_BL : Nat := 0x1
def PS2_MOUSE_FLAG_BR : Nat := 0x2
def PS2_MOUSE_FLAG_BM : Nat := 0x4
def PS2_MOUSE_FLAG_ONE : Nat := 0x8
def PS2_MOUSE_FLAG_XS : Nat := 0x10
def PS2_MOUSE_FLAG_YS : Nat := 0x20
def PS2_MOUSE_FLAG_XO : Nat := 0x40
def PS2_MOUSE_FLAG_YO : Nat := 0x80

def ECIO_INP_GETEVENT : Nat := 2
def ECIO_INP_FLUSH : Nat := 3

/-- The device on a port, which gives the type of the port; `unknown` is no
device, or the one that stands for it. -/
inductive Ps2Device where
  | unknown
  | keyboard (kbdev : DeviceKeyboard)
  | mouse (msdev : DeviceMouse)

/-- The static variables of the driver. -/
structure Ps2 where
  waitInt : Bool
  devP0 : Ps2Device
  devP1 : Ps2Device
  rel : Bool
  other : Bool
  mbytes : List Nat
  nmbytes : Nat

/-- The driver when `ps2_init` returns. -/
def ps2Init (devP0 devP1 : Ps2Device) : Ps2 := ⟨false, devP0, devP1, false, false, [0, 0, 0], 0⟩

namespace Ps2

/-- `d? dev_p1: dev_p0`. -/
def dev (d : Bool) (s : Ps2) : Ps2Device := if d then s.devP1 else s.devP0

def setDev (d : Bool) (dev : Ps2Device) (s : Ps2) : Ps2 :=
  if d then { s with devP1 := dev } else { s with devP0 := dev }

end Ps2

/-- `translate_code`. -/
def translateCode (b : Nat) (s : Ps2) : Nat × Ps2 :=
  if b = 0xf0 then (0, { s with rel := true })
  else if b = 0xe0 then (0, { s with other := true })
  else
    let key := if s.other then scancodes2Other b else scancodes2 b
    let key := if s.rel then key ||| ECK_RELEASE else key
    (key, { s with rel := false, other := false })

/-- `ps2_irqkbd`, for the byte that the port gives. -/
def ps2Irqkbd (d : Bool) (b : Nat) (s : Ps2) : Ps2 :=
  let (key, s) := translateCode b s
  if key = 0 then s
  else if s.waitInt then s
  else
    match s.dev d with
    | .keyboard kbdev => s.setDev d (.keyboard (deviceKeyboardPutkey kbdev key))
    | _ => s

/-- The event of a packet that is complete; none if a counter overflowed.  A
byte that is not 0 and has a sign gets the high bits of `~0xff`. -/
def mousePacket (b rx ry : Nat) : Option DeviceMouseEvent :=
  if b &&& (PS2_MOUSE_FLAG_XO ||| PS2_MOUSE_FLAG_YO) ≠ 0 then none
  else
    let x : Int := if rx ≠ 0 ∧ b &&& PS2_MOUSE_FLAG_XS ≠ 0 then (rx : Int) - 256 else rx
    let y : Int := if ry ≠ 0 ∧ b &&& PS2_MOUSE_FLAG_YS ≠ 0 then (ry : Int) - 256 else ry
    some ⟨x, -y, [b &&& PS2_MOUSE_FLAG_BL ≠ 0, b &&& PS2_MOUSE_FLAG_BM ≠ 0,
      b &&& PS2_MOUSE_FLAG_BR ≠ 0]⟩

/-- `ps2_irqmouse`, for the byte that the port gives. -/
def ps2Irqmouse (d : Bool) (b : Nat) (s : Ps2) : Ps2 :=
  let s := { s with mbytes := s.mbytes.set s.nmbytes b, nmbytes := s.nmbytes + 1 }
  if s.nmbytes < 3 then s
  else
    let s := { s with nmbytes := 0 }
    match mousePacket (s.mbytes.getD 0 0) (s.mbytes.getD 1 0) (s.mbytes.getD 2 0) with
    | none => s
    | some ev =>
        match s.dev d with
        | .mouse msdev => s.setDev d (.mouse (deviceMousePutev msdev ev))
        | _ => s

/-- `ps2_irq1` and `ps2_irq12`, by the port. -/
def ps2Irq (d : Bool) (b : Nat) (s : Ps2) : Ps2 :=
  match s.dev d with
  | .keyboard _ => ps2Irqkbd d b s
  | .mouse _ => ps2Irqmouse d b s
  | .unknown => s

/-- What an `ioctl` returns, and the event it writes for its caller. -/
abbrev Ps2Answer := Int × Option DeviceMouseEvent

/-- `ioctl_kbd`. -/
def ioctlKbd (d : Bool) (op _arg : Nat) (s : Ps2) : Ps2Answer × Ps2 :=
  if op = ECIO_INP_GETEVENT then
    match s.dev d with
    | .keyboard kbdev =>
        let (key, kbdev) := deviceKeyboardGetkey kbdev
        ((key, none), s.setDev d (.keyboard kbdev))
    | _ => ((0, none), s)
  else if op = ECIO_INP_FLUSH then
    match s.dev d with
    | .keyboard kbdev => ((0, none), s.setDev d (.keyboard (deviceKeyboardFlushkeys kbdev)))
    | _ => ((0, none), s)
  else ((-ENOSYS, none), s)

/-- `ioctl_mus`. -/
def ioctlMus (d : Bool) (op arg : Nat) (s : Ps2) : Ps2Answer × Ps2 :=
  if op = ECIO_INP_GETEVENT then
    if arg = 0 then ((-EINVAL, none), s)
    else
      match s.dev d with
      | .mouse msdev =>
          let (dmev, msdev) := deviceMouseRead msdev
          ((if dmev.isNone then 1 else 0, dmev), s.setDev d (.mouse msdev))
      | _ => ((1, none), s)
  else if op = ECIO_INP_FLUSH then
    match s.dev d with
    | .mouse msdev => ((0, none), s.setDev d (.mouse (deviceMouseFlushevs msdev)))
    | _ => ((0, none), s)
  else ((-ENOSYS, none), s)

/-- The `ioctl` of the node that `ps2_init_devfs` adds for the port. -/
def ps2Ioctl (d : Bool) (op arg : Nat) (s : Ps2) : Option Ps2Answer × Ps2 :=
  match s.dev d with
  | .keyboard _ =>
      let (a, s) := ioctlKbd d op arg s
      (some a, s)
  | .mouse _ =>
      let (a, s) := ioctlMus d op arg s
      (some a, s)
  | .unknown => (none, s)

/-- An `ioctl`: the operation and its argument. -/
abbrev Ps2Request := Nat × Nat

/-- What happens at port `d`. -/
def ps2Next (s : Ps2) : Bool × PortOp Nat Ps2Request → Option Ps2Answer × Ps2
  | (d, .byte b) => (none, ps2Irq d b s)
  | (d, .ask (op, arg)) => ps2Ioctl d op arg s

/-- What is answered at port `d`, in order. -/
def ps2Answers (d : Bool) : Ps2 → List (Bool × PortOp Nat Ps2Request) → List Ps2Answer
  | _, [] => []
  | s, op :: ops =>
      (if op.1 = d then (ps2Next s op).1.toList else []) ++ ps2Answers d (ps2Next s op).2 ops

/-- What happens at port `d`, without the other port. -/
def opsAt (d : Bool) (ops : List (Bool × PortOp Nat Ps2Request)) : List (PortOp Nat Ps2Request) :=
  (ops.filter (·.1 = d)).map (·.2)

/-! ## the ports -/

/-- A keyboard sends scancodes; the state is what came before the code. -/
def keyboardPort : Port Nat Int (Bool × Bool) Ps2Request Ps2Answer where
  step d b :=
    if b = 0xf0 then (none, (true, d.2))
    else if b = 0xe0 then (none, (d.1, true))
    else
      let key := (if d.2 then scancodes2Other b else scancodes2 b) ||| (if d.1 then ECK_RELEASE else 0)
      (if key = 0 then none else some (key : Int), (false, false))
  room := DEVICE_KEYBOARD_MAX_KEYS - 1
  reply io q :=
    if io.1 = ECIO_INP_GETEVENT then ((q.head?.getD 0, none), q.tail)
    else if io.1 = ECIO_INP_FLUSH then ((0, none), [])
    else ((-ENOSYS, none), q)

/-- A mouse sends packets of three bytes; the state is the packet so far. -/
def mousePort : Port Nat DeviceMouseEvent (List Nat) Ps2Request Ps2Answer where
  step d b :=
    match d with
    | [flags, x] => (mousePacket flags x b, [])
    | _ => (none, d ++ [b])
  room := DEVICE_MOUSE_MAX_EVENTS - 1
  reply io q :=
    if io.1 = ECIO_INP_GETEVENT then
      if io.2 = 0 then ((-EINVAL, none), q) else ((if q.isEmpty then 1 else 0, q.head?), q.tail)
    else if io.1 = ECIO_INP_FLUSH then ((0, none), [])
    else ((-ENOSYS, none), q)

/-! ## one step -/

section ports

variable {k d : Bool} {s : Ps2} {dev : Ps2Device} {kd : Bool × Bool} {kq : List Int}
variable {md : List Nat} {mq : List DeviceMouseEvent}

namespace Ps2

@[simp] theorem dev_setDev (d : Bool) (dev : Ps2Device) (s : Ps2) : (s.setDev d dev).dev d = dev := by
  cases d <;> rfl

@[simp] theorem dev_setDev_not (d : Bool) (dev : Ps2Device) (s : Ps2) :
    (s.setDev d dev).dev (!d) = s.dev (!d) := by
  cases d <;> rfl

@[simp] theorem dev_not_setDev (d : Bool) (dev : Ps2Device) (s : Ps2) :
    (s.setDev (!d) dev).dev d = s.dev d := by
  cases d <;> rfl

@[simp] theorem setDev_waitInt (d : Bool) (dev : Ps2Device) (s : Ps2) :
    (s.setDev d dev).waitInt = s.waitInt := by
  cases d <;> rfl

@[simp] theorem setDev_rel (d : Bool) (dev : Ps2Device) (s : Ps2) : (s.setDev d dev).rel = s.rel := by
  cases d <;> rfl

@[simp] theorem setDev_other (d : Bool) (dev : Ps2Device) (s : Ps2) :
    (s.setDev d dev).other = s.other := by
  cases d <;> rfl

@[simp] theorem setDev_mbytes (d : Bool) (dev : Ps2Device) (s : Ps2) :
    (s.setDev d dev).mbytes = s.mbytes := by
  cases d <;> rfl

@[simp] theorem setDev_nmbytes (d : Bool) (dev : Ps2Device) (s : Ps2) :
    (s.setDev d dev).nmbytes = s.nmbytes := by
  cases d <;> rfl

end Ps2

/-- The device is a keyboard with the keys `q` to read. -/
def Ps2Device.IsKeyboard (q : List Int) (dev : Ps2Device) : Prop :=
  ∃ kbdev, dev = .keyboard kbdev ∧ keyboardRing.Valid kbdev ∧ keyboardRing.pending kbdev = q

/-- The device is a mouse with the events `q` to read. -/
def Ps2Device.IsMouse (q : List DeviceMouseEvent) (dev : Ps2Device) : Prop :=
  ∃ msdev, dev = .mouse msdev ∧ mouseRing.Valid msdev ∧ mouseRing.pending msdev = q

/-- The packet in `mbytes` so far. -/
structure Packet (mbytes : List Nat) (nmbytes : Nat) (md : List Nat) : Prop where
  size : mbytes.length = 3
  count : md.length = nmbytes
  open_ : md.length < 3
  bytes : mbytes.take nmbytes = md

/-- Port `k` is a keyboard and the other port is a mouse; the driver is in the
middle of `kd` and `md`, and `kq` and `mq` are to be read. -/
structure Ps2.Ports (k : Bool) (kd : Bool × Bool) (kq : List Int) (md : List Nat)
    (mq : List DeviceMouseEvent) (s : Ps2) : Prop where
  on : s.waitInt = false
  kbd : (s.dev k).IsKeyboard kq
  mus : (s.dev !k).IsMouse mq
  rel : s.rel = kd.1
  other : s.other = kd.2
  packet : Packet s.mbytes s.nmbytes md

/-- The key of a scancode, with the prefixes before it. -/
theorem translateCode_key (b : Nat) (s : Ps2) (h1 : b ≠ 0xf0) (h2 : b ≠ 0xe0) :
    translateCode b s =
      ((if s.other then scancodes2Other b else scancodes2 b) ||| (if s.rel then ECK_RELEASE else 0),
        { s with rel := false, other := false }) := by
  rw [translateCode, if_neg h1, if_neg h2]
  cases s.rel <;> simp

/-- **Step of the keyboard**: its port answers as a queue of keys, and the
mouse does not notice. -/
theorem Ps2.Ports.kbd_next (h : s.Ports k kd kq md mq) (op : PortOp Nat Ps2Request) :
    (ps2Next s (k, op)).1 = (keyboardPort.next kd kq op).1 ∧
      (ps2Next s (k, op)).2.Ports k (keyboardPort.next kd kq op).2.1
        (keyboardPort.next kd kq op).2.2 md mq := by
  obtain ⟨hon, ⟨kbdev, hdev, hv, rfl⟩, hmus, hrel, hother, hpacket⟩ := h
  cases op with
  | byte b =>
      refine ⟨rfl, ?_⟩
      simp only [ps2Next, ps2Irq, hdev, ps2Irqkbd, Port.next, keyboardPort]
      by_cases h1 : b = 0xf0
      · subst h1
        exact ⟨hon, ⟨kbdev, hdev, hv, rfl⟩, hmus, rfl, hother, hpacket⟩
      · by_cases h2 : b = 0xe0
        · subst h2
          exact ⟨hon, ⟨kbdev, hdev, hv, rfl⟩, hmus, hrel, rfl, hpacket⟩
        · rw [translateCode_key b s h1 h2, if_neg h1, if_neg h2, hrel, hother]
          generalize (if kd.2 then scancodes2Other b else scancodes2 b) |||
            (if kd.1 then ECK_RELEASE else 0) = key
          dsimp only
          by_cases hkey : key = 0
          · rw [if_pos hkey, if_pos hkey]
            exact ⟨hon, ⟨kbdev, hdev, hv, rfl⟩, hmus, rfl, rfl, hpacket⟩
          · -- the key goes to the ring
            have hput := hv.next_spec (.put (key : Int))
            have hdev' : (Ps2.dev k { s with rel := false, other := false }) = .keyboard kbdev := hdev
            rw [if_neg hkey, if_neg hkey, if_neg (by simp [hon]), hdev']
            refine ⟨by simpa using hon, ⟨_, Ps2.dev_setDev .., hput.1, hput.2.2⟩, ?_, by simp, by simp,
              by simpa using hpacket⟩
            rw [Ps2.dev_setDev_not]
            exact hmus
  | ask io =>
      obtain ⟨op, arg⟩ := io
      have hget := hv.next_spec .get
      have hflush := hv.next_spec .flush
      simp only [ps2Next, ps2Ioctl, hdev, ioctlKbd, Port.next, keyboardPort]
      by_cases h1 : op = ECIO_INP_GETEVENT
      · rw [if_pos h1, if_pos h1]
        refine ⟨?_, ⟨by simpa using hon, ⟨_, Ps2.dev_setDev .., hget.1, hget.2.2⟩, ?_, by simpa using hrel,
          by simpa using hother, by simpa using hpacket⟩⟩
        · exact congrArg (fun key => some (key, none)) hget.2.1
        · rw [Ps2.dev_setDev_not]
          exact hmus
      · rw [if_neg h1, if_neg h1]
        by_cases h2 : op = ECIO_INP_FLUSH
        · rw [if_pos h2, if_pos h2]
          refine ⟨rfl, ⟨by simpa using hon, ⟨_, Ps2.dev_setDev .., hflush.1, hflush.2.2⟩, ?_,
            by simpa using hrel, by simpa using hother, by simpa using hpacket⟩⟩
          rw [Ps2.dev_setDev_not]
          exact hmus
        · rw [if_neg h2, if_neg h2]
          exact ⟨rfl, hon, ⟨kbdev, hdev, hv, rfl⟩, hmus, hrel, hother, hpacket⟩

/-- A packet that is not complete yet gets a byte. -/
theorem Packet.more {mbytes : List Nat} {nmbytes b : Nat} (h : Packet mbytes nmbytes md)
    (hlt : nmbytes + 1 < 3) : Packet (mbytes.set nmbytes b) (nmbytes + 1) (md ++ [b]) := by
  obtain ⟨hsize, hcount, -, rfl⟩ := h
  refine ⟨by simp [hsize], by simp [hcount], by simp [hsize]; omega, ?_⟩
  rw [List.take_add_one, List.take_set_of_le le_rfl, List.getElem?_set_self (by omega)]
  rfl

/-- The last byte of a packet. -/
theorem Packet.last {mbytes : List Nat} {nmbytes b : Nat} (h : Packet mbytes nmbytes md)
    (hle : ¬ nmbytes + 1 < 3) : ∃ flags x, md = [flags, x] ∧ mbytes.set nmbytes b = [flags, x, b] := by
  obtain ⟨hsize, hcount, hopen, rfl⟩ := h
  have h2 : nmbytes = 2 := by omega
  subst h2
  match mbytes, hsize with
  | [flags, x, _], _ => exact ⟨flags, x, rfl, rfl⟩

/-- A mouse keeps the bytes of a packet until it has three. -/
theorem mousePort_step (md : List Nat) (b : Nat) (h : md.length + 1 < 3) :
    mousePort.step md b = (none, md ++ [b]) := by
  match md, h with
  | [], _ => rfl
  | [_], _ => rfl

/-- **Step of the mouse**: its port answers as a queue of events, and the
keyboard does not notice. -/
theorem Ps2.Ports.mus_next (h : s.Ports k kd kq md mq) (op : PortOp Nat Ps2Request) :
    (ps2Next s (!k, op)).1 = (mousePort.next md mq op).1 ∧
      (ps2Next s (!k, op)).2.Ports k kd kq (mousePort.next md mq op).2.1
        (mousePort.next md mq op).2.2 := by
  obtain ⟨hon, hkbd, ⟨msdev, hdev, hv, rfl⟩, hrel, hother, hpacket⟩ := h
  cases op with
  | byte b =>
      refine ⟨rfl, ?_⟩
      simp only [ps2Next, ps2Irq, hdev, ps2Irqmouse, Port.next]
      by_cases hlt : s.nmbytes + 1 < 3
      · rw [if_pos hlt, mousePort_step md b (hpacket.count ▸ hlt)]
        exact ⟨hon, hkbd, ⟨msdev, hdev, hv, rfl⟩, hrel, hother, hpacket.more hlt⟩
      · obtain ⟨flags, x, rfl, hset⟩ := hpacket.last (b := b) hlt
        have hempty : Packet [flags, x, b] 0 [] := ⟨rfl, rfl, by decide, rfl⟩
        rw [if_neg hlt, hset]
        simp only [mousePort, List.getD_cons_zero, List.getD_cons_succ]
        cases mousePacket flags x b with
        | none => exact ⟨hon, hkbd, ⟨msdev, hdev, hv, rfl⟩, hrel, hother, hempty⟩
        | some ev =>
            have hput := hv.next_spec (.put ev)
            have hdev' : (Ps2.dev (!k) { s with mbytes := [flags, x, b], nmbytes := 0 }) =
                .mouse msdev := hdev
            dsimp only
            rw [hdev']
            refine ⟨by simpa using hon, ?_, ⟨_, Ps2.dev_setDev .., hput.1, hput.2.2⟩,
              by simpa using hrel, by simpa using hother, by simpa using hempty⟩
            rw [Ps2.dev_not_setDev]
            exact hkbd
  | ask io =>
      obtain ⟨op, arg⟩ := io
      have hget := hv.next_spec .get
      have hflush := hv.next_spec .flush
      simp only [ps2Next, ps2Ioctl, hdev, ioctlMus, Port.next, mousePort]
      by_cases h1 : op = ECIO_INP_GETEVENT
      · rw [if_pos h1, if_pos h1]
        by_cases harg : arg = 0
        · rw [if_pos harg, if_pos harg]
          exact ⟨rfl, hon, hkbd, ⟨msdev, hdev, hv, rfl⟩, hrel, hother, hpacket⟩
        · rw [if_neg harg, if_neg harg]
          refine ⟨?_, ⟨by simpa using hon, ?_, ⟨_, Ps2.dev_setDev .., hget.1, hget.2.2⟩,
            by simpa using hrel, by simpa using hother, by simpa using hpacket⟩⟩
          · have hread : (deviceMouseRead msdev).1 = (mouseRing.pending msdev).head? := hget.2.1
            rw [hread]
            cases mouseRing.pending msdev <;> rfl
          · rw [Ps2.dev_not_setDev]
            exact hkbd
      · rw [if_neg h1, if_neg h1]
        by_cases h2 : op = ECIO_INP_FLUSH
        · rw [if_pos h2, if_pos h2]
          refine ⟨rfl, ⟨by simpa using hon, ?_, ⟨_, Ps2.dev_setDev .., hflush.1, hflush.2.2⟩,
            by simpa using hrel, by simpa using hother, by simpa using hpacket⟩⟩
          rw [Ps2.dev_not_setDev]
          exact hkbd
        · rw [if_neg h2, if_neg h2]
          exact ⟨rfl, hon, hkbd, ⟨msdev, hdev, hv, rfl⟩, hrel, hother, hpacket⟩

/-- **Run**: each port answers as its own queue. -/
theorem Ps2.Ports.answers (h : s.Ports k kd kq md mq) (ops : List (Bool × PortOp Nat Ps2Request)) :
    ps2Answers k s ops = keyboardPort.answers kd kq (opsAt k ops) ∧
      ps2Answers (!k) s ops = mousePort.answers md mq (opsAt (!k) ops) := by
  induction ops generalizing s kd kq md mq with
  | nil => exact ⟨rfl, rfl⟩
  | cons op ops ih =>
      obtain ⟨d, op⟩ := op
      by_cases hd : d = k
      · subst hd
        obtain ⟨ha, hp⟩ := h.kbd_next op
        obtain ⟨ihk, ihm⟩ := ih hp
        constructor
        · simp [ps2Answers, opsAt, Port.answers, ha, ihk]
        · simp [ps2Answers, opsAt, ihm]
      · obtain rfl : d = !k := Bool.eq_not.mpr hd
        obtain ⟨ha, hp⟩ := h.mus_next op
        obtain ⟨ihk, ihm⟩ := ih hp
        constructor
        · simp [ps2Answers, opsAt, ihk]
        · simp [ps2Answers, opsAt, Port.answers, ha, ihm]

end ports

/-- The driver with a new keyboard on port `k` and a new mouse on the other. -/
def ps2WithKbd (k : Bool) (keys : Nat → Int) (ev : Nat → DeviceMouseEvent) : Ps2 :=
  if k then ps2Init (.mouse (deviceMouseNew ev)) (.keyboard (deviceKeyboardNew keys))
  else ps2Init (.keyboard (deviceKeyboardNew keys)) (.mouse (deviceMouseNew ev))

theorem ports_ps2WithKbd (k : Bool) (keys : Nat → Int) (ev : Nat → DeviceMouseEvent) :
    (ps2WithKbd k keys ev).Ports k (false, false) [] [] [] := by
  have hkbd : (Ps2Device.keyboard (deviceKeyboardNew keys)).IsKeyboard [] :=
    ⟨_, rfl, valid_deviceKeyboardNew keys, RingBuf.pending_of_eq rfl⟩
  have hmus : (Ps2Device.mouse (deviceMouseNew ev)).IsMouse [] :=
    ⟨_, rfl, valid_deviceMouseNew ev, RingBuf.pending_of_eq rfl⟩
  cases k <;> exact ⟨rfl, hkbd, hmus, rfl, rfl, rfl, rfl, by decide, rfl⟩

/-- **A keyboard and a mouse do not disturb each other**: however their bytes and the requests of
their readers are interleaved, the requests at a port are answered from a queue that only the
bytes and the requests of this port change. -/
theorem ps2_separate (k : Bool) (keys : Nat → Int) (ev : Nat → DeviceMouseEvent)
    (ops : List (Bool × PortOp Nat Ps2Request)) :
    ps2Answers k (ps2WithKbd k keys ev) ops = keyboardPort.answers (false, false) [] (opsAt k ops) ∧
      ps2Answers (!k) (ps2WithKbd k keys ev) ops = mousePort.answers [] [] (opsAt (!k) ops) :=
  (ports_ps2WithKbd k keys ev).answers ops

/-! ## what the devices send -/

/-- A key goes down or up; its code is not one of the prefixes. -/
structure KeyEvent where
  other : Bool
  released : Bool
  code : Nat
  lt : code < 256
  ne_release : code ≠ 0xf0
  ne_other : code ≠ 0xe0

namespace KeyEvent

/-- The bytes of scancode set 2. -/
def bytes (e : KeyEvent) : List Nat :=
  (if e.other then [0xe0] else []) ++ ((if e.released then [0xf0] else []) ++ [e.code])

/-- The key that is queued; none for a code without a key that goes down. -/
def key (e : KeyEvent) : Option Int :=
  let key := (if e.other then scancodes2Other e.code else scancodes2 e.code) |||
    (if e.released then ECK_RELEASE else 0)
  if key = 0 then none else some key

theorem takes (e : KeyEvent) : keyboardPort.Takes (false, false) e.bytes e.key := by
  obtain ⟨other, released, code, -, h1, h2⟩ := e
  constructor <;> cases other <;> cases released <;>
    simp [bytes, key, keyboardPort, Decoder.elems, Decoder.after, h1, h2]

end KeyEvent

/-- A movement as the mouse counts it, in nine bits, and the buttons. -/
structure MouseMove where
  x : Int
  y : Int
  left : Bool
  middle : Bool
  right : Bool
  xo : Bool
  yo : Bool
  x_range : -256 ≤ x ∧ x < 256
  y_range : -256 ≤ y ∧ y < 256

/-- The first byte of a packet. -/
def mouseFlags (left right middle xs ys xo yo : Bool) : Nat :=
  (if left then PS2_MOUSE_FLAG_BL else 0) + (if right then PS2_MOUSE_FLAG_BR else 0) +
    (if middle then PS2_MOUSE_FLAG_BM else 0) + PS2_MOUSE_FLAG_ONE +
    (if xs then PS2_MOUSE_FLAG_XS else 0) + (if ys then PS2_MOUSE_FLAG_YS else 0) +
    (if xo then PS2_MOUSE_FLAG_XO else 0) + (if yo then PS2_MOUSE_FLAG_YO else 0)

/-- Each flag can be read from the byte. -/
theorem mouseFlags_land : ∀ left right middle xs ys xo yo : Bool,
    let b := mouseFlags left right middle xs ys xo yo
    (decide (b &&& PS2_MOUSE_FLAG_BL ≠ 0) = left ∧ decide (b &&& PS2_MOUSE_FLAG_BM ≠ 0) = middle ∧
      decide (b &&& PS2_MOUSE_FLAG_BR ≠ 0) = right) ∧
      decide (b &&& PS2_MOUSE_FLAG_XS ≠ 0) = xs ∧ decide (b &&& PS2_MOUSE_FLAG_YS ≠ 0) = ys ∧
      decide (b &&& (PS2_MOUSE_FLAG_XO ||| PS2_MOUSE_FLAG_YO) ≠ 0) = (xo || yo) := by
  decide

/-- The value of a counter from its low byte and its sign; the code has no -256. -/
theorem motion_eq {x : Int} (h : -256 ≤ x ∧ x < 256) :
    (if (x % 256).toNat ≠ 0 ∧ x < 0 then ((x % 256).toNat : Int) - 256 else (x % 256).toNat) =
      if x = -256 then 0 else x := by
  split <;> split <;> omega

namespace MouseMove

/-- The packet; its `y` counts upwards. -/
def bytes (m : MouseMove) : List Nat :=
  [mouseFlags m.left m.right m.middle (m.x < 0) (m.y < 0) m.xo m.yo, (m.x % 256).toNat,
    (m.y % 256).toNat]

/-- The event that is queued; none if a counter overflowed. -/
def event (m : MouseMove) : Option DeviceMouseEvent :=
  if m.xo || m.yo then none
  else some ⟨if m.x = -256 then 0 else m.x, -(if m.y = -256 then 0 else m.y),
    [m.left, m.middle, m.right]⟩

theorem takes (m : MouseMove) : mousePort.Takes [] m.bytes m.event := by
  obtain ⟨x, y, left, middle, right, xo, yo, hx, hy⟩ := m
  obtain ⟨⟨hl, hm, hr⟩, hxs, hys, ho⟩ := mouseFlags_land left right middle (x < 0) (y < 0) xo yo
  have hpacket : mousePacket (mouseFlags left right middle (x < 0) (y < 0) xo yo) (x % 256).toNat
      (y % 256).toNat = event ⟨x, y, left, middle, right, xo, yo, hx, hy⟩ := by
    rw [decide_eq_decide] at hxs hys
    have hmx := motion_eq hx
    have hmy := motion_eq hy
    have ho' : mouseFlags left right middle (x < 0) (y < 0) xo yo &&&
        (PS2_MOUSE_FLAG_XO ||| PS2_MOUSE_FLAG_YO) ≠ 0 ↔ (xo || yo) = true := by
      rw [← ho, decide_eq_true_eq]
    simp only [mousePacket, event, ho', hxs, hys, hl, hm, hr, hmx, hmy]
  constructor
  · simp [bytes, mousePort, Decoder.elems, hpacket]
  · rfl

end MouseMove

end Eclair
