import Eclair.Lib.ByteMem
import Eclair.Vfs.Chnlfs
import Eclair.Wm.Draw
import Eclair.Wm.State

/-!
# Eclair.Wm.Message

How the server takes a message (`process_message` and the handlers of
`bin/wm/server.c`, the requests of `ec/wm.h`).

A handler reads the fields of its request as it comes to them, from the
bytes that were received.  It fails where it would do what it must not do
with a message (`WmFault`); the inner `none` is an operation on the
windows that does not end well.
-/

namespace Eclair

def WM_REQUEST : Nat := 1
def WM_DRAW_COPY_AREA : Nat := 1
def WM_DRAW_FILL : Nat := 2
def WM_DRAW_FILL_RECT : Nat := 3
def WM_FORMAT_RGB8 : Nat := 1
def WM_FORMAT_RGBA8 : Nat := 2

/-- `WM_FUNCTION_…`. -/
inductive WmFunction where
  | acknowledge
  | forget
  | getScreenInfo
  | createImage
  | destroyImage
  | resizeImage
  | setImageData
  | createWindow
  | destroyWindow
  | setWindowAttributes
  | getWindowAttributes
  | getQueuedWindowEvents
  | postWindow
  | drawBatch
  deriving DecidableEq, Repr

/-- `handlers`; `none` is a null entry, or none at all. -/
def handlers : Nat → Option WmFunction
  | 0x001 => some .acknowledge
  | 0x002 => some .forget
  | 0x003 => some .getScreenInfo
  | 0x101 => some .createImage
  | 0x102 => some .destroyImage
  | 0x103 => some .resizeImage
  | 0x104 => some .setImageData
  | 0x301 => some .createWindow
  | 0x302 => some .destroyWindow
  | 0x303 => some .setWindowAttributes
  | 0x304 => some .getWindowAttributes
  | 0x305 => some .getQueuedWindowEvents
  | 0x306 => some .postWindow
  | 0x401 => some .drawBatch
  | _ => none

/-- What the server answers. -/
inductive WmResponse where
  | result (result : Nat)
  | screenInfo (width height : Nat)
  | attributes (attributes : WinAttrs)
  | events (events : List WmEvent)
  deriving DecidableEq, Repr

/-- What comes of a message. -/
abbrev Handled := Except WmFault (Option (Wm × WmResponse))

/-! ## reading a message -/

/-- The buffer from the start of the message. -/
def wordAt (msg : Bytes) (off : Nat) : Nat := ByteMem.word (fun i => msg.getD i 0) off

/-- A word of the message. -/
def msgWord (msg : Bytes) (off : Nat) : Except WmFault Nat :=
  if off + 4 ≤ msg.length then .ok (wordAt msg off) else .error .message

/-- A byte of the message. -/
def msgByte (msg : Bytes) (off : Nat) : Except WmFault UInt8 :=
  if off < msg.length then .ok (msg.getD off 0) else .error .message

/-- A colour of the message. -/
def msgColor (msg : Bytes) (off : Nat) : Except WmFault Color :=
  (msgByte msg off).bind fun r => (msgByte msg (off + 1)).bind fun g =>
  (msgByte msg (off + 2)).bind fun b => .ok ⟨r, g, b⟩

/-- The id of a request. -/
def msgId (msg : Bytes) : Except WmFault Nat := msgWord msg 12

/-! ## answers -/

def answer (s : Wm) (result : Nat) : Handled := .ok (some (s, .result result))

/-- The answer with the result of a handler. -/
def answerWith (r : Option (Wm × Nat)) : Handled := .ok (r.map fun r => (r.1, .result r.2))

/-- The id is that of a live resource of this type. -/
def HasType (s : Wm) (id type : Nat) : Prop :=
  (serverGetResource s id).isSome = true ∧ (s.resources id).type = type

instance (s : Wm) (id type : Nat) : Decidable (HasType s id type) :=
  inferInstanceAs (Decidable (_ ∧ _))

/-! ## images -/

/-- The image in the slot `k`. -/
def Wm.image (s : Wm) (k : Nat) : Option Image :=
  match (s.resources k).data with
  | some (.image _ image) => some image
  | _ => none

/-- `image_resource_get_image`. -/
def imageResourceGetImage (s : Wm) (k : Nat) : Except WmFault Image :=
  match s.image k with
  | some image => .ok image
  | none => .error .image

/-- The image of the resource `k`, drawn on. -/
def Wm.redraw (s : Wm) (k : Nat) (image : Image) : Wm :=
  s.modify k fun r => { r with data := r.data.map fun
    | .image cls _ => .image cls image
    | .window w => .window w }

/-- `handle_create_image`. -/
def createImage (fb : Display) (msg : Bytes) (s : Wm) : Handled :=
  (msgWord msg 20).bind fun cls => (msgWord msg 12).bind fun width =>
  (msgWord msg 16).bind fun height => answerWith (some (handleCreateImage fb s cls width height))

/-- `handle_destroy_image`. -/
def destroyImage (msg : Bytes) (s : Wm) : Handled :=
  (msgId msg).bind fun id => answerWith (some (handleDestroyImage s id))

/-- `handle_resize_image`: without the image its size is not read. -/
def resizeImage (fb : Display) (msg : Bytes) (s : Wm) : Handled :=
  (msgId msg).bind fun id =>
  if HasType s id WM_RESOURCE_IMAGE then
    (msgWord msg 16).bind fun width => (msgWord msg 20).bind fun height =>
    answerWith (handleResizeImage fb s id width height)
  else answer s WM_FAILURE

/-- The bytes before the data of `wm_set_image_data_request_t`. -/
def SET_IMAGE_DATA_SIZE : Nat := 28

/-- `(uint32_t)size - sizeof(wm_set_image_data_request_t)`. -/
def dataLength (msg : Bytes) : Except WmFault Nat :=
  if SET_IMAGE_DATA_SIZE ≤ msg.length then .ok (msg.length - SET_IMAGE_DATA_SIZE) else .error .underflow

/-- `handle_set_image_data`. -/
def setImageData (fb : Display) (msg : Bytes) (s : Wm) : Handled :=
  (msgId msg).bind fun id =>
  if HasType s id WM_RESOURCE_IMAGE then
    (msgWord msg 16).bind fun format =>
    if format < WM_FORMAT_RGB8 ∨ format > WM_FORMAT_RGBA8 then answer s WM_FAILURE
    else (msgWord msg 24).bind fun size => (dataLength msg).bind fun length =>
      if size ≠ length / (format + 2) then answer s WM_FAILURE
      else (imageResourceGetImage s id).bind fun image => (msgWord msg 20).bind fun offset =>
        (imageSetData fb image format offset size fun p => msgByte msg (SET_IMAGE_DATA_SIZE + p)).bind
          fun image => answer (s.redraw id image) WM_SUCCESS
  else answer s WM_FAILURE

/-! ## windows -/

/-- A handler of a live window. -/
def ofWindow (msg : Bytes) (s : Wm) (f : Nat → Window → Handled) : Handled :=
  (msgId msg).bind fun id =>
  if HasType s id WM_RESOURCE_WINDOW then
    match s.window id with
    | some w => f id w
    | none => .ok none
  else answer s WM_FAILURE

/-- `handle_destroy_window`. -/
def destroyWindow (msg : Bytes) (s : Wm) : Handled :=
  (msgId msg).bind fun id => answerWith (handleDestroyWindow s id)

/-- A part of a change of attributes whose fields are read when the
conditions before hold (`reads`). -/
def attrPart (reads : Bool) (read : Except WmFault WinAttrs) (part : WinAttrs → AttrStep) :
    Except WmFault AttrStep :=
  if reads then read.bind fun a => .ok (part a) else .ok (part {})

/-- Go on with the next part. -/
def attrThen (r : Except WmFault AttrStep) (f : Wm → Except WmFault AttrStep) : Except WmFault AttrStep :=
  r.bind fun
    | some (s, true) => f s
    | r => .ok r

/-- A field of the attributes. -/
def msgAttr (msg : Bytes) (off : Nat) (set : Nat → WinAttrs) : Except WmFault WinAttrs :=
  (msgWord msg off).bind fun v => .ok (set v)

/-- The place in the stack. -/
def stackFrom (msg : Bytes) (k : Nat) (mask : AttrMask) (s : Wm) : Except WmFault AttrStep :=
  attrPart (mask.stack && (s.window k).any fun w => w.attributes.stack = WM_STACK_CENTER)
    (msgAttr msg 44 fun v => { stack := v }) fun a => setStack s k mask.stack a.stack

/-- The image, and what comes after. -/
def imageFrom (msg : Bytes) (k : Nat) (mask : AttrMask) (s : Wm) : Except WmFault AttrStep :=
  attrThen (attrPart mask.image (msgAttr msg 40 fun v => { image := v })
    fun a => setImage s k mask.image a.image) (stackFrom msg k mask)

/-- The events, and what comes after. -/
def eventsFrom (msg : Bytes) (k : Nat) (mask : AttrMask) (s : Wm) : Except WmFault AttrStep :=
  attrThen (attrPart mask.events (msgAttr msg 36 fun v => { events := v })
    fun a => setEvents s k mask.events a.events) (imageFrom msg k mask)

/-- The size, and what comes after. -/
def sizeFrom (msg : Bytes) (k : Nat) (mask : AttrMask) (s : Wm) : Except WmFault AttrStep :=
  attrThen (attrPart (mask.size && decide ((s.resources k).id = s.focus))
    ((msgWord msg 28).bind fun width => (msgWord msg 32).bind fun height =>
      .ok { width := width, height := height })
    fun a => setPlace s k mask.size fun b => { b with width := a.width, height := a.height })
    (eventsFrom msg k mask)

/-- `window_resource_set_attributes` on the attributes of a message: the
position, and what comes after. -/
def setAttributesFrom (msg : Bytes) (k : Nat) (mask : AttrMask) (s : Wm) : Except WmFault AttrStep :=
  attrThen (attrPart (mask.position && decide ((s.resources k).id = s.focus))
    ((msgWord msg 20).bind fun x => (msgWord msg 24).bind fun y => .ok { x := x, y := y })
    fun a => setPlace s k mask.position fun b => { b with x := a.x, y := a.y }) (sizeFrom msg k mask)

/-- `handle_set_window_attributes`. -/
def setWindowAttributes (msg : Bytes) (s : Wm) : Handled :=
  ofWindow msg s fun id _ => (msgWord msg 16).bind fun mask =>
  (setAttributesFrom msg id (attrMask mask) s).bind fun r =>
  answerWith (r.map fun r => (r.1, if r.2 then WM_SUCCESS else WM_FAILURE))

/-- `window_resource_get_attributes`, into attributes that are all zero. -/
def windowResourceGetAttributes (w : Window) (mask : AttrMask) : WinAttrs where
  x := if mask.position then w.attributes.x else 0
  y := if mask.position then w.attributes.y else 0
  width := if mask.size then w.attributes.width else 0
  height := if mask.size then w.attributes.height else 0
  events := if mask.events then w.attributes.events else 0
  image := if mask.image then w.attributes.image else 0
  stack := if mask.stack then w.attributes.stack else 0

/-- `handle_get_window_attributes`. -/
def getWindowAttributes (msg : Bytes) (s : Wm) : Handled :=
  ofWindow msg s fun _ w => (msgWord msg 16).bind fun mask =>
  .ok (some (s, .attributes (windowResourceGetAttributes w (attrMask mask))))

/-- `window_resource_get_next_event`, up to `n` times. -/
def nextEvents : Nat → Window → List WmEvent × Window
  | 0, w => ([], w)
  | n + 1, w =>
      if w.evStart = w.evEnd then ([], w)
      else
        let r := nextEvents n { w with evStart := (w.evStart + 1) % WINDOW_RESOURCE_MAX_EVENTS }
        (w.events.getD w.evStart default :: r.1, r.2)

/-- The events that fit in a response: 20 bytes each, after 20. -/
def MAX_RESPONSE_EVENTS : Nat := (ECIO_CHNL_BUFSZ - 20) / 20

/-- `handle_get_queued_window_events`. -/
def getQueuedWindowEvents (msg : Bytes) (s : Wm) : Handled :=
  ofWindow msg s fun id w =>
  let r := nextEvents MAX_RESPONSE_EVENTS w
  .ok (some (s.setWindow id r.2, .events r.1))

/-- `handle_post_window`. -/
def postWindow (msg : Bytes) (s : Wm) : Handled :=
  ofWindow msg s fun _ _ => answer s WM_SUCCESS

/-! ## drawing -/

/-- The bytes before the commands of `wm_draw_batch_request_t`. -/
def DRAW_BATCH_SIZE : Nat := 20

/-- `sizeof(wm_draw_command_t)`. -/
def DRAW_COMMAND_SIZE : Nat := 32

/-- An `int` of the message. -/
def msgInt (msg : Bytes) (off : Nat) : Except WmFault Int :=
  (msgWord msg off).bind fun v => .ok (i32 v)

/-- A command at `off` that copies to the image `k`; from what is no image
it ends the batch. -/
def drawCopyArea (msg : Bytes) (k off : Nat) (s : Wm) : Except WmFault (Wm × Bool) :=
  (msgWord msg (off + 4)).bind fun id =>
  if HasType s id WM_RESOURCE_IMAGE then
    (imageResourceGetImage s k).bind fun dest => (imageResourceGetImage s id).bind fun source =>
    (msgInt msg (off + 8)).bind fun x => (msgInt msg (off + 12)).bind fun y =>
    (msgInt msg (off + 16)).bind fun sx => (msgInt msg (off + 20)).bind fun sy =>
    (msgInt msg (off + 24)).bind fun sw => (msgInt msg (off + 28)).bind fun sh =>
    (imageCopyArea dest source (id = k) x y sx sy sw sh).bind fun image =>
    .ok (s.redraw k image, true)
  else .ok (s, false)

/-- A command that fills the image `k`. -/
def drawFill (fb : Display) (msg : Bytes) (k off : Nat) (s : Wm) : Except WmFault (Wm × Bool) :=
  (msgColor msg (off + 4)).bind fun color => (imageResourceGetImage s k).bind fun image =>
  (imageFill fb image color).bind fun image => .ok (s.redraw k image, true)

/-- A command that fills an area of the image `k`. -/
def drawFillRect (fb : Display) (msg : Bytes) (k off : Nat) (s : Wm) : Except WmFault (Wm × Bool) :=
  (msgColor msg (off + 20)).bind fun color => (imageResourceGetImage s k).bind fun image =>
  (msgInt msg (off + 4)).bind fun x => (msgInt msg (off + 8)).bind fun y =>
  (msgInt msg (off + 12)).bind fun w => (msgInt msg (off + 16)).bind fun h =>
  (imageFillRect fb image ⟨x, y, w, h⟩ color).bind fun image => .ok (s.redraw k image, true)

/-- Where the command `i` of a batch is. -/
def commandAt (i : Nat) : Nat := DRAW_BATCH_SIZE + DRAW_COMMAND_SIZE * i

/-- One command of a batch. -/
def drawCommand (fb : Display) (msg : Bytes) (k i : Nat) (s : Wm) : Except WmFault (Wm × Bool) :=
  (msgWord msg (commandAt i)).bind fun type =>
  if type = WM_DRAW_COPY_AREA then drawCopyArea msg k (commandAt i) s
  else if type = WM_DRAW_FILL then drawFill fb msg k (commandAt i) s
  else if type = WM_DRAW_FILL_RECT then drawFillRect fb msg k (commandAt i) s
  else .ok (s, true)

/-- `handle_draw_batch`: the result is success also after a command that failed. -/
def drawBatch (fb : Display) (msg : Bytes) (s : Wm) : Handled :=
  (msgId msg).bind fun id =>
  if HasType s id WM_RESOURCE_IMAGE then
    (msgWord msg 16).bind fun count =>
    if msg.length ≠ u32 (u32 (count * DRAW_COMMAND_SIZE) + DRAW_BATCH_SIZE) then answer s WM_FAILURE
    else (Loop.tryLoop (drawCommand fb msg id) 0 count s).bind fun s => answer s WM_SUCCESS
  else answer s WM_FAILURE

/-! ## dispatch -/

/-- A handler of the table. -/
def handle (fb : Display) (msg : Bytes) (s : Wm) : WmFunction → Handled
  | .acknowledge => answer s WM_SUCCESS
  | .forget => answer s WM_SUCCESS
  | .getScreenInfo => .ok (some (s, .screenInfo fb.width fb.height))
  | .createImage => createImage fb msg s
  | .destroyImage => destroyImage msg s
  | .resizeImage => resizeImage fb msg s
  | .setImageData => setImageData fb msg s
  | .createWindow => answerWith (handleCreateWindow s)
  | .destroyWindow => destroyWindow msg s
  | .setWindowAttributes => setWindowAttributes msg s
  | .getWindowAttributes => getWindowAttributes msg s
  | .getQueuedWindowEvents => getQueuedWindowEvents msg s
  | .postWindow => postWindow msg s
  | .drawBatch => drawBatch fb msg s

/-- `process_message`. -/
def processMessage (fb : Display) (msg : Bytes) (s : Wm) : Handled :=
  (msgWord msg 4).bind fun size =>
  if size ≠ msg.length then answer s WM_FAILURE
  else (msgWord msg 0).bind fun type =>
    if type ≠ WM_REQUEST then answer s WM_FAILURE
    else (msgWord msg 8).bind fun function =>
      match handlers function with
      | none => answer s WM_FAILURE
      | some f => handle fb msg s f

end Eclair
