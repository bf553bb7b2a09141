import Eclair.Lib.Words
import Eclair.Wm.Message
import Eclair.Wm.Stack

/-!
# Eclair.Wm.Calls

The calls of the client library (`lib/wm.c`): the request that a call puts
together, what the server does for it, the reply, and what the caller makes
of the reply.

`request_served` says that the handlers find in a request what the call has
put there, and `result_reply` that the caller finds in the reply what the
server has put there.
-/

namespace Eclair

def WM_RESPONSE : Nat := 2
def WM_EVENT_KEY : Nat := 0x11
def WM_EVENT_BUTTON : Nat := 0x12
def WM_EVENT_MOTION : Nat := 0x13

/-! ## requests -/

/-- `wm_draw_command_t`; `pad` is what is left of the union. -/
inductive WmDraw where
  | copyArea (id x y sx sy sw sh : Nat)
  | fill (color : Color) (pad : Bytes)
  | fillRect (x y w h : Nat) (color : Color) (pad : Bytes)
  | other (type : Nat) (pad : Bytes)

/-- The words that a command begins with. -/
def WmDraw.words : WmDraw → List Nat
  | .copyArea id x y sx sy sw sh => [WM_DRAW_COPY_AREA, id, x, y, sx, sy, sw, sh]
  | .fill _ _ => [WM_DRAW_FILL]
  | .fillRect x y w h _ _ => [WM_DRAW_FILL_RECT, x, y, w, h]
  | .other type _ => [type]

/-- The bytes that come after them. -/
def WmDraw.tail : WmDraw → Bytes
  | .copyArea .. => []
  | .fill c pad => c.r :: c.g :: c.b :: pad
  | .fillRect _ _ _ _ c pad => c.r :: c.g :: c.b :: pad
  | .other _ pad => pad

def WmDraw.bytes (d : WmDraw) : Bytes := Words.all d.words ++ d.tail

/-- The functions of `lib/wm.c`, with their arguments. -/
inductive WmCall where
  | open
  | close
  | getScreenInfo
  | createImage (width height cls : Nat)
  | destroyImage (id : Nat)
  | resizeImage (id width height : Nat)
  | setImageData (id format offset size : Nat) (data : Bytes)
  | createWindow
  | destroyWindow (id : Nat)
  | setWindowAttributes (id mask : Nat) (attributes : WinAttrs)
  | getWindowAttributes (id mask : Nat)
  | getQueuedWindowEvents (id : Nat)
  | postWindow (id : Nat)
  | drawBatch (id : Nat) (commands : List WmDraw)

namespace WmCall

/-- `message->function`. -/
def function : WmCall → Nat
  | .open => 0x001
  | .close => 0x002
  | .getScreenInfo => 0x003
  | .createImage .. => 0x101
  | .destroyImage _ => 0x102
  | .resizeImage .. => 0x103
  | .setImageData .. => 0x104
  | .createWindow => 0x301
  | .destroyWindow _ => 0x302
  | .setWindowAttributes .. => 0x303
  | .getWindowAttributes .. => 0x304
  | .getQueuedWindowEvents _ => 0x305
  | .postWindow _ => 0x306
  | .drawBatch .. => 0x401

/-- The fields of the request behind `base`. -/
def fields : WmCall → List Nat
  | .open | .close | .getScreenInfo | .createWindow => []
  | .createImage width height cls => [width, height, cls]
  | .destroyImage id | .destroyWindow id | .getQueuedWindowEvents id | .postWindow id => [id]
  | .resizeImage id width height => [id, width, height]
  | .setImageData id format offset size _ => [id, format, offset, size]
  | .setWindowAttributes id mask a =>
      [id, mask, a.x, a.y, a.width, a.height, a.events, a.image, a.stack]
  | .getWindowAttributes id mask => [id, mask]
  | .drawBatch id commands => [id, commands.length]

/-- The data behind the fields. -/
def data : WmCall → Bytes
  | .setImageData _ _ _ _ data => data
  | .drawBatch _ commands => commands.flatMap WmDraw.bytes
  | _ => []

/-- `message->size`. -/
def size (c : WmCall) : Nat := 12 + 4 * c.fields.length + c.data.length

/-- The request in `reqbuf`. -/
def request (c : WmCall) : Bytes :=
  Words.all ([WM_REQUEST, c.size, c.function] ++ c.fields) ++ c.data

end WmCall

/-- The numbers of a command have 32 bits, and it has its size. -/
structure WmDraw.Valid (d : WmDraw) : Prop where
  words : ∀ v ∈ d.words, v < 2 ^ 32
  size : d.bytes.length = DRAW_COMMAND_SIZE
  other : ∀ type pad, d = .other type pad →
    type ≠ WM_DRAW_COPY_AREA ∧ type ≠ WM_DRAW_FILL ∧ type ≠ WM_DRAW_FILL_RECT

/-- The arguments have 32 bits, arrays have the lengths that go with them,
and the request fits in `reqbuf`. -/
structure WmCall.Valid (c : WmCall) : Prop where
  fields : ∀ v ∈ c.fields, v < 2 ^ 32
  fits : c.size ≤ ECIO_CHNL_BUFSZ
  pixels : ∀ id format offset size data, c = .setImageData id format offset size data →
    data.length = size * (format + 2)
  commands : ∀ id commands, c = .drawBatch id commands → ∀ d ∈ commands, d.Valid

/-! ## what the server does -/

/-- One drawing command on the image `k`. -/
def WmDraw.draw (fb : Display) (k : Nat) (s : Wm) : WmDraw → Except WmFault (Wm × Bool)
  | .copyArea id x y sx sy sw sh =>
      if HasType s id WM_RESOURCE_IMAGE then
        (imageResourceGetImage s k).bind fun dest => (imageResourceGetImage s id).bind fun source =>
        (imageCopyArea dest source (id = k) (i32 x) (i32 y) (i32 sx) (i32 sy) (i32 sw) (i32 sh)).bind
          fun image => .ok (s.redraw k image, true)
      else .ok (s, false)
  | .fill color _ =>
      (imageResourceGetImage s k).bind fun image => (imageFill fb image color).bind fun image =>
      .ok (s.redraw k image, true)
  | .fillRect x y w h color _ =>
      (imageResourceGetImage s k).bind fun image =>
      (imageFillRect fb image ⟨i32 x, i32 y, i32 w, i32 h⟩ color).bind fun image =>
      .ok (s.redraw k image, true)
  | .other _ _ => .ok (s, true)

/-- Drawing commands, up to one that ends the batch. -/
def drawAll (fb : Display) (k : Nat) : List WmDraw → Wm → Except WmFault Wm
  | [], s => .ok s
  | d :: ds, s => (d.draw fb k s).bind fun r => if r.2 then drawAll fb k ds r.1 else .ok r.1

/-- A call on a live window. -/
def onWindow (s : Wm) (id : Nat) (f : Window → Handled) : Handled :=
  if HasType s id WM_RESOURCE_WINDOW then
    match s.window id with
    | some w => f w
    | none => .ok none
  else answer s WM_FAILURE

/-- A byte of the data of a call. -/
def dataByte (data : Bytes) (p : Nat) : Except WmFault UInt8 :=
  if p < data.length then .ok (data.getD p 0) else .error .message

/-- The call on the server's state: no messages, only the operations. -/
def WmCall.serve (fb : Display) (s : Wm) : WmCall → Handled
  | .open | .close => answer s WM_SUCCESS
  | .getScreenInfo => .ok (some (s, .screenInfo fb.width fb.height))
  | .createImage width height cls => answerWith (some (handleCreateImage fb s cls width height))
  | .destroyImage id => answerWith (some (handleDestroyImage s id))
  | .resizeImage id width height => answerWith (handleResizeImage fb s id width height)
  | .setImageData id format offset size data =>
      if HasType s id WM_RESOURCE_IMAGE ∧ WM_FORMAT_RGB8 ≤ format ∧ format ≤ WM_FORMAT_RGBA8 then
        (imageResourceGetImage s id).bind fun image =>
        (imageSetData fb image format offset size (dataByte data)).bind fun image =>
        answer (s.redraw id image) WM_SUCCESS
      else answer s WM_FAILURE
  | .createWindow => answerWith (handleCreateWindow s)
  | .destroyWindow id => answerWith (handleDestroyWindow s id)
  | .setWindowAttributes id mask a => onWindow s id fun _ =>
      answerWith ((windowResourceSetAttributes s id a (attrMask mask)).map fun r =>
        (r.1, if r.2 then WM_SUCCESS else WM_FAILURE))
  | .getWindowAttributes id mask => onWindow s id fun w =>
      .ok (some (s, .attributes (windowResourceGetAttributes w (attrMask mask))))
  | .getQueuedWindowEvents id => onWindow s id fun w =>
      let r := nextEvents MAX_RESPONSE_EVENTS w
      .ok (some (s.setWindow id r.2, .events r.1))
  | .postWindow id => onWindow s id fun _ => answer s WM_SUCCESS
  | .drawBatch id commands =>
      if HasType s id WM_RESOURCE_IMAGE then
        (drawAll fb id commands s).bind fun s => answer s WM_SUCCESS
      else answer s WM_FAILURE

/-! ## reading a request -/

theorem ok_bind {α β : Type} {a : α} {f : α → Except WmFault β} : (Except.ok a).bind f = f a := by
  rw [Except.bind]

variable {fb : Display} {s : Wm} {c : WmCall} {ws : List Nat} {pre rest b : Bytes} {off k : Nat}

/-- A word that is there, wherever its structure stands. -/
theorem msgWord_words (hk : k < ws.length) (hv : ∀ v ∈ ws, v < 2 ^ 32) (hoff : off = pre.length + 4 * k) :
    msgWord (pre ++ (Words.all ws ++ rest)) off = .ok (ws.getD k 0) := by
  have hword : wordAt (pre ++ (Words.all ws ++ rest)) off = ws.getD k 0 := by
    have hsmall : ws.getD k 0 < 2 ^ 32 := by
      rw [List.getD_eq_getElem?_getD, List.getElem?_eq_getElem hk]
      exact hv _ (List.getElem_mem hk)
    exact (Words.wordAt_append hoff).trans ((Words.wordAt_all hk).trans (Nat.mod_eq_of_lt hsmall))
  rw [msgWord, if_pos, hword]
  simp only [List.length_append, Words.length_all]
  omega

/-- A byte behind the words. -/
theorem msgByte_append (hoff : off = pre.length + k) : msgByte (pre ++ b) off = msgByte b k := by
  have hplace : off - pre.length = k := by omega
  simp only [msgByte, List.getD_eq_getElem?_getD, List.length_append]
  by_cases hk : k < b.length
  · rw [if_pos (by omega), if_pos hk, List.getElem?_append_right (by omega), hplace]
  · rw [if_neg (by omega), if_neg hk]

/-- The words of a request. -/
def WmCall.words (c : WmCall) : List Nat := [WM_REQUEST, c.size, c.function] ++ c.fields

namespace WmCall.Valid

theorem words (h : c.Valid) : ∀ v ∈ c.words, v < 2 ^ 32 := by
  have hfunction : c.function < 2 ^ 32 := by cases c <;> simp [WmCall.function]
  have hsize : c.size < 2 ^ 32 := Nat.lt_of_le_of_lt h.fits (by decide)
  simp only [WmCall.words, List.cons_append, List.nil_append, List.mem_cons, forall_eq_or_imp]
  exact ⟨by decide, hsize, hfunction, h.fields⟩

/-- The header and the fields are where the handlers look for them. -/
theorem word (h : c.Valid) (k : Nat) (hk : k < c.words.length) (hoff : off = 4 * k) :
    msgWord c.request off = .ok (c.words.getD k 0) := by
  have hrequest : c.request = [] ++ (Words.all c.words ++ c.data) := rfl
  rw [hrequest]
  exact msgWord_words hk h.words (by rw [List.length_nil, hoff, Nat.zero_add])

theorem field {v : Nat} (h : c.Valid) (k : Nat) (hv : c.fields[k]? = some v) (hoff : off = 12 + 4 * k) :
    msgWord c.request off = .ok v := by
  obtain ⟨hk, hget⟩ := List.getElem?_eq_some_iff.mp hv
  have hword : msgWord c.request off = .ok (c.words.getD (k + 3) 0) :=
    h.word (k + 3) (by simpa [WmCall.words] using hk) (by omega)
  rw [hword, List.getD_eq_getElem?_getD]
  exact congrArg (fun v => Except.ok (Option.getD v 0)) hv

end WmCall.Valid

@[simp] theorem length_request : c.request.length = c.size := by
  simp only [WmCall.request, WmCall.size, List.length_append, Words.length_all, List.length_cons,
    List.length_nil]
  omega

/-- A request comes to its handler. -/
theorem processMessage_request (h : c.Valid) : processMessage fb c.request s =
    match handlers c.function with
    | none => answer s WM_FAILURE
    | some f => handle fb c.request s f := by
  have hlen : ∀ k, k < 3 → k < c.words.length := fun k hk => by
    simp only [WmCall.words, List.length_append, List.length_cons]
    omega
  rw [processMessage, h.word 1 (hlen 1 (by decide)) rfl, h.word 0 (hlen 0 (by decide)) rfl,
    h.word 2 (hlen 2 (by decide)) rfl]
  have hsize : ¬ c.size ≠ c.request.length := by simp
  cases hf : handlers c.function <;>
    simp only [WmCall.words, Except.bind, List.getD_cons_succ, List.getD_cons_zero, List.cons_append,
      if_neg hsize, ne_eq, not_true, if_false, hf]

/-! ## the attributes of a window -/

section Attributes

variable {mask : AttrMask} {a : WinAttrs} {msg : Bytes} {t : Wm}

theorem attrThen_ok {r : AttrStep} {f : Wm → Except WmFault AttrStep} {g : Wm → AttrStep}
    (hf : ∀ s, f s = .ok (g s)) : attrThen (.ok r) f = .ok (r.andThen g) := by
  cases r with
  | none => rfl
  | some p =>
      obtain ⟨t, go⟩ := p
      cases go with
      | true => exact hf t
      | false => rfl

/-- What is not read does not matter. -/
theorem attrPart_ok {reads : Bool} {part : WinAttrs → AttrStep} (h : reads = false → part {} = part a) :
    attrPart reads (.ok a) part = .ok (part a) := by
  cases reads with
  | true => rfl
  | false => exact congrArg Except.ok (h rfl)

theorem setPlace_unread {on : Bool} {f g : WinAttrs → WinAttrs}
    (h : (on && decide ((s.resources k).id = s.focus)) = false) : setPlace s k on f = setPlace s k on g := by
  cases on with
  | false => rfl
  | true =>
      have hne : (s.resources k).id ≠ s.focus := by simpa using h
      simp [setPlace, hne]

theorem setStack_unread {on : Bool} {v v' : Nat}
    (h : (on && (s.window k).any fun w => w.attributes.stack = WM_STACK_CENTER) = false) :
    setStack s k on v = setStack s k on v' := by
  cases on with
  | false => rfl
  | true =>
      cases hw : s.window k with
      | none => simp [setStack, hw]
      | some w =>
          have hne : w.attributes.stack ≠ WM_STACK_CENTER := by simpa [hw] using h
          simp [setStack, hw, hne]

/-- The message has these attributes. -/
structure HasAttributes (msg : Bytes) (a : WinAttrs) : Prop where
  x : msgWord msg 20 = .ok a.x
  y : msgWord msg 24 = .ok a.y
  width : msgWord msg 28 = .ok a.width
  height : msgWord msg 32 = .ok a.height
  events : msgWord msg 36 = .ok a.events
  image : msgWord msg 40 = .ok a.image
  stack : msgWord msg 44 = .ok a.stack

/-- **Setting attributes** from a message is setting those it has. -/
theorem HasAttributes.set (h : HasAttributes msg a) :
    setAttributesFrom msg k mask s = .ok (windowResourceSetAttributes s k a mask) := by
  have hstack : ∀ t, stackFrom msg k mask t = .ok (setStack t k mask.stack a.stack) := fun t => by
    rw [stackFrom, msgAttr, h.stack]
    exact attrPart_ok (a := { stack := a.stack }) setStack_unread
  have himage : ∀ t, imageFrom msg k mask t = .ok ((setImage t k mask.image a.image).andThen fun t =>
      setStack t k mask.stack a.stack) := fun t => by
    rw [imageFrom, msgAttr, h.image, Except.bind, attrPart_ok (a := { image := a.image })]
    · exact attrThen_ok hstack
    · intro hoff
      rw [hoff]
      rfl
  have hevents : ∀ t, eventsFrom msg k mask t = .ok ((setEvents t k mask.events a.events).andThen fun t =>
      (setImage t k mask.image a.image).andThen fun t => setStack t k mask.stack a.stack) := fun t => by
    rw [eventsFrom, msgAttr, h.events, Except.bind, attrPart_ok (a := { events := a.events })]
    · exact attrThen_ok himage
    · intro hoff
      rw [hoff]
      rfl
  have hsize : ∀ t, sizeFrom msg k mask t = .ok ((setPlace t k mask.size fun b =>
      { b with width := a.width, height := a.height }).andThen fun t =>
      (setEvents t k mask.events a.events).andThen fun t =>
      (setImage t k mask.image a.image).andThen fun t => setStack t k mask.stack a.stack) := fun t => by
    rw [sizeFrom, h.width, Except.bind, h.height, Except.bind,
      attrPart_ok (a := { width := a.width, height := a.height }) setPlace_unread]
    exact attrThen_ok hevents
  rw [setAttributesFrom, h.x, Except.bind, h.y, Except.bind,
    attrPart_ok (a := { x := a.x, y := a.y }) setPlace_unread]
  exact attrThen_ok hsize

end Attributes

/-! ## drawing commands -/

section Drawing

variable {d : WmDraw} {ds : List WmDraw} {i : Nat}

theorem msgColor_append {color : Color} (hoff : off = pre.length) :
    msgColor (pre ++ (color.r :: color.g :: color.b :: rest)) off = .ok color := by
  rw [msgColor, msgByte_append (k := 0) hoff, msgByte_append (k := 1) (by omega),
    msgByte_append (k := 2) (by omega)]
  rfl

theorem msgInt_of_word {msg : Bytes} {v : Nat} (h : msgWord msg off = .ok v) :
    msgInt msg off = .ok (i32 v) := by
  rw [msgInt, h]
  rfl

/-- **One command** is read as it was written. -/
theorem drawCommand_bytes (h : d.Valid) (hpre : pre.length = commandAt i) :
    drawCommand fb (pre ++ (d.bytes ++ rest)) k i s = d.draw fb k s := by
  have hword : ∀ j {off}, j < d.words.length → off = commandAt i + 4 * j →
      msgWord (pre ++ (d.bytes ++ rest)) off = .ok (d.words.getD j 0) := by
    intro j off hj hoff
    rw [WmDraw.bytes, List.append_assoc]
    exact msgWord_words hj h.words (by rw [hpre, hoff])
  have htype := hword 0 (by cases d <;> exact Nat.zero_lt_succ _) rfl
  rw [Nat.mul_zero, Nat.add_zero] at htype
  rw [drawCommand, htype, ok_bind]
  cases d with
  | copyArea id x y sx sy sw sh =>
      have hint := fun j {off} hj (hoff : off = commandAt i + 4 * j) => msgInt_of_word (hword j hj hoff)
      have hlen : (WmDraw.copyArea id x y sx sy sw sh).words.length = 8 := rfl
      rw [hlen] at hword hint
      have hdraw : (WmDraw.copyArea id x y sx sy sw sh).words.getD 0 0 = WM_DRAW_COPY_AREA := rfl
      rw [if_pos hdraw, drawCopyArea, hword 1 (by decide) (by omega), hint 2 (by decide) (by omega), hint 3 (by decide) (by omega),
        hint 4 (by decide) (by omega), hint 5 (by decide) (by omega), hint 6 (by decide) (by omega), hint 7 (by decide) (by omega)]
      simp only [WmDraw.words, WmDraw.draw, ok_bind, List.getD_cons_succ, List.getD_cons_zero]
  | fill color pad =>
      have hcolor : msgColor (pre ++ ((WmDraw.fill color pad).bytes ++ rest)) (commandAt i + 4) =
          .ok color := by
        have hsplit : pre ++ ((WmDraw.fill color pad).bytes ++ rest) =
            (pre ++ Words.all [WM_DRAW_FILL]) ++ (color.r :: color.g :: color.b :: (pad ++ rest)) := by
          simp [WmDraw.bytes, WmDraw.words, WmDraw.tail]
        rw [hsplit, msgColor_append (by simp [hpre])]
      have hcopy : WM_DRAW_FILL ≠ WM_DRAW_COPY_AREA := by decide
      have hdraw : (WmDraw.fill color pad).words.getD 0 0 = WM_DRAW_FILL := rfl
      rw [hdraw, if_neg hcopy, if_pos rfl, drawFill, hcolor, ok_bind, WmDraw.draw]
  | fillRect x y width height color pad =>
      have hint := fun j {off} hj (hoff : off = commandAt i + 4 * j) => msgInt_of_word (hword j hj hoff)
      have hlen : (WmDraw.fillRect x y width height color pad).words.length = 5 := rfl
      rw [hlen] at hint
      have hcolor : msgColor (pre ++ ((WmDraw.fillRect x y width height color pad).bytes ++ rest))
          (commandAt i + 20) = .ok color := by
        have hsplit : pre ++ ((WmDraw.fillRect x y width height color pad).bytes ++ rest) =
            (pre ++ Words.all [WM_DRAW_FILL_RECT, x, y, width, height]) ++
              (color.r :: color.g :: color.b :: (pad ++ rest)) := by
          simp [WmDraw.bytes, WmDraw.words, WmDraw.tail]
        rw [hsplit, msgColor_append (by simp [hpre])]
      have hdraw : (WmDraw.fillRect x y width height color pad).words.getD 0 0 = WM_DRAW_FILL_RECT := rfl
      have hcopy : WM_DRAW_FILL_RECT ≠ WM_DRAW_COPY_AREA := by decide
      have hfill : WM_DRAW_FILL_RECT ≠ WM_DRAW_FILL := by decide
      rw [hdraw, if_neg hcopy, if_neg hfill, if_pos rfl, drawFillRect, hcolor, hint 1 (by decide) (by omega),
        hint 2 (by decide) (by omega), hint 3 (by decide) (by omega), hint 4 (by decide) (by omega)]
      simp only [WmDraw.words, WmDraw.draw, ok_bind, List.getD_cons_succ, List.getD_cons_zero]
  | other type pad =>
      obtain ⟨h1, h2, h3⟩ := h.other type pad rfl
      have hdraw : (WmDraw.other type pad).words.getD 0 0 = type := rfl
      rw [hdraw, if_neg h1, if_neg h2, if_neg h3, WmDraw.draw]

/-- **All commands** are drawn one after the other. -/
theorem tryLoop_drawCommand (hds : ∀ d ∈ ds, d.Valid) (hpre : pre.length = commandAt i) :
    Loop.tryLoop (drawCommand fb (pre ++ ds.flatMap WmDraw.bytes) k) i ds.length s =
      drawAll fb k ds s := by
  induction ds generalizing pre i s with
  | nil => rfl
  | cons d ds ih =>
      have hd : d.Valid := hds d List.mem_cons_self
      rw [List.flatMap_cons, List.length_cons, Loop.tryLoop, drawCommand_bytes hd hpre, drawAll]
      congr 1
      funext r
      split
      · rw [← List.append_assoc]
        refine ih (fun e he => hds e (List.mem_cons_of_mem d he)) ?_
        simp only [List.length_append, hpre, hd.size, commandAt, Nat.mul_succ, Nat.add_assoc]
      · rfl

theorem length_commands (hds : ∀ d ∈ ds, d.Valid) :
    (ds.flatMap WmDraw.bytes).length = DRAW_COMMAND_SIZE * ds.length := by
  induction ds with
  | nil => rfl
  | cons d ds ih =>
      rw [List.flatMap_cons, List.length_append, (hds d List.mem_cons_self).size,
        ih fun e he => hds e (List.mem_cons_of_mem d he), List.length_cons, Nat.mul_succ, Nat.add_comm]

end Drawing

/-! ## every call -/

theorem ofWindow_request {msg : Bytes} {id : Nat} {f : Nat → Window → Handled}
    (h : msgId msg = .ok id) : ofWindow msg s f = onWindow s id fun w => f id w := by
  rw [ofWindow, h]
  rfl

/-- The data of a request is where the handlers look for it. -/
theorem request_data {p : Nat} (hoff : off = 12 + 4 * c.fields.length + p) :
    msgByte c.request off = dataByte c.data p := by
  refine (msgByte_append (k := p) ?_).trans rfl
  simp only [Words.length_all, List.length_append, List.length_cons, List.length_nil]
  omega

theorem setImageData_request {id format offset size : Nat} {data : Bytes}
    (h : (WmCall.setImageData id format offset size data).Valid) :
    setImageData fb (WmCall.setImageData id format offset size data).request s =
      (WmCall.setImageData id format offset size data).serve fb s := by
  have hpixels := h.pixels id format offset size data rfl
  have hid : msgId (WmCall.setImageData id format offset size data).request = .ok id :=
    h.field 0 rfl rfl
  have hformat : msgWord (WmCall.setImageData id format offset size data).request 16 = .ok format :=
    h.field 1 rfl rfl
  have hoffset : msgWord (WmCall.setImageData id format offset size data).request 20 = .ok offset :=
    h.field 2 rfl rfl
  have hsize : msgWord (WmCall.setImageData id format offset size data).request 24 = .ok size :=
    h.field 3 rfl rfl
  have hlen : (WmCall.setImageData id format offset size data).size = 28 + data.length := rfl
  have hlength : dataLength (WmCall.setImageData id format offset size data).request =
      .ok data.length := by
    rw [dataLength, length_request, hlen, SET_IMAGE_DATA_SIZE, if_pos (by omega),
      Nat.add_sub_cancel_left]
  have hbytes : (fun p => msgByte (WmCall.setImageData id format offset size data).request
      (SET_IMAGE_DATA_SIZE + p)) = dataByte data := by
    funext p
    exact request_data rfl
  have hcount : ¬ size ≠ data.length / (format + 2) := by
    rw [hpixels, Nat.mul_div_cancel _ (by omega)]
    exact not_not.mpr rfl
  rw [setImageData, hid, ok_bind, WmCall.serve]
  by_cases htype : HasType s id WM_RESOURCE_IMAGE
  · rw [if_pos htype, hformat, ok_bind]
    by_cases hf : format < WM_FORMAT_RGB8 ∨ format > WM_FORMAT_RGBA8
    · rw [if_pos hf, if_neg (by omega)]
    · rw [if_neg hf, if_pos ⟨htype, by omega, by omega⟩, hsize, ok_bind, hlength, ok_bind, if_neg hcount,
        hoffset, hbytes]
      simp only [ok_bind]
  · rw [if_neg htype, if_neg fun h => htype h.1]

theorem drawBatch_request {id : Nat} {ds : List WmDraw} (h : (WmCall.drawBatch id ds).Valid) :
    drawBatch fb (WmCall.drawBatch id ds).request s = (WmCall.drawBatch id ds).serve fb s := by
  have hds := h.commands id ds rfl
  have hfits := h.fits
  have hlen : (WmCall.drawBatch id ds).size = DRAW_BATCH_SIZE + DRAW_COMMAND_SIZE * ds.length :=
    congrArg (20 + ·) (length_commands hds)
  have hid : msgId (WmCall.drawBatch id ds).request = .ok id := h.field 0 rfl rfl
  have hcount : msgWord (WmCall.drawBatch id ds).request 16 = .ok ds.length :=
    h.field 1 rfl rfl
  have hsize : ¬ (WmCall.drawBatch id ds).request.length ≠
      u32 (u32 (ds.length * DRAW_COMMAND_SIZE) + DRAW_BATCH_SIZE) := by
    rw [length_request]
    simp only [hlen, DRAW_BATCH_SIZE, DRAW_COMMAND_SIZE, ECIO_CHNL_BUFSZ] at hfits ⊢
    rw [u32_of_lt (n := ds.length * 32) (by omega), u32_of_lt (by omega)]
    omega
  rw [drawBatch, hid, ok_bind, WmCall.serve]
  by_cases htype : HasType s id WM_RESOURCE_IMAGE
  · rw [if_pos htype, if_pos htype, hcount, ok_bind, if_neg hsize]
    congr 1
    exact tryLoop_drawCommand hds (by simp [WmCall.fields, commandAt, DRAW_BATCH_SIZE])
  · rw [if_neg htype, if_neg htype]

theorem setWindowAttributes_request {id mask : Nat} {a : WinAttrs}
    (h : (WmCall.setWindowAttributes id mask a).Valid) :
    setWindowAttributes (WmCall.setWindowAttributes id mask a).request s =
      (WmCall.setWindowAttributes id mask a).serve fb s := by
  have hattributes : HasAttributes (WmCall.setWindowAttributes id mask a).request a :=
    ⟨h.field 2 rfl rfl, h.field 3 rfl rfl, h.field 4 rfl rfl, h.field 5 rfl rfl, h.field 6 rfl rfl,
      h.field 7 rfl rfl, h.field 8 rfl rfl⟩
  have hid : msgId (WmCall.setWindowAttributes id mask a).request = .ok id := h.field 0 rfl rfl
  have hmask : msgWord (WmCall.setWindowAttributes id mask a).request 16 = .ok mask := h.field 1 rfl rfl
  rw [setWindowAttributes, ofWindow_request hid, hmask, WmCall.serve]
  simp only [ok_bind, hattributes.set]

/-- What is no image is not resized. -/
theorem handleResizeImage_of_not {id width height : Nat} (h : ¬ HasType s id WM_RESOURCE_IMAGE) :
    handleResizeImage fb s id width height = some (s, WM_FAILURE) := by
  unfold handleResizeImage serverGetResource
  unfold HasType serverGetResource at h
  by_cases hid : id < MAX_RESOURCES ∧ (s.resources id).id ≠ 0
  · rw [if_pos hid] at h ⊢
    have htype : (s.resources id).type ≠ WM_RESOURCE_IMAGE := by simpa using h
    exact if_pos htype
  · rw [if_neg hid]

/-- **The server serves the call**: what it does with a request of the client library is what the
call asks for. -/
theorem request_served (h : c.Valid) : processMessage fb c.request s = c.serve fb s := by
  rw [processMessage_request h]
  cases c with
  | «open» => rfl
  | close => rfl
  | getScreenInfo => rfl
  | createImage width height cls =>
      have hwidth : msgWord (WmCall.createImage width height cls).request 12 = .ok width :=
        h.field 0 rfl rfl
      have hheight : msgWord (WmCall.createImage width height cls).request 16 = .ok height :=
        h.field 1 rfl rfl
      have hcls : msgWord (WmCall.createImage width height cls).request 20 = .ok cls :=
        h.field 2 rfl rfl
      show createImage fb _ s = _
      rw [createImage, hcls, ok_bind, hwidth, ok_bind, hheight, ok_bind, WmCall.serve]
  | destroyImage id =>
      have hid : msgId (WmCall.destroyImage id).request = .ok id := h.field 0 rfl rfl
      show destroyImage _ s = _
      rw [destroyImage, hid, ok_bind, WmCall.serve]
  | resizeImage id width height =>
      have hid : msgId (WmCall.resizeImage id width height).request = .ok id :=
        h.field 0 rfl rfl
      have hwidth : msgWord (WmCall.resizeImage id width height).request 16 = .ok width :=
        h.field 1 rfl rfl
      have hheight : msgWord (WmCall.resizeImage id width height).request 20 = .ok height :=
        h.field 2 rfl rfl
      show resizeImage fb _ s = _
      rw [resizeImage, hid, ok_bind, hwidth, ok_bind, hheight, ok_bind, WmCall.serve]
      split
      · rfl
      · next htype => rw [handleResizeImage_of_not htype, answerWith, answer, Option.map_some]
  | setImageData id format offset size data => exact setImageData_request h
  | createWindow => rfl
  | destroyWindow id =>
      have hid : msgId (WmCall.destroyWindow id).request = .ok id := h.field 0 rfl rfl
      show destroyWindow _ s = _
      rw [destroyWindow, hid, ok_bind, WmCall.serve]
  | setWindowAttributes id mask a => exact setWindowAttributes_request h
  | getWindowAttributes id mask =>
      have hid : msgId (WmCall.getWindowAttributes id mask).request = .ok id :=
        h.field 0 rfl rfl
      have hmask : msgWord (WmCall.getWindowAttributes id mask).request 16 = .ok mask :=
        h.field 1 rfl rfl
      show getWindowAttributes _ s = _
      rw [getWindowAttributes, ofWindow_request hid, hmask]
      simp only [ok_bind]
      rfl
  | getQueuedWindowEvents id =>
      have hid : msgId (WmCall.getQueuedWindowEvents id).request = .ok id := h.field 0 rfl rfl
      show getQueuedWindowEvents _ s = _
      rw [getQueuedWindowEvents, ofWindow_request hid, WmCall.serve]
  | postWindow id =>
      have hid : msgId (WmCall.postWindow id).request = .ok id := h.field 0 rfl rfl
      show postWindow _ s = _
      rw [postWindow, ofWindow_request hid, WmCall.serve]
  | drawBatch id commands => exact drawBatch_request h

/-! ## replies -/

/-- `wm_event_t`; the words that a key does not use are not set by the server. -/
def WmEvent.words : WmEvent → List Nat
  | .key code action => [WM_EVENT_KEY, code, action, 0, 0]
  | .button code action x y => [WM_EVENT_BUTTON, code, action, x, y]
  | .motion mx my x y => [WM_EVENT_MOTION, mx, my, x, y]

/-- The words of a response. -/
def WmResponse.words : WmResponse → List Nat
  | .result v => [WM_RESPONSE, 12, v]
  | .screenInfo width height => [WM_REQUEST, 20, WM_SUCCESS, width, height]
  | .attributes a =>
      [WM_RESPONSE, 40, WM_SUCCESS, a.x, a.y, a.width, a.height, a.events, a.image, a.stack]
  | .events es =>
      [WM_RESPONSE, 20 + 20 * es.length, WM_SUCCESS, es.length, 0] ++ es.flatMap WmEvent.words

/-- The response that the server sends. -/
def WmResponse.bytes (r : WmResponse) : Bytes := Words.all r.words

/-- What a function of `lib/wm.c` returns. -/
inductive WmResult where
  | void
  | status (ok : Bool)
  | id (id : Nat)
  | screenInfo (info : Option (Nat × Nat))
  | attributes (attributes : Option WinAttrs)
  | events (events : Option (List (Option WmEvent)))
  deriving DecidableEq, Repr

/-- The event at an offset. -/
def eventAt (b : Bytes) (off : Nat) : Option WmEvent :=
  if wordAt b off = WM_EVENT_KEY then some (.key (wordAt b (off + 4)) (wordAt b (off + 8)))
  else if wordAt b off = WM_EVENT_BUTTON then
    some (.button (wordAt b (off + 4)) (wordAt b (off + 8)) (wordAt b (off + 12)) (wordAt b (off + 16)))
  else if wordAt b off = WM_EVENT_MOTION then
    some (.motion (wordAt b (off + 4)) (wordAt b (off + 8)) (wordAt b (off + 12)) (wordAt b (off + 16)))
  else none

/-- What the caller finds in `rspbuf`; `send_message` fails when `result` is 0. -/
def WmCall.result (b : Bytes) : WmCall → WmResult
  | .close | .destroyImage _ | .destroyWindow _ => .void
  | .open | .resizeImage .. | .setImageData .. | .setWindowAttributes .. | .postWindow _
  | .drawBatch .. => .status (wordAt b 8 ≠ 0)
  | .createImage .. | .createWindow => .id (if wordAt b 8 = 0 then WM_NULL else wordAt b 8)
  | .getScreenInfo => .screenInfo (if wordAt b 8 = 0 then none else some (wordAt b 12, wordAt b 16))
  | .getWindowAttributes .. => .attributes (if wordAt b 8 = 0 then none else
      some ⟨wordAt b 12, wordAt b 16, wordAt b 20, wordAt b 24, wordAt b 28, wordAt b 32, wordAt b 36⟩)
  | .getQueuedWindowEvents _ => .events (if wordAt b 8 = 0 then none else
      some ((List.range (wordAt b 12)).map fun i => eventAt b (20 + 20 * i)))

/-- The fields as 32 bits hold them. -/
def WinAttrs.low (a : WinAttrs) : WinAttrs :=
  ⟨u32 a.x, u32 a.y, u32 a.width, u32 a.height, u32 a.events, u32 a.image, u32 a.stack⟩

/-- The fields as 32 bits hold them. -/
def WmEvent.low : WmEvent → WmEvent
  | .key code action => .key (u32 code) (u32 action)
  | .button code action x y => .button (u32 code) (u32 action) (u32 x) (u32 y)
  | .motion mx my x y => .motion (u32 mx) (u32 my) (u32 x) (u32 y)

/-- What the call returns for the server's answer. -/
def WmCall.returns (r : WmResponse) : WmCall → WmResult
  | .close | .destroyImage _ | .destroyWindow _ => .void
  | .open | .resizeImage .. | .setImageData .. | .setWindowAttributes .. | .postWindow _
  | .drawBatch .. => match r with
    | .result v => .status (u32 v ≠ 0)
    | _ => .status true
  | .createImage .. | .createWindow => match r with
    | .result v => .id (u32 v)
    | _ => .id WM_NULL
  | .getScreenInfo => match r with
    | .screenInfo width height => .screenInfo (some (u32 width, u32 height))
    | _ => .screenInfo none
  | .getWindowAttributes .. => match r with
    | .attributes a => .attributes (some a.low)
    | _ => .attributes none
  | .getQueuedWindowEvents _ => match r with
    | .events es => .events (some (es.map fun e => some e.low))
    | _ => .events none

/-- The kinds of answer that a call gets. -/
def WmCall.Gets (r : WmResponse) : WmCall → Prop
  | .getScreenInfo => ∃ width height, r = .screenInfo width height
  | .getWindowAttributes .. => r = .result WM_FAILURE ∨ ∃ a, r = .attributes a
  | .getQueuedWindowEvents _ => r = .result WM_FAILURE ∨ ∃ es, r = .events es ∧
      es.length ≤ MAX_RESPONSE_EVENTS
  | _ => ∃ v, r = .result v

section Replies

variable {r : WmResponse} {t : Wm} {junk : Bytes}

theorem length_nextEvents (n : Nat) (w : Window) : (nextEvents n w).1.length ≤ n := by
  induction n generalizing w with
  | zero => exact Nat.le_refl 0
  | succ n ih =>
      rw [nextEvents]
      split
      · exact Nat.zero_le _
      · exact Nat.succ_le_succ (ih _)

/-- What `answer` and `answerWith` return is a plain result. -/
theorem answer_gets {v : Nat} (h : answer s v = .ok (some (t, r))) : r = .result v := by
  simp only [answer, Except.ok.injEq, Option.some.injEq, Prod.mk.injEq] at h
  exact h.2.symm

theorem answerWith_gets {x : Option (Wm × Nat)} (h : answerWith x = .ok (some (t, r))) :
    ∃ v, r = .result v := by
  simp only [answerWith, Except.ok.injEq, Option.map_eq_some_iff, Prod.mk.injEq] at h
  obtain ⟨p, -, -, hr⟩ := h
  exact ⟨p.2, hr.symm⟩

theorem bind_answer_gets {α : Type} {x : Except WmFault α} {f : α → Wm} {v : Nat}
    (h : (x.bind fun a => answer (f a) v) = .ok (some (t, r))) : r = .result v := by
  obtain ⟨a, -, ha⟩ := Exact.bind_eq_ok.mp h
  exact answer_gets ha

theorem onWindow_gets {id : Nat} {f : Window → Handled} (h : onWindow s id f = .ok (some (t, r))) :
    r = .result WM_FAILURE ∨ ∃ w, f w = .ok (some (t, r)) := by
  unfold onWindow at h
  split at h
  · split at h
    · exact .inr ⟨_, h⟩
    · cases h
  · exact .inl (answer_gets h)

/-- **The answers** of the server are of the kind that the call gets. -/
theorem serve_gets (h : c.serve fb s = .ok (some (t, r))) : c.Gets r := by
  cases c with
  | «open» => exact ⟨_, answer_gets h⟩
  | close => exact ⟨_, answer_gets h⟩
  | getScreenInfo =>
      simp only [WmCall.serve, Except.ok.injEq, Option.some.injEq, Prod.mk.injEq] at h
      exact ⟨_, _, h.2.symm⟩
  | createImage width height cls => exact answerWith_gets h
  | destroyImage id => exact answerWith_gets h
  | resizeImage id width height => exact answerWith_gets h
  | setImageData id format offset size data =>
      rw [WmCall.serve] at h
      split at h
      · obtain ⟨image, -, himage⟩ := Exact.bind_eq_ok.mp h
        exact ⟨_, bind_answer_gets himage⟩
      · exact ⟨_, answer_gets h⟩
  | createWindow => exact answerWith_gets h
  | destroyWindow id => exact answerWith_gets h
  | setWindowAttributes id mask a =>
      rcases onWindow_gets h with hr | ⟨w, hw⟩
      · exact ⟨_, hr⟩
      · exact answerWith_gets hw
  | getWindowAttributes id mask =>
      refine (onWindow_gets h).imp_right fun ⟨w, hw⟩ => ?_
      simp only [Except.ok.injEq, Option.some.injEq, Prod.mk.injEq] at hw
      exact ⟨_, hw.2.symm⟩
  | getQueuedWindowEvents id =>
      refine (onWindow_gets h).imp_right fun ⟨w, hw⟩ => ?_
      simp only [Except.ok.injEq, Option.some.injEq, Prod.mk.injEq] at hw
      exact ⟨_, hw.2.symm, length_nextEvents _ _⟩
  | postWindow id =>
      rcases onWindow_gets h with hr | ⟨w, hw⟩
      · exact ⟨_, hr⟩
      · exact ⟨_, answer_gets hw⟩
  | drawBatch id commands =>
      rw [WmCall.serve] at h
      split at h
      · exact ⟨_, bind_answer_gets h⟩
      · exact ⟨_, answer_gets h⟩

/-- A word of a response. -/
theorem wordAt_words {v : Nat} (k : Nat) (hv : ws[k]? = some v) (hoff : off = 4 * k) :
    wordAt (Words.all ws ++ rest) off = u32 v := by
  obtain ⟨hk, -⟩ := List.getElem?_eq_some_iff.mp hv
  rw [hoff]
  refine (Words.wordAt_all hk).trans ?_
  rw [List.getD_eq_getElem?_getD, hv]
  rfl

theorem eventAt_append (hoff : off = pre.length + k) : eventAt (pre ++ b) off = eventAt b k := by
  have hword : ∀ i, wordAt (pre ++ b) (off + i) = wordAt b (k + i) := fun i =>
    Words.wordAt_append (by omega)
  have hfirst : wordAt (pre ++ b) off = wordAt b k := Words.wordAt_append hoff
  rw [eventAt, eventAt, hfirst, hword, hword, hword, hword]

/-- An event is read as it was written. -/
theorem eventAt_words (e : WmEvent) : eventAt (Words.all e.words ++ rest) 0 = some e.low := by
  have hword : ∀ k v, e.words[k]? = some v → wordAt (Words.all e.words ++ rest) (4 * k) = u32 v :=
    fun k v hv => wordAt_words k hv rfl
  cases e with
  | key code action =>
      have htype := hword 0 _ rfl
      have h1 := hword 1 _ rfl
      have h2 := hword 2 _ rfl
      rw [Nat.mul_zero] at htype
      rw [eventAt, htype, if_pos (by decide)]
      exact congrArg some (congrArg₂ WmEvent.key h1 h2)
  | button code action x y =>
      have htype := hword 0 _ rfl
      have h1 := hword 1 _ rfl
      have h2 := hword 2 _ rfl
      have h3 := hword 3 _ rfl
      have h4 := hword 4 _ rfl
      rw [Nat.mul_zero] at htype
      rw [eventAt, htype, if_neg (by decide), if_pos (by decide)]
      simp only [Nat.zero_add, Nat.mul_one, Nat.reduceMul] at h1 h2 h3 h4 ⊢
      rw [h1, h2, h3, h4, WmEvent.low]
  | motion mx my x y =>
      have htype := hword 0 _ rfl
      have h1 := hword 1 _ rfl
      have h2 := hword 2 _ rfl
      have h3 := hword 3 _ rfl
      have h4 := hword 4 _ rfl
      rw [Nat.mul_zero] at htype
      rw [eventAt, htype, if_neg (by decide), if_neg (by decide), if_pos (by decide)]
      simp only [Nat.zero_add, Nat.mul_one, Nat.reduceMul] at h1 h2 h3 h4 ⊢
      rw [h1, h2, h3, h4, WmEvent.low]

/-- **The events** of a response are found one after the other. -/
theorem events_read (es : List WmEvent) (hoff : off = pre.length) :
    (List.range es.length).map (fun i =>
        eventAt (pre ++ (Words.all (es.flatMap WmEvent.words) ++ b)) (off + 20 * i)) =
      es.map fun e => some e.low := by
  induction es generalizing pre off with
  | nil => rfl
  | cons e es ih =>
      have hsplit : pre ++ (Words.all ((e :: es).flatMap WmEvent.words) ++ b) =
          (pre ++ Words.all e.words) ++ (Words.all (es.flatMap WmEvent.words) ++ b) := by
        rw [List.flatMap_cons, Words.all_append]
        simp only [List.append_assoc]
      have hlen : (Words.all e.words).length = 20 := by
        rw [Words.length_all]
        cases e <;> rfl
      have hrest := ih (show off + 20 = (pre ++ Words.all e.words).length by
        rw [List.length_append, hlen, hoff])
      rw [List.length_cons, List.range_succ_eq_map, List.map_cons, List.map_map, List.map_cons]
      congr 1
      · rw [hsplit, List.append_assoc, eventAt_append (k := 0) (by omega), eventAt_words]
      · rw [← hrest, hsplit]
        refine List.map_congr_left fun i _ => ?_
        rw [Function.comp_apply]
        congr 1
        omega

/-- The result of a plain response. -/
theorem result_word {v : Nat} : wordAt ((WmResponse.result v).bytes ++ junk) 8 = u32 v :=
  wordAt_words 2 rfl rfl

/-- **The caller finds** in a reply what the server has put there. -/
theorem result_reply (h : c.Gets r) : c.result (r.bytes ++ junk) = c.returns r := by
  have hfail : u32 WM_FAILURE = 0 := rfl
  cases c with
  | close => rfl
  | destroyImage id => rfl
  | destroyWindow id => rfl
  | getScreenInfo =>
      obtain ⟨width, height, rfl⟩ := h
      have hok : wordAt ((WmResponse.screenInfo width height).bytes ++ junk) 8 = 1 :=
        wordAt_words (v := WM_SUCCESS) 2 rfl rfl
      have hwidth : wordAt ((WmResponse.screenInfo width height).bytes ++ junk) 12 = u32 width :=
        wordAt_words 3 rfl rfl
      have hheight : wordAt ((WmResponse.screenInfo width height).bytes ++ junk) 16 = u32 height :=
        wordAt_words 4 rfl rfl
      rw [WmCall.result, hok, if_neg (by decide), hwidth, hheight, WmCall.returns]
  | getWindowAttributes id mask =>
      rcases h with rfl | ⟨a, rfl⟩
      · rw [WmCall.result, result_word, hfail, if_pos rfl]
        rfl
      · have hword : ∀ k v, (WmResponse.attributes a).words[k]? = some v →
            wordAt ((WmResponse.attributes a).bytes ++ junk) (4 * k) = u32 v :=
          fun k v hv => wordAt_words k hv rfl
        have hok : wordAt ((WmResponse.attributes a).bytes ++ junk) 8 = 1 := hword 2 _ rfl
        have hx : wordAt ((WmResponse.attributes a).bytes ++ junk) 12 = u32 a.x := hword 3 _ rfl
        have hy : wordAt ((WmResponse.attributes a).bytes ++ junk) 16 = u32 a.y := hword 4 _ rfl
        have hwidth : wordAt ((WmResponse.attributes a).bytes ++ junk) 20 = u32 a.width := hword 5 _ rfl
        have hheight : wordAt ((WmResponse.attributes a).bytes ++ junk) 24 = u32 a.height :=
          hword 6 _ rfl
        have hevents : wordAt ((WmResponse.attributes a).bytes ++ junk) 28 = u32 a.events :=
          hword 7 _ rfl
        have himage : wordAt ((WmResponse.attributes a).bytes ++ junk) 32 = u32 a.image := hword 8 _ rfl
        have hstack : wordAt ((WmResponse.attributes a).bytes ++ junk) 36 = u32 a.stack := hword 9 _ rfl
        rw [WmCall.result, hok, if_neg (by decide), hx, hy, hwidth, hheight, hevents, himage, hstack,
          WmCall.returns, WinAttrs.low]
  | getQueuedWindowEvents id =>
      rcases h with rfl | ⟨es, rfl, hlen⟩
      · rw [WmCall.result, result_word, hfail, if_pos rfl]
        rfl
      · have hok : wordAt ((WmResponse.events es).bytes ++ junk) 8 = 1 :=
          wordAt_words (v := WM_SUCCESS) 2 rfl rfl
        have hcount : wordAt ((WmResponse.events es).bytes ++ junk) 12 = es.length := by
          refine (wordAt_words 3 rfl rfl).trans (u32_of_lt ?_)
          exact Nat.lt_of_le_of_lt hlen (by decide)
        have hbytes : (WmResponse.events es).bytes ++ junk =
            Words.all [WM_RESPONSE, 20 + 20 * es.length, WM_SUCCESS, es.length, 0] ++
              (Words.all (es.flatMap WmEvent.words) ++ junk) := by
          rw [WmResponse.bytes, WmResponse.words, Words.all_append, List.append_assoc]
        have hread := events_read (b := junk) es (show 20 = (Words.all [WM_RESPONSE,
          20 + 20 * es.length, WM_SUCCESS, es.length, 0]).length from rfl)
        rw [WmCall.result, hok, if_neg (by decide), hcount, hbytes, hread, WmCall.returns]
  | «open» =>
      obtain ⟨v, rfl⟩ := h
      rw [WmCall.result, result_word, WmCall.returns]
  | resizeImage id width height =>
      obtain ⟨v, rfl⟩ := h
      rw [WmCall.result, result_word, WmCall.returns]
  | setImageData id format offset size data =>
      obtain ⟨v, rfl⟩ := h
      rw [WmCall.result, result_word, WmCall.returns]
  | setWindowAttributes id mask a =>
      obtain ⟨v, rfl⟩ := h
      rw [WmCall.result, result_word, WmCall.returns]
  | postWindow id =>
      obtain ⟨v, rfl⟩ := h
      rw [WmCall.result, result_word, WmCall.returns]
  | drawBatch id commands =>
      obtain ⟨v, rfl⟩ := h
      rw [WmCall.result, result_word, WmCall.returns]
  | createImage width height cls =>
      obtain ⟨v, rfl⟩ := h
      rw [WmCall.result, result_word, WmCall.returns, WM_NULL]
      split <;> simp_all
  | createWindow =>
      obtain ⟨v, rfl⟩ := h
      rw [WmCall.result, result_word, WmCall.returns, WM_NULL]
      split <;> simp_all

/-- **A call and its answer**: the server does with the request what the call asks for, and the
caller gets from the reply, whatever `rspbuf` had behind it, what the server has answered. -/
theorem call_answered (h : c.Valid) (junk : Bytes) :
    processMessage fb c.request s = c.serve fb s ∧
      ∀ t r, processMessage fb c.request s = .ok (some (t, r)) →
        c.result (r.bytes ++ junk) = c.returns r := by
  rw [request_served h]
  exact ⟨rfl, fun t r hr => result_reply (serve_gets hr)⟩

/-- A window's image of eight by four pixels. -/
theorem call_answered_example :
    processMessage vesaDisplay (WmCall.createImage 8 4 2).request Wm.init =
        (WmCall.createImage 8 4 2).serve vesaDisplay Wm.init ∧
      ∀ t r, processMessage vesaDisplay (WmCall.createImage 8 4 2).request Wm.init = .ok (some (t, r)) →
        (WmCall.createImage 8 4 2).result (r.bytes ++ []) = (WmCall.createImage 8 4 2).returns r :=
  call_answered ⟨by decide, by decide, fun _ _ _ _ _ h => WmCall.noConfusion h,
    fun _ _ h => WmCall.noConfusion h⟩ []

end Replies

end Eclair
