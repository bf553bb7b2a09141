import Eclair.Lib.Slice
import Eclair.Wm.Image

/-!
# Eclair.Wm.State

The window manager's resources and windows (`bin/wm/server.c`,
`bin/wm/window.c`): the table of resources, the array of windows with its
sections, the focus, and the functions on them.

A pointer to a resource is the index of its slot in the table.  An
operation that leaves an array, or takes a resource for what it is not,
fails.  What is only drawn with (`oldfocus`, `window_draw`, the old
positions) is left out.
-/

namespace Eclair

def WM_NULL : Nat := 0
def WM_FAILURE : Nat := 0
def WM_SUCCESS : Nat := 1
def WM_RESOURCE_IMAGE : Nat := 2
def WM_RESOURCE_WINDOW : Nat := 3
def WM_CLASS_WINDOW : Nat := 2
def WM_STACK_BELOW : Nat := 1
def WM_STACK_CENTER : Nat := 2
def WM_STACK_ABOVE : Nat := 3
def WM_ACTION_PRESSED : Nat := 1
def MAX_WINDOWS : Nat := 1024
def MAX_RESOURCES : Nat := 1024
def WINDOW_RESOURCE_MAX_EVENTS : Nat := 32

/-- The bits of an attribute mask: position, size, events, image, stack. -/
structure AttrMask where
  position : Bool
  size : Bool
  events : Bool
  image : Bool
  stack : Bool
  deriving DecidableEq, Repr

/-- The mask of a word. -/
def attrMask (mask : Nat) : AttrMask :=
  ⟨mask.testBit 0, mask.testBit 1, mask.testBit 2, mask.testBit 3, mask.testBit 4⟩

/-- `wm_window_attributes_t`. -/
structure WinAttrs where
  x : Nat := 0
  y : Nat := 0
  width : Nat := 0
  height : Nat := 0
  events : Nat := 0
  image : Nat := WM_NULL
  stack : Nat := WM_STACK_CENTER
  deriving DecidableEq, Repr

/-- `wm_event_t`, as the server makes them. -/
inductive WmEvent where
  | key (code action : Nat)
  | button (code action x y : Nat)
  | motion (mx my x y : Nat)
  deriving DecidableEq, Repr, Inhabited

/-- `window_resource_t`. -/
structure Window where
  attributes : WinAttrs
  image : Option Nat
  events : List WmEvent
  evStart : Nat
  evEnd : Nat
  deriving DecidableEq, Repr

/-- What a resource's `data` points to. -/
inductive ResData where
  | image (cls : Nat) (image : Image)
  | window (window : Window)

/-- `resource_t`; the slot is free while `id` is 0. -/
structure Resource where
  id : Nat
  type : Nat
  refcnt : Int
  data : Option ResData

/-- A slot that was never used. -/
def Resource.empty : Resource := ⟨0, 0, 0, none⟩

/-- The state of the window manager. -/
structure Wm where
  resources : Nat → Resource
  windows : List Nat
  nwindows : Int
  focus : Nat
  firstcenter : Int
  firstabove : Int

namespace Wm

/-- The server at its start. -/
def init : Wm where
  resources _ := .empty
  windows := List.replicate MAX_WINDOWS 0
  nwindows := 0
  focus := WM_NULL
  firstcenter := 0
  firstabove := 0

/-- The state with the slot `k` changed. -/
def modify (s : Wm) (k : Nat) (f : Resource → Resource) : Wm :=
  { s with resources := fun j => if j = k then f (s.resources k) else s.resources j }

/-- The window in the slot `k`. -/
def window (s : Wm) (k : Nat) : Option Window :=
  match (s.resources k).data with
  | some (.window w) => some w
  | _ => none

/-- The window in the slot `k` changed. -/
def setWindow (s : Wm) (k : Nat) (w : Window) : Wm :=
  s.modify k fun r => { r with data := some (.window w) }

/-- `refcnt` of the slot `k` moved by `d`. -/
def addRef (s : Wm) (k : Nat) (d : Int) : Wm :=
  s.modify k fun r => { r with refcnt := r.refcnt + d }

end Wm

/-! ## resources -/

/-- `server_create_resource`: the slot taken, if one is free. -/
def serverCreateResource (s : Wm) (type : Nat) : Option (Wm × Nat) :=
  ((List.range' 1 (MAX_RESOURCES - 1)).find? fun i => (s.resources i).id = 0).map fun i =>
    (s.modify i fun _ => ⟨i, type, 0, none⟩, i)

/-- `server_get_resource`. -/
def serverGetResource (s : Wm) (id : Nat) : Option Nat :=
  if id < MAX_RESOURCES ∧ (s.resources id).id ≠ 0 then some id else none

/-- `server_destroy_resource`. -/
def serverDestroyResource (s : Wm) (k : Nat) : Wm := s.modify k fun r => { r with id := 0 }

/-- `((image_resource_t *)resource->data)->cls`: of a window it is `attributes.x`. -/
def clsField (s : Wm) (k : Nat) : Option Nat :=
  (s.resources k).data.map fun
    | .image cls _ => cls
    | .window w => w.attributes.x

/-! ## images -/

/-- `image_resource_new`. -/
def imageResourceNew (fb : Display) (s : Wm) (cls width height : Nat) : Option (Wm × Nat) :=
  (serverCreateResource s 0).map fun r =>
    (r.1.modify r.2 fun res =>
      { res with data := some (.image cls (imageInit fb width height)), type := WM_RESOURCE_IMAGE },
      r.2)

/-- `image_resource_resize`. -/
def imageResourceResize (fb : Display) (s : Wm) (k width height : Nat) : Option Wm :=
  match (s.resources k).data with
  | some (.image cls image) => some (s.modify k fun r =>
      { r with data := some (.image cls (imageResize fb image width height)) })
  | _ => none

/-- `image_resource_free`. -/
def imageResourceFree (s : Wm) (k : Nat) : Wm := serverDestroyResource s k

/-! ## windows -/

/-- `window_resource_new`; the inner `none` is a null pointer. -/
def windowResourceNew (s : Wm) : Option (Wm × Option Nat) :=
  if s.nwindows ≥ MAX_WINDOWS then some (s, none)
  else match serverCreateResource s 0 with
    | none => some (s, none)
    | some (s, k) =>
        let rounds := if s.nwindows ≠ 0 then (s.nwindows - s.firstabove).toNat else 0
        (Slice.openUp rounds (s.nwindows - 1) s.windows).bind fun ws =>
        (Slice.write ws s.firstabove (s.resources k).id).map fun ws =>
          let w : Window := ⟨{}, none, List.replicate WINDOW_RESOURCE_MAX_EVENTS default, 0, 0⟩
          ({ s.modify k fun r => { r with data := some (.window w), type := WM_RESOURCE_WINDOW } with
            windows := ws
            firstabove := s.firstabove + 1
            nwindows := s.nwindows + 1
            focus := (s.resources k).id }, some k)

/-- A part of a change of attributes: the state, and whether to go on. -/
abbrev AttrStep := Option (Wm × Bool)

/-- Go on with the next part. -/
def AttrStep.andThen (r : AttrStep) (f : Wm → AttrStep) : AttrStep :=
  r.bind fun p => if p.2 then f p.1 else some (p.1, false)

/-- The position and the size: only of the window in focus. -/
def setPlace (s : Wm) (k : Nat) (on : Bool) (f : WinAttrs → WinAttrs) : AttrStep :=
  if on then
    if (s.resources k).id ≠ s.focus then some (s, false)
    else (s.window k).map fun w => (s.setWindow k { w with attributes := f w.attributes }, true)
  else some (s, true)

/-- The event mask. -/
def setEvents (s : Wm) (k : Nat) (on : Bool) (events : Nat) : AttrStep :=
  if on then (s.window k).map fun w =>
    (s.setWindow k { w with attributes := { w.attributes with events := events } }, true)
  else some (s, true)

/-- The image. -/
def setImage (s : Wm) (k : Nat) (on : Bool) (image : Nat) : AttrStep :=
  if on then
    match serverGetResource s image with
    | none => some (s, false)
    | some i => (clsField s i).bind fun cls =>
        if cls ≠ WM_CLASS_WINDOW then some (s, false)
        else (s.window k).map fun w =>
          let s := match w.image with
            | some j => s.addRef j (-1)
            | none => s
          let s := s.setWindow k
            { w with attributes := { w.attributes with image := image }, image := some i }
          (s.addRef i 1, true)
  else some (s, true)

/-- The loop that makes room for a window below: it counts up, and goes on
as long as it is above `firstcenter`. -/
def belowLoop (firstcenter : Int) : Nat → Int → List Nat → Option (List Nat)
  | 0, _, _ => none
  | n + 1, i, w =>
      if i > firstcenter then (Slice.move w i (i - 1)).bind (belowLoop firstcenter n (i + 1))
      else some w

/-- Move the window with `id` to another section. -/
def restack (s : Wm) (id stack : Nat) : Option Wm :=
  if stack = WM_STACK_BELOW then
    -- every round writes one place further up, so that one beyond `MAX_WINDOWS` is not reached
    (belowLoop s.firstcenter (MAX_WINDOWS + 2) (s.firstabove - 1) s.windows).bind fun ws =>
    (Slice.write ws s.firstcenter id).map fun ws =>
      { s with windows := ws, firstcenter := s.firstcenter + 1 }
  else if stack = WM_STACK_ABOVE then
    (Slice.closeUp (s.nwindows - 1 - (s.firstabove - 1)).toNat (s.firstabove - 1) s.windows).bind
      fun ws => (Slice.write ws (s.nwindows - 1) id).map fun ws =>
        { s with windows := ws, firstabove := s.firstabove - 1 }
  else some s

/-- Give the focus to the window at `i`, if there are center windows. -/
def refocus (s : Wm) (i : Int) : Option Wm :=
  if s.firstcenter < s.firstabove then
    (Slice.read s.windows i).map fun id => { s with focus := id }
  else some { s with focus := WM_NULL }

/-- The place in the stack. -/
def setStack (s : Wm) (k : Nat) (on : Bool) (stack : Nat) : AttrStep :=
  if on then
    (s.window k).bind fun w =>
      if w.attributes.stack ≠ WM_STACK_CENTER then some (s, false)
      else
        let id := (s.resources k).id
        let s := s.setWindow k { w with attributes := { w.attributes with stack := stack } }
        (restack s id stack).bind fun s =>
          if id = s.focus ∧ stack ≠ WM_STACK_CENTER then
            (refocus s s.firstcenter).map fun s => (s, true)
          else some (s, true)
  else some (s, true)

/-- `window_resource_set_attributes`. -/
def windowResourceSetAttributes (s : Wm) (k : Nat) (a : WinAttrs) (mask : AttrMask) : AttrStep :=
  (setPlace s k mask.position fun b => { b with x := a.x, y := a.y }).andThen fun s =>
  (setPlace s k mask.size fun b => { b with width := a.width, height := a.height }).andThen fun s =>
  (setEvents s k mask.events a.events).andThen fun s =>
  (setImage s k mask.image a.image).andThen fun s =>
  setStack s k mask.stack a.stack

/-- `window_resource_get_last_event`, with what is written there. -/
def pushEvent (w : Window) (e : WmEvent) : Window :=
  { w with
    events := w.events.set w.evEnd e
    evEnd := (w.evEnd + 1) % WINDOW_RESOURCE_MAX_EVENTS }

/-- The removal of an id from the array. -/
def unstack (s : Wm) (id : Nat) : Option Wm :=
  (Slice.search s.windows id s.nwindows.toNat 0).bind fun i =>
    if i < s.nwindows then
      (Slice.closeUp (s.nwindows - 1 - i).toNat i s.windows).map fun ws =>
        { s with
          windows := ws
          firstabove := if i < s.firstabove then s.firstabove - 1 else s.firstabove
          firstcenter := if i < s.firstcenter then s.firstcenter - 1 else s.firstcenter
          nwindows := s.nwindows - 1 }
    else some s

/-- `window_resource_free`. -/
def windowResourceFree (s : Wm) (k : Nat) : Option Wm :=
  let id := (s.resources k).id
  (unstack s id).bind fun s =>
  (if id = s.focus then refocus s (s.firstabove - 1) else some s).bind fun s =>
  (s.window k).map fun w =>
    let s := match w.image with
      | some j => s.addRef j (-1)
      | none => s
    serverDestroyResource s k

/-! ## events -/

/-- The offset `r` is in `[0, size)`. -/
def within (r size : Nat) : Bool := decide (r < 2 ^ 31) && decide (r < size)

/-- The topmost window at a position among the first `n`: its index and the
position in it. -/
def hitLoop (s : Wm) (px py : Nat) : Nat → Option (Option (Nat × Nat × Nat))
  | 0 => some none
  | i + 1 => (Slice.read s.windows i).bind fun id =>
      (serverGetResource s id).bind fun k => (s.window k).bind fun w =>
        let rx := sub32 px w.attributes.x
        let ry := sub32 py w.attributes.y
        if within rx w.attributes.width ∧ within ry w.attributes.height then some (some (i, rx, ry))
        else hitLoop s px py i

/-- The window at `i` becomes the topmost center window, with the focus. -/
def raise (s : Wm) (i : Nat) : Option Wm :=
  (Slice.read s.windows i).bind fun id =>
    if s.firstcenter ≤ i ∧ (i : Int) < s.firstabove ∧ id ≠ s.focus then
      (Slice.closeUp (s.firstabove - 1 - i).toNat i s.windows).bind fun ws =>
      (Slice.write ws (s.firstabove - 1) id).map fun ws => { s with windows := ws, focus := id }
    else some s

/-- The event goes to the window with the id `wid`. -/
def sendEvent (s : Wm) (wid : Nat) (e : WmEvent) : Option Wm :=
  match serverGetResource s wid with
  | none => some s
  | some k => (s.window k).map fun w => s.setWindow k (pushEvent w e)

/-- `window_process_event`. -/
def windowProcessEvent (s : Wm) : WmEvent → Option Wm
  | .key code action => sendEvent s s.focus (.key code action)
  | .button code action px py =>
      if s.nwindows = 0 ∨ action ≠ WM_ACTION_PRESSED then
        sendEvent s s.focus (.button code action 0 0)
      else (hitLoop s px py s.nwindows.toNat).bind fun
        | none => sendEvent s s.focus (.button code action 0 0)
        | some (i, rx, ry) => (Slice.read s.windows i).bind fun wid =>
            (raise s i).bind fun s => sendEvent s wid (.button code action rx ry)
  | .motion mx my px py =>
      if s.nwindows = 0 then sendEvent s s.focus (.motion mx my 0 0)
      else (hitLoop s px py s.nwindows.toNat).bind fun
        | none => sendEvent s s.focus (.motion mx my 0 0)
        -- the source writes `y = rx` here
        | some (i, rx, _) => (Slice.read s.windows i).bind fun wid =>
            sendEvent s wid (.motion mx my rx rx)

/-! ## requests -/

/-- The requests that change resources, decoded, and the events. -/
inductive WmReq where
  | createImage (cls width height : Nat)
  | destroyImage (id : Nat)
  | resizeImage (id width height : Nat)
  | createWindow
  | destroyWindow (id : Nat)
  | setWindowAttributes (id : Nat) (mask : AttrMask) (attributes : WinAttrs)
  | event (e : WmEvent)

/-- `handle_create_image`; the result is that of the response. -/
def handleCreateImage (fb : Display) (s : Wm) (cls width height : Nat) : Wm × Nat :=
  match imageResourceNew fb s cls width height with
  | none => (s, WM_NULL)
  | some (s, k) => (s, (s.resources k).id)

/-- `handle_destroy_image`. -/
def handleDestroyImage (s : Wm) (id : Nat) : Wm × Nat :=
  match serverGetResource s id with
  | none => (s, WM_FAILURE)
  | some k =>
      if (s.resources k).type ≠ WM_RESOURCE_IMAGE ∨ (s.resources k).refcnt ≠ 0 then (s, WM_FAILURE)
      else (imageResourceFree s k, WM_SUCCESS)

/-- `handle_resize_image`. -/
def handleResizeImage (fb : Display) (s : Wm) (id width height : Nat) : Option (Wm × Nat) :=
  match serverGetResource s id with
  | none => some (s, WM_FAILURE)
  | some k =>
      if (s.resources k).type ≠ WM_RESOURCE_IMAGE then some (s, WM_FAILURE)
      else (imageResourceResize fb s k width height).map fun s => (s, WM_SUCCESS)

/-- `handle_create_window`. -/
def handleCreateWindow (s : Wm) : Option (Wm × Nat) :=
  (windowResourceNew s).map fun r => match r.2 with
    | none => (r.1, WM_NULL)
    | some k => (r.1, (r.1.resources k).id)

/-- `handle_destroy_window`. -/
def handleDestroyWindow (s : Wm) (id : Nat) : Option (Wm × Nat) :=
  match serverGetResource s id with
  | none => some (s, WM_FAILURE)
  | some k =>
      if (s.resources k).type ≠ WM_RESOURCE_WINDOW then some (s, WM_FAILURE)
      else (windowResourceFree s k).map fun s => (s, WM_SUCCESS)

/-- `handle_set_window_attributes`. -/
def handleSetWindowAttributes (s : Wm) (id : Nat) (mask : AttrMask) (a : WinAttrs) :
    Option (Wm × Nat) :=
  match serverGetResource s id with
  | none => some (s, WM_FAILURE)
  | some k =>
      if (s.resources k).type ≠ WM_RESOURCE_WINDOW then some (s, WM_FAILURE)
      else (windowResourceSetAttributes s k a mask).map fun r =>
        (r.1, if r.2 then WM_SUCCESS else WM_FAILURE)

/-- One request or event; `none` is an operation that does not end well. -/
def wmNext (fb : Display) (s : Wm) : WmReq → Option Wm
  | .createImage cls width height => some (handleCreateImage fb s cls width height).1
  | .destroyImage id => some (handleDestroyImage s id).1
  | .resizeImage id width height => (handleResizeImage fb s id width height).map (·.1)
  | .createWindow => (handleCreateWindow s).map (·.1)
  | .destroyWindow id => (handleDestroyWindow s id).map (·.1)
  | .setWindowAttributes id mask a => (handleSetWindowAttributes s id mask a).map (·.1)
  | .event e => windowProcessEvent s e

end Eclair
