import Eclair.Lib.RingBuf
import Eclair.Wm.Message
import Eclair.Wm.Table

/-!
# Eclair.Wm.Queues

The rings of events: the one of the input (`bin/wm/input.c`) and the one of
each window (`bin/wm/window.c`).

Both hand out the slot for the next event without a look at the oldest one,
so a post to a ring with one slot free empties it: `eventQueues_keep_iff`
says which runs keep what was posted.
-/

namespace Eclair

/-! ## the ring of the input -/

def MAX_EVENTS : Nat := 64

/-- The ring of `input.c`. -/
structure InputRing where
  events : List WmEvent
  evStart : Nat
  evEnd : Nat
  deriving DecidableEq, Repr

/-- The ring at the start. -/
def InputRing.init : InputRing := ⟨List.replicate MAX_EVENTS default, 0, 0⟩

/-- `input_get_next_event`. -/
def inputGetNextEvent (r : InputRing) : Option (WmEvent × InputRing) :=
  if r.evStart = r.evEnd then none
  else some (r.events.getD r.evStart default, { r with evStart := (r.evStart + 1) % MAX_EVENTS })

/-- `input_get_last_event`: the slot, cleared. -/
def inputGetLastEvent (r : InputRing) : Nat × InputRing :=
  (r.evEnd, { r with
    events := r.events.set r.evEnd default
    evEnd := (r.evEnd + 1) % MAX_EVENTS })

/-- An event of `input_update`: the slot is filled before anything is taken. -/
def inputPost (r : InputRing) (e : WmEvent) : InputRing :=
  let p := inputGetLastEvent r
  { p.2 with events := p.2.events.set p.1 e }

/-- The ring of the input as a queue. -/
def inputQueue : RingQueue InputRing WmEvent where
  slots := MAX_EVENTS
  post := inputPost
  take := inputGetNextEvent
  ring r := ⟨r.events, r.evStart, r.evEnd⟩
  ring_post r e h := by
    simp only [inputPost, inputGetLastEvent, RingBuf.post, List.set_set, h]
  ring_take r h := by
    simp only [inputGetNextEvent, RingBuf.take, h]
    split <;> rfl

/-! ## the ring of a window -/

/-- `window_resource_get_next_event`. -/
def windowResourceGetNextEvent (w : Window) : Option (WmEvent × Window) :=
  if w.evStart = w.evEnd then none
  else some (w.events.getD w.evStart default,
    { w with evStart := (w.evStart + 1) % WINDOW_RESOURCE_MAX_EVENTS })

/-- `window_resource_get_last_event`: the slot. -/
def windowResourceGetLastEvent (w : Window) : Nat × Window :=
  (w.evEnd, { w with evEnd := (w.evEnd + 1) % WINDOW_RESOURCE_MAX_EVENTS })

/-- What is sent to a window is filled in the slot handed out. -/
theorem pushEvent_eq (w : Window) (e : WmEvent) :
    pushEvent w e = { (windowResourceGetLastEvent w).2 with
      events := w.events.set (windowResourceGetLastEvent w).1 e } := rfl

/-- What a client gets is taken one by one. -/
theorem nextEvents_succ (n : Nat) (w : Window) :
    nextEvents (n + 1) w = ((windowResourceGetNextEvent w).elim ([], w) fun p =>
      (p.1 :: (nextEvents n p.2).1, (nextEvents n p.2).2)) := by
  rw [nextEvents, windowResourceGetNextEvent]
  split <;> rfl

/-- The ring of a window as a queue. -/
def windowQueue : RingQueue Window WmEvent where
  slots := WINDOW_RESOURCE_MAX_EVENTS
  post := pushEvent
  take := windowResourceGetNextEvent
  ring w := ⟨w.events, w.evStart, w.evEnd⟩
  ring_post w e h := by simp only [pushEvent, RingBuf.post, h]
  ring_take w h := by
    simp only [windowResourceGetNextEvent, RingBuf.take, h]
    split <;> rfl

/-- A window to which nothing was sent since `window_resource_new`. -/
def Window.unsent (attributes : WinAttrs) (image : Option Nat) : Window :=
  { Window.fresh with attributes := attributes, image := image }

/-! ## what the queues keep -/

/-- What is asked of both rings, for a run of each. -/
def QueuesKeep (inputOps windowOps : List (QueueOp WmEvent)) (w : Window) : Prop :=
  inputQueue.KeepsAll (.start .init) inputOps ∧ windowQueue.KeepsAll (.start w) windowOps

theorem pending_init : inputQueue.pending .init = [] := RingBuf.pending_of_eq rfl

theorem pending_unsent (a : WinAttrs) (i : Option Nat) : windowQueue.pending (.unsent a i) = [] :=
  RingBuf.pending_of_eq rfl

theorem inputQueue_inv : inputQueue.Inv (.start .init) :=
  RingQueue.inv_start ⟨⟨Nat.zero_lt_succ 63, Nat.zero_lt_succ 63⟩, rfl⟩ pending_init

theorem windowQueue_inv (a : WinAttrs) (i : Option Nat) : windowQueue.Inv (.start (.unsent a i)) :=
  RingQueue.inv_start ⟨⟨Nat.zero_lt_succ 31, Nat.zero_lt_succ 31⟩, rfl⟩ (pending_unsent a i)

/-- **The rings keep what they should exactly as long as no post finds all slots but one
pending.** -/
theorem eventQueues_keep_iff (inputOps windowOps : List (QueueOp WmEvent)) (a : WinAttrs)
    (i : Option Nat) :
    QueuesKeep inputOps windowOps (.unsent a i) ↔
      QueueOp.Fits (MAX_EVENTS - 1) 0 inputOps ∧
      QueueOp.Fits (WINDOW_RESOURCE_MAX_EVENTS - 1) 0 windowOps := by
  have hin : inputQueue.KeepsAll (.start .init) inputOps ↔ _ := inputQueue_inv.keepsAll_iff
  have hwin : windowQueue.KeepsAll (.start (.unsent a i)) windowOps ↔ _ :=
    (windowQueue_inv a i).keepsAll_iff
  rw [Seen.start, pending_init] at hin
  rw [Seen.start, pending_unsent] at hwin
  exact and_congr hin hwin

/-- Keys that are pressed while nothing is taken. -/
def keyPresses (n : Nat) : List (QueueOp WmEvent) :=
  List.replicate n (.post (.key 30 WM_ACTION_PRESSED))

/-- Thirty-two keys to a window that takes nothing leave its ring empty. -/
theorem not_eventQueues_keep :
    ¬ ∀ inputOps windowOps, QueuesKeep inputOps windowOps (.unsent {} none) := by
  intro h
  have hk := (windowQueue_inv {} none).keepsAll_iff.mp (h [] (keyPresses 32)).2
  rw [Seen.start, pending_unsent] at hk
  revert hk
  decide

end Eclair
