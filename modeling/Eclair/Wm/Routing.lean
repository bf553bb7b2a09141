import Eclair.Wm.Screen
import Eclair.Wm.Stack

/-!
# Eclair.Wm.Routing

Where the events of the pointer go (`screen_process_event` of
`bin/wm/screen.c`, `window_process_event` of `bin/wm/window.c`).

The position of a motion is written to the event before it is kept on the
screen, and its second coordinate is a copy of the first one.  `DirectEvent` are
the events to which neither matters: `routed_of_direct` says that in a run
of them each goes to the topmost window under the cursor, at the position
of the cursor in it.

What `draw_cursor` draws is in `Eclair.Wm.Screen`.
-/

namespace Eclair

/-- The position of the cursor, and the windows. -/
structure Desktop where
  curx : Int
  cury : Int
  wm : Wm

section

variable (fb : EcioFbinfo)

/-- `screen_process_event`: where the cursor is then, and the event with its position. -/
def screenProcessEvent (curx cury : Int) : WmEvent → (Int × Int) × WmEvent
  | .motion mx my _ _ =>
      -- the position in the event is not the one that is kept on the screen
      ((moveCursor curx (i32 mx) fb.width, moveCursor cury (i32 my) fb.height),
        .motion mx my (wrap (curx + i32 mx)) (wrap (cury + i32 my)))
  | .button code action _ _ => ((curx, cury), .button code action (wrap curx) (wrap cury))
  | .key code action => ((curx, cury), .key code action)

/-- `process_event`. -/
def processEvent (d : Desktop) (e : WmEvent) : Option Desktop :=
  let r := screenProcessEvent fb d.curx d.cury e
  (windowProcessEvent d.wm r.2).map fun wm => ⟨r.1.1, r.1.2, wm⟩

/-- The state after an event; `processEvent` has one where the windows are in order. -/
def Desktop.next (d : Desktop) (e : WmEvent) : Desktop := (processEvent fb d e).getD d

end

/-! ## what the events should do -/

/-- The rectangle of a window contains a position. -/
def WinAttrs.Contains (a : WinAttrs) (x y : Int) : Prop :=
  (i32 a.x ≤ x ∧ x < i32 a.x + a.width) ∧ (i32 a.y ≤ y ∧ y < i32 a.y + a.height)

instance (a : WinAttrs) (x y : Int) : Decidable (a.Contains x y) :=
  inferInstanceAs (Decidable ((_ ∧ _) ∧ _))

/-- The window at the place `i` of the stack. -/
def Wm.WindowAt (s : Wm) (i id : Nat) (w : Window) : Prop :=
  (i : Int) < s.nwindows ∧ Slice.read s.windows i = some id ∧ LiveWindow s id w

/-- No window above the place `i` contains the position. -/
def Wm.Uncovered (s : Wm) (x y : Int) (i : Nat) : Prop :=
  ∀ j id w, i ≤ j → s.WindowAt j id w → ¬ w.attributes.Contains x y

/-- The topmost window that contains the position. -/
def Wm.Topmost (s : Wm) (x y : Int) (id : Nat) (w : Window) : Prop :=
  ∃ i, s.WindowAt i id w ∧ w.attributes.Contains x y ∧ s.Uncovered x y (i + 1)

/-- The event is queued to the window, and nothing else is changed in the table. -/
def Queued (s t : Wm) (id : Nat) (w : Window) (e : WmEvent) : Prop :=
  t.resources = (s.setWindow id (pushEvent w e)).resources

/-- The event goes to the topmost window that contains the position, with
the position in it; if there is none to the window in focus. -/
structure RoutedAt (s t : Wm) (x y : Int) (e : Nat → Nat → WmEvent) : Prop where
  hit : ∀ id w, s.Topmost x y id w → ∃ rx ry : Nat, rx = x - i32 w.attributes.x ∧
    ry = y - i32 w.attributes.y ∧ rx < w.attributes.width ∧ ry < w.attributes.height ∧
    Queued s t id w (e rx ry)
  missed : s.Uncovered x y 0 → ∀ w, LiveWindow s s.focus w → ∃ rx ry, Queued s t s.focus w (e rx ry)
  unfocused : s.Uncovered x y 0 → (∀ w, ¬ LiveWindow s s.focus w) → t.resources = s.resources

/-- The motions and the presses, as events at a position. -/
def WmEvent.pointing : WmEvent → Option (Nat → Nat → WmEvent)
  | .motion mx my _ _ => some (.motion mx my)
  | .button code action _ _ => if action = WM_ACTION_PRESSED then some (.button code action) else none
  | .key _ _ => none

/-- The event is processed, and routed by the position of the cursor after it. -/
def Routed (fb : EcioFbinfo) (d : Desktop) (e : WmEvent) : Prop :=
  ∃ d', processEvent fb d e = some d' ∧
    ∀ f ∈ e.pointing, RoutedAt d.wm d'.wm d'.curx d'.cury f

/-! ## the events that are routed so -/

/-- An `int` holds the position in the window. -/
def WinAttrs.Near (a : WinAttrs) (x y : Int) : Prop :=
  (-2 ^ 31 ≤ x - i32 a.x ∧ x - i32 a.x < 2 ^ 31) ∧ (-2 ^ 31 ≤ y - i32 a.y ∧ y - i32 a.y < 2 ^ 31)

/-- That holds of the windows down to the topmost one that contains the position. -/
def Wm.NearTop (s : Wm) (x y : Int) : Prop :=
  ∀ i id w, s.WindowAt i id w → s.Uncovered x y (i + 1) → w.attributes.Near x y

/-- A motion ends on the screen, and in the topmost window there at equal
coordinates; and no difference overflows. -/
def DirectEvent (fb : EcioFbinfo) (d : Desktop) : WmEvent → Prop
  | .motion mx my _ _ =>
      let x := d.curx + i32 mx
      let y := d.cury + i32 my
      (0 ≤ x ∧ x ≤ fb.width ∧ x < 2 ^ 31) ∧ (0 ≤ y ∧ y ≤ fb.height ∧ y < 2 ^ 31) ∧
        d.wm.NearTop x y ∧
        ∀ id w, d.wm.Topmost x y id w → x - i32 w.attributes.x = y - i32 w.attributes.y
  | .button _ action _ _ => action = WM_ACTION_PRESSED → d.wm.NearTop d.curx d.cury
  | .key _ _ => True

variable {fb : EcioFbinfo} {d d' : Desktop} {s t : Wm} {l : Layers Nat} {x y : Int} {i id n : Nat}
variable {w : Window} {a : WinAttrs} {e : WmEvent} {es : List WmEvent} {f : Nat → Nat → WmEvent}

/-! ## a position in a window -/

/-- A difference that an `int` holds. -/
theorem sub32_wrap {q : Nat} {v : Int} (h1 : -2 ^ 31 ≤ v - i32 q) (h2 : v - i32 q < 2 ^ 31) :
    (sub32 (wrap v) q : Int) = (if i32 q ≤ v then v - i32 q else v - i32 q + 2 ^ 32) := by
  rw [i32, Int.bmod_def] at h1 h2 ⊢
  rw [sub32, u32, u32, wrap]
  omega

/-- What the search asks of one coordinate. -/
theorem within_iff {q size : Nat} {v : Int} (h1 : -2 ^ 31 ≤ v - i32 q) (h2 : v - i32 q < 2 ^ 31) :
    within (sub32 (wrap v) q) size = true ↔ i32 q ≤ v ∧ v < i32 q + size := by
  have hsub := sub32_wrap h1 h2
  simp only [within, Bool.and_eq_true, decide_eq_true_eq]
  split at hsub <;> omega

/-- What the search asks of a window. -/
theorem contains_iff (h : a.Near x y) :
    (within (sub32 (wrap x) a.x) a.width = true ∧ within (sub32 (wrap y) a.y) a.height = true) ↔
      a.Contains x y :=
  and_congr (within_iff h.1.1 h.1.2) (within_iff h.2.1 h.2.2)

/-! ## the search -/

theorem Wm.WindowAt.unique {id' : Nat} {w' : Window} (h : s.WindowAt i id w) (h' : s.WindowAt i id' w') :
    id = id' ∧ w = w' := by
  obtain rfl := Option.some.inj (h.2.1.symm.trans h'.2.1)
  have hw := h.2.2.window.symm.trans h'.2.2.window
  exact ⟨rfl, Option.some.inj hw⟩

/-- One more window that does not contain the position. -/
theorem Wm.Uncovered.step (h : s.Uncovered x y (i + 1)) (hw : s.WindowAt i id w)
    (hn : ¬ w.attributes.Contains x y) : s.Uncovered x y i := by
  intro j id' w' hj hw'
  by_cases he : j = i
  · subst he
    obtain ⟨rfl, rfl⟩ := hw.unique hw'
    exact hn
  · exact h j id' w' (by omega) hw'

/-- The window that contains the position, above which none does, is one. -/
theorem Wm.Topmost.unique {id' : Nat} {w' : Window} (h : s.Topmost x y id w) (h' : s.Topmost x y id' w') :
    id = id' ∧ w = w' := by
  obtain ⟨i, hi, hc, hu⟩ := h
  obtain ⟨j, hj, hc', hu'⟩ := h'
  obtain hlt | rfl | hlt := Nat.lt_trichotomy i j
  · exact absurd hc' (hu j id' w' hlt hj)
  · exact hi.unique hj
  · exact absurd hc (hu' i id w hlt hi)

theorem Wm.Topmost.not_uncovered (h : s.Topmost x y id w) : ¬ s.Uncovered x y 0 := by
  obtain ⟨i, hi, hc, -⟩ := h
  exact fun hu => hu i id w (Nat.zero_le i) hi hc

/-- Every place of the stack has a window. -/
theorem Layered.windowAt (h : Layered s l) (hi : (i : Int) < s.nwindows) : ∃ id w, s.WindowAt i id w := by
  obtain ⟨id, hread, hid⟩ := h.read hi
  obtain ⟨w, hw⟩ := h.window hid
  exact ⟨id, w, hi, hread, hw⟩

/-- **The search** finds the topmost window, if none above its start contains the position. -/
theorem hitLoop_spec (hs : GoodTable s) (h : Layered s l) (hnear : s.NearTop x y)
    (hn : (n : Int) ≤ s.nwindows) (hu : s.Uncovered x y n) :
    (hitLoop s (wrap x) (wrap y) n = some none ∧ s.Uncovered x y 0) ∨
      ∃ i id w, s.WindowAt i id w ∧ s.Topmost x y id w ∧
        hitLoop s (wrap x) (wrap y) n =
          some (some (i, sub32 (wrap x) w.attributes.x, sub32 (wrap y) w.attributes.y)) := by
  induction n with
  | zero => exact .inl ⟨rfl, hu⟩
  | succ n ih =>
      obtain ⟨id, w, hw⟩ := h.windowAt (i := n) (by omega)
      have hat := contains_iff (hnear n id w hw hu)
      rw [hitLoop, hw.2.1, Option.bind_some, hs.getResource hw.2.2.1, Option.bind_some,
        hw.2.2.window, Option.bind_some]
      dsimp only
      by_cases hc : w.attributes.Contains x y
      · rw [if_pos (hat.mpr hc)]
        exact .inr ⟨n, id, w, hw, ⟨n, hw, hc, hu⟩, rfl⟩
      · rw [if_neg fun hin => hc (hat.mp hin)]
        exact ih (by omega) (hu.step hw hc)

/-! ## the queues -/

/-- An event sent to a live window, from a state with the same table. -/
theorem sendEvent_live {u : Wm} (hs : GoodTable s) (hw : LiveWindow s id w)
    (hu : u.resources = s.resources) (e : WmEvent) :
    ∃ t, sendEvent u id e = some t ∧ Queued s t id w e := by
  have hs' : GoodTable u := (goodTable_congr hu).mpr hs
  have hw' : LiveWindow u id w := by rwa [LiveWindow, hu]
  refine ⟨u.setWindow id (pushEvent w e), ?_, ?_⟩
  · rw [sendEvent, hs'.getResource hw'.1]
    dsimp only
    rw [hw'.window, Option.map_some]
  · rw [Queued, Wm.setWindow, Wm.setWindow, Wm.modify, Wm.modify, hu]

/-- An event sent where there is no live window. -/
theorem sendEvent_dead (hs : GoodTable s) (h : Layered s l) (hn : ∀ w, ¬ LiveWindow s s.focus w)
    (e : WmEvent) : sendEvent s s.focus e = some s := by
  have hnull : s.focus = WM_NULL := by
    refine h.focus.resolve_right fun hc => ?_
    obtain ⟨w, hw⟩ := h.window (Layers.mem_all.mpr (.inr (.inl hc)))
    exact hn w hw
  have hnone : serverGetResource s WM_NULL = none := by
    rw [serverGetResource, if_neg fun hg => hs.pos hg.2 rfl]
  rw [sendEvent, hnull, hnone]

/-- Where no window contains the position, the event goes to the focus. -/
theorem routed_missed (hs : GoodTable s) (h : Layered s l) (hu : s.Uncovered x y 0)
    (f : Nat → Nat → WmEvent) :
    ∃ t, sendEvent s s.focus (f 0 0) = some t ∧ RoutedAt s t x y f := by
  by_cases hf : ∃ w, LiveWindow s s.focus w
  · obtain ⟨w, hw⟩ := hf
    obtain ⟨t, ht, hq⟩ := sendEvent_live hs hw rfl (f 0 0)
    refine ⟨t, ht, fun id w htop => absurd hu htop.not_uncovered, fun _ w' hw' => ?_,
      fun _ hn => absurd hw (hn w)⟩
    obtain rfl := Option.some.inj (hw.window.symm.trans hw'.window)
    exact ⟨0, 0, hq⟩
  · have hn : ∀ w, ¬ LiveWindow s s.focus w := fun w hw => hf ⟨w, hw⟩
    exact ⟨s, sendEvent_dead hs h hn _, fun id w htop => absurd hu htop.not_uncovered,
      fun _ w hw => absurd hw (hn w), fun _ _ => rfl⟩

/-- Where one does, it gets the position in it. -/
theorem routed_hit (htop : s.Topmost x y id w) (hnear : w.attributes.Near x y)
    (hq : Queued s t id w (f (sub32 (wrap x) w.attributes.x) (sub32 (wrap y) w.attributes.y))) :
    RoutedAt s t x y f := by
  have hc := htop
  obtain ⟨i, -, ⟨⟨hx, hx'⟩, hy, hy'⟩, -⟩ := hc
  have hrx := sub32_wrap hnear.1.1 hnear.1.2
  have hry := sub32_wrap hnear.2.1 hnear.2.2
  rw [if_pos hx] at hrx
  rw [if_pos hy] at hry
  refine ⟨fun id' w' htop' => ?_, fun hu => absurd hu htop.not_uncovered,
    fun hu => absurd hu htop.not_uncovered⟩
  obtain ⟨rfl, rfl⟩ := htop.unique htop'
  exact ⟨_, _, hrx, hry, by omega, by omega, hq⟩

/-! ## one event -/

theorem uncovered_of_empty (h : s.nwindows = 0) : s.Uncovered x y i := by
  intro j id w _ hw
  have := hw.1
  omega

theorem uncovered_top : s.Uncovered x y s.nwindows.toNat := by
  intro j id w hj hw
  have := hw.1
  omega

theorem Wm.Topmost.near (h : s.Topmost x y id w) (hn : s.NearTop x y) : w.attributes.Near x y := by
  obtain ⟨i, hi, -, hu⟩ := h
  exact hn i id w hi hu

/-- **A press.** -/
theorem press_routed (hs : GoodTable s) (h : Layered s l) (hnear : s.NearTop x y) (code : Nat) :
    ∃ t, windowProcessEvent s (.button code WM_ACTION_PRESSED (wrap x) (wrap y)) = some t ∧
      RoutedAt s t x y (.button code WM_ACTION_PRESSED) := by
  rw [windowProcessEvent]
  by_cases h0 : s.nwindows = 0
  · rw [if_pos (.inl h0)]
    exact routed_missed hs h (uncovered_of_empty h0) _
  · rw [if_neg (by simp [h0])]
    have hn := h.nwindows
    obtain ⟨hhit, hu⟩ | ⟨i, id, w, hw, htop, hhit⟩ :=
      hitLoop_spec hs h hnear (n := s.nwindows.toNat) (by omega) uncovered_top
    · rw [hhit, Option.bind_some]
      exact routed_missed hs h hu _
    · obtain ⟨u, hu, hres, -⟩ := h.raise hw.1
      rw [hhit, Option.bind_some]
      dsimp only
      rw [hw.2.1, Option.bind_some, hu, Option.bind_some]
      obtain ⟨t, ht, hq⟩ := sendEvent_live hs hw.2.2 hres _
      exact ⟨t, ht, routed_hit htop (htop.near hnear) hq⟩

/-- **A motion**, to equal coordinates in the topmost window. -/
theorem motion_routed (hs : GoodTable s) (h : Layered s l) (hnear : s.NearTop x y)
    (heq : ∀ id w, s.Topmost x y id w → x - i32 w.attributes.x = y - i32 w.attributes.y)
    (mx my : Nat) : ∃ t, windowProcessEvent s (.motion mx my (wrap x) (wrap y)) = some t ∧
      RoutedAt s t x y (.motion mx my) := by
  rw [windowProcessEvent]
  by_cases h0 : s.nwindows = 0
  · rw [if_pos h0]
    exact routed_missed hs h (uncovered_of_empty h0) _
  · rw [if_neg h0]
    have hn := h.nwindows
    obtain ⟨hhit, hu⟩ | ⟨i, id, w, hw, htop, hhit⟩ :=
      hitLoop_spec hs h hnear (n := s.nwindows.toNat) (by omega) uncovered_top
    · rw [hhit, Option.bind_some]
      exact routed_missed hs h hu _
    · have hnw := htop.near hnear
      have hsame : sub32 (wrap x) w.attributes.x = sub32 (wrap y) w.attributes.y := by
        have hrx := sub32_wrap hnw.1.1 hnw.1.2
        have hry := sub32_wrap hnw.2.1 hnw.2.2
        have he := heq id w htop
        split at hrx <;> split at hry <;> omega
      rw [hhit, Option.bind_some]
      dsimp only
      rw [hw.2.1, Option.bind_some]
      obtain ⟨t, ht, hq⟩ := sendEvent_live hs hw.2.2 rfl
        (.motion mx my (sub32 (wrap x) w.attributes.x) (sub32 (wrap x) w.attributes.x))
      refine ⟨t, ht, routed_hit htop hnw ?_⟩
      rwa [← hsame]

/-- A position on the screen stays. -/
theorem moveCursor_onScreen {cur move : Int} {size : Nat} (h0 : 0 ≤ cur + move)
    (h1 : cur + move ≤ size) (h2 : cur + move < 2 ^ 31) : moveCursor cur move size = cur + move := by
  simp only [moveCursor, i32_of_small (by omega) h2, if_neg (show ¬ cur + move < 0 by omega)]
  split <;> omega

theorem DirectEvent.routed (hs : GoodTable d.wm) (h : Stacked d.wm) (hd : DirectEvent fb d e) :
    Routed fb d e := by
  obtain ⟨l, hl⟩ := h
  cases e with
  | key code action =>
      obtain ⟨t, ht, -⟩ := windowProcessEvent_spec hs ⟨l, hl⟩ (.key code action)
      exact ⟨⟨d.curx, d.cury, t⟩, by rw [processEvent, screenProcessEvent, ht]; rfl,
        by simp [WmEvent.pointing]⟩
  | button code action px py =>
      by_cases ha : action = WM_ACTION_PRESSED
      · subst ha
        obtain ⟨t, ht, hr⟩ := press_routed hs hl (hd rfl) code
        refine ⟨⟨d.curx, d.cury, t⟩, by rw [processEvent, screenProcessEvent, ht]; rfl, fun f hf => ?_⟩
        obtain rfl := Option.some.inj hf
        exact hr
      · obtain ⟨t, ht, -⟩ :=
          windowProcessEvent_spec hs ⟨l, hl⟩ (.button code action (wrap d.curx) (wrap d.cury))
        exact ⟨⟨d.curx, d.cury, t⟩, by rw [processEvent, screenProcessEvent, ht]; rfl,
          by simp [WmEvent.pointing, ha]⟩
  | motion mx my px py =>
      obtain ⟨⟨hx0, hx1, hx2⟩, ⟨hy0, hy1, hy2⟩, hnear, heq⟩ := hd
      obtain ⟨t, ht, hr⟩ := motion_routed hs hl hnear heq mx my
      have hx := moveCursor_onScreen hx0 hx1 hx2
      have hy := moveCursor_onScreen hy0 hy1 hy2
      refine ⟨⟨_, _, t⟩, by rw [processEvent, screenProcessEvent, ht, hx, hy]; rfl, fun f hf => ?_⟩
      obtain rfl := Option.some.inj hf
      exact hr

/-! ## runs -/

/-- The windows stay in order. -/
theorem Desktop.next_inOrder (fb : EcioFbinfo) (h : GoodTable d.wm ∧ Stacked d.wm) (e : WmEvent) :
    GoodTable (d.next fb e).wm ∧ Stacked (d.next fb e).wm := by
  obtain ⟨t, ht, hg, hst⟩ :=
    windowProcessEvent_spec h.1 h.2 (screenProcessEvent fb d.curx d.cury e).2
  rw [Desktop.next, processEvent, ht]
  exact ⟨hg, hst⟩

/-- **Event routing**: in a run of events that are all `DirectEvent`, from any
stack of windows and any position of the cursor, each goes where it should. -/
theorem routed_of_direct (hs : GoodTable d.wm) (h : Stacked d.wm)
    (hd : System.Along (Desktop.next fb) (DirectEvent fb) d es) :
    System.Along (Desktop.next fb) (Routed fb) d es := by
  induction es generalizing d with
  | nil => trivial
  | cons e es ih =>
      obtain ⟨hg, hst⟩ := Desktop.next_inOrder fb ⟨hs, h⟩ e
      exact ⟨hd.1.routed hs h, ih hg hst hd.2⟩

/-- A screen of 640 by 480 pixels. -/
def vesaInfo : EcioFbinfo := ⟨640, 480, 2560, 4, by decide⟩

/-- One window of 640 by 480 pixels, at the corner of the screen. -/
def cornerReqs : List WmReq :=
  [.createWindow, .setWindowAttributes 1 ⟨true, true, false, false, false⟩ { width := 640, height := 480 }]

/-- That window. -/
def cornerWindow : Window := { Window.fresh with attributes := { width := 640, height := 480 } }

theorem corner_run : ∃ s, (GoodTable s ∧ Stacked s) ∧ s.nwindows = 1 ∧ s.WindowAt 0 1 cornerWindow ∧
    (processEvent vesaInfo ⟨320, 240, s⟩ (.motion 1 0 0 0)).bind (fun d => d.wm.window 1) =
      some (pushEvent cornerWindow (.motion 1 0 321 321)) := by
  have hrun : (System.run (fun s e => if decide (Restackable s e) then wmNext vesaDisplay s e else none)
      Wm.init cornerReqs).map (fun s => (s.nwindows, Slice.read s.windows 0, (s.resources 1).id,
        s.window 1, (processEvent vesaInfo ⟨320, 240, s⟩ (.motion 1 0 0 0)).bind fun d =>
          d.wm.window 1)) =
      some (1, some 1, 1, some cornerWindow, some (pushEvent cornerWindow (.motion 1 0 321 321))) := by
    decide +kernel
  obtain ⟨s, hs, hf⟩ := Option.map_eq_some_iff.mp hrun
  simp only [Prod.mk.injEq] at hf
  obtain ⟨hn, hread, hid, hw, he⟩ := hf
  exact ⟨s, inOrder_of_reachable ⟨_, rfl, System.steps_of_run_if _ (by simp) hs⟩, hn,
    ⟨by omega, hread, by omega, Wm.window_eq_some.mp hw⟩, he⟩

/-- The window is the only one. -/
theorem corner_unique {j : Nat} (hn : s.nwindows = 1) (hw : s.WindowAt 0 1 cornerWindow)
    (h : s.WindowAt j id w) : id = 1 ∧ w = cornerWindow := by
  obtain rfl : j = 0 := by have := h.1; omega
  obtain ⟨rfl, rfl⟩ := h.unique hw
  exact ⟨rfl, rfl⟩

/-- From the middle of the screen down, to equal coordinates. -/
theorem routed_of_direct_example : ∃ s, s.nwindows = 1 ∧
    System.Along (Desktop.next vesaInfo) (Routed vesaInfo) ⟨320, 240, s⟩ [.motion 0 80 0 0] := by
  obtain ⟨s, ⟨hg, hst⟩, hn, hw, -⟩ := corner_run
  have hx : (320 : Int) + i32 (0 : Nat) = 320 := by decide
  have hy : (240 : Int) + i32 (80 : Nat) = 320 := by decide
  have h0 : i32 (cornerWindow.attributes.x : Nat) = 0 ∧ i32 (cornerWindow.attributes.y : Nat) = 0 := by
    decide
  have hd : DirectEvent vesaInfo ⟨320, 240, s⟩ (.motion 0 80 0 0) := by
    simp only [DirectEvent, hx, hy]
    refine ⟨by decide, by decide, fun j id w hj _ => ?_, fun id w htop => ?_⟩
    · obtain ⟨-, rfl⟩ := corner_unique hn hw hj
      rw [WinAttrs.Near, h0.1, h0.2]
      decide
    · obtain ⟨j, hj, -⟩ := htop
      obtain ⟨-, rfl⟩ := corner_unique hn hw hj
      rw [h0.1, h0.2]
  exact ⟨s, hn, routed_of_direct hg hst ⟨hd, trivial⟩⟩

/-- A motion by one column comes to the window with the column twice. -/
theorem not_routed : ¬ ∀ d es, GoodTable d.wm → Stacked d.wm →
    System.Along (Desktop.next vesaInfo) (Routed vesaInfo) d es := by
  intro h
  obtain ⟨s, ⟨hg, hst⟩, hn, hw, he⟩ := corner_run
  obtain ⟨⟨d', hd, hr⟩, -⟩ := h ⟨320, 240, s⟩ [.motion 1 0 0 0] hg hst
  rw [hd, Option.bind_some] at he
  obtain ⟨t, -, rfl⟩ := Option.map_eq_some_iff.mp hd
  have hx : moveCursor 320 (i32 (1 : Nat)) vesaInfo.width = 321 := by decide
  have hy : moveCursor 240 (i32 (0 : Nat)) vesaInfo.height = 240 := by decide
  simp only [screenProcessEvent, hx, hy] at hr he
  have htop : s.Topmost 321 240 1 cornerWindow :=
 ⟨0, hw, by decide, fun j id w hj hw' => by have := hw'.1; omega⟩
  obtain ⟨rx, ry, hrx, hry, -, -, hq⟩ := (hr _ rfl).hit 1 cornerWindow htop
  obtain ⟨h0, h0'⟩ : i32 (cornerWindow.attributes.x : Nat) = 0 ∧
      i32 (cornerWindow.attributes.y : Nat) = 0 := by decide
  obtain rfl : rx = 321 := by omega
  obtain rfl : ry = 240 := by omega
  have hwin : t.window 1 = some (pushEvent cornerWindow (.motion 1 0 321 240)) := by
    rw [Wm.window, hq, ← Wm.window, Wm.window_setWindow]
  have hne := he.symm.trans hwin
  revert hne
  decide

end Eclair
