import Eclair.Wm.CopyArea
import Eclair.Wm.Message
import Eclair.Wm.Refs
import Eclair.Wm.Stack
import Eclair.Lib.Layers

/-!
# Eclair.Wm.Compose

What `window_update` of `bin/wm/window.c` leaves on the screen.

When the focus has changed or a window has moved it draws all windows from
bottom to top, up to the first one without an image; else the window in
focus.  `windowUpdate_composes` says that each pixel is then that of the
topmost window drawn that covers it.
-/

namespace Eclair

open Painter

/-! ## drawing -/

/-- A null pointer, or what `image_copy_area` must not do. -/
inductive UpdateFault where
  | null
  | draw (e : WmFault)
  deriving DecidableEq, Repr

/-- `server_get_resource(id)->data`, as a window. -/
def windowOf (s : Wm) (id : Nat) : Option Window := (serverGetResource s id).bind s.window

/-- The arguments with which a window is drawn. -/
def windowArea (w : Window) (image : Image) : CopyArea :=
  ⟨i32 w.attributes.x, i32 w.attributes.y, 0, 0, i32 image.width, i32 image.height⟩

/-- Draw the image in the slot `j` where the window is. -/
def drawWindow (s : Wm) (w : Window) (j : Nat) (screen : Image) : Except UpdateFault Image :=
  match s.image j with
  | none => .error .null
  | some image =>
      let a := windowArea w image
      (imageCopyArea screen image false a.x a.y a.sx a.sy a.sw a.sh).mapError .draw

/-- The loop over the windows; it returns early at one without an image. -/
def redrawAll (s : Wm) : List Nat → Image → Except UpdateFault (Image × Bool)
  | [], screen => .ok (screen, true)
  | id :: ids, screen =>
      match windowOf s id with
      | none => .error .null
      | some w =>
          match w.image with
          | none => .ok (screen, false)
          | some j => (drawWindow s w j screen).bind (redrawAll s ids)

/-- The window stack. -/
def Wm.stack (s : Wm) : List Nat := s.windows.take s.nwindows.toNat

/-- `window_update`: the screen, and whether the flags are cleared and the
focus is remembered. -/
def windowUpdate (s : Wm) (oldfocus : Nat) (windowMoved : Bool) (screen : Image) :
    Except UpdateFault (Image × Bool) :=
  if s.focus ≠ oldfocus ∨ windowMoved = true then redrawAll s s.stack screen
  else
    match windowOf s s.focus with
    | none => .ok (screen, true)
    | some w =>
        match w.image with
        | none => .ok (screen, true)
        | some j => (drawWindow s w j screen).map fun screen => (screen, true)

/-! ## what is to be seen -/

/-- The windows from the first one on, up to one without an image. -/
def shownWindows (s : Wm) : List Nat → List (Window × Image)
  | [] => []
  | id :: ids =>
      match windowOf s id with
      | none => []
      | some w =>
          match w.image.bind s.image with
          | none => []
          | some image => (w, image) :: shownWindows s ids

/-- The windows that are drawn. -/
def drawnWindows (s : Wm) (oldfocus : Nat) (windowMoved : Bool) : List (Window × Image) :=
  shownWindows s (if s.focus ≠ oldfocus ∨ windowMoved = true then s.stack else [s.focus])

/-- A byte of the pixel that the window has at a place of the screen. -/
def windowLayer (q : Window × Image) (p : Nat × Nat × Nat) : Option UInt8 :=
  let (w, image) := q
  let (c, r, i) := p
  if (w.attributes.x ≤ c ∧ c < w.attributes.x + image.width) ∧
      w.attributes.y ≤ r ∧ r < w.attributes.y + image.height then
    some (image.byteOf (c - w.attributes.x) (r - w.attributes.y) i)
  else none

/-- The window does not start before the screen, its image is in memory and
like the screen, and no sum overflows. -/
structure Placed (screen : Image) (w : Window) (image : Image) : Prop where
  real : image.Real
  depth : image.depthBytes = screen.depthBytes
  x : w.attributes.x + image.width < 2 ^ 31
  y : w.attributes.y < 2 ^ 31

variable {fb : Display} {s : Wm} {screen screen' : Image} {w : Window} {image : Image} {ids : List Nat}

theorem windowArea_eq (h : Placed screen w image) :
    windowArea w image = ⟨w.attributes.x, w.attributes.y, 0, 0, image.width, image.height⟩ := by
  have hx := h.x
  have hy := h.y
  have hw := h.real.width
  have hh := h.real.height
  rw [windowArea, i32_of_small (a := w.attributes.x) (by omega) (by omega),
    i32_of_small (a := w.attributes.y) (by omega) (by omega),
    i32_of_small (a := image.width) (by omega) (by omega),
    i32_of_small (a := image.height) (by omega) (by omega)]

/-- A pixel of a row of an image, or the place behind its last one. -/
theorem Image.Real.offset_lt (h : image.Real) {c r : Nat} (hc : c ≤ image.width) (hr : r < image.height) :
    r * image.pitch + c * image.depthBytes < 2 ^ 31 := by
  have hrow : c * image.depthBytes ≤ image.pitch := h.pitch ▸ Nat.mul_le_mul_right _ hc
  have hrows : (r + 1) * image.pitch ≤ image.height * image.pitch := Nat.mul_le_mul_right _ hr
  have hext : image.height * image.pitch = image.extent := by
    rw [h.pitch, Image.extent, ← Nat.mul_assoc, Nat.mul_comm image.height]
  have hlt := h.extent
  rw [Nat.add_mul, Nat.one_mul] at hrows
  omega

/-- The call is one that `image_copy_area` gets right. -/
theorem windowArea_when (hd : screen.Real) (h : Placed screen w image) :
    (windowArea w image).Ints ∧ (windowArea w image).When screen image false := by
  have hx := h.x
  have hy := h.y
  have hw := h.real.width
  have hh := h.real.height
  have hsw := hd.width
  rw [windowArea_eq h]
  constructor
  · constructor <;> simp only [IsInt] <;> omega
  · refine ⟨⟨?_, fun _ => ?_, fun hrun i hi => ?_, fun hsame => ?_⟩, .inr ⟨.inl ?_, fun hsame => ?_⟩⟩
    · simp only [SumFits]
      omega
    · simp only [SumFits, leave]
      omega
    · -- the offsets of the rows that are copied
      simp only [CopyArea.rows, CopyArea.Stopped, Stops, leave] at hi hrun ⊢
      rw [if_pos (by omega)] at hi
      have hto := h.real.offset_lt (c := 0) (r := i) (Nat.zero_le _) (by omega)
      have hon := hd.offset_lt (c := w.attributes.x) (r := w.attributes.y + i) (by omega) (by omega)
      rw [Nat.zero_mul, Nat.add_zero] at hto
      refine ⟨?_, ?_⟩
      · rw [max_eq_left (by omega)]
        exact_mod_cast hon
      · rw [max_self, Int.zero_mul, Int.zero_add, Int.add_zero]
        exact_mod_cast hto
    · cases hsame
    · simp only [CopyArea.Plain]
      omega
    · cases hsame

/-- **One window**: its pixels are on the screen, where it is. -/
theorem drawWindow_becomes {j : Nat} (hd : screen.Real) (hj : s.image j = some image)
    (h : Placed screen w image) :
    ∃ t, drawWindow s w j screen = .ok t ∧ screen.Becomes t fun c r i =>
      (windowLayer (w, image) (c, r, i)).getD (screen.byteOf c r i) := by
  obtain ⟨hints, hwhen⟩ := windowArea_when hd h
  obtain ⟨t, ht, hbecomes⟩ := CopyArea.copies_of_when hd h.real hints h.depth (by simp) hwhen
  refine ⟨t, ?_, hbecomes.congr fun c hc r hr i hi => ?_⟩
  · rw [drawWindow, hj]
    dsimp only
    rw [ht]
    rfl
  · rw [windowArea_eq h, CopyArea.spec, windowLayer]
    by_cases hin : (w.attributes.x ≤ c ∧ c < w.attributes.x + image.width) ∧
        w.attributes.y ≤ r ∧ r < w.attributes.y + image.height
    · rw [if_pos hin, if_pos (by simp only [CopyArea.Has, Covers]; omega)]
      dsimp only
      rw [Option.getD_some, show (0 + ((c : Int) - w.attributes.x)).toNat = c - w.attributes.x by omega,
        show (0 + ((r : Int) - w.attributes.y)).toNat = r - w.attributes.y by omega]
    · rw [if_neg hin, if_neg (by simp only [CopyArea.Has, Covers]; omega)]
      rfl

/-- The window is there, and its image too, if it has one. -/
def Drawable (s : Wm) (id : Nat) : Prop :=
  ∃ w, windowOf s id = some w ∧ ∀ j, w.image = some j → ∃ image, s.image j = some image

/-- What the screen shows at a place. -/
def Image.seen (screen : Image) (p : Nat × Nat × Nat) : UInt8 := screen.byteOf p.1 p.2.1 p.2.2

/-- The screen with the windows painted on it. -/
def Composed (screen screen' : Image) (qs : List (Window × Image)) : Prop :=
  screen.Becomes screen' fun c r i => paint screen.seen (qs.map windowLayer) (c, r, i)

theorem composed_nil : Composed screen screen [] := Image.Becomes.refl

/-- One window, and then those above it. -/
theorem Composed.cons {t : Image} {qs : List (Window × Image)}
    (h : screen.Becomes t fun c r i => (windowLayer (w, image) (c, r, i)).getD (screen.byteOf c r i))
    (hrest : Composed t screen' qs) : Composed screen screen' ((w, image) :: qs) := by
  refine h.trans hrest fun c hc r hr i hi => ?_
  rw [paint_apply, paint_apply, List.map_cons, top_cons]
  cases top (qs.map windowLayer) (c, r, i) with
  | some v => rfl
  | none => exact h.bytes c hc r hr i hi

theorem shownWindows_none {id : Nat} (hw : windowOf s id = some w) (hi : w.image = none) :
    shownWindows s (id :: ids) = [] := by
  simp [shownWindows, hw, hi]

theorem shownWindows_some {id j : Nat} (hw : windowOf s id = some w) (hi : w.image = some j)
    (hj : s.image j = some image) :
    shownWindows s (id :: ids) = (w, image) :: shownWindows s ids := by
  simp [shownWindows, hw, hi, hj]

/-- **The loop** paints the windows one over the other. -/
theorem redrawAll_paints (hd : screen.Real) (hdraw : ∀ id ∈ ids, Drawable s id)
    (hplaced : ∀ q ∈ shownWindows s ids, Placed screen q.1 q.2) :
    ∃ t, redrawAll s ids screen = .ok (t, decide ((shownWindows s ids).length = ids.length)) ∧
      Composed screen t (shownWindows s ids) := by
  induction ids generalizing screen with
  | nil => exact ⟨screen, rfl, composed_nil⟩
  | cons id ids ih =>
      obtain ⟨w, hw, hj⟩ := hdraw id (by simp)
      rw [redrawAll, hw]
      dsimp only
      cases hi : w.image with
      | none =>
          rw [shownWindows_none hw hi]
          exact ⟨screen, rfl, composed_nil⟩
      | some j =>
          obtain ⟨image, himage⟩ := hj j hi
          rw [shownWindows_some hw hi himage] at hplaced ⊢
          obtain ⟨t, ht, hone⟩ := drawWindow_becomes hd himage (hplaced (w, image) (by simp))
          obtain ⟨t', ht', hrest⟩ := ih (hd.sameSize hone.size) (fun i hi => hdraw i (by simp [hi]))
            fun q hq => by
              obtain ⟨hreal, hdepth, hx, hy⟩ := hplaced q (by simp [hq])
              exact ⟨hreal, hdepth.trans hone.size.depth.symm, hx, hy⟩
          refine ⟨t', ?_, hrest.cons hone⟩
          dsimp only
          rw [ht]
          simpa [Except.bind] using ht'

/-! ## any state of the server -/

/-- The requests that name images for images and fit the stack. -/
def Orderly (s : Wm) (e : WmReq) : Prop := Restackable s e ∧ NamesImages s e

instance (s : Wm) (e : WmReq) : Decidable (Orderly s e) := inferInstanceAs (Decidable (_ ∧ _))

theorem refs_of_orderly (h : (wmSystem fb).Reachable Orderly s) : GoodTable s ∧ Refs s := by
  refine h.invariant (I := fun s => GoodTable s ∧ Refs s) ?_ ?_
  · rintro s rfl
    exact ⟨goodTable_init, refs_init⟩
  · intro s e t hi he hstep
    obtain ⟨hgood, hrefs, -⟩ := (wmNext_step hi.1 (fun _ => he.2) hstep).sound hi.1 hi.2
    exact ⟨hgood, hrefs⟩

/-- A live window can be drawn. -/
theorem Refs.drawable {k : Nat} (hs : GoodTable s) (hr : Refs s) (hw : LiveWindow s k w) :
    Drawable s k := by
  refine ⟨w, by rw [windowOf, hs.getResource hw.1, Option.bind_some, hw.window], fun j hj => ?_⟩
  obtain ⟨-, hnull⟩ | ⟨hp, hcls⟩ := hr.image k _ _ hw.imageField
  · rw [hj] at hnull
    contradiction
  · obtain rfl := Option.some.inj (hj.symm.trans hp)
    unfold imageCls Resource.imageCls at hcls
    unfold Wm.image
    cases hd : (s.resources w.attributes.image).data with
    | none => simp [hd] at hcls
    | some data =>
        cases data with
        | image cls image => exact ⟨image, rfl⟩
        | window w' => simp [hd] at hcls

/-- The windows of the stack can be drawn, and so can the one in focus. -/
theorem drawable_of_reachable (h : (wmSystem fb).Reachable Orderly s) :
    (∀ id ∈ s.stack, Drawable s id) ∧ (windowOf s s.focus = none ∨ Drawable s s.focus) := by
  obtain ⟨hs, hr⟩ := refs_of_orderly h
  obtain ⟨-, l, hl⟩ := inOrder_of_reachable (h.mono fun _ _ he => he.1)
  have hlive : ∀ id ∈ l.all, Drawable s id := fun id hid => by
    obtain ⟨w, hw⟩ := hl.window hid
    exact hr.drawable hs hw
  refine ⟨fun id hid => hlive id ?_, ?_⟩
  · obtain ⟨junk, hwin⟩ := hl.windows
    rw [Wm.stack, hwin, hl.nwindows, Int.toNat_natCast, List.take_left'  rfl] at hid
    exact hid
  · obtain hnull | hcenter := hl.focus
    · have hdead : (s.resources WM_NULL).id = 0 := by
        by_contra hne
        exact hs.pos hne rfl
      left
      rw [hnull, windowOf, serverGetResource, if_neg (by simp [hdead])]
      rfl
    · exact .inr (hlive _ (by simp [hcenter]))

/-- **What is drawn is seen**: after any orderly requests, `window_update` paints the windows it
draws one over the other, so that each pixel of the screen is that of the topmost of them that
covers it, or as it was; it is finished when no window on the stack is without an image. -/
theorem windowUpdate_composes (h : (wmSystem fb).Reachable Orderly s) {oldfocus : Nat}
    {windowMoved : Bool} (hd : screen.Real)
    (hplaced : ∀ q ∈ drawnWindows s oldfocus windowMoved, Placed screen q.1 q.2) :
    ∃ screen' done, windowUpdate s oldfocus windowMoved screen = .ok (screen', done) ∧
      (done = true ↔ s.focus = oldfocus ∧ windowMoved = false ∨
        (shownWindows s s.stack).length = s.stack.length) ∧
      screen.Becomes screen' fun c r i =>
        (top ((drawnWindows s oldfocus windowMoved).map windowLayer) (c, r, i)).getD
          (screen.byteOf c r i) := by
  obtain ⟨hstack, hfocus⟩ := drawable_of_reachable h
  -- the screen with the layers painted, in terms of the topmost one
  have htop : ∀ {t : Image} {qs : List (Window × Image)}, Composed screen t qs →
      screen.Becomes t fun c r i => (top (qs.map windowLayer) (c, r, i)).getD (screen.byteOf c r i) :=
    fun hc => hc.congr fun c _ r _ i _ => paint_apply _ _
  unfold windowUpdate drawnWindows at *
  by_cases hall : s.focus ≠ oldfocus ∨ windowMoved = true
  · rw [if_pos hall] at hplaced ⊢
    obtain ⟨t, ht, hc⟩ := redrawAll_paints hd hstack hplaced
    refine ⟨t, _, ht, ?_, by rw [if_pos hall]; exact htop hc⟩
    have hnot : ¬(s.focus = oldfocus ∧ windowMoved = false) := by
      rintro ⟨h1, h2⟩
      simp [h1, h2] at hall
    rw [decide_eq_true_eq, or_iff_right hnot]
  · rw [if_neg hall] at hplaced ⊢
    rw [if_neg hall]
    have hkept : s.focus = oldfocus ∧ windowMoved = false := by simpa using hall
    have hdone : true = true ↔ s.focus = oldfocus ∧ windowMoved = false ∨
        (shownWindows s s.stack).length = s.stack.length := iff_of_true rfl (.inl hkept)
    obtain hnone | ⟨w, hw, hj⟩ := hfocus
    · have hempty : shownWindows s [s.focus] = [] := by simp [shownWindows, hnone]
      rw [hnone, hempty]
      exact ⟨screen, true, rfl, hdone, htop composed_nil⟩
    · rw [hw]
      dsimp only
      cases hi : w.image with
      | none =>
          rw [shownWindows_none hw hi]
          exact ⟨screen, true, rfl, hdone, htop composed_nil⟩
      | some j =>
          obtain ⟨image, himage⟩ := hj j hi
          rw [shownWindows_some hw hi himage] at hplaced ⊢
          obtain ⟨t, ht, hone⟩ := drawWindow_becomes hd himage (hplaced (w, image) (by simp))
          refine ⟨t, true, ?_, hdone, htop (Composed.cons hone composed_nil)⟩
          dsimp only
          rw [ht]
          rfl

/-- A screen of 16 by 16 pixels. -/
def smallScreen : Image := ⟨16, 16, 4, 64, fun _ => 0⟩

/-- Two windows with images, where windows start. -/
theorem windowUpdate_composes_example : ∃ s screen' done, s.stack = [2, 3] ∧
    windowUpdate s 0 true smallScreen = .ok (screen', done) ∧
    (done = true ↔ s.focus = 0 ∧ true = false ∨ (shownWindows s s.stack).length = s.stack.length) ∧
    smallScreen.Becomes screen' fun c r i =>
      (top ((drawnWindows s 0 true).map windowLayer) (c, r, i)).getD (smallScreen.byteOf c r i) := by
  have hrun : (System.run (fun s e => if decide (Orderly s e) then wmNext vesaDisplay s e else none)
      Wm.init [.createImage WM_CLASS_WINDOW 8 8, .createWindow, imageReq 2 1, .createWindow,
        imageReq 3 1]).map (fun s => (s.stack, (drawnWindows s 0 true).map fun q =>
          [q.1.attributes.x, q.1.attributes.y, q.2.width, q.2.height, q.2.depthBytes, q.2.pitch])) =
        some ([2, 3], [[0, 0, 8, 8, 4, 32], [0, 0, 8, 8, 4, 32]]) := by decide +kernel
  obtain ⟨s, hs, hf⟩ := Option.map_eq_some_iff.mp hrun
  obtain ⟨hstack, hdrawn⟩ := Prod.mk.inj hf
  have hscreen : smallScreen.Real := ⟨by decide, by decide, by decide, by decide, by decide⟩
  have hplaced : ∀ q ∈ drawnWindows s 0 true, Placed smallScreen q.1 q.2 := by
    intro q hq
    have hmem := List.mem_map_of_mem (f := fun q : Window × Image =>
      [q.1.attributes.x, q.1.attributes.y, q.2.width, q.2.height, q.2.depthBytes, q.2.pitch]) hq
    rw [hdrawn] at hmem
    simp only [List.mem_cons, List.cons.injEq, List.not_mem_nil, or_false, or_self, and_true] at hmem
    obtain ⟨hx, hy, hw, hh, hdepth, hpitch⟩ := hmem
    refine ⟨⟨?_, ?_, ?_, ?_, ?_⟩, ?_, ?_, ?_⟩
    · omega
    · rw [hpitch, hw, hdepth]
    · omega
    · omega
    · rw [Image.extent, hw, hh, hdepth]
      decide
    · exact hdepth
    · omega
    · omega
  obtain ⟨screen', done, hupdate⟩ :=
    windowUpdate_composes ⟨_, rfl, System.steps_of_run_if _ (by simp) hs⟩ hscreen hplaced
  exact ⟨s, screen', done, hstack, hupdate⟩

end Eclair
