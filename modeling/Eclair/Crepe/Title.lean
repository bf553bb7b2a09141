import Eclair.Crepe.Layout

/-!
# Eclair.Crepe.Title

Windows with a title bar: `lib/crepe/title.c` and the sizes of
`lib/crepe/context.c`.

Sizes are `size_t` and positions `int`; there is no result if a sum of `int`
overflows.  What is in the window below the title bar is known by what its
callbacks calculate.
-/

namespace Eclair

def TITLE_BORDER_WIDTH : Nat := 3
def CHILD_BORDER_START : Nat := 4
def CHILD_BORDER_WIDTH : Nat := 5

/-- The value of an `int` expression. -/
def checkedInt (z : Int) : Option Int := if -2 ^ 31 ≤ z ∧ z < 2 ^ 31 then some z else none

/-! ## title bars -/

/-- `crepe_title_t`, without its callbacks. -/
structure Title where
  base : WidgetBase := {}
  label : Widget
  /-- `buttons[CREPE_TITLE_BUTTON_CLOSE]` -/
  close : Option Widget
  /-- `buttons[CREPE_TITLE_BUTTON_SHOW_HIDE]` -/
  showHide : Option Widget

namespace Title

def TEXT_MARGIN : Nat := 5
def HEIGHT : Nat := 17

/-- `lines`: a place in the image and a size. -/
def lines : Int × Int × Nat × Nat := (98, 8, 150, 7)

def BG_COLOR : Color := ⟨0xa2, 0xa8, 0xbf⟩

/-- `CREPE_TEXT_STYLE_BOLD | CREPE_TEXT_STYLE_INVERTED` -/
def style : TextStyle := { bold := true, inverted := true }

/-- `crepe_title_new`. -/
def new (text : Bytes) (buttons : Nat) : Title where
  label := .label {} style text
  close := if buttons.testBit 0 then some (.button {} .close none) else none
  showHide := if buttons.testBit 1 then some (.button {} .hide none) else none

def buttons (t : Title) : List Widget := t.close.toList ++ t.showHide.toList

/-- What a button adds to the minimum width. -/
def addButton (mwidth : Nat) : Option Widget → Nat
  | none => mwidth
  | some button => u32 (mwidth + (button.base.width + sub32 HEIGHT button.base.width / 2))

/-- `minimum_size`.  The size of the text is calculated with `int`. -/
def minimumSize (t : Title) : Option Title :=
  let label := Eclair.minimumSize t.label
  (checkedInt label.base.mwidth).bind fun _ =>
  (checkedInt label.base.mheight).map fun _ =>
  let close := t.close.map Eclair.minimumSize
  let showHide := t.showHide.map Eclair.minimumSize
  { base := { t.base with
      mwidth := addButton (addButton (u32 (TEXT_MARGIN * 2 + label.base.width)) close) showHide
      mheight := HEIGHT }
    label := label
    close := close
    showHide := showHide }

/-- Where a button begins in the height of the title bar. -/
def buttonOffset (size : Nat) : Int := ((HEIGHT : Int) - i32 size).tdiv 2

/-- The button at the right end of the title bar. -/
def placeShowHide (width : Nat) : Option Widget → Option (Option Widget)
  | none => some none
  | some button =>
      (checkedInt (i32 width - ((HEIGHT : Int) + i32 button.base.width).tdiv 2)).map fun x =>
        some (button.at x (buttonOffset button.base.height))

/-- `final_size`, which does not use `bheight`. -/
def finalSize (t : Title) (bwidth : Nat) : Option Title :=
  let base := { t.base with width := bwidth, height := t.base.mheight }
  let label := Eclair.finalSize t.label base.width base.height
  let close := t.close.map fun button => Eclair.finalSize button base.width base.height
  let showHide := t.showHide.map fun button => Eclair.finalSize button base.width base.height
  (checkedInt (i32 base.width - i32 label.base.width)).bind fun dx =>
  (checkedInt (i32 base.height - i32 label.base.height)).bind fun dy =>
  (placeShowHide base.width showHide).map fun showHide =>
  { base := base
    label := label.at (dx.tdiv 2) (dy.tdiv 2)
    close := close.map fun button =>
      button.at (buttonOffset button.base.width) (buttonOffset button.base.height)
    showHide := showHide }

/-- `lx` of `draw`. -/
def leftEnd (t : Title) : Int :=
  match t.close with
  | none => 0
  | some button => button.base.x + i32 button.base.width

/-- `rx` of `draw`. -/
def rightEnd (t : Title) : Int :=
  match t.showHide with
  | none => 0
  | some button => i32 t.base.width - button.base.x

/-- `draw`, for a title bar at `absx`, `absy` that needs to be drawn; the label
and the buttons draw themselves. -/
def draw (t : Title) (ui : Nat) (absx absy : Int) : List DrawCall :=
  let y := absy + ((HEIGHT : Int) - lines.2.2.2).tdiv 2
  let line (room : Int) : DrawCall := .imageRepeated ui lines.1 lines.2.1 lines.2.2.1 lines.2.2.2
    (sub32 (wrap room) (TEXT_MARGIN * 2)) lines.2.2.2
  [.position absx absy,
    .fillRect t.base.width t.base.height BG_COLOR,
    .position (absx + TEXT_MARGIN + t.leftEnd) y,
    line (t.label.base.x - t.leftEnd),
    .position (absx + t.label.base.x + i32 t.label.base.width + TEXT_MARGIN) y,
    line (t.label.base.x - t.rightEnd)]

end Title

/-! ## windows -/

/-- What `minimum_size` and `final_size` of a widget calculate. -/
structure ChildSizes where
  minimum : WidgetBase
  final : Nat → Nat → WidgetBase

/-- A widget tree as a child. -/
def Widget.sizes (w : Widget) : ChildSizes where
  minimum := (minimumSize w).base
  final := fun bwidth bheight => (finalSize (minimumSize w) bwidth bheight).base

/-- `crepe_window_t`, as far as sizes depend on it. -/
structure CrepeWindow where
  base : WidgetBase := {}
  title : Option Title
  widget : Option ChildSizes
  /-- where the child is, once it is placed -/
  child : Option WidgetBase := none
  mwidth : Nat
  mheight : Nat
  decorations : Bool := true

namespace CrepeWindow

def decor (w : CrepeWindow) : Nat := w.decorations.toNat

/-- What the child and the borders around it take. -/
def childSize (w : CrepeWindow) (size : WidgetBase → Nat) : Nat :=
  match w.widget with
  | none => 0
  | some child =>
      u32 (size child.minimum + (CHILD_BORDER_WIDTH - TITLE_BORDER_WIDTH) * 2 * w.decor)

/-- The minimum size of a window, from what its title bar takes. -/
def withMinimum (w : CrepeWindow) (title : Option Title) (twidth theight start : Nat) :
    CrepeWindow :=
  let width := u32 (max twidth (w.childSize WidgetBase.mwidth) + TITLE_BORDER_WIDTH * 2 * w.decor)
  let height := u32 (theight + w.childSize WidgetBase.mheight + CHILD_BORDER_WIDTH + start * w.decor)
  { w with
    title := title
    base := { w.base with mwidth := max width w.mwidth, mheight := max height w.mheight } }

/-- `window_minimum_size`. -/
def minimumSize (w : CrepeWindow) : Option CrepeWindow :=
  match w.title with
  | none => some (w.withMinimum none 0 0 TITLE_BORDER_WIDTH)
  | some title => title.minimumSize.map fun title =>
      w.withMinimum (some title) title.base.mwidth title.base.mheight CHILD_BORDER_START

/-- The final size of a window, with its title bar. -/
def withFinal (w : CrepeWindow) (title : Option Title) (theight tstart : Nat) : CrepeWindow :=
  let bwidth := sub32 w.base.mwidth (CHILD_BORDER_START * 2 * w.decor)
  let bheight :=
    sub32 (sub32 w.base.mheight ((CHILD_BORDER_START + tstart + 1) * w.decor)) theight
  { w with
    base := { w.base with width := w.base.mwidth, height := w.base.mheight }
    title := title
    child := w.widget.map fun widget =>
      let child := widget.final bwidth bheight
      child.at
        (i32 (CHILD_BORDER_START * w.decor + alignOffset child.halign (sub32 bwidth child.width)))
        (i32 ((tstart + 1) * w.decor + theight +
          alignOffset child.valign (sub32 bheight child.height))) }

/-- `window_final_size`. -/
def finalSize (w : CrepeWindow) : Option CrepeWindow :=
  match w.title with
  | none => some (w.withFinal none 0 TITLE_BORDER_WIDTH)
  | some title =>
      (title.finalSize (sub32 w.base.mwidth (TITLE_BORDER_WIDTH * 2 * w.decor))).map fun title =>
        let start : Int := TITLE_BORDER_WIDTH * w.decor
        w.withFinal (some { title with base := title.base.at start start }) title.base.height
          CHILD_BORDER_START

/-- The sizes that `crepe_window_present` calculates. -/
def present (w : CrepeWindow) : Option CrepeWindow := w.minimumSize.bind finalSize

end CrepeWindow

/-! ## the layout of a title bar -/

namespace Title

/-- The label and the buttons lie inside the title bar, and apart. -/
structure Placed (t : Title) : Prop where
  inside : ∀ w ∈ t.label :: t.buttons, w.base.Inside t.base
  apart : (t.label :: t.buttons).Pairwise fun v w => v.base.Apart w.base

/-- The widths of repeated images. -/
def repeatedWidths (calls : List DrawCall) : List Nat :=
  calls.filterMap fun
    | .imageRepeated _ _ _ _ _ w _ => some w
    | _ => none

/-- The lines are not wider than the title bar, and their widths are not
wrapped. -/
structure Lined (t : Title) : Prop where
  width_le : ∀ ui absx absy, ∀ w ∈ repeatedWidths (t.draw ui absx absy), w ≤ t.base.width
  left : TEXT_MARGIN * 2 ≤ t.label.base.x - t.leftEnd
  right : TEXT_MARGIN * 2 ≤ t.label.base.x - t.rightEnd

end Title

/-- What a program asks for. -/
structure TitledWindow where
  text : Bytes
  buttons : Nat
  mwidth : Nat
  mheight : Nat
  decorations : Bool
  widget : Option ChildSizes
  mwidth_lt : mwidth < 2 ^ 32

namespace TitledWindow

/-- The window before it is presented. -/
def window (r : TitledWindow) : CrepeWindow where
  title := some (Title.new r.text r.buttons)
  widget := r.widget
  mwidth := r.mwidth
  mheight := r.mheight
  decorations := r.decorations

/-- Once it is presented, its title bar is laid out and can be drawn. -/
def Shows (r : TitledWindow) : Prop :=
  ∃ w t, r.window.present = some w ∧ w.title = some t ∧ t.Placed ∧ t.Lined

/-- The characters of a text that have a glyph. -/
def glyphs (text : Bytes) : Nat := text.countP fun c => 32 ≤ c ∧ c ≤ 126

/-- What the title bar needs: the text, and the margins and the buttons on
both sides. -/
def needs (r : TitledWindow) : Nat :=
  8 * glyphs r.text + 20 + if r.buttons.testBit 0 ∨ r.buttons.testBit 1 then 30 else 0

/-- The width that is asked for, or that the child asks for. -/
def asked (r : TitledWindow) : Nat :=
  max (u32 (r.window.childSize WidgetBase.mwidth + 6 * r.decorations.toNat)) r.mwidth

/-- The width that is asked for is enough for the title bar, which has one
line of text; and it is an `int`. -/
structure Wide (r : TitledWindow) : Prop where
  line : 10 ∉ r.text
  needs_le : r.needs + 6 * r.decorations.toNat ≤ r.asked
  asked_lt : r.asked < 2 ^ 31 + 6 * r.decorations.toNat

end TitledWindow

/-! ## the size of a text -/

section

variable {text : Bytes} {cw ch w h mw : Nat}

open TitledWindow

/-- The size of one line. -/
theorem textSizeLoop_of_line (hline : 10 ∉ text) :
    textSizeLoop cw ch text w h mw = (max w (mw + cw * glyphs text), h) := by
  induction text generalizing mw with
  | nil =>
      simp only [textSizeLoop, glyphs, List.countP_nil, Nat.mul_zero, Nat.add_zero]
      split <;> simp only [Prod.mk.injEq, and_true] <;> omega
  | cons c text ih =>
      obtain ⟨hc, htext⟩ := not_or.mp (List.mem_cons.not.mp hline)
      rw [textSizeLoop, if_neg (Ne.symm hc), glyphs, List.countP_cons, ← glyphs]
      by_cases hglyph : 32 ≤ c ∧ c ≤ 126
      · rw [if_pos hglyph, if_pos (by simpa using hglyph), ih htext, Nat.mul_add, Nat.mul_one]
        congr 2
        omega
      · rw [if_neg hglyph, if_neg (by simpa using hglyph), ih htext, Nat.add_zero]

theorem le_textSizeLoop : h ≤ (textSizeLoop cw ch text w h mw).2 := by
  induction text generalizing w h mw with
  | nil => exact Nat.le_refl h
  | cons c text ih =>
      rw [textSizeLoop]
      split
      · exact Nat.le_trans (Nat.le_add_right h ch) ih
      · split <;> exact ih

/-- A second line is below the first. -/
theorem lt_textSizeLoop (hline : 10 ∈ text) : h + ch ≤ (textSizeLoop cw ch text w h mw).2 := by
  induction text generalizing w h mw with
  | nil => contradiction
  | cons c text ih =>
      rw [textSizeLoop]
      split
      · exact le_textSizeLoop
      · next hc =>
          have htext : 10 ∈ text := (List.mem_cons.mp hline).resolve_left (Ne.symm hc)
          split <;> exact ih htext

end

theorem textSize_of_line {text : Bytes} (h : 10 ∉ text) :
    textSize Title.style text = (8 * TitledWindow.glyphs text, 11) := by
  show textSizeLoop 8 11 text 0 11 0 = _
  rw [textSizeLoop_of_line h, Nat.zero_max, Nat.zero_add]

theorem textSize_height {text : Bytes} (h : 10 ∈ text) : 22 ≤ (textSize Title.style text).2 :=
  show 11 + 11 ≤ (textSizeLoop 8 11 text 0 11 0).2 from lt_textSizeLoop h

/-! ## a title bar -/

namespace Title

variable {text : Bytes} {buttons width mwidth : Nat} {t : Title}

/-- The title bar once its minimum size is known. -/
def measured (text : Bytes) (buttons mwidth : Nat) : Title where
  base := { mwidth := mwidth, mheight := HEIGHT }
  label := Eclair.minimumSize (new text buttons).label
  close := (new text buttons).close.map Eclair.minimumSize
  showHide := (new text buttons).showHide.map Eclair.minimumSize

/-- The size of the text is an `int`. -/
def Fits (text : Bytes) : Prop :=
  (textSize style text).1 < 2 ^ 31 ∧ (textSize style text).2 < 2 ^ 31

theorem checkedInt_of {z : Int} (h1 : -2 ^ 31 ≤ z) (h2 : z < 2 ^ 31) : checkedInt z = some z :=
  if_pos ⟨h1, h2⟩

theorem checkedInt_eq_some {z z' : Int} (h : checkedInt z = some z') :
    z' = z ∧ -2 ^ 31 ≤ z ∧ z < 2 ^ 31 := by
  unfold checkedInt at h
  split at h
  · next hz => exact ⟨(Option.some.inj h).symm, hz⟩
  · contradiction

@[simp] theorem label_measured : Eclair.minimumSize (new text buttons).label =
    .label { mwidth := (textSize style text).1, mheight := (textSize style text).2 } style text := rfl

/-- **The minimum width** of a new title bar does not count its text. -/
theorem minimumSize_new (buttons : Nat) (h : Fits text) :
    ∃ mwidth < 20 + (if buttons.testBit 0 ∨ buttons.testBit 1 then 30 else 0),
      (new text buttons).minimumSize = some (measured text buttons mwidth) := by
  obtain ⟨hw, hh⟩ := h
  have hwidth : checkedInt (textSize style text).1 = some _ := checkedInt_of (by omega) (by omega)
  have hheight : checkedInt (textSize style text).2 = some _ := checkedInt_of (by omega) (by omega)
  refine ⟨addButton (addButton 10 (new text buttons).close) (new text buttons).showHide, ?_, ?_⟩
  · cases h0 : buttons.testBit 0 <;> cases h1 : buttons.testBit 1 <;>
      simp [new, h0, h1, addButton, HEIGHT, u32, sub32]
  · simp only [minimumSize, label_measured, base_label, hwidth, hheight, Option.bind_some,
      Option.map_some, measured]
    cases h0 : buttons.testBit 0 <;> cases h1 : buttons.testBit 1 <;> simp only [new, h0, h1] <;> rfl

theorem fits_of_minimumSize (h : (new text buttons).minimumSize = some t) : Fits text := by
  simp only [minimumSize, label_measured, base_label, Option.bind_eq_some_iff,
    Option.map_eq_some_iff] at h
  obtain ⟨w, hw, h', hh, -⟩ := h
  have hwidth := (checkedInt_eq_some hw).2.2
  have hheight := (checkedInt_eq_some hh).2.2
  exact ⟨by omega, by omega⟩

/-- Where the parts of a title bar are. -/
structure Laid (text : Bytes) (buttons width : Nat) (t : Title) : Prop where
  width_eq : t.base.width = width
  height_eq : t.base.height = HEIGHT
  label_x : t.label.base.x = (i32 width - (textSize style text).1).tdiv 2
  label_y : t.label.base.y = ((HEIGHT : Int) - (textSize style text).2).tdiv 2
  label_width : t.label.base.width = (textSize style text).1
  label_height : t.label.base.height = (textSize style text).2
  close : (buttons.testBit 0 = false ∧ t.close = none) ∨ (buttons.testBit 0 = true ∧
    ∃ b, t.close = some b ∧ b.base.x = 2 ∧ b.base.y = 2 ∧ b.base.width = 13 ∧ b.base.height = 13)
  showHide : (buttons.testBit 1 = false ∧ t.showHide = none) ∨ (buttons.testBit 1 = true ∧
    ∃ b, t.showHide = some b ∧ b.base.x = i32 width - 15 ∧ b.base.y = 2 ∧ b.base.width = 13 ∧
      b.base.height = 13)

theorem i32_natCast {n : Nat} (h : n < 2 ^ 31) : i32 n = n := i32_of_small (by omega) (by omega)

/-- The final size of the label. -/
@[simp] theorem label_final (a b : Nat) : Eclair.finalSize (measured text buttons mwidth).label a b =
    .label { mwidth := (textSize style text).1, mheight := (textSize style text).2,
             width := (textSize style text).1, height := (textSize style text).2 } style text := rfl

/-- A button of a title bar once its size is known. -/
def button (style : ButtonStyle) : Widget :=
  .button { mwidth := 13, mheight := 13, width := 13, height := 13 } style none

theorem close_final (a b : Nat) :
    ((measured text buttons mwidth).close.map fun w => Eclair.finalSize w a b) =
      if buttons.testBit 0 then some (button .close) else none := by
  cases h : buttons.testBit 0 <;> simp only [measured, new, h] <;> rfl

theorem showHide_final (a b : Nat) :
    ((measured text buttons mwidth).showHide.map fun w => Eclair.finalSize w a b) =
      if buttons.testBit 1 then some (button .hide) else none := by
  cases h : buttons.testBit 1 <;> simp only [measured, new, h] <;> rfl

theorem buttonOffset_button : buttonOffset 13 = 2 := by decide

theorem height_measured : i32 (measured text buttons mwidth).base.mheight = 17 := by
  show i32 17 = 17
  decide

theorem laid_of_finalSize (hfit : Fits text)
    (h : (measured text buttons mwidth).finalSize width = some t) : Laid text buttons width t := by
  obtain ⟨hw, hh⟩ := hfit
  simp only [finalSize, close_final, showHide_final, label_final, base_label,
    Option.bind_eq_some_iff, Option.map_eq_some_iff] at h
  obtain ⟨dx, hdx, dy, hdy, showHide, hshow, rfl⟩ := h
  have hx := (checkedInt_eq_some hdx).1
  have hy := (checkedInt_eq_some hdy).1
  constructor
  · rfl
  · rfl
  · simp [hx, i32_natCast hw]
  · rw [height_measured, i32_natCast hh] at hy
    simp [hy, HEIGHT]
  · rfl
  · rfl
  · cases h0 : buttons.testBit 0
    · simp
    · simp [button, buttonOffset_button]
  · cases h1 : buttons.testBit 1
    · simp only [h1, Bool.false_eq_true, if_false, placeShowHide, Option.some.injEq] at hshow
      simp [← hshow]
    · simp only [h1, if_true, placeShowHide, Option.map_eq_some_iff] at hshow
      obtain ⟨x, hx, rfl⟩ := hshow
      rw [(checkedInt_eq_some hx).1]
      simp [button, buttonOffset_button, HEIGHT, i32]

theorem Laid.at (h : Laid text buttons width t) (x y : Int) :
    Laid text buttons width { t with base := t.base.at x y } :=
  ⟨h.width_eq, h.height_eq, h.label_x, h.label_y, h.label_width, h.label_height, h.close, h.showHide⟩

theorem exists_finalSize (mwidth : Nat) (hfit : Fits text) (hw : width < 2 ^ 31) :
    ∃ t, (measured text buttons mwidth).finalSize width = some t := by
  obtain ⟨hlw, hlh⟩ := hfit
  have hdx : checkedInt (i32 width - i32 (textSize style text).1) =
      some ((width : Int) - (textSize style text).1) := by
    rw [i32_natCast hw, i32_natCast hlw]
    exact checkedInt_of (by omega) (by omega)
  have hdy : checkedInt (i32 (measured text buttons mwidth).base.mheight -
      i32 (textSize style text).2) = some ((17 : Int) - (textSize style text).2) := by
    rw [height_measured, i32_natCast hlh]
    exact checkedInt_of (by omega) (by omega)
  have hshow : ∃ showHide, placeShowHide width
      (if buttons.testBit 1 then some (button .hide) else none) = some showHide := by
    cases buttons.testBit 1 with
    | false => exact ⟨none, rfl⟩
    | true =>
        have hx : checkedInt (i32 width - ((HEIGHT : Int) + i32 (13 : Nat)).tdiv 2) =
            some ((width : Int) - 15) := by
          rw [i32_natCast hw, show ((HEIGHT : Int) + i32 (13 : Nat)).tdiv 2 = 15 by decide]
          exact checkedInt_of (by omega) (by omega)
        simp only [if_true, placeShowHide, button, base_button, hx]
        exact ⟨_, rfl⟩
  obtain ⟨showHide, hshow⟩ := hshow
  simp only [finalSize, close_final, showHide_final, label_final, base_label, hdx, hdy, hshow]
  exact ⟨_, rfl⟩

/-! ## what a title bar needs -/

/-- Half of an `int`, rounded towards zero. -/
theorem tdiv_two (a : Int) : (0 ≤ a ∧ a.tdiv 2 = a / 2) ∨ (a < 0 ∧ a.tdiv 2 = -(-a / 2)) := by
  by_cases h : 0 ≤ a
  · exact .inl ⟨h, Int.tdiv_eq_ediv_of_nonneg h⟩
  · refine .inr ⟨by omega, ?_⟩
    rw [← Int.tdiv_eq_ediv_of_nonneg (by omega), Int.neg_tdiv, Int.neg_neg]

theorem leftEnd_eq (h : Laid text buttons width t) :
    t.leftEnd = if buttons.testBit 0 then 15 else 0 := by
  obtain ⟨h0, hc⟩ | ⟨h0, b, hc, hx, -, hw, -⟩ := h.close
  · simp [leftEnd, hc, h0]
  · simp [leftEnd, hc, h0, hx, hw, i32]

theorem rightEnd_eq (h : Laid text buttons width t) :
    t.rightEnd = if buttons.testBit 1 then 15 else 0 := by
  obtain ⟨h1, hs⟩ | ⟨h1, b, hs, hx, -⟩ := h.showHide
  · simp [rightEnd, hs, h1]
  · simp [rightEnd, hs, h1, hx, h.width_eq]

theorem repeatedWidths_draw (t : Title) (ui : Nat) (absx absy : Int) :
    repeatedWidths (t.draw ui absx absy) =
      [sub32 (wrap (t.label.base.x - t.leftEnd)) 10, sub32 (wrap (t.label.base.x - t.rightEnd)) 10] :=
  rfl

/-- A width that is not wrapped. -/
theorem sub32_wrap_ten {a : Int} (h : 10 ≤ a) (hlt : a < 2 ^ 31) :
    (sub32 (wrap a) 10 : Int) = a - 10 := by
  rw [wrap, sub32_of_le (by omega) (by omega)]
  omega

/-- **A title bar that can be drawn** is wide enough for its text. -/
theorem Laid.wide (h : Laid text buttons width t) (hlt : width < 2 ^ 32) (hp : t.Placed)
    (hl : t.Lined) : 10 ∉ text ∧ width < 2 ^ 31 ∧ 8 * TitledWindow.glyphs text + 20 +
      (if buttons.testBit 0 ∨ buttons.testBit 1 then 30 else 0) ≤ width := by
  have hin := hp.inside t.label List.mem_cons_self
  have hline : 10 ∉ text := by
    intro hmem
    have hheight := textSize_height hmem
    obtain ⟨-, -, -, hbottom⟩ := hin
    rw [h.label_height, h.height_eq] at hbottom
    have hy := h.label_y
    have hhalf := tdiv_two ((HEIGHT : Int) - (textSize style text).2)
    simp only [HEIGHT] at hy hbottom hhalf
    omega
  have hleft := hl.left
  have hright := hl.right
  have hhalf := tdiv_two (i32 width - (textSize style text).1)
  rw [leftEnd_eq h, h.label_x, TEXT_MARGIN] at hleft
  rw [rightEnd_eq h, h.label_x, TEXT_MARGIN] at hright
  rw [textSize_of_line hline] at hleft hright hhalf
  dsimp only at hleft hright hhalf
  have hw : width < 2 ^ 31 := by
    simp only [i32, Int.bmod] at hhalf hleft hright
    omega
  rw [i32_natCast hw] at hleft hright hhalf
  refine ⟨hline, hw, ?_⟩
  cases h0 : buttons.testBit 0 <;> cases h1 : buttons.testBit 1 <;>
    simp only [h0, h1, Bool.false_eq_true, if_false, if_true, or_self, or_true, true_or]
      at hleft hright ⊢ <;> omega

theorem Laid.glyph_size (h : Laid text buttons width t) (hline : 10 ∉ text) (hw : width < 2 ^ 31) :
    t.label.base.x = ((width : Int) - 8 * TitledWindow.glyphs text).tdiv 2 ∧ t.label.base.y = 3 ∧
      t.label.base.width = 8 * TitledWindow.glyphs text ∧ t.label.base.height = 11 := by
  have hx := h.label_x
  have hy := h.label_y
  have hwidth := h.label_width
  have hheight := h.label_height
  rw [textSize_of_line hline] at hx hy hwidth hheight
  rw [i32_natCast hw] at hx
  exact ⟨by simpa using hx, hy, hwidth, hheight⟩

/-- Widgets side by side. -/
theorem apart_of_le {b c : WidgetBase} (h : b.x + b.width ≤ c.x) : b.Apart c := by
  intro px py hcovers
  obtain ⟨⟨-, hb, -⟩, hc, -⟩ := hcovers
  omega

theorem apart_of_ge {b c : WidgetBase} (h : c.x + c.width ≤ b.x) : b.Apart c := by
  intro px py hcovers
  exact apart_of_le h px py hcovers.symm

theorem pairwise_toList {α : Type} {R : α → α → Prop} (o : Option α) : o.toList.Pairwise R := by
  cases o <;> simp

/-- What lies inside the title bar and apart, part by part. -/
theorem placed_of (hl : t.label.base.Inside t.base)
    (hc : ∀ b ∈ t.close, b.base.Inside t.base ∧ t.label.base.Apart b.base)
    (hs : ∀ b ∈ t.showHide, b.base.Inside t.base ∧ t.label.base.Apart b.base)
    (hcs : ∀ b ∈ t.close, ∀ d ∈ t.showHide, b.base.Apart d.base) : t.Placed := by
  constructor
  · simp only [List.forall_mem_cons, Title.buttons, List.forall_mem_append, Option.mem_toList]
    exact ⟨hl, fun b hb => (hc b hb).1, fun b hb => (hs b hb).1⟩
  · simp only [List.pairwise_cons, Title.buttons, List.pairwise_append, List.mem_append,
      Option.mem_toList, pairwise_toList, true_and]
    exact ⟨fun b hb => hb.elim (fun hb => (hc b hb).2) fun hb => (hs b hb).2, hcs⟩

/-- **A title bar that is wide enough** can be drawn. -/
theorem Laid.placed_lined (h : Laid text buttons width t) (hline : 10 ∉ text) (hw : width < 2 ^ 31)
    (hneed : 8 * TitledWindow.glyphs text + 20 +
      (if buttons.testBit 0 ∨ buttons.testBit 1 then 30 else 0) ≤ width) : t.Placed ∧ t.Lined := by
  obtain ⟨hx, hy, hlw, hlh⟩ := h.glyph_size hline hw
  have hwidth := h.width_eq
  have hheight := h.height_eq
  rw [HEIGHT] at hheight
  rw [Int.tdiv_eq_ediv_of_nonneg (by omega)] at hx
  have hl := leftEnd_eq h
  have hr := rightEnd_eq h
  have hclose := h.close
  have hshow := h.showHide
  rw [i32_natCast hw] at hshow
  -- on the left of the label there is a button and two margins, and on the right as much
  have hleft : 10 ≤ t.label.base.x - t.leftEnd := by
    rw [hl]
    split_ifs at hneed ⊢ <;> simp_all <;> omega
  have hright : 10 ≤ t.label.base.x - t.rightEnd := by
    rw [hr]
    split_ifs at hneed ⊢ <;> simp_all <;> omega
  have hends : 0 ≤ t.leftEnd ∧ 0 ≤ t.rightEnd := by
    rw [hl, hr]
    constructor <;> split <;> decide
  constructor
  · apply placed_of
    · unfold WidgetBase.Inside
      omega
    · intro b hb
      obtain ⟨-, hc⟩ | ⟨h0, b', hc, hbx, hby, hbw, hbh⟩ := hclose
      · simp [hc] at hb
      · obtain rfl : b' = b := Option.some.inj (hc.symm.trans hb)
        rw [h0, if_pos rfl] at hl
        refine ⟨?_, apart_of_ge (by omega)⟩
        unfold WidgetBase.Inside
        omega
    · intro b hb
      obtain ⟨-, hs⟩ | ⟨h1, b', hs, hbx, hby, hbw, hbh⟩ := hshow
      · simp [hs] at hb
      · obtain rfl : b' = b := Option.some.inj (hs.symm.trans hb)
        rw [h1, if_pos rfl] at hr
        refine ⟨?_, apart_of_le (by omega)⟩
        unfold WidgetBase.Inside
        omega
    · intro b hb d hd
      obtain ⟨-, hc⟩ | ⟨h0, b', hc, hbx, -, hbw, -⟩ := hclose
      · simp [hc] at hb
      · obtain ⟨-, hs⟩ | ⟨h1, d', hs, hdx, -⟩ := hshow
        · simp [hs] at hd
        · obtain rfl : b' = b := Option.some.inj (hc.symm.trans hb)
          obtain rfl : d' = d := Option.some.inj (hs.symm.trans hd)
          rw [h0, if_pos rfl] at hl
          exact apart_of_le (by omega)
  · refine ⟨fun ui absx absy w hmem => ?_, hleft, hright⟩
    have hfirst := sub32_wrap_ten hleft (by omega)
    have hsecond := sub32_wrap_ten hright (by omega)
    rw [repeatedWidths_draw] at hmem
    simp only [List.mem_cons, List.not_mem_nil, or_false] at hmem
    obtain hw | hw := hmem
    · omega
    · omega

end Title

/-! ## presented windows -/

namespace TitledWindow

variable {r : TitledWindow} {w : CrepeWindow} {mwidth : Nat}

/-- The width of the title bar, from its minimum width. -/
def bar (r : TitledWindow) (mwidth : Nat) : Nat :=
  sub32
    (max (u32 (max mwidth (r.window.childSize WidgetBase.mwidth) + 6 * r.decorations.toNat)) r.mwidth)
    (6 * r.decorations.toNat)

/-- What the title bar asks for itself does not matter. -/
theorem bar_iff (mwidth : Nat) (hmw : mwidth < r.needs) :
    r.needs ≤ r.bar mwidth ∧ r.bar mwidth < 2 ^ 31 ↔ r.needs + 6 * r.decorations.toNat ≤ r.asked ∧
      r.asked < 2 ^ 31 + 6 * r.decorations.toNat := by
  have hlt := r.mwidth_lt
  have hchild : r.window.childSize WidgetBase.mwidth < 2 ^ 32 := by
    unfold CrepeWindow.childSize
    split
    · decide
    · exact u32_lt _
  have hd : r.decorations.toNat ≤ 1 := Bool.toNat_le _
  unfold bar asked
  generalize r.window.childSize WidgetBase.mwidth = c at hchild
  generalize r.decorations.toNat = d at hd
  rw [sub32, u32, u32, u32, u32]
  omega

/-- A widget tree asks for its exact width. -/
theorem childSize_tree {v : Widget} (hv : r.widget = some v.sizes) (hsmall : v.Small) :
    r.window.childSize WidgetBase.mwidth = v.exact.1 + 4 * r.decorations.toNat := by
  have hd : r.decorations.toNat ≤ 1 := Bool.toNat_le _
  have hm := (measured v hsmall).1
  have hlt := hsmall.1
  have hchild : r.window.childSize WidgetBase.mwidth =
      u32 ((minimumSize v).base.mwidth + 4 * r.decorations.toNat) := by
    simp only [CrepeWindow.childSize, window, hv]
    rfl
  rw [hchild, hm, u32_of_lt (by omega)]

theorem present_eq (hmin : (Title.new r.text r.buttons).minimumSize =
    some (Title.measured r.text r.buttons mwidth)) :
    ∃ f : Title → CrepeWindow, (∀ t, ∃ x, (f t).title = some { t with base := t.base.at x x }) ∧
      r.window.present =
        ((Title.measured r.text r.buttons mwidth).finalSize (r.bar mwidth)).map f := by
  have hwindow : r.window.minimumSize = some (r.window.withMinimum
      (some (Title.measured r.text r.buttons mwidth)) mwidth Title.HEIGHT CHILD_BORDER_START) := by
    simp only [CrepeWindow.minimumSize, window, hmin]
    rfl
  refine ⟨_, ?_, by
    rw [CrepeWindow.present, hwindow, Option.bind_some, CrepeWindow.finalSize]
    rfl⟩
  intro t
  exact ⟨_, rfl⟩

/-- **Once a window is presented** its title bar is laid out in its width. -/
theorem exists_present (hfit : Title.Fits r.text) :
    ∃ mwidth < 20 + (if r.buttons.testBit 0 ∨ r.buttons.testBit 1 then 30 else 0),
      (∀ w, r.window.present = some w →
        ∃ t, w.title = some t ∧ Title.Laid r.text r.buttons (r.bar mwidth) t) ∧
      (r.bar mwidth < 2 ^ 31 → ∃ w, r.window.present = some w) := by
  obtain ⟨mwidth, hlt, hmin⟩ := Title.minimumSize_new r.buttons hfit
  obtain ⟨f, hf, hpresent⟩ := present_eq hmin
  refine ⟨mwidth, hlt, fun w hw => ?_, fun hbar => ?_⟩
  · rw [hpresent] at hw
    obtain ⟨t, ht, rfl⟩ := Option.map_eq_some_iff.mp hw
    obtain ⟨x, hx⟩ := hf t
    exact ⟨_, hx, (Title.laid_of_finalSize hfit ht).at x x⟩
  · obtain ⟨t, ht⟩ := Title.exists_finalSize mwidth hfit hbar
    exact ⟨f t, by rw [hpresent, ht, Option.map_some]⟩

theorem fits_of_present (h : r.window.present = some w) : Title.Fits r.text := by
  cases hmin : (Title.new r.text r.buttons).minimumSize with
  | none => simp [CrepeWindow.present, CrepeWindow.minimumSize, window, hmin] at h
  | some t => exact Title.fits_of_minimumSize hmin

/-- A window that shows its title bar is asked to be wide. -/
theorem wide_of_shows (h : r.Shows) : r.Wide := by
  obtain ⟨w, t, hw, ht, hplaced, hlined⟩ := h
  obtain ⟨mwidth, hlt, hlaid, -⟩ := exists_present (fits_of_present hw)
  obtain ⟨t', ht', hlaid⟩ := hlaid w hw
  obtain rfl : t' = t := Option.some.inj (ht'.symm.trans ht)
  obtain ⟨hline, hbar, hneed⟩ := hlaid.wide (sub32_lt _ _) hplaced hlined
  have hmw : mwidth < r.needs := by
    unfold needs
    omega
  obtain ⟨hle, hasked⟩ := (bar_iff mwidth hmw).mp ⟨hneed, hbar⟩
  exact ⟨hline, hle, hasked⟩

theorem shows_of_wide (h : r.Wide) : r.Shows := by
  obtain ⟨hline, hle, hasked⟩ := h
  have hneeds : 8 * glyphs r.text + 20 +
      (if r.buttons.testBit 0 ∨ r.buttons.testBit 1 then 30 else 0) = r.needs := rfl
  have hfit : Title.Fits r.text := by
    rw [Title.Fits, textSize_of_line hline]
    dsimp only
    omega
  obtain ⟨mwidth, hlt, hlaid, hsome⟩ := exists_present hfit
  obtain ⟨hneed, hbar⟩ := (bar_iff mwidth (by omega)).mpr ⟨hle, hasked⟩
  obtain ⟨w, hw⟩ := hsome hbar
  obtain ⟨t, ht, hlaid⟩ := hlaid w hw
  obtain ⟨hplaced, hlined⟩ := hlaid.placed_lined hline hbar hneed
  exact ⟨w, t, hw, ht, hplaced, hlined⟩

/-- **The title bar is laid out** exactly if the window is asked to be wide
enough for it. -/
theorem shows_iff (r : TitledWindow) : r.Shows ↔ r.Wide := ⟨wide_of_shows, shows_of_wide⟩

/-- `Login`, in a window without a size of its own. -/
def login : TitledWindow where
  text := [76, 111, 103, 105, 110]
  buttons := 0
  mwidth := 0
  mheight := 0
  decorations := true
  widget := none
  mwidth_lt := by decide

/-- **A small window** has no room for its title, and the lines beside the
title have a width that is wrapped. -/
theorem not_shows : (¬∀ r : TitledWindow, r.Shows) ∧
    (login.window.present.bind CrepeWindow.title).map
      (fun t => Title.repeatedWidths (t.draw 0 0 0)) = some [4294967271, 4294967271] := by
  constructor
  · intro h
    have hle := (wide_of_shows (h login)).needs_le
    exact absurd hle (by decide)
  · decide +kernel

end TitledWindow

end Eclair
