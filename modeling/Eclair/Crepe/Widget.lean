import Eclair.Crepe.Draw

/-!
# Eclair.Crepe.Widget

The widget tree of `lib/crepe`: boxes, margins, labels and buttons, and how
their minimum and final sizes are calculated.

Sizes are `size_t`, so their sums are reduced by `u32`; positions are `int`.
A callback of `crepe_widget_ops_t` is a case of the function of its name.
-/

namespace Eclair

/-- `crepe_widget_align_t`. -/
inductive Align where
  | start
  | center
  | stop
  deriving DecidableEq

def Align.value : Align → Nat
  | .start => 0
  | .center => 1
  | .stop => 2

/-- The fields of `crepe_widget_t` that the layout uses. -/
structure WidgetBase where
  x : Int := 0
  y : Int := 0
  mwidth : Nat := 0
  mheight : Nat := 0
  width : Nat := 0
  height : Nat := 0
  halign : Align := .center
  valign : Align := .center

/-- `crepe_box_orientation_t`. -/
inductive Orientation where
  | horizontal
  | vertical

/-- What belongs to the orientation, out of a horizontal and a vertical value. -/
def Orientation.pick {α : Type} (o : Orientation) (a b : α) : α :=
  match o with
  | .horizontal => a
  | .vertical => b

/-- `crepe_button_style_t`. -/
inductive ButtonStyle where
  | normal
  | close
  | «show»
  | hide
  | icon
  | menu

/-- `stylesizes`. -/
def ButtonStyle.size : ButtonStyle → Nat × Nat
  | .normal => (71, 21)
  | .close | .show | .hide => (13, 13)
  | .icon => (48, 32)
  | .menu => (65, 15)

inductive Widget where
  | box (base : WidgetBase) (orientation : Orientation) (items : List Widget)
  | margin (base : WidgetBase) (left right top bottom : Nat) (widget : Option Widget)
  | label (base : WidgetBase) (style : TextStyle) (text : Bytes)
  | button (base : WidgetBase) (style : ButtonStyle) (child : Option Widget)

def Widget.base : Widget → WidgetBase
  | .box base .. | .margin base .. | .label base .. | .button base .. => base

/-- Set the position of a widget. -/
def WidgetBase.at (base : WidgetBase) (x y : Int) : WidgetBase := { base with x := x, y := y }

def Widget.at (x y : Int) : Widget → Widget
  | .box base o items => .box (base.at x y) o items
  | .margin base l r t b widget => .margin (base.at x y) l r t b widget
  | .label base style text => .label (base.at x y) style text
  | .button base style child => .button (base.at x y) style child

/-- `SPACING`. -/
def SPACING : Nat := 4

/-! ## minimum sizes -/

/-- The loop of `crepe_draw_context_text_size`.  Its sums stay below the
size that it returns. -/
def textSizeLoop (cw ch : Nat) : Bytes → Nat → Nat → Nat → Nat × Nat
  | [], w, h, mw => (if mw > w then mw else w, h)
  | c :: text, w, h, mw =>
      if c = 10 then textSizeLoop cw ch text (if mw > w then mw else w) (h + ch) 0
      else if 32 ≤ c ∧ c ≤ 126 then textSizeLoop cw ch text w h (mw + cw)
      else textSizeLoop cw ch text w h mw

/-- `crepe_draw_context_text_size`. -/
def textSize (style : TextStyle) (text : Bytes) : Nat × Nat :=
  textSizeLoop (fontSize style).1 (fontSize style).2 text 0 (fontSize style).2 0

/-- The spacing before an item of a box. -/
def spacing (first : Bool) : Nat := if first then 0 else SPACING

/-- The loop of a box over the minimum sizes of its items. -/
def boxMinimum (o : Orientation) : Bool → List Widget → Nat → Nat → Nat × Nat
  | _, [], adjacent, opposite => (adjacent, opposite)
  | first, item :: items, adjacent, opposite =>
      boxMinimum o false items
        (u32 (adjacent + u32 (o.pick item.base.mwidth item.base.mheight + spacing first)))
        (max opposite (o.pick item.base.mheight item.base.mwidth))

mutual

/-- `crepe_widget_minimum_size`. -/
def minimumSize : Widget → Widget
  | .box base o items =>
      let items := minimumSizes items
      let r := boxMinimum o true items 0 0
      .box { base with mwidth := o.pick r.1 r.2, mheight := o.pick r.2 r.1 } o items
  | .margin base left right top bottom none =>
      .margin { base with mwidth := u32 (left + right), mheight := u32 (top + bottom) }
        left right top bottom none
  | .margin base left right top bottom (some widget) =>
      let widget := minimumSize widget
      .margin { base with
          mwidth := u32 (u32 (left + right) + widget.base.mwidth)
          mheight := u32 (u32 (top + bottom) + widget.base.mheight) }
        left right top bottom (some widget)
  | .label base style text =>
      .label { base with mwidth := (textSize style text).1, mheight := (textSize style text).2 }
        style text
  | .button base style none =>
      .button { base with mwidth := style.size.1, mheight := style.size.2 } style none
  | .button base style (some child) =>
      .button { base with mwidth := style.size.1, mheight := style.size.2 } style
        (some (minimumSize child))

def minimumSizes : List Widget → List Widget
  | [] => []
  | item :: items => minimumSize item :: minimumSizes items

end

/-! ## final sizes -/

/-- Where an aligned item begins; the product is an `unsigned int`. -/
def alignOffset (a : Align) (space : Nat) : Int := i32 (u32 (a.value * space) / 2 : Nat)

/-- Position an item of a box. -/
def placeItem (o : Orientation) (opposite : Nat) (position : Int) (item : Widget) : Widget :=
  item.at
    (o.pick position (alignOffset item.base.halign (sub32 opposite item.base.width)))
    (o.pick (alignOffset item.base.valign (sub32 opposite item.base.height)) position)

/-- Position the items of a box. -/
def placeItems (o : Orientation) (opposite : Nat) : Int → List Widget → List Widget
  | _, [] => []
  | position, item :: items =>
      placeItem o opposite position item ::
        placeItems o opposite (i32 (position + o.pick item.base.width item.base.height + SPACING))
          items

/-- Where a child of a button begins. -/
def childOffset (a : Align) (size child : Nat) : Int :=
  (i32 (a.value * i32 ((size : Int) - child))).tdiv 2

mutual

/-- `crepe_widget_final_size`. -/
def finalSize : Widget → Nat → Nat → Widget
  | .box base o items, bwidth, bheight =>
      let r := finalItems o true items bwidth bheight 0 0
      .box { base with width := o.pick r.2.1 r.2.2, height := o.pick r.2.2 r.2.1 } o
        (placeItems o r.2.2 0 r.1)
  | .margin base left right top bottom none, _, _ =>
      .margin { base with width := u32 (left + right), height := u32 (top + bottom) }
        left right top bottom none
  | .margin base left right top bottom (some widget), bwidth, bheight =>
      let widget := finalSize widget (sub32 bwidth (u32 (left + right)))
        (sub32 bheight (u32 (top + bottom)))
      .margin { base with
          width := u32 (u32 (left + right) + widget.base.width)
          height := u32 (u32 (top + bottom) + widget.base.height) }
        left right top bottom (some (widget.at (i32 left) (i32 top)))
  | .label base style text, _, _ =>
      .label { base with width := base.mwidth, height := base.mheight } style text
  | .button base style none, _, _ =>
      .button { base with width := base.mwidth, height := base.mheight } style none
  | .button base style (some child), _, _ =>
      let child := finalSize child base.mwidth base.mheight
      .button { base with width := base.mwidth, height := base.mheight } style
        (some (child.at (childOffset child.base.halign base.mwidth child.base.width)
          (childOffset child.base.valign base.mheight child.base.height)))

/-- The loop of a box over the final sizes of its items: the items, and how
much room they take along the box and across it.  It stops at the first
item that has no room. -/
def finalItems (o : Orientation) (first : Bool) :
    List Widget → Nat → Nat → Nat → Nat → List Widget × Nat × Nat
  | [], _, _, adjacent, opposite => ([], adjacent, opposite)
  | item :: items, bwidth, bheight, adjacent, opposite =>
      if o.pick bwidth bheight < u32 (o.pick item.base.mwidth item.base.mheight + spacing first) then
        (item :: items, adjacent, opposite)
      else
        let item := finalSize item bwidth bheight
        let used := u32 (o.pick item.base.width item.base.height + spacing first)
        let r := finalItems o false items
          (o.pick (sub32 bwidth used) bwidth) (o.pick bheight (sub32 bheight used))
          (u32 (adjacent + used)) (max opposite (o.pick item.base.height item.base.width))
        (item :: r.1, r.2)

end

end Eclair
