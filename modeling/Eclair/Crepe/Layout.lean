import Mathlib.Data.List.Chain
import Mathlib.Data.List.Forall2
import Eclair.Crepe.Widget

/-!
# Eclair.Crepe.Layout

What `crepe_widget_final_size` makes of a widget tree: every widget gets its
minimum size, and children lie inside their parents and apart from each
other.

`Widget.exact` is the minimum size without a bound on the numbers.  As long
as it stays below 2^31, `size_t` and `int` hold every sum on the way.
-/

namespace Eclair

/-! ## the layout -/

/-- The final size is the minimum size. -/
def WidgetBase.Final (b : WidgetBase) : Prop := b.width = b.mwidth ∧ b.height = b.mheight

/-- The rectangle of a child lies inside its parent's. -/
def WidgetBase.Inside (b parent : WidgetBase) : Prop :=
  0 ≤ b.x ∧ b.x + b.width ≤ parent.width ∧ 0 ≤ b.y ∧ b.y + b.height ≤ parent.height

/-- The unit at `px`, `py` is in the rectangle. -/
def WidgetBase.Covers (b : WidgetBase) (px py : Int) : Prop :=
  b.x ≤ px ∧ px < b.x + b.width ∧ b.y ≤ py ∧ py < b.y + b.height

/-- The rectangles are disjoint. -/
def WidgetBase.Apart (b c : WidgetBase) : Prop := ∀ px py, ¬(b.Covers px py ∧ c.Covers px py)

/-- `SPACING` units lie between the widgets. -/
def WidgetBase.Neighbours (o : Orientation) (b c : WidgetBase) : Prop :=
  o.pick c.x c.y = o.pick b.x b.y + o.pick b.width b.height + SPACING

/-- A tree that is laid out. -/
inductive Widget.LaidOut : Widget → Prop
  | box {base : WidgetBase} {o : Orientation} {items : List Widget} (hf : base.Final)
      (hitems : ∀ w ∈ items, w.LaidOut) (hin : ∀ w ∈ items, w.base.Inside base)
      (hapart : items.Pairwise fun v w => v.base.Apart w.base)
      (hnext : items.IsChain fun v w => WidgetBase.Neighbours o v.base w.base) :
      LaidOut (.box base o items)
  | margin {base : WidgetBase} {left right top bottom : Nat} {widget : Widget} (hf : base.Final)
      (hw : widget.LaidOut) (hin : widget.base.Inside base) :
      LaidOut (.margin base left right top bottom (some widget))
  | label {base : WidgetBase} {style : TextStyle} {text : Bytes} (hf : base.Final) :
      LaidOut (.label base style text)
  | button {base : WidgetBase} {style : ButtonStyle} (hf : base.Final) :
      LaidOut (.button base style none)

/-- Margins have a child, and buttons none. -/
inductive Widget.Plain : Widget → Prop
  | box {base : WidgetBase} {o : Orientation} {items : List Widget}
      (hitems : ∀ w ∈ items, w.Plain) : Plain (.box base o items)
  | margin {base : WidgetBase} {left right top bottom : Nat} {widget : Widget}
      (hw : widget.Plain) : Plain (.margin base left right top bottom (some widget))
  | label {base : WidgetBase} {style : TextStyle} {text : Bytes} : Plain (.label base style text)
  | button {base : WidgetBase} {style : ButtonStyle} : Plain (.button base style none)

mutual

/-- The minimum size, without a bound. -/
def Widget.exact : Widget → Nat × Nat
  | .box _ o items =>
      let r := exactItems o true items
      (o.pick r.1 r.2, o.pick r.2 r.1)
  | .margin _ left right top bottom none => (left + right, top + bottom)
  | .margin _ left right top bottom (some widget) =>
      (left + right + widget.exact.1, top + bottom + widget.exact.2)
  | .label _ style text => textSize style text
  | .button _ style _ => style.size

/-- What the items of a box take along it and across it. -/
def exactItems (o : Orientation) (first : Bool) : List Widget → Nat × Nat
  | [] => (0, 0)
  | item :: items =>
      let r := exactItems o false items
      (o.pick item.exact.1 item.exact.2 + spacing first + r.1,
        max (o.pick item.exact.2 item.exact.1) r.2)

end

example : (Widget.box {} .vertical [.button {} .normal none, .margin {} 1 2 3 4
    (some (.label {} {} [65]))]).exact = (71, 43) := by decide

/-! ## minimum sizes -/

section

variable (base : WidgetBase)

@[simp] theorem base_box (o : Orientation) (items : List Widget) :
    (Widget.box base o items).base = base := rfl

@[simp] theorem base_margin (left right top bottom : Nat) (widget : Option Widget) :
    (Widget.margin base left right top bottom widget).base = base := rfl

@[simp] theorem base_label (style : TextStyle) (text : Bytes) :
    (Widget.label base style text).base = base := rfl

@[simp] theorem base_button (style : ButtonStyle) (child : Option Widget) :
    (Widget.button base style child).base = base := rfl

end

variable {o : Orientation} {first : Bool} {items : List Widget} {w : Widget}

/-- What fits into the sizes of a box fits into those of an item. -/
theorem exact_le_exactItems (hw : w ∈ items) :
    o.pick w.exact.1 w.exact.2 ≤ (exactItems o first items).1 ∧
      o.pick w.exact.2 w.exact.1 ≤ (exactItems o first items).2 := by
  induction items generalizing first with
  | nil => contradiction
  | cons item items ih =>
      rw [exactItems]
      dsimp only
      obtain rfl | hw := List.mem_cons.mp hw
      · omega
      · have h := @ih false hw
        omega

/-- The minimum sizes that are calculated are exact. -/
def Widget.Measured (w : Widget) : Prop :=
  (minimumSize w).base.mwidth = w.exact.1 ∧ (minimumSize w).base.mheight = w.exact.2

/-- The exact sizes stay below 2^31. -/
def Widget.Small (w : Widget) : Prop := w.exact.1 < 2 ^ 31 ∧ w.exact.2 < 2 ^ 31

theorem boxMinimum_eq (adjacent opposite : Nat) (hm : ∀ w ∈ items, w.Measured)
    (hsum : adjacent + (exactItems o first items).1 < 2 ^ 32) :
    boxMinimum o first (minimumSizes items) adjacent opposite =
      (adjacent + (exactItems o first items).1, max opposite (exactItems o first items).2) := by
  induction items generalizing first adjacent opposite with
  | nil => simp [minimumSizes, boxMinimum, exactItems]
  | cons item items ih =>
      obtain ⟨hmw, hmh⟩ := hm item List.mem_cons_self
      rw [exactItems] at hsum ⊢
      dsimp only at hsum ⊢
      have hitem : u32 (o.pick item.exact.1 item.exact.2 + spacing first) =
          o.pick item.exact.1 item.exact.2 + spacing first := u32_of_lt (by omega)
      rw [minimumSizes, boxMinimum, hmw, hmh, hitem, u32_of_lt (by omega),
        ih _ _ (fun w hw => hm w (List.mem_cons_of_mem _ hw)) (by omega)]
      simp only [Nat.add_assoc, Nat.max_assoc]

/-- The items of a small box are small. -/
theorem small_item {base : WidgetBase} (h : (Widget.box base o items).Small) (hw : w ∈ items) :
    w.Small := by
  obtain ⟨h1, h2⟩ := @exact_le_exactItems o true _ _ hw
  unfold Widget.Small Widget.exact at h
  cases o <;> simp only [Orientation.pick] at h h1 h2 <;>
    exact ⟨by omega, by omega⟩

/-- The child of a small margin is small. -/
theorem small_child {base : WidgetBase} {left right top bottom : Nat}
    (h : (Widget.margin base left right top bottom (some w)).Small) : w.Small := by
  unfold Widget.Small Widget.exact at h
  exact ⟨by omega, by omega⟩

mutual

/-- **Minimum sizes** of a small tree are exact. -/
theorem measured : ∀ w : Widget, w.Small → w.Measured
  | .box base o items, h => by
      have hitems := measured_items items fun w hw => small_item h hw
      have hsum : 0 + (exactItems o true items).1 < 2 ^ 32 := by
        unfold Widget.Small Widget.exact at h
        cases o <;> simp only [Orientation.pick] at h <;> omega
      have hbox := boxMinimum_eq 0 0 hitems hsum
      rw [Nat.zero_add, Nat.zero_max] at hbox
      simp [Widget.Measured, minimumSize, Widget.exact, hbox]
  | .margin base left right top bottom none, h => by
      unfold Widget.Small Widget.exact at h
      simp only [Widget.Measured, minimumSize, Widget.exact, base_margin]
      exact ⟨u32_of_lt (by omega), u32_of_lt (by omega)⟩
  | .margin base left right top bottom (some widget), h => by
      obtain ⟨hw, hh⟩ := measured widget (small_child h)
      unfold Widget.Small Widget.exact at h
      dsimp only at h
      have hlr : u32 (left + right) = left + right := u32_of_lt (by omega)
      have htb : u32 (top + bottom) = top + bottom := u32_of_lt (by omega)
      simp only [Widget.Measured, minimumSize, Widget.exact, base_margin, hlr, htb, hw, hh]
      exact ⟨u32_of_lt (by omega), u32_of_lt (by omega)⟩
  | .label base style text, _ => ⟨rfl, rfl⟩
  | .button base style none, _ => ⟨rfl, rfl⟩
  | .button base style (some child), _ => ⟨rfl, rfl⟩

theorem measured_items : ∀ items : List Widget, (∀ w ∈ items, w.Small) → ∀ w ∈ items, w.Measured
  | [], _ => nofun
  | item :: items, h => by
      have hitem := measured item (h item List.mem_cons_self)
      have hrest := measured_items items fun w hw => h w (List.mem_cons_of_mem _ hw)
      exact List.forall_mem_cons.mpr ⟨hitem, hrest⟩

end

/-! ## placing the items of a box -/

/-- A widget that has got its exact size, as `f`. -/
structure Widget.Done (w f : Widget) : Prop where
  laidOut : f.LaidOut
  width : f.base.width = w.exact.1
  height : f.base.height = w.exact.2

@[simp] theorem pick_horizontal {α : Type} (a b : α) : Orientation.horizontal.pick a b = a := rfl
@[simp] theorem pick_vertical {α : Type} (a b : α) : Orientation.vertical.pick a b = b := rfl

theorem pick_pick {α : Type} (a b c d : α) : o.pick (o.pick a b) (o.pick c d) = o.pick a d := by
  cases o <;> rfl

theorem pick_map {α β : Type} (f : α → β) (a b : α) : o.pick (f a) (f b) = f (o.pick a b) := by
  cases o <;> rfl

theorem pick_lt {a b n : Nat} (ha : a < n) (hb : b < n) : o.pick a b < n := by
  cases o <;> assumption

section

variable (b : WidgetBase) (x y : Int)

@[simp] theorem at_x : (b.at x y).x = x := rfl
@[simp] theorem at_y : (b.at x y).y = y := rfl
@[simp] theorem at_width : (b.at x y).width = b.width := rfl
@[simp] theorem at_height : (b.at x y).height = b.height := rfl

end

@[simp] theorem base_at (x y : Int) : (w.at x y).base = w.base.at x y := by cases w <;> rfl

/-- The position does not matter for the layout of a tree. -/
theorem Widget.LaidOut.at (h : w.LaidOut) (x y : Int) : (w.at x y).LaidOut := by
  cases h with
  | box hf hitems hin hapart hnext => exact .box hf hitems hin hapart hnext
  | margin hf hw hin => exact .margin hf hw hin
  | label hf => exact .label hf
  | button hf => exact .button hf

/-- An aligned item lies within the room that it has. -/
theorem alignOffset_bounds (a : Align) (space : Nat) (h : space < 2 ^ 31) :
    0 ≤ alignOffset a space ∧ alignOffset a space ≤ space := by
  have hu : u32 (a.value * space) = a.value * space := by
    apply u32_of_lt
    cases a <;> simp only [Align.value] <;> omega
  have hle : a.value * space / 2 ≤ space := by cases a <;> simp only [Align.value] <;> omega
  have hi : i32 (a.value * space / 2 : Nat) = (a.value * space / 2 : Nat) := by
    apply Int.bmod_eq_of_le <;> omega
  rw [alignOffset, hu, hi]
  omega

/-- Items in a row, from `position` on, within `opposite`. -/
def Row (o : Orientation) (opposite : Nat) : Int → List Widget → Prop
  | _, [] => True
  | position, w :: ws =>
      o.pick w.base.x w.base.y = position ∧
      0 ≤ o.pick w.base.y w.base.x ∧
      o.pick w.base.y w.base.x + o.pick w.base.height w.base.width ≤ opposite ∧
      Row o opposite (position + o.pick w.base.width w.base.height + SPACING) ws

/-- What the final sizes of items take along a box. -/
def rowLength (o : Orientation) : List Widget → Nat
  | [] => 0
  | [w] => o.pick w.base.width w.base.height
  | w :: ws => o.pick w.base.width w.base.height + SPACING + rowLength o ws

theorem rowLength_cons_cons (v : Widget) (ws : List Widget) :
    rowLength o (w :: v :: ws) =
      o.pick w.base.width w.base.height + SPACING + rowLength o (v :: ws) := rfl

/-- The item across the box. -/
theorem alignOffset_sub (a : Align) {opposite size : Nat} (h : size ≤ opposite)
    (hopp : opposite < 2 ^ 31) :
    0 ≤ alignOffset a (sub32 opposite size) ∧
      alignOffset a (sub32 opposite size) + size ≤ opposite := by
  rw [sub32_of_le h (by omega)]
  have hbounds := alignOffset_bounds a (opposite - size) (by omega)
  omega

section

variable {opposite : Nat} {position : Int}

theorem at_along (position x y : Int) :
    o.pick (w.at (o.pick position x) (o.pick y position)).base.x
      (w.at (o.pick position x) (o.pick y position)).base.y = position := by
  cases o <;> simp

theorem at_across (position x y : Int) :
    o.pick (w.at (o.pick position x) (o.pick y position)).base.y
      (w.at (o.pick position x) (o.pick y position)).base.x = o.pick y x := by
  cases o <;> simp

theorem placeItem_along :
    o.pick (placeItem o opposite position w).base.x (placeItem o opposite position w).base.y =
      position := by
  rw [placeItem, at_along]

theorem placeItem_across (position : Int) (hw : o.pick w.base.height w.base.width ≤ opposite)
    (hopp : opposite < 2 ^ 31) :
    0 ≤ o.pick (placeItem o opposite position w).base.y (placeItem o opposite position w).base.x ∧
      o.pick (placeItem o opposite position w).base.y (placeItem o opposite position w).base.x +
        o.pick w.base.height w.base.width ≤ opposite := by
  rw [placeItem, at_across]
  cases o with
  | horizontal =>
      rw [pick_horizontal] at hw
      rw [pick_horizontal, pick_horizontal]
      exact alignOffset_sub _ hw hopp
  | vertical =>
      rw [pick_vertical] at hw
      rw [pick_vertical, pick_vertical]
      exact alignOffset_sub _ hw hopp

theorem placeItem_size :
    (placeItem o opposite position w).base.width = w.base.width ∧
      (placeItem o opposite position w).base.height = w.base.height := by
  rw [placeItem, base_at, at_width, at_height]
  exact ⟨rfl, rfl⟩

/-- **The items of a box** are placed in a row. -/
theorem row_placeItems (hopp : opposite < 2 ^ 31) (hpos : 0 ≤ position)
    (hlen : position + rowLength o items < 2 ^ 31)
    (hitems : ∀ w ∈ items, o.pick w.base.height w.base.width ≤ opposite) :
    Row o opposite position (placeItems o opposite position items) := by
  induction items generalizing position with
  | nil => trivial
  | cons w ws ih =>
      have hw := hitems w List.mem_cons_self
      have hrest : Row o opposite (position + o.pick w.base.width w.base.height + SPACING)
          (placeItems o opposite
            (i32 (position + o.pick w.base.width w.base.height + SPACING)) ws) := by
        cases ws with
        | nil => trivial
        | cons v vs =>
            rw [rowLength_cons_cons] at hlen
            have hwrap : i32 (position + o.pick w.base.width w.base.height + SPACING) =
                position + o.pick w.base.width w.base.height + SPACING := by
              apply Int.bmod_eq_of_le <;> omega
            rw [hwrap]
            exact ih (by omega) (by omega) fun u hu => hitems u (List.mem_cons_of_mem _ hu)
      obtain ⟨hwidth, hheight⟩ := @placeItem_size o w opposite position
      have hacross := placeItem_across position hw hopp
      rw [placeItems, Row, placeItem_along, hwidth, hheight]
      exact ⟨rfl, hacross.1, hacross.2, hrest⟩

end

/-- A position behind another in a row. -/
theorem Row.le {opposite : Nat} {position : Int} (h : Row o opposite position items)
    (hw : w ∈ items) :
    position ≤ o.pick w.base.x w.base.y ∧
      o.pick w.base.x w.base.y + o.pick w.base.width w.base.height ≤
        position + rowLength o items ∧
      0 ≤ o.pick w.base.y w.base.x ∧
      o.pick w.base.y w.base.x + o.pick w.base.height w.base.width ≤ opposite := by
  induction items generalizing position with
  | nil => contradiction
  | cons v vs ih =>
      obtain ⟨hpos, hlow, hhigh, hrest⟩ := h
      obtain rfl | hw := List.mem_cons.mp hw
      · have hlen : o.pick w.base.width w.base.height ≤ rowLength o (w :: vs) := by
          cases vs with
          | nil => exact Nat.le_refl _
          | cons u us =>
              rw [rowLength_cons_cons]
              omega
        omega
      · have hin := ih hrest hw
        have hlen : rowLength o (v :: vs) =
            o.pick v.base.width v.base.height + SPACING + rowLength o vs := by
          cases vs with
          | nil => contradiction
          | cons u us => rfl
        omega

/-- **Items in a row** are apart, and next to each other. -/
theorem Row.apart {opposite : Nat} {position : Int} (h : Row o opposite position items) :
    items.Pairwise (fun v w => v.base.Apart w.base) ∧
      items.IsChain (fun v w => WidgetBase.Neighbours o v.base w.base) := by
  induction items generalizing position with
  | nil => exact ⟨.nil, .nil⟩
  | cons v vs ih =>
      obtain ⟨hpos, -, -, hrest⟩ := h
      obtain ⟨hpair, hchain⟩ := ih hrest
      refine ⟨List.pairwise_cons.mpr ⟨fun w hw px py => ?_, hpair⟩, ?_⟩
      · have hle := (hrest.le hw).1
        simp only [WidgetBase.Covers]
        cases o <;> simp only [pick_horizontal, pick_vertical] at hpos hle <;> omega
      · cases vs with
        | nil => exact .singleton _
        | cons w ws =>
            refine .cons_cons ?_ hchain
            rw [WidgetBase.Neighbours, hpos]
            exact hrest.1

/-! ## final sizes -/

/-- With room for its minimum size, `w` gets it. -/
def Widget.Fills (w : Widget) : Prop :=
  ∀ bwidth bheight, w.exact.1 ≤ bwidth → bwidth < 2 ^ 32 → w.exact.2 ≤ bheight →
    bheight < 2 ^ 32 → w.Done (finalSize (minimumSize w) bwidth bheight)

/-- **The loop over the items** never stops early. -/
theorem finalItems_spec {bwidth bheight : Nat} (adjacent opposite : Nat)
    (hfills : ∀ w ∈ items, w.Fills) (hm : ∀ w ∈ items, w.Measured)
    (hadj : (exactItems o first items).1 ≤ o.pick bwidth bheight)
    (hopp : (exactItems o first items).2 ≤ o.pick bheight bwidth)
    (hbw : bwidth < 2 ^ 32) (hbh : bheight < 2 ^ 32)
    (hsum : adjacent + (exactItems o first items).1 < 2 ^ 32) :
    ∃ fs, List.Forall₂ Widget.Done items fs ∧
      finalItems o first (minimumSizes items) bwidth bheight adjacent opposite =
        (fs, adjacent + (exactItems o first items).1,
          max opposite (exactItems o first items).2) := by
  induction items generalizing first bwidth bheight adjacent opposite with
  | nil => exact ⟨[], .nil, by simp [minimumSizes, finalItems, exactItems]⟩
  | cons w ws ih =>
      obtain ⟨hmw, hmh⟩ := hm w List.mem_cons_self
      rw [exactItems] at hadj hopp hsum ⊢
      dsimp only at hadj hopp hsum ⊢
      have hused : u32 (o.pick w.exact.1 w.exact.2 + spacing first) =
          o.pick w.exact.1 w.exact.2 + spacing first := u32_of_lt (by omega)
      have hfit : w.exact.1 ≤ bwidth ∧ w.exact.2 ≤ bheight := by
        cases o <;> simp only [pick_horizontal, pick_vertical] at hadj hopp <;> omega
      have hw := hfills w List.mem_cons_self bwidth bheight hfit.1 hbw hfit.2 hbh
      have hsize : o.pick (finalSize (minimumSize w) bwidth bheight).base.width
          (finalSize (minimumSize w) bwidth bheight).base.height =
            o.pick w.exact.1 w.exact.2 := by rw [hw.width, hw.height]
      have hacross : o.pick (finalSize (minimumSize w) bwidth bheight).base.height
          (finalSize (minimumSize w) bwidth bheight).base.width =
            o.pick w.exact.2 w.exact.1 := by rw [hw.width, hw.height]
      rw [minimumSizes, finalItems, hmw, hmh, hused, if_neg (by omega)]
      dsimp only
      rw [hsize, hacross, hused]
      generalize o.pick w.exact.1 w.exact.2 + spacing first = used at hadj hsum hused ⊢
      have hbounds := @pick_lt o _ _ _ hbw hbh
      have hleft : o.pick (o.pick (sub32 bwidth used) bwidth) (o.pick bheight (sub32 bheight used)) =
          o.pick bwidth bheight - used := by
        rw [pick_pick, pick_map (sub32 · used), sub32_of_le (by omega) hbounds]
      have hsame : o.pick (o.pick bheight (sub32 bheight used)) (o.pick (sub32 bwidth used) bwidth) =
          o.pick bheight bwidth := pick_pick _ _ _ _
      have hbw' : o.pick (sub32 bwidth used) bwidth < 2 ^ 32 := pick_lt (sub32_lt _ _) hbw
      have hbh' : o.pick bheight (sub32 bheight used) < 2 ^ 32 := pick_lt hbh (sub32_lt _ _)
      obtain ⟨fs, hfs, hrest⟩ := @ih false _ _ (adjacent + used)
        (max opposite (o.pick w.exact.2 w.exact.1)) (fun w hw => hfills w (.tail _ hw))
        (fun w hw => hm w (.tail _ hw)) (by rw [hleft]; omega) (by rw [hsame]; omega) hbw' hbh'
        (by omega)
      refine ⟨finalSize (minimumSize w) bwidth bheight :: fs, .cons hw hfs, ?_⟩
      rw [u32_of_lt (by omega), hrest]
      simp only [Nat.add_assoc, Nat.max_assoc]

section

variable {fs : List Widget}

/-- What the final sizes of items add up to. -/
theorem exactItems_eq (h : List.Forall₂ Widget.Done items fs) (hne : items ≠ []) :
    (exactItems o first items).1 = spacing first + rowLength o fs := by
  induction h generalizing first with
  | nil => contradiction
  | cons hw hrest ih =>
      rw [exactItems]
      dsimp only
      rw [← hw.width, ← hw.height]
      cases hrest with
      | nil =>
          simp only [exactItems, rowLength]
          omega
      | cons hv hvs =>
          rw [ih (by simp), rowLength_cons_cons, spacing, spacing]
          simp only [Bool.false_eq_true, if_false]
          omega

theorem rowLength_eq (h : List.Forall₂ Widget.Done items fs) :
    rowLength o fs = (exactItems o true items).1 := by
  cases h with
  | nil => rfl
  | cons hw hrest =>
      rw [exactItems_eq (.cons hw hrest) (by simp), spacing, if_pos rfl, Nat.zero_add]

theorem done_of_mem (h : List.Forall₂ Widget.Done items fs) {f : Widget} (hf : f ∈ fs) :
    ∃ w ∈ items, w.Done f := by
  induction h with
  | nil => contradiction
  | cons hw hrest ih =>
      obtain rfl | hf := List.mem_cons.mp hf
      · exact ⟨_, List.mem_cons_self, hw⟩
      · obtain ⟨w, hmem, hd⟩ := ih hf
        exact ⟨w, List.mem_cons_of_mem _ hmem, hd⟩

variable {opposite : Nat} {position : Int}

theorem mem_placeItems (hw : w ∈ placeItems o opposite position items) :
    ∃ v ∈ items, ∃ p, w = placeItem o opposite p v := by
  induction items generalizing position with
  | nil => contradiction
  | cons v vs ih =>
      rw [placeItems] at hw
      obtain rfl | hw := List.mem_cons.mp hw
      · exact ⟨v, List.mem_cons_self, _, rfl⟩
      · obtain ⟨u, hu, hp⟩ := ih hw
        exact ⟨u, List.mem_cons_of_mem _ hu, hp⟩

theorem rowLength_placeItems :
    rowLength o (placeItems o opposite position items) = rowLength o items := by
  induction items generalizing position with
  | nil => rfl
  | cons v vs ih =>
      obtain ⟨hwidth, hheight⟩ := @placeItem_size o v opposite position
      cases vs with
      | nil => rw [placeItems, placeItems, rowLength, rowLength, hwidth, hheight]
      | cons u us =>
          have hrest := @ih (i32 (position + o.pick v.base.width v.base.height + SPACING))
          rw [placeItems] at hrest
          rw [placeItems, placeItems, rowLength_cons_cons, rowLength_cons_cons, hwidth, hheight,
            hrest]

end

/-- The box case. -/
theorem fills_box {base : WidgetBase} (hfills : ∀ w ∈ items, w.Fills)
    (hsmall : (Widget.box base o items).Small) : (Widget.box base o items).Fills := by
  intro bwidth bheight hw hbw hh hbh
  have hm := measured_items items fun w hw => small_item hsmall hw
  obtain ⟨hmw, hmh⟩ := measured _ hsmall
  have hsmall' : (exactItems o true items).1 < 2 ^ 31 ∧ (exactItems o true items).2 < 2 ^ 31 := by
    unfold Widget.Small Widget.exact at hsmall
    cases o <;> simp only [pick_horizontal, pick_vertical] at hsmall <;> omega
  have hroom : (exactItems o true items).1 ≤ o.pick bwidth bheight ∧
      (exactItems o true items).2 ≤ o.pick bheight bwidth := by
    unfold Widget.exact at hw hh
    cases o <;> simp only [pick_horizontal, pick_vertical] at hw hh ⊢ <;> omega
  obtain ⟨fs, hfs, hrun⟩ := finalItems_spec 0 0 hfills hm hroom.1 hroom.2 hbw hbh (by omega)
  rw [Nat.zero_add, Nat.zero_max] at hrun
  have hlen : rowLength o fs = (exactItems o true items).1 := rowLength_eq hfs
  have hrow := @row_placeItems o fs (exactItems o true items).2 0 hsmall'.2 (by omega)
    (by omega) fun f hf => by
      obtain ⟨w, hw, hd⟩ := done_of_mem hfs hf
      rw [hd.width, hd.height]
      exact (exact_le_exactItems hw).2
  unfold Widget.exact at hmw hmh
  simp only [minimumSize, base_box] at hmw hmh
  simp only [minimumSize, finalSize, hrun]
  refine ⟨.box ⟨hmw.symm, hmh.symm⟩ (fun w hw => ?_) (fun w hw => ?_) hrow.apart.1 hrow.apart.2,
    rfl, rfl⟩
  · obtain ⟨f, hf, p, rfl⟩ := mem_placeItems hw
    obtain ⟨v, -, hd⟩ := done_of_mem hfs hf
    exact hd.laidOut.at _ _
  · have hle := hrow.le hw
    rw [rowLength_placeItems, hlen] at hle
    simp only [WidgetBase.Inside]
    cases o <;> simp only [pick_horizontal, pick_vertical] at hle ⊢ <;> omega

theorem inside_margin {b parent : WidgetBase} {left right top bottom : Nat}
    (hw : parent.width = left + right + b.width) (hh : parent.height = top + bottom + b.height) :
    (b.at left top).Inside parent := by
  simp only [WidgetBase.Inside, at_x, at_y, at_width, at_height, hw, hh]
  omega

/-- The margin case. -/
theorem fills_margin {base : WidgetBase} {left right top bottom : Nat} (hfills : w.Fills)
    (hsmall : (Widget.margin base left right top bottom (some w)).Small) :
    (Widget.margin base left right top bottom (some w)).Fills := by
  intro bwidth bheight hw hbw hh hbh
  obtain ⟨hmw, hmh⟩ := measured _ hsmall
  unfold Widget.Small Widget.exact at hsmall
  unfold Widget.exact at hw hh hmw hmh
  dsimp only at hsmall hw hh
  have hdone := hfills (bwidth - (left + right)) (bheight - (top + bottom))
    (by clear hmw hmh; omega) (by clear hmw hmh; omega) (by clear hmw hmh; omega)
    (by clear hmw hmh; omega)
  have hlr : u32 (left + right) = left + right := u32_of_lt (by omega)
  have htb : u32 (top + bottom) = top + bottom := u32_of_lt (by omega)
  have hleft : i32 left = left := by apply Int.bmod_eq_of_le <;> omega
  have htop : i32 top = top := by apply Int.bmod_eq_of_le <;> omega
  simp only [minimumSize, base_margin] at hmw hmh
  simp only [minimumSize, finalSize]
  rw [hlr, htb, sub32_of_le (by omega) hbw, sub32_of_le (by omega) hbh, hleft, htop]
  rw [hlr] at hmw
  rw [htb] at hmh
  generalize finalSize (minimumSize w) (bwidth - (left + right)) (bheight - (top + bottom)) = f
    at hdone ⊢
  generalize u32 (left + right + (minimumSize w).base.mwidth) = mwidth at hmw ⊢
  generalize u32 (top + bottom + (minimumSize w).base.mheight) = mheight at hmh ⊢
  have hwidth : u32 (left + right + f.base.width) = left + right + w.exact.1 := by
    rw [hdone.width, u32_of_lt (by omega)]
  have hheight : u32 (top + bottom + f.base.height) = top + bottom + w.exact.2 := by
    rw [hdone.height, u32_of_lt (by omega)]
  rw [hwidth, hheight]
  refine ⟨.margin ⟨hmw.symm, hmh.symm⟩ (hdone.laidOut.at _ _) ?_, rfl, rfl⟩
  rw [base_at]
  exact inside_margin (by rw [hdone.width]) (by rw [hdone.height])

mutual

/-- **Final sizes** of a small tree that has room. -/
theorem fills : ∀ w : Widget, w.Plain → w.Small → w.Fills
  | .box base o items, hp, h => by
      cases hp with
      | box hitems => exact fills_box (fills_items items hitems fun w hw => small_item h hw) h
  | .margin base left right top bottom none, hp, _ => nomatch hp
  | .margin base left right top bottom (some widget), hp, h => by
      cases hp with
      | margin hw => exact fills_margin (fills widget hw (small_child h)) h
  | .label base style text, _, _ => by
      intro bwidth bheight _ _ _ _
      simp only [minimumSize, finalSize]
      exact ⟨.label ⟨rfl, rfl⟩, rfl, rfl⟩
  | .button base style none, _, _ => by
      intro bwidth bheight _ _ _ _
      simp only [minimumSize, finalSize]
      exact ⟨.button ⟨rfl, rfl⟩, rfl, rfl⟩
  | .button base style (some child), hp, _ => nomatch hp

theorem fills_items : ∀ items : List Widget, (∀ w ∈ items, w.Plain) → (∀ w ∈ items, w.Small) →
    ∀ w ∈ items, w.Fills
  | [], _, _ => nofun
  | item :: items, hp, h => by
      have hitem := fills item (hp item List.mem_cons_self) (h item List.mem_cons_self)
      have hrest := fills_items items (fun w hw => hp w (List.mem_cons_of_mem _ hw))
        fun w hw => h w (List.mem_cons_of_mem _ hw)
      exact List.forall_mem_cons.mpr ⟨hitem, hrest⟩

end

/-- **The layout** of a tree of boxes, margins with a child, labels and
buttons without one: if it is given at least its minimum size, every widget
gets its minimum size, and children lie inside their parents, apart from
each other, with `SPACING` units between neighbours. -/
theorem laidOut_finalSize (w : Widget) (hp : w.Plain) (hsmall : w.Small) {bwidth bheight : Nat}
    (hw : (minimumSize w).base.mwidth ≤ bwidth) (hbw : bwidth < 2 ^ 32)
    (hh : (minimumSize w).base.mheight ≤ bheight) (hbh : bheight < 2 ^ 32) :
    (finalSize (minimumSize w) bwidth bheight).LaidOut := by
  obtain ⟨hmw, hmh⟩ := measured w hsmall
  rw [hmw] at hw
  rw [hmh] at hh
  exact (fills w hp hsmall bwidth bheight hw hbw hh hbh).laidOut

/-- Two buttons above each other, the lower one with a margin. -/
def twoButtons : Widget :=
  .box {} .vertical [.button {} .normal none, .margin {} 2 2 2 2 (some (.button {} .close none))]

theorem laidOut_finalSize_twoButtons : (finalSize (minimumSize twoButtons) 100 50).LaidOut :=
  laidOut_finalSize twoButtons
    (.box fun _ hw => by
      rcases List.mem_pair.mp hw with rfl | rfl
      · exact .button
      · exact .margin .button)
    ⟨by decide, by decide⟩ (by decide) (by decide) (by decide) (by decide)

end Eclair
