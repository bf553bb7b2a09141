import Mathlib.Tactic.Linarith
import Eclair.Lib.System
import Eclair.Lib.Toggle
import Eclair.Wm.Draw

/-!
# Eclair.Wm.Screen

The pointer of the window manager (`bin/wm/screen.c`): `draw_cursor` inverts
the pixels of the cursor, `screen_process_event` moves it, and
`screen_begin` and `screen_end` take it away for an update of the screen.

The program begins and ends updates in pairs and handles no events between
them.  What is written inside a pair is arbitrary.
-/

namespace Eclair

/-- The bytes of the framebuffer. -/
abbrev Fbmem := Nat → UInt8

/-- `ecio_fbinfo_t`; `int` holds every offset into the framebuffer. -/
structure EcioFbinfo where
  width : Nat
  height : Nat
  pitch : Nat
  depthBytes : Nat
  /-- a row has room for its pixels -/
  row : width * depthBytes ≤ pitch

def CURSOR_HEIGHT : Nat := 11

def cursor : List Nat :=
  [0b10000000, 0b11000000, 0b11100000, 0b11110000, 0b11111000, 0b11111100, 0b11111110, 0b11111111,
    0b11111000, 0b10011100, 0b00001100]

/-- `(cursor[py] >> (uint8_t)(7-px)) & 0x1`. -/
def cursorBit (px py : Nat) : Nat := cursor.getD py 0 >>> ((7 - (px : Int)) % 256).toNat &&& 1

section

variable (fb : EcioFbinfo)

/-- The innermost loop of `draw_cursor`. -/
def xorPixel (x y : Int) (bit : Nat) (m : Fbmem) : Fbmem :=
  (List.range fb.depthBytes).foldl (fun m (i : Nat) =>
    let a := (y * fb.pitch + x * fb.depthBytes + i).toNat
    Function.update m a (m a ^^^ UInt8.ofNat (0xff * bit))) m

/-- The loop over the columns, from `px` on. -/
def cursorRow (x y : Int) (py : Nat) : Nat → Nat → Fbmem → Fbmem
  | 0, _, m => m
  | n + 1, px, m =>
      if x + px ≥ fb.width then m
      else cursorRow x y py n (px + 1) (xorPixel fb (x + px) (y + py) (cursorBit px py) m)

/-- The loop over the rows, from `py` on. -/
def cursorRows (x y : Int) : Nat → Nat → Fbmem → Fbmem
  | 0, _, m => m
  | n + 1, py, m =>
      if y + py ≥ fb.height then m
      else cursorRows x y n (py + 1) (cursorRow fb x y py CURSOR_HEIGHT 0 m)

/-- `draw_cursor`. -/
def drawCursor (x y : Int) (m : Fbmem) : Fbmem := cursorRows fb x y CURSOR_HEIGHT 0 m

end

/-- The framebuffer and the position of the cursor. -/
structure Screen where
  frame : Fbmem
  curx : Int
  cury : Int
  /-- ghost: what was written last -/
  content : Fbmem
  /-- ghost: between `screen_begin` and `screen_end` -/
  updating : Bool

inductive ScreenEvent where
  /-- `WM_EVENT_MOTION` -/
  | motion (x y : Int)
  | begin
  /-- a write to the screen image -/
  | write (f : Fbmem → Fbmem)
  | «end»

/-- A position that has moved, kept from 0 up to the size. -/
def moveCursor (cur move : Int) (size : Nat) : Int :=
  let cur := i32 (cur + move)
  let cur := if cur < 0 then 0 else cur
  if cur ≥ size then size else cur

section

variable (fb : EcioFbinfo)

/-- `screen_process_event` for a motion. -/
def processMotion (x y : Int) (s : Screen) : Screen :=
  let curx := moveCursor s.curx x fb.width
  let cury := moveCursor s.cury y fb.height
  { s with
    frame := drawCursor fb curx cury (drawCursor fb s.curx s.cury s.frame)
    curx := curx
    cury := cury }

/-- `screen_begin`, and `screen_end`. -/
def toggleCursor (s : Screen) : Screen := { s with frame := drawCursor fb s.curx s.cury s.frame }

/-- One event. -/
def ScreenEvent.next (s : Screen) : ScreenEvent → Option Screen
  | .motion x y => if s.updating then none else some (processMotion fb x y s)
  | .begin => if s.updating then none else some { toggleCursor fb s with updating := true }
  | .write f =>
      if s.updating then some { s with frame := f s.frame, content := f s.content } else none
  | .end => if s.updating then some { toggleCursor fb s with updating := false } else none

/-- The end of `screen_init`, with the framebuffer as it is found. -/
def screenInit (m : Fbmem) : Screen where
  frame := drawCursor fb (fb.width / 2 : Nat) (fb.height / 2 : Nat) m
  curx := (fb.width / 2 : Nat)
  cury := (fb.height / 2 : Nat)
  content := m
  updating := false

/-- The runs of the screen. -/
def screenSystem : System Screen ScreenEvent :=
  System.ofNext (fun s => ∃ m, s = screenInit fb m) (ScreenEvent.next fb)

/-! ## the cursor on the screen -/

/-- The byte belongs to the pixel. -/
def PixelByte (x y : Int) (a : Nat) : Prop :=
  ∃ i < fb.depthBytes, (a : Int) = y * fb.pitch + x * fb.depthBytes + i

/-- The byte belongs to a pixel of the row `py` of the cursor, from column `lo`
to before `hi`, that is on the screen. -/
def RowByte (x y : Int) (py lo hi : Nat) (a : Nat) : Prop :=
  ∃ px, lo ≤ px ∧ px < hi ∧ cursorBit px py = 1 ∧ x + px < fb.width ∧
    PixelByte fb (x + px) (y + py) a

/-- The byte belongs to a pixel of the cursor, from row `lo` to before `hi`,
that is on the screen. -/
def ShapeByte (x y : Int) (lo hi : Nat) (a : Nat) : Prop :=
  ∃ py, lo ≤ py ∧ py < hi ∧ y + py < fb.height ∧ RowByte fb x y py 0 CURSOR_HEIGHT a

/-- The byte belongs to the cursor at `x`, `y`, as far as it is on the
screen. -/
def CursorByte (x y : Int) (a : Nat) : Prop := ShapeByte fb x y 0 CURSOR_HEIGHT a

/-- `b ^ 0xff`. -/
def invert (b : UInt8) : UInt8 := b ^^^ 0xff

/-- The framebuffer shows the content, and outside of updates the cursor
inverts what is under it. -/
def PointerDrawn (s : Screen) : Prop :=
  0 ≤ s.curx ∧ s.curx ≤ fb.width ∧ 0 ≤ s.cury ∧ s.cury ≤ fb.height ∧
    s.frame = if s.updating then s.content else toggle invert (CursorByte fb s.curx s.cury) s.content

end

/-! ## drawing is toggling -/

variable {fb : EcioFbinfo} {x y x' y' : Int} {a : Nat} {m : Fbmem}

theorem invert_involutive : Function.Involutive invert := by
  intro b
  rw [invert, invert, UInt8.xor_assoc, UInt8.xor_self, UInt8.xor_zero]

/-- A number in digits determines the digits. -/
theorem digit_unique {p q q' r r' : Int} (h : q * p + r = q' * p + r') (hr : 0 ≤ r) (hp : r < p)
    (hr' : 0 ≤ r') (hp' : r' < p) : q = q' ∧ r = r' := by
  have h1 := (@Int.ediv_emod_unique (q * p + r) p r q (by omega)).mpr
    ⟨by rw [Int.mul_comm, Int.add_comm], hr, hp⟩
  have h2 := (@Int.ediv_emod_unique (q * p + r) p r' q' (by omega)).mpr
    ⟨by rw [h, Int.mul_comm, Int.add_comm], hr', hp'⟩
  exact ⟨h1.1.symm.trans h2.1, h1.2.symm.trans h2.2⟩

/-- A byte belongs to one pixel of the screen at most. -/
theorem PixelByte.unique (h : PixelByte fb x y a) (h' : PixelByte fb x' y' a) (hx : 0 ≤ x)
    (hw : x < fb.width) (hx' : 0 ≤ x') (hw' : x' < fb.width) : x = x' ∧ y = y' := by
  obtain ⟨i, hi, ha⟩ := h
  obtain ⟨i', hi', ha'⟩ := h'
  have hrow : (fb.width : Int) * fb.depthBytes ≤ fb.pitch := by exact_mod_cast fb.row
  have hbound : ∀ c : Int, 0 ≤ c → c < fb.width → ∀ i : Nat, i < fb.depthBytes →
      0 ≤ c * fb.depthBytes + i ∧ c * fb.depthBytes + i < fb.pitch := by
    intro c h0 hc i hi
    have h1 : (c + 1) * fb.depthBytes ≤ (fb.width : Int) * fb.depthBytes :=
      Int.mul_le_mul_of_nonneg_right hc (by omega)
    have h2 : 0 ≤ c * fb.depthBytes := Int.mul_nonneg h0 (by omega)
    rw [Int.add_mul, Int.one_mul] at h1
    omega
  obtain ⟨h1, h2⟩ := hbound x hx hw i hi
  obtain ⟨h1', h2'⟩ := hbound x' hx' hw' i' hi'
  obtain ⟨hy, hin⟩ := @digit_unique fb.pitch y y' _ _ (by omega) h1 h2 h1' h2'
  exact ⟨(digit_unique hin (by omega) (by omega) (by omega) (by omega)).1, hy⟩

/-- The innermost loop inverts the pixel, if the bit is set. -/
theorem xorPixel_eq {bit : Nat} (hbit : bit = 0 ∨ bit = 1) (hx : 0 ≤ x) (hy : 0 ≤ y) :
    xorPixel fb x y bit m = toggle invert (fun a => bit = 1 ∧ PixelByte fb x y a) m := by
  have hbase : 0 ≤ y * fb.pitch + x * fb.depthBytes :=
    Int.add_nonneg (Int.mul_nonneg hy (by omega)) (Int.mul_nonneg hx (by omega))
  obtain ⟨o, ho⟩ := Int.eq_ofNat_of_zero_le hbase
  simp only [xorPixel, PixelByte, ho]
  obtain rfl | rfl := hbit
  · have hsame : ∀ is : List Nat, is.foldl (fun (m : Fbmem) (_ : Nat) => m) m = m := by
      intro is
      induction is with
      | nil => rfl
      | cons i is ih => exact ih
    rw [toggle_none (by simp)]
    simp [hsame]
  · have hloop : ∀ n, (List.range n).foldl (fun (m : Fbmem) (i : Nat) =>
        Function.update m ((o : Int) + i).toNat (invert (m ((o : Int) + i).toNat))) m =
        toggle invert (fun a : Nat => ∃ i < n, (a : Int) = o + (i : Nat)) m := by
      intro n
      induction n with
      | zero => exact (toggle_none (by simp)).symm
      | succ n ih =>
          have hone : ∀ m : Fbmem, Function.update m (o + n) (invert (m (o + n))) =
              toggle invert (fun a => a = o + n) m := by
            intro m
            funext a
            by_cases ha : a = o + n
            · simp [toggle, ha]
            · simp [toggle, ha]
          rw [List.range_succ, List.foldl_append, ih, List.foldl_cons, List.foldl_nil,
            show ((o : Int) + n).toNat = o + n by omega, hone, toggle_or]
          · refine toggle_congr fun a => ⟨?_, ?_⟩
            · rintro (⟨i, hi, ha⟩ | rfl)
              · exact ⟨i, by omega, ha⟩
              · exact ⟨n, by omega, by omega⟩
            · rintro ⟨i, hi, ha⟩
              by_cases hin : i = n
              · exact .inr (by omega)
              · exact .inl ⟨i, by omega, ha⟩
          · rintro a ⟨i, hi, ha⟩
            omega
    exact (hloop fb.depthBytes).trans (toggle_congr fun a => by simp)

theorem cursorBit_cases (px py : Nat) : cursorBit px py = 0 ∨ cursorBit px py = 1 := by
  rw [cursorBit, Nat.and_one_is_mod]
  omega

/-- **The loop over the columns** inverts the pixels of the row. -/
theorem cursorRow_eq {py : Nat} (hx : 0 ≤ x) (hy : 0 ≤ y) (n px : Nat) :
    cursorRow fb x y py n px m = toggle invert (RowByte fb x y py px (px + n)) m := by
  induction n generalizing px m with
  | zero =>
      refine (toggle_none ?_).symm
      rintro a ⟨qx, h1, h2, -⟩
      omega
  | succ n ih =>
      rw [cursorRow]
      split
      · next hend =>
          refine (toggle_none ?_).symm
          rintro a ⟨qx, h1, -, -, h2, -⟩
          omega
      · next hin =>
          rw [ih, xorPixel_eq (cursorBit_cases px py) (by omega) (by omega), toggle_or]
          · refine toggle_congr fun a => ⟨?_, ?_⟩
            · rintro (⟨hbit, hb⟩ | ⟨qx, h1, h2, hrest⟩)
              · exact ⟨px, by omega, by omega, hbit, by omega, hb⟩
              · exact ⟨qx, by omega, by omega, hrest⟩
            · rintro ⟨qx, h1, h2, hbit, hw, hb⟩
              by_cases hq : qx = px
              · subst hq
                exact .inl ⟨hbit, hb⟩
              · exact .inr ⟨qx, by omega, by omega, hbit, hw, hb⟩
          · rintro a ⟨-, hb⟩ ⟨qx, h1, -, -, hw, hb'⟩
            have hxx := (hb.unique hb' (by omega) (by omega) (by omega) hw).1
            omega

/-- **The loop over the rows** inverts the pixels of the cursor. -/
theorem cursorRows_eq (hx : 0 ≤ x) (hy : 0 ≤ y) (n py : Nat) :
    cursorRows fb x y n py m = toggle invert (ShapeByte fb x y py (py + n)) m := by
  induction n generalizing py m with
  | zero =>
      refine (toggle_none ?_).symm
      rintro a ⟨qy, h1, h2, -⟩
      omega
  | succ n ih =>
      rw [cursorRows]
      split
      · next hend =>
          refine (toggle_none ?_).symm
          rintro a ⟨qy, h1, -, h2, -⟩
          omega
      · next hin =>
          rw [ih, cursorRow_eq hx hy, toggle_or]
          · refine toggle_congr fun a => ⟨?_, ?_⟩
            · rintro (hrow | ⟨qy, h1, h2, hrest⟩)
              · exact ⟨py, by omega, by omega, by omega, by simpa using hrow⟩
              · exact ⟨qy, by omega, by omega, hrest⟩
            · rintro ⟨qy, h1, h2, hh, hrow⟩
              by_cases hq : qy = py
              · subst hq
                exact .inl (by simpa using hrow)
              · exact .inr ⟨qy, by omega, by omega, hh, hrow⟩
          · rintro a ⟨px, -, -, -, hw, hb⟩ ⟨qy, h1, -, -, qx, -, -, -, hw', hb'⟩
            have hyy := (hb.unique hb' (by omega) hw (by omega) hw').2
            omega

theorem drawCursor_eq (hx : 0 ≤ x) (hy : 0 ≤ y) :
    drawCursor fb x y m = toggle invert (CursorByte fb x y) m := by
  rw [drawCursor, cursorRows_eq hx hy, Nat.zero_add]
  rfl

/-! ## runs -/

variable {s s' : Screen} {e : ScreenEvent}

theorem moveCursor_bounds (cur move : Int) (size : Nat) :
    0 ≤ moveCursor cur move size ∧ moveCursor cur move size ≤ size := by
  rw [moveCursor]
  generalize i32 (cur + move) = c
  split <;> split <;> omega

/-- **Drawing and erasing** the cursor where it is. -/
theorem PointerDrawn.toggleCursor (h : PointerDrawn fb s) (b : Bool) (hb : b = !s.updating) :
    PointerDrawn fb { toggleCursor fb s with updating := b } := by
  obtain ⟨h1, h2, h3, h4, hf⟩ := h
  refine ⟨h1, h2, h3, h4, ?_⟩
  have hd : (Eclair.toggleCursor fb s).frame = toggle invert (CursorByte fb s.curx s.cury) s.frame :=
    drawCursor_eq h1 h3
  subst hb
  cases hu : s.updating with
  | true =>
      rw [hu, if_pos rfl] at hf
      simp only [Bool.not_true, Bool.false_eq_true, if_false]
      rw [hd, hf]
      rfl
  | false =>
      rw [hu, if_neg (by decide)] at hf
      simp only [Bool.not_false, if_true]
      rw [hd, hf, toggle_toggle invert_involutive]
      rfl

/-- **Step lemma**: every event keeps the pointer on the screen. -/
theorem pointer_step (h : PointerDrawn fb s) (hs : e.next fb s = some s') : PointerDrawn fb s' := by
  cases e with
  | motion dx dy =>
      simp only [ScreenEvent.next, Option.ite_none_left_eq_some, Option.some.injEq] at hs
      obtain ⟨hu, rfl⟩ := hs
      obtain ⟨h1, -, h3, -, hf⟩ := h
      obtain ⟨hx0, hx⟩ := moveCursor_bounds s.curx dx fb.width
      obtain ⟨hy0, hy⟩ := moveCursor_bounds s.cury dy fb.height
      refine ⟨hx0, hx, hy0, hy, ?_⟩
      rw [if_neg hu] at hf
      refine Eq.trans ?_ (if_neg hu).symm
      simp only [processMotion]
      rw [drawCursor_eq hx0 hy0, drawCursor_eq h1 h3, hf, toggle_toggle invert_involutive]
  | begin =>
      simp only [ScreenEvent.next, Option.ite_none_left_eq_some, Option.some.injEq] at hs
      obtain ⟨hu, rfl⟩ := hs
      exact h.toggleCursor true (by simpa using hu)
  | write f =>
      simp only [ScreenEvent.next, Option.ite_none_right_eq_some, Option.some.injEq] at hs
      obtain ⟨hu, rfl⟩ := hs
      obtain ⟨h1, h2, h3, h4, hf⟩ := h
      refine ⟨h1, h2, h3, h4, ?_⟩
      rw [if_pos hu] at hf
      simp only [if_pos hu, hf]
  | «end» =>
      simp only [ScreenEvent.next, Option.ite_none_right_eq_some, Option.some.injEq] at hs
      obtain ⟨hu, rfl⟩ := hs
      exact h.toggleCursor false (by simpa using hu)

/-- **Pointer drawing**: in every state of every run the framebuffer is the
content, outside of updates with the cursor inverted at its position. -/
theorem pointer_of_reachable (fb : EcioFbinfo) (s : Screen)
    (h : (screenSystem fb).Reachable System.Any s) : PointerDrawn fb s := by
  refine h.invariant ?_ fun s e s' hinv _ hs => pointer_step hinv hs
  rintro _ ⟨m, rfl⟩
  have hc (n : Nat) : 0 ≤ (n : Int) / 2 ∧ (n : Int) / 2 ≤ n := by omega
  refine ⟨(hc _).1, (hc _).2, (hc _).1, (hc _).2, ?_⟩
  · simp only [screenInit, Bool.false_eq_true, if_false]
    exact drawCursor_eq (by omega) (by omega)

/-- A screen that is cleared and whose pointer is moved to the corner. -/
theorem pointer_of_reachable_example :
    ∃ s : Screen, s.content 0 = 7 ∧ s.curx = 4 ∧
      PointerDrawn ⟨4, 2, 16, 4, by decide⟩ s := by
  have h : (System.run (ScreenEvent.next ⟨4, 2, 16, 4, by decide⟩)
      (screenInit ⟨4, 2, 16, 4, by decide⟩ fun _ => 0)
      [.begin, .write fun _ _ => 7, .end, .motion 100 (-100)]).any
        (fun s => s.content 0 == 7 && s.curx == 4) = true := by decide +kernel
  obtain ⟨s, hs, hp⟩ := (Option.any_eq_true _ _).mp h
  simp only [Bool.and_eq_true, beq_iff_eq] at hp
  exact ⟨s, hp.1, hp.2, pointer_of_reachable _ s ⟨_, ⟨_, rfl⟩, System.steps_of_run hs⟩⟩

end Eclair
