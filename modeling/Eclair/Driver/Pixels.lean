import Mathlib.Data.List.Nodup
import Eclair.Driver.Console
import Eclair.Lib.ByteMem
import Eclair.Lib.Loop

/-!
# Eclair.Driver.Pixels

The pixels of the framebuffer (`kernel/driver/fb.c`) and the text cursor that
saves them (`kernel/driver/fbcon.c`).

`fb_get_pixel` masks a field by as many bits as its position says, not its
size.  `pixels_iff` says for which formats a pixel that was set is read back,
and the cursor leaves nothing behind.
-/

namespace Eclair

open ByteMem

/-- A field of `fb_format_t`. -/
structure FbField where
  masksz : Nat
  pos : Nat

/-- `fb_format_t`. -/
structure FbFormat where
  r : FbField
  g : FbField
  b : FbField
  bytes : Nat

/-- The globals of `fb.c`: a row has room for its pixels, and the memory for
its rows. -/
structure Framebuffer where
  width : Nat
  height : Nat
  pitch : Nat
  format : FbFormat
  row : width * format.bytes ≤ pitch
  size : pitch * height ≤ 2 ^ 32

/-- `a << n` of a `uint32_t`; the processor takes the count modulo 32. -/
def shl32 (a n : Nat) : Nat := u32 (a <<< (n % 32))

/-- `a >> n` of a `uint32_t`. -/
def shr32 (a n : Nat) : Nat := a >>> (n % 32)

namespace FbField

/-- The component `c` at its place in a pixel. -/
def put (f : FbField) (c : Nat) : Nat := shl32 (shr32 (shl32 c f.masksz) 8) f.pos

/-- The component in a pixel. -/
def get (f : FbField) (pixel : Nat) : Nat :=
  shr32 (shl32 (shr32 pixel f.pos &&& shr32 0xffffffff (sub32 32 f.pos)) 8) f.masksz % 256

end FbField

/-- The pixel that `fb_set_pixel` makes of a colour. -/
def FbFormat.pixel (format : FbFormat) (color : FbColor) : Nat :=
  0 ||| format.r.put color.r ||| format.g.put color.g ||| format.b.put color.b

/-- The first `n` bytes from `off` on, put together. -/
def pixelFrom (m : ByteMem) (off : Nat) : Nat → Nat
  | 0 => 0
  | n + 1 => pixelFrom m off n ||| shl32 (m (off + n)).toNat (n * 8)

namespace Framebuffer

variable (fb : Framebuffer)

/-- The offset of a pixel. -/
def offset (x y : Nat) : Nat := u32 (y * fb.pitch + x * fb.format.bytes)

/-- `fb_set_pixel`. -/
def fbSetPixel (x y : Nat) (color : FbColor) (m : ByteMem) : ByteMem :=
  if x ≥ fb.width ∨ y ≥ fb.height then m
  else write (fb.offset x y) fb.format.bytes
    (fun i => UInt8.ofNat (shr32 (fb.format.pixel color) (i * 8) &&& 0xff)) m

/-- `fb_get_pixel`. -/
def fbGetPixel (x y : Nat) (m : ByteMem) : FbColor :=
  if x ≥ fb.width ∨ y ≥ fb.height then ⟨0, 0, 0⟩
  else
    let pixel := pixelFrom m (fb.offset x y) fb.format.bytes
    ⟨fb.format.r.get pixel, fb.format.g.get pixel, fb.format.b.get pixel⟩

end Framebuffer

/-! ## the text cursor -/

/-- The size of a character of the font, and the space behind it. -/
structure FbFont where
  w : Nat
  h : Nat
  hspace : Nat

/-- The framebuffer, and what the console keeps of its cursor. -/
structure FbCursor where
  mem : ByteMem
  cursorShow : Bool
  cursorAreaOld : Nat → FbColor

namespace FbCursor

def CURSOR_WIDTH : Nat := 9

def CURSOR_HEIGHT : Nat := 16

/-- `cursor`: the last two rows are set. -/
def cursor : List Nat := List.replicate (CURSOR_WIDTH * 14) 0 ++ List.replicate (CURSOR_WIDTH * 2) 1

/-- The rounds of the two loops, as `x` and `y`. -/
def cells : List (Nat × Nat) :=
  (List.range CURSOR_HEIGHT).flatMap fun y => (List.range CURSOR_WIDTH).map fun x => (x, y)

/-- The index into the cursor. -/
def key (p : Nat × Nat) : Nat := p.2 * CURSOR_WIDTH + p.1

/-- The pixel of the cursor is set. -/
def On (p : Nat × Nat) : Prop := cursor.getD (key p) 0 ≠ 0

instance (p : Nat × Nat) : Decidable (On p) := inferInstanceAs (Decidable (_ ≠ _))

variable (fb : Framebuffer) (font : FbFont)

/-- `width`, in characters. -/
def columns : Nat := fb.width / (font.w + font.hspace)

/-- The pixel of the screen under a pixel of the cursor. -/
def place (cidx : Nat) (p : Nat × Nat) : Nat × Nat :=
  (u32 (u32 (cidx % columns fb font * (font.w + font.hspace)) + p.1),
    u32 (u32 (cidx / columns fb font * font.h) + p.2))

/-- One round of `fbcon_clear_cursor`. -/
def clearCell (cidx : Nat) (s : FbCursor) (p : Nat × Nat) : FbCursor :=
  if On p then
    let q := place fb font cidx p
    { s with mem := fb.fbSetPixel q.1 q.2 (s.cursorAreaOld (key p)) s.mem }
  else s

/-- `fbcon_clear_cursor`. -/
def fbconClearCursor (cidx : Nat) (s : FbCursor) : FbCursor :=
  if s.cursorShow then cells.foldl (clearCell fb font cidx) { s with cursorShow := false } else s

/-- One round of `fbcon_draw_cursor`. -/
def drawCell (cidx : Nat) (s : FbCursor) (p : Nat × Nat) : FbCursor :=
  if On p then
    let q := place fb font cidx p
    { s with
      cursorAreaOld := Function.update s.cursorAreaOld (key p) (fb.fbGetPixel q.1 q.2 s.mem)
      mem := fb.fbSetPixel q.1 q.2 (egaColor 7) s.mem }
  else s

/-- `fbcon_draw_cursor`. -/
def fbconDrawCursor (cidx : Nat) (s : FbCursor) : FbCursor :=
  if !s.cursorShow then cells.foldl (drawCell fb font cidx) { s with cursorShow := true } else s

end FbCursor

/-! ## what should hold -/

/-- The bits of a field. -/
def FbField.Has (f : FbField) (b : Nat) : Prop := f.pos ≤ b ∧ b < f.pos + f.masksz

/-- The masks have at most 8 bits, are in the bytes of a pixel, and disjoint. -/
structure FbFormat.Sound (format : FbFormat) : Prop where
  bytes : format.bytes ≤ 4
  mask : ∀ f ∈ [format.r, format.g, format.b],
    f.masksz ≤ 8 ∧ f.pos + f.masksz ≤ 8 * format.bytes
  rg : ∀ b, format.r.Has b → ¬ format.g.Has b
  rb : ∀ b, format.r.Has b → ¬ format.b.Has b
  gb : ∀ b, format.g.Has b → ¬ format.b.Has b

/-- A component that has only the bits that the mask keeps. -/
structure FbField.Keeps (f : FbField) (c : Nat) : Prop where
  byte : c < 256
  low : ∀ j, j + f.masksz < 8 → c.testBit j = false

/-- A colour that has only the bits that the masks keep. -/
structure FbFormat.Keeps (format : FbFormat) (color : FbColor) : Prop where
  r : format.r.Keeps color.r
  g : format.g.Keeps color.g
  b : format.b.Keeps color.b

namespace Framebuffer

variable (fb : Framebuffer)

/-- The pixel is the same in both memories. -/
def SamePixel (m m' : ByteMem) (x y : Nat) : Prop :=
  ∀ i < fb.format.bytes, m' (fb.offset x y + i) = m (fb.offset x y + i)

/-- A pixel of the screen. -/
def OnScreen (p : Nat × Nat) : Prop := p.1 < fb.width ∧ p.2 < fb.height

/-- The pixel is that of a colour that has only the bits that the masks keep. -/
def Shows (m : ByteMem) (p : Nat × Nat) : Prop :=
  ∃ color, fb.format.Keeps color ∧ fb.SamePixel (fb.fbSetPixel p.1 p.2 color m) m p.1 p.2

/-- A pixel that is set reads as it was set, and no other changes. -/
def PixelsKept : Prop :=
  ∀ (m : ByteMem) (p : Nat × Nat) (color : FbColor), fb.OnScreen p → fb.format.Keeps color →
    fb.fbGetPixel p.1 p.2 (fb.fbSetPixel p.1 p.2 color m) = color ∧
      ∀ q, fb.OnScreen q → q ≠ p → fb.SamePixel m (fb.fbSetPixel p.1 p.2 color m) q.1 q.2

/-- The cursor, drawn and cleared again, leaves every pixel as it was. -/
def CursorRestores (font : FbFont) : Prop :=
  ∀ (s : FbCursor) (cidx : Nat), s.cursorShow = false → (∀ p, fb.OnScreen p → fb.Shows s.mem p) →
    ∀ p, fb.OnScreen p → fb.SamePixel s.mem
      (FbCursor.fbconClearCursor fb font cidx (FbCursor.fbconDrawCursor fb font cidx s)).mem p.1 p.2

end Framebuffer

/-! ## bits -/

variable {f : FbField} {format : FbFormat} {fb : Framebuffer} {color : FbColor} {m m' : ByteMem}
variable {b c j k n off pixel x : Nat}

theorem testBit_u32 : (u32 c).testBit j = (decide (j < 32) && c.testBit j) :=
  Nat.testBit_mod_two_pow c 32 j

theorem testBit_shl32 (hn : n < 32) :
    (shl32 c n).testBit j = (decide (j < 32) && (decide (n ≤ j) && c.testBit (j - n))) := by
  rw [shl32, Nat.mod_eq_of_lt hn, testBit_u32, Nat.testBit_shiftLeft]

theorem testBit_shr32 (hn : n < 32) : (shr32 c n).testBit j = c.testBit (n + j) := by
  rw [shr32, Nat.mod_eq_of_lt hn, Nat.testBit_shiftRight]

theorem testBit_byte (hc : c < 256) (hj : 8 ≤ j) : c.testBit j = false :=
  Nat.testBit_lt_two_pow (Nat.lt_of_lt_of_le hc (Nat.pow_le_pow_right (by decide) hj : 2 ^ 8 ≤ 2 ^ j))

/-- A component puts its upper bits into its field, and nothing elsewhere. -/
theorem FbField.testBit_put (hs : f.masksz ≤ 8) (hp : f.pos + f.masksz ≤ 32) (hc : c < 256) :
    (f.put c).testBit b =
      (decide (f.pos ≤ b ∧ b < f.pos + f.masksz) && c.testBit (b - f.pos + 8 - f.masksz)) := by
  have hshift : ∀ k, (shr32 (shl32 c f.masksz) 8).testBit k
      = (decide (k < 24 ∧ f.masksz ≤ 8 + k) && c.testBit (8 + k - f.masksz)) := by
    intro k
    rw [testBit_shr32 (by decide), testBit_shl32 (by omega), Bool.decide_and, Bool.and_assoc]
    congr 1
    exact decide_eq_decide.mpr (by omega)
  by_cases hpos : f.pos < 32
  · rw [put, testBit_shl32 hpos, hshift]
    by_cases hb : f.pos ≤ b ∧ b < f.pos + f.masksz
    · rw [show 8 + (b - f.pos) - f.masksz = b - f.pos + 8 - f.masksz by omega]
      have h1 : b < 32 := by omega
      have h2 : b - f.pos < 24 ∧ f.masksz ≤ 8 + (b - f.pos) := by omega
      simp [hb, h1, h2]
    · by_cases hle : f.pos ≤ b
      · rw [testBit_byte hc (by omega : 8 ≤ 8 + (b - f.pos) - f.masksz)]
        simp [hb]
      · simp [hle]
  · have hzero : f.put c = 0 := by
      have h0 : f.masksz = 0 := by omega
      have h32 : f.pos = 32 := by omega
      rw [put, h0, h32]
      refine Nat.eq_of_testBit_eq fun k => ?_
      rw [h0] at hshift
      rw [shl32, testBit_u32]
      simp only [Nat.mod_self, Nat.shiftLeft_zero, hshift, Nat.zero_testBit]
      rw [testBit_byte hc (by omega : 8 ≤ 8 + k - 0)]
      simp
    rw [hzero, Nat.zero_testBit]
    simp
    omega

/-- What is read as a component are the bits of the field, as many as its
position lets through. -/
theorem FbField.testBit_get (hs : f.masksz ≤ 8) (hp : f.pos + f.masksz ≤ 32) :
    (f.get pixel).testBit j =
      (decide (j < 8 ∧ 8 ≤ j + f.masksz ∧ (f.pos = 0 ∨ j + f.masksz - 8 < f.pos)) &&
        pixel.testBit (f.pos + (j + f.masksz - 8))) := by
  have hbyte : ∀ a : Nat, (a % 256).testBit j = (decide (j < 8) && a.testBit j) :=
    fun a => Nat.testBit_mod_two_pow a 8 j
  rw [get, hbyte, testBit_shr32 (by omega), testBit_shl32 (by decide), Nat.testBit_and]
  by_cases hj : j < 8 ∧ 8 ≤ j + f.masksz
  · have hk : f.masksz + j - 8 = j + f.masksz - 8 := by omega
    have hmask : (shr32 0xffffffff (sub32 32 f.pos)).testBit (j + f.masksz - 8)
        = decide (f.pos = 0 ∨ j + f.masksz - 8 < f.pos) := by
      rw [sub32_of_le (by omega) (by decide), shr32, Nat.testBit_shiftRight]
      have hones : (0xffffffff).testBit ((32 - f.pos) % 32 + (j + f.masksz - 8))
          = decide ((32 - f.pos) % 32 + (j + f.masksz - 8) < 32) :=
        Nat.testBit_two_pow_sub_one 32 _
      rw [hones]
      exact decide_eq_decide.mpr (by omega)
    rw [hk, testBit_shr32 (by omega), hmask]
    have h1 : f.masksz + j < 32 := by omega
    have h2 : 8 ≤ f.masksz + j := by omega
    simp only [hj, h1, h2, decide_true, Bool.true_and, true_and]
    rw [Bool.and_comm]
  · have hn : ¬ (8 ≤ f.masksz + j) ∨ ¬ j < 8 := by omega
    obtain hn | hn := hn
    · have hr : ¬ (8 ≤ j + f.masksz) := by omega
      simp [hn, hr]
    · simp [hn]

/-- What is put into a field is read back unless the mask is larger than the
position, when the field is not the lowest. -/
theorem FbField.get_or (hs : f.masksz ≤ 8) (hp : f.pos + f.masksz ≤ 32)
    (hf : f.pos = 0 ∨ f.masksz ≤ f.pos) (hc : f.Keeps c) (hx : ∀ b, f.Has b → x.testBit b = false) :
    f.get (f.put c ||| x) = c := by
  refine Nat.eq_of_testBit_eq fun j => ?_
  rw [f.testBit_get hs hp, Nat.testBit_or, f.testBit_put hs hp hc.byte]
  by_cases hj : j < 8 ∧ 8 ≤ j + f.masksz
  · have hxb : x.testBit (f.pos + (j + f.masksz - 8)) = false := hx _ ⟨by omega, by omega⟩
    have hput : f.pos ≤ f.pos + (j + f.masksz - 8) ∧
        f.pos + (j + f.masksz - 8) < f.pos + f.masksz := by omega
    have hlet : f.pos = 0 ∨ j + f.masksz - 8 < f.pos := by omega
    have hidx : f.pos + (j + f.masksz - 8) - f.pos + 8 - f.masksz = j := by omega
    rw [hxb, hidx]
    simp [hj, hput, hlet]
  · have hcj : c.testBit j = false := by
      by_cases hj8 : j < 8
      · exact hc.low j (by omega)
      · exact testBit_byte hc.byte (by omega)
    rw [hcj]
    simp
    omega

/-- A component 128 loses its bit in a field whose mask is larger than its
position, unless that is 0. -/
theorem FbField.get_lost (hs : f.masksz ≤ 8) (hp : f.pos + f.masksz ≤ 32)
    (hf : ¬ (f.pos = 0 ∨ f.masksz ≤ f.pos)) : f.get pixel ≠ 128 := by
  intro h
  have hbit : (f.get pixel).testBit 7 = _ := f.testBit_get hs hp
  have hno : ¬ (7 < 8 ∧ 8 ≤ 7 + f.masksz ∧ (f.pos = 0 ∨ 7 + f.masksz - 8 < f.pos)) := by omega
  rw [h, decide_eq_false hno, Bool.false_and] at hbit
  exact absurd hbit (by decide)

/-! ## pixels in memory -/

/-- A pixel that was stored byte by byte is put together again. -/
theorem testBit_pixelFrom (hn : n ≤ 4)
    (hm : ∀ i < n, m (off + i) = UInt8.ofNat (shr32 pixel (i * 8) &&& 0xff)) :
    (pixelFrom m off n).testBit j = (decide (j < 8 * n) && pixel.testBit j) := by
  induction n with
  | zero => simp [pixelFrom]
  | succ n ih =>
      have hbyte : (m (off + n)).toNat = shr32 pixel (n * 8) % 2 ^ 8 := by
        rw [hm n (Nat.lt_succ_self n), UInt8.toNat_ofNat', show 0xff = 2 ^ 8 - 1 from rfl,
          Nat.and_two_pow_sub_one_eq_mod, Nat.mod_mod]
      rw [pixelFrom, Nat.testBit_or, ih (by omega) fun i hi => hm i (by omega), hbyte,
        testBit_shl32 (by omega), Nat.testBit_mod_two_pow, testBit_shr32 (by omega)]
      by_cases hle : n * 8 ≤ j
      · rw [Nat.add_sub_cancel' hle]
        by_cases hlt : j < 8 * (n + 1)
        · have h1 : j < 32 := by omega
          have h2 : j - n * 8 < 8 := by omega
          have h3 : ¬ j < 8 * n := by omega
          simp [h1, h2, h3, hle, hlt]
        · have h2 : ¬ j - n * 8 < 8 := by omega
          have h3 : ¬ j < 8 * n := by omega
          simp [h2, h3, hlt]
      · have h1 : j < 8 * n := by omega
        have h2 : j < 8 * (n + 1) := by omega
        simp [hle, h1, h2]

/-- A number of two digits determines them. -/
theorem digits_unique {p q q' r r' : Nat} (h : q * p + r = q' * p + r') (hr : r < p) (hr' : r' < p) :
    q = q' ∧ r = r' := by
  have hp : 0 < p := by omega
  have hdiv := congrArg (· / p) h
  have hmod := congrArg (· % p) h
  simp only [Nat.mul_comm _ p, Nat.mul_add_div hp, Nat.mul_add_mod, Nat.div_eq_of_lt hr,
    Nat.div_eq_of_lt hr', Nat.mod_eq_of_lt hr, Nat.mod_eq_of_lt hr', Nat.add_zero] at hdiv hmod
  exact ⟨hdiv, hmod⟩

namespace Framebuffer

variable {p q : Nat × Nat} {i : Nat}

/-- The bytes of a pixel are in its row. -/
theorem OnScreen.byte (hp : fb.OnScreen p) (hi : i < fb.format.bytes) :
    p.1 * fb.format.bytes + i < fb.pitch := by
  have hx : (p.1 + 1) * fb.format.bytes ≤ fb.pitch :=
    Nat.le_trans (Nat.mul_le_mul_right _ hp.1) fb.row
  rw [Nat.succ_mul] at hx
  omega

/-- And its offset does not wrap. -/
theorem OnScreen.offset_eq (hp : fb.OnScreen p) (hi : i < fb.format.bytes) :
    fb.offset p.1 p.2 + i = p.2 * fb.pitch + (p.1 * fb.format.bytes + i) := by
  have hb := hp.byte hi
  have hy : (p.2 + 1) * fb.pitch ≤ 2 ^ 32 := by
    rw [Nat.mul_comm]
    exact Nat.le_trans (Nat.mul_le_mul_left _ hp.2) fb.size
  rw [Nat.succ_mul] at hy
  rw [offset, u32_of_lt (by omega), Nat.add_assoc]

/-- Different pixels have no byte in common. -/
theorem OnScreen.offset_ne (hp : fb.OnScreen p) (hq : fb.OnScreen q) (hne : q ≠ p) {j : Nat}
    (hi : i < fb.format.bytes) (hj : j < fb.format.bytes) :
    fb.offset q.1 q.2 + j ≠ fb.offset p.1 p.2 + i := by
  rw [hp.offset_eq hi, hq.offset_eq hj]
  intro h
  obtain ⟨hy, hrow⟩ := digits_unique h (hq.byte hj) (hp.byte hi)
  obtain ⟨hx, -⟩ := digits_unique hrow hj hi
  exact hne (Prod.ext hx hy)

/-- The bytes of a pixel that was set. -/
theorem fbSetPixel_inside (hp : fb.OnScreen p) (hi : i < fb.format.bytes) :
    fb.fbSetPixel p.1 p.2 color m (fb.offset p.1 p.2 + i)
      = UInt8.ofNat (shr32 (fb.format.pixel color) (i * 8) &&& 0xff) := by
  have h1 := hp.1
  have h2 := hp.2
  rw [fbSetPixel, if_neg (by omega), write_inside hi]

/-- The other pixels stay. -/
theorem fbSetPixel_other (hq : fb.OnScreen q) (hne : q ≠ p) :
    fb.SamePixel m (fb.fbSetPixel p.1 p.2 color m) q.1 q.2 := by
  intro j hj
  rw [fbSetPixel]
  split
  · rfl
  · next hin =>
      have hp : fb.OnScreen p := ⟨by omega, by omega⟩
      refine write_outside fun ⟨hle, hlt⟩ => ?_
      obtain ⟨i, hi⟩ := Nat.exists_eq_add_of_le hle
      exact hp.offset_ne hq hne (by omega : i < fb.format.bytes) hj hi

/-- What is read depends on the bytes of the pixel. -/
theorem pixelFrom_congr (h : ∀ i < n, m' (off + i) = m (off + i)) :
    pixelFrom m' off n = pixelFrom m off n := by
  induction n with
  | zero => rfl
  | succ n ih => rw [pixelFrom, pixelFrom, ih fun i hi => h i (by omega), h n (Nat.lt_succ_self n)]

theorem fbGetPixel_congr (h : fb.SamePixel m m' p.1 p.2) :
    fb.fbGetPixel p.1 p.2 m' = fb.fbGetPixel p.1 p.2 m := by
  rw [fbGetPixel, fbGetPixel, pixelFrom_congr h]

end Framebuffer

/-! ## reading back -/

/-- The mask of every field is no larger than its position, unless that is 0. -/
def FbFormat.Readable (format : FbFormat) : Prop :=
  ∀ f ∈ [format.r, format.g, format.b], f.pos = 0 ∨ f.masksz ≤ f.pos

instance (format : FbFormat) : Decidable format.Readable :=
  inferInstanceAs (Decidable (∀ f ∈ _, _))

/-- Outside its field a component puts nothing. -/
theorem FbField.put_outside (hs : f.masksz ≤ 8) (hp : f.pos + f.masksz ≤ 32) (hc : c < 256)
    (hb : ¬ f.Has b) : (f.put c).testBit b = false := by
  rw [f.testBit_put hs hp hc]
  simp only [Has] at hb
  simp [hb]

/-- A pixel gives back its colour. -/
theorem FbFormat.get_pixel (hf : format.Sound) (hr : format.Readable) (hc : format.Keeps color) :
    (⟨format.r.get (format.pixel color), format.g.get (format.pixel color),
      format.b.get (format.pixel color)⟩ : FbColor) = color := by
  have hfit : ∀ f ∈ [format.r, format.g, format.b], f.masksz ≤ 8 ∧ f.pos + f.masksz ≤ 32 := by
    intro f hmem
    have hm := hf.mask f hmem
    have := hf.bytes
    omega
  obtain ⟨hrs, hrp⟩ := hfit format.r (by simp)
  obtain ⟨hgs, hgp⟩ := hfit format.g (by simp)
  obtain ⟨hbs, hbp⟩ := hfit format.b (by simp)
  have hor : ∀ x y b : Nat, x.testBit b = false → y.testBit b = false → (x ||| y).testBit b = false := by
    intro x y b hx hy
    rw [Nat.testBit_or, hx, hy]
    rfl
  rw [FbFormat.pixel, Nat.zero_or]
  have hred := FbField.get_or hrs hrp (hr _ (by simp)) hc.r
    fun b hb => hor _ _ b (FbField.put_outside hgs hgp hc.g.byte (hf.rg b hb))
      (FbField.put_outside hbs hbp hc.b.byte (hf.rb b hb))
  have hgreen := FbField.get_or hgs hgp (hr _ (by simp)) hc.g
    fun b hb => hor _ _ b (FbField.put_outside hrs hrp hc.r.byte fun h => hf.rg b h hb)
      (FbField.put_outside hbs hbp hc.b.byte (hf.gb b hb))
  have hblue := FbField.get_or hbs hbp (hr _ (by simp)) hc.b
    fun b hb => hor _ _ b (FbField.put_outside hrs hrp hc.r.byte fun h => hf.rb b h hb)
      (FbField.put_outside hgs hgp hc.g.byte fun h => hf.gb b h hb)
  congr 1
  · rwa [Nat.or_assoc]
  · rwa [Nat.or_comm (format.r.put _), Nat.or_assoc]
  · rwa [Nat.or_comm]

/-- The pixel of a colour is in its bytes. -/
theorem FbFormat.pixel_outside (hf : format.Sound) (hc : format.Keeps color) (hb : 8 * format.bytes ≤ b) :
    (format.pixel color).testBit b = false := by
  have hput : ∀ f ∈ [format.r, format.g, format.b], ∀ c < 256, (f.put c).testBit b = false := by
    intro f hmem c hlt
    obtain ⟨hs, hp⟩ := hf.mask f hmem
    have hbytes := hf.bytes
    exact f.put_outside hs (by omega) hlt fun h => by have := h.2; omega
  rw [FbFormat.pixel, Nat.testBit_or, Nat.testBit_or, Nat.zero_or, hput _ (by simp) _ hc.r.byte,
    hput _ (by simp) _ hc.g.byte, hput _ (by simp) _ hc.b.byte]
  rfl

namespace Framebuffer

variable {p q : Nat × Nat}

/-- **Round trip** of a pixel. -/
theorem fbGetPixel_set (hf : fb.format.Sound) (hr : fb.format.Readable) (hc : fb.format.Keeps color)
    (hp : fb.OnScreen p) : fb.fbGetPixel p.1 p.2 (fb.fbSetPixel p.1 p.2 color m) = color := by
  have h1 := hp.1
  have h2 := hp.2
  have hpixel : pixelFrom (fb.fbSetPixel p.1 p.2 color m) (fb.offset p.1 p.2) fb.format.bytes
      = fb.format.pixel color := by
    refine Nat.eq_of_testBit_eq fun b => ?_
    rw [testBit_pixelFrom hf.bytes fun i hi => fbSetPixel_inside hp hi]
    by_cases hb : b < 8 * fb.format.bytes
    · simp [hb]
    · rw [FbFormat.pixel_outside hf hc (by omega), Bool.and_false]
  rw [fbGetPixel, if_neg (by omega), hpixel]
  exact FbFormat.get_pixel hf hr hc

theorem pixelsKept_of_readable (hf : fb.format.Sound) (hr : fb.format.Readable) : fb.PixelsKept :=
  fun _ _ _ hp hc => ⟨fbGetPixel_set hf hr hc hp, fun _ hq hne => fbSetPixel_other hq hne⟩

/-- A field that is not in order has a colour that is not read back. -/
theorem readable_of_pixelsKept (hf : fb.format.Sound) (h : fb.PixelsKept) (hp : fb.OnScreen p) :
    fb.format.Readable := by
  intro f hmem
  by_contra hbad
  obtain ⟨hs, hfit⟩ := hf.mask f hmem
  have hbytes := hf.bytes
  have hlost : ∀ pixel, f.get pixel ≠ 128 := fun pixel => FbField.get_lost hs (by omega) hbad
  have hzero : ∀ f : FbField, f.Keeps 0 := fun f => ⟨by decide, fun j _ => Nat.zero_testBit j⟩
  have hhigh : f.Keeps 128 := by
    refine ⟨by decide, fun j hj => ?_⟩
    have hj7 : j < 7 := by omega
    exact (by decide : ∀ j < 7, Nat.testBit 128 j = false) j hj7
  have h1 := hp.1
  have h2 := hp.2
  have hread : ∀ color, fb.format.Keeps color → ∃ pixel, (⟨fb.format.r.get pixel,
      fb.format.g.get pixel, fb.format.b.get pixel⟩ : FbColor) = color := by
    intro color hc
    have hget := (h (fun _ => 0) p color hp hc).1
    rw [fbGetPixel, if_neg (by omega)] at hget
    exact ⟨_, hget⟩
  simp only [List.mem_cons, List.not_mem_nil, or_false] at hmem
  obtain rfl | rfl | rfl := hmem
  · obtain ⟨pixel, heq⟩ := hread ⟨128, 0, 0⟩ ⟨hhigh, hzero _, hzero _⟩
    exact hlost pixel (congrArg FbColor.r heq)
  · obtain ⟨pixel, heq⟩ := hread ⟨0, 128, 0⟩ ⟨hzero _, hhigh, hzero _⟩
    exact hlost pixel (congrArg FbColor.g heq)
  · obtain ⟨pixel, heq⟩ := hread ⟨0, 0, 128⟩ ⟨hzero _, hzero _, hhigh⟩
    exact hlost pixel (congrArg FbColor.b heq)

end Framebuffer

/-! ## the cursor -/

theorem Framebuffer.SamePixel.trans {m'' : ByteMem} {x y : Nat} (h : fb.SamePixel m m' x y)
    (h' : fb.SamePixel m' m'' x y) : fb.SamePixel m m'' x y :=
  fun i hi => (h' i hi).trans (h i hi)

/-- A pixel that shows a colour is what setting that colour gives. -/
theorem Framebuffer.samePixel_set_get {p : Nat × Nat} (hf : fb.format.Sound)
    (hr : fb.format.Readable) (hp : fb.OnScreen p) (hs : fb.Shows m p) :
    fb.SamePixel m (fb.fbSetPixel p.1 p.2 (fb.fbGetPixel p.1 p.2 m) m') p.1 p.2 := by
  obtain ⟨color, hc, hsame⟩ := hs
  have hget : fb.fbGetPixel p.1 p.2 m = color := by
    rw [fbGetPixel_congr hsame, fbGetPixel_set hf hr hc hp]
  intro i hi
  rw [hget, fbSetPixel_inside hp hi, hsame i hi, fbSetPixel_inside hp hi]

namespace FbCursor

variable {font : FbFont} {cidx : Nat} {s : FbCursor} {ps : List (Nat × Nat)} {p q : Nat × Nat}

theorem cells_nodup : cells.Nodup := by
  have hkeys : cells.map key = List.range (CURSOR_WIDTH * CURSOR_HEIGHT) := by decide +kernel
  refine List.Nodup.of_map key ?_
  rw [hkeys]
  exact List.nodup_range

theorem mem_cells (hp : p ∈ cells) : p.1 < CURSOR_WIDTH ∧ p.2 < CURSOR_HEIGHT := by
  simp only [cells, List.mem_flatMap, List.mem_range, List.mem_map] at hp
  obtain ⟨y, hy, x, hx, rfl⟩ := hp
  exact ⟨hx, hy⟩

theorem key_inj (hp : p ∈ cells) (hq : q ∈ cells) (h : key p = key q) : p = q := by
  obtain ⟨hy, hx⟩ := digits_unique h (mem_cells hp).1 (mem_cells hq).1
  exact Prod.ext hx hy

theorem place_inj (hp : p ∈ cells) (hq : q ∈ cells)
    (h : place fb font cidx p = place fb font cidx q) : p = q := by
  obtain ⟨hx, hy⟩ := mem_cells hp
  obtain ⟨hx', hy'⟩ := mem_cells hq
  obtain ⟨h1, h2⟩ := Prod.mk.inj h
  rw [CURSOR_WIDTH] at hx hx'
  rw [CURSOR_HEIGHT] at hy hy'
  simp only [u32] at h1 h2
  exact Prod.ext (by omega) (by omega)

/-- After the rounds `ps` of drawing: the pixels under them are saved, and the
others as they were. -/
structure Drawn (fb : Framebuffer) (font : FbFont) (cidx : Nat) (m : ByteMem)
    (ps : List (Nat × Nat)) (s : FbCursor) : Prop where
  shown : s.cursorShow = true
  saved : ∀ p ∈ ps, On p → s.cursorAreaOld (key p)
    = fb.fbGetPixel (place fb font cidx p).1 (place fb font cidx p).2 m
  same : ∀ q, fb.OnScreen q → (∀ p ∈ ps, On p → place fb font cidx p ≠ q) →
    fb.SamePixel m s.mem q.1 q.2

/-- After the rounds `ps` of clearing: the pixels under them are back, and the
others as they were before. -/
structure Cleared (fb : Framebuffer) (font : FbFont) (cidx : Nat) (m m' : ByteMem)
    (old : Nat → FbColor) (ps : List (Nat × Nat)) (s : FbCursor) : Prop where
  old : s.cursorAreaOld = old
  back : ∀ p ∈ ps, On p → fb.OnScreen (place fb font cidx p) →
    fb.SamePixel m s.mem (place fb font cidx p).1 (place fb font cidx p).2
  same : ∀ q, fb.OnScreen q → (∀ p ∈ ps, On p → place fb font cidx p ≠ q) →
    fb.SamePixel m' s.mem q.1 q.2

theorem Drawn.cell (h : Drawn fb font cidx m ps s) (hps : ∀ p ∈ ps, p ∈ cells ∧ p ≠ q)
    (hq : q ∈ cells) : Drawn fb font cidx m (ps ++ [q]) (drawCell fb font cidx s q) := by
  by_cases hon : On q
  · have hplace : ∀ p ∈ ps, place fb font cidx p ≠ place fb font cidx q :=
      fun p hp heq => (hps p hp).2 (place_inj (hps p hp).1 hq heq)
    rw [drawCell, if_pos hon]
    refine ⟨h.shown, fun p hp hpon => ?_, fun r hr hne => ?_⟩
    · obtain hp | hp := List.mem_append.mp hp
      · have hkey : key p ≠ key q := fun heq => (hps p hp).2 (key_inj (hps p hp).1 hq heq)
        exact (Function.update_of_ne hkey _ _).trans (h.saved p hp hpon)
      · obtain rfl := List.mem_singleton.mp hp
        refine (Function.update_self _ _ _).trans ?_
        by_cases hscreen : fb.OnScreen (place fb font cidx p)
        · exact Framebuffer.fbGetPixel_congr (h.same _ hscreen fun r hr _ => hplace r hr)
        · have hout : (place fb font cidx p).1 ≥ fb.width ∨ (place fb font cidx p).2 ≥ fb.height := by
            rw [Framebuffer.OnScreen] at hscreen
            omega
          rw [Framebuffer.fbGetPixel, if_pos hout, Framebuffer.fbGetPixel, if_pos hout]
    · have hold := h.same r hr fun p hp => hne p (List.mem_append_left _ hp)
      have hrq : r ≠ place fb font cidx q := (hne q (by simp) hon).symm
      exact hold.trans (Framebuffer.fbSetPixel_other hr hrq)
  · rw [drawCell, if_neg hon]
    refine ⟨h.shown, fun p hp hpon => ?_, fun r hr hne => ?_⟩
    · obtain hp | hp := List.mem_append.mp hp
      · exact h.saved p hp hpon
      · exact absurd (List.mem_singleton.mp hp ▸ hpon) hon
    · exact h.same r hr fun p hp => hne p (List.mem_append_left _ hp)

theorem Cleared.cell {old : Nat → FbColor} (h : Cleared fb font cidx m m' old ps s)
    (hps : ∀ p ∈ ps, p ∈ cells ∧ p ≠ q) (hq : q ∈ cells)
    (hback : On q → fb.OnScreen (place fb font cidx q) → ∀ m', fb.SamePixel m
      (fb.fbSetPixel (place fb font cidx q).1 (place fb font cidx q).2 (old (key q)) m')
      (place fb font cidx q).1 (place fb font cidx q).2) :
    Cleared fb font cidx m m' old (ps ++ [q]) (clearCell fb font cidx s q) := by
  by_cases hon : On q
  · rw [clearCell, if_pos hon]
    refine ⟨h.old, fun p hp hpon hscreen => ?_, fun r hr hne => ?_⟩
    · obtain hp | hp := List.mem_append.mp hp
      · have hplace : place fb font cidx p ≠ place fb font cidx q :=
          fun heq => (hps p hp).2 (place_inj (hps p hp).1 hq heq)
        exact (h.back p hp hpon hscreen).trans (Framebuffer.fbSetPixel_other hscreen hplace)
      · obtain rfl := List.mem_singleton.mp hp
        rw [h.old]
        exact hback hon hscreen s.mem
    · have hold := h.same r hr fun p hp => hne p (List.mem_append_left _ hp)
      have hrq : r ≠ place fb font cidx q := (hne q (by simp) hon).symm
      exact hold.trans (Framebuffer.fbSetPixel_other hr hrq)
  · rw [clearCell, if_neg hon]
    refine ⟨h.old, fun p hp hpon => ?_, fun r hr hne => ?_⟩
    · obtain hp | hp := List.mem_append.mp hp
      · exact h.back p hp hpon
      · exact absurd (List.mem_singleton.mp hp ▸ hpon) hon
    · exact h.same r hr fun p hp => hne p (List.mem_append_left _ hp)

/-- **The cursor restores the screen** if every pixel of it reads as it was set. -/
theorem cursorRestores_of_readable (hf : fb.format.Sound) (hr : fb.format.Readable) (font : FbFont) :
    fb.CursorRestores font := by
  intro s cidx hs hshows
  have hsplit : ∀ {as bs : List (Nat × Nat)} {q}, cells = as ++ q :: bs →
      (∀ p ∈ as, p ∈ cells ∧ p ≠ q) ∧ q ∈ cells := by
    intro as bs q h
    have hd := cells_nodup
    rw [h] at hd
    refine ⟨fun p hp => ⟨by rw [h]; exact List.mem_append_left _ hp, ?_⟩, by simp [h]⟩
    exact (List.nodup_append.mp hd).2.2 p hp q List.mem_cons_self
  have hdraw : Drawn fb font cidx s.mem cells (fbconDrawCursor fb font cidx s) := by
    rw [fbconDrawCursor, hs]
    refine Loop.foldl_prefix ⟨rfl, by simp, fun _ _ _ _ _ => rfl⟩ ?_
    intro as q bs t h hi
    exact hi.cell (hsplit h).1 (hsplit h).2
  generalize fbconDrawCursor fb font cidx s = t at hdraw ⊢
  have hclear : Cleared fb font cidx s.mem t.mem t.cursorAreaOld cells
      (fbconClearCursor fb font cidx t) := by
    rw [fbconClearCursor, hdraw.shown]
    refine Loop.foldl_prefix ⟨rfl, by simp, fun _ _ _ _ _ => rfl⟩ ?_
    intro as q bs u h hi
    refine hi.cell (hsplit h).1 (hsplit h).2 fun hon hscreen m' => ?_
    rw [hdraw.saved q (hsplit h).2 hon]
    exact Framebuffer.samePixel_set_get hf hr hscreen (hshows _ hscreen)
  intro q hq
  by_cases hon : ∃ p ∈ cells, On p ∧ place fb font cidx p = q
  · obtain ⟨p, hp, hon, rfl⟩ := hon
    exact hclear.back p hp hon hq
  · have hnone : ∀ p ∈ cells, On p → place fb font cidx p ≠ q :=
      fun p hp hpon heq => hon ⟨p, hp, hpon, heq⟩
    exact (hdraw.same q hq hnone).trans (hclear.same q hq hnone)

end FbCursor

/-- **Pixels are read back and the cursor restores the screen** exactly if
the masks are no larger than the positions, or there is no pixel. -/
theorem pixels_iff (hf : fb.format.Sound) :
    (fb.PixelsKept ∧ ∀ font, fb.CursorRestores font) ↔
      fb.format.Readable ∨ fb.width = 0 ∨ fb.height = 0 := by
  constructor
  · rintro ⟨hkept, -⟩
    by_cases h0 : fb.width = 0 ∨ fb.height = 0
    · exact .inr h0
    · have hp : fb.OnScreen (0, 0) := ⟨by dsimp only; omega, by dsimp only; omega⟩
      exact .inl (Framebuffer.readable_of_pixelsKept hf hkept hp)
  · rintro (hr | h0)
    · exact ⟨Framebuffer.pixelsKept_of_readable hf hr, FbCursor.cursorRestores_of_readable hf hr⟩
    · have hnone : ∀ p, ¬ fb.OnScreen p := by
        rintro p ⟨h1, h2⟩
        omega
      exact ⟨fun _ p _ hp => absurd hp (hnone p), fun _ _ _ _ _ p hp => absurd hp (hnone p)⟩

/-- A screen of 16 bits a pixel, 5 for red and blue and 6 for green. -/
def fb565 : Framebuffer where
  width := 80
  height := 25
  pitch := 160
  format := ⟨⟨5, 11⟩, ⟨6, 5⟩, ⟨5, 0⟩, 2⟩
  row := by decide
  size := by decide

/-- The same with 32 bits, 8 for each component. -/
def fb888 : Framebuffer where
  width := 80
  height := 25
  pitch := 320
  format := ⟨⟨8, 16⟩, ⟨8, 8⟩, ⟨8, 0⟩, 4⟩
  row := by decide
  size := by decide

theorem pixels_iff_example : fb888.PixelsKept ∧ ∀ font, fb888.CursorRestores font := by
  have hf : fb888.format.Sound := by
    refine ⟨by decide, by decide, ?_, ?_, ?_⟩
    all_goals simp only [FbField.Has, fb888]; omega
  exact (pixels_iff hf).mpr (.inl (by decide))

/-- **A pixel is not read back**: the upper bit of green is lost. -/
theorem not_pixels : ¬ ∀ fb : Framebuffer, fb.format.Sound → fb.PixelsKept := by
  intro h
  have hf : fb565.format.Sound := by
    refine ⟨by decide, by decide, ?_, ?_, ?_⟩
    all_goals simp only [FbField.Has, fb565]; omega
  have hr := Framebuffer.readable_of_pixelsKept (p := (0, 0)) hf (h fb565 hf) ⟨by decide, by decide⟩
  exact absurd hr (by decide)

end Eclair
