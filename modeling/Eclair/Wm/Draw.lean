import Eclair.Wm.Image

/-!
# Eclair.Wm.Draw

The functions that draw into images (`bin/wm/screen.c`), and when all they
touch is pixels.

Sizes and offsets are of 32 bits, and `int` wraps around (`i32`).  Of runs
that overlap, `memcpy` is taken to read all bytes before it writes one.
-/

namespace Eclair

/-- `int` arithmetic. -/
def i32 (a : Int) : Int := Int.bmod a (2 ^ 32)

/-- An offset from a calculation with `int`. -/
def wrap (a : Int) : Nat := (a % 2 ^ 32).toNat

/-- `color_t`. -/
structure Color where
  r : UInt8
  g : UInt8
  b : UInt8

/-- A component at its place in a pixel. -/
def channel (c : UInt8) (mask : FbMask) : Nat := u32 (u32 (c.toNat <<< mask.size) >>> 8 <<< mask.pos)

/-- `screen_convert_color`: the bytes of a pixel. -/
def screenConvertColor (fb : Display) (color : Color) (i : Nat) : UInt8 :=
  UInt8.ofNat ((channel color.r fb.rmask ||| channel color.g fb.gmask ||| channel color.b fb.bmask)
    >>> (i * 8))

/-- `memcpy` from one image to another. -/
def copyRun (dest source : Image) (doff soff len : Nat) : Except WmFault Image :=
  (source.readRun soff len).bind fun b => dest.writeRun doff len b

/-- `image_fill`. -/
def imageFill (fb : Display) (image : Image) (color : Color) : Except WmFault Image :=
  if image.height = 0 then .ok image
  else (Loop.tryLoop (Loop.tryEach fun x image =>
      image.writeRun (u32 (x * image.depthBytes)) image.depthBytes (screenConvertColor fb color))
      0 image.width image).bind fun image =>
    Loop.tryLoop (Loop.tryEach fun y image =>
      copyRun image image (u32 (y * image.pitch)) 0 (u32 (image.width * image.depthBytes)))
      1 (image.height - 1) image

/-! ## clipping -/

/-- What starts before 0 is moved there.  The source subtracts the negative
start, so that the length grows. -/
def clipStart (x w : Int) : Option (Int × Int) :=
  if x < 0 then if i32 (w - x) < 0 then none else some (0, i32 (w - x)) else some (x, w)

/-- What ends behind `size` is cut. -/
def clipEnd (x w size : Int) : Int := if i32 (x + w) ≥ size then i32 (size - x) else w

/-- The clipping of `image_copy_area`: of what is moved the end is not cut. -/
def clipSpan (x w size : Int) : Option (Int × Int) :=
  if x < 0 then clipStart x w
  else if clipEnd x w size < 0 ∧ i32 (x + w) ≥ size then none
  else some (x, clipEnd x w size)

/-- An area of an image. -/
structure Area where
  x : Int
  y : Int
  w : Int
  h : Int
  deriving DecidableEq, Repr

/-- The clipping of `image_fill_rect`. -/
def clipArea (image : Image) (a : Area) : Option Area :=
  (clipStart a.x a.w).bind fun (x, w) =>
  (clipStart a.y a.h).bind fun (y, h) =>
  let w := clipEnd x w (i32 image.width)
  let h := clipEnd y h (i32 image.height)
  if w ≤ 0 ∨ h ≤ 0 then none else some ⟨x, y, w, h⟩

/-- The offset of a pixel. -/
def Image.pixel (image : Image) (x y : Int) : Nat := wrap (y * image.pitch + x * image.depthBytes)

/-- How many columns `image_fill_rect` fills in the first row. -/
def Area.columns (a : Area) : Nat := (i32 (a.x + a.w) - a.x).toNat

/-- How many rows it copies the first row to. -/
def Area.rows (a : Area) : Nat := (i32 (a.y + a.h) - i32 (a.y + 1)).toNat

/-- `image_fill_rect`. -/
def imageFillRect (fb : Display) (image : Image) (a : Area) (color : Color) : Except WmFault Image :=
  if image.height = 0 then .ok image
  else match clipArea image a with
  | none => .ok image
  | some a =>
      (Loop.tryLoop (Loop.tryEach fun i image =>
        image.writeRun (image.pixel (a.x + i) a.y) image.depthBytes (screenConvertColor fb color))
        0 a.columns image).bind fun image =>
      Loop.tryLoop (Loop.tryEach fun i image =>
        copyRun image image (image.pixel a.x (i32 (a.y + 1) + i)) (image.pixel a.x a.y)
          (wrap (a.w * image.depthBytes)))
        0 a.rows image

/-- The area that `image_copy_area` copies: its columns in both images, and how many. -/
structure Span where
  x : Int
  sx : Int
  sw : Int
  deriving DecidableEq, Repr

def clipSpans (dest source : Image) (x sx sw : Int) : Option Span :=
  (clipSpan x sw (i32 dest.width)).bind fun (x, sw) =>
  (clipSpan sx sw (i32 source.width)).map fun (sx, sw) => ⟨x, sx, sw⟩

/-- The row `i` is in both images. -/
def inRows (dest source : Image) (y sy : Int) (i : Nat) : Prop :=
  0 ≤ i32 (i + sy) ∧ i32 (i + sy) < i32 source.height ∧ 0 ≤ i32 (i + y) ∧ i32 (i + y) < i32 dest.height

instance (dest source : Image) (y sy : Int) (i : Nat) : Decidable (inRows dest source y sy i) :=
  inferInstanceAs (Decidable (_ ∧ _))

/-- `image_copy_area`; with `same`, both are one image. -/
def imageCopyArea (dest source : Image) (same : Bool) (x y sx sy sw sh : Int) : Except WmFault Image :=
  match clipSpans dest source x sx sw with
  | none => .ok dest
  | some r => Loop.tryLoop (fun i dest' =>
      let source := if same then dest' else source
      if inRows dest source y sy i then
        (copyRun dest' source (dest'.pixel r.x (y + i)) (source.pixel r.sx (sy + i))
          (wrap (r.sw * source.depthBytes))).bind fun image => .ok (image, true)
      else .ok (dest', false))
      0 sh.toNat dest

/-- `image_set_data`; `data` reads the bytes of the message. -/
def imageSetData (fb : Display) (image : Image) (format offset size : Nat)
    (data : Nat → Except WmFault UInt8) : Except WmFault Image :=
  Loop.tryLoop (fun i image =>
    if image.width = 0 then .error .divZero
    else if i / image.width ≥ image.height then .ok (image, false)
    else
      let p := (i - offset) * (format + 2)
      (data p).bind fun r => (data (p + 1)).bind fun g => (data (p + 2)).bind fun b =>
      (image.writeRun (u32 (i / image.width * image.pitch + i % image.width * image.depthBytes))
        image.depthBytes (screenConvertColor fb ⟨r, g, b⟩)).bind fun image => .ok (image, true))
    offset (u32 (offset + size) - offset) image

/-! ## where pixels are -/

variable {fb : Display} {image image' dest dest' source source' : Image} {off len x y n : Nat}
variable {color : Color}

theorem Image.inside_u32 : image.Inside (u32 off) len ↔ image.Inside off len := by
  simp only [Image.Inside, u32, Nat.mod_add_mod]

theorem Image.Inside.mono {len' : Nat} (h : image.Inside off len) (hl : len' ≤ len) :
    image.Inside off len' := fun i hi => h i (Nat.lt_of_lt_of_le hi hl)

/-- `n` pixels of a row are inside, also where the sizes do not fit in 32
bits: then every offset is. -/
theorem Image.Sized.inside (h : image.Sized fb) (hy : y < image.height) (hx : x + n ≤ image.width) :
    image.Inside (y * image.pitch + x * image.depthBytes) (n * image.depthBytes) := by
  intro i hi
  by_cases hbig : 2 ^ 32 ≤ image.extent
  · exact Nat.lt_of_lt_of_le (u32_lt _) hbig
  have hextent : image.extent = image.height * (image.width * image.depthBytes) := by
    rw [Image.extent, Nat.mul_comm image.width, Nat.mul_assoc]
  have hrow : (y + 1) * (image.width * image.depthBytes) ≤ image.extent :=
    hextent ▸ Nat.mul_le_mul_right _ hy
  have hpitch : image.pitch = image.width * image.depthBytes := by
    rw [h.pitch, ← h.depth]
    refine u32_of_lt (Nat.lt_of_le_of_lt ?_ (Nat.not_le.mp hbig))
    exact Nat.le_trans (Nat.le_mul_of_pos_left _ (Nat.succ_pos y)) hrow
  have hcols : x * image.depthBytes + n * image.depthBytes ≤ image.width * image.depthBytes := by
    rw [← Nat.add_mul]
    exact Nat.mul_le_mul_right _ hx
  rw [hpitch]
  rw [Nat.add_mul, Nat.one_mul] at hrow
  exact Nat.lt_of_le_of_lt (Nat.mod_le _ _) (by omega)

theorem Image.Sized.inside_pixel (h : image.Sized fb) (hy : y < image.height) (hx : x < image.width) :
    image.Inside (u32 (y * image.pitch + x * image.depthBytes)) image.depthBytes := by
  have hrun := h.inside hy (n := 1) hx
  rw [Nat.one_mul] at hrun
  exact Image.inside_u32.mpr hrun

/-! ## what drawing touches -/

theorem copyRun_exact {doff soff : Nat} (hd : dest.SameSize dest') (hs : source.SameSize source') :
    Exact (copyRun dest' source' doff soff len) (source.Inside soff len ∧ dest.Inside doff len)
      dest.SameSize :=
  Exact.bind (Image.readRun_exact.congr hs.inside) fun _ _ => Image.writeRun_exact hd

/-- Filling an image only touches pixels. -/
theorem imageFill_exact (h : image.Sized fb) : Exact (imageFill fb image color) True image.SameSize := by
  unfold imageFill
  by_cases h0 : image.height = 0
  · rw [if_pos h0]
    exact Exact.ok .refl
  rw [if_neg h0]
  have hfirst : ∀ x a, 0 ≤ x → x < 0 + image.width → image.SameSize a →
      Exact (a.writeRun (u32 (x * a.depthBytes)) a.depthBytes (screenConvertColor fb color)) True
        image.SameSize := by
    intro x a _ hx ha
    rw [ha.depth]
    refine (Image.writeRun_exact ha).congr (iff_true_intro ?_)
    have hpixel := h.inside_pixel (Nat.pos_of_ne_zero h0) (x := x) (by omega)
    rwa [Nat.zero_mul, Nat.zero_add] at hpixel
  have hrest : ∀ y a, 1 ≤ y → y < 1 + (image.height - 1) → image.SameSize a →
      Exact (copyRun a a (u32 (y * a.pitch)) 0 (u32 (a.width * a.depthBytes))) True image.SameSize := by
    intro y a _ hy ha
    rw [ha.depth, ha.pitch, ha.width]
    have hrow : ∀ y < image.height,
        image.Inside (y * image.pitch) (u32 (image.width * image.depthBytes)) := by
      intro y hy
      have hrun := h.inside hy (x := 0) (n := image.width) (by omega)
      rw [Nat.zero_mul, Nat.add_zero] at hrun
      exact hrun.mono (Nat.mod_le _ _)
    refine (copyRun_exact ha ha).congr (iff_true_intro ⟨?_, Image.inside_u32.mpr (hrow y (by omega))⟩)
    have hzero := hrow 0 (Nat.pos_of_ne_zero h0)
    rwa [Nat.zero_mul] at hzero
  have hend : ∀ a, image.SameSize a →
      Exact (Loop.tryLoop (Loop.tryEach fun y image =>
        copyRun image image (u32 (y * image.pitch)) 0 (u32 (image.width * image.depthBytes)))
        1 (a.height - 1) a) True image.SameSize := by
    intro a ha
    rw [ha.height]
    exact (Exact.tryEach hrest ha).congr (by simp)
  exact ((Exact.tryEach hfirst .refl).bind hend).congr (by simp)

/-- What `image_fill_rect` touches, once the area is clipped. -/
def FillRectFits (image : Image) (a : Area) : Prop :=
  image.height = 0 ∨ match clipArea image a with
    | none => True
    | some a => (∀ i < a.columns, image.Inside (image.pixel (a.x + i) a.y) image.depthBytes) ∧
        ∀ i < a.rows, image.Inside (image.pixel a.x a.y) (wrap (a.w * image.depthBytes)) ∧
          image.Inside (image.pixel a.x (i32 (a.y + 1) + i)) (wrap (a.w * image.depthBytes))

theorem Image.SameSize.pixel (h : image.SameSize image') : image'.pixel = image.pixel := by
  funext x y
  rw [Image.pixel, h.pitch, h.depth, Image.pixel]

theorem imageFillRect_exact {a : Area} :
    Exact (imageFillRect fb image a color) (FillRectFits image a) image.SameSize := by
  unfold imageFillRect FillRectFits
  by_cases h0 : image.height = 0
  · rw [if_pos h0]
    exact (Exact.ok .refl).congr (by simp [h0])
  rw [if_neg h0]
  cases clipArea image a with
  | none => exact (Exact.ok .refl).congr (by simp)
  | some a =>
      have hfirst : ∀ i t, 0 ≤ i → i < 0 + a.columns → image.SameSize t →
          Exact (t.writeRun (t.pixel (a.x + (i : Nat)) a.y) t.depthBytes (screenConvertColor fb color))
            (image.Inside (image.pixel (a.x + (i : Nat)) a.y) image.depthBytes) image.SameSize := by
        intro i t _ _ ht
        rw [ht.pixel, ht.depth]
        exact Image.writeRun_exact ht
      have hrest : ∀ i t, 0 ≤ i → i < 0 + a.rows → image.SameSize t →
          Exact (copyRun t t (t.pixel a.x (i32 (a.y + 1) + (i : Nat))) (t.pixel a.x a.y)
            (wrap (a.w * t.depthBytes)))
            (image.Inside (image.pixel a.x a.y) (wrap (a.w * image.depthBytes)) ∧
              image.Inside (image.pixel a.x (i32 (a.y + 1) + (i : Nat))) (wrap (a.w * image.depthBytes)))
            image.SameSize := by
        intro i t _ _ ht
        rw [ht.pixel, ht.depth]
        exact copyRun_exact ht ht
      exact ((Exact.tryEach hfirst .refl).bind fun t ht => Exact.tryEach hrest ht).congr (by simp [h0])

/-- What `image_copy_area` touches in the rows it gets to. -/
def CopyAreaFits (dest source : Image) (x y sx sy sw sh : Int) : Prop :=
  match clipSpans dest source x sx sw with
  | none => True
  | some r => ∀ i < sh.toNat, (∀ l ≤ i, inRows dest source y sy l) →
      source.Inside (source.pixel r.sx (sy + i)) (wrap (r.sw * source.depthBytes)) ∧
      dest.Inside (dest.pixel r.x (y + i)) (wrap (r.sw * source.depthBytes))

theorem imageCopyArea_exact {same : Bool} {x y sx sy sw sh : Int} (hsame : same = true → source = dest) :
    Exact (imageCopyArea dest source same x y sx sy sw sh) (CopyAreaFits dest source x y sx sy sw sh)
      dest.SameSize := by
  unfold imageCopyArea CopyAreaFits
  cases clipSpans dest source x sx sw with
  | none => exact Exact.ok .refl
  | some r =>
      have hround : ∀ i t, 0 ≤ i → i < 0 + sh.toNat → dest.SameSize t →
          Exact (
            let source := if same then t else source
            if inRows dest source y sy i then
              (copyRun t source (t.pixel r.x (y + (i : Nat))) (source.pixel r.sx (sy + (i : Nat)))
                (wrap (r.sw * source.depthBytes))).bind fun image => .ok (image, true)
            else .ok (t, false) : Except WmFault (Image × Bool))
            (inRows dest source y sy i →
              source.Inside (source.pixel r.sx (sy + (i : Nat))) (wrap (r.sw * source.depthBytes)) ∧
              dest.Inside (dest.pixel r.x (y + (i : Nat))) (wrap (r.sw * source.depthBytes)))
            fun p => dest.SameSize p.1 ∧ (p.2 = true ↔ inRows dest source y sy i) := by
        intro i t _ _ ht
        have hsrc : source.SameSize (if same then t else source) := by
          split
          · next hs => exact hsame hs ▸ ht
          · exact .refl
        generalize (if same then t else source) = source' at hsrc
        have hrows : inRows dest source' y sy i ↔ inRows dest source y sy i := by
          rw [inRows, hsrc.height, inRows]
        dsimp only
        by_cases hin : inRows dest source y sy i
        · rw [if_pos (hrows.mpr hin), ht.pixel, hsrc.pixel, hsrc.depth]
          exact (Exact.bind (copyRun_exact ht hsrc) fun u hu => Exact.ok ⟨hu, by simp [hin]⟩).congr
            (by simp [hin])
        · rw [if_neg fun h => hin (hrows.mp h)]
          exact (Exact.ok ⟨ht, by simp [hin]⟩).congr (by simp [hin])
      refine (Exact.tryLoop hround .refl).congr ?_
      constructor
      · intro h i hi hl
        exact h i (Nat.zero_le i) (by omega) (fun l _ h2 => hl l (by omega)) (hl i (Nat.le_refl i))
      · intro h i _ hi hl hin
        refine h i (by omega) fun l h2 => ?_
        by_cases hli : l = i
        · exact hli ▸ hin
        · exact hl l (Nat.zero_le l) (by omega)

/-! ## clipping without overflow -/

theorem i32_of_small {a : Int} (h1 : -2 ^ 31 ≤ a) (h2 : a < 2 ^ 31) : i32 a = a := by
  simp only [i32, Int.bmod]
  omega

theorem i32_natCast_le (n : Nat) : i32 n ≤ n := by
  simp only [i32, Int.bmod]
  omega

theorem i32_bounds (a : Int) : -2 ^ 31 ≤ i32 a ∧ i32 a < 2 ^ 31 := by
  simp only [i32, Int.bmod]
  omega

/-- What is left starts at 0 or later, and still ends before the overflow. -/
theorem clipStart_some {x w x' w' : Int} (hx : x < 2 ^ 31) (hw : -2 ^ 31 ≤ w) (hend : x + w < 2 ^ 31)
    (h : clipStart x w = some (x', w')) : 0 ≤ x' ∧ x' < 2 ^ 31 ∧ -2 ^ 31 ≤ w' ∧ x' + w' < 2 ^ 31 := by
  have hbounds := i32_bounds (w - x)
  unfold clipStart at h
  split at h
  · split at h
    · contradiction
    · obtain ⟨rfl, rfl⟩ := Prod.mk.inj (Option.some.inj h)
      omega
  · obtain ⟨rfl, rfl⟩ := Prod.mk.inj (Option.some.inj h)
    omega

/-- What is left ends in the image. -/
theorem clipEnd_le {x w : Int} {size : Nat} (hx : 0 ≤ x) (hx' : x < 2 ^ 31) (hw : -2 ^ 31 ≤ w)
    (hend : x + w < 2 ^ 31) (hsize : size < 2 ^ 31) : x + clipEnd x w (i32 size) ≤ size := by
  rw [clipEnd, i32_of_small (by omega) hend, i32_of_small (a := size) (by omega) (by omega)]
  split
  · rw [i32_of_small (by omega) (by omega)]
    omega
  · omega

theorem wrap_natCast (n : Nat) : wrap n = u32 n := by
  simp only [wrap, u32]
  omega

theorem Image.pixel_natCast (x y : Nat) :
    image.pixel x y = u32 (y * image.pitch + x * image.depthBytes) := by
  simp only [Image.pixel, wrap, u32]
  omega

/-- A run of pixels, from a calculation with `int`. -/
theorem Image.Sized.inside_wrap (h : image.Sized fb) (hy : y < image.height) (hx : x + n ≤ image.width) :
    image.Inside (image.pixel x y) (wrap ((n : Int) * image.depthBytes)) := by
  rw [Image.pixel_natCast, Image.inside_u32]
  refine (h.inside hy hx).mono ?_
  rw [← Int.natCast_mul, wrap_natCast]
  exact Nat.mod_le _ _

/-- An area of which the sums of place and size do not overflow is cut so
that all of it is pixels. -/
theorem fillRectFits_of_lt {x y w h : Int} (hs : image.Sized fb) (hwidth : image.width < 2 ^ 31)
    (hheight : image.height < 2 ^ 31) (hx : i32 x + i32 w < 2 ^ 31) (hy : i32 y + i32 h < 2 ^ 31) :
    FillRectFits image ⟨i32 x, i32 y, i32 w, i32 h⟩ := by
  refine .inr ?_
  split
  · trivial
  · next a hc =>
      obtain ⟨⟨x', w'⟩, hcx, hc⟩ := Option.bind_eq_some_iff.mp hc
      obtain ⟨⟨y', h'⟩, hcy, hc⟩ := Option.bind_eq_some_iff.mp hc
      dsimp only at hc
      split at hc
      · contradiction
      next hpos =>
      obtain rfl := Option.some.inj hc
      obtain ⟨hx0, hx1, hw1, hxw⟩ := clipStart_some (i32_bounds x).2 (i32_bounds w).1 hx hcx
      obtain ⟨hy0, hy1, hh1, hyh⟩ := clipStart_some (i32_bounds y).2 (i32_bounds h).1 hy hcy
      have hcols := clipEnd_le hx0 hx1 hw1 hxw hwidth
      have hrows := clipEnd_le hy0 hy1 hh1 hyh hheight
      generalize clipEnd x' w' (i32 image.width) = w'' at *
      generalize clipEnd y' h' (i32 image.height) = h'' at *
      -- from here on all numbers are natural
      obtain ⟨m, rfl⟩ := Int.eq_ofNat_of_zero_le hx0
      obtain ⟨n, rfl⟩ := Int.eq_ofNat_of_zero_le hy0
      obtain ⟨c, rfl⟩ := Int.eq_ofNat_of_zero_le (a := w'') (by omega)
      obtain ⟨r, rfl⟩ := Int.eq_ofNat_of_zero_le (a := h'') (by omega)
      have hrow : ∀ y < image.height,
          image.Inside (image.pixel m (y : Nat)) (wrap ((c : Int) * image.depthBytes)) :=
        fun y hy => hs.inside_wrap hy (by omega)
      constructor
      · intro i hi
        rw [Area.columns] at hi
        dsimp only at hi
        rw [i32_of_small (by omega) (by omega)] at hi
        rw [← Int.natCast_add, Image.pixel_natCast]
        exact hs.inside_pixel (by omega) (by omega)
      · intro i hi
        rw [Area.rows] at hi
        dsimp only at hi
        rw [i32_of_small (by omega) (by omega), i32_of_small (by omega) (by omega)] at hi
        refine ⟨hrow n (by omega), ?_⟩
        have hnext := hrow (n + 1 + i) (by omega)
        dsimp only
        rw [i32_of_small (by omega) (by omega)]
        simpa using hnext

/-- The row of a pixel counts up to overflow. -/
theorem Image.pixel_i32 (x y : Int) : image.pixel x (i32 y) = image.pixel x y := by
  have hwrap : ∃ k, i32 y = y + 2 ^ 32 * k := by
    refine ⟨(i32 y - y) / 2 ^ 32, ?_⟩
    simp only [i32, Int.bmod]
    omega
  obtain ⟨k, hk⟩ := hwrap
  have hmul : (y + 2 ^ 32 * k) * image.pitch + x * image.depthBytes =
      y * image.pitch + x * image.depthBytes + 2 ^ 32 * (k * image.pitch) := by
    rw [Int.add_mul, Int.mul_assoc]
    omega
  rw [Image.pixel, hk, hmul, wrap, Int.add_mul_emod_self_left, Image.pixel, wrap]

/-- An area that starts in both images, of which the sums of place and size
do not overflow, is cut so that all of it is pixels of both. -/
theorem copyAreaFits_of_lt {x y sx sy sw sh : Int} (hd : dest.Sized fb) (hs : source.Sized fb)
    (hwd : dest.width < 2 ^ 31) (hws : source.width < 2 ^ 31) (hx : 0 ≤ i32 x) (hsx : 0 ≤ i32 sx)
    (hsw : 0 ≤ i32 sw) (hend : i32 x + i32 sw < 2 ^ 31) (hsend : i32 sx + i32 sw < 2 ^ 31) :
    CopyAreaFits dest source (i32 x) y (i32 sx) sy (i32 sw) sh := by
  have hspan : ∀ {x w : Int} {size : Nat} {r : Int × Int}, 0 ≤ x → x < 2 ^ 31 → 0 ≤ w → x + w < 2 ^ 31 →
      size < 2 ^ 31 → clipSpan x w (i32 size) = some r →
      r.1 = x ∧ 0 ≤ r.2 ∧ r.2 ≤ w ∧ x + r.2 ≤ size := by
    intro x w size r h0 h1 h2 h3 h4 h
    have hle := clipEnd_le h0 h1 (by omega) h3 h4
    have hcut : clipEnd x w (i32 size) = if x + w ≥ size then (size : Int) - x else w := by
      rw [clipEnd, i32_of_small (by omega) h3, i32_of_small (a := size) (by omega) (by omega)]
      split
      · exact i32_of_small (by omega) (by omega)
      · rfl
    rw [clipSpan, if_neg (by omega), i32_of_small (by omega) h3,
      i32_of_small (a := size) (by omega) (by omega)] at h
    split at h
    · contradiction
    · next hc =>
        obtain rfl := Option.some.inj h
        dsimp only
        rw [i32_of_small (a := size) (by omega) (by omega)] at hcut hle
        split at hcut
        · omega
        · omega
  unfold CopyAreaFits
  split
  · trivial
  · next r hc =>
      obtain ⟨⟨x', w'⟩, hcx, hc⟩ := Option.bind_eq_some_iff.mp hc
      obtain ⟨⟨sx', sw'⟩, hcs, rfl⟩ := Option.map_eq_some_iff.mp hc
      obtain ⟨rfl, hw0, hw, hcols⟩ := hspan hx (i32_bounds x).2 hsw hend hwd hcx
      dsimp only at hw0 hw hcols hcs
      obtain ⟨rfl, hsw0, hsw', hscols⟩ := hspan hsx (i32_bounds sx).2 hw0 (by omega) hws hcs
      dsimp only at hsw0 hsw' hscols
      intro i _ hin
      obtain ⟨h1, h2, h3, h4⟩ := hin i (Nat.le_refl i)
      have hrows := i32_natCast_le source.height
      have hrowd := i32_natCast_le dest.height
      have hdepth : source.depthBytes = dest.depthBytes := hs.depth.trans hd.depth.symm
      rw [Int.add_comm (i : Int)] at h1 h2 h3 h4
      rw [← Image.pixel_i32 _ (sy + i), ← Image.pixel_i32 _ (y + i)]
      dsimp only
      generalize i32 (sy + i) = a at *
      generalize i32 (y + i) = b at *
      generalize i32 x = x' at *
      generalize i32 sx = sx' at *
      obtain ⟨a, rfl⟩ := Int.eq_ofNat_of_zero_le h1
      obtain ⟨b, rfl⟩ := Int.eq_ofNat_of_zero_le h3
      obtain ⟨x', rfl⟩ := Int.eq_ofNat_of_zero_le hx
      obtain ⟨sx', rfl⟩ := Int.eq_ofNat_of_zero_le hsx
      obtain ⟨c, rfl⟩ := Int.eq_ofNat_of_zero_le hsw0
      refine ⟨hs.inside_wrap (by omega) (by omega), ?_⟩
      rw [hdepth]
      exact hd.inside_wrap (by omega) (by omega)

/-- Only the sizes count. -/
theorem fillRectFits_congr {a : Area} (h : image.SameSize image') :
    FillRectFits image' a ↔ FillRectFits image a := by
  simp only [FillRectFits, clipArea, h.width, h.height, h.depth, h.pixel, h.inside]

theorem copyAreaFits_congr {x y sx sy sw sh : Int} (hd : dest.SameSize dest')
    (hs : source.SameSize source') :
    CopyAreaFits dest' source' x y sx sy sw sh ↔ CopyAreaFits dest source x y sx sy sw sh := by
  simp only [CopyAreaFits, clipSpans, inRows, hd.width, hd.height, hd.pixel, hd.inside, hs.width,
    hs.height, hs.depth, hs.pixel, hs.inside]

/-- Writing pixels only touches them; without columns there are none, and
the loop divides by their number unless it has nothing to do. -/
theorem imageSetData_exact {format offset size : Nat} {data : Nat → Except WmFault UInt8}
    (h : image.Sized fb) (hf : 0 < format) (ho : offset < 2 ^ 32) (hs : size < 2 ^ 32)
    (hdata : ∀ p < size * (format + 2), ∃ b, data p = .ok b) :
    Exact (imageSetData fb image format offset size data)
      (image.width = 0 → size = 0 ∨ 2 ^ 32 ≤ offset + size) image.SameSize := by
  have hrounds : ∀ i < offset + (u32 (offset + size) - offset), i < offset + size := by
    intro i hi
    have := Nat.mod_le (offset + size) (2 ^ 32)
    simp only [u32] at hi
    omega
  have hround : ∀ i t, offset ≤ i → i < offset + (u32 (offset + size) - offset) → image.SameSize t →
      Exact (
        if t.width = 0 then .error .divZero
        else if i / t.width ≥ t.height then .ok (t, false)
        else
          let p := (i - offset) * (format + 2)
          (data p).bind fun r => (data (p + 1)).bind fun g => (data (p + 2)).bind fun b =>
          (t.writeRun (u32 (i / t.width * t.pitch + i % t.width * t.depthBytes))
            t.depthBytes (screenConvertColor fb ⟨r, g, b⟩)).bind fun image => .ok (image, true)
        : Except WmFault (Image × Bool))
        (image.width ≠ 0) fun p => image.SameSize p.1 ∧ (p.2 = true ↔ i / image.width < image.height) := by
    intro i t h1 h2 ht
    rw [ht.width, ht.height, ht.pitch, ht.depth]
    by_cases h0 : image.width = 0
    · rw [if_pos h0]
      exact Exact.error.congr (by simp [h0])
    rw [if_neg h0]
    by_cases hy : i / image.width ≥ image.height
    · rw [if_pos hy]
      exact (Exact.ok ⟨ht, by simp [hy]⟩).congr (by simp [h0])
    rw [if_neg hy]
    have hp : (i - offset) * (format + 2) + (format + 2) ≤ size * (format + 2) := by
      have hi := hrounds i h2
      rw [← Nat.succ_mul]
      exact Nat.mul_le_mul_right _ (by omega)
    obtain ⟨r, hr⟩ := hdata ((i - offset) * (format + 2)) (by omega)
    obtain ⟨g, hg⟩ := hdata ((i - offset) * (format + 2) + 1) (by omega)
    obtain ⟨b, hb⟩ := hdata ((i - offset) * (format + 2) + 2) (by omega)
    dsimp only
    rw [hr, hg, hb]
    have hwrite := h.inside_pixel (Nat.not_le.mp hy) (Nat.mod_lt i (Nat.pos_of_ne_zero h0))
    refine (Exact.bind (Image.writeRun_exact ht) fun u hu => Exact.ok ⟨hu, ?_⟩).congr ?_
    · simp [h0, hwrite]
    · simpa using hy
  refine (Exact.tryLoop hround .refl).congr ?_
  constructor
  · intro hall h0
    refine Decidable.byContradiction fun hn => ?_
    refine hall offset (Nat.le_refl _) ?_ (fun l h1 h2 => by omega) h0
    simp only [u32]
    omega
  · intro hwidth i h1 h2 _ h0
    simp only [u32] at h2
    have := hwidth h0
    omega

end Eclair
