import Eclair.Wm.Draw

/-!
# Eclair.Wm.Clip

The rectangles that `image_fill_rect` of `bin/wm/screen.c` fills, pixel by pixel.

What starts before 0 is moved there, but the length grows by what is cut
(`w -= x` for a negative `x`).  `fillsRect_iff` says for which arguments the
pixels are right all the same.
-/

namespace Eclair

/-- A value of `int`. -/
def IsInt (a : Int) : Prop := -2 ^ 31 ≤ a ∧ a < 2 ^ 31

instance (a : Int) : Decidable (IsInt a) := inferInstanceAs (Decidable (_ ∧ _))

/-- An image that is in memory: its sizes and the offsets of its bytes are of `int`. -/
structure Image.Real (image : Image) : Prop where
  depth : 0 < image.depthBytes
  pitch : image.pitch = image.width * image.depthBytes
  width : image.width < 2 ^ 31
  height : image.height < 2 ^ 31
  extent : image.extent < 2 ^ 31

/-- A byte of a pixel. -/
def Image.byteOf (image : Image) (c r i : Nat) : UInt8 :=
  image.data (r * image.pitch + c * image.depthBytes + i)

/-- `image'` is `image` with the bytes of its pixels as `f` says. -/
structure Image.Becomes (image image' : Image) (f : Nat → Nat → Nat → UInt8) : Prop where
  size : image.SameSize image'
  bytes : ∀ c < image.width, ∀ r < image.height, ∀ i < image.depthBytes, image'.byteOf c r i = f c r i

/-- `c` is one of the `n` columns (or rows) from `x` on. -/
def Covers (x n : Int) (c : Nat) : Prop := x ≤ c ∧ c < x + n

instance (x n : Int) (c : Nat) : Decidable (Covers x n c) := inferInstanceAs (Decidable (_ ∧ _))

/-- The sum for the end of `n` columns from `x` on is an `int`, after `x` has
been moved to 0 and `n` has grown if `x` is negative. -/
def SumFits (x n : Int) : Prop := x.natAbs + n < 2 ^ 31

instance (x n : Int) : Decidable (SumFits x n) := inferInstanceAs (Decidable (_ < _))

/-! ## filling -/

structure Area.Ints (a : Area) : Prop where
  x : IsInt a.x
  y : IsInt a.y
  w : IsInt a.w
  h : IsInt a.h

/-- The existing pixels of the rectangle are set. -/
def fillSpec (fb : Display) (image : Image) (a : Area) (color : Color) (c r i : Nat) : UInt8 :=
  if Covers a.x a.w c ∧ Covers a.y a.h r then screenConvertColor fb color i else image.byteOf c r i

/-- No sum of `int` overflows; the rows are looked at unless the columns end the call. -/
def FillDefined (image : Image) (a : Area) : Prop :=
  image.height = 0 ∨ SumFits a.x a.w ∧ (a.x < 0 ∧ a.w < a.x ∨ SumFits a.y a.h)

/-- `image_fill_rect` sets the pixels it should in every image of this size,
and only touches pixels.  C says so of no call in which an `int` overflows. -/
def FillsRect (fb : Display) (image : Image) (a : Area) : Prop :=
  FillDefined image a ∧ ∀ image', image.SameSize image' → ∀ color,
    ∃ image'', imageFillRect fb image' a color = .ok image'' ∧
      image'.Becomes image'' (fillSpec fb image' a color)

/-- Nothing is left of the columns, with the length grown as the source has it. -/
def Void (x n : Int) (size : Nat) : Prop := x.natAbs + n ≤ max x 0 ∨ (size : Int) ≤ max x 0

instance (x n : Int) (size : Nat) : Decidable (Void x n size) := inferInstanceAs (Decidable (_ ∨ _))

/-- The columns start in the image, or end behind it. -/
def StartsOrPasses (x n : Int) (size : Nat) : Prop := 0 ≤ x ∨ (size : Int) ≤ x + n

instance (x n : Int) (size : Nat) : Decidable (StartsOrPasses x n size) :=
  inferInstanceAs (Decidable (_ ∨ _))

/-- The columns that clipping leaves; none if it is not positive. -/
def filled (x n : Int) (size : Nat) : Int := min (x.natAbs + n) size - max x 0

/-- When `image_fill_rect` is right. -/
def FillWhen (image : Image) (a : Area) : Prop :=
  FillDefined image a ∧ (Void a.x a.w image.width ∨ Void a.y a.h image.height ∨
    StartsOrPasses a.x a.w image.width ∧ StartsOrPasses a.y a.h image.height)

/-! ## the bytes of an image -/

variable {fb : Display} {image image' image'' dest dest' source source' : Image} {c r i n p off len : Nat}

theorem wrap_lt (a : Int) : wrap a < 2 ^ 32 := by
  simp only [wrap]
  omega

theorem Image.pixel_lt (image : Image) (x y : Int) : image.pixel x y < 2 ^ 32 := wrap_lt _

theorem Image.Real.sameSize (h : image.Real) (hs : image.SameSize image') : image'.Real :=
  ⟨hs.depth ▸ h.depth, by rw [hs.pitch, hs.width, hs.depth, h.pitch], hs.width ▸ h.width,
    hs.height ▸ h.height, hs.extent ▸ h.extent⟩

/-- A byte counted in pixels. -/
theorem Image.Real.place (h : image.Real) (c r : Nat) :
    r * image.pitch + c * image.depthBytes = (r * image.width + c) * image.depthBytes := by
  rw [h.pitch, Nat.add_mul, Nat.mul_assoc]

theorem Image.Real.byte_lt (h : image.Real) (hc : c < image.width) (hr : r < image.height)
    (hi : i < image.depthBytes) : r * image.pitch + c * image.depthBytes + i < image.extent := by
  have hrow : (r + 1) * image.width ≤ image.height * image.width := Nat.mul_le_mul_right _ hr
  have hpixel : (r * image.width + c + 1) * image.depthBytes ≤ image.extent := by
    rw [Image.extent, Nat.mul_comm image.width]
    refine Nat.mul_le_mul_right _ ?_
    rw [Nat.succ_mul] at hrow
    omega
  rw [h.place]
  rw [Nat.succ_mul] at hpixel
  omega

/-- Every byte of the data is one of a pixel. -/
theorem Image.Real.exists_pixel (h : image.Real) (hp : p < image.extent) :
    ∃ c < image.width, ∃ r < image.height, ∃ i < image.depthBytes,
      p = r * image.pitch + c * image.depthBytes + i := by
  have hpixel : p / image.depthBytes < image.width * image.height := by
    rw [Nat.div_lt_iff_lt_mul h.depth]
    exact hp
  have hwidth : 0 < image.width := by
    refine Nat.pos_of_ne_zero fun h0 => ?_
    rw [h0, Nat.zero_mul] at hpixel
    exact Nat.not_lt_zero _ hpixel
  refine ⟨p / image.depthBytes % image.width, Nat.mod_lt _ hwidth,
    p / image.depthBytes / image.width, ?_, p % image.depthBytes, Nat.mod_lt _ h.depth, ?_⟩
  · rw [Nat.div_lt_iff_lt_mul hwidth, Nat.mul_comm]
    exact hpixel
  · rw [h.place, Nat.div_add_mod', Nat.div_add_mod']

/-- The bytes of the `n` pixels of a row from a column on. -/
theorem Image.Real.mem_run (h : image.Real) {x y : Nat} (hc : c < image.width)
    (hi : i < image.depthBytes) (hx : x + n ≤ image.width) :
    y * image.pitch + x * image.depthBytes ≤ r * image.pitch + c * image.depthBytes + i ∧
      r * image.pitch + c * image.depthBytes + i
        < y * image.pitch + x * image.depthBytes + n * image.depthBytes ↔
    r = y ∧ x ≤ c ∧ c < x + n := by
  have hdiv : ((r * image.width + c) * image.depthBytes + i) / image.depthBytes
      = r * image.width + c := by
    rw [Nat.mul_comm, Nat.mul_add_div h.depth, Nat.div_eq_of_lt hi, Nat.add_zero]
  rw [h.place, h.place, ← Nat.add_mul, ← Nat.le_div_iff_mul_le h.depth,
    ← Nat.div_lt_iff_lt_mul h.depth, hdiv]
  constructor
  · rintro ⟨hle, hlt⟩
    have hrow : r = y := by
      refine Nat.le_antisymm (Nat.not_lt.mp fun hgt => ?_) (Nat.not_lt.mp fun hgt => ?_)
      · have hnext := Nat.mul_le_mul_right image.width (Nat.succ_le_of_lt hgt)
        rw [Nat.succ_mul] at hnext
        omega
      · have hnext := Nat.mul_le_mul_right image.width (Nat.succ_le_of_lt hgt)
        rw [Nat.succ_mul] at hnext
        omega
    subst hrow
    omega
  · rintro ⟨rfl, hle, hlt⟩
    omega

/-- The data after a run of bytes is written. -/
theorem Image.Real.writeRun_data (h : image.Real) {b : Nat → UInt8} (hoff : off < 2 ^ 32)
    (hin : image.Inside off len) : ∃ image', image.writeRun off len b = .ok image' ∧
      image.SameSize image' ∧ ∀ p < image.extent,
        image'.data p = if off ≤ p ∧ p < off + len then b (p - off) else image.data p := by
  have hextent := h.extent
  refine ⟨_, if_pos hin, ⟨rfl, rfl, rfl, rfl⟩, fun p hp => ?_⟩
  dsimp only
  have hend : len = 0 ∨ off + len ≤ image.extent := by
    have := Image.inside_iff.mp hin
    rw [u32_of_lt hoff] at this
    omega
  have hmem : sub32 p off < len ↔ off ≤ p ∧ p < off + len := by
    simp only [sub32, u32]
    omega
  have hsub : off ≤ p → sub32 p off = p - off := by
    simp only [sub32, u32]
    omega
  simp only [hmem]
  split
  · next hp => rw [hsub hp.1]
  · rfl

/-- The data after a run of bytes is copied. -/
theorem copyRun_data (hd : dest.Real) (hs : source.Real) {doff soff : Nat} (hdoff : doff < 2 ^ 32)
    (hsoff : soff < 2 ^ 32) (hsin : source.Inside soff len) (hdin : dest.Inside doff len) :
    ∃ image, copyRun dest source doff soff len = .ok image ∧ dest.SameSize image ∧
      ∀ p < dest.extent, image.data p =
        if doff ≤ p ∧ p < doff + len then source.data (soff + (p - doff)) else dest.data p := by
  have hextent := hs.extent
  obtain ⟨image, hok, hsize, hdata⟩ := hd.writeRun_data
    (b := fun i => source.data (u32 (soff + i))) hdoff hdin
  refine ⟨image, ?_, hsize, fun p hp => ?_⟩
  · rw [copyRun, Image.readRun, if_pos hsin]
    exact hok
  · rw [hdata p hp]
    split
    · next hmem =>
        have hend : soff + len ≤ source.extent := by
          have := Image.inside_iff.mp hsin
          rw [u32_of_lt hsoff] at this
          omega
        rw [u32_of_lt (by omega)]
    · rfl

theorem Image.Real.run_le (h : image.Real) {x y : Nat} (hy : y < image.height)
    (hx : x + n ≤ image.width) :
    y * image.pitch + x * image.depthBytes + n * image.depthBytes ≤ image.extent := by
  rw [h.place, ← Nat.add_mul, Image.extent]
  refine Nat.mul_le_mul_right _ ?_
  have hrow := Nat.mul_le_mul_right image.width (Nat.succ_le_of_lt hy)
  rw [Nat.succ_mul, Nat.mul_comm image.height] at hrow
  omega

/-- The offset of a run in the image does not wrap around. -/
theorem Image.Real.pixel_eq (h : image.Real) {x y : Nat} (hy : y < image.height) (hx : x ≤ image.width) :
    image.pixel x y = y * image.pitch + x * image.depthBytes := by
  have hle := h.run_le hy (n := 0) hx
  have hextent := h.extent
  rw [Image.pixel_natCast, u32_of_lt (by omega)]

theorem Image.Real.inside_run (h : image.Real) {x y : Nat} (hy : y < image.height)
    (hx : x + n ≤ image.width) : image.Inside (image.pixel x y) (n * image.depthBytes) := by
  have hle := h.run_le hy hx
  have hextent := h.extent
  rw [h.pixel_eq hy (by omega)]
  exact Image.inside_iff.mpr (.inr (.inr (by rwa [u32_of_lt (by omega)])))

theorem Image.Real.wrap_columns (h : image.Real) (hheight : 0 < image.height) (hn : n ≤ image.width) :
    wrap ((n : Int) * image.depthBytes) = n * image.depthBytes := by
  have hle := h.run_le hheight (x := 0) (n := n) (by omega)
  have hextent := h.extent
  rw [← Int.natCast_mul, wrap_natCast, u32_of_lt (by omega)]

/-- A run of bytes that starts with a pixel is one of pixels. -/
theorem Image.Real.becomes_of_run (h : image.Real) (hsize : image.SameSize image') {x y : Nat}
    {b : Nat → UInt8} (hy : y < image.height) (hx : x + n ≤ image.width)
    (hdata : ∀ p < image.extent, image'.data p =
      if image.pixel x y ≤ p ∧ p < image.pixel x y + n * image.depthBytes
      then b (p - image.pixel x y) else image.data p) :
    image.Becomes image' fun c r i =>
      if r = y ∧ x ≤ c ∧ c < x + n then b ((c - x) * image.depthBytes + i) else image.byteOf c r i := by
  refine ⟨hsize, fun c hc r hr i hi => ?_⟩
  rw [Image.byteOf, hsize.pitch, hsize.depth, hdata _ (h.byte_lt hc hr hi), h.pixel_eq hy (by omega)]
  simp only [h.mem_run hc hi hx]
  split
  · next hmem =>
      obtain ⟨rfl, hle, -⟩ := hmem
      obtain ⟨k, rfl⟩ := Nat.exists_eq_add_of_le hle
      rw [Nat.add_mul, Nat.add_sub_cancel_left]
      congr 1
      omega
  · rfl

/-- A pixel is set. -/
theorem writeRun_becomes (h : image.Real) {x y : Nat} (hy : y < image.height) (hx : x < image.width)
    (b : Nat → UInt8) :
    ∃ image', image.writeRun (image.pixel x y) image.depthBytes b = .ok image' ∧
      image.Becomes image' fun c r i => if r = y ∧ c = x then b i else image.byteOf c r i := by
  have hin := h.inside_run hy (n := 1) (Nat.succ_le_of_lt hx)
  rw [Nat.one_mul] at hin
  obtain ⟨image', hok, hsize, hdata⟩ := h.writeRun_data (b := b) (image.pixel_lt x y) hin
  have hrun := h.becomes_of_run (n := 1) (b := b) hsize hy (Nat.succ_le_of_lt hx)
    (by rwa [Nat.one_mul])
  refine ⟨image', hok, hsize, fun c hc r hr i hi => ?_⟩
  rw [hrun.bytes c hc r hr i hi]
  by_cases hmem : r = y ∧ c = x
  · obtain ⟨rfl, rfl⟩ := hmem
    simp
  · rw [if_neg hmem, if_neg (by omega)]

/-- The pixels of a row are copied. -/
theorem copyRun_becomes (hd : dest.Real) (hs : source.Real)
    (hdepth : source.depthBytes = dest.depthBytes) {x y sx sy : Nat} (n : Nat) (hy : y < dest.height)
    (hsy : sy < source.height) (hx : x + n ≤ dest.width) (hsx : sx + n ≤ source.width) :
    ∃ image, copyRun dest source (dest.pixel x y) (source.pixel sx sy) (n * dest.depthBytes) = .ok image ∧
      dest.Becomes image fun c r i =>
        if r = y ∧ x ≤ c ∧ c < x + n then source.byteOf (sx + (c - x)) sy i else dest.byteOf c r i := by
  obtain ⟨image, hok, hsize, hdata⟩ := copyRun_data hd hs (dest.pixel_lt x y) (source.pixel_lt sx sy)
    (hdepth ▸ hs.inside_run hsy hsx) (hd.inside_run hy hx)
  have hrun := hd.becomes_of_run (b := fun k => source.data (source.pixel sx sy + k)) hsize hy hx hdata
  refine ⟨image, hok, hsize, fun c hc r hr i hi => ?_⟩
  rw [hrun.bytes c hc r hr i hi]
  refine if_ctx_congr Iff.rfl (fun _ => ?_) fun _ => rfl
  rw [Image.byteOf, hs.pixel_eq hsy (by omega), hdepth, Nat.add_mul]
  congr 1
  omega

theorem Image.Becomes.refl : image.Becomes image image.byteOf :=
  ⟨.refl, fun _ _ _ _ _ _ => rfl⟩

/-- The bytes where they are. -/
theorem Image.Becomes.data {f : Nat → Nat → Nat → UInt8} (h : image.Becomes image' f)
    (hc : c < image.width) (hr : r < image.height) (hi : i < image.depthBytes) :
    image'.data (r * image.pitch + c * image.depthBytes + i) = f c r i := by
  rw [← h.bytes c hc r hr i hi, Image.byteOf, h.size.pitch, h.size.depth]

theorem Image.Becomes.congr {f g : Nat → Nat → Nat → UInt8} (h : image.Becomes image' f)
    (hfg : ∀ c < image.width, ∀ r < image.height, ∀ i < image.depthBytes, f c r i = g c r i) :
    image.Becomes image' g :=
  ⟨h.size, fun c hc r hr i hi => (h.bytes c hc r hr i hi).trans (hfg c hc r hr i hi)⟩

/-- Two steps, the second one from what the first one left. -/
theorem Image.Becomes.trans {f g k : Nat → Nat → Nat → UInt8} (h : image.Becomes image' f)
    (h' : image'.Becomes image'' g)
    (hk : ∀ c < image.width, ∀ r < image.height, ∀ i < image.depthBytes, g c r i = k c r i) :
    image.Becomes image'' k := by
  refine ⟨h.size.trans h'.size, fun c hc r hr i hi => ?_⟩
  rw [← hk c hc r hr i hi]
  exact h'.bytes c (h.size.width ▸ hc) r (h.size.height ▸ hr) i (h.size.depth ▸ hi)

/-- An image of the same sizes, with other bytes. -/
def Image.withData (image : Image) (f : Nat → UInt8) : Image := { image with data := f }

theorem Image.Real.withData (h : image.Real) (f : Nat → UInt8) : (image.withData f).Real :=
  h.sameSize ⟨rfl, rfl, rfl, rfl⟩

theorem Image.SameSize.eq_withData (h : image.SameSize image') : image' = image.withData image'.data := by
  obtain ⟨hwidth, hheight, hdepth, hpitch⟩ := h
  cases image'
  simp_all [Image.withData]

/-- One byte that is not like the others. -/
def mark (q p : Nat) : UInt8 := if p = q then 1 else 0

@[simp] theorem mark_self (q : Nat) : mark q q = 1 := if_pos rfl

theorem mark_eq_one {q : Nat} : mark q p = 1 ↔ p = q := by
  unfold mark
  split <;> simp_all

/-! ## what is filled -/

/-- The pixels of the first row are set one by one. -/
theorem fillColumns_becomes (h : image.Real) {x y : Nat} (hy : y < image.height)
    (hx : x + n ≤ image.width) (b : Nat → UInt8) :
    ∃ image', Loop.tryLoop (Loop.tryEach fun i t =>
        t.writeRun (t.pixel ((x : Int) + (i : Nat)) y) t.depthBytes b) 0 n image = .ok image' ∧
      image.Becomes image' fun c r i =>
        if r = y ∧ x ≤ c ∧ c < x + n then b i else image.byteOf c r i := by
  let I (j : Nat) (t : Image) : Prop := image.Becomes t fun c r i =>
    if r = y ∧ x ≤ c ∧ c < x + j then b i else image.byteOf c r i
  have hstart : I 0 image := Image.Becomes.refl.congr fun c _ r _ i _ => by
    rw [if_neg (by omega)]
  have hround : ∀ j t, 0 ≤ j → j < 0 + n → I j t → ∃ u, Loop.tryEach (fun i t =>
      t.writeRun (t.pixel ((x : Int) + (i : Nat)) y) t.depthBytes b) j t = .ok (u, true) ∧ I (j + 1) u := by
    intro j t _ hj ht
    obtain ⟨u, hu, hpixel⟩ := writeRun_becomes (h.sameSize ht.size) (x := x + j)
      (ht.size.height ▸ hy) (by rw [ht.size.width]; omega) b
    refine ⟨u, ?_, ht.trans hpixel fun c hc r hr i hi => ?_⟩
    · rw [Loop.tryEach, ← Int.natCast_add, hu, Except.bind]
    · rw [ht.bytes c hc r hr i hi]
      by_cases hcr : r = y ∧ c = x + j
      · rw [if_pos hcr, if_pos (by omega)]
      · rw [if_neg hcr]
        exact if_ctx_congr (by omega) (fun _ => rfl) fun _ => rfl
  obtain ⟨image', hok, hI, -⟩ := Loop.tryLoop_spec hround hstart
  rw [Nat.zero_add] at hI
  exact ⟨image', hok, hI⟩

/-- The first row is copied to the others. -/
theorem fillRows_becomes (h : image.Real) {x y m : Nat} (hy : y + 1 + n ≤ image.height)
    (hx : x + m ≤ image.width) :
    ∃ image', Loop.tryLoop (Loop.tryEach fun i t =>
        copyRun t t (t.pixel x ((y + 1 : Nat) + (i : Nat))) (t.pixel x y) (wrap ((m : Int) * t.depthBytes)))
        0 n image = .ok image' ∧
      image.Becomes image' fun c r i =>
        if (x ≤ c ∧ c < x + m) ∧ y < r ∧ r < y + 1 + n then image.byteOf c y i else image.byteOf c r i := by
  let I (j : Nat) (t : Image) : Prop := image.Becomes t fun c r i =>
    if (x ≤ c ∧ c < x + m) ∧ y < r ∧ r < y + 1 + j then image.byteOf c y i else image.byteOf c r i
  have hstart : I 0 image := Image.Becomes.refl.congr fun c _ r _ i _ => by
    rw [if_neg (by omega)]
  have hround : ∀ j t, 0 ≤ j → j < 0 + n → I j t → ∃ u, Loop.tryEach (fun i t =>
      copyRun t t (t.pixel x ((y + 1 : Nat) + (i : Nat))) (t.pixel x y) (wrap ((m : Int) * t.depthBytes))) j t
        = .ok (u, true) ∧ I (j + 1) u := by
    intro j t _ hj ht
    have hreal := h.sameSize ht.size
    obtain ⟨u, hu, hrow⟩ := copyRun_becomes hreal hreal rfl m
      (show y + 1 + j < t.height by rw [ht.size.height]; omega)
      (show y < t.height by rw [ht.size.height]; omega)
      (show x + m ≤ t.width by rw [ht.size.width]; omega)
      (show x + m ≤ t.width by rw [ht.size.width]; omega)
    rw [← hreal.wrap_columns (by rw [ht.size.height]; omega) (by rw [ht.size.width]; omega)] at hu
    refine ⟨u, ?_, ht.trans hrow fun c hc r hr i hi => ?_⟩
    · rw [Loop.tryEach, ← Int.natCast_add, hu, Except.bind]
    · by_cases hcr : r = y + 1 + j ∧ x ≤ c ∧ c < x + m
      · -- the first row is as it was
        rw [if_pos hcr, if_pos (by omega), Nat.add_sub_cancel' hcr.2.1, ht.bytes c hc y (by omega) i hi,
          if_neg (by omega)]
      · rw [if_neg hcr, ht.bytes c hc r hr i hi]
        exact if_ctx_congr (by omega) (fun _ => rfl) fun _ => rfl
  obtain ⟨image', hok, hI, -⟩ := Loop.tryLoop_spec hround hstart
  rw [Nat.zero_add] at hI
  exact ⟨image', hok, hI⟩

/-- The two loops of `image_fill_rect`, over an area that is clipped. -/
def fillArea (fb : Display) (a : Area) (color : Color) (image : Image) : Except WmFault Image :=
  (Loop.tryLoop (Loop.tryEach fun i image =>
    image.writeRun (image.pixel (a.x + i) a.y) image.depthBytes (screenConvertColor fb color))
    0 a.columns image).bind fun image =>
  Loop.tryLoop (Loop.tryEach fun i image =>
    copyRun image image (image.pixel a.x (i32 (a.y + 1) + i)) (image.pixel a.x a.y)
      (wrap (a.w * image.depthBytes)))
    0 a.rows image

theorem imageFillRect_eq (a : Area) (color : Color) :
    imageFillRect fb image a color =
      if image.height = 0 then .ok image
      else match clipArea image a with
      | none => .ok image
      | some a => fillArea fb a color image := rfl

theorem fillArea_becomes (fb : Display) (h : image.Real) {x y m k : Nat} (hx : x + m ≤ image.width)
    (hy : y + (k + 1) ≤ image.height) (color : Color) :
    ∃ image', fillArea fb ⟨x, y, m, (k + 1 : Nat)⟩ color image = .ok image' ∧
      image.Becomes image' fun c r i => if (x ≤ c ∧ c < x + m) ∧ y ≤ r ∧ r < y + (k + 1) then
        screenConvertColor fb color i else image.byteOf c r i := by
  have hwidth := h.width
  have hheight := h.height
  have hcols : Area.columns ⟨x, y, m, (k + 1 : Nat)⟩ = m := by
    simp only [Area.columns]
    rw [i32_of_small (by omega) (by omega)]
    omega
  have hrows : Area.rows ⟨x, y, m, (k + 1 : Nat)⟩ = k := by
    simp only [Area.rows]
    rw [i32_of_small (by omega) (by omega), i32_of_small (by omega) (by omega)]
    omega
  have hnext : i32 ((y : Int) + 1) = (y + 1 : Nat) := by
    rw [i32_of_small (by omega) (by omega)]
    omega
  obtain ⟨t, ht, hfirst⟩ := fillColumns_becomes h (x := x) (y := y) (n := m) (by omega) hx
    (screenConvertColor fb color)
  have hreal := h.sameSize hfirst.size
  obtain ⟨image', hok, hrest⟩ := fillRows_becomes hreal (x := x) (y := y) (m := m) (n := k)
    (by rw [hfirst.size.height]; omega) (by rw [hfirst.size.width]; omega)
  refine ⟨image', ?_, hfirst.trans hrest fun c hc r hr i hi => ?_⟩
  · unfold fillArea
    dsimp only
    rw [hcols, hrows, hnext, ht]
    exact hok
  · rw [hfirst.bytes c hc y (by omega) i hi, hfirst.bytes c hc r hr i hi]
    by_cases hcol : x ≤ c ∧ c < x + m
    · by_cases hrow : r = y
      · rw [if_neg (by omega), if_pos (by omega), if_pos (by omega)]
      · by_cases hin : y < r ∧ r < y + 1 + k
        · rw [if_pos (by omega), if_pos (by omega), if_pos (by omega)]
        · rw [if_neg (by omega), if_neg (by omega), if_neg (by omega)]
    · rw [if_neg (by omega), if_neg (by omega), if_neg (by omega)]

theorem clipStart_eq {x n : Int} (hx : IsInt x) (hn : IsInt n) (hs : SumFits x n) :
    clipStart x n = if x < 0 ∧ n < x then none else some (max x 0, x.natAbs + n - max x 0) := by
  simp only [IsInt, SumFits] at *
  unfold clipStart
  by_cases h0 : x < 0
  · rw [if_pos h0, i32_of_small (by omega) (by omega)]
    by_cases hend : n - x < 0
    · rw [if_pos hend, if_pos (by omega)]
    · rw [if_neg hend, if_neg (by omega), show max x 0 = 0 by omega]
      congr 2
      omega
  · rw [if_neg h0, if_neg (by omega), show max x 0 = x by omega]
    congr 2
    omega

theorem clipEnd_eq {x n : Int} {size : Nat} (hx : IsInt x) (hn : IsInt n) (hs : SumFits x n)
    (hsize : size < 2 ^ 31) :
    clipEnd (max x 0) (x.natAbs + n - max x 0) (i32 size) = filled x n size := by
  simp only [IsInt, SumFits, filled] at *
  rw [clipEnd, i32_of_small (a := size) (by omega) (by omega), i32_of_small (by omega) (by omega)]
  split
  · rw [i32_of_small (by omega) (by omega)]
    omega
  · omega

/-- The clipping, where no sum overflows. -/
theorem clipArea_eq {a : Area} (h : image.Real) (ha : a.Ints) (hx : SumFits a.x a.w)
    (hy : a.x < 0 ∧ a.w < a.x ∨ SumFits a.y a.h) :
    clipArea image a =
      if 0 < filled a.x a.w image.width ∧ 0 < filled a.y a.h image.height then
        some ⟨max a.x 0, max a.y 0, filled a.x a.w image.width, filled a.y a.h image.height⟩
      else none := by
  have hvoid : ∀ {x n : Int} {size : Nat}, x < 0 ∧ n < x → ¬0 < filled x n size := by
    intro x n size hn
    simp only [filled]
    omega
  unfold clipArea
  rw [clipStart_eq ha.x ha.w hx]
  by_cases hendx : a.x < 0 ∧ a.w < a.x
  · rw [if_pos hendx, if_neg fun hpos => hvoid hendx hpos.1]
    rfl
  have hy' := hy.resolve_left hendx
  rw [if_neg hendx, clipStart_eq ha.y ha.h hy']
  by_cases hendy : a.y < 0 ∧ a.h < a.y
  · rw [if_pos hendy, if_neg fun hpos => hvoid hendy hpos.2]
    rfl
  rw [if_neg hendy]
  simp only [Option.bind_some]
  rw [clipEnd_eq ha.x ha.w hx h.width, clipEnd_eq ha.y ha.h hy' h.height]
  by_cases hpos : 0 < filled a.x a.w image.width ∧ 0 < filled a.y a.h image.height
  · rw [if_pos hpos, if_neg (by omega)]
  · rw [if_neg hpos, if_pos (by omega)]

/-- What `image_fill_rect` does where no sum overflows: it fills as many columns and
rows more as twice the negative start. -/
theorem imageFillRect_becomes (fb : Display) {a : Area} (h : image.Real) (ha : a.Ints) (hdef : FillDefined image a)
    (color : Color) :
    ∃ image', imageFillRect fb image a color = .ok image' ∧ image.Becomes image' fun c r i =>
      if (a.x ≤ c ∧ c < a.x.natAbs + a.w) ∧ a.y ≤ r ∧ r < a.y.natAbs + a.h then
        screenConvertColor fb color i
      else image.byteOf c r i := by
  rw [imageFillRect_eq]
  by_cases h0 : image.height = 0
  · rw [if_pos h0]
    exact ⟨image, rfl, Image.Becomes.refl.congr fun c hc r hr => by omega⟩
  rw [if_neg h0]
  obtain ⟨hx, hy⟩ := hdef.resolve_left h0
  rw [clipArea_eq h ha hx hy]
  by_cases hpos : 0 < filled a.x a.w image.width ∧ 0 < filled a.y a.h image.height
  · rw [if_pos hpos]
    dsimp only
    obtain ⟨x, hx'⟩ := Int.eq_ofNat_of_zero_le (a := max a.x 0) (by omega)
    obtain ⟨y, hy'⟩ := Int.eq_ofNat_of_zero_le (a := max a.y 0) (by omega)
    obtain ⟨m, hm⟩ := Int.eq_ofNat_of_zero_le (a := filled a.x a.w image.width) (by omega)
    obtain ⟨k, hk⟩ : ∃ k : Nat, filled a.y a.h image.height = (k + 1 : Nat) :=
      ⟨(filled a.y a.h image.height).toNat - 1, by omega⟩
    rw [hx', hy', hm, hk]
    simp only [filled] at hm hk
    obtain ⟨image', hok, hbecomes⟩ := fillArea_becomes fb h (x := x) (y := y) (m := m) (k := k)
      (by omega) (by omega) color
    refine ⟨image', hok, hbecomes.congr fun c hc r hr i hi => ?_⟩
    exact if_ctx_congr (by omega) (fun _ => rfl) fun _ => rfl
  · rw [if_neg hpos]
    refine ⟨image, rfl, Image.Becomes.refl.congr fun c hc r hr i hi => ?_⟩
    simp only [filled] at hpos
    rw [if_neg (by omega)]

section axis

variable {x w : Int} {size : Nat}

/-- The last column that is filled is one of the rectangle only if all are. -/
theorem exists_last (h : ¬Void x w size) : ∃ c < size, (x ≤ c ∧ c < x.natAbs + w) ∧
    (Covers x w c → StartsOrPasses x w size) := by
  simp only [Void, not_or] at h
  refine ⟨(min (x.natAbs + w) size - 1).toNat, by omega, by omega, ?_⟩
  simp only [Covers, StartsOrPasses]
  omega

theorem Void.not_filled (h : Void x w size) (hc : c < size) : ¬(x ≤ c ∧ c < x.natAbs + w) := by
  simp only [Void] at h
  omega

theorem Covers.filled (h : Covers x w c) : x ≤ c ∧ c < x.natAbs + w := by
  simp only [Covers] at h
  omega

theorem StartsOrPasses.covers (h : StartsOrPasses x w size) (hc : c < size)
    (hf : x ≤ c ∧ c < x.natAbs + w) : Covers x w c := by
  simp only [StartsOrPasses, Covers] at *
  omega

end axis

/-- When the pixels that are filled are those of the rectangle. -/
theorem filled_iff_covers (a : Area) (width height : Nat) :
    (∀ c < width, ∀ r < height, ((a.x ≤ c ∧ c < a.x.natAbs + a.w) ∧ a.y ≤ r ∧ r < a.y.natAbs + a.h ↔
      Covers a.x a.w c ∧ Covers a.y a.h r)) ↔
    Void a.x a.w width ∨ Void a.y a.h height ∨
      StartsOrPasses a.x a.w width ∧ StartsOrPasses a.y a.h height := by
  constructor
  · intro h
    by_cases hx : Void a.x a.w width
    · exact .inl hx
    by_cases hy : Void a.y a.h height
    · exact .inr (.inl hy)
    obtain ⟨c, hc, hcol, hwidth⟩ := exists_last hx
    obtain ⟨r, hr, hrow, hheight⟩ := exists_last hy
    obtain ⟨hcovers, hcovers'⟩ := (h c hc r hr).mp ⟨hcol, hrow⟩
    exact .inr (.inr ⟨hwidth hcovers, hheight hcovers'⟩)
  · intro h c hc r hr
    refine ⟨fun ⟨hcol, hrow⟩ => ?_, fun ⟨hcol, hrow⟩ => ⟨hcol.filled, hrow.filled⟩⟩
    obtain hx | hy | ⟨hx, hy⟩ := h
    · exact absurd hcol (hx.not_filled hc)
    · exact absurd hrow (hy.not_filled hr)
    · exact ⟨hx.covers hc hcol, hy.covers hr hrow⟩

/-- An image of which no byte is of the colour. -/
def Image.unlike (image : Image) (fb : Display) (color : Color) : Image :=
  { image with data := fun p => screenConvertColor fb color (p % image.depthBytes) + 1 }

theorem Image.Real.byteOf_unlike {color : Color} (h : image.Real) (c r : Nat) :
    (image.unlike fb color).byteOf c r 0 = screenConvertColor fb color 0 + 1 := by
  simp only [Image.byteOf, Image.unlike, Nat.add_zero]
  rw [h.place, Nat.mul_mod_left]

theorem screenConvertColor_succ_ne (fb : Display) (color : Color) (i : Nat) :
    screenConvertColor fb color i + 1 ≠ screenConvertColor fb color i := by
  simp

theorem fillsRect_iff {a : Area} (h : image.Real) (ha : a.Ints) :
    FillsRect fb image a ↔ FillWhen image a := by
  refine and_congr_right fun hdef => (Iff.trans ?_ (filled_iff_covers a image.width image.height))
  constructor
  · intro hall c hc r hr
    let color : Color := ⟨0, 0, 0⟩
    have hother : image.SameSize (image.unlike fb color) := ⟨rfl, rfl, rfl, rfl⟩
    obtain ⟨t, ht, hspec⟩ := hall _ hother color
    obtain ⟨u, hu, hdraws⟩ := imageFillRect_becomes fb (h.sameSize hother) ha hdef color
    obtain rfl := Except.ok.inj (ht.symm.trans hu)
    have hbytes := (hspec.bytes c hc r hr 0 h.depth).symm.trans (hdraws.bytes c hc r hr 0 h.depth)
    rw [fillSpec, h.byteOf_unlike] at hbytes
    have hne := screenConvertColor_succ_ne fb color 0
    split at hbytes
    · next hcovers =>
        split at hbytes
        · next hdrawn => exact iff_of_true hdrawn hcovers
        · exact absurd hbytes.symm hne
    · next hcovers =>
        split at hbytes
        · exact absurd hbytes hne
        · next hdrawn => exact iff_of_false hdrawn hcovers
  · intro hsame image' hsize color
    have hdef' : FillDefined image' a := by rwa [FillDefined, hsize.height]
    obtain ⟨t, ht, hdraws⟩ := imageFillRect_becomes fb (h.sameSize hsize) ha hdef' color
    refine ⟨t, ht, hdraws.congr fun c hc r hr i hi => ?_⟩
    exact if_ctx_congr (hsame c (hsize.width ▸ hc) r (hsize.height ▸ hr)) (fun _ => rfl) fun _ => rfl

end Eclair
