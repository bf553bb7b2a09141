import Eclair.Basic
import Eclair.Lib.Exact

/-!
# Eclair.Wm.Image

The images of the window manager (`bin/wm/screen.c`): `image_t`, how one is
made and resized, and how its bytes are read and written.

The data of an image is what is at each byte offset.  What the framebuffer
is like, and what fresh memory holds, is a `Display`.  Offsets are 32-bit;
an access to a byte that is not of one of the image's pixels fails.
-/

namespace Eclair

/-- A colour mask of `ecio_fbinfo_t`. -/
structure FbMask where
  pos : Nat
  size : Nat

/-- What `screen.c` knows of the framebuffer, and what `malloc` leaves in
the memory it gives. -/
structure Display where
  width : Nat
  height : Nat
  depthBytes : Nat
  rmask : FbMask
  gmask : FbMask
  bmask : FbMask
  junk : Nat → UInt8

/-- `image_t`. -/
structure Image where
  width : Nat
  height : Nat
  depthBytes : Nat
  pitch : Nat
  data : Nat → UInt8

/-- `image_init`. -/
def imageInit (fb : Display) (width height : Nat) : Image where
  width := width
  height := height
  depthBytes := fb.depthBytes
  pitch := u32 (width * fb.depthBytes)
  data := fb.junk

/-- `image_resize`. -/
def imageResize (fb : Display) (image : Image) (width height : Nat) : Image :=
  { image with
    width := width
    height := height
    pitch := u32 (width * image.depthBytes)
    data := fb.junk }

/-! ## bytes of images -/

/-- What the server must not do with a message. -/
inductive WmFault where
  /-- Use a byte beyond those received. -/
  | message
  /-- Take a larger length from a smaller one. -/
  | underflow
  | divZero
  /-- Touch image data that is not of a pixel. -/
  | image
  deriving DecidableEq, Repr

/-- The bytes of the pixels. -/
def Image.extent (image : Image) : Nat := image.width * image.height * image.depthBytes

/-- The `len` bytes from `off` on are of pixels. -/
def Image.Inside (image : Image) (off len : Nat) : Prop := ∀ i < len, u32 (off + i) < image.extent

instance (image : Image) (off len : Nat) : Decidable (image.Inside off len) :=
  inferInstanceAs (Decidable (∀ _ < _, _))

/-- The `len` bytes from `off` on. -/
def Image.readRun (image : Image) (off len : Nat) : Except WmFault (Nat → UInt8) :=
  if image.Inside off len then .ok fun i => image.data (u32 (off + i)) else .error .image

/-- The `len` bytes from `off` on become those of `b`. -/
def Image.writeRun (image : Image) (off len : Nat) (b : Nat → UInt8) : Except WmFault Image :=
  if image.Inside off len then
    .ok { image with data := fun p => if sub32 p off < len then b (sub32 p off) else image.data p }
  else .error .image

/-- An image laid out for the framebuffer. -/
structure Image.Sized (fb : Display) (image : Image) : Prop where
  depth : image.depthBytes = fb.depthBytes
  pitch : image.pitch = u32 (image.width * fb.depthBytes)

/-- Images that differ in their bytes only. -/
structure Image.SameSize (image image' : Image) : Prop where
  width : image'.width = image.width
  height : image'.height = image.height
  depth : image'.depthBytes = image.depthBytes
  pitch : image'.pitch = image.pitch

variable {fb : Display} {image image' image'' : Image} {off len : Nat} {b : Nat → UInt8}

theorem sized_imageInit (fb : Display) (width height : Nat) : (imageInit fb width height).Sized fb :=
  ⟨rfl, rfl⟩

theorem Image.Sized.resize (h : image.Sized fb) (width height : Nat) :
    (imageResize fb image width height).Sized fb :=
  ⟨h.depth, by rw [imageResize, h.depth]⟩

theorem Image.SameSize.refl : image.SameSize image := ⟨rfl, rfl, rfl, rfl⟩

theorem Image.SameSize.trans (h : image.SameSize image') (h' : image'.SameSize image'') :
    image.SameSize image'' :=
  ⟨h'.width.trans h.width, h'.height.trans h.height, h'.depth.trans h.depth, h'.pitch.trans h.pitch⟩

theorem Image.SameSize.sized (h : image.SameSize image') (hs : image.Sized fb) : image'.Sized fb :=
  ⟨h.depth.trans hs.depth, by rw [h.pitch, hs.pitch, h.width]⟩

theorem Image.SameSize.extent (h : image.SameSize image') : image'.extent = image.extent := by
  rw [Image.extent, h.width, h.height, h.depth, Image.extent]

theorem Image.SameSize.inside (h : image.SameSize image') : image'.Inside off len ↔ image.Inside off len := by
  rw [Image.Inside, h.extent, Image.Inside]

theorem Image.readRun_exact : Exact (image.readRun off len) (image.Inside off len) fun _ => True :=
  Exact.check fun _ => trivial

theorem Image.writeRun_exact (h : image.SameSize image') :
    Exact (image'.writeRun off len b) (image.Inside off len) image.SameSize := by
  refine Exact.congr ?_ h.inside
  exact Exact.check fun _ => h.trans ⟨rfl, rfl, rfl, rfl⟩

/-- All that is not of pixels is beyond their bytes. -/
theorem Image.inside_iff : image.Inside off len ↔
    len = 0 ∨ 2 ^ 32 ≤ image.extent ∨ u32 off + len ≤ image.extent := by
  constructor
  · intro h
    by_cases hlen : len = 0
    · exact .inl hlen
    by_cases hbig : 2 ^ 32 ≤ image.extent
    · exact .inr (.inl hbig)
    refine .inr (.inr (Nat.not_lt.mp fun hover => ?_))
    -- the byte at the end of the pixels, or the first one when the run starts behind it
    have hoff := u32_lt off
    have hfirst := h (image.extent - u32 off) (by
      have h0 := h 0 (by omega)
      simp only [u32] at *
      omega)
    simp only [u32] at *
    omega
  · rintro (rfl | hbig | hend) i hi
    · omega
    · exact Nat.lt_of_lt_of_le (u32_lt _) hbig
    · simp only [u32] at *
      omega

end Eclair
