import Eclair.Lib.ByteMem
import Eclair.Basic

/-!
# Eclair.Media.Image

The images of `lib/image.c`: a header, and colors that are read from an open
file one by one, if need be out of runs.

A file is what is left to read of it.  What a call stores at
`buffer + i * (format + 3)` for its colors `i = 0, 1, ..` is listed in this
order (`readLoop_ok`).
-/

namespace Eclair

namespace Media

/-- What a decoder must not do. -/
inductive Fault where
  /-- a table or a local buffer is indexed out of range -/
  | index
  /-- a variable is delivered that nothing from the file was stored to -/
  | unset
  /-- a division by zero -/
  | division
  deriving DecidableEq

/-- `fread`: what is read, and what is left. -/
def fread (n : Nat) (fp : Bytes) : Bytes × Bytes := (fp.take n, fp.drop n)

/-- The little-endian numbers of a header. -/
def le32 (header : Bytes) (off : Nat) : Nat := ByteMem.word (fun i => header.getD i 0) off

def le16 (header : Bytes) (off : Nat) : Nat :=
  (header.getD off 0).toNat + 256 * (header.getD (off + 1) 0).toNat

/-- A `size_t` as an `int`. -/
@[irreducible] def toInt (n : Nat) : Int := Int.bmod n (2 ^ 32)

theorem toInt_of_lt {n : Nat} (h : n < 2 ^ 31) : toInt n = n := by
  unfold toInt
  rw [Int.bmod_eq_of_le] <;> omega

/-! ## the code -/

/-- `EC_RBN_SIGNATURE` -/
def EC_RBN_SIGNATURE : Bytes := [0, 82, 66, 78]

/-- `sizeof(ec_rbn_header_t)` -/
def RBN_HEADER : Nat := 24

/-- `EC_RBN_COMPRESSION_RLE` -/
def EC_RBN_COMPRESSION_RLE : Nat := 1

/-- `ec_image_data_t` -/
inductive ImageData where
  | rgb8
  | rgba8
  deriving DecidableEq

/-- `format + 3` -/
def ImageData.size : ImageData → Nat
  | .rgb8 => 3
  | .rgba8 => 4

/-- An open `ec_image_t`; `impl` is the mode, the compression, the repeat
count and the repeat color. -/
structure EcImage where
  fp : Bytes
  width : Nat
  height : Nat
  position : Nat := 0
  mode : Nat
  compression : Nat
  count : Nat := 0
  color : UInt32 := 0
  deriving DecidableEq

/-- `rbn_depths`: the bits of a color in each mode. -/
def rbnDepths : List Nat := [16, 16, 24, 32]

/-- What `rbn_read_header` refuses. -/
def rbnRefused (header : Bytes) : Prop :=
  header.length ≠ RBN_HEADER ∨ header.take 4 ≠ EC_RBN_SIGNATURE ∨ le32 header 4 ≠ 1

instance (header : Bytes) : Decidable (rbnRefused header) :=
  inferInstanceAs (Decidable (_ ∨ _))

/-- `rbn_read_header` -/
def rbnReadHeader (fp : Bytes) : Option EcImage :=
  let r := fread RBN_HEADER fp
  if rbnRefused r.1 then none
  else some
    { fp := r.2
      width := le32 r.1 8
      height := le32 r.1 12
      mode := le32 r.1 16
      compression := le32 r.1 20 }

/-- The conversion of `rbn_next_color`; no case stores a color in other
modes. -/
def rbnColor (mode : Nat) (data : Bytes) : Option UInt32 :=
  let byte (i : Nat) : UInt32 := (data.getD i 0).toUInt32
  let v16 := byte 0 ||| byte 1 <<< 8
  match mode with
  | 0 => some ((v16 &&& 0x1f) <<< 3 ||| (v16 >>> 5 &&& 0x1f) <<< 11 ||| (v16 >>> 10 &&& 0x1f) <<< 19)
  | 1 => some ((v16 &&& 0x1f) <<< 3 ||| (v16 >>> 5 &&& 0x3f) <<< 10 ||| (v16 >>> 11 &&& 0x1f) <<< 19)
  | 2 => some (byte 0 ||| byte 1 <<< 8 ||| byte 2 <<< 16 ||| 0xff000000)
  | 3 => some (byte 0 ||| byte 1 <<< 8 ||| byte 2 <<< 16 ||| byte 3 <<< 24)
  | _ => none

/-- `rbn_next_color`; no color is a failure.  `data` has 4 bytes. -/
def rbnNextColor (image : EcImage) : Except Fault (Option UInt32 × EcImage) :=
  match rbnDepths[image.mode]? with
  | none => .error .index
  | some depth =>
      let nbytes := depth / 8
      if nbytes > 4 then .error .index
      else
        let r := fread nbytes image.fp
        if r.1.length ≠ nbytes then .ok (none, { image with fp := r.2 })
        else match rbnColor image.mode r.1 with
          | none => .error .unset
          | some color => .ok (some color, { image with fp := r.2 })

/-- The bytes of a color in the buffer. -/
def convert (format : ImageData) (color : UInt32) : Bytes :=
  let byte (i : UInt32) : UInt8 := (color >>> i &&& 0xff).toUInt8
  match format with
  | .rgb8 => [byte 0, byte 8, byte 16]
  | .rgba8 => [byte 0, byte 8, byte 16, byte 24]

/-- `rbn_read_color`: the bytes for the buffer; none are a failure. -/
def rbnReadColor (format : ImageData) (image : EcImage) : Except Fault (Option Bytes × EcImage) :=
  if image.compression = EC_RBN_COMPRESSION_RLE then
    if image.count ≠ 0 then
      .ok (some (convert format image.color), { image with count := image.count - 1 })
    else
      (rbnNextColor image).map fun r =>
        match r.1 with
        | none => (none, r.2)
        | some color =>
            let repeoff := fread 1 r.2.fp
            match repeoff.1 with
            | [] => (none, { r.2 with fp := repeoff.2 })
            | n :: _ => (some (convert format color),
                { r.2 with fp := repeoff.2, count := sub32 n.toNat 1, color := color })
  else (rbnNextColor image).map fun r => (r.1.map (convert format), r.2)

/-- `ec_image_open` of a file, for an image that is not open. -/
def ecImageOpen (file : Bytes) : Option EcImage := rbnReadHeader file

/-- A call of `ec_image_read_colors`, with a buffer for what it asks for. -/
structure ReadColors where
  count : Nat
  format : ImageData
  room : count * format.size < 2 ^ 32

/-- The loop of `ec_image_read_colors`, with `k` colors left to read: the
result, what is in the buffer, and the image. -/
def readLoop (format : ImageData) :
    Nat → Nat → Bytes → EcImage → Except Fault (Int × Bytes × EcImage)
  | 0, i, out, image => .ok (toInt i, out, image)
  | k + 1, i, out, image =>
      if u32 (i + image.position) < u32 (image.width * image.height) then
        match rbnReadColor format image with
        | .error e => .error e
        | .ok (none, image) => .ok (-1, out, image)
        | .ok (some bytes, image) => readLoop format k (i + 1) (out ++ bytes) image
      else .ok (toInt i, out, image)

/-- `ec_image_read_colors` -/
def ecImageReadColors (call : ReadColors) (image : EcImage) :
    Except Fault (Int × Bytes × EcImage) :=
  readLoop call.format call.count 0 [] image

/-- Calls one after the other: what each returns, with the buffer. -/
def readAll : List ReadColors → EcImage → Except Fault (List (Int × Bytes) × EcImage)
  | [], image => .ok ([], image)
  | call :: calls, image =>
      (ecImageReadColors call image).bind fun r =>
      (readAll calls r.2.2).map fun rs => ((r.1, r.2.1) :: rs.1, rs.2)

/-! ## the loop -/

section

variable {format : ImageData} {k i n : Nat} {out out' : Bytes} {image image' : EcImage} {ret : Int}

theorem length_convert (format : ImageData) (color : UInt32) :
    (convert format color).length = format.size := by
  cases format <;> rfl

/-- What reading changes: neither the size nor the coding. -/
structure SameKind (image image' : EcImage) : Prop where
  width : image'.width = image.width
  height : image'.height = image.height
  position : image'.position = image.position
  mode : image'.mode = image.mode
  compression : image'.compression = image.compression

theorem SameKind.rfl : SameKind image image := ⟨.refl _, .refl _, .refl _, .refl _, .refl _⟩

theorem SameKind.trans {image'' : EcImage} (h : SameKind image image')
    (h' : SameKind image' image'') : SameKind image image'' :=
  ⟨h'.width.trans h.width, h'.height.trans h.height, h'.position.trans h.position,
    h'.mode.trans h.mode, h'.compression.trans h.compression⟩

theorem sameKind_nextColor {color : Option UInt32} (h : rbnNextColor image = .ok (color, image')) :
    SameKind image image' := by
  unfold rbnNextColor at h
  split at h
  · contradiction
  · simp only at h
    split at h
    · contradiction
    · split at h
      · cases h
        exact ⟨rfl, rfl, rfl, rfl, rfl⟩
      · split at h
        · contradiction
        · cases h
          exact ⟨rfl, rfl, rfl, rfl, rfl⟩

/-- **Reading a color** keeps the kind of the image, and stores as many bytes
as the format has. -/
theorem readColor_ok {bytes : Option Bytes} (h : rbnReadColor format image = .ok (bytes, image')) :
    SameKind image image' ∧ ∀ b, bytes = some b → b.length = format.size := by
  unfold rbnReadColor at h
  split at h
  · split at h
    · cases h
      exact ⟨⟨rfl, rfl, rfl, rfl, rfl⟩, fun b hb => by rw [← Option.some.inj hb, length_convert]⟩
    · cases hn : rbnNextColor image with
      | error e =>
          rw [hn] at h
          contradiction
      | ok r =>
          obtain ⟨color, next⟩ := r
          have hsame := sameKind_nextColor hn
          rw [hn] at h
          simp only [Except.map] at h
          split at h
          · cases h
            exact ⟨hsame, nofun⟩
          · split at h
            · cases h
              exact ⟨⟨hsame.1, hsame.2, hsame.3, hsame.4, hsame.5⟩, nofun⟩
            · cases h
              exact ⟨⟨hsame.1, hsame.2, hsame.3, hsame.4, hsame.5⟩,
                fun b hb => by rw [← Option.some.inj hb, length_convert]⟩
  · cases hn : rbnNextColor image with
    | error e =>
        rw [hn] at h
        contradiction
    | ok r =>
        rw [hn] at h
        cases h
        refine ⟨sameKind_nextColor hn, fun b hb => ?_⟩
        obtain ⟨color, -, rfl⟩ := Option.map_eq_some_iff.mp hb
        exact length_convert format color

/-- **The loop** fails, or reads all that is asked for that the image still
has. -/
theorem readLoop_ok (hk : i + k < 2 ^ 31) (hpos : image.position = 0)
    (h : readLoop format k i out image = .ok (ret, out', image')) :
    SameKind image image' ∧ (ret = -1 ∨
      ret = (i + min k (u32 (image.width * image.height) - i) : Nat) ∧
      out'.length = out.length + min k (u32 (image.width * image.height) - i) * format.size) := by
  induction k generalizing i out image with
  | zero =>
      cases h
      exact ⟨.rfl, .inr ⟨by rw [toInt_of_lt (by omega), Nat.zero_min]; simp, by simp⟩⟩
  | succ k ih =>
      rw [readLoop, hpos, Nat.add_zero, u32_of_lt (by omega)] at h
      split at h
      · next hlt =>
          split at h
          · contradiction
          · next next hr =>
              cases h
              exact ⟨(readColor_ok hr).1, .inl rfl⟩
          · next bytes next hr =>
              obtain ⟨hsame, hlen⟩ := readColor_ok hr
              have hbytes := hlen bytes rfl
              obtain ⟨hsame', hret⟩ := ih (by omega) (hsame.position.trans hpos) h
              refine ⟨hsame.trans hsame', hret.imp_right fun hret => ?_⟩
              rw [hsame.width, hsame.height, List.length_append, hbytes] at hret
              have hmin : min (k + 1) (u32 (image.width * image.height) - i) =
                  min k (u32 (image.width * image.height) - (i + 1)) + 1 := by omega
              rw [hmin, Nat.succ_mul]
              exact ⟨by omega, by omega⟩
      · next hge =>
          cases h
          refine ⟨.rfl, .inr ⟨?_, ?_⟩⟩
          · rw [toInt_of_lt (by omega), Nat.sub_eq_zero_of_le (Nat.le_of_not_lt hge)]
            simp
          · rw [Nat.sub_eq_zero_of_le (Nat.le_of_not_lt hge)]
            simp

theorem ReadColors.count_lt (call : ReadColors) : call.count < 2 ^ 31 := by
  have hroom := call.room
  have hsize : 3 ≤ call.format.size := by cases call.format <;> decide
  have hmul := Nat.mul_le_mul_left call.count hsize
  omega

/-- **`ec_image_read_colors`** fails, or reads all that is asked for, but no
more than the image has. -/
theorem ecImageReadColors_ok {call : ReadColors} (hpos : image.position = 0)
    (h : ecImageReadColors call image = .ok (ret, out, image')) :
    SameKind image image' ∧ (ret = -1 ∨
      ret = (min call.count (u32 (image.width * image.height)) : Nat) ∧
      out.length = min call.count (u32 (image.width * image.height)) * call.format.size) := by
  have hcount := call.count_lt
  simpa using readLoop_ok (by omega) hpos h

end

end Media

end Eclair
