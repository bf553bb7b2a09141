import Mathlib.Data.List.GetD
import Mathlib.Data.List.Nodup
import Eclair.Wm.Message
import Eclair.Wm.Table

/-!
# Eclair.Crepe.Upload

How an image gets from its file to the window manager: reading its colours
(`lib/image.c`), the requests (`lib/wm.c`) and the loop that sends them
(`crepe_load_image` of `lib/crepe/draw.c`).

The connection to the window manager is open; a message that is sent is
the next one that the server takes.
-/

namespace Eclair

def WM_CLASS_IMAGE : Nat := 1

/-- `WM_SET_IMAGE_DATA_MAX(WM_FORMAT_RGB8)`. -/
def MAX_COLORS : Nat := (ECIO_CHNL_BUFSZ - SET_IMAGE_DATA_SIZE) / (WM_FORMAT_RGB8 + 2)

/-! ## reading images -/

/-- `ec_image_t`, open; `state` is the file and what its format keeps. -/
structure EcImage (σ : Type) where
  width : Nat
  height : Nat
  position : Nat
  state : σ

/-- `read_color` of `ec_image_ops_t`, for `EC_IMAGE_DATA_RGB8`. -/
abbrev ReadColor (σ : Type) := σ → Option (Color × σ)

/-- The bytes of a colour. -/
def Color.byte (c : Color) (i : Nat) : UInt8 := if i = 0 then c.r else if i = 1 then c.g else c.b

/-- The loop of `ec_image_read_colors`, from `i` on. -/
def ecImageReadColors {σ : Type} (read : ReadColor σ) :
    Nat → Nat → EcImage σ → ByteMem → Option (EcImage σ × ByteMem)
  | 0, _, image, buffer => some (image, buffer)
  | n + 1, i, image, buffer =>
      if u32 (i + image.position) < u32 (image.width * image.height) then
        (read image.state).bind fun r =>
          ecImageReadColors read n (i + 1) { image with state := r.2 }
            (ByteMem.write (i * 3) 3 r.1.byte buffer)
      else some (image, buffer)

/-- What is kept of a robin image: `file` is what is not read yet. -/
structure RbnFile where
  mode : Nat
  compression : Nat
  repeats : Nat
  color : Nat
  file : Bytes

/-- `rbn_depths`. -/
def rbnDepths : List Nat := [16, 16, 24, 32]

/-- The switch of `rbn_next_color`. -/
def rbnColor (mode : Nat) (data : Bytes) : Nat :=
  let b := fun i => (data.getD i 0).toNat
  let v16 := b 0 ||| (b 1 <<< 8)
  match mode with
  | 0 => ((v16 &&& 0x1f) <<< 3) ||| (((v16 >>> 5) &&& 0x1f) <<< 11) ||| (((v16 >>> 10) &&& 0x1f) <<< 19)
  | 1 => ((v16 &&& 0x1f) <<< 3) ||| (((v16 >>> 5) &&& 0x3f) <<< 10) ||| (((v16 >>> 11) &&& 0x1f) <<< 19)
  | 2 => b 0 ||| (b 1 <<< 8) ||| (b 2 <<< 16) ||| 0xff000000
  | _ => b 0 ||| (b 1 <<< 8) ||| (b 2 <<< 16) ||| (b 3 <<< 24)

/-- `rbn_next_color`; there is no depth for a mode that is not one. -/
def rbnNextColor (s : RbnFile) : Option (Nat × RbnFile) :=
  rbnDepths[s.mode]?.bind fun depth =>
    if s.file.length < depth / 8 then none
    else some (rbnColor s.mode s.file, { s with file := s.file.drop (depth / 8) })

/-- The conversion to `EC_IMAGE_DATA_RGB8`. -/
def rgb8 (color : Nat) : Color :=
  ⟨UInt8.ofNat color, UInt8.ofNat (color >>> 8), UInt8.ofNat (color >>> 16)⟩

/-- `rbn_read_color`. -/
def rbnReadColor : ReadColor RbnFile := fun s =>
  if s.compression = 1 then
    if s.repeats ≠ 0 then some (rgb8 s.color, { s with repeats := s.repeats - 1 })
    else (rbnNextColor s).bind fun r =>
      match r.2.file with
      | [] => none
      | repeats :: file =>
          some (rgb8 r.1, { r.2 with repeats := sub32 repeats.toNat 1, color := r.1, file := file })
  else (rbnNextColor s).map fun r => (rgb8 r.1, r.2)

/-! ## requests -/

/-- A word of a message. -/
def leWord (v : Nat) : Bytes := (List.range 4).map fun i => UInt8.ofNat (v / 256 ^ i)

/-- A message: its words, and the data behind them. -/
def wmMessage (words : List Nat) (data : Bytes) : Bytes := words.flatMap leWord ++ data

/-- `wm_create_image`. -/
def createImageRequest (width height cls : Nat) : Bytes :=
  wmMessage [WM_REQUEST, 24, 0x101, width, height, cls] []

/-- `wm_destroy_image`. -/
def destroyImageRequest (id : Nat) : Bytes := wmMessage [WM_REQUEST, 16, 0x102, id] []

/-- `wm_set_image_data`. -/
def setImageDataRequest (id format offset size : Nat) (data : ByteMem) : Bytes :=
  wmMessage [WM_REQUEST, u32 (SET_IMAGE_DATA_SIZE + u32 (size * (format + 2))), 0x104, id, format,
    offset, size] ((List.range (u32 (size * (format + 2)))).map data)

/-- `response->result`. -/
def WmResponse.word : WmResponse → Nat
  | .result r => r
  | _ => WM_SUCCESS

/-- `send_message`: the server takes the message from the channel and answers. -/
def sendMessage (fb : Display) (message : Bytes) (s : Wm) : Except WmFault (Option (Wm × Nat)) :=
  (processMessage fb (chnlFit message) s).map fun r => r.map fun r => (r.1, r.2.word)

/-! ## loading -/

/-- The state of the loop of `crepe_load_image`, with the server. -/
structure Loading (σ : Type) where
  image : EcImage σ
  imgdata : ByteMem
  server : Wm
  /-- ghost: the requests for data, each with the server that takes it -/
  sent : List (Bytes × Wm)

section

variable {σ : Type} (fb : Display) (read : ReadColor σ)

/-- The loop of `crepe_load_image`, and whether it goes through. -/
def uploadLoop (handle size position : Nat) (l : Loading σ) :
    Except WmFault (Option (Loading σ × Bool)) :=
  if _h : position < size then
    let toread := if size - position < MAX_COLORS then size - position else MAX_COLORS
    match ecImageReadColors read toread 0 l.image l.imgdata with
    | none => .ok (some (l, false))
    | some (image, imgdata) =>
        let request := setImageDataRequest handle WM_FORMAT_RGB8 position toread imgdata
        match sendMessage fb request l.server with
        | .error e => .error e
        | .ok none => .ok none
        | .ok (some (server, result)) =>
            let l := ⟨image, imgdata, server, l.sent ++ [(request, l.server)]⟩
            if result = 0 then .ok (some (l, false))
            else uploadLoop handle size (position + toread) l
  else .ok (some (l, true))
termination_by size - position
decreasing_by
  have : 0 < MAX_COLORS := by decide
  split <;> omega

/-- `crepe_load_image`: the handle, the server and the requests for data. -/
def crepeLoadImage (opened : Option (EcImage σ)) (imgdata : ByteMem) (s : Wm) :
    Except WmFault (Option (Nat × Wm × List (Bytes × Wm))) :=
  match opened with
  | none => .ok (some (WM_NULL, s, []))
  | some image =>
      match sendMessage fb (createImageRequest image.width image.height WM_CLASS_IMAGE) s with
      | .error e => .error e
      | .ok none => .ok none
      | .ok (some (s, handle)) =>
          if handle = WM_NULL then .ok (some (WM_NULL, s, []))
          else match uploadLoop fb read handle (u32 (image.width * image.height)) 0
              ⟨image, imgdata, s, []⟩ with
            | .error e => .error e
            | .ok none => .ok none
            | .ok (some (l, true)) => .ok (some (handle, l.server, l.sent))
            | .ok (some (l, false)) =>
                (sendMessage fb (destroyImageRequest handle) l.server).map fun r =>
                  r.map fun r => (WM_NULL, r.1, l.sent)

end

/-! ## what is set -/

/-- One round of `image_set_data`. -/
def setDataRound (fb : Display) (format offset : Nat) (data : Nat → Except WmFault UInt8) (i : Nat)
    (image : Image) : Except WmFault (Image × Bool) :=
  if image.width = 0 then .error .divZero
  else if i / image.width ≥ image.height then .ok (image, false)
  else
    let p := (i - offset) * (format + 2)
    (data p).bind fun r => (data (p + 1)).bind fun g => (data (p + 2)).bind fun b =>
    (image.writeRun (u32 (i / image.width * image.pitch + i % image.width * image.depthBytes))
      image.depthBytes (screenConvertColor fb ⟨r, g, b⟩)).bind fun image => .ok (image, true)

theorem imageSetData_eq {fb : Display} {image : Image} {format offset size : Nat}
    {data : Nat → Except WmFault UInt8} :
    imageSetData fb image format offset size data =
      Loop.tryLoop (setDataRound fb format offset data) offset (u32 (offset + size) - offset) image :=
  rfl

/-- The pixels that the loop of `image_set_data` sets for a request, one
for each round that gets to the end. -/
def pixelsSet (fb : Display) (msg : Bytes) (s : Wm) : List (Nat × Nat) :=
  let offset := wordAt msg 20
  match s.image (wordAt msg 12) with
  | none => []
  | some image =>
      (Loop.rounds
        (setDataRound fb (wordAt msg 16) offset fun p => msgByte msg (SET_IMAGE_DATA_SIZE + p))
        offset (u32 (offset + wordAt msg 24) - offset) image).map
        fun i => (i % image.width, i / image.width)

/-- The size check of `handle_set_image_data`. -/
def SizeChecked (msg : Bytes) : Prop :=
  SET_IMAGE_DATA_SIZE ≤ msg.length ∧ msg.length ≤ ECIO_CHNL_BUFSZ ∧
    wordAt msg 24 = (msg.length - SET_IMAGE_DATA_SIZE) / (wordAt msg 16 + 2)

/-- The colours that are read from one state of an image file to another. -/
def Reads {σ : Type} (read : ReadColor σ) : σ → List Color → σ → Prop
  | s, [], t => s = t
  | s, c :: cs, t => ∃ u, read s = some (c, u) ∧ Reads read u cs t

/-- The first `n` pixels have these colours. -/
def ShowsColors (fb : Display) (image : Image) (colors : Nat → Color) (n : Nat) : Prop :=
  ∀ j < n, ∀ c < image.depthBytes,
    image.data (j * image.depthBytes + c) = screenConvertColor fb (colors j) c

/-- An image laid out for `n` pixels. -/
structure Canvas (fb : Display) (image : Image) (n : Nat) : Prop where
  sized : image.Sized fb
  wide : 0 < image.width
  pixels : image.width * image.height = n
  small : n < 2 ^ 32
  extent : n * image.depthBytes < 2 ^ 32

/-- The resource `k` of the server is this image. -/
structure ImageAt (s : Wm) (k : Nat) (image : Image) : Prop where
  lt : k < MAX_RESOURCES
  live : (s.resources k).id ≠ 0
  type : (s.resources k).type = WM_RESOURCE_IMAGE
  data : ∃ cls, (s.resources k).data = some (.image cls image)

/-! ## setting pixels -/

section

variable {fb : Display} {image image' : Image} {colors : Nat → Color}
variable {i n offset size format : Nat} {data : Nat → Except WmFault UInt8}

theorem Canvas.congr (h : Canvas fb image n) (hs : image.SameSize image') : Canvas fb image' n where
  sized := hs.sized h.sized
  wide := hs.width ▸ h.wide
  pixels := by rw [hs.width, hs.height, h.pixels]
  small := h.small
  extent := hs.depth ▸ h.extent

theorem Canvas.row_lt (h : Canvas fb image n) (hi : i < n) : i / image.width < image.height := by
  rw [Nat.div_lt_iff_lt_mul h.wide, Nat.mul_comm, h.pixels]
  exact hi

/-- The bytes of a pixel are before those of the next one. -/
theorem pixel_end_le (hi : i < n) (d : Nat) : i * d + d ≤ n * d := by
  rw [← Nat.succ_mul]
  exact Nat.mul_le_mul_right _ hi

/-- Rows lie one after the other. -/
theorem Canvas.pitch_eq (h : Canvas fb image n) (hi : i < n) :
    image.pitch = image.width * image.depthBytes := by
  have hle : image.width * image.depthBytes ≤ n * image.depthBytes := by
    rw [← h.pixels]
    exact Nat.mul_le_mul_right _ (Nat.le_mul_of_pos_right _ (Nat.zero_lt_of_lt (h.row_lt hi)))
  rw [h.sized.pitch, ← h.sized.depth, u32_of_lt (Nat.lt_of_le_of_lt hle h.extent)]

/-- Pixels lie one after the other. -/
theorem Canvas.offset_eq (h : Canvas fb image n) (hi : i < n) :
    u32 (i / image.width * image.pitch + i % image.width * image.depthBytes) =
      i * image.depthBytes := by
  have hext := h.extent
  have hlt := pixel_end_le hi image.depthBytes
  rw [h.pitch_eq hi, ← Nat.mul_assoc, ← Nat.add_mul, Nat.mul_comm (i / image.width),
    Nat.div_add_mod, u32_of_lt (by omega)]

/-- Writing a pixel keeps those before it. -/
theorem Canvas.writeRun (h : Canvas fb image n) (hi : i < n) (hshow : ShowsColors fb image colors i) :
    ∃ u, image.writeRun (i * image.depthBytes) image.depthBytes (screenConvertColor fb (colors i)) =
      .ok u ∧ image.SameSize u ∧ ShowsColors fb u colors (i + 1) := by
  have hext := h.extent
  have hend := pixel_end_le hi image.depthBytes
  have hin : image.Inside (i * image.depthBytes) image.depthBytes := by
    intro x hx
    rw [u32_of_lt (by omega), Image.extent, h.pixels]
    omega
  refine ⟨_, if_pos hin, ⟨rfl, rfl, rfl, rfl⟩, fun j hj c hc => ?_⟩
  dsimp only at hc ⊢
  obtain hji | rfl := Nat.lt_succ_iff_lt_or_eq.mp hj
  · have hlt := pixel_end_le hji image.depthBytes
    have hsub : ¬ sub32 (j * image.depthBytes + c) (i * image.depthBytes) < image.depthBytes := by
      rw [sub32, u32_of_lt (n := i * image.depthBytes) (by omega), u32_of_lt (by omega)]
      omega
    rw [if_neg hsub]
    exact hshow j hji c hc
  · rw [sub32_of_le (by omega) (by omega), Nat.add_sub_cancel_left, if_pos hc]

/-- **Round lemma**: the round of a pixel sets it. -/
theorem Canvas.setDataRound (h : Canvas fb image n) (hi : i < n)
    (hdata : ∀ c < 3, data ((i - offset) * (format + 2) + c) = .ok ((colors i).byte c))
    (hshow : ShowsColors fb image colors i) :
    ∃ u, setDataRound fb format offset data i image = .ok (u, true) ∧ image.SameSize u ∧
      ShowsColors fb u colors (i + 1) := by
  obtain ⟨u, hu, hs, hnext⟩ := h.writeRun hi hshow
  have hr := hdata 0 (by decide)
  have hg := hdata 1 (by decide)
  have hb := hdata 2 (by decide)
  have hcolor : (⟨(colors i).byte 0, (colors i).byte 1, (colors i).byte 2⟩ : Color) = colors i := rfl
  refine ⟨u, ?_, hs, hnext⟩
  rw [Eclair.setDataRound, if_neg (by have := h.wide; omega), if_neg (Nat.not_le.mpr (h.row_lt hi))]
  dsimp only
  rw [Nat.add_zero] at hr
  rw [hr, hg, hb]
  simp only [Except.bind, hcolor, h.offset_eq hi, hu]

/-- **Run lemma**: `image_set_data` sets the pixels from `offset` on. -/
theorem Canvas.imageSetData (h : Canvas fb image n) (hle : offset + size ≤ n)
    (hdata : ∀ i < size, ∀ c < 3, data (i * (format + 2) + c) = .ok ((colors (offset + i)).byte c))
    (hshow : ShowsColors fb image colors offset) :
    ∃ u, imageSetData fb image format offset size data = .ok u ∧ image.SameSize u ∧
      ShowsColors fb u colors (offset + size) ∧
      Loop.rounds (Eclair.setDataRound fb format offset data) offset (u32 (offset + size) - offset)
        image = List.range' offset size := by
  have hsmall := h.small
  rw [imageSetData_eq, u32_of_lt (by omega), Nat.add_sub_cancel_left]
  have hround : ∀ i t, offset ≤ i → i < offset + size →
      image.SameSize t ∧ ShowsColors fb t colors i →
      ∃ u, Eclair.setDataRound fb format offset data i t = .ok (u, true) ∧
        image.SameSize u ∧ ShowsColors fb u colors (i + 1) := by
    intro i t h1 h2 ht
    have hread : ∀ c < 3, data ((i - offset) * (format + 2) + c) = .ok ((colors i).byte c) := by
      intro c hc
      rw [hdata (i - offset) (by omega) c hc, Nat.add_sub_cancel' h1]
    obtain ⟨u, hu, hs, hnext⟩ := (h.congr ht.1).setDataRound (by omega) hread ht.2
    exact ⟨u, hu, ht.1.trans hs, hnext⟩
  obtain ⟨u, hu, ⟨hs, hn⟩, hr⟩ := Loop.tryLoop_spec hround ⟨.refl, hshow⟩
  exact ⟨u, hu, hs, hn, hr⟩

end

/-! ## taking messages apart -/

section

variable {ws : List Nat} {bs : Bytes} {i v p : Nat}

@[simp] theorem length_leWord : (leWord v).length = 4 := rfl

theorem wmMessage_cons : wmMessage (v :: ws) bs = leWord v ++ wmMessage ws bs := by
  rw [wmMessage, List.flatMap_cons, List.append_assoc, wmMessage]

@[simp] theorem length_wmMessage : (wmMessage ws bs).length = 4 * ws.length + bs.length := by
  induction ws with
  | nil => simp [wmMessage]
  | cons w ws ih =>
      rw [wmMessage_cons, List.length_append, ih, length_leWord, List.length_cons]
      omega

theorem wordAt_leWord (hv : v < 2 ^ 32) : wordAt (leWord v ++ bs) 0 = v := by
  have h : ∀ i < 4, (leWord v ++ bs).getD i 0 = ByteMem.setWord 0 v (fun _ => 0) (0 + i) := by
    intro i hi
    rw [ByteMem.setWord, ByteMem.write_inside hi, List.getD_append _ _ _ _ hi, leWord]
    simp [hi]
  rw [wordAt, ByteMem.word_congr (m := ByteMem.setWord 0 v fun _ => 0) (a := 0),
    ByteMem.word_setWord hv]
  intro i hi
  rw [Nat.zero_add, h i hi, Nat.zero_add]

/-- The words of a message are where they were put. -/
theorem wordAt_wmMessage (hi : i < ws.length) (hv : ws[i] < 2 ^ 32) :
    wordAt (wmMessage ws bs) (4 * i) = ws[i] := by
  induction ws generalizing i with
  | nil => simp at hi
  | cons w ws ih =>
      rw [wmMessage_cons]
      cases i with
      | zero => exact wordAt_leWord hv
      | succ i =>
          have hcons : wordAt (leWord w ++ wmMessage ws bs) (4 * (i + 1)) =
              wordAt (wmMessage ws bs) (4 * i) := by
            refine ByteMem.word_congr fun j _ => ?_
            rw [List.getD_append_right _ _ _ _ (by simp; omega), length_leWord]
            congr 1
            omega
          rw [hcons]
          exact ih (Nat.lt_of_succ_lt_succ hi) hv

theorem msgWord_wmMessage (hi : i < ws.length) (hv : ws[i] < 2 ^ 32) :
    msgWord (wmMessage ws bs) (4 * i) = .ok ws[i] := by
  rw [msgWord, length_wmMessage, if_pos (by omega), wordAt_wmMessage hi hv]

/-- The data of a message is behind its words. -/
theorem msgByte_wmMessage (hp : p < bs.length) :
    msgByte (wmMessage ws bs) (4 * ws.length + p) = .ok (bs.getD p 0) := by
  have hlen : (ws.flatMap leWord).length = 4 * ws.length := by
    simpa [wmMessage] using (length_wmMessage : (wmMessage ws []).length = _)
  rw [msgByte, length_wmMessage, if_pos (by omega), wmMessage,
    List.getD_append_right _ _ _ _ (by omega), hlen, Nat.add_sub_cancel_left]

end

/-! ## the request for data -/

/-- The fields of a request for data. -/
structure DataRequest (msg : Bytes) (k o m : Nat) (imgdata : ByteMem) : Prop where
  length : msg.length = SET_IMAGE_DATA_SIZE + m * 3
  fits : msg.length ≤ ECIO_CHNL_BUFSZ
  type : msgWord msg 0 = .ok WM_REQUEST
  own : msgWord msg 4 = .ok msg.length
  function : msgWord msg 8 = .ok 0x104
  id : msgWord msg 12 = .ok k
  format : msgWord msg 16 = .ok WM_FORMAT_RGB8
  offset : msgWord msg 20 = .ok o
  size : msgWord msg 24 = .ok m
  byte : ∀ p < m * 3, msgByte msg (SET_IMAGE_DATA_SIZE + p) = .ok (imgdata p)

section

variable {fb : Display} {image : Image} {colors : Nat → Color} {n k offset size v p : Nat}
variable {imgdata : ByteMem} {msg : Bytes} {s : Wm}

theorem wordAt_of_msgWord (h : msgWord msg p = .ok v) : wordAt msg p = v := by
  rw [msgWord] at h
  split at h
  · exact Except.ok.inj h
  · contradiction

theorem maxColors_eq : MAX_COLORS = 21836 := rfl

theorem dataRequest_of_le (hk : k < 2 ^ 32) (ho : offset < 2 ^ 32) (hsize : size ≤ MAX_COLORS) :
    DataRequest (setImageDataRequest k WM_FORMAT_RGB8 offset size imgdata) k offset size imgdata := by
  rw [maxColors_eq] at hsize
  have hbytes : u32 (size * (WM_FORMAT_RGB8 + 2)) = size * 3 :=
    u32_of_lt (by simp only [WM_FORMAT_RGB8]; omega)
  have hown : u32 (SET_IMAGE_DATA_SIZE + size * 3) = SET_IMAGE_DATA_SIZE + size * 3 :=
    u32_of_lt (by simp only [SET_IMAGE_DATA_SIZE]; omega)
  have hmsg : setImageDataRequest k WM_FORMAT_RGB8 offset size imgdata =
      wmMessage [WM_REQUEST, SET_IMAGE_DATA_SIZE + size * 3, 0x104, k, WM_FORMAT_RGB8, offset, size]
        ((List.range (size * 3)).map imgdata) := by
    rw [setImageDataRequest, hbytes, hown]
  have hlen : (setImageDataRequest k WM_FORMAT_RGB8 offset size imgdata).length =
      SET_IMAGE_DATA_SIZE + size * 3 := by
    rw [hmsg]
    simp [SET_IMAGE_DATA_SIZE]
  have hword : ∀ i v, [WM_REQUEST, SET_IMAGE_DATA_SIZE + size * 3, 0x104, k, WM_FORMAT_RGB8, offset,
      size][i]? = some v → v < 2 ^ 32 →
      msgWord (setImageDataRequest k WM_FORMAT_RGB8 offset size imgdata) (4 * i) = .ok v := by
    intro i v hi hv
    obtain ⟨hlt, rfl⟩ := List.getElem?_eq_some_iff.mp hi
    rw [hmsg]
    exact msgWord_wmMessage hlt hv
  have hsz : SET_IMAGE_DATA_SIZE + size * 3 < 2 ^ 32 := by
    simp only [SET_IMAGE_DATA_SIZE]
    omega
  refine ⟨hlen, ?_, hword 0 _ rfl (by decide), ?_, hword 2 _ rfl (by decide), hword 3 _ rfl hk,
    hword 4 _ rfl (by decide), hword 5 _ rfl ho, hword 6 _ rfl (by omega), fun p hp => ?_⟩
  · rw [hlen]
    simp only [SET_IMAGE_DATA_SIZE, ECIO_CHNL_BUFSZ]
    omega
  · rw [hlen]
    exact hword 1 _ rfl hsz
  · rw [hmsg]
    have hbyte := @msgByte_wmMessage [WM_REQUEST, SET_IMAGE_DATA_SIZE + size * 3, 0x104, k,
      WM_FORMAT_RGB8, offset, size] ((List.range (size * 3)).map imgdata) p (by simpa using hp)
    simpa [hp, SET_IMAGE_DATA_SIZE] using hbyte

theorem DataRequest.sizeChecked (h : DataRequest msg k offset size imgdata) : SizeChecked msg := by
  refine ⟨by rw [h.length]; omega, h.fits, ?_⟩
  rw [wordAt_of_msgWord h.size, wordAt_of_msgWord h.format, h.length, Nat.add_sub_cancel_left]
  simp [WM_FORMAT_RGB8]

theorem ImageAt.hasType (h : ImageAt s k image) : HasType s k WM_RESOURCE_IMAGE :=
  ⟨by rw [serverGetResource, if_pos ⟨h.lt, h.live⟩]; rfl, h.type⟩

theorem ImageAt.image_eq (h : ImageAt s k image) : s.image k = some image := by
  obtain ⟨cls, hd⟩ := h.data
  rw [Wm.image, hd]

theorem ImageAt.redraw {image' : Image} (h : ImageAt s k image) :
    ImageAt (s.redraw k image') k image' where
  lt := h.lt
  live := by simpa [Wm.redraw] using h.live
  type := by simpa [Wm.redraw] using h.type
  data := by
    obtain ⟨cls, hd⟩ := h.data
    exact ⟨cls, by simp [Wm.redraw, hd]⟩

/-- **Request lemma**: the server accepts the request and sets its pixels. -/
theorem DataRequest.sendMessage (h : DataRequest msg k offset size imgdata) (hs : ImageAt s k image)
    (hc : Canvas fb image n) (hle : offset + size ≤ n)
    (hdata : ∀ i < size, ∀ c < 3, imgdata (i * 3 + c) = (colors (offset + i)).byte c)
    (hshow : ShowsColors fb image colors offset) :
    ∃ u, sendMessage fb msg s = .ok (some (s.redraw k u, WM_SUCCESS)) ∧ image.SameSize u ∧
      ShowsColors fb u colors (offset + size) ∧
      pixelsSet fb msg s =
        (List.range' offset size).map fun i => (i % image.width, i / image.width) := by
  have hread : ∀ i < size, ∀ c < 3,
      msgByte msg (SET_IMAGE_DATA_SIZE + (i * (WM_FORMAT_RGB8 + 2) + c)) =
        .ok ((colors (offset + i)).byte c) := by
    intro i hi c hc
    have hb := h.byte (i * 3 + c) (by omega)
    rwa [hdata i hi c hc] at hb
  obtain ⟨u, hu, hsame, hn, hr⟩ := @Canvas.imageSetData fb image colors n offset size WM_FORMAT_RGB8
    (fun p => msgByte msg (SET_IMAGE_DATA_SIZE + p)) hc hle hread hshow
  refine ⟨u, ?_, hsame, hn, ?_⟩
  · have hlen : dataLength msg = .ok (size * 3) := by
      rw [dataLength, h.length, if_pos (Nat.le_add_right _ _), Nat.add_sub_cancel_left]
    have hset : setImageData fb msg s = answer (s.redraw k u) WM_SUCCESS := by
      have hdiv : size * 3 / (WM_FORMAT_RGB8 + 2) = size := by simp [WM_FORMAT_RGB8]
      rw [setImageData, msgId, h.id]
      simp only [Except.bind, if_pos hs.hasType, h.format, if_neg (by decide :
        ¬ (WM_FORMAT_RGB8 < WM_FORMAT_RGB8 ∨ WM_FORMAT_RGB8 > WM_FORMAT_RGBA8)), h.size, hlen, hdiv,
        ne_eq, not_true_eq_false, if_false, imageResourceGetImage, hs.image_eq, h.offset, hu]
    rw [Eclair.sendMessage, chnlFit, List.take_of_length_le h.fits, processMessage, h.own]
    simp only [Except.bind, ne_eq, not_true_eq_false, if_false, h.type, h.function, handlers, handle,
      hset]
    rfl
  · rw [pixelsSet, wordAt_of_msgWord h.id, hs.image_eq, wordAt_of_msgWord h.offset,
      wordAt_of_msgWord h.size, wordAt_of_msgWord h.format]
    simp only [hr]

end

/-! ## the upload -/

/-- A colour of a list of them. -/
def colorAt (colors : List Color) (j : Nat) : Color := colors.getD j ⟨0, 0, 0⟩

section

variable {σ : Type} {fb : Display} {read : ReadColor σ} {r r' t : σ} {cs ds colors : List Color}
variable {image : Image} {k n position : Nat} {l : Loading σ}

theorem reads_append : Reads read r (cs ++ ds) t ↔ ∃ u, Reads read r cs u ∧ Reads read u ds t := by
  induction cs generalizing r with
  | nil => simp [Reads]
  | cons c cs ih =>
      simp only [List.cons_append, Reads, ih]
      constructor
      · rintro ⟨u, hu, v, h1, h2⟩
        exact ⟨v, ⟨u, hu, h1⟩, h2⟩
      · rintro ⟨v, ⟨u, hu, h1⟩, h2⟩
        exact ⟨u, hu, v, h1, h2⟩

/-- The colours are read into the buffer one after the other. -/
theorem ecImageReadColors_ok {i : Nat} {image : EcImage σ} {buffer : ByteMem}
    (hr : Reads read image.state cs t) (hp : image.position = 0)
    (hle : i + cs.length ≤ u32 (image.width * image.height)) :
    ∃ b, ecImageReadColors read cs.length i image buffer = some ({ image with state := t }, b) ∧
      (∀ j < cs.length, ∀ c < 3, b ((i + j) * 3 + c) = (colorAt cs j).byte c) ∧
      ∀ p < i * 3, b p = buffer p := by
  induction cs generalizing i image buffer with
  | nil =>
      cases hr
      exact ⟨buffer, rfl, by simp, fun p _ => rfl⟩
  | cons c cs ih =>
      obtain ⟨u, hu, hrest⟩ := hr
      have hlt := u32_lt (image.width * image.height)
      rw [List.length_cons] at hle
      obtain ⟨b, hb, hin, hout⟩ := @ih (i + 1) { image with state := u }
        (ByteMem.write (i * 3) 3 c.byte buffer) hrest hp (by dsimp only; omega)
      refine ⟨b, ?_, fun j hj x hx => ?_, fun p hp => ?_⟩
      · have hcond : u32 (i + image.position) < u32 (image.width * image.height) := by
          rw [hp, Nat.add_zero, u32_of_lt (by omega)]
          omega
        rw [List.length_cons, ecImageReadColors, if_pos hcond, hu, Option.bind_some]
        exact hb
      · cases j with
        | zero =>
            rw [Nat.add_zero, hout _ (by omega), ByteMem.write_inside hx]
            rfl
        | succ j =>
            rw [show i + (j + 1) = i + 1 + j by omega, hin j (by simpa using hj) x hx]
            rfl
      · rw [hout p (by omega), ByteMem.write_outside (by omega)]

/-- Where the upload is: the pixels before `position` are set, each of them
once, and the colours from there on are still to be read. -/
structure Uploaded (fb : Display) (read : ReadColor σ) (colors : List Color) (t : σ) (k n : Nat)
    (position : Nat) (l : Loading σ) (image : Image) : Prop where
  rest : Reads read l.image.state (colors.drop position) t
  start : l.image.position = 0
  count : u32 (l.image.width * l.image.height) = n
  stored : ImageAt l.server k image
  canvas : Canvas fb image n
  shows : ShowsColors fb image (colorAt colors) position
  checked : ∀ m ∈ l.sent, SizeChecked m.1
  once : l.sent.flatMap (fun m => pixelsSet fb m.1 m.2) =
    (List.range position).map fun i => (i % image.width, i / image.width)

/-- **Step lemma**: a chunk. -/
theorem Uploaded.chunk (h : Uploaded fb read colors t k n position l image)
    (hlen : colors.length = n) (hlt : position < n) :
    ∃ m l' u, 0 < m ∧ position + m ≤ n ∧ image.SameSize u ∧
      Uploaded fb read colors t k n (position + m) l' u ∧
      uploadLoop fb read k n position l = uploadLoop fb read k n (position + m) l' := by
  obtain ⟨m, hm⟩ : ∃ m, m = if n - position < MAX_COLORS then n - position else MAX_COLORS := ⟨_, rfl⟩
  have hmax : 0 < MAX_COLORS := by decide
  have hpos : 0 < m ∧ m ≤ MAX_COLORS ∧ position + m ≤ n := by
    rw [hm]
    split <;> omega
  obtain ⟨hm0, hm1, hle⟩ := hpos
  have hsmall := h.canvas.small
  have hrest := h.rest
  rw [← List.take_append_drop m (colors.drop position), reads_append] at hrest
  obtain ⟨v, hv, hrest⟩ := hrest
  have htake : ((colors.drop position).take m).length = m := by
    rw [List.length_take, List.length_drop]
    omega
  obtain ⟨b, hb, hin, -⟩ := @ecImageReadColors_ok σ read v _ 0 l.image l.imgdata hv h.start
    (by rw [h.count, htake]; omega)
  rw [htake] at hb hin
  have hdata : ∀ i < m, ∀ c < 3, b (i * 3 + c) = (colorAt colors (position + i)).byte c := by
    intro i hi c hc
    have hcolor : colorAt ((colors.drop position).take m) i = colorAt colors (position + i) := by
      simp [colorAt, List.getD_eq_getElem?_getD, hi, List.getElem?_drop]
    rw [← hcolor, ← hin i hi c hc, Nat.zero_add]
  have hk : k < 2 ^ 32 := Nat.lt_trans h.stored.lt (by decide)
  have hreq := @dataRequest_of_le k position m b hk (by omega) hm1
  obtain ⟨u, hsend, hsame, hshow, hset⟩ := hreq.sendMessage h.stored h.canvas hle hdata h.shows
  refine ⟨m, ⟨{ l.image with state := v }, b, l.server.redraw k u,
    l.sent ++ [(setImageDataRequest k WM_FORMAT_RGB8 position m b, l.server)]⟩, u,
    hm0, hle, hsame, ?_, ?_⟩
  · exact {
      rest := by rwa [List.drop_drop] at hrest
      start := h.start
      count := h.count
      stored := h.stored.redraw
      canvas := h.canvas.congr hsame
      shows := hshow
      checked := by
        simp only [List.mem_append, List.mem_singleton]
        rintro x (hx | rfl)
        · exact h.checked x hx
        · exact hreq.sizeChecked
      once := by
        rw [List.flatMap_append, h.once, List.flatMap_singleton, hset, hsame.width,
          List.range_eq_range', List.range_eq_range', ← List.map_append]
        congr 1
        have hrange := @List.range'_append_1 0 position m
        rwa [Nat.zero_add] at hrange }
  · rw [uploadLoop, dif_pos hlt]
    simp only [← hm, hb, hsend]
    rw [if_neg (by decide)]

/-- **Run lemma**: the loop sets all pixels. -/
theorem Uploaded.loop (h : Uploaded fb read colors t k n position l image)
    (hlen : colors.length = n) (hle : position ≤ n) :
    ∃ l' u, uploadLoop fb read k n position l = .ok (some (l', true)) ∧ image.SameSize u ∧
      Uploaded fb read colors t k n n l' u := by
  induction hd : n - position using Nat.strongRecOn generalizing position l image with
  | ind d ih =>
      by_cases hlt : position < n
      · obtain ⟨m, l1, u1, hm, hle1, hs1, h1, he⟩ := h.chunk hlen hlt
        obtain ⟨l2, u2, hl2, hs2, h2⟩ := ih (n - (position + m)) (by omega) h1 hle1 rfl
        exact ⟨l2, u2, he.trans hl2, hs1.trans hs2, h2⟩
      · obtain rfl : position = n := by omega
        refine ⟨l, image, ?_, .refl, h⟩
        rw [uploadLoop, dif_neg hlt]

/-- The server gives an image as long as a slot is free. -/
theorem sendMessage_createImage {s : Wm} {width height : Nat} (hw : width < 2 ^ 32)
    (hh : height < 2 ^ 32) (hfree : ∃ k, 1 ≤ k ∧ k < MAX_RESOURCES ∧ (s.resources k).id = 0) :
    ∃ k, k ≠ WM_NULL ∧ k < MAX_RESOURCES ∧
      sendMessage fb (createImageRequest width height WM_CLASS_IMAGE) s =
        .ok (some (s.modify k fun _ =>
          ⟨k, WM_RESOURCE_IMAGE, 0, some (.image WM_CLASS_IMAGE (imageInit fb width height))⟩, k)) := by
  have hnew : (imageResourceNew fb s WM_CLASS_IMAGE width height).isSome := by
    obtain ⟨k, h1, h2, h3⟩ := hfree
    simp only [imageResourceNew, serverCreateResource, Option.isSome_map, List.find?_isSome]
    exact ⟨k, List.mem_range'_1.mpr ⟨h1, by omega⟩, by simpa using h3⟩
  obtain ⟨⟨u, k⟩, hu⟩ := Option.isSome_iff_exists.mp hnew
  obtain ⟨-, hnull, hlt, rfl⟩ := imageResourceNew_some hu
  refine ⟨k, hnull, hlt, ?_⟩
  have hword : ∀ i v, [WM_REQUEST, 24, 0x101, width, height, WM_CLASS_IMAGE][i]? = some v →
      v < 2 ^ 32 → msgWord (createImageRequest width height WM_CLASS_IMAGE) (4 * i) = .ok v := by
    intro i v hi hv
    obtain ⟨hlt, rfl⟩ := List.getElem?_eq_some_iff.mp hi
    exact msgWord_wmMessage hlt hv
  have hlen : (createImageRequest width height WM_CLASS_IMAGE).length = 24 := by
    simp [createImageRequest]
  have hown : msgWord (createImageRequest width height WM_CLASS_IMAGE) 4 = .ok 24 :=
    hword 1 _ rfl (by decide)
  have htype : msgWord (createImageRequest width height WM_CLASS_IMAGE) 0 = .ok WM_REQUEST :=
    hword 0 _ rfl (by decide)
  have hfun : msgWord (createImageRequest width height WM_CLASS_IMAGE) 8 = .ok 0x101 :=
    hword 2 _ rfl (by decide)
  have hcls : msgWord (createImageRequest width height WM_CLASS_IMAGE) 20 = .ok WM_CLASS_IMAGE :=
    hword 5 _ rfl (by decide)
  have hwidth : msgWord (createImageRequest width height WM_CLASS_IMAGE) 12 = .ok width :=
    hword 3 _ rfl hw
  have hheight : msgWord (createImageRequest width height WM_CLASS_IMAGE) 16 = .ok height :=
    hword 4 _ rfl hh
  have hfit : chnlFit (createImageRequest width height WM_CLASS_IMAGE) =
      createImageRequest width height WM_CLASS_IMAGE :=
    List.take_of_length_le (by rw [hlen]; decide)
  rw [sendMessage, hfit, processMessage, hown]
  simp only [Except.bind, hlen, ne_eq, not_true_eq_false, if_false, htype, hfun, handlers, handle,
    createImage, hcls, hwidth, hheight, handleCreateImage, hu, answerWith, Wm.modify_same]
  rfl

theorem pixel_lt {w h x y : Nat} (hx : x < w) (hy : y < h) : y * w + x < w * h := by
  have hle := pixel_end_le hy w
  rw [Nat.mul_comm w h]
  omega

/-- The pixels of an image, row after row. -/
theorem count_pixels {w h x y : Nat} (hx : x < w) (hy : y < h) :
    ((List.range (w * h)).map fun i => (i % w, i / w)).count (x, y) = 1 := by
  have hinj : Function.Injective fun i => (i % w, i / w) := by
    intro i j hij
    obtain ⟨h1, h2⟩ := Prod.mk.inj hij
    rw [← Nat.div_add_mod i w, ← Nat.div_add_mod j w, h1, h2]
  refine List.count_eq_one_of_mem (List.nodup_range.map hinj) (List.mem_map.mpr ⟨y * w + x, ?_, ?_⟩)
  · exact List.mem_range.mpr (pixel_lt hx hy)
  · rw [Nat.mul_comm y w, Nat.mul_add_mod, Nat.mod_eq_of_lt hx,
      Nat.mul_add_div (Nat.zero_lt_of_lt hx), Nat.div_eq_of_lt hx, Nat.add_zero]

end

/-- **Image upload**: each pixel is set once, to the colour that is read for
it, and every request passes the size check. -/
theorem crepeLoadImage_sets {σ : Type} (fb : Display) (read : ReadColor σ) (width height : Nat)
    (r t : σ) (colors : List Color) (imgdata : ByteMem) (s : Wm) (hw : 0 < width) (hh : 0 < height)
    (hn : width * height < 2 ^ 32) (hsize : width * height * fb.depthBytes < 2 ^ 32)
    (hread : Reads read r colors t) (hlen : colors.length = width * height)
    (hfree : ∃ k, 1 ≤ k ∧ k < MAX_RESOURCES ∧ (s.resources k).id = 0) :
    ∃ k s' sent image,
      crepeLoadImage fb read (some ⟨width, height, 0, r⟩) imgdata s = .ok (some (k, s', sent)) ∧
      k ≠ WM_NULL ∧ s'.image k = some image ∧ image.width = width ∧ image.height = height ∧
      (∀ m ∈ sent, SizeChecked m.1) ∧
      ∀ x < width, ∀ y < height, (sent.flatMap fun m => pixelsSet fb m.1 m.2).count (x, y) = 1 ∧
        ∀ c < fb.depthBytes, image.data (y * image.pitch + x * fb.depthBytes + c) =
          screenConvertColor fb (colorAt colors (y * width + x)) c := by
  have hwlt : width < 2 ^ 32 := Nat.lt_of_le_of_lt (Nat.le_mul_of_pos_right _ hh) hn
  have hhlt : height < 2 ^ 32 := Nat.lt_of_le_of_lt (Nat.le_mul_of_pos_left _ hw) hn
  obtain ⟨k, hk, hlt, hcreate⟩ := @sendMessage_createImage fb s width height hwlt hhlt hfree
  have hstart : Uploaded fb read colors t k (width * height) 0
      ⟨⟨width, height, 0, r⟩, imgdata, s.modify k fun _ =>
        ⟨k, WM_RESOURCE_IMAGE, 0, some (.image WM_CLASS_IMAGE (imageInit fb width height))⟩, []⟩
      (imageInit fb width height) :=
    { rest := hread
      start := rfl
      count := u32_of_lt hn
      stored := ⟨hlt, by rwa [Wm.modify_same], by rw [Wm.modify_same], _, by rw [Wm.modify_same]⟩
      canvas := ⟨sized_imageInit .., hw, rfl, hn, hsize⟩
      shows := fun j hj => absurd hj (Nat.not_lt_zero j)
      checked := by simp
      once := rfl }
  obtain ⟨l, image, hl, hsame, hdone⟩ := hstart.loop hlen (Nat.zero_le _)
  refine ⟨k, l.server, l.sent, image, ?_, hk, hdone.stored.image_eq, hsame.width, hsame.height,
    hdone.checked, fun x hx y hy => ⟨?_, fun c hc => ?_⟩⟩
  · rw [← u32_of_lt hn] at hl
    unfold crepeLoadImage
    dsimp only
    rw [hcreate]
    dsimp only
    rw [if_neg hk, hl]
  · rw [hdone.once, hsame.width]
    exact count_pixels hx hy
  · have hi := pixel_lt hx hy
    have hdepth : image.depthBytes = fb.depthBytes := hdone.canvas.sized.depth
    have hshow := hdone.shows _ hi c (by rwa [hdepth])
    rw [hdone.canvas.pitch_eq hi, hsame.width, hdepth, ← Nat.mul_assoc, ← Nat.add_mul, ← hdepth]
    exact hshow

/-- Two pixels of a robin image that is not compressed. -/
theorem crepeLoadImage_sets_example :
    let fb : Display := ⟨640, 480, 4, ⟨16, 8⟩, ⟨8, 8⟩, ⟨0, 8⟩, fun _ => 0⟩
    ∃ k s' sent image,
      crepeLoadImage fb rbnReadColor (some ⟨2, 1, 0, ⟨2, 0, 0, 0, [10, 20, 30, 40, 50, 60]⟩⟩)
        (fun _ => 0) Wm.init = .ok (some (k, s', sent)) ∧ s'.image k = some image ∧
      ∀ c < 4, image.data (0 * image.pitch + 1 * 4 + c) = screenConvertColor fb ⟨40, 50, 60⟩ c := by
  intro fb
  obtain ⟨k, s', sent, image, h, -, hi, -, -, -, hset⟩ :=
    crepeLoadImage_sets fb rbnReadColor 2 1 ⟨2, 0, 0, 0, [10, 20, 30, 40, 50, 60]⟩
      ⟨2, 0, 0, 0, []⟩ [⟨10, 20, 30⟩, ⟨40, 50, 60⟩] (fun _ => 0) Wm.init (by decide) (by decide)
      (by decide) (by decide) ⟨_, rfl, _, rfl, rfl⟩ rfl ⟨1, by decide, by decide, rfl⟩
  exact ⟨k, s', sent, image, h, hi, (hset 1 (by decide) 0 (by decide)).2⟩

end Eclair
