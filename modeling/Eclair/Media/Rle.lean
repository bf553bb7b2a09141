import Mathlib.Algebra.Order.BigOperators.Group.List
import Eclair.Media.Image

/-!
# Eclair.Media.Rle

Images with run-length coding: which colors the calls of
`ec_image_read_colors` deliver.

Between two colors, what is still to come is the rest of the run that is
repeated and the runs that are left in the file (`Pending`).
-/

namespace Eclair

namespace Media

/-! ## files with runs -/

/-- A number in a header. -/
def bytes32 (n : Nat) : Bytes :=
  [UInt8.ofNat n, UInt8.ofNat (n / 256), UInt8.ofNat (n / 65536), UInt8.ofNat (n / 16777216)]

def rbnHeader (width height mode compression : Nat) : Bytes :=
  EC_RBN_SIGNATURE ++ (bytes32 1 ++ (bytes32 width ++ (bytes32 height ++
    (bytes32 mode ++ bytes32 compression))))

/-- How many bytes a color has. -/
def colorSize (mode : Nat) : Nat := rbnDepths.getD mode 0 / 8

/-- The color of these bytes. -/
def colorOf (mode : Nat) (data : Bytes) : UInt32 := (rbnColor mode data).getD 0

/-- The colors of runs. -/
def expand (mode : Nat) (runs : List (Bytes × UInt8)) : List UInt32 :=
  runs.flatMap fun r => List.replicate r.2.toNat (colorOf mode r.1)

/-- The bytes of runs: a color and how often it is repeated. -/
def encodeRuns (runs : List (Bytes × UInt8)) : Bytes := runs.flatMap fun r => r.1 ++ [r.2]

/-- A color of its size, repeated 1 to 255 times. -/
def RunOk (mode : Nat) (r : Bytes × UInt8) : Prop := r.1.length = colorSize mode ∧ r.2 ≠ 0

instance (mode : Nat) (r : Bytes × UInt8) : Decidable (RunOk mode r) :=
  inferInstanceAs (Decidable (_ ∧ _))

/-- A file with as many colors as the image has, and whatever is behind
them. -/
structure RunFile where
  mode : Nat
  width : Nat
  height : Nat
  runs : List (Bytes × UInt8)
  rest : Bytes
  mode_lt : mode < 4
  width_lt : width < 2 ^ 32
  height_lt : height < 2 ^ 32
  runs_ok : ∀ r ∈ runs, RunOk mode r
  total : (runs.map fun r => r.2.toNat).sum = width * height

def RunFile.file (f : RunFile) : Bytes :=
  rbnHeader f.width f.height f.mode EC_RBN_COMPRESSION_RLE ++ (encodeRuns f.runs ++ f.rest)

/-! ## the property -/

/-- What the calls return and store if they deliver these colors. -/
def deliver : List ReadColors → List UInt32 → List (Int × Bytes)
  | [], _ => []
  | call :: calls, colors =>
      ((call.count : Int), (colors.take call.count).flatMap (convert call.format)) ::
        deliver calls (colors.drop call.count)

/-- The calls deliver the colors of the runs, and leave what is behind
them. -/
def Delivered (f : RunFile) (calls : List ReadColors) : Prop :=
  ∃ image image', ecImageOpen f.file = some image ∧
    readAll calls image = .ok (deliver calls (expand f.mode f.runs), image') ∧ image'.fp = f.rest

/-! ## opening -/

theorem bytes32_eq {n : Nat} (h : n < 2 ^ 32) :
    (UInt8.ofNat n).toNat + 256 * (UInt8.ofNat (n / 256)).toNat +
      65536 * (UInt8.ofNat (n / 65536)).toNat + 16777216 * (UInt8.ofNat (n / 16777216)).toNat = n := by
  simp only [UInt8.toNat_ofNat']
  omega

theorem length_rbnHeader (w h m c : Nat) : (rbnHeader w h m c).length = RBN_HEADER := rfl

/-- The image of a file. -/
theorem ecImageOpen_header {w h m c : Nat} {rest : Bytes} (hw : w < 2 ^ 32) (hh : h < 2 ^ 32)
    (hm : m < 2 ^ 32) (hc : c < 2 ^ 32) :
    ecImageOpen (rbnHeader w h m c ++ rest) =
      some { fp := rest, width := w, height := h, mode := m, compression := c } := by
  have hread : fread RBN_HEADER (rbnHeader w h m c ++ rest) = (rbnHeader w h m c, rest) := by
    rw [fread, ← length_rbnHeader w h m c, List.take_left, List.drop_left]
  have hgood : ¬rbnRefused (rbnHeader w h m c) := by
    rintro (h | h | h)
    · exact h rfl
    · exact h rfl
    · exact h (bytes32_eq (n := 1) (by decide))
  have hw' : le32 (rbnHeader w h m c) 8 = w := bytes32_eq hw
  have hh' : le32 (rbnHeader w h m c) 12 = h := bytes32_eq hh
  have hm' : le32 (rbnHeader w h m c) 16 = m := bytes32_eq hm
  have hc' : le32 (rbnHeader w h m c) 20 = c := bytes32_eq hc
  simp only [ecImageOpen, rbnReadHeader, hread, if_neg hgood, hw', hh', hm', hc']

/-! ## reading -/

section

variable {image image' : EcImage} {colors : List UInt32} {color : UInt32} {rest out : Bytes}
variable {format : ImageData} {k i : Nat} {call : ReadColors} {calls : List ReadColors} {f : RunFile}

/-- The colors still to come: the rest of a run, and the runs left in the
file. -/
structure Pending (image : EcImage) (colors : List UInt32) (rest : Bytes) : Prop where
  compression : image.compression = EC_RBN_COMPRESSION_RLE
  mode_lt : image.mode < 4
  runs : ∃ runs, image.fp = encodeRuns runs ++ rest ∧ (∀ r ∈ runs, RunOk image.mode r) ∧
    colors = List.replicate image.count image.color ++ expand image.mode runs

/-- The next color in the file. -/
theorem rbnNextColor_eq {data : Bytes} (hm : image.mode < 4)
    (hfp : image.fp = data ++ rest) (hlen : data.length = colorSize image.mode) :
    rbnNextColor image = .ok (some (colorOf image.mode data), { image with fp := rest }) := by
  have hread : fread (colorSize image.mode) image.fp = (data, rest) := by
    rw [fread, hfp, ← hlen, List.take_left, List.drop_left]
  have htable : ∀ mode < 4, ∃ depth, rbnDepths[mode]? = some depth ∧ depth / 8 = colorSize mode ∧
      depth / 8 ≤ 4 := by decide
  obtain ⟨depth, hdepth, hsize, h4⟩ := htable image.mode hm
  have hcolor : rbnColor image.mode data = some (colorOf image.mode data) := by
    have hmode : image.mode = 0 ∨ image.mode = 1 ∨ image.mode = 2 ∨ image.mode = 3 := by omega
    obtain h | h | h | h := hmode <;> rw [colorOf, h] <;> rfl
  rw [hsize] at h4
  rw [rbnNextColor, hdepth]
  simp only [hsize, Nat.not_lt.mpr h4, if_false, hread, hlen, ne_eq, not_true, hcolor]

/-- **A color** is the first of those still to come. -/
theorem readColor_of_pending (format : ImageData) (h : Pending image (color :: colors) rest) :
    ∃ image', rbnReadColor format image = .ok (some (convert format color), image') ∧
      Pending image' colors rest := by
  obtain ⟨hcomp, hm, runs, hfp, hok, hcolors⟩ := h
  cases hcount : image.count with
  | succ n =>
      rw [hcount, List.replicate_succ, List.cons_append, List.cons.injEq] at hcolors
      refine ⟨{ image with count := n }, ?_, hcomp, hm, runs, hfp, hok, hcolors.2⟩
      rw [rbnReadColor, if_pos hcomp, if_pos (by omega), hcount, hcolors.1]
      rfl
  | zero =>
      cases runs with
      | nil => simp [hcount, expand] at hcolors
      | cons r runs =>
          obtain ⟨data, n⟩ := r
          obtain ⟨hlen, hn⟩ := hok _ List.mem_cons_self
          have hnext := rbnNextColor_eq hm
            (show image.fp = data ++ n :: (encodeRuns runs ++ rest) by simp [hfp, encodeRuns]) hlen
          obtain ⟨l, hl⟩ : ∃ l, n.toNat = l + 1 := ⟨n.toNat - 1, by
            have : n.toNat ≠ 0 := fun h0 => hn (UInt8.toNat_inj.mp h0)
            omega⟩
          have hsub : sub32 n.toNat 1 = l := by
            have hlt := n.toNat_lt
            rw [sub32_of_le (by omega) (by omega)]
            omega
          have hexpand : expand image.mode ((data, n) :: runs) =
              colorOf image.mode data :: (List.replicate l (colorOf image.mode data) ++
                expand image.mode runs) := by
            simp [expand, hl, List.replicate_succ]
          rw [hcount, List.replicate_zero, List.nil_append, hexpand, List.cons.injEq] at hcolors
          refine ⟨{ image with fp := encodeRuns runs ++ rest, count := l, color := colorOf image.mode data },
            ?_, hcomp, hm, runs, rfl, fun r hr => hok r (List.mem_cons_of_mem _ hr), hcolors.2⟩
          rw [rbnReadColor, if_pos hcomp, if_neg (by simp [hcount]), hnext, hcolors.1]
          simp only [Except.map, fread, List.take_succ_cons, List.take_zero, List.drop_succ_cons,
            List.drop_zero, hsub]

/-- The loop reads the colors in order. -/
theorem readLoop_of_pending (format : ImageData) (i : Nat) (out : Bytes)
    (hp : Pending image colors rest) (hk : k ≤ colors.length)
    (hpos : image.position = 0) (hroom : i + k < 2 ^ 31)
    (hlimit : i + k ≤ u32 (image.width * image.height)) :
    ∃ image', readLoop format k i out image =
        .ok (((i + k : Nat) : Int), out ++ (colors.take k).flatMap (convert format), image') ∧
      Pending image' (colors.drop k) rest ∧ SameKind image image' := by
  induction k generalizing i out image colors with
  | zero =>
      refine ⟨image, ?_, by simpa using hp, .rfl⟩
      rw [readLoop, toInt_of_lt (by omega)]
      simp
  | succ k ih =>
      obtain ⟨color, colors, rfl⟩ := List.exists_cons_of_length_pos (by omega : 0 < colors.length)
      obtain ⟨next, hread, hnext⟩ := readColor_of_pending format hp
      obtain ⟨hsame, -⟩ := readColor_ok hread
      obtain ⟨last, hloop, hlast, hkind⟩ := ih (i + 1) (out ++ convert format color)
        hnext (by simpa using hk) (hsame.position.trans hpos) (by omega)
        (by rw [hsame.width, hsame.height]; omega)
      refine ⟨last, ?_, by simpa using hlast, hsame.trans hkind⟩
      rw [readLoop, hpos, Nat.add_zero, u32_of_lt (by omega), if_pos (by omega), hread]
      simp only [hloop, List.take_succ_cons, List.flatMap_cons, List.append_assoc]
      rw [show i + 1 + k = i + (k + 1) by omega]

/-- The calls deliver the colors in order. -/
theorem readAll_of_pending (hp : Pending image colors rest)
    (hsum : (calls.map ReadColors.count).sum ≤ colors.length) (hpos : image.position = 0)
    (hlimit : ∀ call ∈ calls, call.count ≤ u32 (image.width * image.height)) :
    ∃ image', readAll calls image = .ok (deliver calls colors, image') ∧
      Pending image' (colors.drop (calls.map ReadColors.count).sum) rest := by
  induction calls generalizing image colors with
  | nil => exact ⟨image, rfl, by simpa using hp⟩
  | cons call calls ih =>
      rw [List.map_cons, List.sum_cons] at hsum
      have hcount := call.count_lt
      obtain ⟨next, hread, hnext, hkind⟩ := readLoop_of_pending call.format 0 [] hp
        (show call.count ≤ colors.length by omega) hpos (by omega)
        (by rw [Nat.zero_add]; exact hlimit call List.mem_cons_self)
      obtain ⟨last, hrest, hlast⟩ := ih hnext (by rw [List.length_drop]; omega)
        (hkind.position.trans hpos) fun c hc => by
          rw [hkind.width, hkind.height]
          exact hlimit c (List.mem_cons_of_mem _ hc)
      refine ⟨last, ?_, by simpa [List.drop_drop] using hlast⟩
      rw [readAll, ecImageReadColors, hread]
      simp only [Except.bind, hrest, Except.map, deliver, Nat.zero_add, List.nil_append]

/-- No call reads more than the image has. -/
theorem count_le_of_readAll (colors : List UInt32) (hpos : image.position = 0)
    (h : readAll calls image = .ok (deliver calls colors, image')) :
    ∀ call ∈ calls, call.count ≤ u32 (image.width * image.height) := by
  induction calls generalizing image colors with
  | nil => simp
  | cons call calls ih =>
      rw [readAll] at h
      cases hread : ecImageReadColors call image with
      | error e =>
          rw [hread] at h
          contradiction
      | ok r =>
          obtain ⟨ret, bytes, next⟩ := r
          obtain ⟨hkind, hret⟩ := ecImageReadColors_ok hpos hread
          rw [hread] at h
          simp only [Except.bind] at h
          cases hrest : readAll calls next with
          | error e =>
              rw [hrest] at h
              contradiction
          | ok rs =>
              rw [hrest] at h
              simp only [Except.map, deliver, Except.ok.injEq, Prod.mk.injEq, List.cons.injEq] at h
              obtain ⟨⟨⟨hcount, -⟩, hrs⟩, rfl⟩ := h
              intro c hc
              obtain rfl | hc := List.mem_cons.mp hc
              · omega
              · rw [← hkind.width, ← hkind.height]
                refine ih (colors.drop call.count) (hkind.position.trans hpos) ?_ c hc
                rw [hrest, ← hrs]

/-- What is to come at the start of the file. -/
theorem pending_file (f : RunFile) :
    ∃ image, ecImageOpen f.file = some image ∧ Pending image (expand f.mode f.runs) f.rest ∧
      image.position = 0 ∧ image.width = f.width ∧ image.height = f.height := by
  have hm := f.mode_lt
  refine ⟨_, ecImageOpen_header f.width_lt f.height_lt (by omega) (by decide), ?_, rfl, rfl, rfl⟩
  exact ⟨rfl, hm, f.runs, rfl, f.runs_ok, by simp⟩

theorem length_expand (mode : Nat) (runs : List (Bytes × UInt8)) :
    (expand mode runs).length = (runs.map fun r => r.2.toNat).sum := by
  simp [expand, List.length_flatMap]

/-- If nothing is to come, the runs have been read. -/
theorem fp_of_pending_nil (h : Pending image [] rest) : image.fp = rest := by
  obtain ⟨-, -, runs, hfp, hok, hnil⟩ := h
  cases runs with
  | nil => simpa [encodeRuns] using hfp
  | cons r runs =>
      have hlen := congrArg List.length hnil
      have hne : r.2.toNat ≠ 0 := fun h0 => (hok r List.mem_cons_self).2 (UInt8.toNat_inj.mp h0)
      simp [length_expand] at hlen
      omega

theorem count_le_of_delivered (h : Delivered f calls) :
    ∀ call ∈ calls, call.count ≤ u32 (f.width * f.height) := by
  obtain ⟨image, hopen, -, hpos, hw, hh⟩ := pending_file f
  obtain ⟨image', last, hopen', hread, -⟩ := h
  obtain rfl : image = image' := Option.some.inj (hopen.symm.trans hopen')
  rw [← hw, ← hh]
  exact count_le_of_readAll _ hpos hread

end

/-! ## the theorem -/

/-- **The colors are delivered** exactly if no call asks for more than the
code takes the image to have. -/
theorem delivered_iff (f : RunFile) (calls : List ReadColors)
    (hsum : (calls.map ReadColors.count).sum = f.width * f.height) :
    Delivered f calls ↔ ∀ call ∈ calls, call.count ≤ u32 (f.width * f.height) := by
  refine ⟨count_le_of_delivered, fun hlimit => ?_⟩
  obtain ⟨image, hopen, hp, hpos, hw, hh⟩ := pending_file f
  have hlen : (expand f.mode f.runs).length = f.width * f.height :=
    (length_expand ..).trans f.total
  obtain ⟨last, hread, hlast⟩ := readAll_of_pending hp (hsum.trans hlen.symm).le hpos
    (by rwa [hw, hh])
  rw [List.drop_eq_nil_of_le (by omega)] at hlast
  exact ⟨image, last, hopen, hread, fp_of_pending_nil hlast⟩

/-- One run of two colors, with two bytes behind it. -/
def twoColors : RunFile where
  mode := 2
  width := 2
  height := 1
  runs := [([1, 2, 3], 2)]
  rest := [9, 9]
  mode_lt := by decide
  width_lt := by decide
  height_lt := by decide
  runs_ok := by decide
  total := by decide

/-- Read one by one. -/
theorem delivered_iff_twoColors :
    Delivered twoColors [⟨1, .rgb8, by decide⟩, ⟨1, .rgba8, by decide⟩] ↔
      ∀ call ∈ [(⟨1, .rgb8, by decide⟩ : ReadColors), ⟨1, .rgba8, by decide⟩],
        call.count ≤ u32 (twoColors.width * twoColors.height) :=
  delivered_iff twoColors _ (by decide)

/-- Runs of a black image: `255 * n + 1` colors. -/
def blackRuns (n : Nat) : List (Bytes × UInt8) :=
  List.replicate n ([0, 0, 0], 255) ++ [([0, 0, 0], 1)]

theorem sum_blackRuns (n : Nat) : ((blackRuns n).map fun r => r.2.toNat).sum = n * 255 + 1 := by
  rw [blackRuns, List.map_append, List.map_replicate, List.sum_append, List.sum_replicate_nat]
  rfl

/-- A black image whose number of colors is `2 ^ 32`. -/
def hugeImage : RunFile where
  mode := 2
  width := 65536
  height := 65536
  runs := blackRuns 16843009
  rest := []
  mode_lt := by decide
  width_lt := by decide
  height_lt := by decide
  runs_ok := by
    intro r hr
    obtain hr | hr := List.mem_append.mp hr
    · rw [List.eq_of_mem_replicate hr]
      decide
    · rw [List.mem_singleton.mp hr]
      decide
  total := sum_blackRuns 16843009

/-- **An image of `2 ^ 32` colors** has none for the code. -/
theorem not_delivered : ¬∀ (f : RunFile) (calls : List ReadColors),
    (calls.map ReadColors.count).sum = f.width * f.height → Delivered f calls := by
  intro h
  have hall := h hugeImage (List.replicate 4 ⟨2 ^ 30, .rgb8, by decide⟩) (by decide)
  have hle := count_le_of_delivered hall _ (List.mem_cons_self ..)
  exact absurd hle (by decide)

end Media

end Eclair
