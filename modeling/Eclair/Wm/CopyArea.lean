import Eclair.Wm.Clip

/-!
# Eclair.Wm.CopyArea

The areas that `image_copy_area` of `bin/wm/screen.c` copies, pixel by pixel.

The length grows by what is cut at the start, here as in `image_fill_rect`;
moreover the other start is not moved with it, and the end is not cut.
`clipped_iff` says for which arguments both functions are right.
-/

namespace Eclair

/-! ## copying -/

/-- The arguments of `image_copy_area`. -/
structure CopyArea where
  x : Int
  y : Int
  sx : Int
  sy : Int
  sw : Int
  sh : Int

structure CopyArea.Ints (a : CopyArea) : Prop where
  x : IsInt a.x
  y : IsInt a.y
  sx : IsInt a.sx
  sy : IsInt a.sy
  sw : IsInt a.sw
  sh : IsInt a.sh

/-- How many of `n` columns from `x` on the source leaves, where no sum overflows. -/
def leave (x n : Int) (size : Nat) : Int := if x < 0 then n - x else min n (size - x)

/-- A negative length ends the call where it comes from a cut. -/
def Stops (x n : Int) (size : Nat) : Prop := leave x n size < 0 ∧ (x < 0 ∨ (size : Int) ≤ x + n)

instance (x n : Int) (size : Nat) : Decidable (Stops x n size) := inferInstanceAs (Decidable (_ ∧ _))

namespace CopyArea

variable (a : CopyArea) (dest source : Image)

/-- The pixel is of the area, and there is a pixel of the source for it. -/
def Has (c r : Nat) : Prop :=
  Covers a.x a.sw c ∧ Covers a.y a.sh r ∧ 0 ≤ a.sx + (c - a.x) ∧ a.sx + (c - a.x) < source.width ∧
    0 ≤ a.sy + (r - a.y) ∧ a.sy + (r - a.y) < source.height

instance (c r : Nat) : Decidable (a.Has source c r) := inferInstanceAs (Decidable (_ ∧ _))

/-- The pixels of the area are set to those of the source. -/
def spec (c r i : Nat) : UInt8 :=
  if a.Has source c r then source.byteOf (a.sx + (c - a.x)).toNat (a.sy + (r - a.y)).toNat i
  else dest.byteOf c r i

/-- The columns left by both images. -/
def left : Int := leave a.sx (leave a.x a.sw dest.width) source.width

/-- The call ends before it copies a row. -/
def Stopped : Prop :=
  Stops a.x a.sw dest.width ∨ Stops a.sx (leave a.x a.sw dest.width) source.width

instance : Decidable (a.Stopped dest source) := inferInstanceAs (Decidable (_ ∨ _))

/-- The rows up to the first one that is not in both images. -/
def rows : Nat :=
  if 0 ≤ a.y ∧ 0 ≤ a.sy then (min a.sh (min (dest.height - a.y) (source.height - a.sy))).toNat else 0

/-- The bytes copied in each row, a `size_t`. -/
def rowBytes : Nat := wrap (a.left dest source * source.depthBytes)

/-- No `int` overflows, and `memcpy` within one image is not given runs that overlap. -/
structure Defined (same : Bool) : Prop where
  sum : SumFits a.x a.sw
  sourceSum : ¬Stops a.x a.sw dest.width → SumFits a.sx (leave a.x a.sw dest.width)
  offset : ¬a.Stopped dest source → ∀ i < a.rows dest source,
    (a.y + i) * dest.pitch + max a.x 0 * dest.depthBytes < 2 ^ 31 ∧
      (a.sy + i) * source.pitch + max a.sx 0 * source.depthBytes < 2 ^ 31
  apart : same = true → ¬a.Stopped dest source → 0 < a.rows dest source →
    a.rowBytes dest source ≤
      ((a.y - a.sy) * dest.pitch + (max a.x 0 - max a.sx 0) * dest.depthBytes).natAbs

/-- Nothing is copied. -/
def Idle : Prop := a.Stopped dest source ∨ a.rows dest source = 0 ∨ a.rowBytes dest source = 0

instance : Decidable (a.Idle dest source) := inferInstanceAs (Decidable (_ ∨ _))

/-- Nothing is to be copied, or each pixel to where it is. -/
def Trivial (same : Bool) : Prop :=
  (∀ c < dest.width, ∀ r < dest.height, ¬a.Has source c r) ∨ same = true ∧ a.x = a.sx ∧ a.y = a.sy

/-- All starts with the area, in both images. -/
def Plain : Prop := 0 ≤ a.x ∧ 0 ≤ a.y ∧ 0 ≤ a.sx ∧ 0 ≤ a.sy ∧ 0 ≤ a.sw

/-- The columns of the area that both images have, where it starts with none. -/
def meets : Int := min (a.sw + a.x) (min dest.width source.width)

/-- As much is cut before both images, and the length that grew for both is
the right one up to the overflow of `size_t`. -/
def Wraps : Prop :=
  a.x = a.sx ∧ a.x < 0 ∧ 0 ≤ a.y ∧ 0 ≤ a.sy ∧
    (a.rowBytes dest source : Int) = a.meets dest source * source.depthBytes

/-- No row is written before it is read. -/
def Fresh (same : Bool) : Prop :=
  same = true → 0 < a.y - a.sy → a.y - a.sy < a.rows dest source →
    a.rowBytes dest source ≤ (a.x - a.sx).natAbs * dest.depthBytes

/-- When `image_copy_area` is right. -/
def When (same : Bool) : Prop :=
  a.Defined dest source same ∧ (a.Idle dest source ∧ a.Trivial dest source same ∨
    (a.Plain ∨ a.Wraps dest source) ∧ a.Fresh dest source same)

/-- `image_copy_area` sets the pixels it should in all images of these sizes,
and only touches pixels. -/
def Copies (same : Bool) : Prop :=
  a.Defined dest source same ∧ ∀ dest' source', dest.SameSize dest' → source.SameSize source' →
    (same = true → source' = dest') →
    ∃ image, imageCopyArea dest' source' same a.x a.y a.sx a.sy a.sw a.sh = .ok image ∧
      dest'.Becomes image (a.spec dest' source')

end CopyArea

variable {dest dest' source source' : Image} {c r i n p : Nat}

/-! ## what is copied -/

theorem clipSpan_eq {x n : Int} {size : Nat} (hx : IsInt x) (hn : IsInt n) (hs : SumFits x n)
    (hsize : size < 2 ^ 31) :
    clipSpan x n (i32 size) = if Stops x n size then none else some (max x 0, leave x n size) := by
  simp only [IsInt, SumFits, Stops, leave, clipSpan, clipStart, clipEnd] at *
  rw [i32_of_small (a := size) (by omega) (by omega)]
  by_cases h0 : x < 0
  · simp only [if_pos h0, i32_of_small (a := n - x) (by omega) (by omega)]
    by_cases hend : n - x < 0
    · rw [if_pos hend, if_pos ⟨hend, .inl h0⟩]
    · rw [if_neg hend, if_neg (by omega), show max x 0 = 0 by omega]
  · simp only [if_neg h0, i32_of_small (a := x + n) (by omega) (by omega)]
    by_cases hcut : x + n ≥ size
    · simp only [if_pos hcut, i32_of_small (a := size - x) (by omega) (by omega)]
      by_cases hend : (size : Int) - x < 0
      · rw [if_pos ⟨hend, hcut⟩, if_pos (by omega)]
      · rw [if_neg (by omega), if_neg (by omega)]
        congr 2 <;> omega
    · simp only [if_neg hcut]
      rw [if_neg (by omega), if_neg (by omega)]
      congr 2 <;> omega

namespace CopyArea

variable {a : CopyArea} {same : Bool}

theorem clipSpans_eq (hd : dest.Real) (hs : source.Real) (ha : a.Ints) (hdef : a.Defined dest source same) :
    clipSpans dest source a.x a.sx a.sw =
      if a.Stopped dest source then none
      else some ⟨max a.x 0, max a.sx 0, a.left dest source⟩ := by
  unfold clipSpans
  rw [clipSpan_eq ha.x ha.sw hdef.sum hd.width]
  by_cases hstop : Stops a.x a.sw dest.width
  · rw [if_pos hstop, if_pos (.inl hstop)]
    rfl
  have hleave : IsInt (leave a.x a.sw dest.width) := by
    have hx := ha.x
    have hsw := ha.sw
    have hsum := hdef.sum
    have hwidth := hd.width
    simp only [IsInt, SumFits, leave] at *
    split <;> omega
  rw [if_neg hstop, Option.bind_some]
  dsimp only
  rw [clipSpan_eq ha.sx hleave (hdef.sourceSum hstop) hs.width]
  by_cases hstop' : Stops a.sx (leave a.x a.sw dest.width) source.width
  · rw [if_pos hstop', if_pos (.inr hstop')]
    rfl
  · rw [if_neg hstop', if_neg (show ¬a.Stopped dest source from not_or.mpr ⟨hstop, hstop'⟩)]
    rfl

/-- A round of `image_copy_area`, with `n` columns left. -/
def copyRow (a : CopyArea) (n : Int) (source : Image) (same : Bool) (i : Nat) (t : Image) :
    Except WmFault Image :=
  let source := if same then t else source
  copyRun t source (t.pixel (max a.x 0) (a.y + i)) (source.pixel (max a.sx 0) (a.sy + i))
    (wrap (n * source.depthBytes))

theorem copyRow_size {n : Int} {i : Nat} {t u : Image} (h : a.copyRow n source same i t = .ok u) :
    t.SameSize u :=
  (copyRun_exact .refl .refl).post u h

theorem lt_rows {i : Nat} : i < a.rows dest source ↔
    0 ≤ a.y ∧ 0 ≤ a.sy ∧ i < a.sh ∧ a.y + i < dest.height ∧ a.sy + i < source.height := by
  rw [rows]
  split <;> omega

/-- The rows of both images, counted from the first of the area. -/
theorem inRows_iff (hd : dest.Real) (hs : source.Real) (ha : a.Ints) (i : Nat)
    (hprev : i = 0 ∨ 0 ≤ a.y ∧ 0 ≤ a.sy ∧ a.y + i ≤ dest.height ∧ a.sy + i ≤ source.height) :
    inRows dest source a.y a.sy i ↔
      0 ≤ a.y ∧ 0 ≤ a.sy ∧ a.y + i < dest.height ∧ a.sy + i < source.height := by
  have hy := ha.y
  have hsy := ha.sy
  have hheight := hd.height
  have hheight' := hs.height
  simp only [IsInt] at *
  rw [inRows, i32_of_small (a := (i : Int) + a.sy) (by omega) (by omega),
    i32_of_small (a := (i : Int) + a.y) (by omega) (by omega),
    i32_of_small (a := source.height) (by omega) (by omega),
    i32_of_small (a := dest.height) (by omega) (by omega)]
  omega

theorem imageCopyArea_eq (hd : dest.Real) (hs : source.Real) (ha : a.Ints)
    (hdef : a.Defined dest source same) (hsame : same = true → source = dest) :
    imageCopyArea dest source same a.x a.y a.sx a.sy a.sw a.sh =
      if a.Stopped dest source then .ok dest
      else Loop.tryLoop (Loop.tryEach (a.copyRow (a.left dest source) source same))
        0 (a.rows dest source) dest := by
  unfold imageCopyArea
  rw [clipSpans_eq hd hs ha hdef]
  by_cases hstop : a.Stopped dest source
  · rw [if_pos hstop, if_pos hstop]
  rw [if_neg hstop, if_neg hstop]
  dsimp only
  have hsize : ∀ {t : Image}, dest.SameSize t → source.SameSize (if same then t else source) := by
    intro t ht
    split
    · next h => exact hsame h ▸ ht
    · exact .refl
  have hrows : ∀ (j : Nat) (t : Image), dest.SameSize t →
      (inRows dest (if same then t else source) a.y a.sy j ↔ inRows dest source a.y a.sy j) := by
    intro j t ht
    rw [inRows, (hsize ht).height, inRows]
  refine Loop.tryLoop_while (C := fun j t => inRows dest (if same then t else source) a.y a.sy j)
    (I := dest.SameSize) (f := a.copyRow (a.left dest source) source same) ?_
    (fun j t u ht hu => ht.trans (copyRow_size hu)) (fun j t _ hj ht => ?_) (fun hlt t ht => ?_) .refl
  · refine Nat.not_lt.mp fun hlt => ?_
    have hlast := lt_rows.mp hlt
    omega
  · have hj := lt_rows.mp (Nat.zero_add (a.rows dest source) ▸ hj)
    rw [hrows j t ht, inRows_iff hd hs ha j (by omega)]
    omega
  · rw [Nat.zero_add, hrows _ t ht, inRows_iff hd hs ha]
    · have hend : ¬a.rows dest source < a.rows dest source := Nat.lt_irrefl _
      rw [lt_rows] at hend
      omega
    · refine (Nat.eq_zero_or_pos _).imp_right fun hpos => ?_
      have hlast := lt_rows.mp (Nat.sub_lt hpos Nat.one_pos)
      omega

/-- Where a row is copied to. -/
def target (a : CopyArea) (dest : Image) (i : Nat) : Nat := dest.pixel (max a.x 0) (a.y + i)

/-- Where a row is copied from. -/
def origin (a : CopyArea) (source : Image) (i : Nat) : Nat := source.pixel (max a.sx 0) (a.sy + i)

/-- The byte is of the row that is copied in round `i`. -/
def InRow (a : CopyArea) (dest source : Image) (i p : Nat) : Prop :=
  a.target dest i ≤ p ∧ p < a.target dest i + a.rowBytes dest source

instance (i p : Nat) : Decidable (a.InRow dest source i p) := inferInstanceAs (Decidable (_ ∧ _))

/-- The rows that are copied are of pixels. -/
def Fits (a : CopyArea) (dest source : Image) : Prop := ∀ i < a.rows dest source,
  source.Inside (a.origin source i) (a.rowBytes dest source) ∧
    dest.Inside (a.target dest i) (a.rowBytes dest source)

variable {t : Image}

theorem copyRow_data (hd : dest.Real) (hs : source.Real) (hsame : same = true → source = dest)
    (hfit : a.Fits dest source) {i : Nat} (hi : i < a.rows dest source) (ht : dest.SameSize t) :
    ∃ u, a.copyRow (a.left dest source) source same i t = .ok u ∧ dest.SameSize u ∧
      ∀ p < dest.extent, u.data p = if a.InRow dest source i p then
        (if same then t else source).data (a.origin source i + (p - a.target dest i)) else t.data p := by
  have hsize : source.SameSize (if same then t else source) := by
    split
    · next h => exact hsame h ▸ ht
    · exact .refl
  obtain ⟨hsin, hdin⟩ := hfit i hi
  simp only [copyRow]
  generalize (if same then t else source) = source' at hsize
  rw [origin, ← hsize.pixel, ← hsize.inside] at hsin
  rw [target, ← ht.pixel, ← ht.inside] at hdin
  obtain ⟨u, hu, hsizeu, hdata⟩ := copyRun_data (hd.sameSize ht) (hs.sameSize hsize)
    (t.pixel_lt (max a.x 0) (a.y + i)) (source'.pixel_lt (max a.sx 0) (a.sy + i)) hsin hdin
  rw [rowBytes, ← hsize.depth] at hu
  refine ⟨u, hu, ht.trans hsizeu, fun p hp => ?_⟩
  rw [hdata p (ht.extent ▸ hp), ht.pixel, hsize.pixel]
  rfl

/-- The rows copied from one on; what is in none of them stays. -/
theorem copyRows_data (hd : dest.Real) (hs : source.Real) (hsame : same = true → source = dest)
    (hfit : a.Fits dest source) {i n : Nat} (hn : i + n ≤ a.rows dest source) (ht : dest.SameSize t) :
    ∃ u, Loop.tryLoop (Loop.tryEach (a.copyRow (a.left dest source) source same)) i n t = .ok u ∧
      dest.SameSize u ∧ ∀ p < dest.extent,
        (∀ j, i ≤ j → j < i + n → ¬a.InRow dest source j p) → u.data p = t.data p := by
  let I (j : Nat) (u : Image) : Prop := dest.SameSize u ∧ ∀ p < dest.extent,
    (∀ l, i ≤ l → l < j → ¬a.InRow dest source l p) → u.data p = t.data p
  have hround : ∀ j u, i ≤ j → j < i + n → I j u → ∃ v,
      Loop.tryEach (a.copyRow (a.left dest source) source same) j u = .ok (v, true) ∧ I (j + 1) v := by
    intro j u hij hj hu
    obtain ⟨v, hv, hsize, hdata⟩ := copyRow_data hd hs hsame hfit (i := j) (by omega) hu.1
    refine ⟨v, ?_, hsize, fun p hp hout => ?_⟩
    · rw [Loop.tryEach, hv, Except.bind]
    · rw [hdata p hp, if_neg (hout j hij (Nat.lt_succ_self j))]
      exact hu.2 p hp fun l h1 h2 => hout l h1 (by omega)
  obtain ⟨u, hu, hI, -⟩ := Loop.tryLoop_spec hround ⟨ht, fun _ _ _ => rfl⟩
  exact ⟨u, hu, hI⟩

section run

variable (hd : dest.Real) (hs : source.Real) (ha : a.Ints) (hdef : a.Defined dest source same)
variable (hsame : same = true → source = dest) (hfit : a.Fits dest source)
variable (hstop : ¬a.Stopped dest source)
variable (hrun : imageCopyArea dest source same a.x a.y a.sx a.sy a.sw a.sh = .ok t)

include hd hs ha hdef hsame hfit hstop hrun

/-- A byte of no row is as it was. -/
theorem data_of_not_inRow (hp : p < dest.extent)
    (hout : ∀ j < a.rows dest source, ¬a.InRow dest source j p) : t.data p = dest.data p := by
  rw [imageCopyArea_eq hd hs ha hdef hsame, if_neg hstop] at hrun
  obtain ⟨u, hu, -, hdata⟩ := copyRows_data hd hs hsame hfit (i := 0) (n := a.rows dest source)
    (by omega) .refl
  obtain rfl := Except.ok.inj (hrun.symm.trans hu)
  exact hdata p hp fun j _ hj => hout j (by omega)

/-- A byte of the first row only is what the source has there. -/
theorem data_of_first (hp : p < dest.extent) (hrows : 0 < a.rows dest source)
    (hin : a.InRow dest source 0 p)
    (hout : ∀ j, 0 < j → j < a.rows dest source → ¬a.InRow dest source j p) :
    t.data p = source.data (a.origin source 0 + (p - a.target dest 0)) := by
  rw [imageCopyArea_eq hd hs ha hdef hsame, if_neg hstop] at hrun
  obtain ⟨n, hn⟩ : ∃ n, a.rows dest source = n + 1 := ⟨a.rows dest source - 1, by omega⟩
  obtain ⟨u, hu, hsize, hfirst⟩ := copyRow_data hd hs hsame hfit hrows .refl
  obtain ⟨v, hv, -, hrest⟩ := copyRows_data hd hs hsame hfit (i := 1) (n := n) (by omega) hsize
  rw [hn, Loop.tryLoop, Loop.tryEach, hu] at hrun
  obtain rfl := Except.ok.inj (hrun.symm.trans hv)
  rw [hrest p hp fun j h1 h2 => hout j h1 (by omega), hfirst p hp, if_pos hin]
  split
  · next h => rw [hsame h]
  · rfl

/-- A byte of the last row, as what is read for it is left in the end. -/
theorem data_of_last (hp : p < dest.extent) {n : Nat} (hn : a.rows dest source = n + 1)
    (hin : a.InRow dest source n p)
    (hout : same = true → a.origin source n + (p - a.target dest n) < dest.extent ∧
      ¬a.InRow dest source n (a.origin source n + (p - a.target dest n))) :
    t.data p = (if same then t else source).data (a.origin source n + (p - a.target dest n)) := by
  rw [imageCopyArea_eq hd hs ha hdef hsame, if_neg hstop] at hrun
  obtain ⟨u, hu, hsize, -⟩ := copyRows_data hd hs hsame hfit (i := 0) (n := n) (by omega) .refl
  obtain ⟨v, hv, -, hlast⟩ := copyRow_data hd hs hsame hfit (i := n) (by omega) hsize
  rw [hn, Loop.tryLoop_tryEach_succ, hu, Nat.zero_add] at hrun
  obtain rfl := Except.ok.inj (hrun.symm.trans hv)
  rw [hlast p hp, if_pos hin]
  by_cases h : same = true
  · rw [if_pos h, if_pos h]
    obtain ⟨hq, hq'⟩ := hout h
    rw [hlast _ hq, if_neg hq']
  · rw [if_neg h, if_neg h]

end run

theorem target_eq (hdef : a.Defined dest source same) (hstop : ¬a.Stopped dest source) {i : Nat}
    (hi : i < a.rows dest source) :
    (a.target dest i : Int) = (a.y + i) * dest.pitch + max a.x 0 * dest.depthBytes := by
  have hlt := (hdef.offset hstop i hi).1
  have h1 : 0 ≤ (a.y + i) * dest.pitch := Int.mul_nonneg (by have := lt_rows.mp hi; omega) (by omega)
  have h2 : 0 ≤ max a.x 0 * dest.depthBytes := Int.mul_nonneg (by omega) (by omega)
  rw [target, Image.pixel, wrap]
  omega

theorem origin_eq (hdef : a.Defined dest source same) (hstop : ¬a.Stopped dest source) {i : Nat}
    (hi : i < a.rows dest source) :
    (a.origin source i : Int) = (a.sy + i) * source.pitch + max a.sx 0 * source.depthBytes := by
  have hlt := (hdef.offset hstop i hi).2
  have h1 : 0 ≤ (a.sy + i) * source.pitch :=
    Int.mul_nonneg (by have := lt_rows.mp hi; omega) (by omega)
  have h2 : 0 ≤ max a.sx 0 * source.depthBytes := Int.mul_nonneg (by omega) (by omega)
  rw [origin, Image.pixel, wrap]
  omega

/-- A row of what is copied is one of the area, in both images. -/
structure Clean (a : CopyArea) (dest source : Image) (m : Nat) : Prop where
  running : ¬a.Stopped dest source
  y : 0 ≤ a.y
  sy : 0 ≤ a.sy
  bytes : a.rowBytes dest source = m * dest.depthBytes
  fits : max a.x 0 + m ≤ dest.width
  sourceFits : max a.sx 0 + m ≤ source.width
  shift : max a.sx 0 - max a.x 0 = a.sx - a.x
  columns : ∀ c < dest.width, (a.x ≤ c ∧ c < a.x + a.sw) ∧ 0 ≤ a.sx + (c - a.x) ∧
    a.sx + (c - a.x) < source.width ↔ max a.x 0 ≤ c ∧ c < max a.x 0 + m

/-- Where the area starts in both images, what is left of it is in both. -/
theorem clean_of_plain (hs : source.Real) (hdepth : source.depthBytes = dest.depthBytes) (h : a.Plain)
    (hrun : ¬a.Stopped dest source) (hheight : 0 < source.height) : ∃ m, a.Clean dest source m := by
  obtain ⟨hx, hy, hsx, hsy, hsw⟩ := h
  simp only [Stopped, Stops, leave, if_neg (Int.not_lt.mpr hx), if_neg (Int.not_lt.mpr hsx)] at hrun
  have hleft : a.left dest source = min (min a.sw (dest.width - a.x)) (source.width - a.sx) := by
    simp only [left, leave, if_neg (Int.not_lt.mpr hx), if_neg (Int.not_lt.mpr hsx)]
  obtain ⟨m, hm⟩ := Int.eq_ofNat_of_zero_le (a := a.left dest source) (by omega)
  refine ⟨m, ⟨?_, hy, hsy, ?_, by omega, by omega, by omega, fun c hc => by omega⟩⟩
  · simp only [Stopped, Stops, leave, if_neg (Int.not_lt.mpr hx), if_neg (Int.not_lt.mpr hsx)]
    exact hrun
  · rw [rowBytes, hm, ← hdepth]
    exact hs.wrap_columns hheight (by omega)

theorem clean_of_wraps (hd : dest.Real) (hdepth : source.depthBytes = dest.depthBytes)
    (h : a.Wraps dest source) : ∃ m, a.Clean dest source m := by
  obtain ⟨hx, hneg, hy, hsy, hbytes⟩ := h
  have hdepth' := hd.depth
  have hmeets : 0 ≤ a.meets dest source := by
    refine Int.not_lt.mp fun hlt => ?_
    have hlt' := Int.mul_neg_of_neg_of_pos hlt (b := source.depthBytes) (by omega)
    omega
  obtain ⟨m, hm⟩ := Int.eq_ofNat_of_zero_le hmeets
  rw [hm, hdepth] at hbytes
  simp only [meets] at hm
  refine ⟨m, ⟨?_, hy, hsy, by exact_mod_cast hbytes, by omega, by omega, by omega, fun c hc => by omega⟩⟩
  simp only [Stopped, Stops, leave, if_pos hneg, if_pos (hx ▸ hneg)]
  omega

theorem clean_of_plain_or_wraps (hd : dest.Real) (hs : source.Real)
    (hdepth : source.depthBytes = dest.depthBytes) (h : a.Plain ∨ a.Wraps dest source)
    (hrun : ¬a.Stopped dest source) (hrows : a.rows dest source ≠ 0) : ∃ m, a.Clean dest source m := by
  have hrow := lt_rows.mp (Nat.pos_of_ne_zero hrows)
  cases h with
  | inl h => exact clean_of_plain hs hdepth h hrun (by omega)
  | inr h => exact clean_of_wraps hd hdepth h

/-- Of an area that is plain or wraps, nothing is copied only if there is nothing to copy. -/
theorem not_has_of_idle (hd : dest.Real) (hs : source.Real)
    (hdepth : source.depthBytes = dest.depthBytes) (h : a.Plain ∨ a.Wraps dest source)
    (hidle : a.Idle dest source) {c r : Nat} (hc : c < dest.width) (hr : r < dest.height) :
    ¬a.Has source c r := by
  rintro ⟨⟨hx1, hx2⟩, ⟨hy1, hy2⟩, h1, h2, h3, h4⟩
  have hpos : 0 ≤ a.y ∧ 0 ≤ a.sy := by
    cases h with
    | inl h => exact ⟨h.2.1, h.2.2.2.1⟩
    | inr h => exact ⟨h.2.2.1, h.2.2.2.1⟩
  have hrows : 0 < a.rows dest source := lt_rows.mpr (by omega)
  have hrun : ¬a.Stopped dest source := by
    cases h with
    | inl h =>
        obtain ⟨hx, -, hsx, -, hsw⟩ := h
        simp only [Stopped, Stops, leave, if_neg (Int.not_lt.mpr hx), if_neg (Int.not_lt.mpr hsx)]
        omega
    | inr h => exact (clean_of_wraps hd hdepth h).choose_spec.running
  obtain ⟨m, hm⟩ := clean_of_plain_or_wraps hd hs hdepth h hrun (by omega)
  have hcol := (hm.columns c hc).mp ⟨⟨hx1, hx2⟩, h1, h2⟩
  have hbytes := hm.bytes
  have hzero : a.rowBytes dest source = 0 := (hidle.resolve_left hrun).resolve_left (by omega)
  rw [hzero] at hbytes
  have := Nat.mul_pos (show 0 < m by omega) hd.depth
  omega

namespace Clean

variable {m : Nat}

/-- The area in the rows that are copied. -/
theorem has_iff (h : a.Clean dest source m) (hc : c < dest.width) (hr : r < dest.height) :
    a.Has source c r ↔
      ((max a.x 0).toNat ≤ c ∧ c < (max a.x 0).toNat + m) ∧
        a.y.toNat ≤ r ∧ r < a.y.toNat + a.rows dest source := by
  have hy := h.y
  have hsy := h.sy
  have hcols := h.columns c hc
  have hrows : a.y ≤ r → (r - a.y.toNat < a.rows dest source ↔
      r < a.y + a.sh ∧ a.sy + (r - a.y) < source.height) := by
    intro hle
    rw [lt_rows]
    omega
  simp only [Has, Covers]
  omega

theorem fresh (h : a.Clean dest source m) (hd : dest.Real) (hfresh : a.Fresh dest source same)
    (hs : same = true) (h1 : 0 < a.y - a.sy) (h2 : a.y - a.sy < a.rows dest source) :
    m ≤ (a.x - a.sx).natAbs := by
  have hle := hfresh hs h1 h2
  rw [h.bytes] at hle
  exact Nat.le_of_mul_le_mul_right hle hd.depth

/-- A round copies the pixels of its row. -/
theorem copyRow_becomes (h : a.Clean dest source m) (hd : dest.Real) (hs : source.Real)
    (hdepth : source.depthBytes = dest.depthBytes) (hsame : same = true → source = dest)
    (ht : dest.SameSize t) {j : Nat} (hj : j < a.rows dest source) :
    ∃ u, a.copyRow (a.left dest source) source same j t = .ok u ∧ t.Becomes u fun c r i =>
      if r = a.y.toNat + j ∧ (max a.x 0).toNat ≤ c ∧ c < (max a.x 0).toNat + m then
        (if same then t else source).byteOf ((max a.sx 0).toNat + (c - (max a.x 0).toNat))
          (a.sy.toNat + j) i
      else t.byteOf c r i := by
  have hsize : source.SameSize (if same then t else source) := by
    split
    · next h => exact hsame h ▸ ht
    · exact .refl
  simp only [copyRow]
  generalize (if same then t else source) = source' at hsize
  have hy := h.y
  have hsy := h.sy
  have hfits := h.fits
  have hsourceFits := h.sourceFits
  have hrow := lt_rows.mp hj
  obtain ⟨u, hu, hbecomes⟩ := copyRun_becomes (hd.sameSize ht) (hs.sameSize hsize)
    (hsize.depth.trans (hdepth.trans ht.depth.symm)) m
    (show a.y.toNat + j < t.height by rw [ht.height]; omega)
    (show a.sy.toNat + j < source'.height by rw [hsize.height]; omega)
    (show (max a.x 0).toNat + m ≤ t.width by rw [ht.width]; omega)
    (show (max a.sx 0).toNat + m ≤ source'.width by rw [hsize.width]; omega)
  refine ⟨u, ?_, hbecomes⟩
  rw [hsize.depth, ← rowBytes, h.bytes, ← ht.depth, ← hu]
  congr 2 <;> omega

/-- What is copied, row by row. -/
theorem copyRows_becomes (h : a.Clean dest source m) (hd : dest.Real) (hs : source.Real)
    (hdepth : source.depthBytes = dest.depthBytes) (hsame : same = true → source = dest)
    (hfresh : a.Fresh dest source same) :
    ∃ t, Loop.tryLoop (Loop.tryEach (a.copyRow (a.left dest source) source same))
        0 (a.rows dest source) dest = .ok t ∧ dest.Becomes t (a.spec dest source) := by
  have hy := h.y
  have hsy := h.sy
  have hshift := h.shift
  let I (j : Nat) (t : Image) : Prop := dest.Becomes t fun c r i =>
    if ((max a.x 0).toNat ≤ c ∧ c < (max a.x 0).toNat + m) ∧ a.y.toNat ≤ r ∧ r < a.y.toNat + j then
      source.byteOf ((max a.sx 0).toNat + (c - (max a.x 0).toNat)) (a.sy.toNat + (r - a.y.toNat)) i
    else dest.byteOf c r i
  have hstart : I 0 dest := Image.Becomes.refl.congr fun c _ r _ i _ => by
    rw [if_neg (by omega)]
  have hround : ∀ j t, 0 ≤ j → j < 0 + a.rows dest source → I j t → ∃ u,
      Loop.tryEach (a.copyRow (a.left dest source) source same) j t = .ok (u, true) ∧ I (j + 1) u := by
    intro j t _ hj ht
    rw [Nat.zero_add] at hj
    obtain ⟨u, hu, hrow⟩ := h.copyRow_becomes hd hs hdepth hsame ht.size hj
    refine ⟨u, ?_, ht.trans hrow fun c hc r hr i hi => ?_⟩
    · rw [Loop.tryEach, hu, Except.bind]
    by_cases hin : r = a.y.toNat + j ∧ (max a.x 0).toNat ≤ c ∧ c < (max a.x 0).toNat + m
    · have hin' : ((max a.x 0).toNat ≤ c ∧ c < (max a.x 0).toNat + m) ∧
          a.y.toNat ≤ r ∧ r < a.y.toNat + (j + 1) := by omega
      rw [if_pos hin, if_pos hin', hin.1, Nat.add_sub_cancel_left]
      split
      · next hs' =>
          -- the row that is read has not been written
          obtain rfl := hsame hs'
          have hrow := lt_rows.mp hj
          have hfits := h.sourceFits
          rw [ht.bytes _ (by omega) _ (by omega) i hi, if_neg]
          rintro ⟨hcol, hwritten⟩
          have hm := h.fresh hd hfresh hs' (by omega) (by omega)
          omega
      · rfl
    · rw [if_neg hin, ht.bytes c hc r hr i hi]
      exact if_ctx_congr (by omega) (fun _ => rfl) fun _ => rfl
  obtain ⟨t, hok, hI, -⟩ := Loop.tryLoop_spec hround hstart
  rw [Nat.zero_add] at hI
  refine ⟨t, hok, hI.congr fun c hc r hr i hi => ?_⟩
  rw [spec]
  refine if_ctx_congr (h.has_iff hc hr).symm (fun hin => ?_) fun _ => rfl
  obtain ⟨hcol, hrow⟩ := (h.has_iff hc hr).mp hin
  congr 1 <;> omega

end Clean

/-! ## what a call that is right must be like -/

theorem fits_of_ok (hd : dest.Real) (hs : source.Real) (ha : a.Ints) (hdef : a.Defined dest source same)
    (hsame : same = true → source = dest) (hstop : ¬a.Stopped dest source)
    (hrun : imageCopyArea dest source same a.x a.y a.sx a.sy a.sw a.sh = .ok t) :
    a.Fits dest source := by
  have hfits := (imageCopyArea_exact hsame).iff.mp ⟨t, hrun⟩
  rw [CopyAreaFits, clipSpans_eq hd hs ha hdef, if_neg hstop] at hfits
  intro i hi
  have hrow := lt_rows.mp hi
  refine hfits i (by omega) fun l hl => ?_
  rw [inRows_iff hd hs ha l (by omega)]
  omega

theorem data_of_idle (hd : dest.Real) (hs : source.Real) (ha : a.Ints)
    (hdef : a.Defined dest source same) (hsame : same = true → source = dest)
    (hidle : a.Idle dest source)
    (hrun : imageCopyArea dest source same a.x a.y a.sx a.sy a.sw a.sh = .ok t) (hp : p < dest.extent) :
    t.data p = dest.data p := by
  by_cases hstop : a.Stopped dest source
  · rw [imageCopyArea_eq hd hs ha hdef hsame, if_pos hstop] at hrun
    rw [← Except.ok.inj hrun]
  · refine data_of_not_inRow hd hs ha hdef hsame (fits_of_ok hd hs ha hdef hsame hstop hrun) hstop hrun hp
      fun j hj hin => ?_
    obtain ⟨h1, h2⟩ := hin
    cases hidle.resolve_left hstop with
    | inl h0 => omega
    | inr h0 => omega

/-- Only the sizes count. -/
theorem Defined.withData {f g : Nat → UInt8} (h : a.Defined dest source same) :
    a.Defined (dest.withData f) (source.withData g) same :=
  ⟨h.sum, h.sourceSum, h.offset, h.apart⟩

/-- A right call, for images of any bytes. -/
theorem exists_copied (hsame : same = true → source = dest) (h : a.Copies dest source same)
    (f g : Nat → UInt8) (hfg : same = true → g = f) :
    ∃ t, imageCopyArea (dest.withData f) (source.withData g) same a.x a.y a.sx a.sy a.sw a.sh = .ok t ∧
      dest.Becomes t (a.spec (dest.withData f) (source.withData g)) := by
  obtain ⟨t, ht, hspec⟩ := h.2 (dest.withData f) (source.withData g) ⟨rfl, rfl, rfl, rfl⟩
    ⟨rfl, rfl, rfl, rfl⟩ fun hs' => by rw [hsame hs', hfg hs']
  exact ⟨t, ht, ⟨hspec.size.width, hspec.size.height, hspec.size.depth, hspec.size.pitch⟩, hspec.bytes⟩

theorem fits_of_copies (hd : dest.Real) (hs : source.Real) (ha : a.Ints)
    (hsame : same = true → source = dest) (h : a.Copies dest source same)
    (hstop : ¬a.Stopped dest source) : a.Fits dest source := by
  obtain ⟨t, ht, -⟩ := exists_copied hsame h dest.data source.data fun hs' => by rw [hsame hs']
  exact fits_of_ok hd hs ha h.1 hsame hstop ht

/-- The bytes of the source where those of the destination are `f`, else 0. -/
def sourceData (same : Bool) (f : Nat → UInt8) (p : Nat) : UInt8 := if same then f p else 0

theorem sourceData_eq_one {q : Nat} : sourceData same (mark q) p = 1 ↔ same = true ∧ p = q := by
  unfold sourceData
  split <;> simp_all [mark_eq_one]

theorem withData_sourceData (hsame : same = true → source = dest) (f : Nat → UInt8) :
    same = true → source.withData (sourceData same f) = dest.withData f := by
  intro h
  rw [hsame h]
  congr 1
  funext q
  rw [sourceData, if_pos h]

/-- Where the source has the byte for one of the destination. -/
def partner (a : CopyArea) (source : Image) (c r i : Nat) : Nat :=
  (a.sy + (r - a.y)).toNat * source.pitch + (a.sx + (c - a.x)).toNat * source.depthBytes + i

theorem spec_withData {f g : Nat → UInt8} :
    a.spec (dest.withData f) (source.withData g) c r i =
      if a.Has source c r then g (a.partner source c r i)
      else f (r * dest.pitch + c * dest.depthBytes + i) := rfl

/-- A call that copies nothing had nothing to copy. -/
theorem trivial_of_copies (hd : dest.Real) (hs : source.Real) (ha : a.Ints)
    (hsame : same = true → source = dest) (h : a.Copies dest source same)
    (hidle : a.Idle dest source) : a.Trivial dest source same := by
  refine or_iff_not_imp_left.mpr fun hhas => ?_
  simp only [not_forall, not_not] at hhas
  obtain ⟨c, hc, r, hr, hhas⟩ := hhas
  -- the byte is marked, and stays as it is
  generalize hp : r * dest.pitch + c * dest.depthBytes + 0 = p
  obtain ⟨t, ht, hspec⟩ := exists_copied hsame h (mark p) (sourceData same (mark p))
    fun hs' => funext fun q => if_pos hs'
  have hone : t.data p = mark p p := data_of_idle (hd.withData (mark p))
    (hs.withData (sourceData same (mark p))) ha h.1.withData (withData_sourceData hsame (mark p))
    hidle ht (hp ▸ hd.byte_lt hc hr hd.depth)
  rw [← hp, hspec.data hc hr hd.depth, spec_withData, if_pos hhas, hp, mark_self,
    sourceData_eq_one] at hone
  obtain ⟨hs', hpartner⟩ := hone
  refine ⟨hs', ?_⟩
  obtain rfl := hsame hs'
  obtain ⟨⟨hx1, hx2⟩, ⟨hy1, hy2⟩, h1, h2, h3, h4⟩ := hhas
  have hdepth := hd.depth
  rw [partner] at hpartner
  have hpixel := (hd.mem_run (n := 1) (x := c) (y := r) (r := (a.sy + (r - a.y)).toNat)
    (show (a.sx + (c - a.x)).toNat < source.width by omega) hd.depth (by omega)).mp (by omega)
  omega

/-- The runs of a row do not overlap within one image. -/
theorem apart (hsame : same = true → source = dest) (hdef : a.Defined dest source same)
    (hstop : ¬a.Stopped dest source) {i : Nat} (hi : i < a.rows dest source) (hs : same = true) :
    a.rowBytes dest source ≤ ((a.target dest i : Int) - a.origin source i).natAbs := by
  have hle := hdef.apart hs hstop (by omega)
  rw [target_eq hdef hstop hi, origin_eq hdef hstop hi]
  obtain rfl := hsame hs
  have hdiff : (a.y + i) * source.pitch + max a.x 0 * source.depthBytes -
      ((a.sy + i) * source.pitch + max a.sx 0 * source.depthBytes) =
      (a.y - a.sy) * source.pitch + (max a.x 0 - max a.sx 0) * source.depthBytes := by
    simp only [Int.add_mul, Int.sub_mul]
    omega
  rwa [hdiff]

theorem run_le (hd : dest.Real) (hs : source.Real) (hfit : a.Fits dest source)
    (hbytes : 0 < a.rowBytes dest source) {i : Nat} (hi : i < a.rows dest source) :
    a.target dest i + a.rowBytes dest source ≤ dest.extent ∧
      a.origin source i + a.rowBytes dest source ≤ source.extent := by
  obtain ⟨hsin, hdin⟩ := hfit i hi
  have hextent := hd.extent
  have hextent' := hs.extent
  have h1 := Image.inside_iff.mp hdin
  have h2 := Image.inside_iff.mp hsin
  rw [u32_of_lt (show a.target dest i < 2 ^ 32 from dest.pixel_lt _ _)] at h1
  rw [u32_of_lt (show a.origin source i < 2 ^ 32 from source.pixel_lt _ _)] at h2
  omega

theorem pitch_pos (hd : dest.Real) (h : 0 < dest.extent) : 0 < dest.pitch := by
  rw [hd.pitch]
  refine Nat.mul_pos (Nat.pos_of_ne_zero fun h0 => ?_) hd.depth
  rw [Image.extent, h0, Nat.zero_mul, Nat.zero_mul] at h
  exact Nat.lt_irrefl 0 h

/-- The rows are one below the other. -/
theorem target_le (hdef : a.Defined dest source same) (hstop : ¬a.Stopped dest source) {i j : Nat}
    (hi : i < a.rows dest source) (hj : j ≤ i) :
    a.target dest j + (i - j) * dest.pitch = a.target dest i := by
  have h1 := target_eq hdef hstop hi
  have h2 := target_eq hdef hstop (i := j) (by omega)
  obtain ⟨k, rfl⟩ := Nat.exists_eq_add_of_le hj
  rw [Nat.add_sub_cancel_left]
  have h3 : (a.y + (j + k : Nat)) * dest.pitch = (a.y + j) * dest.pitch + (k * dest.pitch : Nat) := by
    rw [Int.natCast_add, Int.natCast_mul, ← Int.add_assoc, Int.add_mul (a.y + j)]
  omega

theorem target_nat (hdef : a.Defined dest source same) (hstop : ¬a.Stopped dest source) {i : Nat}
    (hi : i < a.rows dest source) :
    a.target dest i = (a.y.toNat + i) * dest.pitch + (max a.x 0).toNat * dest.depthBytes := by
  have hy := (lt_rows.mp hi).1
  have h := target_eq hdef hstop hi
  rw [← Int.toNat_of_nonneg hy, ← Int.toNat_of_nonneg (show 0 ≤ max a.x 0 by omega)] at h
  exact_mod_cast h

theorem origin_nat (hdef : a.Defined dest source same) (hstop : ¬a.Stopped dest source) {i : Nat}
    (hi : i < a.rows dest source) :
    a.origin source i = (a.sy.toNat + i) * source.pitch + (max a.sx 0).toNat * source.depthBytes := by
  have hsy := (lt_rows.mp hi).2.1
  have h := origin_eq hdef hstop hi
  rw [← Int.toNat_of_nonneg hsy, ← Int.toNat_of_nonneg (show 0 ≤ max a.sx 0 by omega)] at h
  exact_mod_cast h

/-- The first byte that a right call copies is of the first pixel of the area, as is the one it
is copied from. -/
theorem start_of_copies (hd : dest.Real) (hs : source.Real) (ha : a.Ints)
    (hsame : same = true → source = dest) (h : a.Copies dest source same)
    (hidle : ¬a.Idle dest source) :
    a.Has source (max a.x 0).toNat a.y.toNat ∧ (max a.x 0).toNat < dest.width ∧
      max a.sx 0 - max a.x 0 = a.sx - a.x := by
  simp only [Idle, not_or] at hidle
  obtain ⟨hstop, hrows, hbytes⟩ := hidle
  have hrows := Nat.pos_of_ne_zero hrows
  have hbytes := Nat.pos_of_ne_zero hbytes
  have hdef := h.1
  -- the first byte that is read is marked
  obtain ⟨f, hf⟩ : ∃ f, f = sourceData same (mark (a.origin source 0)) := ⟨_, rfl⟩
  obtain ⟨g, hg⟩ : ∃ g, g = mark (a.origin source 0) := ⟨_, rfl⟩
  have hfg : same = true → g = f := fun hs' => by rw [hf, hg]; exact funext fun q => (if_pos hs').symm
  obtain ⟨t, ht, hspec⟩ := exists_copied hsame h f g hfg
  have hsame' : same = true → source.withData g = dest.withData f := fun hs' => by
    rw [hsame hs', hfg hs']
  have hfit := fits_of_copies hd hs ha hsame h hstop
  obtain ⟨hle, -⟩ := run_le hd hs hfit hbytes hrows
  have hpitch := pitch_pos hd (by omega)
  have hfirst : t.data (a.target dest 0) = g (a.origin source 0 + (a.target dest 0 - a.target dest 0)) :=
    data_of_first (hd.withData f) (hs.withData g) ha hdef.withData hsame' hfit hstop ht
      (show a.target dest 0 < dest.extent by omega) hrows ⟨Nat.le_refl _, Nat.lt_add_of_pos_right hbytes⟩
      fun j h0 hj hin => by
        have hbelow : a.target dest 0 + (j - 0) * dest.pitch = a.target dest j :=
          target_le hdef hstop hj (Nat.zero_le j)
        have hin' : a.target dest j ≤ a.target dest 0 := hin.1
        have := Nat.mul_pos (show 0 < j - 0 by omega) hpitch
        omega
  rw [Nat.sub_self, Nat.add_zero, hg, mark_self] at hfirst
  obtain ⟨c, hc, r, hr, i, hi, hp⟩ := hd.exists_pixel (show a.target dest 0 < dest.extent by omega)
  rw [hp, hspec.data hc hr hi, spec_withData, hf, hg] at hfirst
  split at hfirst
  · next hhas =>
      have hpartner := mark_eq_one.mp hfirst
      have hhas' := hhas
      obtain ⟨⟨hx1, hx2⟩, ⟨hy1, hy2⟩, h1, h2, h3, h4⟩ := hhas
      have hdepth := hd.depth
      obtain ⟨hy, hsy, -⟩ := lt_rows.mp hrows
      have htarget := target_nat hdef hstop hrows
      rw [Nat.add_zero] at htarget
      have hpixel := (hd.mem_run (n := 1) (x := (max a.x 0).toNat) (y := a.y.toNat) (r := r) hc hi
        (by omega)).mp (by omega)
      obtain rfl : r = a.y.toNat := hpixel.1
      obtain rfl : c = (max a.x 0).toNat := by omega
      have hi0 : i = 0 := by omega
      have hrow : (a.sy + (a.y.toNat - a.y)).toNat = a.sy.toNat + 0 := by omega
      rw [origin_nat hdef hstop hrows, partner, hrow, hi0, Nat.add_zero] at hpartner
      have hcol := Nat.eq_of_mul_eq_mul_right hs.depth (Nat.add_left_cancel hpartner)
      exact ⟨hhas', hc, by omega⟩
  · next hhas =>
      rw [← hp, sourceData_eq_one] at hfirst
      obtain ⟨hs', heq⟩ := hfirst
      have hapart := apart hsame hdef hstop hrows hs'
      omega

/-- As much is cut before both images; `n` rows are copied before the last one, and there are `m`
columns to copy. -/
structure CutAlike (a : CopyArea) (dest source : Image) (n m : Nat) : Prop where
  running : ¬a.Stopped dest source
  start : a.x = a.sx
  neg : a.x < 0
  rows : a.rows dest source = n + 1
  bytes : 0 < a.rowBytes dest source
  meets : a.meets dest source = m
  target : a.target dest n = (a.y.toNat + n) * dest.pitch
  origin : a.origin source n = (a.sy.toNat + n) * source.pitch
  fits : a.Fits dest source

theorem cutAlike_of_copies (hd : dest.Real) (hs : source.Real) (ha : a.Ints)
    (hsame : same = true → source = dest) (h : a.Copies dest source same)
    (hidle : ¬a.Idle dest source) (hx : a.x = a.sx) (hneg : a.x < 0) : ∃ n m, a.CutAlike dest source n m := by
  obtain ⟨⟨⟨-, hsw⟩, -⟩, -⟩ := start_of_copies hd hs ha hsame h hidle
  simp only [Idle, not_or] at hidle
  obtain ⟨hstop, hrows, hbytes⟩ := hidle
  obtain ⟨n, hn⟩ := Nat.exists_eq_succ_of_ne_zero hrows
  obtain ⟨m, hm⟩ := Int.eq_ofNat_of_zero_le (a := a.meets dest source) (by simp only [meets]; omega)
  have hzero : (max a.x 0).toNat = 0 ∧ (max a.sx 0).toNat = 0 := by omega
  have htarget := target_nat h.1 hstop (show n < a.rows dest source by omega)
  have horigin := origin_nat h.1 hstop (show n < a.rows dest source by omega)
  rw [hzero.1, Nat.zero_mul, Nat.add_zero] at htarget
  rw [hzero.2, Nat.zero_mul, Nat.add_zero] at horigin
  exact ⟨n, m, hstop, hx, hneg, hn, Nat.pos_of_ne_zero hbytes, hm, htarget, horigin,
    fits_of_copies hd hs ha hsame h hstop⟩

namespace CutAlike

variable {m : Nat}

theorem last_lt (h : a.CutAlike dest source n m) : n < a.rows dest source := by
  have hrows := h.rows
  omega

theorem has_iff (h : a.CutAlike dest source n m) (hc : c < dest.width) (hr : r < dest.height) :
    a.Has source c r ↔ c < m ∧ a.y.toNat ≤ r ∧ r < a.y.toNat + (n + 1) := by
  have hx := h.start
  have hneg := h.neg
  have hm := h.meets
  obtain ⟨hy, hsy, -⟩ := lt_rows.mp h.last_lt
  have hrows : a.y ≤ r → (r - a.y.toNat < n + 1 ↔
      r < a.y + a.sh ∧ a.sy + (r - a.y) < source.height) := by
    intro hle
    rw [← h.rows, lt_rows]
    omega
  simp only [Has, Covers]
  rw [CopyArea.meets] at hm
  omega

/-- In one image, the last row is not copied onto itself. -/
theorem target_ne_origin (h : a.CutAlike dest source n m) (hsame : same = true → source = dest)
    (hdef : a.Defined dest source same) (hs : same = true) :
    a.rowBytes dest source ≤ ((a.target dest n : Int) - a.origin source n).natAbs :=
  apart hsame hdef h.running h.last_lt hs

/-- No column is missing. -/
theorem le_rowBytes (h : a.CutAlike dest source n m) (hd : dest.Real) (hs : source.Real) (ha : a.Ints)
    (hdepth : source.depthBytes = dest.depthBytes) (hsame : same = true → source = dest)
    (hcopies : a.Copies dest source same) : m * dest.depthBytes ≤ a.rowBytes dest source := by
  refine Nat.not_lt.mp fun hshort => ?_
  have hdef := hcopies.1
  have hrow := lt_rows.mp h.last_lt
  obtain ⟨hle, -⟩ := run_le hd hs h.fits h.bytes h.last_lt
  -- the byte behind the last row
  obtain ⟨k, i, hk, hi⟩ : ∃ k i, a.rowBytes dest source = k * dest.depthBytes + i ∧ i < dest.depthBytes :=
    ⟨_, _, (Nat.div_add_mod' _ _).symm, Nat.mod_lt _ hd.depth⟩
  have hcol : k < m := Nat.lt_of_mul_lt_mul_right (a := dest.depthBytes) (by omega)
  have hcol' : k < dest.width := by
    have hm := h.meets
    simp only [CopyArea.meets] at hm
    omega
  have hr : a.y.toNat + n < dest.height := by omega
  obtain ⟨p, hp⟩ : ∃ p, p = a.target dest n + a.rowBytes dest source := ⟨_, rfl⟩
  have hpixel : p = (a.y.toNat + n) * dest.pitch + k * dest.depthBytes + i := by
    rw [Nat.add_assoc, ← hk, hp, h.target]
  obtain ⟨f, hf⟩ : ∃ f, f = mark p := ⟨_, rfl⟩
  obtain ⟨g, hg⟩ : ∃ g, g = sourceData same (mark p) := ⟨_, rfl⟩
  have hfg : same = true → g = f := fun hs' => by rw [hf, hg]; exact funext fun q => if_pos hs'
  obtain ⟨t, ht, hspec⟩ := exists_copied hsame hcopies f g hfg
  have hout : t.data p = f p :=
    data_of_not_inRow (hd.withData f) (hs.withData g) ha hdef.withData
      (fun hs' => by rw [hsame hs', hfg hs']) h.fits h.running ht
      (hpixel ▸ hd.byte_lt hcol' hr hi) fun j hj hin => by
        have hin' : p < a.target dest j + a.rowBytes dest source := hin.2
        have hj' : j < a.rows dest source := hj
        have hbelow : a.target dest j + (n - j) * dest.pitch = a.target dest n :=
          target_le hdef h.running h.last_lt (by have := h.rows; omega)
        omega
  rw [hpixel, hspec.data hcol' hr hi, spec_withData, if_pos ((h.has_iff hcol' hr).mpr (by omega)), ← hpixel,
    hf, hg, mark_self, sourceData_eq_one] at hout
  obtain ⟨hs', hpartner⟩ := hout
  have hapart := h.target_ne_origin hsame hdef hs'
  have horigin := h.origin
  have htarget := h.target
  have hx := h.start
  have hrow' : (a.sy + ((a.y.toNat + n : Nat) - a.y)).toNat = a.sy.toNat + n := by omega
  have hcol'' : (a.sx + (k - a.x)).toNat = k := by omega
  rw [partner, hrow', hcol'', ← horigin, hdepth, Nat.add_assoc, ← hk] at hpartner
  have hbytes := h.bytes
  omega

/-- The byte behind the columns of the last row is none of the area. -/
theorem not_has_behind (h : a.CutAlike dest source n m)
    (hc : c < dest.width) (hr : r < dest.height) {i : Nat} (hi : i < dest.depthBytes)
    (hp : a.target dest n + m * dest.depthBytes = r * dest.pitch + c * dest.depthBytes + i) :
    ¬a.Has source c r := by
  rw [h.has_iff hc hr]
  rintro ⟨hcol, hlo, hhi⟩
  have hle : r * dest.pitch ≤ (a.y.toNat + n) * dest.pitch := Nat.mul_le_mul_right _ (by omega)
  have hlt : (c + 1) * dest.depthBytes ≤ m * dest.depthBytes := Nat.mul_le_mul_right _ hcol
  rw [h.target] at hp
  rw [Nat.succ_mul] at hlt
  omega

/-- No byte is copied that is not of the columns. -/
theorem rowBytes_le (h : a.CutAlike dest source n m) (hd : dest.Real) (hs : source.Real) (ha : a.Ints)
    (hsame : same = true → source = dest) (hcopies : a.Copies dest source same) :
    a.rowBytes dest source ≤ m * dest.depthBytes := by
  refine Nat.not_lt.mp fun hlong => ?_
  have hdef := hcopies.1
  obtain ⟨hle, hle'⟩ := run_le hd hs h.fits h.bytes h.last_lt
  obtain ⟨p, hp⟩ : ∃ p, p = a.target dest n + m * dest.depthBytes := ⟨_, rfl⟩
  obtain ⟨q, hq⟩ : ∃ q, q = a.origin source n + m * dest.depthBytes := ⟨_, rfl⟩
  obtain ⟨f, hf⟩ : ∃ f, f = mark p := ⟨_, rfl⟩
  obtain ⟨g, hg⟩ : ∃ g, g = sourceData same (mark p) := ⟨_, rfl⟩
  have hfg : same = true → g = f := fun hs' => by rw [hf, hg]; exact funext fun q => if_pos hs'
  obtain ⟨t, ht, hspec⟩ := exists_copied hsame hcopies f g hfg
  -- it stays as it is, but is copied from elsewhere
  have hstays : t.data p = 1 := by
    obtain ⟨c, hc, r, hr, i, hi, hpixel⟩ := hd.exists_pixel (show p < dest.extent by omega)
    rw [hpixel, hspec.data hc hr hi, spec_withData, if_neg (h.not_has_behind hc hr hi (by omega)),
      ← hpixel, hf, mark_self]
  have hsub : a.origin source n + (p - a.target dest n) = q := by omega
  have hout : same = true → q < dest.extent ∧ ¬a.InRow dest source n q := by
    intro hs'
    have hapart := h.target_ne_origin hsame hdef hs'
    obtain rfl := hsame hs'
    refine ⟨by omega, fun hin => ?_⟩
    obtain ⟨h1, h2⟩ := hin
    omega
  have hlast : t.data p = (if same then t else source.withData g).data q := by
    rw [← hsub]
    exact data_of_last (hd.withData f) (hs.withData g) ha hdef.withData
      (fun hs' => by rw [hsame hs', hfg hs']) h.fits h.running ht (show p < dest.extent by omega) h.rows
      ⟨show a.target dest n ≤ p by omega, show p < a.target dest n + a.rowBytes dest source by omega⟩
      (fun hs' => hsub ▸ hout hs')
  rw [hstays] at hlast
  split at hlast
  · next hs' =>
      have hapart := h.target_ne_origin hsame hdef hs'
      obtain ⟨hqlt, -⟩ := hout hs'
      obtain ⟨c, hc, r, hr, i, hi, hpixel⟩ := hd.exists_pixel hqlt
      rw [hpixel, hspec.data hc hr hi, spec_withData, hf, hg] at hlast
      split at hlast
      · next hhas =>
          have heq := (sourceData_eq_one.mp hlast.symm).2
          obtain ⟨-, hlo, -⟩ := (h.has_iff hc hr).mp hhas
          obtain rfl := hsame hs'
          obtain ⟨hy, hsy, -⟩ := lt_rows.mp h.last_lt
          have hx := h.start
          have htarget := h.target
          have horigin := h.origin
          have hbytes := h.bytes
          obtain ⟨k, hk⟩ : ∃ k, k = (a.sy + (r - a.y)).toNat := ⟨_, rfl⟩
          have hrow : k + a.y.toNat = a.sy.toNat + r := by omega
          have hrow' := congrArg (· * source.pitch) hrow
          have hcol : (a.sx + (c - a.x)).toNat = c := by omega
          rw [partner, ← hk, hcol] at heq
          simp only [Nat.add_mul] at hrow' htarget horigin
          omega
      · rw [← hpixel] at hlast
        have heq := mark_eq_one.mp hlast.symm
        omega
  · next hs' =>
      have hzero : g q = 1 := hlast.symm
      rw [hg, sourceData_eq_one] at hzero
      exact hs' hzero.1

end CutAlike

theorem plain_or_wraps_of_copies (hd : dest.Real) (hs : source.Real) (ha : a.Ints)
    (hdepth : source.depthBytes = dest.depthBytes) (hsame : same = true → source = dest)
    (h : a.Copies dest source same) (hidle : ¬a.Idle dest source) : a.Plain ∨ a.Wraps dest source := by
  obtain ⟨⟨⟨-, hsw⟩, -⟩, -, hshift⟩ := start_of_copies hd hs ha hsame h hidle
  by_cases hneg : a.x < 0
  · have hx : a.x = a.sx := by omega
    obtain ⟨n, m, hcut⟩ := cutAlike_of_copies hd hs ha hsame h hidle hx hneg
    have hbytes := Nat.le_antisymm (hcut.rowBytes_le hd hs ha hsame h)
      (hcut.le_rowBytes hd hs ha hdepth hsame h)
    obtain ⟨hy, hsy, -⟩ := lt_rows.mp hcut.last_lt
    refine .inr ⟨hx, hneg, hy, hsy, ?_⟩
    rw [hcut.meets, hbytes, hdepth, Int.natCast_mul]
  · simp only [Idle, not_or] at hidle
    obtain ⟨hy, hsy, -⟩ := lt_rows.mp (Nat.pos_of_ne_zero hidle.2.1)
    exact .inl ⟨by omega, hy, by omega, hsy, by omega⟩

/-- In one image, the row `k` below the first of the area is a copy of what the first is in the end. -/
theorem Clean.copied_twice {m : Nat} (h : a.Clean dest source m) (hd : dest.Real) (hs : source.Real)
    (hdepth : source.depthBytes = dest.depthBytes) (hsame : same = true → source = dest)
    (hs' : same = true) {k l : Nat} (hk : 0 < k) (hbelow : a.sy.toNat + k = a.y.toNat)
    (hrows : k < a.rows dest source) (hl : l < m)
    (hrun : Loop.tryLoop (Loop.tryEach (a.copyRow (a.left dest source) source same)) 0
      (a.rows dest source) dest = .ok t) :
    t.byteOf ((max a.x 0).toNat + l) (a.y.toNat + k) 0 = t.byteOf ((max a.sx 0).toNat + l) a.y.toNat 0 := by
  obtain rfl := hsame hs'
  have hfits := h.fits
  have hsourceFits := h.sourceFits
  have hlast := lt_rows.mp hrows
  let I (j : Nat) (t : Image) : Prop := source.SameSize t ∧ (k < j →
    t.byteOf ((max a.x 0).toNat + l) (a.y.toNat + k) 0 = t.byteOf ((max a.sx 0).toNat + l) a.y.toNat 0)
  have hround : ∀ j u, 0 ≤ j → j < 0 + a.rows source source → I j u → ∃ v,
      Loop.tryEach (a.copyRow (a.left source source) source same) j u = .ok (v, true) ∧ I (j + 1) v := by
    intro j u _ hj hu
    obtain ⟨v, hv, hrow⟩ := h.copyRow_becomes hd hs hdepth hsame hu.1 (Nat.zero_add _ ▸ hj)
    refine ⟨v, ?_, hu.1.trans hrow.size, fun hkj => ?_⟩
    · rw [Loop.tryEach, hv, Except.bind]
    have hdepth' : 0 < u.depthBytes := hu.1.depth ▸ hd.depth
    have hto := hrow.bytes ((max a.x 0).toNat + l) (by rw [hu.1.width]; omega) (a.y.toNat + k)
      (by rw [hu.1.height]; omega) 0 hdepth'
    have hfrom := hrow.bytes ((max a.sx 0).toNat + l) (by rw [hu.1.width]; omega) a.y.toNat
      (by rw [hu.1.height]; omega) 0 hdepth'
    -- the first row is not written again
    rw [if_neg (by omega)] at hfrom
    rw [hto, hfrom]
    by_cases hjk : j = k
    · rw [if_pos (by omega), if_pos hs', Nat.add_sub_cancel_left, hjk, hbelow]
    · rw [if_neg (by omega)]
      exact hu.2 (by omega)
  obtain ⟨u, hu, hI, -⟩ := Loop.tryLoop_spec (I := I) hround ⟨.refl, fun h => absurd h (Nat.not_lt_zero k)⟩
  obtain rfl := Except.ok.inj (hrun.symm.trans hu)
  exact hI.2 (by omega)

theorem Clean.withData {m : Nat} {f g : Nat → UInt8} (h : a.Clean dest source m) :
    a.Clean (dest.withData f) (source.withData g) m :=
  ⟨h.running, h.y, h.sy, h.bytes, h.fits, h.sourceFits, h.shift, h.columns⟩

/-- In one image, a row that is written before it is read goes to the wrong place. -/
theorem Clean.fresh_of_copies {m : Nat} (h : a.Clean dest source m) (hd : dest.Real) (hs : source.Real)
    (ha : a.Ints) (hdepth : source.depthBytes = dest.depthBytes) (hsame : same = true → source = dest)
    (hcopies : a.Copies dest source same) : a.Fresh dest source same := by
  intro hs' hbelow hrows
  rw [h.bytes]
  refine Nat.mul_le_mul_right _ (Nat.not_lt.mp fun hlt => ?_)
  have hy := h.y
  have hsy := h.sy
  have hshift := h.shift
  have hfits := h.fits
  have hsourceFits := h.sourceFits
  obtain ⟨k, hk⟩ := Int.eq_ofNat_of_zero_le (a := a.y - a.sy) (by omega)
  have hlast := lt_rows.mp (show k < a.rows dest source by omega)
  -- a column of the area in both places
  obtain ⟨l, hl, hl1, hl2⟩ : ∃ l < m, (max a.x 0).toNat ≤ (max a.sx 0).toNat + l ∧
      (max a.sx 0).toNat + l < (max a.x 0).toNat + m :=
    ⟨(max a.x 0).toNat - (max a.sx 0).toNat, by omega, by omega, by omega⟩
  obtain ⟨p, hp⟩ : ∃ p, p = a.y.toNat * dest.pitch + ((max a.sx 0).toNat + l) * dest.depthBytes + 0 :=
    ⟨_, rfl⟩
  obtain ⟨t, ht, hspec⟩ := exists_copied hsame hcopies (mark p) (mark p) fun _ => rfl
  have hsame' : same = true → source.withData (mark p) = dest.withData (mark p) := fun hs' => by
    rw [hsame hs']
  rw [imageCopyArea_eq (hd.withData (mark p)) (hs.withData (mark p)) ha hcopies.1.withData hsame',
    if_neg (show ¬a.Stopped (dest.withData (mark p)) (source.withData (mark p)) from h.running)] at ht
  have htwice := (h.withData (f := mark p) (g := mark p)).copied_twice (hd.withData (mark p))
    (hs.withData (mark p)) hdepth hsame' hs' (k := k) (l := l) (by omega) (by omega)
    (show k < a.rows dest source by omega) hl ht
  obtain rfl := hsame hs'
  have hdepth' := hd.depth
  have hto : t.byteOf ((max a.x 0).toNat + l) (a.y.toNat + k) 0 = 1 := by
    rw [hspec.bytes _ (by omega) _ (by omega) _ hd.depth, spec_withData,
      if_pos ((h.has_iff (by omega) (by omega)).mpr (by omega)), mark_eq_one, partner, hp]
    congr 3 <;> omega
  have hfrom : t.byteOf ((max a.sx 0).toNat + l) a.y.toNat 0 ≠ 1 := by
    rw [hspec.bytes _ (by omega) _ (by omega) _ hd.depth, spec_withData,
      if_pos ((h.has_iff (by omega) (by omega)).mpr (by omega)), Ne, mark_eq_one, partner, hp]
    intro heq
    have hcolumn : (a.sx + (((max a.sx 0).toNat + l : Nat) - a.x)).toNat < source.width := by omega
    have hpixel := (hd.mem_run (n := 1) (x := (max a.sx 0).toNat + l) (y := a.y.toNat)
      (r := (a.sy + (a.y.toNat - a.y)).toNat) hcolumn hd.depth (by omega)).mp (by omega)
    omega
  exact hfrom (htwice ▸ hto)

theorem ok_of_idle (hd : dest.Real) (hs : source.Real) (ha : a.Ints) (hdef : a.Defined dest source same)
    (hsame : same = true → source = dest) (hidle : a.Idle dest source) :
    ∃ t, imageCopyArea dest source same a.x a.y a.sx a.sy a.sw a.sh = .ok t ∧
      dest.Becomes t dest.byteOf := by
  obtain ⟨t, ht, hsize⟩ : ∃ t, imageCopyArea dest source same a.x a.y a.sx a.sy a.sw a.sh = .ok t ∧
      dest.SameSize t := by
    rw [imageCopyArea_eq hd hs ha hdef hsame]
    by_cases hstop : a.Stopped dest source
    · exact ⟨dest, if_pos hstop, .refl⟩
    · have hfit : a.Fits dest source := by
        intro i hi
        cases hidle.resolve_left hstop with
        | inl h0 => omega
        | inr h0 => exact ⟨Image.inside_iff.mpr (.inl h0), Image.inside_iff.mpr (.inl h0)⟩
      obtain ⟨u, hu, hsize, -⟩ := copyRows_data hd hs hsame hfit (i := 0) (n := a.rows dest source)
        (by omega) .refl
      exact ⟨u, (if_neg hstop).trans hu, hsize⟩
  refine ⟨t, ht, hsize, fun c hc r hr i hi => ?_⟩
  rw [Image.byteOf, hsize.pitch, hsize.depth,
    data_of_idle hd hs ha hdef hsame hidle ht (hd.byte_lt hc hr hi), Image.byteOf]

theorem copies_of_when (hd : dest.Real) (hs : source.Real) (ha : a.Ints)
    (hdepth : source.depthBytes = dest.depthBytes) (hsame : same = true → source = dest)
    (h : a.When dest source same) :
    ∃ t, imageCopyArea dest source same a.x a.y a.sx a.sy a.sw a.sh = .ok t ∧
      dest.Becomes t (a.spec dest source) := by
  obtain ⟨hdef, hcases⟩ := h
  by_cases hidle : a.Idle dest source
  · obtain ⟨t, ht, hbecomes⟩ := ok_of_idle hd hs ha hdef hsame hidle
    refine ⟨t, ht, hbecomes.congr fun c hc r hr i hi => ?_⟩
    rw [spec]
    split
    · next hhas =>
        obtain ⟨-, htrivial⟩ | ⟨hcases, -⟩ := hcases
        · obtain ⟨hs', hx, hy⟩ := htrivial.resolve_left fun hnone => hnone c hc r hr hhas
          rw [hsame hs']
          congr 1 <;> omega
        · exact absurd hhas (not_has_of_idle hd hs hdepth hcases hidle hc hr)
    · rfl
  · obtain ⟨hcases, hfresh⟩ := hcases.resolve_left fun h => hidle h.1
    simp only [Idle, not_or] at hidle
    obtain ⟨m, hclean⟩ := clean_of_plain_or_wraps hd hs hdepth hcases hidle.1 hidle.2.1
    rw [imageCopyArea_eq hd hs ha hdef hsame, if_neg hidle.1]
    exact hclean.copyRows_becomes hd hs hdepth hsame hfresh

theorem When.withData {f g : Nat → UInt8} (h : a.When dest source same) :
    a.When (dest.withData f) (source.withData g) same :=
  ⟨h.1.withData, h.2⟩

/-- **When `image_copy_area` is right.** -/
theorem copies_iff (hd : dest.Real) (hs : source.Real) (ha : a.Ints)
    (hdepth : source.depthBytes = dest.depthBytes) (hsame : same = true → source = dest) :
    a.Copies dest source same ↔ a.When dest source same := by
  constructor
  · intro h
    refine ⟨h.1, ?_⟩
    by_cases hidle : a.Idle dest source
    · exact .inl ⟨hidle, trivial_of_copies hd hs ha hsame h hidle⟩
    · have hcases := plain_or_wraps_of_copies hd hs ha hdepth hsame h hidle
      simp only [Idle, not_or] at hidle
      obtain ⟨m, hclean⟩ := clean_of_plain_or_wraps hd hs hdepth hcases hidle.1 hidle.2.1
      exact .inr ⟨hcases, hclean.fresh_of_copies hd hs ha hdepth hsame h⟩
  · intro h
    refine ⟨h.1, fun dest' source' hdest hsource hsame' => ?_⟩
    rw [hdest.eq_withData, hsource.eq_withData] at hsame' ⊢
    exact copies_of_when (hd.withData _) (hs.withData _) ha hdepth hsame' h.withData

end CopyArea

/-- **Clipped drawing is right exactly for these arguments**: `image_fill_rect` where no sum
overflows and an area that starts before the image leaves nothing, or reaches its other side;
`image_copy_area` where the area starts in both images (and in one image is not copied over rows
still to be read), where nothing is to be copied and nothing is, or where the length of a row
comes out right by its overflow. -/
theorem clipped_iff (fb : Display) (dest source : Image) (same : Bool) :
    (∀ a : Area, dest.Real → a.Ints → (FillsRect fb dest a ↔ FillWhen dest a)) ∧
    ∀ a : CopyArea, dest.Real → source.Real → source.depthBytes = dest.depthBytes →
      (same = true → source = dest) → a.Ints →
      (a.Copies dest source same ↔ a.When dest source same) :=
  ⟨fun _ h ha => fillsRect_iff h ha,
    fun _ hd hs hdepth hsame ha => CopyArea.copies_iff hd hs ha hdepth hsame⟩

/-- An image of a row of four pixels of a byte. -/
def fourPixels : Image := ⟨4, 1, 1, 4, fun _ => 0⟩

theorem real_fourPixels : fourPixels.Real := ⟨by decide, by decide, by decide, by decide, by decide⟩

def greyDisplay : Display := ⟨4, 1, 1, ⟨0, 8⟩, ⟨0, 8⟩, ⟨0, 8⟩, fun _ => 0⟩

theorem clipped_iff_example :
    FillsRect greyDisplay fourPixels ⟨1, 0, 9, 1⟩ ∧
      (CopyArea.mk 0 0 1 0 9 1).Copies fourPixels fourPixels false := by
  obtain ⟨hfill, hcopy⟩ := clipped_iff greyDisplay fourPixels fourPixels false
  refine ⟨(hfill ⟨1, 0, 9, 1⟩ real_fourPixels ?_).mpr ?_,
    (hcopy ⟨0, 0, 1, 0, 9, 1⟩ real_fourPixels real_fourPixels rfl (fun _ => rfl) ?_).mpr ?_⟩
  · exact ⟨by decide, by decide, by decide, by decide⟩
  · exact ⟨.inr ⟨by decide, .inr (by decide)⟩, .inr (.inr ⟨.inl (by decide), .inl (by decide)⟩)⟩
  · exact ⟨by decide, by decide, by decide, by decide, by decide, by decide⟩
  · refine ⟨⟨by decide, fun _ => by decide, fun _ => by decide, nofun⟩, .inr ⟨.inl ?_, nofun⟩⟩
    exact ⟨by decide, by decide, by decide, by decide, by decide⟩

/-- A rectangle of a column at -2 fills three columns of the image, and of an area at -1 it is the
first source pixel, not the second, that comes to column 0. -/
theorem not_clipped : ¬FillsRect greyDisplay fourPixels ⟨-2, 0, 1, 1⟩ ∧
    ¬(CopyArea.mk (-1) 0 0 0 2 1).Copies fourPixels fourPixels false := by
  constructor
  · rw [fillsRect_iff real_fourPixels ⟨by decide, by decide, by decide, by decide⟩]
    rintro ⟨-, h | h | ⟨h, -⟩⟩ <;> revert h <;> decide
  · rw [CopyArea.copies_iff real_fourPixels real_fourPixels
      ⟨by decide, by decide, by decide, by decide, by decide, by decide⟩ rfl fun _ => rfl]
    rintro ⟨-, ⟨h, -⟩ | ⟨h | h, -⟩⟩
    · revert h
      decide
    · exact absurd h.1 (by decide)
    · exact absurd h.1 (by decide)

end Eclair
