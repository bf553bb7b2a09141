import Eclair.Lib.System
import Eclair.Media.Rle
import Eclair.Media.Sound

/-!
# Eclair.Media.Limits

What the decoders of images and sounds must not do, whatever the file holds:
go behind a table or a buffer, divide by zero, deliver what nothing was
stored to (`safe_iff`), or deliver more than the header declares
(`stops_at_end`).
-/

namespace Eclair

namespace Media

/-! ## safe files -/

/-- The first bytes of a file, which `fread` fills the header with. -/
def imageHeader (file : Bytes) : Bytes := file.take RBN_HEADER

def soundHeader (file : Bytes) : Bytes := file.take WAV_HEADER

/-- The mode and the compression are some that there are. -/
def RbnKnown (header : Bytes) : Prop := le32 header 16 < 4 ∧ le32 header 20 < 2

/-- A header of an image. -/
def RbnValid (header : Bytes) : Prop := ¬rbnRefused header ∧ RbnKnown header

/-- A header of a sound: what `wav_read_header` checks, with samples of one or
two bytes. -/
def WavValid (header : Bytes) : Prop :=
  ¬wavRefused header ∧ (le16 header 34 = 8 ∨ le16 header 34 = 16)

/-- The file is refused, or it has a valid header and all reading is safe. -/
def ImageSafe (file : Bytes) : Prop :=
  ∀ image, ecImageOpen file = some image →
    RbnValid (imageHeader file) ∧ ∀ calls, ∃ rs, readAll calls image = .ok rs

def SoundSafe (file : Bytes) : Prop :=
  ∃ opened, ecSoundOpen file = .ok opened ∧ ∀ sound, opened = some sound →
    WavValid (soundHeader file) ∧ ∀ calls, ∃ rs, readAllSamples calls sound = .ok rs

section

variable {file header : Bytes} {image image' : EcImage} {sound sound' : EcSound}
variable {format : ImageData} {k i channels : Nat} {out : Bytes} {samples : Samples}

/-! ### images -/

theorem ecImageOpen_eq_some (h : ecImageOpen file = some image) :
    ¬rbnRefused (imageHeader file) ∧ image.mode = le32 (imageHeader file) 16 ∧
      image.position = 0 := by
  unfold ecImageOpen rbnReadHeader at h
  dsimp only [fread] at h
  split at h
  · contradiction
  · next hnot =>
      cases h
      exact ⟨hnot, rfl, rfl⟩

theorem ecImageOpen_of_not_refused (h : ¬rbnRefused (imageHeader file)) :
    ∃ image, ecImageOpen file = some image :=
  ⟨_, if_neg h⟩

/-- In a mode that there is, the next color is read safely. -/
theorem nextColor_safe (hm : image.mode < 4) : ∃ r, rbnNextColor image = .ok r := by
  have htable : ∀ mode < 4, ∃ depth, rbnDepths[mode]? = some depth ∧ depth / 8 ≤ 4 := by decide
  obtain ⟨depth, hdepth, h4⟩ := htable image.mode hm
  have hcolor : ∃ color, rbnColor image.mode (fread (depth / 8) image.fp).1 = some color := by
    have hmode : image.mode = 0 ∨ image.mode = 1 ∨ image.mode = 2 ∨ image.mode = 3 := by omega
    obtain h | h | h | h := hmode <;> rw [h] <;> exact ⟨_, rfl⟩
  obtain ⟨color, hcolor⟩ := hcolor
  rw [rbnNextColor, hdepth]
  simp only [Nat.not_lt.mpr h4, if_false, hcolor]
  split
  · exact ⟨_, rfl⟩
  · exact ⟨_, rfl⟩

theorem readColor_safe (format : ImageData) (hm : image.mode < 4) :
    ∃ r, rbnReadColor format image = .ok r := by
  obtain ⟨r, hr⟩ := nextColor_safe hm
  unfold rbnReadColor
  rw [hr]
  split
  · split <;> exact ⟨_, rfl⟩
  · exact ⟨_, rfl⟩

theorem readLoop_safe (format : ImageData) (k i : Nat) (out : Bytes) (hm : image.mode < 4) :
    ∃ r, readLoop format k i out image = .ok r := by
  induction k generalizing i out image with
  | zero => exact ⟨_, rfl⟩
  | succ k ih =>
      obtain ⟨⟨bytes, next⟩, hr⟩ := readColor_safe format hm
      obtain ⟨hsame, -⟩ := readColor_ok hr
      rw [readLoop, hr]
      split
      · cases bytes with
        | none => exact ⟨_, rfl⟩
        | some bytes => exact ih _ _ (by rw [hsame.mode]; exact hm)
      · exact ⟨_, rfl⟩

/-- **All calls** are safe in a mode that there is. -/
theorem readAll_safe (hm : image.mode < 4) (hpos : image.position = 0) (calls : List ReadColors) :
    ∃ rs, readAll calls image = .ok rs := by
  induction calls generalizing image with
  | nil => exact ⟨_, rfl⟩
  | cons call calls ih =>
      obtain ⟨⟨ret, bytes, next⟩, hr⟩ :=
        readLoop_safe call.format call.count 0 [] hm
      obtain ⟨hkind, -⟩ := ecImageReadColors_ok hpos hr
      obtain ⟨rs, hrs⟩ := ih (by rw [hkind.mode]; exact hm) (hkind.position.trans hpos)
      rw [readAll, ecImageReadColors, hr]
      simp only [Except.bind, hrs, Except.map]
      exact ⟨_, rfl⟩

theorem imageSafe_iff (file : Bytes) :
    ImageSafe file ↔ (¬rbnRefused (imageHeader file) → RbnKnown (imageHeader file)) := by
  constructor
  · intro h hnot
    obtain ⟨image, hopen⟩ := ecImageOpen_of_not_refused hnot
    exact (h image hopen).1.2
  · intro h image hopen
    obtain ⟨hnot, hmode, hpos⟩ := ecImageOpen_eq_some hopen
    exact ⟨⟨hnot, h hnot⟩, readAll_safe (by rw [hmode]; exact (h hnot).1) hpos⟩

/-! ### sounds -/

/-- A sound that can be read. -/
structure Readable (sound : EcSound) : Prop where
  channels : sound.channels = 1 ∨ sound.channels = 2
  bitdepth : sound.bitdepth = 8 ∨ sound.bitdepth = 16

theorem Readable.same (h : Readable sound) (hs : SameSound sound sound') : Readable sound' :=
  ⟨hs.channels ▸ h.channels, hs.bitdepth ▸ h.bitdepth⟩

/-- Something is stored to the first `n` samples. -/
def Stored (n : Nat) (samples : Samples) : Prop :=
  (1 ≤ n → ∃ v, samples.1 = some v) ∧ (2 ≤ n → ∃ v, samples.2 = some v)

theorem wavSample_isSome (h : Readable sound) (data : Bytes) :
    ∃ v, wavSample sound.bitdepth data = some v := by
  obtain h | h := h.bitdepth <;> rw [h] <;> exact ⟨_, rfl⟩

theorem stored_store {v : UInt16} (h : Stored i samples) (hi : i < 2) :
    ∃ samples', samples.store i v = .ok samples' ∧ Stored (i + 1) samples' := by
  obtain rfl | rfl : i = 0 ∨ i = 1 := by omega
  · exact ⟨_, rfl, fun _ => ⟨v, rfl⟩, fun h2 => by omega⟩
  · exact ⟨_, rfl, fun _ => h.1 (Nat.le_refl 1), fun _ => ⟨v, rfl⟩⟩

/-- The channels of the file are stored, or the file ends. -/
theorem fileLoop_safe (h : Readable sound) (hs : Stored i samples) (hi : i + k ≤ 2) :
    ∃ r next, fileLoop k i samples sound = .ok (r, next) ∧
      ∀ samples', r = some samples' → Stored (i + k) samples' := by
  induction k generalizing i samples sound with
  | zero => exact ⟨_, _, rfl, fun samples' heq => by cases heq; exact hs⟩
  | succ k ih =>
      have h4 : ¬sound.bitdepth / 8 > 4 := by
        obtain h | h := h.bitdepth <;> omega
      obtain ⟨v, hv⟩ := wavSample_isSome h (fread (sound.bitdepth / 8) sound.fp).1
      obtain ⟨samples', hstore, hs'⟩ := stored_store (v := v) hs (by omega)
      simp only [fileLoop, if_neg h4, hv, hstore, Except.bind]
      split
      · exact ⟨_, _, rfl, fun samples' heq => by cases heq⟩
      · have hread : Readable { sound with fp := (fread (sound.bitdepth / 8) sound.fp).2 } :=
          ⟨h.channels, h.bitdepth⟩
        have hnext := ih hread hs' (by omega)
        rwa [show i + 1 + k = i + (k + 1) by omega] at hnext

theorem stored_mixSamples (h : Readable sound) (hs : Stored sound.channels samples)
    (hc : channels = 1 ∨ channels = 2) : Stored channels (mixSamples channels sound samples) := by
  obtain ⟨v, hv⟩ := hs.1 (by obtain h | h := h.channels <;> omega)
  unfold mixSamples
  split_ifs with hlt hgt
  · obtain ⟨w, hw⟩ := hs.2 (by omega)
    refine ⟨fun _ => ⟨v + w, by rw [hv, hw]; rfl⟩, fun h2 => ?_⟩
    obtain h | h := h.channels <;> omega
  · exact ⟨fun _ => ⟨v, hv⟩, fun _ => ⟨v, hv⟩⟩
  · rwa [show channels = sound.channels by omega]

theorem bufferLoop_safe (out : Bytes) (hs : Stored (i + k) samples) (hi : i + k ≤ 2) :
    ∃ r, bufferLoop k i samples out = .ok r := by
  induction k generalizing i out with
  | zero => exact ⟨_, rfl⟩
  | succ k ih =>
      have hload : ∃ v, samples.load i = .ok v := by
        obtain rfl | rfl : i = 0 ∨ i = 1 := by omega
        · obtain ⟨v, hv⟩ := hs.1 (by omega)
          exact ⟨v, by rw [Samples.load, hv]; rfl⟩
        · obtain ⟨v, hv⟩ := hs.2 (by omega)
          exact ⟨v, by rw [Samples.load, hv]; rfl⟩
      obtain ⟨v, hv⟩ := hload
      rw [bufferLoop, hv]
      exact ih _ (by rwa [show i + 1 + k = i + (k + 1) by omega]) (by omega)

theorem readSample_safe (h : Readable sound) (hc : channels = 1 ∨ channels = 2) :
    ∃ r, wavReadSample channels sound = .ok r := by
  have hnone : Stored 0 (none, none) := ⟨nofun, nofun⟩
  obtain ⟨r, next, hfile, hstored⟩ := fileLoop_safe (k := sound.channels) h hnone
    (by obtain h | h := h.channels <;> omega)
  have hsame := fileLoop_same hfile
  rw [wavReadSample, hfile]
  cases r with
  | none => exact ⟨_, rfl⟩
  | some samples =>
      have hs := hstored samples rfl
      rw [Nat.zero_add, ← hsame.channels] at hs
      have hmix := stored_mixSamples (h.same hsame) hs hc
      obtain ⟨out, hout⟩ := bufferLoop_safe (i := 0) (k := channels) []
        (by rwa [Nat.zero_add]) (by omega)
      simp only [Except.bind, hout, Except.map]
      exact ⟨_, rfl⟩

theorem sampleLoop_safe (k i : Nat) (out : Bytes) (h : Readable sound)
    (hc : channels = 1 ∨ channels = 2) : ∃ r, sampleLoop channels k i out sound = .ok r := by
  induction k generalizing i out sound with
  | zero => exact ⟨_, rfl⟩
  | succ k ih =>
      obtain ⟨⟨bytes, next⟩, hr⟩ := readSample_safe h hc
      have hsame := readSample_same hr
      rw [sampleLoop, hr]
      split
      · exact ⟨_, rfl⟩
      · cases bytes with
        | none => exact ⟨_, rfl⟩
        | some bytes => exact ih _ _ (h.same hsame)

/-- **All calls** are safe for a sound that can be read. -/
theorem readAllSamples_safe (h : Readable sound) (hpos : sound.position = 0)
    (calls : List ReadSamples) : ∃ rs, readAllSamples calls sound = .ok rs := by
  induction calls generalizing sound with
  | nil => exact ⟨_, rfl⟩
  | cons call calls ih =>
      have hrange := call.channels_range
      obtain ⟨⟨ret, bytes, next⟩, hr⟩ := sampleLoop_safe call.count 0 [] h
        (show call.channels = 1 ∨ call.channels = 2 by omega)
      obtain ⟨hsame, -⟩ := ecSoundReadSamples_ok hpos hr
      obtain ⟨rs, hrs⟩ := ih (h.same hsame) (hsame.position.trans hpos)
      rw [readAllSamples, ecSoundReadSamples, hr]
      simp only [Except.bind, hrs, Except.map]
      exact ⟨_, rfl⟩

theorem ecSoundOpen_of_refused (h : wavRefused (soundHeader file)) : ecSoundOpen file = .ok none :=
  if_pos h

/-- Without a bit depth, the size of the data is divided by zero. -/
theorem ecSoundOpen_division (h : ¬wavRefused (soundHeader file))
    (h0 : le16 (soundHeader file) 34 = 0) : ecSoundOpen file = .error .division := by
  have hzero : le16 (soundHeader file) 34 / 8 * le16 (soundHeader file) 22 = 0 := by
    rw [h0, Nat.zero_div, Nat.zero_mul]
  exact (if_neg h).trans (if_pos hzero)

/-- A sound that is opened. -/
theorem ecSoundOpen_ok (h : ¬wavRefused (soundHeader file))
    (h0 : le16 (soundHeader file) 34 ≠ 0) :
    WavValid (soundHeader file) ∧ ∃ sound, ecSoundOpen file = .ok (some sound) ∧ Readable sound ∧
      sound.position = 0 := by
  have hall := h
  simp only [wavRefused, not_or, ne_eq, not_not] at hall
  obtain ⟨-, -, -, -, -, hlow, hhigh, hbytes, hdepth, -⟩ := hall
  have hbits : le16 (soundHeader file) 34 = 8 ∨ le16 (soundHeader file) 34 = 16 := by omega
  have hzero : ¬le16 (soundHeader file) 34 / 8 * le16 (soundHeader file) 22 = 0 := by
    rw [Nat.mul_eq_zero]
    omega
  have hchannels : le16 (soundHeader file) 22 = 1 ∨ le16 (soundHeader file) 22 = 2 := by omega
  exact ⟨⟨h, hbits⟩, _, (if_neg h).trans (if_neg hzero), ⟨hchannels, hbits⟩, rfl⟩

theorem soundSafe_iff (file : Bytes) :
    SoundSafe file ↔ (¬wavRefused (soundHeader file) → le16 (soundHeader file) 34 ≠ 0) := by
  constructor
  · rintro ⟨opened, hopen, -⟩ hnot h0
    rw [ecSoundOpen_division hnot h0] at hopen
    contradiction
  · intro h
    by_cases hnot : wavRefused (soundHeader file)
    · exact ⟨none, ecSoundOpen_of_refused hnot, nofun⟩
    · obtain ⟨hvalid, sound, hopen, hread, hpos⟩ := ecSoundOpen_ok hnot (h hnot)
      refine ⟨some sound, hopen, fun sound' heq => ?_⟩
      cases heq
      exact ⟨hvalid, readAllSamples_safe hread hpos⟩

end

/-- **Files are safe** exactly if an image that is opened has a mode and a
compression that there are, and a sound that is opened has a bit depth. -/
theorem safe_iff (file : Bytes) :
    (ImageSafe file ↔ (¬rbnRefused (imageHeader file) → RbnKnown (imageHeader file))) ∧
    (SoundSafe file ↔ (¬wavRefused (soundHeader file) → le16 (soundHeader file) 34 ≠ 0)) :=
  ⟨imageSafe_iff file, soundSafe_iff file⟩

/-- A header of a mono sound without a bit depth. -/
def silentHeader : Bytes :=
  RIFF ++ [0, 0, 0, 0] ++ WAVE ++ FMT ++ [16, 0, 0, 0] ++ [1, 0, 1, 0] ++ [0, 0, 0, 0] ++
    [0, 0, 0, 0] ++ [0, 0, 0, 0] ++ DATA ++ [0, 0, 0, 0]

/-- **A color of an unknown mode** is looked up behind the table, and **a sound
without a bit depth** divides by zero. -/
theorem not_safe :
    (¬∀ file, ImageSafe file) ∧ (¬∀ file, SoundSafe file) ∧
      ecSoundOpen silentHeader = .error .division ∧
      (ecImageOpen (rbnHeader 1 1 4 0)).map (readAll [⟨1, .rgb8, by decide⟩]) =
        some (.error .index) := by
  have hdiv : ecSoundOpen silentHeader = .error .division := by decide
  refine ⟨fun h => ?_, fun h => ?_, hdiv, by decide⟩
  · obtain ⟨hvalid, -⟩ := h (rbnHeader 1 1 4 0) _ rfl
    exact absurd hvalid.2.1 (by decide)
  · obtain ⟨opened, hopen, -⟩ := h silentHeader
    rw [hdiv] at hopen
    contradiction

/-! ## the declared end -/

/-- An image and how many colors were delivered from it so far. -/
structure ImageRun where
  image : EcImage
  delivered : Nat
  deriving DecidableEq

/-- A call that returns: its result, and what comes after it. -/
def ImageRun.call (s : ImageRun) (call : ReadColors) : Option (Int × ImageRun) :=
  match ecImageReadColors call s.image with
  | .ok (ret, _, image) => some (ret, ⟨image, s.delivered + ret.toNat⟩)
  | .error _ => none

def ImageRun.next (s : ImageRun) (call : ReadColors) : ImageRun :=
  ((s.call call).map Prod.snd).getD s

structure SoundRun where
  sound : EcSound
  delivered : Nat
  deriving DecidableEq

def SoundRun.call (s : SoundRun) (call : ReadSamples) : Option (Int × SoundRun) :=
  match ecSoundReadSamples call s.sound with
  | .ok (ret, _, sound) => some (ret, ⟨sound, s.delivered + ret.toNat⟩)
  | .error _ => none

def SoundRun.next (s : SoundRun) (call : ReadSamples) : SoundRun :=
  ((s.call call).map Prod.snd).getD s

/-- A call does not deliver more than is left of `total`, and returns 0 if
nothing is. -/
def ImageRun.Stops (total : Nat) (s : ImageRun) (call : ReadColors) : Prop :=
  ∀ ret next, s.call call = some (ret, next) →
    next.delivered ≤ total ∧ (s.delivered = total → ret = 0)

def SoundRun.Stops (total : Nat) (s : SoundRun) (call : ReadSamples) : Prop :=
  ∀ ret next, s.call call = some (ret, next) →
    next.delivered ≤ total ∧ (s.delivered = total → ret = 0)

/-- A call asks for no more than is left, or for the image as a whole at the
start. -/
def ImageRun.Modest (s : ImageRun) (call : ReadColors) : Prop :=
  s.delivered + min call.count (u32 (s.image.width * s.image.height)) ≤
    s.image.width * s.image.height

/-- A call asks for no more than is left, or the sound is empty. -/
def SoundRun.Modest (s : SoundRun) (call : ReadSamples) : Prop :=
  s.sound.length = 0 ∨ s.delivered + call.count ≤ s.sound.length

section

variable {total : Nat} {s : ImageRun} {t : SoundRun} {call : ReadColors} {sample : ReadSamples}
variable {file : Bytes} {image : EcImage} {sound : EcSound}

/-- The image at the start of a run, whatever has been read. -/
structure ImageRun.Holds (total : Nat) (s : ImageRun) : Prop where
  position : s.image.position = 0
  size : s.image.width * s.image.height = total

/-- An empty sound has delivered nothing. -/
structure SoundRun.Holds (total : Nat) (s : SoundRun) : Prop where
  position : s.sound.position = 0
  size : s.sound.length = total
  empty : total = 0 → s.delivered = 0

/-- Nothing is read if nothing is asked for, or the image has nothing. -/
theorem ecImageReadColors_zero (hpos : image.position = 0)
    (h0 : min call.count (u32 (image.width * image.height)) = 0) :
    ecImageReadColors call image = .ok (0, [], image) := by
  have hzero : toInt 0 = 0 := toInt_of_lt (by decide)
  unfold ecImageReadColors
  cases hc : call.count with
  | zero => rw [readLoop, hzero]
  | succ k =>
      have hlimit : u32 (image.width * image.height) = 0 := by omega
      rw [readLoop, hpos, hlimit, if_neg (Nat.not_lt_zero _), hzero]

theorem ecSoundReadSamples_zero (hpos : sound.position = 0)
    (h0 : sound.length = 0 ∨ sample.count = 0) :
    ecSoundReadSamples sample sound = .ok (0, [], sound) := by
  have hzero : toInt 0 = 0 := toInt_of_lt (by decide)
  unfold ecSoundReadSamples
  cases hc : sample.count with
  | zero => rw [sampleLoop, hzero]
  | succ k => rw [sampleLoop, hpos, if_pos (by omega), hzero]

theorem ImageRun.call_ok {ret : Int} {next : ImageRun} (h : s.call call = some (ret, next)) :
    ∃ out, ecImageReadColors call s.image = .ok (ret, out, next.image) ∧
      next.delivered = s.delivered + ret.toNat := by
  unfold ImageRun.call at h
  split at h
  · next ret' out image hr =>
      cases h
      exact ⟨out, hr, rfl⟩
  · contradiction

theorem SoundRun.call_ok {ret : Int} {next : SoundRun} (h : t.call sample = some (ret, next)) :
    ∃ out, ecSoundReadSamples sample t.sound = .ok (ret, out, next.sound) ∧
      next.delivered = t.delivered + ret.toNat := by
  unfold SoundRun.call at h
  split at h
  · next ret' out sound hr =>
      cases h
      exact ⟨out, hr, rfl⟩
  · contradiction

theorem ImageRun.Holds.next (h : s.Holds total) : (s.next call).Holds total := by
  unfold ImageRun.next
  cases hcall : s.call call with
  | none => exact h
  | some r =>
      obtain ⟨ret, next⟩ := r
      obtain ⟨out, hr, -⟩ := ImageRun.call_ok hcall
      obtain ⟨hkind, -⟩ := ecImageReadColors_ok h.position hr
      exact ⟨hkind.position.trans h.position, by
        simp only [Option.map_some, Option.getD_some, hkind.width, hkind.height, h.size]⟩

theorem SoundRun.Holds.next (h : t.Holds total) : (t.next sample).Holds total := by
  unfold SoundRun.next
  cases hcall : t.call sample with
  | none => exact h
  | some r =>
      obtain ⟨ret, next⟩ := r
      obtain ⟨out, hr, hsum⟩ := SoundRun.call_ok hcall
      obtain ⟨hsame, -⟩ := ecSoundReadSamples_ok h.position hr
      refine ⟨hsame.position.trans h.position, hsame.length.trans h.size, fun h0 => ?_⟩
      rw [ecSoundReadSamples_zero h.position (.inl (h.size.trans h0)), Except.ok.injEq,
        Prod.mk.injEq] at hr
      obtain ⟨rfl, -⟩ := hr
      exact hsum.trans (h.empty h0)

/-- **A modest call** of an image stops at its end. -/
theorem ImageRun.stops (h : s.Holds total) (hm : s.Modest call) : s.Stops total call := by
  intro ret next hcall
  obtain ⟨out, hr, hsum⟩ := ImageRun.call_ok hcall
  have hret := (ecImageReadColors_ok h.position hr).2
  rw [ImageRun.Modest, h.size] at hm
  rw [h.size] at hret
  refine ⟨by omega, fun hall => ?_⟩
  rw [ecImageReadColors_zero h.position (by rw [h.size]; omega), Except.ok.injEq,
    Prod.mk.injEq] at hr
  exact hr.1.symm

/-- **A modest call** of a sound stops at its end. -/
theorem SoundRun.stops (h : t.Holds total) (hm : t.Modest sample) : t.Stops total sample := by
  intro ret next hcall
  obtain ⟨out, hr, hsum⟩ := SoundRun.call_ok hcall
  have hret := (ecSoundReadSamples_ok h.position hr).2
  have hempty := h.empty
  rw [SoundRun.Modest, h.size] at hm
  rw [h.size] at hret
  constructor
  · split at hret <;> omega
  · intro hall
    rw [ecSoundReadSamples_zero h.position (by rw [h.size]; omega), Except.ok.injEq,
      Prod.mk.injEq] at hr
    exact hr.1.symm

end

/-- **Reading stops at the declared end** in every run whose calls ask for no
more than is left. -/
theorem stops_at_end (file : Bytes) :
    (∀ image calls, ecImageOpen file = some image →
      System.Along ImageRun.next ImageRun.Modest ⟨image, 0⟩ calls →
      System.Along ImageRun.next (ImageRun.Stops (image.width * image.height)) ⟨image, 0⟩ calls) ∧
    (∀ sound calls, ecSoundOpen file = .ok (some sound) →
      System.Along SoundRun.next SoundRun.Modest ⟨sound, 0⟩ calls →
      System.Along SoundRun.next (SoundRun.Stops sound.length) ⟨sound, 0⟩ calls) := by
  constructor
  · intro image calls hopen hmodest
    obtain ⟨-, -, hpos⟩ := ecImageOpen_eq_some hopen
    exact hmodest.imp (fun s call h _ => h.next) (fun s call h => ImageRun.stops h) ⟨hpos, rfl⟩
  · intro sound calls hopen hmodest
    have hpos : sound.position = 0 := by
      by_cases hnot : wavRefused (soundHeader file)
      · rw [ecSoundOpen_of_refused hnot] at hopen
        exact absurd (Except.ok.inj hopen) nofun
      · by_cases h0 : le16 (soundHeader file) 34 = 0
        · rw [ecSoundOpen_division hnot h0] at hopen
          contradiction
        · obtain ⟨-, sound', hopen', -, hpos⟩ := ecSoundOpen_ok hnot h0
          rw [hopen'] at hopen
          cases hopen
          exact hpos
    exact hmodest.imp (fun s call h _ => h.next) (fun s call h => SoundRun.stops h)
      ⟨hpos, rfl, fun _ => rfl⟩

/-- Three mono samples, of which the header declares two. -/
def twoSamples : Bytes :=
  RIFF ++ [0, 0, 0, 0] ++ WAVE ++ FMT ++ [16, 0, 0, 0] ++ [1, 0, 1, 0] ++ [0, 0, 0, 0] ++
    [0, 0, 0, 0] ++ [0, 0, 8, 0] ++ DATA ++ [2, 0, 0, 0] ++ [10, 20, 30]

/-- Two colors and two samples, read one by one. -/
theorem stops_at_end_two :
    System.Along ImageRun.next (ImageRun.Stops (2 * 1))
      ⟨{ fp := [1, 2, 3, 2, 9, 9], width := 2, height := 1, mode := 2, compression := 1 }, 0⟩
      [⟨1, .rgb8, by decide⟩, ⟨1, .rgb8, by decide⟩] ∧
    System.Along SoundRun.next (SoundRun.Stops 2)
      ⟨{ fp := [10, 20, 30], length := 2, rate := 0, channels := 1, bitdepth := 8 }, 0⟩
      [⟨1, 1, by decide, by decide⟩, ⟨1, 2, by decide, by decide⟩] := by
  refine ⟨(stops_at_end twoColors.file).1 _ _ rfl ⟨?_, ?_, trivial⟩,
    (stops_at_end twoSamples).2 _ _ rfl ⟨.inr ?_, .inr ?_, trivial⟩⟩
  · unfold ImageRun.Modest
    decide +kernel
  · unfold ImageRun.Modest
    decide +kernel
  · decide +kernel
  · decide +kernel

/-- **A second call** delivers a color behind the last one. -/
theorem not_stops_at_end :
    ¬((∀ file image calls, ecImageOpen file = some image →
        System.Along ImageRun.next (ImageRun.Stops (image.width * image.height)) ⟨image, 0⟩ calls) ∧
      (∀ file sound calls, ecSoundOpen file = .ok (some sound) →
        System.Along SoundRun.next (SoundRun.Stops sound.length) ⟨sound, 0⟩ calls)) := by
  rintro ⟨h, -⟩
  obtain ⟨-, hsecond, -⟩ := h (rbnHeader 1 1 2 0 ++ [1, 2, 3, 4, 5, 6]) _
    [⟨1, .rgb8, by decide⟩, ⟨1, .rgb8, by decide⟩] rfl
  have hstop := hsecond 1 ⟨{ fp := [], width := 1, height := 1, mode := 2, compression := 0 }, 2⟩
    (by decide +kernel)
  exact absurd hstop.1 (by decide)

end Media

end Eclair
