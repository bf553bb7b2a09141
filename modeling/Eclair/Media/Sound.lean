import Mathlib.Data.Option.NAry
import Eclair.Media.Image

/-!
# Eclair.Media.Sound

The sounds of `lib/sound.c`: a WAV header, and samples that are read from an
open file one by one and converted to the channels that are asked for.
-/

namespace Eclair

namespace Media

/-- `"RIFF"` -/
def RIFF : Bytes := [82, 73, 70, 70]

/-- `"WAVE"` -/
def WAVE : Bytes := [87, 65, 86, 69]

/-- `"fmt "` -/
def FMT : Bytes := [102, 109, 116, 32]

/-- `"data"` -/
def DATA : Bytes := [100, 97, 116, 97]

/-- `sizeof(ec_wav_header_t)` -/
def WAV_HEADER : Nat := 44

/-- `EC_WAV_FMT_PCM` -/
def EC_WAV_FMT_PCM : Nat := 1

/-- The `n` bytes at `off` of a header. -/
def field (header : Bytes) (off n : Nat) : Bytes := (header.drop off).take n

/-- An open `ec_sound_t`; `impl` is the channels and the bit depth. -/
structure EcSound where
  fp : Bytes
  length : Nat
  rate : Nat
  position : Nat := 0
  channels : Nat
  bitdepth : Nat
  deriving DecidableEq

/-- What `wav_read_header` refuses. -/
def wavRefused (header : Bytes) : Prop :=
  header.length ≠ WAV_HEADER ∨ field header 0 4 ≠ RIFF ∨ field header 8 4 ≠ WAVE ∨
    field header 12 4 ≠ FMT ∨ field header 36 4 ≠ DATA ∨ le16 header 22 < 1 ∨
    le16 header 22 > 2 ∨ le16 header 34 % 8 ≠ 0 ∨ le16 header 34 > 16 ∨
    le16 header 20 ≠ EC_WAV_FMT_PCM

instance (header : Bytes) : Decidable (wavRefused header) :=
  inferInstanceAs (Decidable (_ ∨ _))

/-- `wav_read_header` -/
def wavReadHeader (fp : Bytes) : Except Fault (Option EcSound) :=
  let r := fread WAV_HEADER fp
  if wavRefused r.1 then .ok none
  else if le16 r.1 34 / 8 * le16 r.1 22 = 0 then .error .division
  else .ok (some
    { fp := r.2
      length := le32 r.1 40 / (le16 r.1 34 / 8 * le16 r.1 22)
      rate := le32 r.1 24
      channels := le16 r.1 22
      bitdepth := le16 r.1 34 })

/-- The conversion of a sample in the file; no case stores one of another
depth. -/
def wavSample (bitdepth : Nat) (data : Bytes) : Option UInt16 :=
  let byte (i : Nat) : UInt16 := (data.getD i 0).toUInt16
  match bitdepth with
  | 8 => some (byte 0 <<< 8 - 0x8000)
  | 16 => some (byte 0 ||| byte 1 <<< 8)
  | _ => none

/-- `uint16_t samples[2]`; nothing is stored to them at the start. -/
abbrev Samples := Option UInt16 × Option UInt16

/-- `samples[i] = v` -/
def Samples.store (samples : Samples) (i : Nat) (v : UInt16) : Except Fault Samples :=
  match i with
  | 0 => .ok (some v, samples.2)
  | 1 => .ok (samples.1, some v)
  | _ => .error .index

/-- `samples[i]`, delivered. -/
def Samples.load (samples : Samples) (i : Nat) : Except Fault UInt16 :=
  match i with
  | 0 => samples.1.elim (.error .unset) .ok
  | 1 => samples.2.elim (.error .unset) .ok
  | _ => .error .index

/-- The first loop of `wav_read_sample`, with `k` channels of the file left;
no samples are a failure.  `data` has 4 bytes. -/
def fileLoop : Nat → Nat → Samples → EcSound → Except Fault (Option Samples × EcSound)
  | 0, _, samples, sound => .ok (some samples, sound)
  | k + 1, i, samples, sound =>
      let nbytes := sound.bitdepth / 8
      if nbytes > 4 then .error .index
      else
        let r := fread nbytes sound.fp
        if r.1.length ≠ nbytes then .ok (none, { sound with fp := r.2 })
        else
          (match wavSample sound.bitdepth r.1 with
            | some v => samples.store i v
            | none => .ok samples).bind fun samples =>
          fileLoop k (i + 1) samples { sound with fp := r.2 }

/-- The samples for the channels that are asked for. -/
def mixSamples (channels : Nat) (sound : EcSound) (samples : Samples) : Samples :=
  if channels < sound.channels then (Option.map₂ (· + ·) samples.1 samples.2, samples.2)
  else if channels > sound.channels then (samples.1, samples.1)
  else samples

/-- The second loop of `wav_read_sample`, with `k` channels left to
deliver. -/
def bufferLoop : Nat → Nat → Samples → Bytes → Except Fault Bytes
  | 0, _, _, out => .ok out
  | k + 1, i, samples, out =>
      (samples.load i).bind fun v =>
      bufferLoop k (i + 1) samples (out ++ [v.toUInt8, (v >>> 8).toUInt8])

/-- `wav_read_sample` for 16-bit samples: the bytes for the buffer; none are
a failure. -/
def wavReadSample (channels : Nat) (sound : EcSound) : Except Fault (Option Bytes × EcSound) :=
  (fileLoop sound.channels 0 (none, none) sound).bind fun r =>
  match r.1 with
  | none => .ok (none, r.2)
  | some samples =>
      (bufferLoop channels 0 (mixSamples channels r.2 samples) []).map fun out => (some out, r.2)

/-- `ec_sound_open` of a file, for a sound that is not open. -/
def ecSoundOpen (file : Bytes) : Except Fault (Option EcSound) := wavReadHeader file

/-- A call of `ec_sound_read_samples` that asks for 16-bit samples, which is
all it accepts, with a buffer for them. -/
structure ReadSamples where
  count : Nat
  channels : Nat
  channels_range : 1 ≤ channels ∧ channels ≤ 2
  room : count * (2 * channels) < 2 ^ 32

/-- The loop of `ec_sound_read_samples`, with `k` samples left to read: the
result, what is in the buffer, and the sound. -/
def sampleLoop (channels : Nat) :
    Nat → Nat → Bytes → EcSound → Except Fault (Int × Bytes × EcSound)
  | 0, i, out, sound => .ok (toInt i, out, sound)
  | k + 1, i, out, sound =>
      if sound.position ≥ sound.length then .ok (toInt i, out, sound)
      else match wavReadSample channels sound with
        | .error e => .error e
        | .ok (none, sound) => .ok (-1, out, sound)
        | .ok (some bytes, sound) => sampleLoop channels k (i + 1) (out ++ bytes) sound

/-- `ec_sound_read_samples` -/
def ecSoundReadSamples (call : ReadSamples) (sound : EcSound) :
    Except Fault (Int × Bytes × EcSound) :=
  sampleLoop call.channels call.count 0 [] sound

/-- Calls one after the other: what each returns, with the buffer. -/
def readAllSamples : List ReadSamples → EcSound → Except Fault (List (Int × Bytes) × EcSound)
  | [], sound => .ok ([], sound)
  | call :: calls, sound =>
      (ecSoundReadSamples call sound).bind fun r =>
      (readAllSamples calls r.2.2).map fun rs => ((r.1, r.2.1) :: rs.1, rs.2)

/-! ## the loops -/

section

variable {sound sound' : EcSound} {samples : Samples} {channels k i : Nat} {out out' : Bytes}
variable {ret : Int}

/-- What reading changes: what is left of the file. -/
structure SameSound (sound sound' : EcSound) : Prop where
  length : sound'.length = sound.length
  position : sound'.position = sound.position
  channels : sound'.channels = sound.channels
  bitdepth : sound'.bitdepth = sound.bitdepth

theorem SameSound.rfl : SameSound sound sound := ⟨.refl _, .refl _, .refl _, .refl _⟩

theorem SameSound.trans {sound'' : EcSound} (h : SameSound sound sound')
    (h' : SameSound sound' sound'') : SameSound sound sound'' :=
  ⟨h'.length.trans h.length, h'.position.trans h.position, h'.channels.trans h.channels,
    h'.bitdepth.trans h.bitdepth⟩

theorem fileLoop_same {r : Option Samples} (h : fileLoop k i samples sound = .ok (r, sound')) :
    SameSound sound sound' := by
  induction k generalizing i samples sound with
  | zero =>
      cases h
      exact .rfl
  | succ k ih =>
      simp only [fileLoop] at h
      split at h
      · contradiction
      · split at h
        · cases h
          exact ⟨rfl, rfl, rfl, rfl⟩
        · split at h
          · next v _ =>
              cases hstore : samples.store i v with
              | error e =>
                  rw [hstore] at h
                  contradiction
              | ok samples' =>
                  rw [hstore] at h
                  have hsame := ih h
                  exact ⟨hsame.1, hsame.2, hsame.3, hsame.4⟩
          · have hsame := ih h
            exact ⟨hsame.1, hsame.2, hsame.3, hsame.4⟩

theorem readSample_same {bytes : Option Bytes}
    (h : wavReadSample channels sound = .ok (bytes, sound')) : SameSound sound sound' := by
  unfold wavReadSample at h
  cases hfile : fileLoop sound.channels 0 (none, none) sound with
  | error e =>
      rw [hfile] at h
      contradiction
  | ok r =>
      have hsame := fileLoop_same hfile
      rw [hfile] at h
      simp only [Except.bind] at h
      split at h
      · cases h
        exact hsame
      · next samples _ =>
          cases hbuf : bufferLoop channels 0 (mixSamples channels r.2 samples) [] with
          | error e =>
              rw [hbuf] at h
              contradiction
          | ok out =>
              rw [hbuf] at h
              cases h
              exact hsame

/-- **The loop** fails, or reads all that is asked for, unless the sound is
empty. -/
theorem sampleLoop_ok (hk : i + k < 2 ^ 31) (hpos : sound.position = 0)
    (h : sampleLoop channels k i out sound = .ok (ret, out', sound')) :
    SameSound sound sound' ∧
      (ret = -1 ∨ ret = (i + if sound.length = 0 then 0 else k : Nat)) := by
  induction k generalizing i out sound with
  | zero =>
      cases h
      exact ⟨.rfl, .inr (by rw [toInt_of_lt (by omega)]; simp)⟩
  | succ k ih =>
      rw [sampleLoop, hpos] at h
      by_cases h0 : sound.length = 0
      · rw [if_pos (by omega)] at h
        cases h
        exact ⟨.rfl, .inr (by rw [toInt_of_lt (by omega), if_pos h0]; simp)⟩
      · rw [if_neg (by omega)] at h
        split at h
        · contradiction
        · next next hr =>
            cases h
            exact ⟨readSample_same hr, .inl rfl⟩
        · next bytes next hr =>
            have hsame := readSample_same hr
            obtain ⟨hsame', hret⟩ := ih (by omega) (hsame.position.trans hpos) h
            rw [hsame.length, if_neg h0] at hret
            refine ⟨hsame.trans hsame', hret.imp_right fun hret => ?_⟩
            rw [hret, if_neg h0]
            congr 1
            omega

theorem ReadSamples.count_lt (call : ReadSamples) : call.count < 2 ^ 31 := by
  have hroom := call.room
  have hmul := Nat.mul_le_mul_left call.count (Nat.mul_le_mul_left 2 call.channels_range.1)
  omega

/-- **`ec_sound_read_samples`** fails, or reads all that is asked for, unless
the sound is empty. -/
theorem ecSoundReadSamples_ok {call : ReadSamples} (hpos : sound.position = 0)
    (h : ecSoundReadSamples call sound = .ok (ret, out, sound')) :
    SameSound sound sound' ∧
      (ret = -1 ∨ ret = (if sound.length = 0 then 0 else call.count : Nat)) := by
  have hcount := call.count_lt
  simpa using sampleLoop_ok (by omega) hpos h

end

end Media

end Eclair
