import Eclair.Lib.System
import Eclair.Libc.Input
import Eclair.Task.File

/-!
# Eclair.Libc.Position

The position of a stream on a regular file: `fseek` and `ftell` of
`libc/stdio.c` between reads and writes.

The kernel's position is ahead of the program by what the read buffer still
holds, and behind it by what the write buffer holds.  `fseek` and `ftell`
leave both out; `positions_iff` says in which runs that does not show.
-/

namespace Eclair

namespace Stdio

/-- What the kernel answers to each read and write; a negative answer is an error. -/
structure Answers where
  read : Nat → Int
  write : EcWrite

/-- An open regular file. -/
structure RegularFile where
  contents : Bytes
  pos : Int
  /-- the number of reads so far -/
  reads : Nat

namespace RegularFile

/-- `(uint32_t)pos`. -/
def offset (d : RegularFile) : Nat := (d.pos % 2 ^ 32).toNat

/-- `ec_read` into a buffer of `BUFSIZ` bytes. -/
def ecRead (ans : Answers) (d : RegularFile) : Reply × RegularFile :=
  let nread := ans.read d.reads
  let d := { d with reads := d.reads + 1 }
  if nread < 0 then (.fail nread, d)
  else
    let b := (d.contents.drop d.offset).take (min nread.toNat BUFSIZ)
    (.data b, { d with pos := d.pos + b.length })

/-- `ec_write` of `b`, of which `nwrite` bytes are taken. -/
def ecWrite (nwrite : Int) (b : Bytes) (d : RegularFile) : RegularFile :=
  let b := b.take nwrite.toNat
  { d with
    contents := d.contents.take d.offset ++ b ++ d.contents.drop (d.offset + b.length)
    pos := d.pos + b.length }

/-- `ec_lseek`. -/
def ecLseek (p : Int) (whence : Whence) (d : RegularFile) : Int × RegularFile :=
  if whence = .other then (-EINVAL, d)
  else
    let len := d.contents.length
    let pos := toLong (min (max (seekTo d.pos p len whence) 0) len)
    (pos, { d with pos := pos })

end RegularFile

/-- A `FILE`, for reading and writing. -/
structure File where
  input : InStream
  buftype : BufType
  out : Outbox UInt8
  desc : RegularFile

namespace File

/-- A file that was just opened. -/
def fopen (buftype : BufType) (contents : Bytes) : File :=
  ⟨⟨0, 0, [], false⟩, buftype, {}, ⟨contents, 0, 0⟩⟩

/-- The output side. -/
def output (f : File) : Stream := ⟨f.buftype, f.input.errno, f.out⟩

/-- The stream after output, and the file after the `ec_write` in it, if there was one. -/
def wrote (ans : Answers) (f : File) (s : Stream) : File :=
  { f with
    input := { f.input with errno := s.errno }
    out := s.out
    desc := match s.out.sent.drop f.out.sent.length with
      | [] => f.desc
      | b :: _ => f.desc.ecWrite (ans.write f.out.sent.length b) b }

/-- `fgetc`; the read happens if it uses the reply. -/
def fgetc (ans : Answers) (f : File) : Int × File :=
  let r := f.desc.ecRead ans
  let q := Stdio.fgetc ⟨f.input, [r.1]⟩
  (q.1, { f with input := q.2.stream, desc := if q.2.replies.isEmpty then r.2 else f.desc })

/-- The loop of `fread`, with the bytes it has got. -/
def freadLoop (ans : Answers) : Nat → Bytes → File → Bytes × File
  | 0, ptr, f => (ptr, f)
  | k + 1, ptr, f =>
      let r := f.fgetc ans
      if r.1 = EOF then (ptr, r.2) else freadLoop ans k (ptr ++ [UInt8.ofInt r.1]) r.2

/-- `fread`: the bytes at `ptr`; it returns how many these are. -/
def fread (ans : Answers) (size nmemb : Nat) : File → Bytes × File :=
  freadLoop ans (u32 (size * nmemb)) []

/-- `fflush`. -/
def fflush (ans : Answers) (f : File) : Int × File :=
  let r := Stdio.fflush ans.write f.output
  (r.1, f.wrote ans r.2)

/-- `fputc`. -/
def fputc (ans : Answers) (c : Int) (f : File) : Except StdioFault (Int × File) :=
  (Stdio.fputc ans.write c f.output).map fun r => (r.1, f.wrote ans r.2)

/-- The loop of `fwrite`, with `nwrite` bytes written. -/
def fwriteLoop (ans : Answers) : Bytes → Nat → File → Except StdioFault (Nat × File)
  | [], nwrite, f => .ok (nwrite, f)
  | b :: bs, nwrite, f =>
      (f.fputc ans b.toNat).bind fun r =>
        if r.1 ≠ b.toNat then .ok (nwrite, r.2) else fwriteLoop ans bs (nwrite + 1) r.2

/-- `fwrite`. -/
def fwrite (ans : Answers) (ptr : Nat → UInt8) (size nmemb : Nat) :
    File → Except StdioFault (Nat × File) :=
  fwriteLoop ans (fwriteBytes ptr size nmemb) 0

/-- `fseek`. -/
def fseek (offset : Int) (whence : Whence) (f : File) : Int × File :=
  if f.out.queue ≠ [] then (-1, f)
  else
    (0, { f with
      input := { f.input with rpos := 0, rbuf := [], eof := false }
      desc := (f.desc.ecLseek offset whence).2 })

/-- `ftell`. -/
def ftell (f : File) : Int × File :=
  let r := f.desc.ecLseek 0 .cur
  (if r.1 < 0 then -1 else r.1, { f with desc := r.2 })

end File

inductive PosCall where
  | fgetc
  | fread (size nmemb : Nat)
  | fputc (c : Int)
  | fwrite (ptr : Nat → UInt8) (size nmemb : Nat)
  | fflush
  | fseek (offset : Int) (whence : Whence) (valid : whence ≠ .other)
  | ftell

/-- A stream, and the offset of the next byte that the program will read or write. -/
structure Tracked where
  file : File
  off : Int

namespace Tracked

/-- A call.  The bytes that it consumes or produces are added to the offset; a relative seek moves
by what it asks for, the others to where the kernel goes. -/
def step (ans : Answers) (s : Tracked) : PosCall → Except StdioFault Tracked
  | .fgetc =>
      let r := s.file.fgetc ans
      .ok ⟨r.2, if r.1 = EOF then s.off else s.off + 1⟩
  | .fread size nmemb =>
      let r := s.file.fread ans size nmemb
      .ok ⟨r.2, s.off + r.1.length⟩
  | .fputc c => (s.file.fputc ans c).map fun r => ⟨r.2, s.off + 1⟩
  | .fwrite ptr size nmemb => (s.file.fwrite ans ptr size nmemb).map fun r => ⟨r.2, s.off + r.1⟩
  | .fflush => .ok ⟨(s.file.fflush ans).2, s.off⟩
  | .fseek offset whence _ =>
      let r := s.file.fseek offset whence
      .ok ⟨r.2, if r.1 ≠ 0 then s.off else if whence = .cur then s.off + offset else r.2.desc.pos⟩
  | .ftell => .ok ⟨s.file.ftell.2, s.off⟩

/-- The state after a call. -/
def next (ans : Answers) (s : Tracked) (e : PosCall) : Tracked :=
  match s.step ans e with
  | .ok s' => s'
  | .error _ => s

end Tracked

/-- The next byte is the one at `p`: nothing is buffered, and the kernel is there. -/
structure File.At (f : File) (p : Int) : Prop where
  read : f.input.rbuf.drop f.input.rpos = []
  written : f.out.queue = []
  pos : f.desc.pos = p

/-- `ftell` returns the offset, and a relative seek moves by what it asks for. -/
def Tells (s : Tracked) : PosCall → Prop
  | .ftell => s.file.ftell.1 = s.off
  | .fseek offset .cur _ =>
      let r := s.file.fseek offset .cur
      r.1 = 0 ∧ r.2.At (s.off + offset)
  | _ => True

/-- The call returns, and is right. -/
def PosRight (ans : Answers) (s : Tracked) (e : PosCall) : Prop :=
  (∃ s', s.step ans e = .ok s') ∧ Tells s e

/-- How many bytes are read ahead. -/
def File.unread (f : File) : Nat := f.input.rbuf.length - f.input.rpos

/-- As many bytes are read ahead as wait to be written when the program asks for the position.
When it moves by some bytes none wait to be written, the new offset is in the file, and none are
read ahead, unless it moves to the end. -/
def Settled (s : Tracked) : PosCall → Prop
  | .ftell => s.file.unread = s.file.out.queue.length
  | .fseek offset .cur _ =>
      s.file.out.queue = [] ∧ 0 ≤ s.off + offset ∧ s.off + offset ≤ s.file.desc.contents.length ∧
        (s.file.unread = 0 ∨ s.off + offset = s.file.desc.contents.length)
  | _ => True

/-- No read or write is an error, and every write takes all that it is offered. -/
structure Answers.Whole (ans : Answers) : Prop where
  read : ∀ i, -1 ≤ ans.read i
  write : ∀ i b, ans.write i b = b.length

/-- The number of bytes that a call writes. -/
def PosCall.output : PosCall → Nat
  | .fputc _ => 1
  | .fwrite ptr size nmemb => (fwriteBytes ptr size nmemb).length
  | _ => 0

/-- The bytes that the calls write. -/
def written (calls : List PosCall) : Nat := (calls.map PosCall.output).sum

/-! ## the kernel's file -/

variable {ans : Answers} {d : RegularFile} {f : File} {s : Tracked} {e : PosCall} {room : Nat}

/-- A position in a file of less than 2 GiB. -/
structure RegularFile.Inside (d : RegularFile) : Prop where
  nonneg : 0 ≤ d.pos
  le : d.pos ≤ d.contents.length
  small : d.contents.length < 2 ^ 31

theorem RegularFile.Inside.offset (h : d.Inside) : (d.offset : Int) = d.pos := by
  have hle := h.le
  have hsmall := h.small
  rw [RegularFile.offset, Int.toNat_of_nonneg (by omega)]
  exact Int.emod_eq_of_lt h.nonneg (by omega)

theorem RegularFile.ecRead_spec (hw : ans.Whole) (h : d.Inside) :
    (d.ecRead ans).2.contents = d.contents ∧
      (((d.ecRead ans).1 = .fail EOF ∧ (d.ecRead ans).2.pos = d.pos) ∨
        ∃ b, (d.ecRead ans).1 = .data b ∧ (d.ecRead ans).2.pos = d.pos + b.length ∧
          b.length ≤ BUFSIZ ∧ d.pos + b.length ≤ d.contents.length) := by
  have hread := hw.read d.reads
  by_cases hneg : ans.read d.reads < 0
  · have hr : d.ecRead ans = (.fail (ans.read d.reads), { d with reads := d.reads + 1 }) :=
      if_pos hneg
    have heof : ans.read d.reads = EOF := by rw [EOF]; omega
    rw [hr, heof]
    exact ⟨rfl, .inl ⟨rfl, rfl⟩⟩
  · have hr : d.ecRead ans = _ := if_neg hneg
    rw [hr]
    refine ⟨rfl, .inr ⟨_, rfl, rfl, ?_⟩⟩
    have hoff := h.offset
    have hle := h.le
    rw [List.length_take, List.length_drop]
    simp only [RegularFile.offset] at hoff ⊢
    omega

theorem RegularFile.ecWrite_spec (h : d.Inside) (b : Bytes) :
    (d.ecWrite b.length b).pos = d.pos + b.length ∧
      (d.ecWrite b.length b).pos ≤ (d.ecWrite b.length b).contents.length ∧
      (d.ecWrite b.length b).contents.length ≤ d.contents.length + b.length := by
  have hoff := h.offset
  have hle := h.le
  have htake : b.take (b.length : Int).toNat = b := List.take_length
  simp only [ecWrite, htake, List.length_append, List.length_take, List.length_drop]
  exact ⟨trivial, by omega, by omega⟩

theorem RegularFile.ecWrite_nil (n : Int) : d.ecWrite n [] = d := by simp [ecWrite]

/-! ## the place of the next byte -/

/-- No error, and what is in the buffers and still to be written fits. -/
structure File.Sound (room : Nat) (f : File) : Prop where
  errno : f.input.errno = 0
  rpos : f.input.rpos ≤ f.input.rbuf.length
  rbuf : f.input.rbuf.length ≤ BUFSIZ
  queue : f.out.queue.length < BUFSIZ
  nonneg : 0 ≤ f.desc.pos
  le : f.desc.pos ≤ f.desc.contents.length
  room : f.desc.contents.length + f.out.queue.length + room + BUFSIZ < 2 ^ 31

/-- Where the next byte is: behind the kernel by what is read ahead, ahead of it by what waits to
be written. -/
def File.place (f : File) : Int := f.desc.pos - f.unread + f.out.queue.length

theorem File.Sound.inside (h : f.Sound room) : f.desc.Inside := by
  have hroom := h.room
  exact ⟨h.nonneg, h.le, by rw [BUFSIZ] at hroom; omega⟩

namespace File

/-- A read of `d` into the buffer. -/
theorem Sound.read {i : InStream} (h : f.Sound room) (herr : i.errno = 0)
    (hrpos : i.rpos ≤ i.rbuf.length) (hrbuf : i.rbuf.length ≤ BUFSIZ)
    (hcont : d.contents = f.desc.contents) (hge : f.desc.pos ≤ d.pos)
    (hle : d.pos ≤ f.desc.contents.length) : { f with input := i, desc := d }.Sound room := by
  have hroom := h.room
  exact ⟨herr, hrpos, hrbuf, h.queue, Int.le_trans h.nonneg hge, by rwa [hcont], by rwa [hcont]⟩

/-- **`fgetc`** moves by the byte that it gives. -/
theorem fgetc_spec (hw : ans.Whole) (h : f.Sound room) :
    (f.fgetc ans).2.Sound room ∧
      (f.fgetc ans).2.place = if (f.fgetc ans).1 = EOF then f.place else f.place + 1 := by
  obtain ⟨hcont, hread⟩ := RegularFile.ecRead_spec hw h.inside
  by_cases heof : f.input.errno ≠ 0 ∨ f.input.eof = true
  · have hc (r : Reply) : Stdio.fgetc ⟨f.input, [r]⟩ = (EOF, ⟨f.input, [r]⟩) := if_pos heof
    rw [File.fgetc, hc]
    exact ⟨h, rfl⟩
  by_cases hempty : f.input.rbuf.length ≤ f.input.rpos
  · have hc (r : Reply) : Stdio.fgetc ⟨f.input, [r]⟩ =
        readMore { f.input with rbuf := [], rpos := 0 } [r] := by
      rw [Stdio.fgetc, if_neg heof, if_pos hempty]
    have hplace : f.place = f.desc.pos + f.out.queue.length := by
      rw [place, unread]
      omega
    have hle := h.le
    rw [File.fgetc, hc, hplace]
    obtain ⟨hfail, hpos⟩ | ⟨b, hdata, hpos, hlen, hend⟩ := hread
    · have hge := Int.le_of_eq hpos.symm
      rw [← hpos] at hle
      rw [hfail]
      refine ⟨h.read h.errno (Nat.le_refl _) (Nat.zero_le _) hcont hge hle, ?_⟩
      simp [readMore, place, unread, hpos]
    · have hge : f.desc.pos ≤ (f.desc.ecRead ans).2.pos := by omega
      rw [← hpos] at hend
      rw [hdata]
      cases b with
      | nil =>
          refine ⟨h.read h.errno (Nat.le_refl _) (Nat.zero_le _) hcont hge hend, ?_⟩
          simp [readMore, place, unread, hpos]
      | cons c b =>
          refine ⟨h.read h.errno (Nat.le_add_left _ _) hlen hcont hge hend, ?_⟩
          simp only [readMore, place, unread, List.isEmpty_nil, if_true, byte_ne_eof, if_false, hpos,
            List.length_cons]
          omega
  · have hc (r : Reply) : Stdio.fgetc ⟨f.input, [r]⟩ =
        (((f.input.rbuf.getD f.input.rpos 0).toNat : Int),
          ⟨{ f.input with rpos := f.input.rpos + 1 }, [r]⟩) := by
      rw [Stdio.fgetc, if_neg heof, if_neg hempty]
    rw [File.fgetc, hc, if_neg byte_ne_eof]
    refine ⟨h.read h.errno (Nat.not_le.mp hempty) h.rbuf rfl (Int.le_refl _) h.le, ?_⟩
    simp only [place, unread, List.isEmpty_cons, Bool.false_eq_true, if_false]
    omega

theorem freadLoop_spec (hw : ans.Whole) (k : Nat) (ptr : Bytes) (h : f.Sound room) :
    (freadLoop ans k ptr f).2.Sound room ∧ (freadLoop ans k ptr f).2.place + ptr.length =
      f.place + (freadLoop ans k ptr f).1.length := by
  induction k generalizing ptr f with
  | zero => exact ⟨h, rfl⟩
  | succ k ih =>
      obtain ⟨hs, hp⟩ := fgetc_spec hw h
      rw [freadLoop]
      split
      · next heof =>
          rw [if_pos heof] at hp
          exact ⟨hs, by rw [hp]⟩
      · next hne =>
          rw [if_neg hne] at hp
          obtain ⟨hs', hp'⟩ := ih (ptr ++ [UInt8.ofInt (f.fgetc ans).1]) hs
          rw [List.length_append, List.length_singleton] at hp'
          exact ⟨hs', by omega⟩

/-- Output of `k` bytes that stay in the buffer. -/
theorem Sound.keep {o : Outbox UInt8} {k : Nat} (h : f.Sound (room + k))
    (hlen : o.queue.length = f.out.queue.length + k) (hlt : o.queue.length < BUFSIZ) :
    { f with out := o }.Sound room ∧ { f with out := o }.place = f.place + k := by
  have hroom := h.room
  refine ⟨⟨h.errno, h.rpos, h.rbuf, hlt, h.nonneg, h.le, by dsimp only; omega⟩, ?_⟩
  simp only [place, unread, hlen]
  omega

/-- Output of `k` bytes that are written. -/
theorem Sound.flush {o : Outbox UInt8} {k : Nat} (h : f.Sound (room + k))
    (hlen : o.queue.length = f.out.queue.length + k) :
    let f' : File := { f with out := o.flush, desc := f.desc.ecWrite o.queue.length o.queue }
    f'.Sound room ∧ f'.place = f.place + k := by
  have hroom := h.room
  have hnonneg := h.nonneg
  obtain ⟨hpos, hle, hcont⟩ := RegularFile.ecWrite_spec h.inside o.queue
  refine ⟨⟨h.errno, h.rpos, h.rbuf, by simp [BUFSIZ], ?_, hle, ?_⟩, ?_⟩
  · dsimp only
    omega
  · simp only [Outbox.queue_flush, List.length_nil]
    omega
  · simp only [place, unread, Outbox.queue_flush, List.length_nil, hpos]
    omega

/-- The file after output without a write. -/
theorem wrote_keep {o : Outbox UInt8} (hs : o.sent = f.out.sent) :
    f.wrote ans ⟨f.buftype, f.input.errno, o⟩ = { f with out := o } := by
  simp only [wrote, hs, List.drop_length]

/-- The file after a write of the whole buffer. -/
theorem wrote_flush {o : Outbox UInt8} (hw : ans.Whole) (hs : o.sent = f.out.sent) :
    f.wrote ans ⟨f.buftype, f.input.errno, o.flush⟩ =
      { f with out := o.flush, desc := f.desc.ecWrite o.queue.length o.queue } := by
  by_cases hq : o.queue = []
  · have hflush : o.flush = o := by simp [Outbox.flush, hq]
    simp only [wrote, hflush, hs, List.drop_length, hq, RegularFile.ecWrite_nil]
  · have hflush : o.flush = ⟨[], f.out.sent ++ [o.queue]⟩ := by simp [Outbox.flush, hq, hs]
    simp only [wrote, hflush, List.drop_left, hw.write]

/-- The kernel, as the output side sees it. -/
def descriptor (hw : ans.Whole) : Descriptor where
  write := ans.write
  pos i b := by
    rw [hw.write]
    omega
  le i b := Int.le_of_eq (hw.write i b)

theorem fflush_output (hw : ans.Whole) (o : Outbox UInt8) (h : f.Sound room) :
    Stdio.fflush ans.write ⟨f.buftype, f.input.errno, o⟩ =
      (0, ⟨f.buftype, f.input.errno, o.flush⟩) :=
  @fflush_of_errno (descriptor hw) ⟨f.buftype, f.input.errno, o⟩ h.errno

/-- **`fflush`** does not move. -/
theorem fflush_spec (hw : ans.Whole) (h : f.Sound room) :
    (f.fflush ans).2.Sound room ∧ (f.fflush ans).2.place = f.place := by
  rw [File.fflush, output, fflush_output hw f.out h, wrote_flush hw rfl]
  simpa using h.flush (k := 0) rfl

/-- **`fputc`** moves by its byte. -/
theorem fputc_spec (hw : ans.Whole) (c : Int) (h : f.Sound (room + 1)) :
    ∃ f', f.fputc ans c = .ok (c, f') ∧ f'.Sound room ∧ f'.place = f.place + 1 := by
  have hput := Outbox.put_of_lt (e := StdioFault.overflow) (x := UInt8.ofInt c) h.queue
  have hlen : (f.out.queue ++ [UInt8.ofInt c]).length = f.out.queue.length + 1 := by simp
  rw [File.fputc, Stdio.fputc, output, hput]
  simp only [Except.map]
  split
  · rw [fflush_output hw _ h]
    refine ⟨_, rfl, ?_⟩
    rw [wrote_flush hw (by rfl)]
    exact h.flush hlen
  · next hfull =>
      refine ⟨_, rfl, ?_⟩
      rw [wrote_keep (by rfl)]
      exact h.keep hlen (Nat.lt_of_not_le fun hge => hfull (.inl hge))

theorem fwriteLoop_spec (hw : ans.Whole) (bs : Bytes) (n : Nat) (h : f.Sound (room + bs.length)) :
    ∃ f', fwriteLoop ans bs n f = .ok (n + bs.length, f') ∧ f'.Sound room ∧
      f'.place = f.place + bs.length := by
  induction bs generalizing n f with
  | nil => exact ⟨f, rfl, h, by simp⟩
  | cons b bs ih =>
      obtain ⟨f₁, h1, hs, hp⟩ := fputc_spec hw b.toNat h
      obtain ⟨f₂, h2, hs', hp'⟩ := ih (n + 1) hs
      refine ⟨f₂, ?_, hs', ?_⟩
      · rw [fwriteLoop, h1]
        simpa [Except.bind, Nat.add_assoc, Nat.add_comm 1] using h2
      · rw [hp', hp, List.length_cons]
        omega

theorem seekTo_cur (len : Nat) {pos p : Int} (hlt : pos + p < 2 ^ 31) (hge : -2 ^ 31 ≤ pos + p) :
    seekTo pos p len .cur = pos + p := by
  rw [seekTo, toLong, Int.bmod_eq_of_le (by omega) (by omega)]

/-- The seek stays within the file. -/
theorem ecLseek_pos (hd : d.Inside) (p : Int) {whence : Whence} (h : whence ≠ .other) :
    d.ecLseek p whence =
      let pos := min (max (seekTo d.pos p d.contents.length whence) 0) d.contents.length
      (pos, { d with pos := pos }) := by
  have hsmall := hd.small
  rw [RegularFile.ecLseek, if_neg h]
  dsimp only
  rw [toLong, Int.bmod_eq_of_le (by omega) (by omega)]

/-- **`ftell`** gives the kernel's position. -/
theorem ftell_eq (h : f.Sound room) : f.ftell = (f.desc.pos, f) := by
  have hin := h.inside
  have hsmall := hin.small
  have hnonneg := h.nonneg
  have hle := h.le
  have hpos : min (max (seekTo f.desc.pos 0 f.desc.contents.length .cur) 0) f.desc.contents.length =
      f.desc.pos := by
    rw [seekTo_cur _ (by omega) (by omega)]
    omega
  rw [ftell, ecLseek_pos hin 0 (by decide : Whence.cur ≠ .other)]
  simp only [hpos]
  rw [if_neg (by omega)]

theorem fseek_of_ne {offset : Int} {whence : Whence} (h : f.out.queue ≠ []) :
    f.fseek offset whence = (-1, f) := if_pos h

theorem fseek_of_eq {offset : Int} {whence : Whence} (h : f.out.queue = []) :
    f.fseek offset whence =
      (0, { f with
        input := { f.input with rpos := 0, rbuf := [], eof := false }
        desc := (f.desc.ecLseek offset whence).2 }) := if_neg (not_not_intro h)

/-- **`fseek`** leaves nothing in the buffers. -/
theorem fseek_spec (h : f.Sound room) (hq : f.out.queue = []) (offset : Int) {whence : Whence}
    (hv : whence ≠ .other) :
    (f.fseek offset whence).2.Sound room ∧
      (f.fseek offset whence).2.place = (f.fseek offset whence).2.desc.pos := by
  have hroom := h.room
  rw [fseek_of_eq hq, ecLseek_pos h.inside offset hv]
  refine ⟨⟨h.errno, Nat.le_refl _, Nat.zero_le _, h.queue, ?_, ?_, hroom⟩, ?_⟩
  · dsimp only
    omega
  · dsimp only
    omega
  · simp [place, unread, hq]

/-- **A relative seek** is right if nothing is read ahead, or at the end of the file. -/
theorem fseek_cur_iff (h : f.Sound room) (hq : f.out.queue = []) (offset : Int) :
    (f.fseek offset .cur).2.desc.pos = f.place + offset ↔
      0 ≤ f.place + offset ∧ f.place + offset ≤ f.desc.contents.length ∧
        (f.unread = 0 ∨ f.place + offset = f.desc.contents.length) := by
  have hroom := h.room
  have hunread : f.unread ≤ BUFSIZ := Nat.le_trans (Nat.sub_le _ _) h.rbuf
  have hplace : f.place = f.desc.pos - f.unread := by simp [place, hq]
  rw [fseek_of_eq hq, ecLseek_pos h.inside offset (by decide : Whence.cur ≠ .other)]
  dsimp only
  by_cases hin : 0 ≤ f.place + offset ∧ f.place + offset ≤ f.desc.contents.length
  · rw [seekTo_cur _ (by omega) (by omega)]
    omega
  · omega

end File

/-! ## runs -/

/-- **Step**: a call returns, and one that is right leaves the program at the next byte. -/
theorem step_spec (hw : ans.Whole) (h : s.file.Sound (room + e.output)) (hoff : s.off = s.file.place) :
    ∃ s', s.step ans e = .ok s' ∧ s'.file.Sound room ∧ (Tells s e → s'.off = s'.file.place) := by
  cases e with
  | fgetc =>
      obtain ⟨hs, hp⟩ := File.fgetc_spec hw h
      exact ⟨_, rfl, hs, fun _ => by rw [hp, hoff]⟩
  | fread size nmemb =>
      obtain ⟨hs, hp⟩ := File.freadLoop_spec hw (u32 (size * nmemb)) [] h
      refine ⟨_, rfl, hs, fun _ => ?_⟩
      rw [hoff]
      simpa [File.fread] using hp.symm
  | fputc c =>
      obtain ⟨f', h1, hs, hp⟩ := File.fputc_spec hw c h
      exact ⟨_, by rw [Tracked.step, h1]; rfl, hs, fun _ => by rw [hp, hoff]⟩
  | fwrite ptr size nmemb =>
      obtain ⟨f', h1, hs, hp⟩ := File.fwriteLoop_spec hw (fwriteBytes ptr size nmemb) 0 h
      refine ⟨_, by rw [Tracked.step, File.fwrite, h1]; rfl, hs, fun _ => ?_⟩
      rw [hp, hoff, Nat.zero_add]
  | fflush =>
      obtain ⟨hs, hp⟩ := File.fflush_spec hw h
      exact ⟨_, rfl, hs, fun _ => by rw [hp, hoff]⟩
  | fseek offset whence valid =>
      refine ⟨_, rfl, ?_⟩
      by_cases hq : s.file.out.queue = []
      · obtain ⟨hs, hp⟩ := File.fseek_spec h hq offset valid
        refine ⟨hs, fun ht => ?_⟩
        rw [hp, if_neg (by simp [File.fseek_of_eq hq])]
        split
        · next hcur =>
            subst hcur
            exact ht.2.pos.symm
        · rfl
      · rw [File.fseek_of_ne hq]
        exact ⟨h, fun _ => by simpa using hoff⟩
  | ftell =>
      refine ⟨_, rfl, ?_⟩
      rw [File.ftell_eq h]
      exact ⟨h, fun _ => hoff⟩

/-- **When a call is right**. -/
theorem tells_iff (h : s.file.Sound room) (hoff : s.off = s.file.place) : Tells s e ↔ Settled s e := by
  cases e with
  | ftell =>
      rw [Tells, Settled, File.ftell_eq h, hoff, File.place]
      omega
  | fseek offset whence valid =>
      cases whence with
      | cur =>
          rw [Tells, Settled, hoff]
          by_cases hq : s.file.out.queue = []
          · rw [← File.fseek_cur_iff h hq, File.fseek_of_eq hq]
            exact ⟨fun ht => ⟨hq, ht.2.pos⟩, fun hp => ⟨rfl, rfl, hq, hp.2⟩⟩
          · rw [File.fseek_of_ne hq]
            simp [hq]
      | _ => rfl
  | _ => rfl

theorem posRight_iff (hw : ans.Whole) (h : s.file.Sound (room + e.output))
    (hoff : s.off = s.file.place) : PosRight ans s e ↔ Settled s e := by
  obtain ⟨s', hstep, -⟩ := step_spec hw h hoff
  rw [PosRight, tells_iff h hoff, and_iff_right ⟨s', hstep⟩]

/-- A stream that was just opened. -/
def Tracked.fopen (buftype : BufType) (contents : Bytes) : Tracked := ⟨.fopen buftype contents, 0⟩

/-- **The position is right** along a run exactly if the buffers are settled whenever the program
asks for it or moves relative to it. -/
theorem positions_iff (buftype : BufType) {contents : Bytes} {calls : List PosCall} (hw : ans.Whole)
    (hsmall : contents.length + written calls + BUFSIZ < 2 ^ 31) :
    System.Along (Tracked.next ans) (PosRight ans) (.fopen buftype contents) calls ↔
      System.Along (Tracked.next ans) Settled (.fopen buftype contents) calls := by
  refine System.along_iff_of
    (fun s calls => s.file.Sound (written calls) ∧ s.off = s.file.place) ?_ ?_ ?_
  · intro s e calls h hright
    obtain ⟨hs, hoff⟩ := h
    rw [written, List.map_cons, List.sum_cons, Nat.add_comm] at hs
    obtain ⟨s', hstep, hs', hoff'⟩ := step_spec hw hs hoff
    rw [Tracked.next, hstep]
    exact ⟨hs', hoff' hright.2⟩
  · intro s e calls h
    obtain ⟨hs, hoff⟩ := h
    rw [written, List.map_cons, List.sum_cons, Nat.add_comm] at hs
    exact posRight_iff hw hs hoff
  · exact ⟨⟨rfl, Nat.le_refl _, Nat.zero_le _, by simp [Tracked.fopen, File.fopen, BUFSIZ],
      Int.le_refl _, Int.natCast_nonneg _, by simpa [Tracked.fopen, File.fopen] using hsmall⟩, rfl⟩

/-- A kernel that serves everything at once. -/
def atOnce : Answers := ⟨fun _ => BUFSIZ, fun _ b => b.length⟩

/-- A file of two bytes: all of it read, a third byte written, and a step back. -/
theorem positions_iff_example : atOnce.Whole ∧
    System.Along (Tracked.next atOnce) (PosRight atOnce) (.fopen .text [104, 105])
      [.fgetc, .fgetc, .fputc 33, .fflush, .fseek (-1) .cur nofun, .ftell] := by
  have hread : (-1 : Int) ≤ BUFSIZ := by decide
  have hw : atOnce.Whole := ⟨fun _ => hread, fun _ _ => rfl⟩
  refine ⟨hw, (positions_iff .text hw (by decide)).mpr ⟨trivial, trivial, trivial, trivial, ?_, rfl,
    trivial⟩⟩
  have hoff : (0 : Int) ≤ 3 + -1 ∧ (3 : Int) + -1 ≤ (3 : Nat) := by decide
  exact ⟨rfl, hoff.1, hoff.2, .inl rfl⟩

/-- **The buffers show**: `ftell` is 2 behind the first of two bytes that were read, and 0 behind
a byte that was only buffered; and a seek by 0 skips the second byte. -/
theorem not_positions :
    ¬System.Along (Tracked.next atOnce) (PosRight atOnce) (.fopen .text [104, 105])
        [.fgetc, .ftell] ∧
      ¬System.Along (Tracked.next atOnce) (PosRight atOnce) (.fopen .text []) [.fputc 104, .ftell] ∧
      ¬System.Along (Tracked.next atOnce) (PosRight atOnce) (.fopen .text [104, 105])
        [.fgetc, .fseek 0 .cur nofun] := by
  refine ⟨fun h => ?_, fun h => ?_, fun h => ?_⟩
  · have htell : (2 : Int) = 1 := h.2.1.2
    contradiction
  · have htell : (0 : Int) = 1 := h.2.1.2
    contradiction
  · have hpos : (2 : Int) = 1 := h.2.1.2.2.pos
    contradiction

end Stdio

end Eclair
