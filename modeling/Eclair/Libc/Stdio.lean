import Eclair.Basic
import Eclair.Lib.Outbox

/-!
# Eclair.Libc.Stdio

The output side of a stream of `libc/stdio.c`.

The write buffer is the queue of an `Outbox`, and the batches are what
`ec_write` was offered.  How much it took of each is up to the kernel: it is
a parameter, asked with the number of the call.
-/

namespace Eclair

namespace Stdio

def BUFSIZ : Nat := 256
def EOF : Int := -1

inductive BufType where
  | bin
  | text
  deriving DecidableEq

/-- The output side of a `FILE`; the queue is `wbuf` up to `wpos`. -/
structure Stream where
  buftype : BufType
  errno : Int
  out : Outbox UInt8

/-- The answer of the `i`-th `ec_write` on the descriptor. -/
abbrev EcWrite := Nat → Bytes → Int

inductive StdioFault where
  /-- a byte is written behind `wbuf` -/
  | overflow

/-- `openfdfile`. -/
def openfdfile (buftype : BufType) : Stream := ⟨buftype, 0, {}⟩

section

variable (write : EcWrite)

/-- `fflush`. -/
def fflush (s : Stream) : Int × Stream :=
  if s.errno ≠ 0 then (EOF, s)
  else if s.out.queue = [] then (0, s)
  else
    let nwrite := write s.out.sent.length s.out.queue
    let s := { s with out := s.out.flush }
    if nwrite < 0 then (EOF, { s with errno := -nwrite }) else (0, s)

/-- `fputc`. -/
def fputc (c : Int) (s : Stream) : Except StdioFault (Int × Stream) :=
  (s.out.put BUFSIZ .overflow (UInt8.ofInt c)).map fun out =>
    let s := { s with out := out }
    if s.out.queue.length ≥ BUFSIZ ∨ (s.buftype = .text ∧ c = 10) then
      let r := fflush write s
      (if r.1 = EOF then EOF else c, r.2)
    else (c, s)

/-- A `char`, which is signed, as an `int`. -/
def charInt (b : UInt8) : Int := if b.toNat < 128 then b.toNat else b.toNat - 256

/-- `fputs`, with the characters before the NUL. -/
def fputs : Bytes → Stream → Except StdioFault (Int × Stream)
  | [], s => .ok (0, s)
  | b :: bs, s =>
      (fputc write (charInt b) s).bind fun r =>
        if r.1 ≠ charInt b then .ok (EOF, r.2) else fputs bs r.2

/-- The loop of `fwrite`, with `nwrite` bytes written. -/
def fwriteLoop : Bytes → Nat → Stream → Except StdioFault (Nat × Stream)
  | [], nwrite, s => .ok (nwrite, s)
  | b :: bs, nwrite, s =>
      (fputc write b.toNat s).bind fun r =>
        if r.1 ≠ b.toNat then .ok (nwrite, r.2) else fwriteLoop bs (nwrite + 1) r.2

/-- The bytes that `fwrite` is given. -/
def fwriteBytes (ptr : Nat → UInt8) (size nmemb : Nat) : Bytes :=
  (List.range (u32 (size * nmemb))).map ptr

/-- `fwrite`. -/
def fwrite (ptr : Nat → UInt8) (size nmemb : Nat) : Stream → Except StdioFault (Nat × Stream) :=
  fwriteLoop write (fwriteBytes ptr size nmemb) 0

/-- `fclose`, where `ec_close` answers `close`. -/
def fclose (close : Int) (s : Stream) : Int × Stream :=
  (if close < 0 then EOF else 0, (fflush write s).2)

end

inductive StdioCall where
  | fputc (c : Int)
  | fputs (s : Bytes)
  | fwrite (ptr : Nat → UInt8) (size nmemb : Nat)
  | fflush

/-- The bytes that a call is given. -/
def StdioCall.bytes : StdioCall → Bytes
  | .fputc c => [UInt8.ofInt c]
  | .fputs s => s
  | .fwrite ptr size nmemb => fwriteBytes ptr size nmemb
  | .fflush => []

/-- A call, and whether it reports an error. -/
def StdioCall.run (write : EcWrite) (s : Stream) : StdioCall → Except StdioFault (Bool × Stream)
  | .fputc c => (Stdio.fputc write c s).map fun r => (r.1 = EOF, r.2)
  | .fputs str => (Stdio.fputs write str s).map fun r => (r.1 = EOF, r.2)
  | .fwrite ptr size nmemb =>
      (Stdio.fwrite write ptr size nmemb s).map fun r => (r.1 < u32 (size * nmemb), r.2)
  | .fflush =>
      let r := Stdio.fflush write s
      .ok (r.1 = EOF, r.2)

/-- The calls, and whether one of them reports an error. -/
def runCalls (write : EcWrite) : List StdioCall → Stream → Except StdioFault (Bool × Stream)
  | [], s => .ok (false, s)
  | call :: calls, s =>
      (call.run write s).bind fun r => (runCalls write calls r.2).map fun q => (r.1 || q.1, q.2)

/-- The calls on a stream that was just opened, and `fclose` after them if
`close` is an answer of `ec_close`. -/
def session (write : EcWrite) (buftype : BufType) (calls : List StdioCall) (close : Option Int) :
    Except StdioFault (Bool × Stream) :=
  (runCalls write calls (openfdfile buftype)).map fun r =>
    match close with
    | none => r
    | some close =>
        let q := fclose write close r.2
        (r.1 || q.1 = EOF, q.2)

/-- The bytes that the output calls accepted. -/
def accepted (calls : List StdioCall) : Bytes := calls.flatMap StdioCall.bytes

/-- The bytes that the descriptor took. -/
def delivered (write : EcWrite) (s : Stream) : Bytes :=
  Outbox.received (fun i b => (write i b).toNat) s.out.sent

/-! ## descriptors -/

/-- A descriptor that accepts at least one of the bytes that it is offered. -/
structure Descriptor where
  write : EcWrite
  pos : ∀ i b, min 1 b.length ≤ write i b
  le : ∀ i b, write i b ≤ b.length

/-- Nothing is lost: the calls return, and unless one reports an error, what
was delivered and what is still buffered are the bytes accepted; nothing
is buffered behind a flush. -/
def Lossless (fd : Descriptor) (buftype : BufType) (calls : List StdioCall)
    (close : Option Int) : Prop :=
  ∃ e s, session fd.write buftype calls close = .ok (e, s) ∧ (e = false →
    delivered fd.write s ++ s.out.queue = accepted calls ∧
      (close ≠ none ∨ calls.getLast? = some .fflush → s.out.queue = []))

/-- Every `ec_write` of a session without errors took all that it was
offered. -/
def TakenWhole (fd : Descriptor) (buftype : BufType) (calls : List StdioCall)
    (close : Option Int) : Prop :=
  ∀ s, session fd.write buftype calls close = .ok (false, s) →
    ∀ i b, s.out.sent[i]? = some b → fd.write i b = b.length

/-! ## the calls -/

/-- No error so far, and room in the buffer. -/
structure Stream.Ready (s : Stream) : Prop where
  errno : s.errno = 0
  room : s.out.queue.length < BUFSIZ

variable {fd : Descriptor} {s s' : Stream} {bs : Bytes}

theorem ready_openfdfile (buftype : BufType) : (openfdfile buftype).Ready :=
  ⟨rfl, by simp [openfdfile, BUFSIZ]⟩

theorem fflush_of_errno (h : s.errno = 0) :
    fflush fd.write s = (0, { s with out := s.out.flush }) := by
  rw [fflush, if_neg (not_not_intro h)]
  by_cases hq : s.out.queue = []
  · rw [if_pos hq]
    simp [Outbox.flush, hq]
  · rw [if_neg hq]
    have hpos := fd.pos s.out.sent.length s.out.queue
    exact if_neg (by omega)

/-- `s'` comes from `s` by output of `bs`. -/
structure Stream.Puts (s : Stream) (bs : Bytes) (s' : Stream) : Prop where
  ready : s'.Ready
  all : s'.out.all = s.out.all ++ bs

theorem Stream.Ready.flush (h : s.Ready) : s.Puts [] { s with out := s.out.flush } :=
  ⟨⟨h.errno, by simp [BUFSIZ]⟩, by simp⟩

theorem fputc_spec (fd : Descriptor) (c : Int) (h : s.Ready) :
    ∃ s', fputc fd.write c s = .ok (c, s') ∧ s.Puts [UInt8.ofInt c] s' := by
  rw [fputc, Outbox.put_of_lt h.room]
  simp only [Except.map]
  split
  · rw [fflush_of_errno (by exact h.errno)]
    refine ⟨_, rfl, ⟨h.errno, by simp [BUFSIZ]⟩, ?_⟩
    rw [Outbox.all_flush]
    simp [Outbox.all]
  · next hfull =>
      refine ⟨_, rfl, ⟨h.errno, ?_⟩, ?_⟩
      · exact Nat.lt_of_not_le fun hlen => hfull (.inl hlen)
      · simp [Outbox.all]

theorem Stream.Puts.trans {s₁ s₂ : Stream} {cs : Bytes} (h : s.Puts bs s₁) (h' : s₁.Puts cs s₂) :
    s.Puts (bs ++ cs) s₂ :=
  ⟨h'.ready, by rw [h'.all, h.all, List.append_assoc]⟩

theorem ofInt_natCast (b : UInt8) : UInt8.ofInt b.toNat = b := by
  have hb := b.toNat_lt
  apply UInt8.toNat_inj.mp
  rw [UInt8.ofInt, UInt8.toNat_ofNat']
  omega

theorem ofInt_charInt (b : UInt8) : UInt8.ofInt (charInt b) = b := by
  have hb := b.toNat_lt
  apply UInt8.toNat_inj.mp
  rw [UInt8.ofInt, UInt8.toNat_ofNat', charInt]
  split <;> omega

theorem fputs_spec (fd : Descriptor) (h : s.Ready) (bs : Bytes) :
    ∃ s', fputs fd.write bs s = .ok (0, s') ∧ s.Puts bs s' := by
  induction bs generalizing s with
  | nil => exact ⟨s, rfl, h, by simp⟩
  | cons b bs ih =>
      obtain ⟨s₁, h1, hp⟩ := fputc_spec fd (charInt b) h
      obtain ⟨s₂, h2, hp'⟩ := ih hp.ready
      rw [ofInt_charInt] at hp
      refine ⟨s₂, ?_, hp.trans hp'⟩
      rw [fputs, h1]
      simpa [Except.bind] using h2

theorem fwriteLoop_spec (fd : Descriptor) (h : s.Ready) (bs : Bytes) (n : Nat) :
    ∃ s', fwriteLoop fd.write bs n s = .ok (n + bs.length, s') ∧ s.Puts bs s' := by
  induction bs generalizing s n with
  | nil => exact ⟨s, rfl, h, by simp⟩
  | cons b bs ih =>
      obtain ⟨s₁, h1, hp⟩ := fputc_spec fd b.toNat h
      obtain ⟨s₂, h2, hp'⟩ := ih hp.ready (n + 1)
      rw [ofInt_natCast] at hp
      refine ⟨s₂, ?_, hp.trans hp'⟩
      rw [fwriteLoop, h1]
      simpa [Except.bind, Nat.add_assoc, Nat.add_comm 1] using h2

/-- **Step**: a call outputs its bytes; `fflush` leaves none in the buffer. -/
theorem run_spec (fd : Descriptor) (call : StdioCall) (h : s.Ready) :
    ∃ e s', call.run fd.write s = .ok (e, s') ∧ s.Puts call.bytes s' ∧
      (call = .fflush → s'.out.queue = []) := by
  cases call with
  | fputc c =>
      obtain ⟨s', h1, hp⟩ := fputc_spec fd c h
      exact ⟨_, s', by rw [StdioCall.run, h1]; rfl, hp, nofun⟩
  | fputs str =>
      obtain ⟨s', h1, hp⟩ := fputs_spec fd h str
      exact ⟨_, s', by rw [StdioCall.run, h1]; rfl, hp, nofun⟩
  | fwrite ptr size nmemb =>
      obtain ⟨s', h1, hp⟩ := fwriteLoop_spec fd h (fwriteBytes ptr size nmemb) 0
      exact ⟨_, s', by rw [StdioCall.run, Stdio.fwrite, h1]; rfl, hp, nofun⟩
  | fflush =>
      exact ⟨_, _, by rw [StdioCall.run, fflush_of_errno h.errno], h.flush,
        fun _ => Outbox.queue_flush⟩

/-- **Run**: the calls output their bytes. -/
theorem runCalls_spec (fd : Descriptor) (calls : List StdioCall) (h : s.Ready) :
    ∃ e s', runCalls fd.write calls s = .ok (e, s') ∧ s.Puts (accepted calls) s' ∧
      (calls.getLast? = some .fflush → s'.out.queue = []) := by
  induction calls generalizing s with
  | nil => exact ⟨_, s, rfl, ⟨h, by simp [accepted]⟩, nofun⟩
  | cons call calls ih =>
      obtain ⟨e₁, s₁, h1, hp, hq⟩ := run_spec fd call h
      obtain ⟨e₂, s₂, h2, hp', hq'⟩ := ih hp.ready
      refine ⟨e₁ || e₂, s₂, by simp only [runCalls, h1, h2, Except.bind, Except.map],
        hp.trans hp', fun hlast => ?_⟩
      cases calls with
      | nil =>
          obtain ⟨-, rfl⟩ := Prod.mk.inj (Except.ok.inj h2)
          exact hq (by simpa using hlast)
      | cons call' calls => exact hq' (by rwa [List.getLast?_cons_cons] at hlast)

theorem session_spec (fd : Descriptor) (buftype : BufType) (calls : List StdioCall)
    (close : Option Int) :
    ∃ e s, session fd.write buftype calls close = .ok (e, s) ∧ s.out.all = accepted calls ∧
      (close ≠ none ∨ calls.getLast? = some .fflush → s.out.queue = []) := by
  obtain ⟨e, s, h1, hp, hq⟩ := runCalls_spec fd calls (ready_openfdfile buftype)
  have hall : s.out.all = accepted calls := hp.all
  cases close with
  | none => exact ⟨e, s, by rw [session, h1]; rfl, hall, fun hf => hq (by simpa using hf)⟩
  | some close =>
      refine ⟨_, (fclose fd.write close s).2, by rw [session, h1]; rfl, ?_, fun _ => ?_⟩
      · rw [fclose, fflush_of_errno hp.ready.errno, Outbox.all_flush, hall]
      · rw [fclose, fflush_of_errno hp.ready.errno]
        exact Outbox.queue_flush

/-- **Nothing is lost**, exactly if every `ec_write` took all that it was
offered: what it did not take is dropped from the buffer. -/
theorem lossless_iff_takenWhole (fd : Descriptor) (buftype : BufType) (calls : List StdioCall)
    (close : Option Int) :
    Lossless fd buftype calls close ↔ TakenWhole fd buftype calls close := by
  obtain ⟨e, s, hrun, hall, hq⟩ := session_spec fd buftype calls close
  have hwhole : delivered fd.write s ++ s.out.queue = accepted calls ↔
      ∀ i b, s.out.sent[i]? = some b → fd.write i b = b.length := by
    rw [← hall, Outbox.all, List.append_left_inj, delivered, Outbox.received_eq_iff]
    refine forall_congr' fun i => forall_congr' fun b => imp_congr_right fun _ => ?_
    have hpos := fd.pos i b
    have hle := fd.le i b
    omega
  constructor
  · rintro ⟨e', s', hrun', h⟩ s'' hrun''
    rw [hrun] at hrun' hrun''
    obtain ⟨rfl, rfl⟩ := Prod.mk.inj (Except.ok.inj hrun')
    obtain ⟨he, rfl⟩ := Prod.mk.inj (Except.ok.inj hrun'')
    exact hwhole.mp (h he).1
  · intro h
    refine ⟨e, s, hrun, fun he => ⟨hwhole.mpr ?_, hq⟩⟩
    exact h s (by rw [hrun, he])

/-- A descriptor that accepts one byte at a time. -/
def oneByte : Descriptor where
  write _ b := min 1 b.length
  pos i b := by omega
  le i b := by omega

/-- **The second of two bytes** is lost if `ec_write` takes one. -/
theorem not_lossless : ¬∀ fd buftype calls close, Lossless fd buftype calls close := by
  intro h
  obtain ⟨e, s, hrun, hl⟩ := h oneByte .text [.fputc 97, .fputc 98] (some 0)
  obtain ⟨rfl, rfl⟩ := Prod.mk.inj (Except.ok.inj hrun)
  have hlost := (hl (by decide)).1
  revert hlost
  decide

end Stdio

end Eclair
