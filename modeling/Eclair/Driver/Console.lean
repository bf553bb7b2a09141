import Eclair.Driver.Escape
import Eclair.Lib.System
import Mathlib.Tactic.SplitIfs

/-!
# Eclair.Driver.Console

The two text consoles, `kernel/driver/fbcon.c` and `kernel/driver/vgacon.c`,
down to what they tell the display.

`fbconPrintc` and `vgaconPrintc` print one byte, and the writes are loops
over them.  Both collect escape codes in the same way and differ in the end
letters, in what an ordinary character does to a lone escape character, and
in the commands they know.  `Follows` is what they have in common: a byte
either moves the scan of the input on, or the call does not return.  The
writes of both are an instance of it.
-/

namespace Eclair

open Fuel

/-- A console's write: its `printc` on every byte of the buffer. -/
def conWrite {S : Type} (printc : Nat → S → UInt8 → EscRes S) (fuel : Nat) :
    S → List UInt8 → EscRes S
  | s, [] => .ok s
  | s, c :: buf => (printc fuel s c).bind fun s => conWrite printc fuel s buf

/-- Any number of writes: `write` gives the state and the bytes written. -/
def writeAll {S : Type} (write : S → List UInt8 → EscRes (S × Nat)) :
    S → List (List UInt8) → EscRes S
  | s, [] => .ok s
  | s, buf :: bufs => (write s buf).bind fun r => writeAll write r.1 bufs

/-- `stcolors`, with the default colour 7 at the end. -/
def stcolors : List Nat := [0x0, 0x4, 0x2, 0x6, 0x1, 0x5, 0x3, 0x7, 0x7, 0x7]

/-! ## the framebuffer console -/

/-- `fb_color_t`. -/
structure FbColor where
  r : Nat
  g : Nat
  b : Nat
  deriving DecidableEq, Repr

/-- `ega_colors`. -/
def egaColors : List FbColor :=
  [⟨0x00, 0x00, 0x00⟩, ⟨0x00, 0x00, 0xaa⟩, ⟨0x00, 0xaa, 0x00⟩, ⟨0x00, 0xaa, 0xaa⟩,
   ⟨0xaa, 0x00, 0x00⟩, ⟨0xaa, 0x00, 0xaa⟩, ⟨0xaa, 0x55, 0x00⟩, ⟨0xaa, 0xaa, 0xaa⟩,
   ⟨0x55, 0x55, 0x55⟩, ⟨0x55, 0x55, 0xff⟩, ⟨0x55, 0xff, 0x55⟩, ⟨0x55, 0xff, 0xff⟩,
   ⟨0xff, 0x55, 0x55⟩, ⟨0xff, 0x55, 0xff⟩, ⟨0xff, 0xff, 0x55⟩, ⟨0xff, 0xff, 0xff⟩]

/-- `ega_colors[i]`. -/
def egaColor (i : Nat) : FbColor := egaColors.getD i ⟨0, 0, 0⟩

/-- What the console asks of the framebuffer. -/
inductive FbOp where
  | drawc (index : Nat) (c : UInt8) (fg bg : FbColor)
  | cursor (old new : Nat)
  | flip (index : Nat)
  | scroll (ys : Nat)
  deriving DecidableEq, Repr

/-- A display with room for at least one character of the font, which is 8
by 16 with one column of space. -/
structure FbInfo where
  fbWidth : Nat
  fbHeight : Nat
  wide : 9 ≤ fbWidth
  high : 16 ≤ fbHeight

/-- `width` and `height`, in characters. -/
def FbInfo.width (g : FbInfo) : Nat := g.fbWidth / 9

def FbInfo.height (g : FbInfo) : Nat := g.fbHeight / 16

/-- The state of the console, with what it asked of the framebuffer. -/
structure Fbcon where
  esc : Esc := {}
  idx : Nat := 0
  bg : FbColor := egaColor 0
  fg : FbColor := egaColor 7
  cursorShow : Bool := false
  ops : List FbOp := []

namespace Fbcon

/-- `endstr`: `mMHJ`. -/
def endstr : List UInt8 := [109, 77, 72, 74]

/-- `fbcon_set_cursor`. -/
def setCursor (old new : Nat) (s : Fbcon) : Fbcon :=
  if s.cursorShow then { s with ops := s.ops ++ [.cursor old new] } else s

/-- `fbcon_drawc`. -/
def drawc (index : Nat) (c : UInt8) (s : Fbcon) : Fbcon :=
  { s with ops := s.ops ++ [.drawc index c s.fg s.bg] }

/-- `fbcon_scroll`. -/
def scroll (g : FbInfo) (s : Fbcon) : Fbcon :=
  if s.idx < u32 (g.width * g.height) then s
  else
    let s' := { s with
      ops := s.ops ++ [FbOp.scroll (sub32 g.fbHeight (u32 (sub32 g.height 1 * 16)))]
      idx := u32 (g.width * sub32 g.height 1) }
    s'.setCursor s.idx s'.idx

/-- The body of the loop over style parameters. -/
def style (num : Nat) (p : Bool × Fbcon) : Bool × Fbcon :=
  if num = 0 then (false, { p.2 with bg := egaColor 0, fg := egaColor 7 })
  else if num = 2 then (true, p.2)
  else if num = 1 then (false, p.2)
  else if 30 ≤ num ∧ num < 50 then
    let col := stcolors.getD ((num - 30) % 10) 0 + if p.1 then 8 else 0
    if (num - 30) / 10 ≠ 0 then (p.1, { p.2 with bg := egaColor col })
    else (p.1, { p.2 with fg := egaColor col })
  else p

/-- Interpret the sequence in the buffer. -/
def interpret (g : FbInfo) (fuel : Nat) (s : Fbcon) : EscRes Fbcon := do
  let cmd ← s.esc.read (s.esc.nescbuf - 1)
  let s := { s with esc := s.esc.clear }
  if cmd = 109 then
    let p ← styleLoop style s.esc fuel 2 (false, s)
    return p.2
  else if cmd = 72 then return { s with idx := 0 }.setCursor s.idx 0
  else if cmd = 74 then
    let r ← readEscInt s.esc fuel 2 0
    if r.2 = 2 then
      return (List.range (u32 (g.width * g.height))).foldl (fun s i => s.drawc i 32) s
    else return s
  else return s

/-- The first half of `fbcon_printc`: what the byte is. -/
def put (g : FbInfo) (s : Fbcon) (c : UInt8) : EscRes Fbcon :=
  if c = 10 then
    let idx := u32 (s.idx + (g.width - s.idx % g.width))
    return { s with idx := idx }.setCursor s.idx idx
  else do
    let r ← s.esc.collect endstr c
    match r with
    | some esc => return { s with esc := esc }
    | none =>
        let s' := (s.setCursor s.idx (u32 (s.idx + 1))).drawc s.idx c
        return { s' with idx := u32 (s.idx + 1) }

end Fbcon

/-- `fbcon_printc`. -/
def fbconPrintc (g : FbInfo) (fuel : Nat) (s : Fbcon) (c : UInt8) : EscRes Fbcon := do
  let s ← s.put g c
  let s ← if s.esc.escready then s.interpret g fuel else pure s
  return s.scroll g

/-- The backspace of `fbcon_read`. -/
def fbconBackspace (s : Fbcon) : Fbcon :=
  ({ s with idx := sub32 s.idx 1 }.drawc (sub32 s.idx 1) 32).setCursor s.idx (sub32 s.idx 1)

/-- `fbcon_flip_cursor`, with the cursor to be updated. -/
def fbconFlipCursor (s : Fbcon) : Fbcon :=
  { s with cursorShow := !s.cursorShow, ops := s.ops ++ [.flip s.idx] }

/-- `fbcon_write`. -/
def fbconWrite (g : FbInfo) (fuel : Nat) (s : Fbcon) (buf : List UInt8) : EscRes (Fbcon × Nat) :=
  (conWrite (fbconPrintc g) fuel s buf).map fun s => (s, buf.length)

/-! ## the text mode console -/

def VGA_WIDTH : Nat := 80
def VGA_HEIGHT : Nat := 25

/-- The state of the console: the text memory and the bytes sent to the
cursor ports. -/
structure Vgacon where
  esc : Esc := {}
  idx : Nat := 0
  color : Nat := 7
  vidmem : Nat → Nat := fun _ => 0
  ports : List (Nat × Nat) := []

namespace Vgacon

/-- `endstr`: `mM`. -/
def endstr : List UInt8 := [109, 77]

/-- `vgacon_scroll`: the rows move up by one, and the last one is cleared. -/
def scroll (s : Vgacon) : Vgacon :=
  if s.idx < VGA_WIDTH * VGA_HEIGHT then s
  else
    let lr := VGA_WIDTH * (VGA_HEIGHT - 1)
    { s with
      idx := lr
      vidmem := fun i =>
        if i < lr * 2 then s.vidmem (i + VGA_WIDTH * 2)
        else if i < VGA_WIDTH * VGA_HEIGHT * 2 then if i % 2 = 0 then 0 else 7
        else s.vidmem i }

/-- `vgacon_set_cursor`. -/
def setCursor (s : Vgacon) : Vgacon :=
  { s with ports := s.ports ++
      [(0x3d4, 0x0e), (0x3d5, s.idx / 256 % 256), (0x3d4, 0x0f), (0x3d5, s.idx % 256)] }

/-- The body of the loop over style parameters. -/
def style (num : Nat) (p : Bool × Vgacon) : Bool × Vgacon :=
  if num = 0 then (false, { p.2 with color := 7 })
  else if num = 2 then (true, p.2)
  else if num = 1 then (false, p.2)
  else if 30 ≤ num ∧ num < 50 then
    let col := stcolors.getD ((num - 30) % 10) 0 + if p.1 then 8 else 0
    if (num - 30) / 10 ≠ 0 then (p.1, { p.2 with color := p.2.color &&& 0xf ||| col <<< 4 })
    else (p.1, { p.2 with color := p.2.color &&& 0xf0 ||| col })
  else p

/-- Interpret the sequence in the buffer. -/
def interpret (fuel : Nat) (s : Vgacon) : EscRes Vgacon := do
  let cmd ← s.esc.read (s.esc.nescbuf - 1)
  let s := { s with esc := s.esc.clear }
  if cmd = 109 then
    let p ← styleLoop style s.esc fuel 2 (false, s)
    return p.2
  else return s

/-- The first half of `vgacon_printc`: what the byte is. -/
def put (s : Vgacon) (c : UInt8) : EscRes Vgacon :=
  if c = 10 then return { s with idx := u32 (s.idx + (VGA_WIDTH - s.idx % VGA_WIDTH)) }
  else do
    let r ← s.esc.collect endstr c
    match r with
    | some esc => return { s with esc := esc }
    | none =>
        return { s with
          esc := s.esc.clear
          vidmem := fun i => if i = s.idx * 2 then c.toNat
            else if i = s.idx * 2 + 1 then s.color else s.vidmem i
          idx := u32 (s.idx + 1) }

end Vgacon

/-- `vgacon_printc`. -/
def vgaconPrintc (fuel : Nat) (s : Vgacon) (c : UInt8) : EscRes Vgacon := do
  let s ← s.put c
  let s ← if s.esc.escready then s.interpret fuel else pure s
  return s.scroll.setCursor

/-- The backspace of `vgacon_read`. -/
def vgaconBackspace (s : Vgacon) : Vgacon :=
  { s with
    idx := sub32 s.idx 1
    vidmem := fun i => if i = sub32 s.idx 1 * 2 then 0 else s.vidmem i }.setCursor

/-- `vgacon_write`. -/
def vgaconWrite (fuel : Nat) (s : Vgacon) (buf : List UInt8) : EscRes (Vgacon × Nat) :=
  (conWrite vgaconPrintc fuel s buf).map fun s => (s, buf.length)

/-! ## what the consoles have in common -/

/-- A call either moves the scan of the input on, or does not return. -/
def Follows {S : Type} (endstr : List UInt8) (keep : Bool) (esc : S → Esc)
    (printc : Nat → S → UInt8 → EscRes S) : Prop :=
  ∀ s c, (esc s).Waiting endstr →
    match (esc s).scan.next endstr keep c with
    | none => Hangs fun fuel => printc fuel s c
    | some q => ∃ s', Returns (fun fuel => printc fuel s c) s' ∧ (esc s').Waiting endstr ∧
        (esc s').scan = q

/-- What `printc` is made of: what the byte is, the command that may be ready
then, and the scrolling. -/
structure Parts {S : Type} (endstr : List UInt8) (keep : Bool) (esc : S → Esc)
    (printc : Nat → S → UInt8 → EscRes S) where
  put : S → UInt8 → EscRes S
  interpret : Nat → S → EscRes S
  post : S → S
  printc_eq : ∀ fuel s c, printc fuel s c = (put s c).bind fun s =>
    (if (esc s).escready then interpret fuel s else .ok s).bind fun s => .ok (post s)
  put_newline : ∀ s, ∃ s', put s 10 = .ok s' ∧ esc s' = esc s
  put_some : ∀ s c e', c ≠ 10 → (esc s).collect endstr c = .ok (some e') →
    ∃ s', put s c = .ok s' ∧ esc s' = e'
  put_none : ∀ s c, c ≠ 10 → (esc s).collect endstr c = .ok none → ∃ s', put s c = .ok s' ∧
    esc s' = if keep then esc s else (esc s).clear
  interpret_ends : ∀ s k, (esc s).Ready k →
    ¬ ((esc s).escbuf k = 109 ∧ wellFormed ((esc s).tail (k + 1) 2) = false) →
    ∃ s', Returns (fun fuel => interpret fuel s) s' ∧
      esc s' = (esc s).clear
  interpret_hangs : ∀ s k, (esc s).Ready k → (esc s).escbuf k = 109 →
    wellFormed ((esc s).tail (k + 1) 2) = false → Hangs fun fuel => interpret fuel s
  post_esc : ∀ s, esc (post s) = esc s

section follows

variable {S : Type} {endstr : List UInt8} {keep : Bool} {esc : S → Esc}
variable {printc : Nat → S → UInt8 → EscRes S} {s : S}

/-- **Writes**: the buffer is written, or the call does not return; either
way no index leaves the escape buffer. -/
theorem Follows.write_spec (h : Follows endstr keep esc printc) (hw : (esc s).Waiting endstr)
    (buf : List UInt8) :
    match (esc s).scan.run endstr keep buf with
    | none => Hangs fun fuel => conWrite printc fuel s buf
    | some q => ∃ s', Returns (fun fuel => conWrite printc fuel s buf) s' ∧
        (esc s').Waiting endstr ∧ (esc s').scan = q := by
  induction buf generalizing s with
  | nil => exact ⟨s, returns_ok, hw, rfl⟩
  | cons c buf ih =>
      have hc := h s c hw
      rw [Scan.run]
      cases hq : (esc s).scan.next endstr keep c with
      | none =>
          rw [hq] at hc
          exact hc.bind
      | some q =>
          rw [hq] at hc
          obtain ⟨s', hret, hw', rfl⟩ := hc
          have hrest := ih hw'
          rw [Option.bind_some]
          cases hr : (esc s').scan.run endstr keep buf with
          | none =>
              rw [hr] at hrest
              exact hret.bind_hangs hrest
          | some q =>
              rw [hr] at hrest
              obtain ⟨s'', hret', hw'', hq''⟩ := hrest
              exact ⟨s'', hret.bind hret', hw'', hq''⟩

/-- The style loop of a console leaves the buffer alone. -/
theorem styleLoop_esc {style : Nat → Bool × S → Bool × S} {e : Esc} {k : Nat}
    (hst : ∀ v p, esc (style v p).2 = esc p.2) (hready : e.Ready k)
    (hwf : wellFormed (e.tail (k + 1) 2) = true) (s : S) : ∃ p,
      Returns (fun fuel => styleLoop style e.clear fuel 2 (false, s)) p ∧ esc p.2 = esc s :=
  styleLoop_returns (e := e.clear) (I := fun p => esc p.2 = esc s)
    (fun v p hp => (hst v p).trans hp) hready.nul hready.lt (Nat.le_succ_of_le hready.two) hwf rfl

/-- A byte after which nothing is ready. -/
theorem Parts.returns_waiting (P : Parts endstr keep esc printc) {c : UInt8} {s' : S}
    (hput : P.put s c = .ok s') (hready : (esc s').escready = false) :
    Returns (fun fuel => printc fuel s c) (P.post s') := by
  simp only [P.printc_eq, hput, hready, Except.bind]
  exact returns_ok

/-- **One byte** of a console made of such parts. -/
theorem Parts.follows (P : Parts endstr keep esc printc) (hm : 109 ∈ endstr) :
    Follows endstr keep esc printc := by
  intro s c hw
  by_cases hc : c = 10
  · subst hc
    obtain ⟨s', hput, hesc⟩ := P.put_newline s
    refine ⟨P.post s', P.returns_waiting hput (by rw [hesc, hw.ready]), ?_, ?_⟩
    · rw [P.post_esc, hesc]
      exact hw
    · rw [P.post_esc, hesc]
  · obtain ⟨hcol, -, hnext⟩ | ⟨e', hcol, hw', hnext⟩ | ⟨e', k, hcol, hready, hnext⟩ :=
      Esc.collect_cases keep hm hw hc
    · rw [hnext]
      obtain ⟨s', hput, hesc⟩ := P.put_none s c hc hcol
      cases keep with
      | true =>
          refine ⟨P.post s', P.returns_waiting hput (by simp [hesc, hw.ready]), ?_, ?_⟩
          · simpa [P.post_esc, hesc] using hw
          · simp [P.post_esc, hesc]
      | false =>
          have hesc' : esc s' = (esc s).clear := hesc
          refine ⟨P.post s', P.returns_waiting hput (by rw [hesc']; rfl), ?_, ?_⟩
          · rw [P.post_esc, hesc']
            exact Esc.waiting_clear
          · rw [P.post_esc, hesc']
            rfl
    · rw [hnext]
      obtain ⟨s', hput, hesc⟩ := P.put_some s c e' hc hcol
      refine ⟨P.post s', P.returns_waiting hput (by rw [hesc, hw'.ready]), ?_, ?_⟩
      · rw [P.post_esc, hesc]
        exact hw'
      · rw [P.post_esc, hesc]
    · rw [hnext]
      obtain ⟨s', hput, hesc⟩ := P.put_some s c e' hc hcol
      subst hesc
      by_cases hbad : (esc s').escbuf k = 109 ∧ wellFormed ((esc s').tail (k + 1) 2) = false
      · rw [if_pos hbad]
        show Hangs fun fuel => printc fuel s c
        simp only [P.printc_eq, hput, hready.ready, if_true, Except.bind]
        exact (P.interpret_hangs s' k hready hbad.1 hbad.2).bind
      · rw [if_neg hbad]
        obtain ⟨s'', hret, hesc'⟩ := P.interpret_ends s' k hready hbad
        refine ⟨P.post s'', ?_, ?_, ?_⟩
        · simp only [P.printc_eq, hput, hready.ready, if_true, Except.bind]
          exact hret.bind returns_ok
        · rw [P.post_esc, hesc']
          exact Esc.waiting_clear
        · rw [P.post_esc, hesc']
          rfl

end follows

/-! ## the two consoles -/

namespace Fbcon

@[simp] theorem setCursor_esc (old new : Nat) (s : Fbcon) : (s.setCursor old new).esc = s.esc := by
  unfold setCursor
  split <;> rfl

@[simp] theorem scroll_esc (g : FbInfo) (s : Fbcon) : (s.scroll g).esc = s.esc := by
  unfold scroll
  split <;> simp

theorem style_esc (num : Nat) (p : Bool × Fbcon) : (style num p).2.esc = p.2.esc := by
  unfold style
  split_ifs <;> rfl

theorem clear_esc (l : List Nat) (s : Fbcon) :
    (l.foldl (fun s i => s.drawc i 32) s).esc = s.esc := by
  induction l generalizing s with
  | nil => rfl
  | cons i l ih => exact ih (s.drawc i 32)

end Fbcon

/-- `fbcon_printc` in parts. -/
def fbconParts (g : FbInfo) : Parts Fbcon.endstr true Fbcon.esc (fbconPrintc g) where
  put s c := s.put g c
  interpret fuel s := s.interpret g fuel
  post s := s.scroll g
  printc_eq fuel s c := by
    refine congrArg (Except.bind (s.put g c)) (funext fun s => ?_)
    split <;> rfl
  put_newline s := ⟨_, rfl, by simp⟩
  put_some s c e' hc h := ⟨{ s with esc := e' }, by simp [Fbcon.put, hc, h]; rfl, rfl⟩
  put_none s c hc h := ⟨_, by simp [Fbcon.put, hc, h]; rfl, by simp [Fbcon.drawc]⟩
  interpret_ends s k hready hbad := by
    simp only [Fbcon.interpret, hready.read, bind, Except.bind]
    by_cases hm : s.esc.escbuf k = 109
    · obtain ⟨p, hret, hesc⟩ := styleLoop_esc Fbcon.style_esc hready
        (by simpa [hm] using hbad) { s with esc := s.esc.clear }
      refine ⟨p.2, ?_, hesc⟩
      simp only [hm, if_true]
      exact hret.bind returns_ok
    · simp only [hm, if_false]
      by_cases hH : s.esc.escbuf k = 72
      · exact ⟨_, by simp only [hH, if_true]; exact returns_ok, by simp⟩
      · simp only [hH, if_false]
        by_cases hJ : s.esc.escbuf k = 74
        · obtain ⟨q, v, hret, -⟩ := readEscInt_spec (e := s.esc.clear) hready.nul hready.lt
            (Nat.le_succ_of_le hready.two) 0
          simp only [hJ, if_true]
          by_cases hv : v = 2
          · exact ⟨_, hret.bind (by simp only [hv, if_true]; exact returns_ok),
              Fbcon.clear_esc _ _⟩
          · exact ⟨_, hret.bind (by simp only [hv, if_false]; exact returns_ok), rfl⟩
        · exact ⟨_, by simp only [hJ, if_false]; exact returns_ok, rfl⟩
  interpret_hangs s k hready hcmd hwf := by
    simp only [Fbcon.interpret, hready.read, hcmd, bind, Except.bind, if_true]
    exact (styleLoop_hangs (e := s.esc.clear) hready.nul hready.lt
      (Nat.le_succ_of_le hready.two) hwf _).bind
  post_esc := Fbcon.scroll_esc g

namespace Vgacon

@[simp] theorem setCursor_esc (s : Vgacon) : s.setCursor.esc = s.esc := rfl

@[simp] theorem scroll_esc (s : Vgacon) : s.scroll.esc = s.esc := by
  unfold scroll
  split <;> rfl

theorem style_esc (num : Nat) (p : Bool × Vgacon) : (style num p).2.esc = p.2.esc := by
  unfold style
  split_ifs <;> rfl

end Vgacon

theorem vgaconBackspace_esc (s : Vgacon) : (vgaconBackspace s).esc = s.esc := by
  rw [vgaconBackspace, Vgacon.setCursor_esc]

/-- `vgacon_printc` in parts. -/
def vgaconParts : Parts Vgacon.endstr false Vgacon.esc vgaconPrintc where
  put := Vgacon.put
  interpret fuel s := s.interpret fuel
  post s := s.scroll.setCursor
  printc_eq fuel s c := by
    refine congrArg (Except.bind (s.put c)) (funext fun s => ?_)
    split <;> rfl
  put_newline s := ⟨_, rfl, rfl⟩
  put_some s c e' hc h := ⟨{ s with esc := e' }, by simp [Vgacon.put, hc, h]; rfl, rfl⟩
  put_none s c hc h := ⟨_, by simp [Vgacon.put, hc, h]; rfl, rfl⟩
  interpret_ends s k hready hbad := by
    simp only [Vgacon.interpret, hready.read, bind, Except.bind]
    by_cases hm : s.esc.escbuf k = 109
    · obtain ⟨p, hret, hesc⟩ := styleLoop_esc Vgacon.style_esc hready
        (by simpa [hm] using hbad) { s with esc := s.esc.clear }
      refine ⟨p.2, ?_, hesc⟩
      simp only [hm, if_true]
      exact hret.bind returns_ok
    · exact ⟨_, by simp only [hm, if_false]; exact returns_ok, rfl⟩
  interpret_hangs s k hready hcmd hwf := by
    simp only [Vgacon.interpret, hready.read, hcmd, bind, Except.bind, if_true]
    exact (styleLoop_hangs (e := s.esc.clear) hready.nul hready.lt
      (Nat.le_succ_of_le hready.two) hwf _).bind
  post_esc s := by simp

/-! ## the states reached earlier -/

/-- What changes a console: a byte printed by a write or echoed by a read,
the backspace of a read, the cursor blinking. -/
inductive ConEvent where
  | printc (c : UInt8)
  | backspace
  | flip
  deriving DecidableEq, Repr

/-- The framebuffer console. -/
def fbconSystem (g : FbInfo) : System Fbcon ConEvent where
  init s := s = {}
  step s e s' := match e with
    | .printc c => ∃ fuel, fbconPrintc g fuel s c = .ok s'
    | .backspace => s' = fbconBackspace s
    | .flip => s' = fbconFlipCursor s

/-- The text mode console. -/
def vgaconSystem : System Vgacon ConEvent where
  init s := s = {}
  step s e s' := match e with
    | .printc c => ∃ fuel, vgaconPrintc fuel s c = .ok s'
    | .backspace => s' = vgaconBackspace s
    | .flip => False

section follows

variable {S : Type} {endstr : List UInt8} {keep : Bool} {esc : S → Esc}
variable {printc : Nat → S → UInt8 → EscRes S} {s s' : S}

/-- A byte that has been printed leaves the parser between two bytes. -/
theorem Follows.waiting (h : Follows endstr keep esc printc) (hw : (esc s).Waiting endstr)
    {c : UInt8} {fuel : Nat} (hp : printc fuel s c = .ok s') : (esc s').Waiting endstr := by
  have hc := h s c hw
  cases hq : (esc s).scan.next endstr keep c with
  | none =>
      rw [hq] at hc
      exact absurd hp (hc.ne_ok fuel)
  | some q =>
      rw [hq] at hc
      obtain ⟨t, hret, ht, -⟩ := hc
      rw [hret.eq_of_ok hp]
      exact ht

theorem conWrite_append (fuel : Nat) (a b : List UInt8) (s : S) : conWrite printc fuel s (a ++ b) =
    (conWrite printc fuel s a).bind fun s => conWrite printc fuel s b := by
  induction a generalizing s with
  | nil => rfl
  | cons c a ih =>
      simp only [List.cons_append, conWrite]
      cases printc fuel s c with
      | error e => rfl
      | ok s' => exact ih s'

/-- The split into writes does not matter. -/
theorem writeAll_eq (fuel : Nat) (bufs : List (List UInt8)) (s : S) :
    writeAll (fun s buf => (conWrite printc fuel s buf).map fun s => (s, buf.length)) s bufs =
      conWrite printc fuel s bufs.flatten := by
  induction bufs generalizing s with
  | nil => rfl
  | cons buf bufs ih =>
      rw [writeAll, List.flatten_cons, conWrite_append]
      cases conWrite printc fuel s buf with
      | error e => rfl
      | ok s' => exact ih s'

/-- **All writes** return, and stay inside the escape buffer, exactly when
the scan of their bytes meets no malformed style sequence. -/
theorem Follows.ends_iff (h : Follows endstr keep esc printc) (hw : (esc s).Waiting endstr)
    (bufs : List (List UInt8)) :
    ((∀ fuel, conWrite printc fuel s bufs.flatten ≠ .error (.fault .index)) ∧
        Ends fun fuel => conWrite printc fuel s bufs.flatten) ↔
      ((esc s).scan.run endstr keep bufs.flatten).isSome = true := by
  have hrun := h.write_spec hw bufs.flatten
  cases hq : (esc s).scan.run endstr keep bufs.flatten with
  | none =>
      rw [hq] at hrun
      simpa using fun _ => hrun.not_ends
  | some q =>
      rw [hq] at hrun
      obtain ⟨s', hret, -⟩ := hrun
      simpa using ⟨fun fuel => hret.ne_fault fuel .index, s', hret⟩

end follows

theorem fbcon_follows (g : FbInfo) : Follows Fbcon.endstr true Fbcon.esc (fbconPrintc g) :=
  (fbconParts g).follows (by decide)

theorem vgacon_follows : Follows Vgacon.endstr false Vgacon.esc vgaconPrintc :=
  vgaconParts.follows (by decide)

theorem fbcon_waiting {g : FbInfo} {s : Fbcon} (h : (fbconSystem g).Reachable System.Any s) :
    s.esc.Waiting Fbcon.endstr := by
  refine h.invariant (I := fun s => s.esc.Waiting Fbcon.endstr) (fun s hs => ?_)
    fun s e s' hw _ hs => ?_
  · rw [show s = {} from hs]
    exact Esc.waiting_clear (e := {})
  · cases e with
    | printc c =>
        obtain ⟨fuel, hp⟩ := hs
        exact (fbcon_follows g).waiting hw hp
    | backspace =>
        rw [show s' = fbconBackspace s from hs]
        simpa [fbconBackspace, Fbcon.drawc] using hw
    | flip =>
        rw [show s' = fbconFlipCursor s from hs]
        exact hw

theorem vgacon_waiting {s : Vgacon} (h : vgaconSystem.Reachable System.Any s) :
    s.esc.Waiting Vgacon.endstr := by
  refine h.invariant (I := fun s => s.esc.Waiting Vgacon.endstr) (fun s hs => ?_)
    fun s e s' hw _ hs => ?_
  · rw [show s = {} from hs]
    exact Esc.waiting_clear (e := {})
  · cases e with
    | printc c =>
        obtain ⟨fuel, hp⟩ := hs
        exact vgacon_follows.waiting hw hp
    | backspace =>
        have hb : s' = vgaconBackspace s := hs
        rw [hb, vgaconBackspace_esc]
        exact hw
    | flip => exact absurd hs id

theorem fbconWrite_all (g : FbInfo) (fuel : Nat) (s : Fbcon) (bufs : List (List UInt8)) :
    writeAll (fbconWrite g fuel) s bufs = conWrite (fbconPrintc g) fuel s bufs.flatten :=
  writeAll_eq fuel bufs s

theorem vgaconWrite_all (fuel : Nat) (s : Vgacon) (bufs : List (List UInt8)) :
    writeAll (vgaconWrite fuel) s bufs = conWrite vgaconPrintc fuel s bufs.flatten :=
  writeAll_eq fuel bufs s

/-- What console output promises: every write returns, and no access leaves
the escape buffer. -/
def WritesEnd {S : Type} (write : Nat → S → List UInt8 → EscRes (S × Nat)) (s : S)
    (bufs : List (List UInt8)) : Prop :=
  (∀ fuel, writeAll (write fuel) s bufs ≠ .error (.fault .index)) ∧
    Ends fun fuel => writeAll (write fuel) s bufs

/-- **Console output**: from any state reached earlier and in any split into
writes, the output of either console ends exactly when every style sequence
in it has well-formed parameters. -/
theorem writesEnd_iff (bufs : List (List UInt8)) :
    (∀ g s, (fbconSystem g).Reachable System.Any s → (WritesEnd (fbconWrite g) s bufs ↔
      (s.esc.scan.run Fbcon.endstr true bufs.flatten).isSome = true)) ∧
    ∀ s, vgaconSystem.Reachable System.Any s → (WritesEnd vgaconWrite s bufs ↔
      (s.esc.scan.run Vgacon.endstr false bufs.flatten).isSome = true) := by
  constructor
  · intro g s hs
    simpa only [WritesEnd, fbconWrite_all] using (fbcon_follows g).ends_iff (fbcon_waiting hs) bufs
  · intro s hs
    simpa only [WritesEnd, vgaconWrite_all] using vgacon_follows.ends_iff (vgacon_waiting hs) bufs

/-- A style sequence that is split behind the escape character. -/
theorem writesEnd_example :
    WritesEnd (fbconWrite ⟨640, 480, by decide, by decide⟩) {} [[27], [91, 51, 49, 109, 65]] ∧
      WritesEnd vgaconWrite {} [[27], [91, 51, 49, 109, 65]] :=
  ⟨((writesEnd_iff _).1 _ {} (System.Reachable.of_init rfl)).mpr rfl,
    ((writesEnd_iff _).2 {} (System.Reachable.of_init rfl)).mpr rfl⟩

/-- The style loop stays at the `x` of `ESC [ x m`. -/
theorem not_writesEnd :
    ¬ WritesEnd (fbconWrite ⟨640, 480, by decide, by decide⟩) {} [[27, 91, 120, 109]] ∧
      ¬ WritesEnd vgaconWrite {} [[27, 91, 120, 109]] := by
  constructor
  · rintro ⟨-, hends⟩
    have hrun := (fbcon_follows ⟨640, 480, by decide, by decide⟩).write_spec (s := {})
      (Esc.waiting_clear (e := {})) [27, 91, 120, 109]
    refine Hangs.not_ends hrun ?_
    simpa only [fbconWrite_all, List.flatten_singleton] using hends
  · rintro ⟨-, hends⟩
    have hrun := vgacon_follows.write_spec (s := {}) (Esc.waiting_clear (e := {})) [27, 91, 120, 109]
    refine Hangs.not_ends hrun ?_
    simpa only [vgaconWrite_all, List.flatten_singleton] using hends

end Eclair
