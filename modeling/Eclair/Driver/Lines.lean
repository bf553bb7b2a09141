import Mathlib.Data.List.GetD
import Mathlib.Logic.Function.Basic
import Eclair.Driver.Console

/-!
# Eclair.Driver.Lines

Line input of the text consoles: the loop over the keys that `fbcon_read`
and `vgacon_read` have in common, and the line buffer of `fbcon_read`
(`kernel/driver/fbcon.c`), which serves a long line over later reads.

Keys come from a list, and a read that finds no more of them waits.
`expected` is what the reads should return for the keys: the edited lines,
each cut to what the line buffer has room for, with a newline behind it.
-/

namespace Eclair

open Fuel

/-! ## keys -/

def ECK_BACKSPACE : Nat := 51
def ECK_LEFT_SHIFT : Nat := 52
def ECK_RIGHT_SHIFT : Nat := 53
def ECK_RETURN : Nat := 62
def ECK_COUNT : Nat := 102
def ECK_CODE : Nat := 0xff
def ECK_RELEASE : Nat := 0x100

/-- `ascii`. -/
def ascii : List UInt8 :=
  [63, 48, 49, 50, 51, 52, 53, 54, 55, 56, 57, 97, 98, 99, 100, 101, 102, 103, 104, 105, 106, 107,
   108, 109, 110, 111, 112, 113, 114, 115, 116, 117, 118, 119, 120, 121, 122, 96, 59, 39, 40, 41, 91,
   93, 47, 92, 44, 46, 61, 45, 32, 63, 63, 63, 63, 63, 63, 63, 63, 63, 63, 63, 63, 63, 63, 63, 63, 63,
   63, 63, 63, 63, 63, 63, 63, 48, 49, 50, 51, 52, 53, 54, 55, 56, 57, 47, 42, 45, 43, 46, 63, 63, 63,
   63, 63, 63, 63, 63, 63, 63, 63, 63, 63]

/-- `ascii_shift`. -/
def asciiShift : List UInt8 :=
  [63, 41, 33, 64, 35, 36, 37, 94, 38, 42, 40, 65, 66, 67, 68, 69, 70, 71, 72, 73, 74, 75, 76, 77, 78,
   79, 80, 81, 82, 83, 84, 85, 86, 87, 88, 89, 90, 126, 58, 34, 40, 41, 123, 125, 63, 124, 60, 62, 43,
   95, 32, 63, 63, 63, 63, 63, 63, 63, 63, 63, 63, 63, 63, 63, 63, 63, 63, 63, 63, 63, 63, 63, 63, 63,
   63, 48, 49, 50, 51, 52, 53, 54, 55, 56, 57, 47, 42, 45, 43, 46, 63, 63, 63, 63, 63, 63, 63, 63, 63,
   63, 63, 63, 63]

/-- What the loops do with a key other than return. -/
inductive KeyAct where
  | ignore
  | shift (on : Bool)
  | erase
  | type (code : Nat)

/-- The branches of the loops. -/
def keyAct (key : Nat) : KeyAct :=
  let keyrel := key &&& ECK_RELEASE
  let code := key &&& ECK_CODE
  if ECK_COUNT ≤ code then .ignore
  else if code = ECK_LEFT_SHIFT ∨ code = ECK_RIGHT_SHIFT then .shift (keyrel = 0)
  else if keyrel ≠ 0 then .ignore
  else if code = ECK_BACKSPACE then .erase
  else .type code

/-- `shift? ascii_shift[key]: ascii[key]`. -/
def typed (shift : Bool) (code : Nat) : UInt8 := (if shift then asciiShift else ascii).getD code 0

/-! ## the loop over the keys -/

inductive LineFault where
  | escape (e : EscFault)
  /-- a byte outside the buffer of the line -/
  | outside
  deriving DecidableEq, Repr

/-- A function of the console in a read. -/
def liftEsc {α : Type} : EscRes α → Except (Stop LineFault) α
  | .ok x => .ok x
  | .error .fuel => .error .fuel
  | .error (.fault e) => .error (.fault (.escape e))

/-- The line that is typed: its buffer, and the variables of the loop. -/
structure Line where
  buf : Nat → UInt8
  nread : Nat
  shift : Bool

/-- Store a byte of the line if it is below `limit`, in a buffer of `size`
bytes. -/
def Line.store (limit size : Nat) (l : Line) (i : Nat) (c : UInt8) : Except (Stop LineFault) Line :=
  if i < limit then
    if i < size then .ok { l with buf := Function.update l.buf i c } else .error (.fault .outside)
  else .ok l

/-- One key other than return. -/
def conKey {S : Type} (printc : Nat → S → UInt8 → EscRes S) (backspace : S → S) (limit size fuel key : Nat)
    (con : S) (l : Line) : Except (Stop LineFault) (S × Line) :=
  match keyAct key with
  | .ignore => .ok (con, l)
  | .shift on => .ok (con, { l with shift := on })
  | .erase =>
      if l.nread = 0 then .ok (con, l)
      else ({ l with nread := l.nread - 1 }.store limit size (l.nread - 1) 0).bind fun l =>
        .ok (backspace con, l)
  | .type code =>
      (liftEsc (printc fuel con (typed l.shift code))).bind fun con =>
      (l.store limit size l.nread (typed l.shift code)).bind fun l =>
        .ok (con, { l with nread := u32 (l.nread + 1) })

/-! ## `fbcon_read` -/

def Fbcon.LINEBUFSZ : Nat := 4096

/-- The console with its line buffer. -/
structure FbTty where
  con : Fbcon
  linebuf : Nat → UInt8
  nlinebuf : Nat
  plinebuf : Nat

/-- One key in `fbcon_read`. -/
def fbconKey (g : FbInfo) : Nat → Nat → Fbcon → Line → Except (Stop LineFault) (Fbcon × Line) :=
  conKey (fbconPrintc g) fbconBackspace (Fbcon.LINEBUFSZ - 2) Fbcon.LINEBUFSZ

/-- The keys up to return; without return there is no line yet. -/
def fbconLoop (g : FbInfo) (fuel : Nat) :
    List Nat → Fbcon → Line → Except (Stop LineFault) (Option (Fbcon × Line × List Nat))
  | [], _, _ => .ok none
  | key :: keys, con, l =>
      if key = ECK_RETURN then .ok (some (con, l, keys))
      else (fbconKey g fuel key con l).bind fun r => fbconLoop g fuel keys r.1 r.2

/-- `memcpy(buf, linebuf+p, n)`. -/
def copyLine (linebuf : Nat → UInt8) (p n : Nat) : Except (Stop LineFault) Bytes :=
  if n = 0 ∨ p + n ≤ Fbcon.LINEBUFSZ then .ok ((List.range n).map fun i => linebuf (p + i))
  else .error (.fault .outside)

/-- The end of a read: it fails, waits for keys, or returns bytes, with the
keys that it has not used. -/
inductive ReadRes where
  | fail
  | wait
  | data (bytes : Bytes) (tty : FbTty) (keys : List Nat)

/-- The end of the line. -/
def fbconReturn (nbytes : Nat) (keys : List Nat) (s : FbTty) (con : Fbcon) (l : Line) :
    Except (Stop LineFault) ReadRes :=
  let l := if l.nread ≤ Fbcon.LINEBUFSZ - 2 then
    { l with buf := Function.update l.buf l.nread 10, nread := l.nread + 1 } else l
  (copyLine l.buf 0 (min l.nread nbytes)).bind fun bytes =>
    let s := { s with con := con, linebuf := l.buf }
    .ok (.data bytes
      (if l.nread > nbytes then { s with plinebuf := nbytes, nlinebuf := l.nread - nbytes } else s) keys)

/-- `fbcon_read`; there are no keys at all without a keyboard. -/
def fbconRead (g : FbInfo) (fuel nbytes : Nat) (kbd : Option (List Nat)) (s : FbTty) :
    Except (Stop LineFault) ReadRes :=
  if s.nlinebuf ≠ 0 then
    let toread := min s.nlinebuf nbytes
    (copyLine s.linebuf s.plinebuf toread).bind fun bytes =>
      .ok (.data bytes { s with nlinebuf := s.nlinebuf - toread, plinebuf := s.plinebuf + toread }
        (kbd.getD []))
  else match kbd with
    | none => .ok .fail
    | some keys =>
        (fbconLoop g fuel keys s.con ⟨s.linebuf, 0, false⟩).bind fun r =>
          match r with
          | none => .ok .wait
          | some (con, l, keys) =>
              (liftEsc (fbconPrintc g fuel con 10)).bind fun con => fbconReturn nbytes keys s con l

/-- Reads of these sizes, one after the other, until one has to wait. -/
def fbconReads (g : FbInfo) (fuel : Nat) :
    List Nat → List Nat → FbTty → Except (Stop LineFault) (List Bytes)
  | [], _, _ => .ok []
  | n :: sizes, keys, s =>
      (fbconRead g fuel n (some keys) s).bind fun r =>
        match r with
        | .data bytes s keys => (fbconReads g fuel sizes keys s).map (bytes :: ·)
        | _ => .ok []

/-! ## what the reads should return -/

/-- The characters that the line buffer has room for. -/
def LINECAP : Nat := Fbcon.LINEBUFSZ - 2

/-- A key edits the line and the state of shift. -/
def editKey (e : Bytes × Bool) (key : Nat) : Bytes × Bool :=
  match keyAct key with
  | .ignore => e
  | .shift on => (e.1, on)
  | .erase => (e.1.dropLast, e.2)
  | .type code => (e.1 ++ [typed e.2 code], e.2)

/-- The edited lines of the keys, from a line that is begun on. -/
def expected : Bytes × Bool → List Nat → Bytes
  | _, [] => []
  | e, key :: keys =>
      if key = ECK_RETURN then e.1.take LINECAP ++ 10 :: expected ([], false) keys
      else expected (editKey e key) keys

/-- **The reads are right**: they stay in the line buffer and return bytes,
which are the front of what is expected; once a read waits they are all. -/
def ReadsLines (g : FbInfo) (s : FbTty) (keys sizes : List Nat) : Prop :=
  ∃ outs, Returns (fun fuel => fbconReads g fuel sizes keys s) outs ∧ [] ∉ outs ∧
    outs.flatten <+: expected ([], false) keys ∧
    (outs.length < sizes.length → outs.flatten = expected ([], false) keys)

/-- No line is longer than the line buffer has room for when return is
pressed, and none is ever so long that its length wraps. -/
def LinesFit : Bytes × Bool → List Nat → Prop
  | _, [] => True
  | e, key :: keys =>
      if key = ECK_RETURN then e.1.length ≤ LINECAP ∧ LinesFit ([], false) keys
      else e.1.length + 1 < 2 ^ 32 ∧ LinesFit (editKey e key) keys

/-! ## one key -/

variable {g : FbInfo} {con : Fbcon} {l : Line} {s : FbTty} {e : Bytes × Bool} {keys : List Nat} {key n : Nat}

theorem returns_liftEsc {α : Type} {f : Nat → EscRes α} {x : α} (h : Returns f x) :
    Returns (fun m => liftEsc (f m)) x := by
  obtain ⟨k, hk⟩ := h
  refine ⟨k, fun m => ?_⟩
  dsimp only
  rw [hk]
  split <;> rfl

theorem typed_mem (shift : Bool) {code : Nat} (h : code < ECK_COUNT) :
    typed shift code ∈ ascii ++ asciiShift := by
  cases shift
  · have hlt : code < ascii.length := Nat.lt_trans h (by decide)
    rw [typed, if_neg Bool.false_ne_true, List.getD_eq_getElem?_getD, List.getElem?_eq_getElem hlt]
    exact List.mem_append_left _ (List.getElem_mem hlt)
  · have hlt : code < asciiShift.length := Nat.lt_trans h (by decide)
    rw [typed, if_pos rfl, List.getD_eq_getElem?_getD, List.getElem?_eq_getElem hlt]
    exact List.mem_append_right _ (List.getElem_mem hlt)

theorem keyAct_type {code : Nat} (h : keyAct key = .type code) : code < ECK_COUNT := by
  simp only [keyAct] at h
  split at h
  · contradiction
  · next hlt =>
      split at h
      · contradiction
      · split at h
        · contradiction
        · split at h
          · contradiction
          · obtain rfl := KeyAct.type.inj h
            exact Nat.not_le.mp hlt

/-- No key types the escape character. -/
theorem typed_ne_esc (shift : Bool) {code : Nat} (h : code < ECK_COUNT) : typed shift code ≠ ESC := by
  intro hesc
  have hmem := typed_mem shift h
  rw [hesc] at hmem
  exact absurd hmem (by decide)

/-- The console is not inside an escape sequence. -/
def Fbcon.Idle (s : Fbcon) : Prop := s.esc.Waiting Fbcon.endstr ∧ s.esc.scan = .out

/-- An ordinary character is printed. -/
theorem Fbcon.Idle.printc (h : con.Idle) {c : UInt8} (hc : c ≠ ESC) :
    ∃ con', Returns (fun fuel => fbconPrintc g fuel con c) con' ∧ con'.Idle := by
  have hf := fbcon_follows g con c h.1
  have hnext : con.esc.scan.next Fbcon.endstr true c = some .out := by
    rw [h.2, Scan.next, if_neg hc]
    split <;> rfl
  rw [hnext] at hf
  obtain ⟨con', hret, hw, hscan⟩ := hf
  exact ⟨con', hret, hw, hscan⟩

theorem Fbcon.Idle.backspace (h : con.Idle) : (fbconBackspace con).Idle := by
  have hesc : (fbconBackspace con).esc = con.esc := by
    rw [fbconBackspace, Fbcon.setCursor_esc, Fbcon.drawc]
  rw [Fbcon.Idle, hesc]
  exact h

/-- The buffer holds what fits of the line. -/
structure Types (l : Line) (e : Bytes × Bool) : Prop where
  nread : l.nread = e.1.length
  shift : l.shift = e.2
  buf : ∀ i, i < e.1.length → i < LINECAP → l.buf i = e.1.getD i 0

theorem store_of_lt {i : Nat} {c : UInt8} (h : i < LINECAP) : l.store (Fbcon.LINEBUFSZ - 2) Fbcon.LINEBUFSZ i c =
    .ok { l with buf := Function.update l.buf i c } := by
  have hlimit : i < Fbcon.LINEBUFSZ - 2 := h
  have hlt : i < Fbcon.LINEBUFSZ := Nat.lt_of_lt_of_le h (by decide)
  rw [Line.store, if_pos hlimit, if_pos hlt]

theorem store_of_le {i : Nat} {c : UInt8} (h : LINECAP ≤ i) :
    l.store (Fbcon.LINEBUFSZ - 2) Fbcon.LINEBUFSZ i c = .ok l := if_neg (Nat.not_lt.mpr h)

/-- A store behind the line, or of a byte that is given up, keeps what is
in front of it. -/
theorem store_spec {i : Nat} {c : UInt8} (l : Line) : ∃ l', l.store (Fbcon.LINEBUFSZ - 2) Fbcon.LINEBUFSZ i c = .ok l' ∧
    l'.nread = l.nread ∧ l'.shift = l.shift ∧ (∀ j, j ≠ i → l'.buf j = l.buf j) ∧
      (i < LINECAP → l'.buf i = c) := by
  by_cases h : i < LINECAP
  · exact ⟨_, store_of_lt h, rfl, rfl, fun j hj => Function.update_of_ne hj _ _,
      fun _ => Function.update_self _ _ _⟩
  · exact ⟨l, store_of_le (Nat.not_lt.mp h), rfl, rfl, fun _ _ => rfl, fun hlt => absurd hlt h⟩

/-- **Key lemma**: a key edits the line, also where it is longer than the
buffer. -/
theorem fbconKey_types (key : Nat) (hc : con.Idle) (h : Types l e) (hlt : e.1.length + 1 < 2 ^ 32) :
    ∃ con' l', Returns (fun fuel => fbconKey g fuel key con l) (con', l') ∧ con'.Idle ∧
      Types l' (editKey e key) := by
  simp only [fbconKey, conKey, editKey]
  cases hact : keyAct key with
  | ignore => exact ⟨con, l, returns_ok, hc, h⟩
  | shift on => exact ⟨con, _, returns_ok, hc, h.nread, rfl, h.buf⟩
  | erase =>
      dsimp only
      by_cases h0 : l.nread = 0
      · have hnil : e.1 = [] := List.length_eq_zero_iff.mp (h.nread.symm.trans h0)
        simp only [if_pos h0]
        refine ⟨con, l, returns_ok, hc, ?_, h.shift, ?_⟩ <;> simp [hnil, h0]
      · obtain ⟨l', hstore, hn, hs, hbuf, -⟩ := store_spec (i := l.nread - 1) (c := 0)
          { l with nread := l.nread - 1 }
        simp only [if_neg h0, hstore, Except.bind]
        refine ⟨_, l', returns_ok, hc.backspace, ?_, hs.trans h.shift, fun i hi hcap => ?_⟩
        · rw [hn, List.length_dropLast, h.nread]
        · rw [List.length_dropLast, ← h.nread] at hi
          rw [hbuf i (by omega)]
          dsimp only
          rw [h.buf i (by rw [← h.nread]; omega) hcap, List.getD_eq_getElem?_getD,
            List.getD_eq_getElem?_getD, List.getElem?_dropLast, if_pos (by rw [← h.nread]; omega)]
  | type code =>
      dsimp only
      obtain ⟨con', hret, hc'⟩ := hc.printc (g := g) (typed_ne_esc l.shift (keyAct_type hact))
      obtain ⟨l', hstore, hn, hs, hbuf, hset⟩ := store_spec (i := l.nread) (c := typed l.shift code) l
      refine ⟨con', { l' with nread := u32 (l.nread + 1) }, ?_, hc', ?_, hs.trans h.shift, fun i hi hcap => ?_⟩
      · refine (returns_liftEsc hret).bind ?_
        simp only [hstore, Except.bind, hn]
        exact returns_ok
      · rw [List.length_append, List.length_singleton, ← h.nread]
        exact u32_of_lt (h.nread ▸ hlt)
      · rw [List.length_append, List.length_singleton] at hi
        by_cases hlast : i < e.1.length
        · rw [List.getD_append _ _ _ _ hlast, ← h.buf i hlast hcap]
          exact hbuf i (by rw [h.nread]; omega)
        · have hend : i = l.nread := by rw [h.nread]; omega
          rw [List.getD_append_right _ _ _ _ (Nat.not_lt.mp hlast), ← h.nread, hend, Nat.sub_self, ← h.shift]
          exact hset (hend ▸ hcap)

/-! ## one read -/

/-- **Loop lemma**: the keys up to return edit one line; without return the
read waits, and nothing is expected yet. -/
theorem fbconLoop_spec (hc : con.Idle) (h : Types l e) (hfit : LinesFit e keys) :
    (Returns (fun fuel => fbconLoop g fuel keys con l) none ∧ expected e keys = []) ∨
      ∃ con' l' keys' e', Returns (fun fuel => fbconLoop g fuel keys con l) (some (con', l', keys')) ∧
        con'.Idle ∧ Types l' e' ∧ e'.1.length ≤ LINECAP ∧ LinesFit ([], false) keys' ∧
        expected e keys = e'.1 ++ 10 :: expected ([], false) keys' := by
  induction keys generalizing con l e with
  | nil => exact .inl ⟨returns_ok, rfl⟩
  | cons key keys ih =>
      rw [LinesFit] at hfit
      simp only [fbconLoop, expected]
      by_cases hkey : key = ECK_RETURN
      · rw [if_pos hkey] at hfit
        simp only [if_pos hkey]
        refine .inr ⟨con, l, keys, e, returns_ok, hc, h, hfit.1, hfit.2, ?_⟩
        rw [List.take_of_length_le hfit.1]
      · rw [if_neg hkey] at hfit
        simp only [if_neg hkey]
        obtain ⟨con₁, l₁, hret, hc₁, h₁⟩ := fbconKey_types (g := g) key hc h hfit.1
        obtain ⟨hwait, hnone⟩ | ⟨con', l', keys', e', hloop, hrest⟩ := ih hc₁ h₁ hfit.2
        · exact .inl ⟨hret.bind hwait, hnone⟩
        · exact .inr ⟨con', l', keys', e', hret.bind hloop, hrest⟩

/-- What is left of the last line. -/
def FbTty.pending (s : FbTty) : Bytes := (List.range s.nlinebuf).map fun i => s.linebuf (s.plinebuf + i)

/-- Between two reads: what is left is inside the buffer. -/
structure FbTty.Between (s : FbTty) : Prop where
  idle : s.con.Idle
  inside : s.nlinebuf ≠ 0 → s.plinebuf + s.nlinebuf ≤ Fbcon.LINEBUFSZ

theorem map_range_add (f : Nat → UInt8) (p a b : Nat) :
    ((List.range (a + b)).map fun i => f (p + i)) =
      ((List.range a).map fun i => f (p + i)) ++ (List.range b).map fun i => f (p + a + i) := by
  rw [List.range_add, List.map_append, List.map_map]
  refine congrArg (_ ++ ·) (List.map_congr_left fun i _ => ?_)
  rw [Function.comp_apply, Nat.add_assoc]

theorem copyLine_eq {f : Nat → UInt8} {p : Nat} (h : p + n ≤ Fbcon.LINEBUFSZ) :
    copyLine f p n = .ok ((List.range n).map fun i => f (p + i)) := if_pos (.inr h)

/-- **A read from the buffer** takes the front of what is left. -/
theorem fbconRead_pending (keys : List Nat) (h : s.Between) (hp : s.nlinebuf ≠ 0) (hn : 0 < n) :
    ∃ bytes s', (∀ fuel, fbconRead g fuel n (some keys) s = .ok (.data bytes s' keys)) ∧ bytes ≠ [] ∧
      s'.Between ∧ s.pending = bytes ++ s'.pending := by
  have hin := h.inside hp
  have hcopy : copyLine s.linebuf s.plinebuf (min s.nlinebuf n) = .ok _ := copyLine_eq (by omega)
  have hsplit : s.nlinebuf = min s.nlinebuf n + (s.nlinebuf - min s.nlinebuf n) := by omega
  refine ⟨(List.range (min s.nlinebuf n)).map fun i => s.linebuf (s.plinebuf + i),
    { s with nlinebuf := s.nlinebuf - min s.nlinebuf n, plinebuf := s.plinebuf + min s.nlinebuf n },
    fun fuel => ?_, ?_, ⟨h.idle, fun _ => ?_⟩, ?_⟩
  · rw [fbconRead, if_pos hp]
    dsimp only
    rw [hcopy]
    rfl
  · refine List.ne_nil_of_length_pos ?_
    rw [List.length_map, List.length_range]
    omega
  · dsimp only
    omega
  · have hmap := map_range_add s.linebuf s.plinebuf (min s.nlinebuf n) (s.nlinebuf - min s.nlinebuf n)
    rw [← hsplit] at hmap
    exact hmap

/-- **The end of the line**: the line and its newline are in the buffer. -/
theorem fbconReturn_spec (keys : List Nat) (hc : con.Idle) (h : Types l e) (hcap : e.1.length ≤ LINECAP) (hn : 0 < n)
    (hp : s.nlinebuf = 0) : ∃ bytes s', fbconReturn n keys s con l = .ok (.data bytes s' keys) ∧
      bytes ≠ [] ∧ s'.Between ∧ bytes ++ s'.pending = e.1 ++ [10] := by
  have hlimit : LINECAP = 4094 := rfl
  have hsz : Fbcon.LINEBUFSZ = 4096 := rfl
  have hle : l.nread ≤ Fbcon.LINEBUFSZ - 2 := by rw [h.nread]; exact hcap
  -- the buffer holds the line with its newline
  have hline : ((List.range (l.nread + 1)).map fun i => Function.update l.buf l.nread 10 (0 + i)) =
      e.1 ++ [10] := by
    have hfront : ((List.range l.nread).map fun i => Function.update l.buf l.nread 10 (0 + i)) = e.1 := by
      rw [h.nread]
      refine List.ext_getElem (by simp) fun i h1 h2 => ?_
      have hb := h.buf i h2 (by omega)
      rw [List.getD_eq_getElem _ _ h2] at hb
      simp only [List.getElem_map, List.getElem_range, Nat.zero_add]
      rw [Function.update_of_ne (by omega), hb]
    rw [map_range_add, hfront, List.range_one, List.map_singleton, Nat.zero_add, Nat.add_zero,
      Function.update_self]
  have hcopy : copyLine (Function.update l.buf l.nread 10) 0 (min (l.nread + 1) n) = .ok _ :=
    copyLine_eq (by omega)
  rw [fbconReturn, if_pos hle]
  dsimp only
  rw [hcopy]
  by_cases hlong : l.nread + 1 > n
  · have hmin : min (l.nread + 1) n = n := by omega
    have hsplit : l.nread + 1 = n + (l.nread + 1 - n) := by omega
    rw [if_pos hlong, hmin]
    refine ⟨_, _, rfl, ?_, ⟨hc, fun _ => ?_⟩, ?_⟩
    · refine List.ne_nil_of_length_pos ?_
      rw [List.length_map, List.length_range]
      exact hn
    · dsimp only
      omega
    · rw [← hline, hsplit, map_range_add, Nat.zero_add, ← hsplit]
      rfl
  · have hmin : min (l.nread + 1) n = l.nread + 1 := by omega
    rw [if_neg hlong, hmin, hline]
    refine ⟨_, _, rfl, by simp, ⟨hc, fun hne => absurd hp hne⟩, ?_⟩
    rw [FbTty.pending]
    simp [hp]

/-- **Read lemma**: a read waits only if nothing is left and no line is
there; otherwise it returns the front of the lines. -/
theorem fbconRead_spec (h : s.Between) (hfit : LinesFit ([], false) keys) (hn : 0 < n) :
    (Returns (fun fuel => fbconRead g fuel n (some keys) s) .wait ∧
        s.pending ++ expected ([], false) keys = []) ∨
      ∃ bytes s' keys', Returns (fun fuel => fbconRead g fuel n (some keys) s) (.data bytes s' keys') ∧
        bytes ≠ [] ∧ s'.Between ∧ LinesFit ([], false) keys' ∧
        s.pending ++ expected ([], false) keys = bytes ++ (s'.pending ++ expected ([], false) keys') := by
  by_cases hp : s.nlinebuf = 0
  · have hpend : s.pending = [] := by rw [FbTty.pending, hp]; rfl
    have hstart : Types ⟨s.linebuf, 0, false⟩ ([], false) :=
      ⟨rfl, rfl, fun i hi => absurd hi (Nat.not_lt_zero i)⟩
    rw [hpend, List.nil_append]
    simp only [fbconRead, hp, ne_eq, not_true_eq_false, if_false]
    obtain ⟨hwait, hnone⟩ | ⟨con, l, keys', e, hloop, hc, hl, hcap, hfit', hexp⟩ :=
      fbconLoop_spec (g := g) h.idle hstart hfit
    · exact .inl ⟨hwait.bind returns_ok, hnone⟩
    · obtain ⟨con', hprint, hc'⟩ := hc.printc (g := g) (c := 10) (by decide)
      obtain ⟨bytes, s', hret, hne, hs', hbytes⟩ := fbconReturn_spec keys' hc' hl hcap hn hp
      refine .inr ⟨bytes, s', keys', hloop.bind ((returns_liftEsc hprint).bind ?_), hne, hs', hfit', ?_⟩
      · simp only [hret]
        exact returns_ok
      · rw [hexp, ← List.append_assoc, hbytes, List.append_assoc, List.singleton_append]
  · obtain ⟨bytes, s', hret, hne, hs', hbytes⟩ := fbconRead_pending (g := g) keys h hp hn
    refine .inr ⟨bytes, s', keys, ?_, hne, hs', hfit, by rw [hbytes, List.append_assoc]⟩
    simp only [hret]
    exact returns_ok

/-! ## runs of reads -/

/-- **Run lemma**: reads take what is left and what is expected from the
front, by induction on the reads. -/
theorem fbconReads_spec (sizes : List Nat) (hpos : ∀ n ∈ sizes, 0 < n) (h : s.Between)
    (hfit : LinesFit ([], false) keys) : ∃ outs, Returns (fun fuel => fbconReads g fuel sizes keys s) outs ∧
      [] ∉ outs ∧ outs.flatten <+: s.pending ++ expected ([], false) keys ∧
      (outs.length < sizes.length → outs.flatten = s.pending ++ expected ([], false) keys) := by
  induction sizes generalizing s keys with
  | nil => exact ⟨[], returns_ok, List.not_mem_nil, List.nil_prefix, fun hlt => absurd hlt (Nat.lt_irrefl 0)⟩
  | cons n sizes ih =>
      simp only [fbconReads]
      obtain ⟨hwait, hnone⟩ | ⟨bytes, s', keys', hret, hne, hs', hfit', hsplit⟩ :=
        fbconRead_spec (g := g) h hfit (hpos n List.mem_cons_self)
      · exact ⟨[], hwait.bind returns_ok, List.not_mem_nil, List.nil_prefix, fun _ => hnone.symm⟩
      · obtain ⟨outs, hruns, hmem, hpre, hall⟩ := ih (fun k hk => hpos k (List.mem_cons_of_mem n hk)) hs' hfit'
        refine ⟨bytes :: outs, hret.bind ?_, ?_, ?_, fun hlt => ?_⟩
        · exact hruns.bind returns_ok
        · exact mt List.mem_cons.mp (not_or.mpr ⟨hne.symm, hmem⟩)
        · rw [hsplit, List.flatten_cons]
          exact (List.prefix_append_right_inj bytes).mpr hpre
        · rw [hsplit, List.flatten_cons, hall (Nat.lt_of_succ_lt_succ hlt)]

/-- A console that no escape sequence is open on, with nothing left of a
line. -/
structure FreshTty where
  tty : FbTty
  idle : tty.con.Idle
  empty : tty.nlinebuf = 0

/-- The console at the start. -/
def startTty : FreshTty := ⟨⟨{}, fun _ => 0, 0, 0⟩, ⟨Esc.waiting_clear (e := {}), rfl⟩, rfl⟩

/-- **Line discipline**: if every line fits in the line buffer when return
is pressed, reads of any positive sizes return the edited lines. -/
theorem readsLines_of_fit (g : FbInfo) (s : FreshTty) (keys sizes : List Nat)
    (hpos : ∀ n ∈ sizes, 0 < n) (hfit : LinesFit ([], false) keys) : ReadsLines g s.tty keys sizes := by
  have hpend : s.tty.pending = [] := by rw [FbTty.pending, s.empty]; rfl
  have hbetween : s.tty.Between := ⟨s.idle, fun hne => absurd s.empty hne⟩
  obtain ⟨outs, hret, hmem, hpre, hall⟩ := fbconReads_spec (g := g) sizes hpos hbetween hfit
  rw [hpend, List.nil_append] at hpre hall
  exact ⟨outs, hret, hmem, hpre, hall⟩

/-- The display of a text mode framebuffer. -/
def smallFb : FbInfo := ⟨720, 400, by decide, by decide⟩

/-- The key `a` and return, read in two parts. -/
theorem readsLines_of_fit_a : ReadsLines smallFb startTty.tty [11, 62] [1, 1] :=
  readsLines_of_fit smallFb startTty [11, 62] [1, 1] (by decide) (by simp [LinesFit, editKey, keyAct]; decide)

/-- Keys that are typed and no more edit the line as they should, at any
length. -/
theorem fbconLoop_long (hc : con.Idle) (h : Types l e) (n : Nat) (hlt : e.1.length + n < 2 ^ 32) :
    ∃ con' l', Returns (fun fuel => fbconLoop g fuel (List.replicate n 11 ++ [ECK_RETURN]) con l)
      (some (con', l', [])) ∧ con'.Idle ∧ l'.nread = e.1.length + n := by
  induction n generalizing con l e with
  | zero => exact ⟨con, l, returns_ok, hc, h.nread⟩
  | succ n ih =>
      obtain ⟨con₁, l₁, hret, hc₁, h₁⟩ := fbconKey_types (g := g) 11 hc h (by omega)
      have hedit : editKey e 11 = (e.1 ++ [typed e.2 11], e.2) := rfl
      rw [hedit] at h₁
      obtain ⟨con', l', hloop, hc', hn⟩ := ih hc₁ h₁ (by rw [List.length_append, List.length_singleton]; omega)
      refine ⟨con', l', ?_, hc', ?_⟩
      · rw [List.replicate_succ, List.cons_append]
        simp only [fbconLoop, if_neg (show ¬ 11 = ECK_RETURN by decide)]
        exact hret.bind hloop
      · rw [hn, List.length_append, List.length_singleton]
        omega

/-- A line of 4097 characters, read at once, is read past the line buffer. -/
theorem not_readsLines : ¬ ∀ (g : FbInfo) (s : FreshTty) (keys sizes : List Nat), (∀ n ∈ sizes, 0 < n) →
    ReadsLines g s.tty keys sizes := by
  intro hall
  obtain ⟨outs, hret, -⟩ := hall smallFb startTty (List.replicate 4097 11 ++ [ECK_RETURN]) [8192] (by decide)
  have hstart : Types ⟨fun _ => 0, 0, false⟩ ([], false) :=
    ⟨rfl, rfl, fun i hi => absurd hi (Nat.not_lt_zero i)⟩
  obtain ⟨con, l, hloop, hc, hn⟩ := fbconLoop_long (g := smallFb) startTty.idle hstart 4097
    (by rw [List.length_nil]; decide)
  obtain ⟨con', hprint, -⟩ := hc.printc (g := smallFb) (c := 10) (by decide)
  have hreturn : ∀ s : FbTty, fbconReturn 8192 [] s con' l = .error (.fault .outside) := by
    intro s
    have hlong : ¬ l.nread ≤ Fbcon.LINEBUFSZ - 2 := by rw [hn]; decide
    rw [fbconReturn, if_neg hlong]
    dsimp only
    rw [copyLine, if_neg (by rw [hn]; decide)]
    rfl
  obtain ⟨k₁, h₁⟩ := hloop
  obtain ⟨k₂, h₂⟩ := returns_liftEsc hprint
  refine absurd ?_ (hret.ne_fault (max k₁ k₂) .outside)
  have hread : fbconRead smallFb (max k₁ k₂) 8192 (some (List.replicate 4097 11 ++ [ECK_RETURN]))
      startTty.tty = .error (.fault .outside) := by
    have hl := h₁ (max k₁ k₂)
    have hp := h₂ (max k₁ k₂)
    rw [if_pos (Nat.le_max_left _ _)] at hl
    dsimp only at hp
    rw [if_pos (Nat.le_max_right _ _)] at hp
    rw [fbconRead, if_neg (not_not_intro startTty.empty)]
    dsimp only [startTty] at hl ⊢
    rw [hl]
    dsimp only [Except.bind]
    rw [hp]
    exact hreturn _
  rw [fbconReads, hread]
  rfl

end Eclair
