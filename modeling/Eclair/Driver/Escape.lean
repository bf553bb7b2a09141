import Eclair.Basic
import Eclair.Lib.Fuel

/-!
# Eclair.Driver.Escape

The escape codes that both text consoles read (`kernel/driver/fbcon.c` and
`kernel/driver/vgacon.c`).

A sequence is collected in a buffer of 32 bytes and interpreted once one of
the console's end letters has come, or once the buffer is full.  Every
access to the buffer checks its index, and every loop takes fuel.  Bytes are
ASCII codes: `[` is 91, `;` is 59, `m` is 109, the digits are 48 to 57.

* `Esc.collect` — what a console does with one byte of a sequence;
* `readEscInt`, `styleLoop` — the two loops over a sequence;
* `Scan` — what the buffer is for: the sequence read so far;
* `styleLoop_returns`, `styleLoop_hangs` — the style loop returns exactly on
  well-formed parameters.
-/

namespace Eclair

open Fuel

/-- An index outside the escape buffer. -/
inductive EscFault where
  | index
  deriving DecidableEq, Repr

/-- What a function of a console gives. -/
abbrev EscRes (α : Type) := Except (Stop EscFault) α

/-- `ESCBUFSZ`. -/
def ESCBUFSZ : Nat := 32

/-- The escape character. -/
def ESC : UInt8 := 0x1b

/-- `escbuf`, `nescbuf` and `escready`. -/
structure Esc where
  escbuf : Nat → UInt8 := fun _ => 0
  nescbuf : Nat := 0
  escready : Bool := false

namespace Esc

/-- `escbuf[i]`. -/
def read (e : Esc) (i : Nat) : EscRes UInt8 :=
  if i < ESCBUFSZ then .ok (e.escbuf i) else .error (.fault .index)

/-- `escbuf[i] = c`. -/
def write (e : Esc) (i : Nat) (c : UInt8) : EscRes Esc :=
  if i < ESCBUFSZ then .ok { e with escbuf := fun j => if j = i then c else e.escbuf j }
  else .error (.fault .index)

/-- The branches for a byte that belongs to a sequence; an ordinary
character gives `none`. -/
def collect (endstr : List UInt8) (e : Esc) (c : UInt8) : EscRes (Option Esc) :=
  if c = ESC then do
    let e ← { e with nescbuf := 1 }.write 0 ESC
    return some e
  else if e.nescbuf = 1 ∧ c = 91 then do
    let e ← { e with nescbuf := 2 }.write 1 c
    return some e
  else if 2 ≤ e.nescbuf then
    if ESCBUFSZ - 1 ≤ e.nescbuf then do
      let e ← { e with escready := true }.write e.nescbuf 0
      return some e
    else do
      let e ← { e with nescbuf := e.nescbuf + 1 }.write e.nescbuf c
      if c ∈ endstr then
        let e ← { e with escready := true }.write e.nescbuf 0
        return some e
      else return some e
  else return none

/-- The buffer once a sequence has been taken from it. -/
def clear (e : Esc) : Esc := { e with nescbuf := 0, escready := false }

end Esc

/-- `IS_DIGIT`. -/
def isDigit (c : UInt8) : Bool := 48 ≤ c && c ≤ 57

/-- `read_esc_int`: the position behind the number and its separator, and
the number. -/
def readEscInt (e : Esc) : Nat → Nat → Nat → EscRes (Nat × Nat)
  | 0, _, _ => .error .fuel
  | fuel + 1, p, r => do
      let c ← e.read p
      if isDigit c then readEscInt e fuel (p + 1) (u32 (r * 10 + (c.toNat - 48)))
      else return (if c = 59 then p + 1 else p, r)

/-- The loop over the parameters of a style sequence: `style` is its body,
once the number has been read. -/
def styleLoop {S : Type} (style : Nat → S → S) (e : Esc) : Nat → Nat → S → EscRes S
  | 0, _, _ => .error .fuel
  | fuel + 1, pos, s => do
      let c ← e.read pos
      if c = 0 ∨ c = 109 then return s
      else
        let r ← readEscInt e fuel pos 0
        styleLoop style e fuel r.1 (style r.2 s)

/-! ## the loops over a sequence -/

/-- A byte that moves the style loop on. -/
def isParam (c : UInt8) : Bool := isDigit c || c == 59

/-- The parameters of a style sequence, up to its end. -/
def wellFormed : List UInt8 → Bool
  | [] => true
  | c :: cs => c == 0 || c == 109 || isParam c && wellFormed cs

/-- The bytes of the buffer from `p` up to `n`. -/
def Esc.tail (e : Esc) (n p : Nat) : List UInt8 := (List.range' p (n - p)).map e.escbuf

variable {e : Esc} {c : UInt8} {n p pos r fuel : Nat} {S : Type} {style : Nat → S → S} {s : S}

theorem Esc.tail_cons (h : p < n) : e.tail n p = e.escbuf p :: e.tail n (p + 1) := by
  rw [Esc.tail, Esc.tail, show n - p = n - (p + 1) + 1 by omega, List.range'_succ, List.map_cons]

theorem Esc.read_of_lt (h : p < ESCBUFSZ) : e.read p = .ok (e.escbuf p) := if_pos h

theorem isDigit_ne (h : isDigit c = true) : c ≠ 0 ∧ c ≠ 109 ∧ c ≠ 59 := by
  refine ⟨?_, ?_, ?_⟩ <;> rintro rfl <;> revert h <;> decide

theorem wellFormed_digit {cs : List UInt8} (h : isDigit c = true) :
    wellFormed (c :: cs) = wellFormed cs := by
  simp [wellFormed, isParam, h, isDigit_ne h]

theorem readEscInt_digit (h : p < ESCBUFSZ) (hd : isDigit (e.escbuf p) = true) :
    readEscInt e (fuel + 1) p r =
      readEscInt e fuel (p + 1) (u32 (r * 10 + ((e.escbuf p).toNat - 48))) := by
  simp [readEscInt, Esc.read_of_lt h, hd, bind, Except.bind]

theorem readEscInt_end (h : p < ESCBUFSZ) (hd : isDigit (e.escbuf p) = false) :
    readEscInt e (fuel + 1) p r = .ok (if e.escbuf p = 59 then p + 1 else p, r) := by
  simp [readEscInt, Esc.read_of_lt h, hd, bind, Except.bind, pure, Except.pure]

/-- **`read_esc_int`** returns, at or behind where it starts, and skips
parameters only. -/
theorem readEscInt_spec (h0 : e.escbuf n = 0) (hn : n < ESCBUFSZ) (hp : p ≤ n) (r : Nat) : ∃ q v,
    Returns (fun m => readEscInt e m p r) (q, v) ∧ p ≤ q ∧ q ≤ n ∧
      wellFormed (e.tail n q) = wellFormed (e.tail n p) ∧
      (isParam (e.escbuf p) = true → p < q) := by
  obtain ⟨k, hk⟩ : ∃ k, k = n - p := ⟨_, rfl⟩
  induction k generalizing p r with
  | zero =>
      obtain rfl : p = n := by omega
      have hret : Returns (fun m => readEscInt e (m + 1) p r) (p, r) := by
        have hd : isDigit (e.escbuf p) = false := by simp [h0, isDigit]
        simp only [readEscInt_end hn hd, h0]
        exact returns_ok
      exact ⟨p, r, hret.of_succ rfl, Nat.le_refl p, Nat.le_refl p, rfl,
        by simp [h0, isParam, isDigit]⟩
  | succ k ih =>
      have hlt : p < ESCBUFSZ := by omega
      have htail : e.tail n p = e.escbuf p :: e.tail n (p + 1) := Esc.tail_cons (by omega)
      cases hd : isDigit (e.escbuf p) with
      | true =>
          obtain ⟨q, v, hret, hpq, hqn, hwf, -⟩ := ih (p := p + 1) (by omega)
            (u32 (r * 10 + ((e.escbuf p).toNat - 48))) (by omega)
          have hret' : Returns (fun m => readEscInt e (m + 1) p r) (q, v) := by
            simpa only [readEscInt_digit hlt hd] using hret
          exact ⟨q, v, hret'.of_succ rfl, by omega, hqn, by rw [hwf, htail, wellFormed_digit hd],
            fun _ => by omega⟩
      | false =>
          have hret : Returns (fun m => readEscInt e (m + 1) p r)
              (if e.escbuf p = 59 then p + 1 else p, r) := by
            simp only [readEscInt_end hlt hd]
            exact returns_ok
          by_cases hs : e.escbuf p = 59
          · rw [if_pos hs] at hret
            exact ⟨p + 1, r, hret.of_succ rfl, by omega, by omega,
              by simp [htail, hs, wellFormed, isParam], fun _ => by omega⟩
          · rw [if_neg hs] at hret
            exact ⟨p, r, hret.of_succ rfl, Nat.le_refl p, hp, rfl, by simp [isParam, hd, hs]⟩

theorem styleLoop_end (h : pos < ESCBUFSZ) (hc : e.escbuf pos = 0 ∨ e.escbuf pos = 109) :
    styleLoop style e (fuel + 1) pos s = .ok s := by
  simp [styleLoop, Esc.read_of_lt h, hc, bind, Except.bind, pure, Except.pure]

theorem styleLoop_round (h : pos < ESCBUFSZ) (hc : ¬ (e.escbuf pos = 0 ∨ e.escbuf pos = 109)) :
    styleLoop style e (fuel + 1) pos s = (readEscInt e fuel pos 0).bind fun r =>
      styleLoop style e fuel r.1 (style r.2 s) := by
  simp [styleLoop, Esc.read_of_lt h, hc, bind, Except.bind]

/-- Every round on well-formed parameters moves on, and keeps what `style` keeps. -/
theorem styleLoop_returns {I : S → Prop} (hI : ∀ v s, I s → I (style v s)) (h0 : e.escbuf n = 0)
    (hn : n < ESCBUFSZ) (hp : pos ≤ n) (hwf : wellFormed (e.tail n pos) = true) (hs : I s) :
    ∃ s', Returns (fun m => styleLoop style e m pos s) s' ∧ I s' := by
  obtain ⟨k, hk⟩ : ∃ k, k = n - pos := ⟨_, rfl⟩
  induction k using Nat.strongRecOn generalizing pos s with
  | _ k ih =>
      have hlt : pos < ESCBUFSZ := by omega
      by_cases hc : e.escbuf pos = 0 ∨ e.escbuf pos = 109
      · refine ⟨s, Returns.of_succ rfl ?_, hs⟩
        simp only [styleLoop_end hlt hc]
        exact returns_ok
      · have hpn : pos ≠ n := fun heq => hc (.inl (heq ▸ h0))
        have hpar : isParam (e.escbuf pos) = true := by
          rw [Esc.tail_cons (by omega)] at hwf
          simp only [wellFormed, Bool.or_eq_true, beq_iff_eq, Bool.and_eq_true] at hwf
          obtain hend | ⟨hpar, -⟩ := hwf
          · exact absurd hend hc
          · exact hpar
        obtain ⟨q, v, hret, -, hqn, hwf', hmove⟩ := readEscInt_spec h0 hn hp 0
        have hq := hmove hpar
        obtain ⟨s', hs', hI'⟩ := ih (n - q) (by omega) (by omega) (hwf'.trans hwf) (hI v s hs) rfl
        refine ⟨s', Returns.of_succ rfl ?_, hI'⟩
        simp only [styleLoop_round hlt hc]
        exact hret.bind hs'

/-- At the first byte that is no parameter the position stays where it is. -/
theorem styleLoop_hangs (h0 : e.escbuf n = 0) (hn : n < ESCBUFSZ) (hp : pos ≤ n)
    (hwf : wellFormed (e.tail n pos) = false) (s : S) :
    Hangs fun m => styleLoop style e m pos s := by
  intro m
  induction m generalizing pos s with
  | zero => rfl
  | succ m ih =>
      have hlt : pos < ESCBUFSZ := by omega
      have hpn : pos ≠ n := by
        rintro rfl
        simp [Esc.tail, wellFormed] at hwf
      have hc : ¬ (e.escbuf pos = 0 ∨ e.escbuf pos = 109) := by
        intro hc
        rw [Esc.tail_cons (by omega)] at hwf
        obtain hc | hc := hc <;> simp [wellFormed, hc] at hwf
      obtain ⟨q, v, hret, -, hqn, hwf', -⟩ := readEscInt_spec h0 hn hp 0
      show styleLoop style e (m + 1) pos s = _
      rw [styleLoop_round hlt hc]
      obtain hok | hfuel := hret.ok_or_fuel m
      · rw [hok]
        exact ih hqn (hwf'.trans hwf) (style v s)
      · rw [hfuel]
        rfl

/-! ## the sequence read so far -/

/-- Where the input stands: outside a sequence, behind the escape character,
or inside a sequence. -/
inductive Scan where
  | out | esc
  | seq (body : List UInt8)
  deriving DecidableEq, Repr

/-- One byte of input.  An ordinary character leaves a lone escape character
pending when `keep` says so; a style sequence needs well-formed parameters. -/
def Scan.next (endstr : List UInt8) (keep : Bool) (q : Scan) (c : UInt8) : Option Scan :=
  if c = 10 then some q
  else if c = ESC then some .esc
  else match q with
  | .out => some .out
  | .esc => some (if c = 91 then .seq [] else if keep then .esc else .out)
  | .seq body =>
      if ESCBUFSZ - 1 ≤ body.length + 2 then some .out
      else if c ∈ endstr then
        if c = 109 ∧ wellFormed body = false then none else some .out
      else some (.seq (body ++ [c]))

/-- A byte string. -/
def Scan.run (endstr : List UInt8) (keep : Bool) : Scan → List UInt8 → Option Scan
  | q, [] => some q
  | q, c :: cs => (q.next endstr keep c).bind fun q => q.run endstr keep cs

/-- What the buffer holds. -/
def Esc.scan (e : Esc) : Scan :=
  if e.nescbuf = 0 then .out
  else if e.nescbuf = 1 then .esc
  else .seq (e.tail e.nescbuf 2)

/-- Between two bytes nothing is ready, and no end letter is in the buffer. -/
structure Esc.Waiting (endstr : List UInt8) (e : Esc) : Prop where
  ready : e.escready = false
  lt : e.nescbuf < ESCBUFSZ
  body : ∀ i, 2 ≤ i → i < e.nescbuf → e.escbuf i ∉ endstr

/-- A sequence is ready: its last byte is at `k`, with a NUL behind. -/
structure Esc.Ready (e : Esc) (k : Nat) : Prop where
  ready : e.escready = true
  num : e.nescbuf = k + 1
  two : 2 ≤ k
  lt : k + 1 < ESCBUFSZ
  nul : e.escbuf (k + 1) = 0

/-- The last byte of a sequence that is ready. -/
theorem Esc.Ready.read {k : Nat} (h : e.Ready k) : e.read (e.nescbuf - 1) = .ok (e.escbuf k) := by
  rw [h.num, Nat.add_sub_cancel]
  exact Esc.read_of_lt (Nat.lt_of_succ_lt h.lt)

theorem Esc.waiting_clear {endstr : List UInt8} : e.clear.Waiting endstr :=
  ⟨rfl, by simp [Esc.clear, ESCBUFSZ], by simp [Esc.clear]⟩

@[simp] theorem Esc.scan_clear : e.clear.scan = .out := rfl

theorem wellFormed_append_end (body : List UInt8) :
    wellFormed (body ++ [109]) = wellFormed body := by
  induction body with
  | nil => rfl
  | cons c cs ih => simp [wellFormed, ih]

theorem Esc.tail_succ (h : p ≤ n) : e.tail (n + 1) p = e.tail n p ++ [e.escbuf n] := by
  rw [Esc.tail, Esc.tail, show n + 1 - p = n - p + 1 by omega, List.range'_concat, List.map_append,
    Nat.one_mul, Nat.add_sub_cancel' h, List.map_singleton]

theorem Esc.tail_congr {e' : Esc} (h : ∀ i, p ≤ i → i < n → e'.escbuf i = e.escbuf i) :
    e'.tail n p = e.tail n p := by
  refine List.map_congr_left fun i hi => ?_
  obtain ⟨hpi, hin⟩ := List.mem_range'_1.mp hi
  exact h i hpi (by omega)

theorem Esc.length_tail : (e.tail n p).length = n - p := by simp [Esc.tail]

/-- A byte behind the escape character and the bracket. -/
theorem Esc.collect_seq {endstr : List UInt8} (hw : e.Waiting endstr) (hc : c ≠ ESC)
    (h2 : 2 ≤ e.nescbuf) (hlt : e.nescbuf < ESCBUFSZ - 1) (hend : c ∉ endstr) : ∃ e',
      e.collect endstr c = .ok (some e') ∧ e'.Waiting endstr ∧
        e'.scan = .seq (e.tail e.nescbuf 2 ++ [c]) := by
  have hE : ESCBUFSZ = 32 := rfl
  refine ⟨⟨fun j => if j = e.nescbuf then c else e.escbuf j, e.nescbuf + 1, e.escready⟩,
    ?_, ⟨hw.ready, ?_, fun i hi hin => ?_⟩, ?_⟩
  · have h1 : e.nescbuf ≠ 1 := by omega
    have hfull : ¬ ESCBUFSZ - 1 ≤ e.nescbuf := by omega
    have hidx : e.nescbuf < ESCBUFSZ := by omega
    simp [Esc.collect, hc, h1, h2, hfull, Esc.write, hidx, hend, bind, Except.bind, pure,
      Except.pure]
  · show e.nescbuf + 1 < ESCBUFSZ
    omega
  · by_cases heq : i = e.nescbuf
    · simp [heq, hend]
    · simpa [heq] using hw.body i hi (by simp at hin; omega)
  · have h0 : ¬ e.nescbuf + 1 = 0 := by omega
    have h1 : ¬ e.nescbuf + 1 = 1 := by omega
    simp only [Esc.scan, h0, h1, if_false, Esc.tail_succ h2, if_true]
    rw [Esc.tail_congr (e := e)]
    intro i _ hi
    simp [Nat.ne_of_lt hi]

/-- An end letter makes the sequence ready. -/
theorem Esc.collect_end {endstr : List UInt8} (hc : c ≠ ESC) (h2 : 2 ≤ e.nescbuf)
    (hlt : e.nescbuf < ESCBUFSZ - 1) (hend : c ∈ endstr) : ∃ e',
      e.collect endstr c = .ok (some e') ∧ e'.Ready e.nescbuf ∧ e'.escbuf e.nescbuf = c ∧
        e'.tail (e.nescbuf + 1) 2 = e.tail e.nescbuf 2 ++ [c] := by
  have hE : ESCBUFSZ = 32 := rfl
  refine ⟨⟨fun j => if j = e.nescbuf + 1 then 0 else if j = e.nescbuf then c else e.escbuf j,
    e.nescbuf + 1, true⟩, ?_, ⟨rfl, rfl, h2, by omega, by simp⟩, by simp, ?_⟩
  · have h1 : e.nescbuf ≠ 1 := by omega
    have hfull : ¬ ESCBUFSZ - 1 ≤ e.nescbuf := by omega
    have hidx : e.nescbuf < ESCBUFSZ := by omega
    have hidx' : e.nescbuf + 1 < ESCBUFSZ := by omega
    simp [Esc.collect, hc, h1, h2, hfull, Esc.write, hidx, hidx', hend, bind, Except.bind, pure,
      Except.pure]
  · simp only [Esc.tail_succ h2]
    rw [Esc.tail_congr (e := e)]
    · simp
    · intro i _ hi
      simp [Nat.ne_of_lt hi, show i ≠ e.nescbuf + 1 by omega]

/-- A full buffer is ready, with a last byte that ends no sequence. -/
theorem Esc.collect_full {endstr : List UInt8} (hw : e.Waiting endstr) (hc : c ≠ ESC)
    (hlt : ESCBUFSZ - 1 ≤ e.nescbuf) : ∃ e', e.collect endstr c = .ok (some e') ∧
      e'.Ready (e.nescbuf - 1) ∧ e'.escbuf (e.nescbuf - 1) ∉ endstr := by
  have hE : ESCBUFSZ = 32 := rfl
  have hidx := hw.lt
  have hk : e.nescbuf - 1 + 1 = e.nescbuf := by omega
  refine ⟨⟨fun j => if j = e.nescbuf then 0 else e.escbuf j, e.nescbuf, true⟩, ?_,
    ⟨rfl, hk.symm, by omega, by omega, by simp [hk]⟩, ?_⟩
  · have h1 : e.nescbuf ≠ 1 := by omega
    have h2 : 2 ≤ e.nescbuf := by omega
    simp [Esc.collect, hc, h1, h2, hlt, Esc.write, hidx, bind, Except.bind, pure, Except.pure]
  · have hne : ¬ e.nescbuf - 1 = e.nescbuf := by omega
    simpa [hne] using hw.body (e.nescbuf - 1) (by omega) (by omega)

/-- **`collect`** of a byte that is no newline: an ordinary character, a
longer sequence, or a sequence that is ready. -/
theorem Esc.collect_cases {endstr : List UInt8} (keep : Bool) (hm : 109 ∈ endstr)
    (hw : e.Waiting endstr) (hc : c ≠ 10) :
    (e.collect endstr c = .ok none ∧ e.nescbuf < 2 ∧
        e.scan.next endstr keep c = some (if keep then e.scan else .out)) ∨
      (∃ e', e.collect endstr c = .ok (some e') ∧ e'.Waiting endstr ∧
        e.scan.next endstr keep c = some e'.scan) ∨
      ∃ e' k, e.collect endstr c = .ok (some e') ∧ e'.Ready k ∧
        e.scan.next endstr keep c =
          if e'.escbuf k = 109 ∧ wellFormed (e'.tail (k + 1) 2) = false then none
          else some .out := by
  have hE : ESCBUFSZ = 32 := rfl
  by_cases hesc : c = ESC
  · subst hesc
    refine .inr (.inl ⟨⟨fun j => if j = 0 then ESC else e.escbuf j, 1, e.escready⟩, ?_,
      ⟨hw.ready, by simp [hE], fun i hi hin => ?_⟩, ?_⟩)
    · simp [Esc.collect, Esc.write, hE, bind, Except.bind, pure, Except.pure]
    · simp at hin
      omega
    · simp [Scan.next, hc, Esc.scan]
  by_cases h2 : 2 ≤ e.nescbuf
  · have hscan : e.scan = .seq (e.tail e.nescbuf 2) := by
      simp [Esc.scan, show e.nescbuf ≠ 0 by omega, show e.nescbuf ≠ 1 by omega]
    have hlen : (e.tail e.nescbuf 2).length + 2 = e.nescbuf := by
      rw [Esc.length_tail]
      omega
    by_cases hfull : ESCBUFSZ - 1 ≤ e.nescbuf
    · obtain ⟨e', he', hready, hend⟩ := Esc.collect_full hw hesc hfull
      have hne : e'.escbuf (e.nescbuf - 1) ≠ 109 := fun heq => hend (heq ▸ hm)
      refine .inr (.inr ⟨e', _, he', hready, ?_⟩)
      simp [Scan.next, hc, hesc, hscan, hlen, hfull, hne]
    · by_cases hend : c ∈ endstr
      · obtain ⟨e', he', hready, hlast, htail⟩ := Esc.collect_end hesc h2 (by omega) hend
        refine .inr (.inr ⟨e', _, he', hready, ?_⟩)
        rw [hscan, hlast, htail]
        by_cases h109 : c = 109
        · simp [Scan.next, hE, ESC, hlen, show ¬ 31 ≤ e.nescbuf by omega, h109, hm,
            wellFormed_append_end]
        · simp [Scan.next, hc, hesc, hlen, hfull, hend, h109]
      · obtain ⟨e', he', hwait, hscan'⟩ := Esc.collect_seq hw hesc h2 (by omega) hend
        refine .inr (.inl ⟨e', he', hwait, ?_⟩)
        rw [hscan, hscan']
        simp [Scan.next, hc, hesc, hlen, hfull, hend]
  · by_cases hbr : e.nescbuf = 1 ∧ c = 91
    · obtain ⟨h1, rfl⟩ := hbr
      refine .inr (.inl ⟨⟨fun j => if j = 1 then 91 else e.escbuf j, 2, e.escready⟩, ?_,
        ⟨hw.ready, by simp [hE], fun i hi hin => ?_⟩, ?_⟩)
      · simp [Esc.collect, Esc.write, hE, h1, ESC, bind, Except.bind, pure, Except.pure]
      · simp at hin
        omega
      · simp [Scan.next, ESC, Esc.scan, h1, Esc.tail]
    · refine .inl ⟨?_, by omega, ?_⟩
      · simp [Esc.collect, hesc, hbr, h2, pure, Except.pure]
      · by_cases h0 : e.nescbuf = 0
        · simp [Scan.next, hc, hesc, Esc.scan, h0]
        · have h1 : e.nescbuf = 1 := by omega
          have h91 : c ≠ 91 := fun heq => hbr ⟨h1, heq⟩
          simp [Scan.next, hc, hesc, Esc.scan, h1, h91]

end Eclair
