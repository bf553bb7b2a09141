import Eclair.Lib.Digits
import Eclair.Libc.PrintfBound

/-!
# Eclair.Libc.PrintfText

What `internprintf` writes: the characters of the format, and the rendering of
each argument.

A format is a list of pieces.  The flags are those that `readfspec` takes, and
only `%s` has a width.  As in the code `j`, `z` and `t` are the lengths of
`intptr_t`, `size_t` and `ptrdiff_t`, and the last is not one of an unsigned
conversion.
-/

namespace Eclair

namespace Printf

open ByteMem Digits

/-! ## `internprintf` into a file -/

/-- `struct finfo` of a file that takes every character, and what the file has got. -/
structure Fout where
  out : Bytes := []
  pos : Nat := 0
  stores : List (Nat × Int) := []

def Fout.call (info : Fout) : Call → Fout
  | .wr buf => { info with out := info.out ++ buf, pos := u32 (info.pos + buf.length) }
  | .store p => { info with stores := info.stores ++ [(p, toInt info.pos)] }

/-- `internprintf` into a file. -/
def internprintf (fmt : Bytes) (args : List Arg) : Option (Int × Fout) :=
  (interncalls [] 0 fmt args).map fun r =>
    let info := r.1.foldl Fout.call {}
    (if r.2 then toInt info.pos else -1, info)

/-! ## formats -/

inductive Flag where
  | minus | plus | space
  deriving DecidableEq

def Flag.char : Flag → UInt8
  | .minus => 45
  | .plus => 43
  | .space => 32

/-- The value of some decimal digits. -/
def decimal (ds : List (Fin 10)) : Nat := ds.foldl (fun n d => n * 10 + d.val) 0

/-- The flags and the width of a conversion.  A space behind another sign flag is not taken. -/
structure Field where
  flags : List Flag := []
  width : List (Fin 10) := []
  signs : .space ∉ (flags.filter (· ≠ .minus)).tail := by decide
  fits : decimal width < 2 ^ 31 := by decide

def Field.chars (f : Field) : Bytes :=
  f.flags.map Flag.char ++ f.width.map fun d => UInt8.ofNat (48 + d.val)

/-- The sign of a value that is not negative, as the flags request it. -/
def Field.sign (f : Field) : Bytes :=
  if .plus ∈ f.flags then [43] else if .space ∈ f.flags then [32] else []

/-- The characters of a length modifier. -/
def Len.chars : Len → Bytes
  | .int => []
  | .char => [104, 104]
  | .short => [104]
  | .long => [108]
  | .llong => [108, 108]
  | .intptr => [106]
  | .size => [122]
  | .ptrdiff => [116]
  | .ldouble => [76]

def Len.bits : Len → Nat
  | .char => 8
  | .short => 16
  | .llong => 64
  | _ => 32

/-- The argument with a signed value. -/
def Len.intArg (len : Len) (v : Int) : Arg :=
  if len = .llong then .dword (Int64.ofInt v).toUInt64 else .word (Int32.ofInt v).toUInt32

/-- The argument with an unsigned value. -/
def Len.uintArg (len : Len) (v : Nat) : Arg :=
  if len = .llong then .dword (.ofNat v) else .word (.ofNat v)

/-- `d` and `i`. -/
inductive Signed where
  | d | i
  deriving DecidableEq

def Signed.char : Signed → UInt8
  | .d => 100
  | .i => 105

/-- `o`, `u`, `x` and `X`. -/
inductive Unsigned where
  | octal | uint | hex | hexUpper
  deriving DecidableEq

def Unsigned.char : Unsigned → UInt8
  | .octal => 111
  | .uint => 117
  | .hex => 120
  | .hexUpper => 88

def Unsigned.base : Unsigned → Nat
  | .octal => 8
  | .uint => 10
  | .hex => 16
  | .hexUpper => 16

/-- A piece of a format with the value of its argument, which is one of its type. -/
inductive Piece where
  | char (c : UInt8) (hc : c ≠ 0 ∧ c ≠ 37)
  | percent
  | int (f : Field) (c : Signed) (len : Len) (v : Int) (hlen : len ≠ .ldouble)
      (hv : -2 ^ (len.bits - 1) ≤ v ∧ v < 2 ^ (len.bits - 1))
  | uint (f : Field) (c : Unsigned) (len : Len) (v : Nat) (hlen : len ≠ .ldouble ∧ len ≠ .ptrdiff)
      (hv : v < 2 ^ len.bits)
  | chr (f : Field) (v : UInt32)
  | str (f : Field) (s : Bytes) (hs : 0 ∉ s)
  | ptr (f : Field) (p : UInt32)

namespace Piece

/-- The format of a piece. -/
def fmt : Piece → Bytes
  | char c _ => [c]
  | percent => [37, 37]
  | int f c len _ _ _ => 37 :: (f.chars ++ len.chars ++ [c.char])
  | uint f c len _ _ _ => 37 :: (f.chars ++ len.chars ++ [c.char])
  | chr f _ => 37 :: (f.chars ++ [99])
  | str f _ _ => 37 :: (f.chars ++ [115])
  | ptr f _ => 37 :: (f.chars ++ [112])

/-- The arguments of a piece. -/
def args : Piece → List Arg
  | char _ _ => []
  | percent => []
  | int _ _ len v _ _ => [len.intArg v]
  | uint _ _ len v _ _ => [len.uintArg v]
  | chr _ v => [.word v]
  | str _ s _ => [.str (some s)]
  | ptr _ p => [.word p]

/-- The rendering of a piece. -/
def render : Piece → Bytes
  | char c _ => [c]
  | percent => [37]
  | int f _ _ v _ _ => (if v < 0 then [45] else f.sign) ++ numeral 10 false v.natAbs
  | uint _ c _ v _ _ => numeral c.base (c = .hexUpper) v
  | chr _ v => [v.toUInt8]
  | str f s _ =>
      let pad : Bytes := List.replicate (decimal f.width - s.length) 32
      if .minus ∈ f.flags then s ++ pad else pad ++ s
  | ptr _ p => [48, 120] ++ numeral 16 false p.toNat

/-- The pieces that come out right: not `%%`, no length `z`, no sign flag for the value 0 of a signed
conversion or another value of an unsigned one, and not the least value of 64 bits. -/
def Good : Piece → Prop
  | percent => False
  | int f _ len v _ _ => len ≠ .size ∧ (v = 0 → f.sign = []) ∧ v ≠ -2 ^ 63
  | uint f _ len v _ _ => len ≠ .size ∧ (v ≠ 0 → f.sign = [])
  | ptr f p => p ≠ 0 → f.sign = []
  | _ => True

end Piece

/-- The output is `t`, and the result its length: in a file, and in each buffer that it fits in. -/
def Outputs (fmt : Bytes) (args : List Arg) (t : Bytes) : Prop :=
  (∃ info, internprintf fmt args = some ((t.length : Int), info) ∧ info.out = t) ∧
    ∀ s n m, t.length < n → n < 2 ^ 32 →
      ∃ info, vsnprintf s n fmt args m = some ((t.length : Int), info) ∧ HasString info.mem s t

/-- The output of a format is the rendering of its pieces. -/
def Renders (ps : List Piece) : Prop :=
  Outputs (ps.flatMap Piece.fmt) (ps.flatMap Piece.args) (ps.flatMap Piece.render)

variable {fmt t lit : Bytes} {args : List Arg} {calls : List Call} {spec : Fspec} {ok : Bool}
variable {base k v : Nat} {upper : Bool} {ps : List Piece} {p : Piece} {info : Fout}

/-! ## the output -/

theorem fout_calls (info : Fout) (calls : List Call) (h : info.pos = u32 info.out.length) :
    (calls.foldl Fout.call info).out = info.out ++ text calls ∧
      (calls.foldl Fout.call info).pos = u32 (info.out ++ text calls).length := by
  induction calls generalizing info with
  | nil => simpa using h
  | cons c calls ih =>
      cases c with
      | wr buf =>
          have hpos : u32 (info.pos + buf.length) = u32 (info.out ++ buf).length := by
            rw [h, List.length_append, u32, u32, u32, Nat.mod_add_mod]
          simpa [Fout.call] using ih (info.call (.wr buf)) hpos
      | store p => exact ih (info.call (.store p)) h

/-- What `internprintf` does to a file. -/
theorem internprintf_eq (h : interncalls [] 0 fmt args = some (calls, ok)) :
    ∃ info, internprintf fmt args = some (if ok then toInt (u32 (text calls).length) else -1, info) ∧
      info.out = text calls := by
  obtain ⟨hout, hpos⟩ := fout_calls {} calls rfl
  refine ⟨calls.foldl Fout.call {}, ?_, hout⟩
  rw [internprintf, h]
  dsimp only [Option.map_some]
  rw [hpos]
  rfl

/-- `(int)` is exact below `2 ^ 31`. -/
theorem toInt_u32 (n : Nat) : toInt (u32 n) = n ↔ n < 2 ^ 31 := by
  rw [toInt, u32]
  split <;> omega

theorem vsnprintf_outputs {s n : Nat} {m : ByteMem} (hlen : (text calls).length < 2 ^ 31)
    (hn : n < 2 ^ 32) (hfit : (text calls).length < n)
    (h : interncalls [] 0 fmt args = some (calls, true)) :
    ∃ info, vsnprintf s n fmt args m = some (((text calls).length : Int), info) ∧
      HasString info.mem s (text calls) := by
  obtain ⟨r, info, t, hrun, ht, -, hstr⟩ :=
    (bounded_of_ok hn (by omega) h : Bounded s n fmt args) m
  have hpos := (holds_run s n m calls).pos
  rw [sub32_of_le (by omega) hn, Nat.min_eq_right (by omega)] at hpos
  have hr : r = (text calls).length := by
    rw [vsnprintf, h] at hrun
    rw [← (Prod.mk.inj (Option.some.inj hrun)).1]
    dsimp only
    rw [hpos, toInt, if_pos hlen]
  rw [fullText, h] at ht
  obtain rfl := Option.some.inj ht
  refine ⟨info, by rw [hrun, hr], ?_⟩
  have hstring := hstr (by omega)
  rwa [List.take_of_length_le (by dsimp only; omega)] at hstring

/-- **The output** in terms of the calls of `finfowr`. -/
theorem outputs_iff (h : interncalls [] 0 fmt args = some (calls, ok)) :
    Outputs fmt args t ↔ t.length < 2 ^ 31 ∧ ok = true ∧ text calls = t := by
  obtain ⟨info, hrun, hout⟩ := internprintf_eq h
  constructor
  · rintro ⟨⟨info', hrun', ht⟩, -⟩
    rw [hrun] at hrun'
    obtain ⟨hr, rfl⟩ := Prod.mk.inj (Option.some.inj hrun')
    cases ok with
    | false => exact absurd hr (by simp)
    | true =>
        obtain rfl : text calls = t := hout.symm.trans ht
        exact ⟨(toInt_u32 _).mp hr, rfl, rfl⟩
  · rintro ⟨hlen, rfl, rfl⟩
    exact ⟨⟨info, by rw [hrun, if_pos rfl, (toInt_u32 _).mpr hlen], hout⟩,
      fun s n m hfit hn => vsnprintf_outputs hlen hn hfit h⟩

/-! ## what a piece writes -/

namespace Piece

/-- The code gives up: it reads a number of the length `z`, and goes on to `finfowr_double`. -/
def givesUp : Piece → Bool
  | int _ _ len _ _ _ => decide (len = .size)
  | uint _ _ len _ _ _ => decide (len = .size)
  | _ => false

/-- What the code writes for a value of an unsigned conversion. -/
def writtenUint (f : Field) (base : Nat) (upper : Bool) (v : Nat) : Bytes :=
  if v = 0 then [48] else f.sign ++ digits base upper 32 v

/-- What the code writes for a value of a signed conversion. -/
def writtenInt (f : Field) (v : Int) : Bytes :=
  if v = 0 then [48] else if v < 0 then 45 :: intDigits 32 (neg64 v) else f.sign ++ intDigits 32 v

/-- What the code writes for a piece. -/
def written : Piece → Bytes
  | percent => []
  | int f _ _ v _ _ => writtenInt f v
  | uint f c _ v _ _ => writtenUint f c.base (c = .hexUpper) v
  | ptr f p => [48, 120] ++ writtenUint f 16 false p.toNat
  | p => p.render

end Piece

/-! ## reading a conversion -/

theorem readFlags_plain (flags : List Flag) (h : .space ∉ flags) (spec : Fspec) (fmt : Bytes) :
    readFlags spec (flags.map Flag.char ++ fmt) = readFlags { spec with
      paddir := spec.paddir || decide (.minus ∈ flags)
      psignchar := if .plus ∈ flags then 43 else spec.psignchar } fmt := by
  induction flags generalizing spec with
  | nil => simp
  | cons flag flags ih =>
      have hflags : .space ∉ flags := fun hs => h (List.mem_cons_of_mem _ hs)
      cases flag with
      | minus => simpa [Flag.char, readFlags] using ih hflags { spec with paddir := true }
      | plus => simpa [Flag.char, readFlags] using ih hflags { spec with psignchar := 43 }
      | space => exact absurd List.mem_cons_self h

/-- The sign that some flags request. -/
def signOf (flags : List Flag) : UInt8 :=
  if .plus ∈ flags then 43 else if .space ∈ flags then 32 else 0

/-- The flags. -/
theorem readFlags_flags (flags : List Flag) (h : .space ∉ (flags.filter (· ≠ .minus)).tail)
    (spec : Fspec) (hsign : spec.psignchar = 0) (fmt : Bytes) :
    readFlags spec (flags.map Flag.char ++ fmt) = readFlags { spec with
      paddir := spec.paddir || decide (.minus ∈ flags)
      psignchar := signOf flags } fmt := by
  induction flags generalizing spec with
  | nil => simp [signOf, ← hsign]
  | cons flag flags ih =>
      cases flag with
      | minus => simpa [Flag.char, readFlags, signOf] using ih h { spec with paddir := true } hsign
      | plus =>
          have hflags : .space ∉ flags := by simpa using h
          have hrest := readFlags_plain flags hflags { spec with psignchar := 43 } fmt
          simpa [Flag.char, readFlags, signOf] using hrest
      | space =>
          have hflags : .space ∉ flags := by simpa using h
          have hrest := readFlags_plain flags hflags { spec with psignchar := 32 } fmt
          simpa [Flag.char, readFlags, signOf, hsign] using hrest

/-- A digit is read as such. -/
theorem readFlags_digit (d : Fin 10) (spec : Fspec) (fmt : Bytes) :
    readFlags spec (UInt8.ofNat (48 + d.val) :: fmt) =
      readFlags { spec with width := u32 (spec.width * 10 + d.val) } fmt := by
  have hdigit : ∀ d : Fin 10, let c := UInt8.ofNat (48 + d.val)
      c ≠ 45 ∧ c ≠ 43 ∧ c ≠ 32 ∧ c ≠ 35 ∧ (48 ≤ c ∧ c ≤ 57) ∧ c.toNat - 48 = d.val := by decide
  obtain ⟨h45, h43, h32, h35, hrange, hval⟩ := hdigit d
  rw [readFlags, if_neg h45, if_neg h43, if_neg (mt And.left h32), if_neg h35, if_pos hrange, hval]

theorem le_foldl_width (ds : List (Fin 10)) (n : Nat) :
    n ≤ ds.foldl (fun n d => n * 10 + d.val) n := by
  induction ds generalizing n with
  | nil => exact Nat.le_refl n
  | cons d ds ih => exact Nat.le_trans (by omega) (ih (n * 10 + d.val))

/-- The width. -/
theorem readFlags_width (ds : List (Fin 10)) (spec : Fspec) (fmt : Bytes)
    (h : ds.foldl (fun n d => n * 10 + d.val) spec.width < 2 ^ 31) :
    readFlags spec (ds.map (fun d => UInt8.ofNat (48 + d.val)) ++ fmt) =
      readFlags { spec with width := ds.foldl (fun n d => n * 10 + d.val) spec.width } fmt := by
  induction ds generalizing spec with
  | nil => rfl
  | cons d ds ih =>
      have hle := le_foldl_width ds (spec.width * 10 + d.val)
      rw [List.foldl_cons] at h
      rw [List.map_cons, List.cons_append, readFlags_digit, u32_of_lt (by omega)]
      exact ih _ h

/-- The length modifier. -/
theorem readFlags_len (len : Len) (spec : Fspec) (h : spec.len = .int) (fmt : Bytes) :
    readFlags spec (len.chars ++ fmt) = readFlags { spec with len := len } fmt := by
  cases len with
  | int => exact congrArg (fun len => readFlags { spec with len := len } fmt) h
  | _ => simp [Len.chars, readFlags, h]

/-- The conversion specifier ends the loop. -/
theorem readFlags_conv {c : UInt8} (hc : c ∈ [37, 99, 100, 105, 111, 112, 115, 117, 120, 88])
    (spec : Fspec) (fmt : Bytes) : readFlags spec (c :: fmt) = (spec, c, fmt) := by
  have hends : ∀ c ∈ ([37, 99, 100, 105, 111, 112, 115, 117, 120, 88] : Bytes), c ≠ 45 ∧ c ≠ 43 ∧
      c ≠ 32 ∧ c ≠ 35 ∧ ¬(48 ≤ c ∧ c ≤ 57) ∧ c ≠ 104 ∧ c ≠ 108 ∧ c ≠ 106 ∧ c ≠ 122 ∧ c ≠ 116 ∧
      c ≠ 76 := by decide +kernel
  simp [readFlags, hends c hc]

/-- What `readfspec` makes of a conversion. -/
def Field.fspec (f : Field) (len : Len) (c : UInt8) : Fspec where
  paddir := decide (.minus ∈ f.flags)
  psignchar := signOf f.flags
  width := decimal f.width
  len := len
  conv := convOf c
  convc := c

/-- **A conversion is read** up to its last character. -/
theorem readfspec_field {c : UInt8} (hc : c ∈ [37, 99, 100, 105, 111, 112, 115, 117, 120, 88])
    (f : Field) (len : Len) (fmt : Bytes) :
    readfspec (f.chars ++ len.chars ++ [c] ++ fmt) = (f.fspec len c, fmt) := by
  have hread : readFlags {} (f.chars ++ len.chars ++ [c] ++ fmt) =
      ({ f.fspec len c with conv := none, convc := 0 }, c, fmt) := by
    have hwidth := readFlags_width f.width
      { paddir := decide (.minus ∈ f.flags), psignchar := signOf f.flags } (len.chars ++ c :: fmt) f.fits
    rw [Field.chars, List.append_assoc, List.append_assoc, List.append_assoc,
      readFlags_flags f.flags f.signs {} rfl, Bool.false_or, List.singleton_append, hwidth,
      readFlags_len len _ rfl, readFlags_conv hc]
    rfl
  rw [readfspec, hread]
  rfl

theorem text_psign (f : Field) (len : Len) (c : UInt8) : text (psign (f.fspec len c)) = f.sign := by
  unfold psign Field.sign
  dsimp only [Field.fspec]
  unfold signOf
  split
  · rfl
  · split <;> rfl

/-! ## digits -/

theorem digit_eq (upper : Bool) {d : Nat} (h : d < 16) : digit upper d = hexchar upper d := by
  have hall : ∀ d < 16, ∀ upper, digit upper d = hexchar upper d := by decide
  exact hall d h upper

/-- **The digits of a value** that is not 0. -/
theorem digits_eq (h1 : 1 < base) (h16 : base ≤ 16) (h0 : v ≠ 0) (hv : v < base ^ k) :
    digits base upper k v = numeral base upper v := by
  induction k generalizing v with
  | zero => exact absurd hv (by rw [Nat.pow_zero]; omega)
  | succ k ih =>
      have hmod := Nat.mod_lt v (show 0 < base by omega)
      rw [digits, if_neg h0, numeral_eq h1, ← digit_eq upper (by omega)]
      split
      · next hlt =>
          rw [Nat.div_eq_of_lt hlt, Nat.mod_eq_of_lt hlt]
          cases k <;> rfl
      · next hle =>
          have hdiv : v / base ≠ 0 := by
            rw [Nat.div_ne_zero_iff]
            omega
          rw [ih hdiv (Nat.div_lt_of_lt_mul (by rwa [Nat.pow_succ'] at hv))]

theorem intDigits_eq (k v : Nat) : intDigits k (v : Int) = digits 10 false k v := by
  induction k generalizing v with
  | zero => rfl
  | succ k ih =>
      have hdigit : UInt8.ofInt ((v : Int).tmod 10 + 48) = hexchar false (v % 10) := by
        have hall : ∀ d < 10, UInt8.ofInt ((d : Nat) + 48) = hexchar false d := by decide
        exact hall (v % 10) (Nat.mod_lt v (by decide))
      rw [intDigits, digits, hdigit, ← ih]
      simp

/-- No digit is a percent sign, and none is a sign. -/
theorem digit_ne {d : Nat} (h : d < 16) : digit upper d ≠ 37 ∧ digit upper d ≠ 32 ∧
    digit upper d ≠ 43 := by
  have hall : ∀ d < 16, ∀ upper, digit upper d ≠ 37 ∧ digit upper d ≠ 32 ∧ digit upper d ≠ 43 := by
    decide
  exact hall d h upper

/-! ## one conversion -/

/-- The conversion gives up, or it takes its argument and writes `t`. -/
structure Did (gives : Bool) (t : Bytes) (args : List Arg) (d : Done) : Prop where
  code : d.code < 0 ↔ gives = true
  left : gives = false → d.args = args
  written : gives = false → text d.calls = t

theorem did_ok (h : text calls = t) : Did false t args ⟨calls, 0, args⟩ where
  code := by simp
  left _ := rfl
  written _ := h

theorem did_failed : Did true t args ⟨[], -1, args⟩ where
  code := by simp
  left h := nomatch h
  written h := nomatch h

variable {f : Field} {len : Len} {c : UInt8}

theorem did_uint {w : Nat} (f : Field) (base : Nat) (upper : Bool) (args : List Arg) (h : w = v) :
    ∃ d, (if w = 0 then some ⟨[.wr [48]], 0, args⟩
      else some ⟨psign (f.fspec len c) ++ [.wr (digits base upper 32 w)], 0, args⟩ : Option Done) =
        some d ∧ Did false (Piece.writtenUint f base upper v) args d := by
  rw [Piece.writtenUint, ← h]
  split
  · exact ⟨_, rfl, did_ok rfl⟩
  · exact ⟨_, rfl, did_ok (by simp [text_psign])⟩

theorem finfowrUnsigned_did (f : Field) (len : Len) (c : UInt8) (base : Nat) (upper : Bool) (args : List Arg)
    (hlen : len ≠ .ldouble ∧ len ≠ .ptrdiff) (hv : v < 2 ^ len.bits) :
    ∃ d, finfowrUnsigned base upper (f.fspec len c) (len.uintArg v :: args) = some d ∧
      Did (decide (len = .size)) (Piece.writtenUint f base upper v) args d := by
  have hword : v < 2 ^ 32 → (UInt32.ofNat v).toNat = v := UInt32.toNat_ofNat_of_lt'
  cases len with
  | ldouble => exact absurd rfl hlen.1
  | ptrdiff => exact absurd rfl hlen.2
  | size => exact ⟨_, rfl, did_failed⟩
  | llong => exact did_uint f base upper args (UInt64.toNat_ofNat_of_lt' hv)
  | _ => exact did_uint f base upper args (hword (Nat.lt_of_lt_of_le hv (by decide)))

theorem did_int {v w : Int} (f : Field) (args : List Arg) (h : w = v) :
    ∃ d, (if w = 0 then some ⟨[.wr [48]], 0, args⟩
      else if w < 0 then some ⟨[.wr [45], .wr (intDigits 32 (neg64 w))], 0, args⟩
      else some ⟨psign (f.fspec len c) ++ [.wr (intDigits 32 w)], 0, args⟩ : Option Done) =
        some d ∧ Did false (Piece.writtenInt f v) args d := by
  rw [Piece.writtenInt, ← h]
  split
  · exact ⟨_, rfl, did_ok rfl⟩
  · split
    · exact ⟨_, rfl, did_ok (by simp)⟩
    · exact ⟨_, rfl, did_ok (by simp [text_psign])⟩

theorem finfowrInt_did {v : Int} (f : Field) (c : UInt8) (args : List Arg) (hlen : len ≠ .ldouble)
    (hv : -2 ^ (len.bits - 1) ≤ v ∧ v < 2 ^ (len.bits - 1)) :
    ∃ d, finfowrInt (f.fspec len c) (len.intArg v :: args) = some d ∧
      Did (decide (len = .size)) (Piece.writtenInt f v) args d := by
  have hword : -2 ^ 31 ≤ v → v < 2 ^ 31 → (Int32.ofInt v).toUInt32.toInt32.toInt = v := by
    rw [Int32.toInt32_toUInt32]
    exact Int32.toInt_ofInt_of_le
  cases len with
  | ldouble => exact absurd rfl hlen
  | size => exact ⟨_, rfl, did_failed⟩
  | llong => exact did_int f args (by rw [Int64.toInt64_toUInt64, Int64.toInt_ofInt_of_le hv.1 hv.2])
  | _ => exact did_int f args (hword (Int.le_trans (by decide) hv.1) (Int.lt_of_lt_of_le hv.2 (by decide)))

theorem text_pad (k : Nat) : text (List.replicate k (.wr [32])) = List.replicate k 32 := by
  induction k with
  | zero => rfl
  | succ k ih => simp [List.replicate_succ, ih]

/-- A string with its padding, if it has any. -/
theorem text_str (f : Field) (s : Bytes) {hs : 0 ∉ s} :
    let pad : List Call := List.replicate (decimal f.width - s.length) (.wr [32])
    let wide : Bool := decide (decimal f.width ≠ 0) && decide (s.length < decimal f.width)
    text ((if wide && !decide (.minus ∈ f.flags) then pad else []) ++ [.wr s] ++
      (if wide && decide (.minus ∈ f.flags) then pad else [])) = (Piece.str f s hs).written := by
  dsimp only [Piece.written, Piece.render]
  by_cases hlt : s.length < decimal f.width
  · have hne : decimal f.width ≠ 0 := by omega
    by_cases hleft : .minus ∈ f.flags
    · simp [hlt, hne, hleft, text_pad]
    · simp [hlt, hne, hleft, text_pad]
  · simp [hlt, Nat.sub_eq_zero_of_le (Nat.le_of_not_lt hlt)]

/-- **One conversion**: what is read of the format, and what it does. -/
theorem piece_did (p : Piece) : (∃ c hc, p = .char c hc) ∨
    ∃ body spec, p.fmt = 37 :: body ∧ (∀ fmt, readfspec (body ++ fmt) = (spec, fmt)) ∧
      ∀ args, ∃ d, finfowrFspec spec (p.args ++ args) = some d ∧ Did p.givesUp p.written args d := by
  cases p with
  | char c hc => exact .inl ⟨c, hc, rfl⟩
  | percent => exact .inr ⟨[37], { convc := 37 }, rfl, fun fmt => rfl, fun args => ⟨⟨[], 0, args⟩, rfl, did_ok rfl⟩⟩
  | int f c len v hlen hv =>
      refine .inr ⟨_, _, rfl, readfspec_field (by cases c <;> decide) f len, fun args => ?_⟩
      cases c <;> exact finfowrInt_did f _ args hlen hv
  | uint f c len v hlen hv =>
      refine .inr ⟨_, _, rfl, readfspec_field (by cases c <;> decide) f len, fun args => ?_⟩
      cases c <;> exact finfowrUnsigned_did f len _ _ _ args hlen hv
  | chr f v =>
      refine .inr ⟨_, f.fspec .int 99, rfl, fun fmt => ?_, fun args => ⟨_, rfl, did_ok rfl⟩⟩
      simpa [Len.chars] using readfspec_field (by decide) f .int fmt
  | str f s hs =>
      refine .inr ⟨_, f.fspec .int 115, rfl, fun fmt => ?_, fun args => ⟨_, rfl, did_ok (text_str f s)⟩⟩
      simpa [Len.chars] using readfspec_field (by decide) f .int fmt
  | ptr f p =>
      refine .inr ⟨_, f.fspec .int 112, rfl, fun fmt => ?_, fun args => ?_⟩
      · simpa [Len.chars] using readfspec_field (by decide) f .int fmt
      · obtain ⟨d, hd, hdid⟩ := finfowrUnsigned_did f .intptr 112 16 false args (by decide) p.toNat_lt
        rw [Len.uintArg, if_neg (by decide), UInt32.ofNat_toNat] at hd
        refine ⟨_, congrArg (Option.map _) hd, hdid.code, hdid.left, fun h => ?_⟩
        rw [text_wr, hdid.written h]
        rfl

/-! ## a whole format -/

theorem interncalls_skip (lit body fmt : Bytes) (args : List Arg) :
    interncalls lit body.length (body ++ fmt) args = interncalls lit 0 fmt args := by
  induction body with
  | nil => rfl
  | cons c body ih => exact ih

theorem interncalls_conv {body : Bytes} (h : readfspec (body ++ fmt) = (spec, fmt)) :
    interncalls lit 0 (37 :: (body ++ fmt)) args = (finfowrFspec spec args).bind fun d =>
      if d.code < 0 then some (flush lit ++ d.calls, false)
      else (interncalls [] 0 fmt d.args).map fun q => (flush lit ++ d.calls ++ q.1, q.2) := by
  have hskip : (body ++ fmt).length - fmt.length = body.length := by simp
  rw [interncalls, if_pos rfl, h]
  dsimp only
  rw [hskip]
  simp only [interncalls_skip]

/-- **A run of `internprintf`** goes through all pieces unless it gives up at one. -/
theorem interncalls_pieces (ps : List Piece) (lit : Bytes) :
    ∃ calls ok, interncalls lit 0 (ps.flatMap Piece.fmt) (ps.flatMap Piece.args) = some (calls, ok) ∧
      (ok = true ↔ ∀ p ∈ ps, p.givesUp = false) ∧
        (ok = true → text calls = lit ++ ps.flatMap Piece.written) := by
  induction ps generalizing lit with
  | nil => exact ⟨_, _, rfl, by simp, fun _ => by simp [text_flush]⟩
  | cons p ps ih =>
      rw [List.flatMap_cons, List.flatMap_cons, List.flatMap_cons, List.forall_mem_cons]
      obtain ⟨c, hc, rfl⟩ | ⟨body, spec, hfmt, hread, hdo⟩ := piece_did p
      · obtain ⟨calls, ok, hrun, hok, htext⟩ := ih (lit ++ [c])
        refine ⟨calls, ok, (if_neg hc.2).trans hrun, by simpa [Piece.givesUp] using hok, fun h => ?_⟩
        rw [htext h, List.append_assoc]
        rfl
      · obtain ⟨d, hd, hdid⟩ := hdo (ps.flatMap Piece.args)
        rw [hfmt, List.cons_append, interncalls_conv (hread _), hd, Option.bind_some]
        cases hg : p.givesUp with
        | true => exact ⟨_, _, if_pos (hdid.code.mpr hg), by simp, fun h => nomatch h⟩
        | false =>
            have hcode : ¬d.code < 0 := fun hneg => by simp [hdid.code.mp hneg] at hg
            obtain ⟨calls, ok, hrun, hok, htext⟩ := ih []
            rw [if_neg hcode, hdid.left hg, hrun]
            refine ⟨_, _, rfl, by simpa using hok, fun h => ?_⟩
            simp [text_flush, hdid.written hg, htext h]

/-! ## exactly when the rendering comes out -/

/-- Two texts that differ in their first characters. -/
theorem append_ne {a b : UInt8} {s t x y : Bytes} (h : a ≠ b) : a :: s ++ x ≠ b :: t ++ y :=
  fun he => h (List.cons.inj he).1

theorem Field.sign_cases (f : Field) : f.sign = [] ∨ f.sign = [32] ∨ f.sign = [43] := by
  unfold Field.sign
  split
  · exact .inr (.inr rfl)
  · split
    · exact .inr (.inl rfl)
    · exact .inl rfl

/-- A number begins with a digit. -/
theorem numeral_cons (h1 : 1 < base) (h16 : base ≤ 16) (upper : Bool) (v : Nat) :
    ∃ d t, numeral base upper v = d :: t ∧ d ≠ 32 ∧ d ≠ 43 := by
  cases hn : numeral base upper v with
  | nil => exact absurd hn numeral_ne_nil
  | cons b t =>
      obtain ⟨d, hd, rfl⟩ := mem_numeral h1 (show b ∈ numeral base upper v by simp [hn])
      exact ⟨_, t, rfl, (digit_ne (by omega)).2⟩

/-- No digit of a number is a percent sign. -/
theorem percent_not_mem (h1 : 1 < base) (h16 : base ≤ 16) : 37 ∉ numeral base upper v :=
  not_mem_numeral h1 fun _ hd => (digit_ne (by omega)).1

theorem writtenUint_eq (f : Field) (h1 : 8 ≤ base) (h16 : base ≤ 16) (hv : v < 2 ^ 64) :
    Piece.writtenUint f base upper v =
      (if v = 0 then [] else f.sign) ++ numeral base upper v := by
  have hlt : v < base ^ 32 :=
    Nat.lt_of_lt_of_le hv (Nat.le_trans (by decide) (Nat.pow_le_pow_left h1 32))
  rw [Piece.writtenUint]
  split
  · next h0 => rw [h0, numeral_eq (by omega), if_pos (by omega), digit_eq upper (by decide)]; rfl
  · next h0 => rw [digits_eq (by omega) h16 h0 hlt]

theorem writtenUint_ne {x y : Bytes} (f : Field) (h1 : 8 ≤ base) (h16 : base ≤ 16) (hv : v < 2 ^ 64)
    (h0 : v ≠ 0) (hs : f.sign ≠ []) :
    Piece.writtenUint f base upper v ++ x ≠ numeral base upper v ++ y := by
  obtain ⟨d, t, hn, h32, h43⟩ := numeral_cons (by omega) h16 upper v
  rw [writtenUint_eq f h1 h16 hv, if_neg h0, hn]
  obtain hsign | hsign | hsign := f.sign_cases
  · exact absurd hsign hs
  · rw [hsign]
    exact append_ne (Ne.symm h32)
  · rw [hsign]
    exact append_ne (Ne.symm h43)

/-- The greatest range of a signed value. -/
theorem Len.int_range {v : Int} (hv : -2 ^ (len.bits - 1) ≤ v ∧ v < 2 ^ (len.bits - 1)) :
    -2 ^ 63 ≤ v ∧ v < 2 ^ 63 := by
  cases len <;> simp only [Len.bits] at hv <;> omega

theorem Len.uint_range (hv : v < 2 ^ len.bits) : v < 2 ^ 64 := by
  cases len <;> simp only [Len.bits] at hv <;> omega

/-- The signed values but the least one. -/
theorem writtenInt_eq {v : Int} (f : Field) (hv : -2 ^ 63 ≤ v ∧ v < 2 ^ 63) (hmin : v ≠ -2 ^ 63) :
    Piece.writtenInt f v =
      (if v < 0 then [45] else if v = 0 then [] else f.sign) ++ numeral 10 false v.natAbs := by
  have hdigits (w : Nat) (h0 : w ≠ 0) (hw : w < 2 ^ 63) :
      intDigits 32 (w : Int) = numeral 10 false w :=
    (intDigits_eq 32 w).trans
      (digits_eq (by decide) (by decide) h0 (Nat.lt_trans hw (by decide)))
  rw [Piece.writtenInt]
  obtain hneg | rfl | hpos := Int.lt_trichotomy v 0
  · have habs : neg64 v = (v.natAbs : Int) := by
      rw [neg64, if_neg hmin]
      omega
    rw [if_neg (by omega), if_pos hneg, if_pos hneg, habs, hdigits _ (by omega) (by omega)]
    rfl
  · rfl
  · have habs : v = (v.natAbs : Int) := by omega
    rw [if_neg (by omega), if_neg (by omega), if_neg (by omega), if_neg (by omega),
      ← hdigits _ (by omega) (by omega), ← habs]

/-- The digits of the least value are taken from a negative number. -/
theorem writtenInt_least_eq (f : Field) : Piece.writtenInt f (-2 ^ 63) =
    [45, 39, 46, 46, 45, 45, 41, 46, 48, 45, 42, 40, 43, 44, 41, 41, 43, 40, 48, 40] := rfl

theorem writtenInt_least_ne (f : Field) {x y : Bytes} : Piece.writtenInt f (-2 ^ 63) ++ x ≠
    [45] ++ numeral 10 false (-2 ^ 63 : Int).natAbs ++ y := by
  have hnumeral : numeral 10 false (-2 ^ 63 : Int).natAbs = [57, 50, 50, 51, 51, 55, 50, 48, 51,
    54, 56, 53, 52, 55, 55, 53, 56, 48, 56] := by decide +kernel
  rw [writtenInt_least_eq, hnumeral]
  simp

theorem written_of_good {p : Piece} (h : p.Good) : p.givesUp = false ∧ p.written = p.render := by
  cases p with
  | percent => exact h.elim
  | int f c len v hlen hv =>
      obtain ⟨hsize, hzero, hmin⟩ := h
      refine ⟨decide_eq_false hsize, (writtenInt_eq f (Len.int_range hv) hmin).trans ?_⟩
      rw [Piece.render]
      split
      · rfl
      · split
        · next h0 => rw [hzero h0]
        · rfl
  | uint f c len v hlen hv =>
      obtain ⟨hsize, hsign⟩ := h
      refine ⟨decide_eq_false hsize, (writtenUint_eq f (by cases c <;> decide)
        (by cases c <;> decide) (Len.uint_range hv)).trans ?_⟩
      rw [Piece.render]
      split
      · rfl
      · next h0 => rw [hsign h0]; rfl
  | ptr f p =>
      refine ⟨rfl, ?_⟩
      rw [Piece.written, writtenUint_eq f (by decide) (by decide)
        (Nat.lt_trans p.toNat_lt (by decide)), Piece.render]
      split
      · rfl
      · next h0 => rw [h fun hp => h0 (by simp [hp])]; rfl
  | _ => exact ⟨rfl, rfl⟩

theorem written_ne_of_bad {p : Piece} {x y : Bytes} (hg : p.givesUp = false) (h : ¬p.Good)
    (hp : p ≠ .percent) : p.written ++ x ≠ p.render ++ y := by
  cases p with
  | percent => exact absurd rfl hp
  | int f c len v hlen hv =>
      have hsize : len ≠ .size := of_decide_eq_false hg
      by_cases hmin : v = -2 ^ 63
      · subst hmin
        exact writtenInt_least_ne f
      · have hbad : v = 0 ∧ f.sign ≠ [] := by
          by_contra hnot
          exact h ⟨hsize, fun h0 => by_contra fun hs => hnot ⟨h0, hs⟩, hmin⟩
        obtain ⟨rfl, hs⟩ := hbad
        obtain hsign | hsign | hsign := f.sign_cases
        · exact absurd hsign hs
        · rw [Piece.render, hsign]
          exact append_ne (by decide)
        · rw [Piece.render, hsign]
          exact append_ne (by decide)
  | uint f c len v hlen hv =>
      have hbad : v ≠ 0 ∧ f.sign ≠ [] := by
        by_contra hnot
        exact h ⟨of_decide_eq_false hg, fun h0 => by_contra fun hs => hnot ⟨h0, hs⟩⟩
      exact writtenUint_ne f (by cases c <;> decide) (by cases c <;> decide) (Len.uint_range hv)
        hbad.1 hbad.2
  | ptr f p =>
      have hbad : p ≠ 0 ∧ f.sign ≠ [] := by
        by_contra hnot
        exact h fun h0 => by_contra fun hs => hnot ⟨h0, hs⟩
      have hne : p.toNat ≠ 0 := fun h0 => hbad.1 (UInt32.toNat_inj.mp h0)
      rw [Piece.written, Piece.render, List.append_assoc, List.append_assoc]
      exact fun he => writtenUint_ne f (by decide) (by decide) (Nat.lt_trans p.toNat_lt (by decide))
        hne hbad.2 (List.append_cancel_left he)
  | _ => exact absurd trivial h

theorem not_mem_sign (f : Field) : 37 ∉ f.sign := by
  obtain h | h | h := f.sign_cases
  · simp [h]
  · simp [h]
  · simp [h]

theorem not_mem_writtenUint (f : Field) (h1 : 8 ≤ base) (h16 : base ≤ 16) (hv : v < 2 ^ 64) :
    37 ∉ Piece.writtenUint f base upper v := by
  have hdigit : 37 ∉ numeral base upper v := percent_not_mem (by omega) h16
  rw [writtenUint_eq f h1 h16 hv]
  split
  · exact hdigit
  · simp [hdigit, not_mem_sign f]

theorem not_mem_writtenInt {v : Int} (f : Field) (hv : -2 ^ 63 ≤ v ∧ v < 2 ^ 63) :
    37 ∉ Piece.writtenInt f v := by
  by_cases hmin : v = -2 ^ 63
  · subst hmin
    rw [writtenInt_least_eq]
    decide
  · have hdigit : 37 ∉ numeral 10 false v.natAbs := percent_not_mem (by decide) (by decide)
    rw [writtenInt_eq f hv hmin]
    split
    · simp [hdigit]
    · split
      · exact hdigit
      · simp [hdigit, not_mem_sign f]

/-- No sign and no digit is a percent sign. -/
theorem count_written (p : Piece) : p.written.count 37 ≤ p.render.count 37 := by
  cases p with
  | percent => exact Nat.zero_le _
  | int f c len v hlen hv =>
      rw [Piece.written, List.count_eq_zero.mpr (not_mem_writtenInt f (Len.int_range hv))]
      exact Nat.zero_le _
  | uint f c len v hlen hv =>
      rw [Piece.written, List.count_eq_zero.mpr (not_mem_writtenUint f (by cases c <;> decide)
        (by cases c <;> decide) (Len.uint_range hv))]
      exact Nat.zero_le _
  | ptr f p =>
      have hdigits : 37 ∉ Piece.writtenUint f 16 false p.toNat :=
        not_mem_writtenUint f (by decide) (by decide) (Nat.lt_trans p.toNat_lt (by decide))
      rw [Piece.written, List.count_eq_zero.mpr (by simp [hdigits])]
      exact Nat.zero_le _
  | _ => exact Nat.le_refl _

theorem count_written_flatMap (ps : List Piece) :
    (ps.flatMap Piece.written).count 37 ≤ (ps.flatMap Piece.render).count 37 := by
  induction ps with
  | nil => exact Nat.le_refl _
  | cons p ps ih =>
      rw [List.flatMap_cons, List.flatMap_cons, List.count_append, List.count_append]
      exact Nat.add_le_add (count_written p) ih

/-- A percent sign is missing, and no other piece makes up for it. -/
theorem not_percent (h : ps.flatMap Piece.written = ps.flatMap Piece.render) : .percent ∉ ps := by
  intro hmem
  obtain ⟨front, rest, rfl⟩ := List.append_of_mem hmem
  have hcount := congrArg (List.count 37) h
  have hfront := count_written_flatMap front
  have hrest := count_written_flatMap rest
  simp [Piece.written, Piece.render] at hcount
  omega

/-- **The first piece that comes out wrong** is seen in the output. -/
theorem good_of_eq (hp : .percent ∉ ps) (hg : ∀ p ∈ ps, p.givesUp = false)
    (h : ps.flatMap Piece.written = ps.flatMap Piece.render) : ∀ p ∈ ps, p.Good := by
  induction ps with
  | nil => exact fun p hp => (List.not_mem_nil hp).elim
  | cons p ps ih =>
      rw [List.forall_mem_cons] at hg ⊢
      have hne : p ≠ .percent := fun heq => hp (by simp [heq])
      have hgood : p.Good := by_contra fun hbad => written_ne_of_bad hg.1 hbad hne h
      rw [List.flatMap_cons, List.flatMap_cons, (written_of_good hgood).2] at h
      exact ⟨hgood, ih (fun hmem => hp (List.mem_cons_of_mem _ hmem)) hg.2 (List.append_cancel_left h)⟩

theorem written_flatMap (h : ∀ p ∈ ps, p.Good) :
    ps.flatMap Piece.written = ps.flatMap Piece.render :=
  congrArg List.flatten (List.map_congr_left fun p hp => (written_of_good (h p hp)).2)

/-- **The output is the rendering exactly if** every piece comes out right, and its length is an
`int`. -/
theorem renders_iff (ps : List Piece) :
    Renders ps ↔ (∀ p ∈ ps, p.Good) ∧ (ps.flatMap Piece.render).length < 2 ^ 31 := by
  obtain ⟨calls, ok, hrun, hok, htext⟩ := interncalls_pieces ps []
  rw [Renders, outputs_iff hrun]
  constructor
  · rintro ⟨hlen, rfl, ht⟩
    have heq : ps.flatMap Piece.written = ps.flatMap Piece.render := (htext rfl).symm.trans ht
    exact ⟨good_of_eq (not_percent heq) (hok.mp rfl) heq, hlen⟩
  · rintro ⟨hgood, hlen⟩
    have hall := hok.mpr fun p hp => (written_of_good (hgood p hp)).1
    exact ⟨hlen, hall, (htext hall).trans (written_flatMap hgood)⟩

/-- The format `%%` writes nothing. -/
theorem not_renders : ¬Renders [.percent] := by
  rintro ⟨⟨info, hrun, -⟩, -⟩
  have hnothing : internprintf [37, 37] [] = some (0, {}) := rfl
  have hr := (Prod.mk.inj (Option.some.inj (hrun.symm.trans hnothing))).1
  exact absurd hr (by decide)

end Printf

end Eclair
