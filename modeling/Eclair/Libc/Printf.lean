import Eclair.Lib.ByteMem
import Eclair.Basic

/-!
# Eclair.Libc.Printf

The formatted output of `libc/printf.c`, into a buffer: `vsnprintf` and
`vsprintf`.

`finfowr` does not fail on a buffer, so that what a conversion does is the
list of its calls of `finfowr`, its result, and the arguments it leaves.  The
arguments are what lies on the stack; a conversion that finds no argument of
its kind there has no result in the model.
-/

namespace Eclair

namespace Printf

open ByteMem

/-! ## arguments and calls -/

/-- An argument: 32 or 64 bits, a string or the null pointer, or the place for a count. -/
inductive Arg where
  | word (v : UInt32)
  | dword (v : UInt64)
  | str (s : Option Bytes)
  | loc (p : Nat)
  deriving DecidableEq

/-- A call of `finfowr`, or the store of the position for `n`. -/
inductive Call where
  | wr (buf : Bytes)
  | store (p : Nat)
  deriving DecidableEq

/-- What a conversion does. -/
structure Done where
  calls : List Call
  code : Int
  args : List Arg

/-- `return -1` with nothing written. -/
def failed (args : List Arg) : Option Done := some ⟨[], -1, args⟩

/-! ## format specifiers -/

inductive Len where
  | int | char | short | long | llong | intptr | size | ptrdiff | ldouble
  deriving DecidableEq

inductive ConvKind where
  | int | octal | uint | hex | double | exp | expauto | hexexp | char | str | ptr | nchars
  deriving DecidableEq

/-- `struct fspec`; no `conv` is -1. -/
structure Fspec where
  paddir : Bool := false
  psignchar : UInt8 := 0
  width : Nat := 0
  len : Len := .int
  conv : Option ConvKind := none
  convc : UInt8 := 0

/-- The loop of `readfspec`: the character that ends it (0 at the end), and the rest behind it. -/
def readFlags (spec : Fspec) : Bytes → Fspec × UInt8 × Bytes
  | [] => (spec, 0, [])
  | c :: fmt =>
      if c = 45 then readFlags { spec with paddir := true } fmt
      else if c = 43 then readFlags { spec with psignchar := 43 } fmt
      else if c = 32 ∧ spec.psignchar = 0 then readFlags { spec with psignchar := 32 } fmt
      else if c = 35 then readFlags spec fmt
      else if 48 ≤ c ∧ c ≤ 57 then
        readFlags { spec with width := u32 (spec.width * 10 + (c.toNat - 48)) } fmt
      else if c = 104 then
        readFlags { spec with
          len := if spec.len = .int then .short else if spec.len = .short then .char else spec.len } fmt
      else if c = 108 then
        readFlags { spec with
          len := if spec.len = .int then .long else if spec.len = .long then .llong else spec.len } fmt
      else if c = 106 ∧ spec.len = .int then readFlags { spec with len := .intptr } fmt
      else if c = 122 ∧ spec.len = .int then readFlags { spec with len := .size } fmt
      else if c = 116 ∧ spec.len = .int then readFlags { spec with len := .ptrdiff } fmt
      else if c = 76 ∧ spec.len = .int then readFlags { spec with len := .ldouble } fmt
      else (spec, c, fmt)

/-- The conversion specifiers. -/
def convOf (c : UInt8) : Option ConvKind :=
  if c = 100 ∨ c = 105 then some .int
  else if c = 111 then some .octal
  else if c = 117 then some .uint
  else if c = 120 ∨ c = 88 then some .hex
  else if c = 102 ∨ c = 70 then some .double
  else if c = 101 ∨ c = 69 then some .exp
  else if c = 103 ∨ c = 71 then some .expauto
  else if c = 97 ∨ c = 65 then some .hexexp
  else if c = 99 then some .char
  else if c = 115 then some .str
  else if c = 112 then some .ptr
  else if c = 110 then some .nchars
  else none

/-- `readfspec`. -/
def readfspec (fmt : Bytes) : Fspec × Bytes :=
  let r := readFlags {} fmt
  ({ r.1 with conv := convOf r.2.1, convc := r.2.1 }, r.2.2)

/-! ## conversions -/

/-- `hexchars` or `hexchars_upper`; the digits of the other bases are their first ones. -/
def hexchar (upper : Bool) (d : Nat) : UInt8 :=
  if d < 10 then UInt8.ofNat (48 + d) else UInt8.ofNat ((if upper then 55 else 87) + d)

/-- The loop that fills `buf` from its end, for at most its 32 bytes. -/
def digits (base : Nat) (upper : Bool) : Nat → Nat → Bytes
  | 0, _ => []
  | k + 1, v => if v = 0 then [] else digits base upper k (v / base) ++ [hexchar upper (v % base)]

/-- The same for signed values. -/
def intDigits : Nat → Int → Bytes
  | 0, _ => []
  | k + 1, v => if v = 0 then [] else intDigits k (v.tdiv 10) ++ [UInt8.ofInt (v.tmod 10 + 48)]

/-- The sign of a value that is not negative. -/
def psign (spec : Fspec) : List Call := if spec.psignchar ≠ 0 then [.wr [spec.psignchar]] else []

/-- `finfowr_octal`, `finfowr_uint` and `finfowr_hex`, by their base.  Behind `z` the value is read, and
the `switch` falls through to `finfowr_double`. -/
def finfowrUnsigned (base : Nat) (upper : Bool) (spec : Fspec) (args : List Arg) : Option Done :=
  let value (v : Nat) (args : List Arg) : Option Done :=
    if v = 0 then some ⟨[.wr [48]], 0, args⟩
    else some ⟨psign spec ++ [.wr (digits base upper 32 v)], 0, args⟩
  match spec.len with
  | .ptrdiff => failed args
  | .ldouble => failed args
  | .size =>
      match args with
      | .word _ :: args => failed args
      | _ => none
  | .llong =>
      match args with
      | .dword v :: args => value v.toNat args
      | _ => none
  | _ =>
      match args with
      | .word v :: args => value v.toNat args
      | _ => none

def finfowrOctal : Fspec → List Arg → Option Done := finfowrUnsigned 8 false

def finfowrUint : Fspec → List Arg → Option Done := finfowrUnsigned 10 false

def finfowrHex (spec : Fspec) : List Arg → Option Done :=
  finfowrUnsigned 16 (decide (spec.convc = 88)) spec

/-- `v = -v` of a `long long`. -/
def neg64 (v : Int) : Int := if v = -2 ^ 63 then v else -v

/-- `finfowr_int`. -/
def finfowrInt (spec : Fspec) (args : List Arg) : Option Done :=
  let value (v : Int) (args : List Arg) : Option Done :=
    if v = 0 then some ⟨[.wr [48]], 0, args⟩
    else if v < 0 then some ⟨[.wr [45], .wr (intDigits 32 (neg64 v))], 0, args⟩
    else some ⟨psign spec ++ [.wr (intDigits 32 v)], 0, args⟩
  match spec.len with
  | .size => finfowrUint spec args
  | .ldouble => failed args
  | .llong =>
      match args with
      | .dword v :: args => value v.toInt64.toInt args
      | _ => none
  | _ =>
      match args with
      | .word v :: args => value v.toInt32.toInt args
      | _ => none

/-- `finfowr_char`. -/
def finfowrChar (args : List Arg) : Option Done :=
  match args with
  | .word v :: args => some ⟨[.wr [v.toUInt8]], 0, args⟩
  | _ => none

/-- `finfowr_str`. -/
def finfowrStr (spec : Fspec) (args : List Arg) : Option Done :=
  match args with
  | .str none :: args => failed args
  | .str (some str) :: args =>
      let pad : List Call := List.replicate (spec.width - str.length) (.wr [32])
      let wide : Bool := decide (spec.width ≠ 0) && decide (str.length < spec.width)
      some ⟨(if wide && !spec.paddir then pad else []) ++ [.wr str] ++
        (if wide && spec.paddir then pad else []), 0, args⟩
  | _ => none

/-- `finfowr_ptr`. -/
def finfowrPtr (spec : Fspec) (args : List Arg) : Option Done :=
  (finfowrHex { spec with len := .intptr } args).map fun d =>
    { d with calls := .wr [48, 120] :: d.calls }

/-- `finfowr_nchars`. -/
def finfowrNchars (args : List Arg) : Option Done :=
  match args with
  | .loc p :: args => some ⟨[.store p], 0, args⟩
  | _ => none

/-- `finfowr_fspec`: no conversion writes nothing, and those of floating point numbers return -1. -/
def finfowrFspec (spec : Fspec) (args : List Arg) : Option Done :=
  match spec.conv with
  | none => some ⟨[], 0, args⟩
  | some .int => finfowrInt spec args
  | some .octal => finfowrOctal spec args
  | some .uint => finfowrUint spec args
  | some .hex => finfowrHex spec args
  | some .double => failed args
  | some .exp => failed args
  | some .expauto => failed args
  | some .hexexp => failed args
  | some .char => finfowrChar args
  | some .str => finfowrStr spec args
  | some .ptr => finfowrPtr spec args
  | some .nchars => finfowrNchars args

/-! ## `internprintf` -/

/-- Characters that are not written yet. -/
def flush (lit : Bytes) : List Call := if lit = [] then [] else [.wr lit]

/-- The calls of the loop of `internprintf`, and whether it gets to the end of the format; `lit` are the
`nlen` characters at `nfmt`, and `skip` counts characters that are taken already. -/
def interncalls : Bytes → Nat → Bytes → List Arg → Option (List Call × Bool)
  | lit, _, [], _ => some (flush lit, true)
  | lit, skip + 1, _ :: fmt, args => interncalls lit skip fmt args
  | lit, 0, c :: fmt, args =>
      if c = 37 then
        let r := readfspec fmt
        (finfowrFspec r.1 args).bind fun d =>
          if d.code < 0 then some (flush lit ++ d.calls, false)
          else (interncalls [] (fmt.length - r.2.length) fmt d.args).map fun q =>
            (flush lit ++ d.calls ++ q.1, q.2)
      else interncalls (lit ++ [c]) 0 fmt args

/-- `(int)` of a `size_t`. -/
def toInt (n : Nat) : Int := if n < 2 ^ 31 then n else n - 2 ^ 32

/-- `struct finfo` of a buffer, and what was stored for `n`. -/
structure Finfo where
  buffer : Nat
  size : Nat
  pos : Nat
  mem : ByteMem
  stores : List (Nat × Int)

/-- The loop of `finfowr`. -/
def finfowr : Bytes → Finfo → Finfo
  | [], info => info
  | c :: buf, info =>
      if info.pos < sub32 info.size 1 then
        finfowr buf { info with
          mem := Function.update info.mem (info.buffer + info.pos) c
          pos := info.pos + 1 }
      else info

def Finfo.call (info : Finfo) : Call → Finfo
  | .wr buf => finfowr buf info
  | .store p => { info with stores := info.stores ++ [(p, toInt info.pos)] }

/-- `vsnprintf`: its result, and the memory and the stores behind it. -/
def vsnprintf (s n : Nat) (fmt : Bytes) (args : List Arg) (m : ByteMem) : Option (Int × Finfo) :=
  (interncalls [] 0 fmt args).map fun r =>
    let info := r.1.foldl Finfo.call ⟨s, n, 0, m, []⟩
    if r.2 then
      (toInt info.pos, { info with mem := Function.update info.mem (info.buffer + info.pos) 0 })
    else (-1, info)

/-- `vsprintf`. -/
def vsprintf (s : Nat) (fmt : Bytes) (args : List Arg) (m : ByteMem) : Option (Int × Finfo) :=
  vsnprintf s (2 ^ 32 - 1) fmt args m

end Printf

end Eclair
