import Eclair.Shell.Line
import Eclair.Shell.Control

/-!
# Eclair.Shell.Exec

The evaluator of `bin/sh.c`: `cmd_exec` with its builtins, `eval_line` and
`eval_file`.

Its state is that of `Control.Ctl`: the shell, `if_block` and `if_skip`.
Whether a command was carried out is noted in the shell, and `evalLine`
keeps the notes of the commands of a script, one for each.
-/

namespace Eclair

open Control (Ctl)

/-! ## words -/

def THEN : Bytes := [116, 104, 101, 110]
def ELSE : Bytes := [101, 108, 115, 101]
def FI : Bytes := [102, 105]
def IF : Bytes := [105, 102]
def BANG : Bytes := [33]
def EXIT : Bytes := [101, 120, 105, 116]
def ECHO : Bytes := [101, 99, 104, 111]
def INIT : Bytes := [105, 110, 105, 116]
def CD : Bytes := [99, 100]
def TEST : Bytes := [116, 101, 115, 116]

/-- The decimal digits of a number. -/
def decimal (n : Nat) : Bytes := (Nat.toDigits 10 n).map fun c => c.toNat.toUInt8

/-- `atoi`. -/
def atoi (s : Bytes) : Int :=
  let value (ds : Bytes) : Int :=
    (ds.takeWhile isDigitByte).foldl (fun r c => r * 10 + ((c.toNat : Int) - 48)) 0
  if s.head? = some 45 then -value (s.drop 1) else value s
where
  isDigitByte (c : UInt8) : Bool := 48 ≤ c && c ≤ 57

variable {W : Type}

/-! ## builtins -/

/-- `echo`. -/
def echoCmd (s : Sh W) (rest : List Bytes) : Sh W :=
  { s with stdout := s.stdout ++ [32].intercalate rest ++ [10] }

/-- `cd`. -/
def cdCmd (os : Os W) (s : Sh W) (rest : List Bytes) : Sh W × Nat :=
  match rest with
  | [path] =>
      match os.chdir s.world path with
      | (w, some errno) => ({ s with world := w, stderr := s.stderr ++ [.cdFail errno] }, 0xff)
      | (w, none) => ({ s with world := w, cwd := os.getcwd w }, 0)
  | _ => ({ s with stderr := s.stderr ++ [.cdArgs] }, 0xff)

/-- The binary operations of `test`. -/
def testBinary (left op right : Bytes) : Option Bool :=
  if op = [61] then some (left == right)
  else if op = [45, 101, 113] then some (atoi left == atoi right)
  else if op = [45, 110, 101] then some (atoi left != atoi right)
  else if op = [45, 108, 116] then some (decide (atoi left < atoi right))
  else if op = [45, 103, 116] then some (decide (atoi left > atoi right))
  else none

/-- The unary operations of `test`. -/
def testUnary (op : Bytes) (stat : Option (Nat × Nat)) : Option Bool :=
  if op = [45, 101] then some stat.isSome
  else if op = [45, 102] then some (stat.any fun st => st.1 &&& 0x1 != 0)
  else if op = [45, 100] then some (stat.any fun st => st.1 &&& 0x2 != 0)
  else if op = [45, 120] then some (stat.any fun st => st.2 &&& 0o111 != 0)
  else none

/-- `test` and `[`. -/
def testCmd (os : Os W) (s : Sh W) (bin : Bytes) (rest : List Bytes) : Sh W × Nat :=
  let bracket : Bool := bin == [91]
  let expa := 3 + if bracket then 1 else 0
  let argc := rest.length + 1
  if argc ≠ expa ∧ argc ≠ expa + 1 ∨ bracket ∧ rest.getLast? ≠ some [93] then
    ({ s with stderr := s.stderr ++ [.testArgs bin] }, 0xff)
  else
    let op := if argc = expa then rest.getD 0 [] else rest.getD 1 []
    let right := if argc = expa then rest.getD 1 [] else rest.getD 2 []
    let result := if argc = expa then testUnary op (os.stat s.world right)
      else testBinary (rest.getD 0 []) op right
    match result with
    | none => ({ s with stderr := s.stderr ++ [.testOp bin op] }, 0xff)
    | some r => (s, if r then 0 else 1)

/-- Any other command: the process is waited for, but not in the background. -/
def externalCmd (os : Os W) (s : Sh W) (bin : Bytes) (rest : List Bytes) (bg : Bool) : Sh W × Nat :=
  let path := ([47, 98, 105, 110, 47] ++ bin).take (ARGBUFSZ - 1)
  let pwd := ([80, 87, 68, 61] ++ s.cwd).take (ARGBUFSZ - 1)
  let envp := [rawGetenv os [69, 67, 95, 83, 84, 68, 73, 78],
    rawGetenv os [69, 67, 95, 83, 84, 68, 79, 85, 84],
    rawGetenv os [69, 67, 95, 83, 84, 68, 69, 82, 82], some pwd]
  match os.pexec s.world path (bin :: rest) envp with
  | (w, none) => ({ s with world := w, stderr := s.stderr ++ [.notFound bin] }, 0xff)
  | (w, some pid) =>
      if bg then ({ s with world := w }, 0)
      else
        let r := os.pwait w pid
        ({ s with world := r.1 }, r.2)

/-! ## `cmd_exec` -/

/-- The branches of `cmd_exec`; `inner` runs the command behind the first word. -/
def cmdBody (os : Os W) (bg : Bool) (inner : Ctl (Sh W) → Option (Ctl (Sh W) × Nat))
    (bin : Bytes) (rest : List Bytes) (x : Ctl (Sh W)) : Option (Ctl (Sh W) × Nat) :=
  if x.block ≠ 0 ∧ bin = FI then
    some ({ x with block := x.block - 1, skip := x.skip && decide (x.block - 1 ≠ 0) }, 0)
  else if x.block ≠ 0 ∧ bin = ELSE then some ({ x with skip := !x.skip }, 0)
  else if x.skip ∨ x.block ≠ 0 ∧ bin = THEN then some (x, 0)
  else
    let s := { x.st with ran := true }
    if bin = EXIT then some ({ x with st := { s with running := false } }, 0)
    else if bin = ECHO then some ({ x with st := echoCmd s rest }, 0)
    else if bin = INIT then
      some ({ x with st := { s with stderr := s.stderr ++ [.badIdea] } }, 0xff)
    else if bin = CD then
      let r := cdCmd os s rest
      some ({ x with st := r.1 }, r.2)
    else if bin = TEST ∨ bin = [91] then
      let r := testCmd os s bin rest
      some ({ x with st := r.1 }, r.2)
    else if bin = IF then (inner x).map fun r =>
      ({ r.1 with block := r.1.block + 1, skip := r.1.skip || decide (1 ≤ r.2) }, 0)
    else if bin = BANG then (inner x).map fun r => (r.1, if r.2 = 0 then 1 else 0)
    else
      let r := externalCmd os s bin rest bg
      some ({ x with st := r.1 }, r.2)

/-- `cmd_exec`; without arguments it reads the null pointer. -/
def cmdExec (os : Os W) (fuel : Nat) (bg : Bool) :
    List Bytes → Ctl (Sh W) → Option (Ctl (Sh W) × Nat)
  | [], _ => none
  | w :: ws, x =>
      if 61 ∈ w ∧ x.skip = false then
        let key := (w.takeWhile (· ≠ 61)).take 255
        let val := (w.dropWhile (· ≠ 61)).drop 1
        (ecHmapSet ecHmapVarSet fuel x.st.vars key val).bind fun vars =>
          let x := { x with st := { x.st with vars := vars, ran := true } }
          match ws with
          | [] => some (x, 0)
          | bin :: rest => cmdBody os bg (cmdExec os fuel bg rest) bin rest x
      else cmdBody os bg (cmdExec os fuel bg ws) w ws x

/-! ## lines and files -/

/-- The body of the loop of `eval_line`, once the arguments are there. -/
def evalArgs (os : Os W) (fuel : Nat) (args : List Bytes) (x : Ctl (Sh W)) : Option (Ctl (Sh W)) :=
  if args.isEmpty then some x
  else
    let bg := args.getLast? == some [38]
    let argv := if bg then args.dropLast else args
    (cmdExec os fuel bg argv x).map fun r =>
      { r.1 with st := { r.1.st with lastret := (decimal r.2).take 3 } }

/-- The state of `eval_line`, with the notes of the commands so far. -/
structure Eval (W : Type) where
  ctl : Ctl (Sh W)
  marks : List Bool

/-- One command of a line: a line without arguments is none. -/
def evalCmd (os : Os W) (fuel : Nat) (args : List Bytes) (v : Eval W) : Option (Eval W) :=
  if args.isEmpty then some v
  else (evalArgs os fuel args { v.ctl with st := { v.ctl.st with ran := false } }).map fun x =>
    ⟨x, v.marks ++ [x.st.ran]⟩

/-- The loop of `eval_line`, for at most `n` rounds. -/
def evalLoop (os : Os W) (fuel : Nat) : Nat → Bytes → Eval W → Option (Eval W)
  | 0, _, _ => none
  | n + 1, line, v =>
      (parseLine os fuel v.ctl.st line).bind fun p => (evalCmd os fuel p.1 v).bind fun v =>
        if p.2.isEmpty then some v else evalLoop os fuel n p.2 v

/-- `eval_line`: every round takes a character, but for the last. -/
def evalLine (os : Os W) (fuel : Nat) (line : Bytes) (v : Eval W) : Option (Eval W) :=
  evalLoop os fuel (line.length + 1) line v

/-- What the calls of `fgets` give: the lines, as far as they fit, and what
is left before the end of the file. -/
def fgetsLines : List UInt8 → List Bytes
  | [] => [[]]
  | c :: cs =>
      if c = 10 then [10] :: fgetsLines cs
      else match fgetsLines cs with
        | [] => [[c]]
        | l :: ls => (c :: l) :: ls

/-- What is in `linebuf`, as a string. -/
def lineOf (l : Bytes) : Bytes := (l.take (LINEBUFSZ - 1)).takeWhile (· ≠ 0)

/-- The lines of a file, one after the other. -/
def evalLines (os : Os W) (fuel : Nat) : List Bytes → Eval W → Option (Eval W)
  | [], v => some v
  | l :: ls, v => (evalLine os fuel (lineOf l) v).bind (evalLines os fuel ls)

/-- `eval_file`. -/
def evalFile (os : Os W) (fuel : Nat) (path : Bytes) (file : Option Bytes) (v : Eval W) :
    Option (Eval W) :=
  match file with
  | none => some { v with
      ctl := { v.ctl with
        st := { v.ctl.st with stderr := v.ctl.st.stderr ++ [.cantOpen path] } } }
  | some text => evalLines os fuel (fgetsLines text) v

end Eclair
