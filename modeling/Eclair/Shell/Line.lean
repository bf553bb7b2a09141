import Eclair.Libc.Hmap

/-!
# Eclair.Shell.Line

The shell's state and how it takes a line apart (`bin/sh.c`): the argument
buffers, variables, and `parse_line`.

Words are bytes without the NUL.  What the shell calls outside itself is an
`Os`: the environment, the directories, and the processes it runs.  A
lookup of a variable can fail to return (`Eclair.Libc.Hmap`), so the
functions that look one up take fuel and give an `Option`.
-/

namespace Eclair

/-- What `sh` asks of the system. -/
structure Os (W : Type) where
  environ : List Bytes
  chdir : W → Bytes → W × Option Nat
  getcwd : W → Bytes
  stat : W → Bytes → Option (Nat × Nat)
  pexec : W → Bytes → List Bytes → List (Option Bytes) → W × Option Nat
  pwait : W → Nat → W × Nat

/-- The messages of `sh`: a bad idea, `cd` with invalid arguments, `cd` that
fails, `test` with invalid arguments, `test` with an invalid operation, a
command that is not found, a script that cannot be opened. -/
inductive ShErr where
  | badIdea
  | cdArgs
  | cdFail (errno : Nat)
  | testArgs (bin : Bytes)
  | testOp (bin op : Bytes)
  | notFound (bin : Bytes)
  | cantOpen (path : Bytes)
  deriving DecidableEq, Repr

/-- The state of the shell, the `if` counters apart; `ran` notes that the
command at hand has been carried out. -/
structure Sh (W : Type) where
  world : W
  vars : Hmap Bytes
  lastret : Bytes
  cwd : Bytes
  uname : Bytes
  gname : Bytes
  running : Bool
  stdout : Bytes
  stderr : List ShErr
  ran : Bool

/-! ## the argument buffers -/

def MAX_ARGS : Nat := 16
def ARG_VLEN : Nat := 64
def ARGBUFSZ : Nat := 128
def LINEBUFSZ : Nat := 128

/-- `newarg`: a full table leaves the last argument open. -/
def newarg (args : List Bytes) : List Bytes := if args.length < MAX_ARGS then args ++ [[]] else args

/-- `addarg`. -/
def addarg (args : List Bytes) (ch : UInt8) : List Bytes :=
  let args := if args.isEmpty then newarg args else args
  args.modify (args.length - 1) fun arg => if arg.length < ARG_VLEN - 1 then arg ++ [ch] else arg

/-! ## variables -/

variable {W : Type}

/-- The name in front of the first `=`. -/
def envName (env : Bytes) : Option Bytes :=
  if 61 ∈ env then some (env.takeWhile (· ≠ 61)) else none

/-- The loop of `raw_getenv` and of `getenv`: the first entry whose name is
the start of `name`. -/
def findEnv (environ : List Bytes) (name : Bytes) : Option Bytes :=
  environ.find? fun env => match envName env with
    | none => false
    | some n => n == name.take n.length

/-- `raw_getenv`. -/
def rawGetenv (os : Os W) (name : Bytes) : Option Bytes := findEnv os.environ name

/-- `getenv`. -/
def getenv (os : Os W) (name : Bytes) : Option Bytes :=
  (findEnv os.environ name).map fun env => (env.dropWhile (· ≠ 61)).drop 1

/-- `getvar`: the outer `none` is a lookup that does not return. -/
def getvar (os : Os W) (fuel : Nat) (s : Sh W) (name : Bytes) : Option (Option Bytes) :=
  (ecHmapGet fuel s.vars name).bind fun item =>
    match item with
    | some c => (s.vars[c]?).map fun e => some e.val
    | none =>
        some (if name = [63] then some s.lastret
          else if name = [80, 87, 68] then some s.cwd
          else if name = [85, 83, 69, 82] then some s.uname
          else if name = [71, 82, 79, 85, 80] then some s.gname
          else getenv os name)

/-! ## lines -/

/-- `ISIDENT`. -/
def isIdent (c : UInt8) : Bool :=
  97 ≤ c && c ≤ 122 || 65 ≤ c && c ≤ 90 || 48 ≤ c && c ≤ 57 || c == 95 || c == 63

/-- The `switch` behind a backslash falls through to its last case. -/
def escaped (c : UInt8) : UInt8 := if c ∈ [110, 114, 116, 101] then 0x1b else c

/-- The start of an argument, when one is expected. -/
def startArg (exp : Bool) (args : List Bytes) : List Bytes := if exp then newarg args else args

/-- The loop of `parse_line`, from a character on: `skip` counts characters
that are taken already, `lit` is the quote that is open.  It gives the
arguments and the rest of the line. -/
def parseFrom (os : Os W) (fuel : Nat) (s : Sh W) :
    List UInt8 → Nat → UInt8 → Bool → List Bytes → Option (List Bytes × Bytes)
  | [], _, _, _, args => some (args, [])
  | _ :: line, skip + 1, lit, exp, args => parseFrom os fuel s line skip lit exp args
  | cc :: line, 0, lit, exp, args =>
      if cc = lit then parseFrom os fuel s line 0 0 exp args
      else if cc = 10 then parseFrom os fuel s line 0 lit exp args
      else if lit = 39 then parseFrom os fuel s line 0 lit exp (addarg args cc)
      else if cc = 92 then
        match line.head? with
        | none => some (args, [])
        | some c => parseFrom os fuel s line 1 lit exp (addarg args (escaped c))
      else if lit = 0 ∧ cc = 59 then some (args, line)
      else if lit = 0 ∧ cc = 35 then some (args, [])
      else if cc = 36 then
        let name := line.takeWhile isIdent
        (getvar os fuel s (name.take (ARGBUFSZ - 1))).bind fun value =>
          parseFrom os fuel s line name.length lit false
            ((value.getD []).foldl addarg (startArg exp args))
      else if cc = 32 ∨ cc = 9 then
        if lit ≠ 0 then parseFrom os fuel s line 0 lit exp (addarg args cc)
        else parseFrom os fuel s line 0 lit true args
      else if lit = 0 ∧ (cc = 39 ∨ cc = 34) then
        parseFrom os fuel s line 0 cc false (startArg exp args)
      else parseFrom os fuel s line 0 lit false (addarg (startArg exp args) cc)

/-- `parse_line`. -/
def parseLine (os : Os W) (fuel : Nat) (s : Sh W) (line : Bytes) : Option (List Bytes × Bytes) :=
  parseFrom os fuel s line 0 0 false []

end Eclair
