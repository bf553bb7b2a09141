import Eclair.Shell.Words

/-!
# Eclair.Shell.Vectors

The argument vectors that `cmd_exec` of `bin/sh.c` is called with.

Every call reads `argv[0]` before it looks at `argc`.  `cmdCalls` lists the
calls that a command makes, itself and those behind `if` and `!`, with their
vectors; `cmdExec_of_null` says that the evaluator does not get past one whose
`argv[0]` is the null pointer.  `lineCmds` are the commands that `eval_line`
gets to, each in its state.
-/

namespace Eclair

open Control (Ctl)

variable {W : Type}

/-! ## vectors -/

/-- `argc` and the rest of the array from `argv` on. -/
structure CmdCall where
  argc : Nat
  argv : List (Option Bytes)
  deriving DecidableEq

/-- There is a first argument, and a null pointer behind the last one. -/
structure CmdCall.Good (c : CmdCall) : Prop where
  counted : 1 ≤ c.argc
  first : ∃ w, c.argv[0]? = some (some w)
  ended : c.argv[c.argc]? = some none

/-- The loop of `eval_line` that fills `argv`. -/
def fillArgv (args : List Bytes) : CmdCall :=
  args.foldl (fun r arg => ⟨r.argc + 1, r.argv.set r.argc (some arg)⟩)
    ⟨0, List.replicate (MAX_ARGS + 1) none⟩

/-- The vector that `eval_line` calls `cmd_exec` with. -/
def evalArgv (args : List Bytes) : CmdCall :=
  let r := fillArgv args
  let argv := r.argv.set r.argc none
  if r.argc ≠ 0 ∧ argv.getD (r.argc - 1) none = some [38] then
    ⟨r.argc - 1, argv.set (r.argc - 1) none⟩
  else ⟨r.argc, argv⟩

/-- `cmd_exec` calls itself for a command; no other builtin has one of these names. -/
def recurses (block : Nat) (skip : Bool) (bin : Bytes) : Bool :=
  !(block != 0 && bin == FI) && !(block != 0 && bin == ELSE) && !(skip || block != 0 && bin == THEN) &&
    (bin == IF || bin == BANG)

/-- The first word is an assignment that is carried out. -/
def assigns (skip : Bool) (w : Bytes) : Bool := decide (61 ∈ w) && !skip

/-- The calls of `cmd_exec` for a command, under the `if_block` and `if_skip` in force. -/
def cmdCalls (block : Nat) (skip : Bool) : Nat → List (Option Bytes) → List CmdCall
  | argc, some w :: argv =>
      ⟨argc, some w :: argv⟩ ::
        if assigns skip w then
          if argc - 1 = 0 then []
          else match argv with
            | some bin :: rest =>
                if recurses block skip bin then cmdCalls block skip (argc - 1 - 1) rest else []
            | _ => []
        else if argc = 0 then []
        else if recurses block skip w then cmdCalls block skip (argc - 1) argv
        else []
  | argc, argv => [⟨argc, argv⟩]

/-- A command that `eval_line` gets to: the `if` counters, and its arguments. -/
structure LineCmd where
  block : Nat
  skip : Bool
  args : List Bytes

/-- The calls that it makes. -/
def LineCmd.calls (c : LineCmd) : List CmdCall :=
  cmdCalls c.block c.skip (evalArgv c.args).argc (evalArgv c.args).argv

/-- The commands that the loop of `eval_line` gets to. -/
def lineCmds (os : Os W) (fuel : Nat) : Nat → Bytes → Eval W → List LineCmd
  | 0, _, _ => []
  | n + 1, line, v =>
      match parseLine os fuel v.ctl.st line with
      | none => []
      | some p =>
          (if p.1.isEmpty then [] else [⟨v.ctl.block, v.ctl.skip, p.1⟩]) ++
            match evalCmd os fuel p.1 v with
            | none => []
            | some v => if p.2.isEmpty then [] else lineCmds os fuel n p.2 v

/-- Every call made while a line is evaluated has an argument and is ended by a null pointer. -/
def GoodCalls (os : Os W) (fuel : Nat) (line : Bytes) (v : Eval W) : Prop :=
  ∀ c ∈ lineCmds os fuel (line.length + 1) line v, ∀ call ∈ c.calls, call.Good

/-! ## what a command is made of -/

/-- Nothing but `if`s and `!`s, each with at most one assignment in front. -/
def onlyPrefixes : List Bytes → Bool
  | [] => true
  | w :: ws =>
      if 61 ∈ w then
        match ws with
        | [] => false
        | bin :: rest => (bin == IF || bin == BANG) && onlyPrefixes rest
      else (w == IF || w == BANG) && onlyPrefixes ws

/-- There is a word, and unless the command is skipped something stands behind its `if`s and `!`s. -/
def Whole (skip : Bool) (ws : List Bytes) : Prop :=
  if skip then ws ≠ [] else onlyPrefixes ws = false

/-- The words without the `&` are a whole command. -/
def LineCmd.Complete (c : LineCmd) : Prop := Whole c.skip (argvOf c.args).1

variable {os : Os W} {fuel block n : Nat} {s : Sh W} {skip bg : Bool} {line rest bin : Bytes}
variable {args ws : List Bytes} {tl : List (Option Bytes)} {x : Ctl (Sh W)} {v : Eval W}

/-! ## the vector of a command -/

/-- The slots behind the arguments. -/
def padded (ws : List Bytes) : List (Option Bytes) :=
  ws.map some ++ List.replicate (MAX_ARGS + 1 - ws.length) none

theorem fillArgv_eq (h : args.length ≤ MAX_ARGS) :
    fillArgv args = ⟨args.length, padded args⟩ := by
  have hrun : ∀ (todo pre : List Bytes), pre.length + todo.length ≤ MAX_ARGS →
      todo.foldl (fun r arg => ⟨r.argc + 1, r.argv.set r.argc (some arg)⟩)
        (⟨pre.length, padded pre⟩ : CmdCall) = ⟨(pre ++ todo).length, padded (pre ++ todo)⟩ := by
    intro todo
    induction todo with
    | nil => simp
    | cons a todo ih =>
        intro pre hlen
        rw [List.length_cons] at hlen
        have hset : (padded pre).set pre.length (some a) = padded (pre ++ [a]) := by
          have hroom : MAX_ARGS + 1 - pre.length = MAX_ARGS + 1 - (pre.length + 1) + 1 := by omega
          rw [padded, hroom, List.replicate_succ]
          simp [padded]
        have hnext := ih (pre ++ [a]) (by simp only [List.length_append, List.length_singleton]; omega)
        rw [List.length_append, List.length_singleton, List.append_assoc,
          List.singleton_append] at hnext
        rw [List.foldl_cons, hset]
        exact hnext
  exact hrun args [] (by simpa using h)

theorem padded_ended (h : ws.length ≤ MAX_ARGS) : (padded ws).set ws.length none = padded ws := by
  have hroom : MAX_ARGS + 1 - ws.length = MAX_ARGS - ws.length + 1 := by omega
  rw [padded, hroom, List.replicate_succ]
  simp

/-- **The vector** is the arguments without the `&`, and null pointers behind them. -/
theorem evalArgv_eq (h : args.length ≤ MAX_ARGS) :
    evalArgv args = ⟨(argvOf args).1.length, padded (argvOf args).1⟩ := by
  rw [evalArgv, fillArgv_eq h]
  dsimp only
  rw [padded_ended h]
  obtain rfl | ⟨pre, a, rfl⟩ := args.eq_nil_or_concat
  · rfl
  · rw [List.concat_eq_append] at h ⊢
    have hlast : (padded (pre ++ [a])).getD ((pre ++ [a]).length - 1) none = some a := by
      simp [padded]
    rw [hlast, argvOf, List.getLast?_append_of_ne_nil _ (List.cons_ne_nil a []),
      List.getLast?_singleton]
    by_cases ha : a = [38]
    · rw [if_pos ⟨by simp, congrArg some ha⟩, if_pos (congrArg some ha), List.dropLast_concat]
      have hset : (padded (pre ++ [a])).set pre.length none = padded pre := by
        rw [List.length_append, List.length_singleton] at h
        have hroom : MAX_ARGS + 1 - pre.length = MAX_ARGS + 1 - (pre.length + 1) + 1 := by omega
        rw [padded, padded, hroom, List.replicate_succ]
        simp
      simp [hset]
    · rw [if_neg fun hc => ha (Option.some.inj hc.2), if_neg fun hc => ha (Option.some.inj hc)]

/-! ## the arguments fit -/

theorem length_addarg_le {c : UInt8} (h : args.length ≤ MAX_ARGS) :
    (addarg args c).length ≤ MAX_ARGS := by
  rw [addarg]
  cases args with
  | nil => exact Nat.le_of_ble_eq_true rfl
  | cons a args => simpa using h

theorem length_newarg_le (h : args.length ≤ MAX_ARGS) : (newarg args).length ≤ MAX_ARGS := by
  rw [newarg]
  split
  · rw [List.length_append, List.length_singleton]
    omega
  · exact h

theorem length_startArg_le {exp : Bool} (h : args.length ≤ MAX_ARGS) :
    (startArg exp args).length ≤ MAX_ARGS := by
  rw [startArg]
  split
  · exact length_newarg_le h
  · exact h

theorem length_foldl_addarg_le {value : Bytes} (h : args.length ≤ MAX_ARGS) :
    (value.foldl addarg args).length ≤ MAX_ARGS := by
  induction value generalizing args with
  | nil => exact h
  | cons c value ih => exact ih (length_addarg_le h)

theorem parseFrom_length {skip : Nat} {lit : UInt8} {exp : Bool} (h : args.length ≤ MAX_ARGS)
    (hp : parseFrom os fuel s line skip lit exp args = some (ws, rest)) : ws.length ≤ MAX_ARGS := by
  fun_induction parseFrom os fuel s line skip lit exp args with
  | case10 line lit exp args h39 name hlit h10 h92 h59 h35 ih =>
      obtain ⟨value, -, hp⟩ := Option.bind_eq_some_iff.mp hp
      exact ih value (length_foldl_addarg_le (length_startArg_le h)) hp
  | _ => grind [length_addarg_le, length_startArg_le]

theorem parseLine_length (hp : parseLine os fuel s line = some (ws, rest)) : ws.length ≤ MAX_ARGS :=
  parseFrom_length (Nat.zero_le _) hp

/-! ## one command -/

theorem recurses_skip : recurses block true bin = false := by simp [recurses]

theorem recurses_noSkip : recurses block false bin = (bin == IF || bin == BANG) := by
  by_cases hif : bin = IF
  · subst hif
    simp [recurses, show IF ≠ FI by decide, show IF ≠ ELSE by decide, show IF ≠ THEN by decide]
  · by_cases hbang : bin = BANG
    · subst hbang
      simp [recurses, show BANG ≠ FI by decide, show BANG ≠ ELSE by decide,
        show BANG ≠ THEN by decide]
    · simp [recurses, hif, hbang]

theorem good_cons (w : Bytes) (ws : List Bytes) (tl : List (Option Bytes)) :
    CmdCall.Good ⟨(w :: ws).length, (w :: ws).map some ++ none :: tl⟩ where
  counted := by simp
  first := ⟨w, rfl⟩
  ended := by simp

theorem not_good_nil : ¬CmdCall.Good ⟨0, tl⟩ := fun h => Nat.not_succ_le_zero 0 h.counted

/-- The calls of a command that starts with an assignment. -/
theorem cmdCalls_assign {w : Bytes} (h61 : 61 ∈ w) :
    cmdCalls block false (w :: bin :: ws).length ((w :: bin :: ws).map some ++ none :: tl) =
      ⟨(w :: bin :: ws).length, (w :: bin :: ws).map some ++ none :: tl⟩ ::
        if recurses block false bin then cmdCalls block false ws.length (ws.map some ++ none :: tl)
        else [] := by
  simp [cmdCalls, assigns, h61]

/-- The calls of another command. -/
theorem cmdCalls_word {w : Bytes} (h : assigns skip w = false) :
    cmdCalls block skip (w :: ws).length ((w :: ws).map some ++ none :: tl) =
      ⟨(w :: ws).length, (w :: ws).map some ++ none :: tl⟩ ::
        if recurses block skip w then cmdCalls block skip ws.length (ws.map some ++ none :: tl)
        else [] := by
  rw [cmdCalls.eq_def]
  simp [h]

/-- **The calls of a command** have arguments exactly if it is complete. -/
theorem cmdCalls_good_iff :
    (∀ call ∈ cmdCalls block skip ws.length (ws.map some ++ none :: tl), call.Good) ↔
      Whole skip ws := by
  rw [Whole]
  cases skip with
  | true =>
      cases ws with
      | nil => simp [cmdCalls, not_good_nil]
      | cons w ws =>
          rw [cmdCalls_word (by simp [assigns]), recurses_skip]
          simpa using good_cons w ws tl
  | false =>
      rw [if_neg Bool.false_ne_true]
      fun_induction onlyPrefixes ws with
      | case1 => simp [cmdCalls, not_good_nil]
      | case2 w h61 =>
          have hgood := good_cons w [] tl
          simpa [cmdCalls, assigns, h61] using hgood
      | case3 w h61 bin rest ih =>
          rw [cmdCalls_assign h61, recurses_noSkip, List.forall_mem_cons]
          refine (and_iff_right (good_cons w (bin :: rest) tl)).trans ?_
          cases hbin : bin == IF || bin == BANG with
          | true => simpa using ih
          | false => simp
      | case4 w ws h61 ih =>
          rw [cmdCalls_word (by simp [assigns, h61]), recurses_noSkip, List.forall_mem_cons]
          refine (and_iff_right (good_cons w ws tl)).trans ?_
          cases hw : w == IF || w == BANG with
          | true => simpa using ih
          | false => simp

/-- The arguments of a call are the last ones of the command. -/
theorem cmdCalls_suffix {call : CmdCall}
    (h : call ∈ cmdCalls block skip ws.length (ws.map some ++ none :: tl)) :
    ∃ us, us <:+ ws ∧ call = ⟨us.length, us.map some ++ none :: tl⟩ := by
  fun_induction onlyPrefixes ws with
  | case1 =>
      obtain rfl : call = ⟨0, none :: tl⟩ := by simpa [cmdCalls] using h
      exact ⟨[], List.suffix_refl _, rfl⟩
  | case2 w h61 =>
      obtain rfl : call = ⟨1, [some w] ++ none :: tl⟩ := by
        cases hskip : skip with
        | true => simpa [cmdCalls, assigns, hskip, recurses_skip] using h
        | false => simpa [cmdCalls, assigns, hskip, h61] using h
      exact ⟨[w], List.suffix_refl _, rfl⟩
  | case3 w h61 bin rest ih =>
      cases skip with
      | true =>
          rw [cmdCalls_word (by simp [assigns]), recurses_skip] at h
          exact ⟨_, List.suffix_refl _, by simpa using h⟩
      | false =>
          rw [cmdCalls_assign h61] at h
          obtain rfl | h := List.mem_cons.mp h
          · exact ⟨_, List.suffix_refl _, rfl⟩
          · split at h
            · obtain ⟨us, hus, hcall⟩ := ih h
              have hrest := (List.suffix_cons bin rest).trans (List.suffix_cons w (bin :: rest))
              exact ⟨us, hus.trans hrest, hcall⟩
            · contradiction
  | case4 w ws h61 ih =>
      rw [cmdCalls_word (by simp [assigns, h61])] at h
      obtain rfl | h := List.mem_cons.mp h
      · exact ⟨_, List.suffix_refl _, rfl⟩
      · split at h
        · obtain ⟨us, hus, hcall⟩ := ih h
          exact ⟨us, hus.trans (List.suffix_cons w ws), hcall⟩
        · contradiction

/-! ## the evaluator and its calls -/

theorem cmdBody_none {inner : Ctl (Sh W) → Option (Ctl (Sh W) × Nat)} (hs : x.skip = false)
    (hb : (bin == IF || bin == BANG) = true) (hi : inner x = none) :
    cmdBody os bg inner bin ws x = none := by
  obtain rfl | rfl : bin = IF ∨ bin = BANG := by simpa using hb
  · simp [cmdBody, hs, hi, show IF ≠ FI by decide, show IF ≠ ELSE by decide,
      show IF ≠ THEN by decide, show IF ≠ EXIT by decide, show IF ≠ ECHO by decide,
      show IF ≠ INIT by decide, show IF ≠ CD by decide, show IF ≠ TEST by decide, show IF ≠ [91] by decide]
  · simp [cmdBody, hs, hi, show BANG ≠ FI by decide, show BANG ≠ ELSE by decide,
      show BANG ≠ THEN by decide, show BANG ≠ EXIT by decide, show BANG ≠ ECHO by decide,
      show BANG ≠ INIT by decide, show BANG ≠ CD by decide, show BANG ≠ TEST by decide,
      show BANG ≠ [91] by decide, show BANG ≠ IF by decide]

/-- A command that is not complete does not get past the call without an argument. -/
theorem cmdExec_of_not_whole (h : ¬Whole x.skip ws) : cmdExec os fuel bg ws x = none := by
  rw [Whole] at h
  cases hskip : x.skip with
  | true =>
      obtain rfl : ws = [] := by simpa [hskip] using h
      rfl
  | false =>
      rw [hskip, if_neg Bool.false_ne_true, Bool.not_eq_false] at h
      fun_induction onlyPrefixes ws generalizing x with
      | case1 => rfl
      | case2 w h61 => contradiction
      | case3 w h61 bin rest ih =>
          obtain ⟨hbin, hrest⟩ := Bool.and_eq_true_iff.mp h
          rw [cmdExec, if_pos ⟨h61, hskip⟩]
          refine Option.bind_eq_none_iff.mpr fun vars _ => ?_
          exact cmdBody_none hskip hbin (ih hrest hskip)
      | case4 w ws h61 ih =>
          obtain ⟨hw, hrest⟩ := Bool.and_eq_true_iff.mp h
          rw [cmdExec, if_neg fun h => h61 h.1]
          exact cmdBody_none hskip hw (ih hrest hskip)

/-- **A call without an argument is the last one**: the evaluator reads its null pointer. -/
theorem cmdExec_of_null {call : CmdCall}
    (h : call ∈ cmdCalls x.block x.skip ws.length (ws.map some ++ none :: tl)) (h0 : call.argc = 0) :
    cmdExec os fuel bg ws x = none := by
  refine cmdExec_of_not_whole fun hwhole => ?_
  have hgood := (cmdCalls_good_iff.mpr hwhole call h).counted
  omega

/-! ## all commands of a line -/

theorem mem_lineCmds {c : LineCmd} (h : c ∈ lineCmds os fuel n line v) :
    c.args.length ≤ MAX_ARGS := by
  induction n generalizing line v with
  | zero => contradiction
  | succ n ih =>
      rw [lineCmds] at h
      cases hp : parseLine os fuel v.ctl.st line with
      | none =>
          rw [hp] at h
          contradiction
      | some p =>
          rw [hp] at h
          obtain h | h := List.mem_append.mp h
          · split at h
            · contradiction
            · rw [List.mem_singleton.mp h]
              exact parseLine_length hp
          · cases he : evalCmd os fuel p.1 v with
            | none =>
                rw [he] at h
                contradiction
            | some v' =>
                rw [he] at h
                dsimp only at h
                split at h
                · contradiction
                · exact ih h

/-- The vector of a command of a line. -/
theorem LineCmd.calls_eq {c : LineCmd} (h : c.args.length ≤ MAX_ARGS) : ∃ tl,
    c.calls = cmdCalls c.block c.skip (argvOf c.args).1.length
      ((argvOf c.args).1.map some ++ none :: tl) := by
  have hle : (argvOf c.args).1.length ≤ MAX_ARGS := by
    rw [argvOf]
    split
    · rw [List.length_dropLast]
      omega
    · exact h
  have hroom : MAX_ARGS + 1 - (argvOf c.args).1.length =
      MAX_ARGS - (argvOf c.args).1.length + 1 := by omega
  refine ⟨List.replicate (MAX_ARGS - (argvOf c.args).1.length) none, ?_⟩
  rw [LineCmd.calls, evalArgv_eq h, padded, hroom, List.replicate_succ]

/-- **The vectors of `cmd_exec`** always end in a null pointer, and every call has an argument exactly
if every command that is got to, without its `&`, has a word, and, unless it is skipped, something
behind its `if`s and `!`s. -/
theorem goodCalls_iff (os : Os W) (fuel : Nat) (line : Bytes) (v : Eval W) :
    (∀ c ∈ lineCmds os fuel (line.length + 1) line v, ∀ call ∈ c.calls,
      call.argv[call.argc]? = some none) ∧
    (GoodCalls os fuel line v ↔
      ∀ c ∈ lineCmds os fuel (line.length + 1) line v, c.Complete) := by
  refine ⟨fun c hc call hcall => ?_, forall₂_congr fun c hc => ?_⟩
  · obtain ⟨tl, htl⟩ := LineCmd.calls_eq (mem_lineCmds hc)
    rw [htl] at hcall
    obtain ⟨us, -, rfl⟩ := cmdCalls_suffix hcall
    simp
  · obtain ⟨tl, htl⟩ := LineCmd.calls_eq (mem_lineCmds hc)
    rw [htl]
    exact cmdCalls_good_iff

/-- The line `if`: the command behind it has no word. -/
theorem not_goodCalls : ¬GoodCalls bareOs 0 IF ⟨⟨bareSh, 0, false⟩, []⟩ := by
  intro h
  have hcmds : lineCmds bareOs 0 (IF.length + 1) IF ⟨⟨bareSh, 0, false⟩, []⟩ =
      [⟨0, false, [IF]⟩] := rfl
  have hlast : ⟨0, List.replicate 16 none⟩ ∈ LineCmd.calls ⟨0, false, [IF]⟩ := by decide
  exact not_good_nil (h _ (hcmds ▸ List.mem_singleton.mpr rfl) _ hlast)

end Eclair
