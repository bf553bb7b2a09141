import Eclair.Shell.Exec

/-!
# Eclair.Shell.Flow

The control flow of `sh` on whole files.

A file `Spells` a script when its commands, in order, are those of the
script: every keyword is a command of its own, and no other command is one.
The evaluator on such a file is the evaluator of `Eclair.Shell.Control` on
the script's tokens (`evalFile_spells`), so that it runs the commands on
the branches taken exactly when the script is kept track of.
-/

namespace Eclair

open Control (Ctl Tok Kw Script)

variable {W : Type}

/-! ## the commands of a file -/

/-- The rest of a line behind its first command; it does not depend on what
the variables hold. -/
def cutFrom : List UInt8 → Nat → UInt8 → Bytes
  | [], _, _ => []
  | _ :: line, skip + 1, lit => cutFrom line skip lit
  | cc :: line, 0, lit =>
      if cc = lit then cutFrom line 0 0
      else if cc = 10 then cutFrom line 0 lit
      else if lit = 39 then cutFrom line 0 lit
      else if cc = 92 then if line.isEmpty then [] else cutFrom line 1 lit
      else if lit = 0 ∧ cc = 59 then line
      else if lit = 0 ∧ cc = 35 then []
      else if cc = 36 then cutFrom line (line.takeWhile isIdent).length lit
      else if cc = 32 ∨ cc = 9 then cutFrom line 0 lit
      else if lit = 0 ∧ (cc = 39 ∨ cc = 34) then cutFrom line 0 cc
      else cutFrom line 0 lit

/-- The commands of a line, each with what follows it. -/
def cmdsOf : Nat → Bytes → List Bytes
  | 0, _ => []
  | n + 1, line =>
      line :: if (cutFrom line 0 0).isEmpty then [] else cmdsOf n (cutFrom line 0 0)

/-- The commands of a file. -/
def fileCmds (text : Bytes) : List Bytes :=
  (fgetsLines text).flatMap fun l => cmdsOf ((lineOf l).length + 1) (lineOf l)

/-- The arguments of a command. -/
def argsOf (os : Os W) (fuel : Nat) (c : Bytes) (s : Sh W) : Option (List Bytes) :=
  (parseLine os fuel s c).map (·.1)

/-- One command of a file. -/
def evalText (os : Os W) (fuel : Nat) (c : Bytes) (v : Eval W) : Option (Eval W) :=
  (argsOf os fuel c v.ctl.st).bind fun args => evalCmd os fuel args v

/-- Commands of a file, one after the other. -/
def evalTexts (os : Os W) (fuel : Nat) : List Bytes → Eval W → Option (Eval W)
  | [], v => some v
  | c :: cs, v => (evalText os fuel c v).bind (evalTexts os fuel cs)

variable {os : Os W} {fuel n skip : Nat} {s : Sh W} {line rest c : Bytes} {args : List Bytes}
variable {lit : UInt8} {exp : Bool} {v : Eval W} {cs ds : List Bytes}

theorem parseFrom_rest (h : parseFrom os fuel s line skip lit exp args = some (ds, rest)) :
    rest = cutFrom line skip lit := by
  induction line generalizing skip lit exp args with
  | nil =>
      cases skip with
      | zero => exact (Prod.mk.inj (Option.some.inj h)).2.symm
      | succ skip => exact (Prod.mk.inj (Option.some.inj h)).2.symm
  | cons cc line ih =>
      cases skip with
      | succ skip => exact ih h
      | zero =>
          rw [parseFrom] at h
          rw [cutFrom]
          by_cases hlit : cc = lit
          · rw [if_pos hlit] at h ⊢
            exact ih h
          rw [if_neg hlit] at h ⊢
          by_cases hnl : cc = 10
          · rw [if_pos hnl] at h ⊢
            exact ih h
          rw [if_neg hnl] at h ⊢
          by_cases hquote : lit = 39
          · rw [if_pos hquote] at h ⊢
            exact ih h
          rw [if_neg hquote] at h ⊢
          by_cases hback : cc = 92
          · rw [if_pos hback] at h ⊢
            cases line with
            | nil => exact (Prod.mk.inj (Option.some.inj h)).2.symm
            | cons c line => exact ih h
          rw [if_neg hback] at h ⊢
          by_cases hsemi : lit = 0 ∧ cc = 59
          · rw [if_pos hsemi] at h ⊢
            exact (Prod.mk.inj (Option.some.inj h)).2.symm
          rw [if_neg hsemi] at h ⊢
          by_cases hhash : lit = 0 ∧ cc = 35
          · rw [if_pos hhash] at h ⊢
            exact (Prod.mk.inj (Option.some.inj h)).2.symm
          rw [if_neg hhash] at h ⊢
          by_cases hvar : cc = 36
          · rw [if_pos hvar] at h ⊢
            obtain ⟨value, -, h⟩ := Option.bind_eq_some_iff.mp h
            exact ih h
          rw [if_neg hvar] at h ⊢
          by_cases hspace : cc = 32 ∨ cc = 9
          · rw [if_pos hspace] at h ⊢
            split at h
            · exact ih h
            · exact ih h
          rw [if_neg hspace] at h ⊢
          by_cases hopen : lit = 0 ∧ (cc = 39 ∨ cc = 34)
          · rw [if_pos hopen] at h ⊢
            exact ih h
          rw [if_neg hopen] at h ⊢
          exact ih h

theorem length_cutFrom_le : (cutFrom line skip lit).length ≤ line.length := by
  induction line generalizing skip lit with
  | nil => cases skip <;> simp [cutFrom]
  | cons cc line ih =>
      cases skip with
      | succ skip => exact Nat.le_succ_of_le ih
      | zero =>
          rw [cutFrom]
          split_ifs <;> first | exact Nat.le_succ_of_le ih | simp

/-- A rest that is not empty is shorter than the line. -/
theorem length_cutFrom_lt (h : (cutFrom line 0 0).isEmpty = false) :
    (cutFrom line 0 0).length < line.length := by
  cases line with
  | nil => simp [cutFrom] at h
  | cons cc line =>
      refine Nat.lt_succ_of_le ?_
      rw [cutFrom]
      split_ifs <;> first | exact length_cutFrom_le | simp

/-- The loop over a line goes through its commands. -/
theorem evalLoop_eq (hn : line.length < n) :
    evalLoop os fuel n line v = evalTexts os fuel (cmdsOf n line) v := by
  induction n generalizing line v with
  | zero => omega
  | succ n ih =>
      rw [evalLoop, cmdsOf, evalTexts, evalText, argsOf]
      cases hp : parseLine os fuel v.ctl.st line with
      | none => rfl
      | some p =>
          have hrest : p.2 = cutFrom line 0 0 := parseFrom_rest hp
          rw [Option.bind_some, Option.map_some, Option.bind_some, hrest]
          congr 1
          funext w
          cases he : (cutFrom line 0 0).isEmpty with
          | true => rfl
          | false =>
              have hlt := length_cutFrom_lt he
              exact ih (by omega)

theorem evalTexts_append (cs ds : List Bytes) : evalTexts os fuel (cs ++ ds) v =
    (evalTexts os fuel cs v).bind (evalTexts os fuel ds) := by
  induction cs generalizing v with
  | nil => rfl
  | cons c cs ih =>
      rw [List.cons_append, evalTexts, evalTexts, Option.bind_assoc]
      congr 1
      funext w
      exact ih

/-- `eval_file` goes through the commands of the file. -/
theorem evalFile_eq (path text : Bytes) :
    evalFile os fuel path (some text) v = evalTexts os fuel (fileCmds text) v := by
  rw [evalFile, fileCmds]
  generalize fgetsLines text = ls
  induction ls generalizing v with
  | nil => rfl
  | cons l ls ih =>
      rw [evalLines, List.flatMap_cons, evalTexts_append, evalLine, evalLoop_eq (Nat.lt_succ_self _)]
      congr 1
      funext w
      exact ih

/-! ## commands and keywords -/

/-- The word of a keyword. -/
def kwWord : Kw → Bytes
  | .thn => THEN
  | .els => ELSE
  | .fi => FI

/-- A first word that `cmd_exec` does not take for control flow. -/
def notKw (w : Bytes) : Bool := w != THEN && w != ELSE && w != FI && w != IF

/-- A command that is no part of an `if`, behind its assignment and its `!`s. -/
def plain : List Bytes → Bool
  | [] => false
  | w :: ws =>
      if 61 ∈ w then match ws with
        | [] => true
        | bin :: rest => notKw bin && (bin != BANG || plain rest)
      else notKw w && (w != BANG || plain ws)

/-- The arguments that `eval_line` hands on, and whether they end in `&`. -/
def argvOf (args : List Bytes) : List Bytes × Bool :=
  if args.getLast? = some [38] then (args.dropLast, true) else (args, false)

/-- The shell before a command. -/
def Sh.fresh (s : Sh W) : Sh W := { s with ran := false }

/-- The shell behind a command that gave 0 without being carried out. -/
def Sh.passed (s : Sh W) : Sh W := { s with ran := false, lastret := [48] }

/-- A command carried out on its own. -/
def runArgs (os : Os W) (fuel : Nat) (args : List Bytes) (s : Sh W) : Option (Sh W) :=
  (evalArgs os fuel args ⟨s.fresh, 0, false⟩).map (·.st)

/-- What `sh` does with the commands of a script. -/
def flowShell (os : Os W) (fuel : Nat) : Control.Shell (Sh W) Bytes where
  run c s := (argsOf os fuel c s).bind fun args => (runArgs os fuel args s).map fun s => (s, 0)
  cond c s := (argsOf os fuel c s).bind fun args =>
    (cmdExec os fuel (argvOf args).2 ((argvOf args).1.drop 1) ⟨s.fresh, 0, false⟩).map fun r =>
      ({ r.1.st with lastret := [48] }, r.2)
  read c s := (argsOf os fuel c s).map fun _ => s.passed
  readIf c s := (argsOf os fuel c s).map fun _ => s.passed
  kw _ s := some s.passed
  stray k s := runArgs os fuel [kwWord k] s

/-- The text `c` is the command `tok` of a script, whatever the variables hold. -/
def Matches (os : Os W) (c : Bytes) : Tok Bytes → Prop
  | .cmd c' => c' = c ∧ ∀ fuel s args, argsOf os fuel c s = some args → plain (argvOf args).1
  | .iff c' => c' = c ∧ ∀ fuel s args, argsOf os fuel c s = some args →
      ∃ ws, (argvOf args).1 = IF :: ws ∧ plain ws
  | .kw k => ∀ fuel s, argsOf os fuel c s = some [kwWord k]

/-- The commands of a file are those of a script; lines without a command
are left out. -/
inductive Spells (os : Os W) : List Bytes → List (Tok Bytes) → Prop
  | nil : Spells os [] []
  | blank (c : Bytes) {cs : List Bytes} {ts : List (Tok Bytes)}
      (h : ∀ fuel s, argsOf os fuel c s = some []) (hs : Spells os cs ts) : Spells os (c :: cs) ts
  | tok (c : Bytes) (t : Tok Bytes) {cs : List Bytes} {ts : List (Tok Bytes)}
      (h : Matches os c t) (hs : Spells os cs ts) : Spells os (c :: cs) (t :: ts)

/-! ## one command -/

variable {ws : List Bytes} {bg : Bool} {x : Ctl (Sh W)} {w : Bytes}

theorem evalArgs_eq (h : args ≠ []) : evalArgs os fuel args x =
    (cmdExec os fuel (argvOf args).2 (argvOf args).1 x).map fun r =>
      { r.1 with st := { r.1.st with lastret := (decimal r.2).take 3 } } := by
  have he : args.isEmpty = false := by simpa using h
  unfold evalArgs argvOf
  by_cases hbg : args.getLast? = some [38]
  · simp [he, hbg]
  · have hbg' : (args.getLast? == some [38]) = false := by simpa using hbg
    simp [he, hbg, hbg']

theorem notKw_iff : notKw w = true ↔ w ≠ THEN ∧ w ≠ ELSE ∧ w ≠ FI ∧ w ≠ IF := by
  simp [notKw, and_assoc]

/-- A word with a `=` is no keyword. -/
theorem notKw_of_assign (h : 61 ∈ w) : notKw w = true := by
  have hne : ∀ k : Bytes, 61 ∉ k → w ≠ k := fun k hk he => hk (he ▸ h)
  rw [notKw_iff]
  exact ⟨hne THEN (by decide), hne ELSE (by decide), hne FI (by decide), hne IF (by decide)⟩

/-- The first word of a plain command is no keyword. -/
theorem notKw_of_plain (h : plain (w :: ws) = true) : notKw w = true := by
  by_cases h61 : 61 ∈ w
  · exact notKw_of_assign h61
  · unfold plain at h
    rw [if_neg h61, Bool.and_eq_true] at h
    exact h.1

/-- Under the flag a plain command does nothing. -/
theorem cmdExec_skip (h : plain ws = true) (hx : x.skip = true) :
    cmdExec os fuel bg ws x = some (x, 0) := by
  cases ws with
  | nil => contradiction
  | cons w ws =>
      obtain ⟨-, hels, hfi, -⟩ := notKw_iff.mp (notKw_of_plain h)
      simp [cmdExec, cmdBody, hx, hels, hfi]

/-- What `cmd_exec` does with a plain command outside the flag: the depth
plays no part, and the command is carried out. -/
structure Carried (y z : Option (Ctl (Sh W) × Nat)) (n : Nat) : Prop where
  eq : y = z.map fun r => (⟨r.1.st, n, false⟩, r.2)
  keep : ∀ r, z = some r → r.1 = ⟨r.1.st, 0, false⟩ ∧ r.1.st.ran = true

theorem Carried.of {e : Nat} (h : s.ran = true) :
    Carried (some (⟨s, n, false⟩, e)) (some (⟨s, 0, false⟩, e)) n where
  eq := rfl
  keep := by
    intro r hr
    obtain rfl := Option.some.inj hr
    exact ⟨rfl, h⟩

/-- The result alone may be changed. -/
theorem Carried.map {y z : Option (Ctl (Sh W) × Nat)} (h : Carried y z n) (f : Nat → Nat) :
    Carried (y.map fun r => (r.1, f r.2)) (z.map fun r => (r.1, f r.2)) n where
  eq := by simp [h.eq, Function.comp_def]
  keep := by
    intro r hr
    obtain ⟨r', hr', rfl⟩ := Option.map_eq_some_iff.mp hr
    exact h.keep r' hr'

theorem Carried.bind {α : Type} {o : Option α} {f g : α → Option (Ctl (Sh W) × Nat)}
    (h : ∀ a, Carried (f a) (g a) n) : Carried (o.bind f) (o.bind g) n := by
  cases o with
  | none => exact ⟨rfl, by simp⟩
  | some a => exact h a

@[simp] theorem echoCmd_ran : (echoCmd s ws).ran = s.ran := rfl

@[simp] theorem cdCmd_ran : (cdCmd os s ws).1.ran = s.ran := by
  unfold cdCmd
  split
  · split <;> rfl
  · rfl

@[simp] theorem testCmd_ran : (testCmd os s w ws).1.ran = s.ran := by
  simp only [testCmd]
  split_ifs <;> first | rfl | (split <;> rfl)

@[simp] theorem externalCmd_ran : (externalCmd os s w ws bg).1.ran = s.ran := by
  simp only [externalCmd]
  split
  · rfl
  · split <;> rfl

theorem cmdBody_carried {inner : Ctl (Sh W) → Option (Ctl (Sh W) × Nat)} (hkw : notKw w = true)
    (hin : w = BANG → ∀ s, Carried (inner ⟨s, n, false⟩) (inner ⟨s, 0, false⟩) n) :
    Carried (cmdBody os bg inner w ws ⟨s, n, false⟩) (cmdBody os bg inner w ws ⟨s, 0, false⟩) n := by
  obtain ⟨hthn, hels, hfi, hif⟩ := notKw_iff.mp hkw
  simp only [cmdBody, hthn, hels, hfi, hif, and_false, if_false, Bool.false_eq_true, or_self]
  by_cases hexit : w = EXIT
  · rw [if_pos hexit, if_pos hexit]
    exact .of rfl
  rw [if_neg hexit, if_neg hexit]
  by_cases hecho : w = ECHO
  · rw [if_pos hecho, if_pos hecho]
    exact .of (by simp)
  rw [if_neg hecho, if_neg hecho]
  by_cases hinit : w = INIT
  · rw [if_pos hinit, if_pos hinit]
    exact .of rfl
  rw [if_neg hinit, if_neg hinit]
  by_cases hcd : w = CD
  · rw [if_pos hcd, if_pos hcd]
    exact .of (by simp)
  rw [if_neg hcd, if_neg hcd]
  by_cases htest : w = TEST ∨ w = [91]
  · rw [if_pos htest, if_pos htest]
    exact .of (by simp)
  rw [if_neg htest, if_neg htest]
  by_cases hbang : w = BANG
  · rw [if_pos hbang, if_pos hbang]
    exact (hin hbang _).map fun e => if e = 0 then 1 else 0
  rw [if_neg hbang, if_neg hbang]
  exact .of (by simp)

/-- **A plain command** is carried out the same way at any depth. -/
theorem cmdExec_carried (h : plain ws = true) :
    Carried (cmdExec os fuel bg ws ⟨s, n, false⟩) (cmdExec os fuel bg ws ⟨s, 0, false⟩) n := by
  induction ws using plain.induct generalizing s with
  | case1 => contradiction
  | case2 w h61 =>
      simp only [cmdExec, h61, and_self, if_true]
      exact .bind fun vars => .of rfl
  | case3 w h61 bin rest ih =>
      simp only [plain, h61, if_true, Bool.and_eq_true, Bool.or_eq_true, bne_iff_ne] at h
      simp only [cmdExec, h61, and_self, if_true]
      exact .bind fun vars => cmdBody_carried h.1 fun hbang s => ih (h.2.resolve_left (· hbang))
  | case4 w ws h61 ih =>
      unfold plain at h
      simp only [h61, if_false, Bool.and_eq_true, Bool.or_eq_true, bne_iff_ne] at h
      simp only [cmdExec, h61, false_and, if_false]
      exact cmdBody_carried h.1 fun hbang s => ih (h.2.resolve_left (· hbang))

/-! ## one token -/

/-- The evaluator's state with its notes, and a step of the script's. -/
def Eval.note (v : Eval W) (r : Ctl (Sh W) × Bool) : Eval W := ⟨r.1, v.marks ++ [r.2]⟩

theorem evalCmd_eq (h : args ≠ []) : evalCmd os fuel args v =
    (cmdExec os fuel (argvOf args).2 (argvOf args).1 { v.ctl with st := v.ctl.st.fresh }).map
      fun r => v.note ({ r.1 with st := { r.1.st with lastret := (decimal r.2).take 3 } }, r.1.st.ran) := by
  have he : args.isEmpty = false := by simpa using h
  simp only [evalCmd, he, Bool.false_eq_true, if_false, Sh.fresh]
  rw [evalArgs_eq h, Option.map_map]
  rfl

theorem argvOf_nil : argvOf [] = ([], false) := rfl

/-- Nothing is done, with the result 0. -/
theorem evalCmd_passed {m : Nat} {k : Bool} (hne : args ≠ [])
    (h : cmdExec os fuel (argvOf args).2 (argvOf args).1 { v.ctl with st := v.ctl.st.fresh } =
      some (⟨v.ctl.st.fresh, m, k⟩, 0)) :
    evalCmd os fuel args v = some (v.note (⟨v.ctl.st.passed, m, k⟩, false)) := by
  have hd : (decimal 0).take 3 = [48] := by decide
  rw [evalCmd_eq hne, h, Option.map_some, hd]
  rfl

/-- The command is carried out, on its own as well. -/
theorem evalCmd_carried (hne : args ≠ []) (hv : v.ctl = ⟨s, n, false⟩)
    (h : Carried (cmdExec os fuel (argvOf args).2 (argvOf args).1 ⟨s.fresh, n, false⟩)
      (cmdExec os fuel (argvOf args).2 (argvOf args).1 ⟨s.fresh, 0, false⟩) n) :
    evalCmd os fuel args v = (runArgs os fuel args s).map fun s => v.note (⟨s, n, false⟩, true) := by
  rw [evalCmd_eq hne, hv, h.eq, runArgs, evalArgs_eq hne, Option.map_map, Option.map_map,
    Option.map_map]
  refine Option.map_congr fun r hr => ?_
  simp [(h.keep r hr).2]

theorem evalText_cmd (hm : Matches os c (.cmd c)) :
    evalText os fuel c v = (v.ctl.step (flowShell os fuel) (.cmd c)).map v.note := by
  obtain ⟨-, hm⟩ := hm
  obtain ⟨⟨s, n, k⟩, marks⟩ := v
  simp only [evalText, Ctl.step, flowShell]
  cases hargs : argsOf os fuel c s with
  | none => cases k <;> rfl
  | some args =>
      have hplain := hm fuel s args hargs
      have hne : args ≠ [] := by
        intro he
        rw [he, argvOf_nil] at hplain
        contradiction
      cases k with
      | true =>
          rw [Option.bind_some, evalCmd_passed hne (cmdExec_skip hplain rfl)]
          rfl
      | false =>
          rw [Option.bind_some, evalCmd_carried hne rfl (cmdExec_carried hplain)]
          simp [Function.comp_def]

theorem cmdExec_if_skip (hx : x.skip = true) :
    cmdExec os fuel bg (IF :: ws) x = some (x, 0) := by
  simp [cmdExec, cmdBody, hx, IF, FI, ELSE]

theorem cmdExec_if (hx : x.skip = false) : cmdExec os fuel bg (IF :: ws) x =
    (cmdExec os fuel bg ws x).map fun r =>
      ({ r.1 with block := r.1.block + 1, skip := r.1.skip || decide (1 ≤ r.2) }, 0) := by
  simp [cmdExec, cmdBody, hx, IF, FI, ELSE, THEN, EXIT, ECHO, INIT, CD, TEST]

theorem evalText_iff (hm : Matches os c (.iff c)) :
    evalText os fuel c v = (v.ctl.step (flowShell os fuel) (.iff c)).map v.note := by
  obtain ⟨-, hm⟩ := hm
  obtain ⟨⟨s, n, k⟩, marks⟩ := v
  simp only [evalText, Ctl.step, flowShell]
  cases hargs : argsOf os fuel c s with
  | none => cases k <;> rfl
  | some args =>
      obtain ⟨ws, hws, hplain⟩ := hm fuel s args hargs
      have hne : args ≠ [] := by
        intro he
        rw [he, argvOf_nil] at hws
        contradiction
      cases k with
      | true =>
          rw [Option.bind_some, evalCmd_passed hne (hws ▸ cmdExec_if_skip rfl)]
          rfl
      | false =>
          have hc : Carried (cmdExec os fuel (argvOf args).2 ws ⟨s.fresh, n, false⟩)
              (cmdExec os fuel (argvOf args).2 ws ⟨s.fresh, 0, false⟩) n := cmdExec_carried hplain
          have hd : (decimal 0).take 3 = [48] := by decide
          have hdrop : (argvOf args).1.drop 1 = ws := by rw [hws, List.drop_one, List.tail_cons]
          simp only [Option.bind_some, hdrop, Option.map_map, Bool.false_eq_true, if_false]
          rw [evalCmd_eq hne, hws, cmdExec_if rfl, hc.eq]
          simp only [Option.map_map]
          refine Option.map_congr fun r hr => ?_
          simp [(hc.keep r hr).2, hd]

theorem argvOf_kw (k : Kw) : argvOf [kwWord k] = ([kwWord k], false) := by
  cases k <;> simp [argvOf, kwWord, THEN, ELSE, FI]

/-- What a keyword does in an `if`. -/
def kwMove (k : Kw) (n : Nat) (b : Bool) : Nat × Bool :=
  match k with
  | .thn => (n + 1, b)
  | .els => (n + 1, !b)
  | .fi => (n, b && decide (n ≠ 0))

theorem cmdExec_kw {k : Kw} {b : Bool} : cmdExec os fuel bg [kwWord k] ⟨s, n + 1, b⟩ =
    some (⟨s, (kwMove k n b).1, (kwMove k n b).2⟩, 0) := by
  cases k <;> cases b <;> simp [cmdExec, cmdBody, kwWord, kwMove, THEN, ELSE, FI]

theorem cmdExec_kw_skip {k : Kw} (hb : x.block = 0) (hx : x.skip = true) :
    cmdExec os fuel bg [kwWord k] x = some (x, 0) := by
  simp [cmdExec, cmdBody, hb, hx]

/-- Outside every `if` a keyword is run as a command. -/
theorem cmdExec_stray (k : Kw) : cmdExec os fuel bg [kwWord k] ⟨s, 0, false⟩ =
    some (⟨(externalCmd os { s with ran := true } (kwWord k) [] bg).1, 0, false⟩,
      (externalCmd os { s with ran := true } (kwWord k) [] bg).2) := by
  cases k <;> simp [cmdExec, cmdBody, kwWord, THEN, ELSE, FI, IF, EXIT, ECHO, INIT, CD, TEST, BANG]

theorem evalText_kw {k : Kw} (hm : Matches os c (.kw k)) :
    evalText os fuel c v = (v.ctl.step (flowShell os fuel) (.kw k)).map v.note := by
  obtain ⟨⟨s, n, b⟩, marks⟩ := v
  have hkw := argvOf_kw k
  have hne : [kwWord k] ≠ [] := by simp
  rw [evalText, hm, Option.bind_some]
  cases n with
  | zero =>
      cases b with
      | true =>
          rw [evalCmd_passed (m := 0) (k := true) hne]
          · rfl
          · rw [hkw]
            exact cmdExec_kw_skip rfl rfl
      | false =>
          rw [evalCmd_carried hne rfl]
          · simp [Ctl.step, flowShell, Function.comp_def]
          · rw [hkw, cmdExec_stray]
            exact .of (by simp)
  | succ n =>
      rw [evalCmd_passed (m := (kwMove k n b).1) (k := (kwMove k n b).2) hne]
      · cases k <;> rfl
      · rw [hkw]
        exact cmdExec_kw

/-- **A token**: the evaluator on its text. -/
theorem evalText_tok {t : Tok Bytes} (hm : Matches os c t) :
    evalText os fuel c v = (v.ctl.step (flowShell os fuel) t).map v.note := by
  cases t with
  | cmd c' =>
      obtain rfl : c' = c := hm.1
      exact evalText_cmd hm
  | iff c' =>
      obtain rfl : c' = c := hm.1
      exact evalText_iff hm
  | kw k => exact evalText_kw hm

/-- **The evaluator on a file**: that on the tokens of its script. -/
theorem evalTexts_spells {ts : List (Tok Bytes)} (hs : Spells os cs ts) : evalTexts os fuel cs v =
    (Ctl.run (flowShell os fuel) ts v.ctl).map fun q => ⟨q.1, v.marks ++ q.2⟩ := by
  induction hs generalizing v with
  | nil => simp [evalTexts, Ctl.run]
  | blank c h hs ih =>
      have hc : evalText os fuel c v = some v := by
        rw [evalText, h, Option.bind_some]
        rfl
      rw [evalTexts, hc, Option.bind_some, ih]
  | tok c t h hs ih =>
      rw [evalTexts, evalText_tok h, Ctl.run]
      cases v.ctl.step (flowShell os fuel) t with
      | none => rfl
      | some r =>
          rw [Option.map_some, Option.bind_some, Option.bind_some, ih, Option.map_map]
          refine Option.map_congr fun q _ => ?_
          simp [Eval.note]

/-! ## scripts -/

variable {path text : Bytes} {b : Script Bytes}

/-- `eval_file` returns, and has carried out exactly the commands on the
branches taken and the conditions of the `if`s on them. -/
def RunsTaken (os : Os W) (path text : Bytes) (b : Script Bytes) (s : Sh W) : Prop :=
  ∃ fuel v t fl, evalFile os fuel path (some text) ⟨⟨s, 0, false⟩, []⟩ = some v ∧
    b.exec (flowShell os fuel) s = some (t, fl) ∧ v.marks = fl

theorem runsTaken_iff_agrees (hs : Spells os (fileCmds text) b.toks) :
    RunsTaken os path text b s ↔ ∃ fuel, Control.Agrees (flowShell os fuel) b s := by
  simp only [RunsTaken, Control.Agrees, evalFile_eq, evalTexts_spells hs, List.nil_append,
    Option.map_eq_some_iff]
  constructor
  · rintro ⟨fuel, v, t, fl, ⟨q, hq, rfl⟩, he, rfl⟩
    exact ⟨fuel, q.1, t, q.2, hq, he⟩
  · rintro ⟨fuel, y, t, fl, hq, he⟩
    exact ⟨fuel, _, t, fl, ⟨_, hq, rfl⟩, he, rfl⟩

/-- **Control flow**: the commands on the branches taken are those carried
out exactly when no `if` stands on a branch not taken, and an `if` that
leaves the flag set is the last of its branch. -/
theorem runsTaken_iff (hs : Spells os (fileCmds text) b.toks) :
    RunsTaken os path text b s ↔ ∃ fuel, (b.track (flowShell os fuel) false s).isSome = true := by
  rw [runsTaken_iff_agrees hs]
  exact exists_congr fun fuel => Control.agrees_track

theorem Matches.of_cmd (args : List Bytes) (h : ∀ fuel s, argsOf os fuel c s = some args)
    (hp : plain (argvOf args).1 = true) : Matches os c (.cmd c) := by
  refine ⟨rfl, fun fuel s as has => ?_⟩
  obtain rfl := Option.some.inj ((h fuel s).symm.trans has)
  exact hp

theorem Matches.of_iff (args : List Bytes) (h : ∀ fuel s, argsOf os fuel c s = some args)
    (hi : (argvOf args).1 = IF :: ws) (hp : plain ws = true) : Matches os c (.iff c) := by
  refine ⟨rfl, fun fuel s as has => ?_⟩
  obtain rfl := Option.some.inj ((h fuel s).symm.trans has)
  exact ⟨ws, hi, hp⟩

/-- A system where no program can be run. -/
def bareOs : Os Unit where
  environ := []
  chdir w _ := (w, none)
  getcwd _ := [47]
  stat _ _ := none
  pexec w _ _ _ := (w, none)
  pwait w _ := (w, 0)

/-- The shell at its start. -/
def bareSh : Sh Unit where
  world := ()
  vars := ecHmapInit []
  lastret := [48]
  cwd := [47]
  uname := []
  gname := []
  running := true
  stdout := []
  stderr := []
  ran := false

/-- The lines `if echo`, `if ! echo` and `echo`. -/
def ifEcho : Bytes := IF ++ 32 :: ECHO ++ [10]
def ifNotEcho : Bytes := IF ++ 32 :: BANG ++ 32 :: ECHO ++ [10]
def echoLine : Bytes := ECHO ++ [10]

/-- A command under an `if`. -/
def underIf (cond : Bytes) : Script Bytes := .ifThen cond (.cmd echoLine .nil) .nil

/-- The text of a command under an `if`. -/
def underIfText (cond : Bytes) : Bytes := cond ++ THEN ++ 10 :: echoLine ++ FI ++ [10]

theorem runsTaken_example : RunsTaken bareOs [] (underIfText ifEcho) (underIf ifEcho) bareSh := by
  refine (runsTaken_iff ?_).mpr ⟨0, rfl⟩
  have hcmds : fileCmds (underIfText ifEcho) =
      [ifEcho, THEN ++ [10], echoLine, FI ++ [10], []] := by decide
  rw [hcmds]
  exact .tok _ _ (.of_iff [IF, ECHO] (fun _ _ => rfl) rfl (by decide))
    (.tok _ _ (fun _ _ => rfl)
    (.tok _ _ (.of_cmd [ECHO] (fun _ _ => rfl) (by decide))
    (.tok _ _ (fun _ _ => rfl) (.blank _ (fun _ _ => rfl) .nil))))

/-- An `if` on a branch not taken, with a command behind it. -/
def ifInIf : Script Bytes := .ifThen ifNotEcho (.ifThen ifEcho .nil (.cmd echoLine .nil)) .nil

/-- Its text. -/
def ifInIfText : Bytes :=
  ifNotEcho ++ THEN ++ 10 :: ifEcho ++ THEN ++ 10 :: FI ++ 10 :: echoLine ++ FI ++ [10]

/-- The `fi` of the inner `if` ends the outer one, so that the last `echo`
is carried out. -/
theorem not_runsTaken : Spells bareOs (fileCmds ifInIfText) ifInIf.toks ∧
    (∃ t fl, ifInIf.exec (flowShell bareOs 0) bareSh = some (t, fl)) ∧
    ¬ RunsTaken bareOs [] ifInIfText ifInIf bareSh := by
  have hs : Spells bareOs (fileCmds ifInIfText) ifInIf.toks := by
    have hcmds : fileCmds ifInIfText =
        [ifNotEcho, THEN ++ [10], ifEcho, THEN ++ [10], FI ++ [10], echoLine, FI ++ [10], []] := by
      decide
    rw [hcmds]
    exact .tok _ _ (.of_iff [IF, BANG, ECHO] (fun _ _ => rfl) rfl (by decide))
      (.tok _ _ (fun _ _ => rfl)
      (.tok _ _ (.of_iff [IF, ECHO] (fun _ _ => rfl) rfl (by decide))
      (.tok _ _ (fun _ _ => rfl)
      (.tok _ _ (fun _ _ => rfl)
      (.tok _ _ (.of_cmd [ECHO] (fun _ _ => rfl) (by decide))
      (.tok _ _ (fun _ _ => rfl) (.blank _ (fun _ _ => rfl) .nil)))))))
  refine ⟨hs, ⟨_, _, rfl⟩, ?_⟩
  rw [runsTaken_iff_agrees hs]
  rintro ⟨fuel, hagree⟩
  have htrack := Control.agrees_track.mp hagree
  have hnone : ifInIf.track (flowShell bareOs fuel) false bareSh = none := rfl
  rw [hnone] at htrack
  contradiction

end Eclair
