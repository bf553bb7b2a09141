import Mathlib.Data.List.GetD
import Eclair.Vfs.CString

/-!
# Eclair.Boot.Cmdline

`parse_cmdline` of `kernel/boot.c`: the command line is read from memory,
token by token, into `boot_cmdline_t`.

What the code looks at is recorded beside what it computes: `strayRead` is
set when it looks at a character behind the token and the one that ends it,
`strayWrite` when it writes behind the 32 bytes of a field.
-/

namespace Eclair

namespace Cmdline

open ByteMem

/-! ## the string functions -/

/-- The loop of `strncmp` of the kernel. -/
def strncmpLoop (a b : ByteMem) : Nat → Nat → Int
  | 0, i => (a i).toNat - (b i).toNat
  | n + 1, i =>
      if a i ≠ 0 ∧ b i ≠ 0 ∧ a i = b i then strncmpLoop a b n (i + 1)
      else (a i).toNat - (b i).toNat

/-- `strncmp` of the kernel. -/
def strncmp (a b : ByteMem) (n : Nat) : Int := if n = 0 then 0 else strncmpLoop a b (n - 1) 0

/-- How many characters the loop of `strncmp` looks at in each string. -/
def strncmpLoopReads (a b : ByteMem) : Nat → Nat → Nat
  | 0, _ => 1
  | n + 1, i => if a i ≠ 0 ∧ b i ≠ 0 ∧ a i = b i then strncmpLoopReads a b n (i + 1) + 1 else 1

def strncmpReads (a b : ByteMem) (n : Nat) : Nat :=
  if n = 0 then 0 else strncmpLoopReads a b (n - 1) 0

/-- How many characters `strncpy` looks at, from character `i` on. -/
def strncpyReads (src : ByteMem) : Nat → Nat → Nat
  | 0, _ => 0
  | k + 1, i => if src i = 0 then 1 else strncpyReads src k (i + 1) + 1

/-- How many bytes `strncpy` writes, from character `i` on. -/
def strncpyWrites (src : ByteMem) : Nat → Nat → Nat
  | 0, _ => 1
  | k + 1, i => if src i = 0 then 1 else strncpyWrites src k (i + 1) + 1

/-! ## the code -/

def BOOT_CMDLINE_PARAM_MAX_CHARS : Nat := 32

/-- `"uart-tty"` -/
def UART_TTY : Bytes := [117, 97, 114, 116, 45, 116, 116, 121]

/-- `"quiet"` -/
def QUIET : Bytes := [113, 117, 105, 101, 116]

/-- `"init-profile"` -/
def INIT_PROFILE : Bytes := [105, 110, 105, 116, 45, 112, 114, 111, 102, 105, 108, 101]

/-- `"ramfs"` -/
def RAMFS : Bytes := [114, 97, 109, 102, 115]

/-- `boot_cmdline_t`; `fields` is memory from `init_profile` on, with
`ramfs_mount` behind its 32 bytes. -/
structure BootCmdline where
  uartTty : Bool := false
  quiet : Bool := false
  fields : ByteMem := fun _ => 0
  strayRead : Bool := false
  strayWrite : Bool := false

/-- `offsetof(boot_cmdline_t, ramfs_mount) - offsetof(boot_cmdline_t, init_profile)` -/
def RAMFS_MOUNT : Nat := BOOT_CMDLINE_PARAM_MAX_CHARS

/-- Look at the first `n` characters from the start of a token of `len`. -/
def BootCmdline.look (len n : Nat) (s : BootCmdline) : BootCmdline :=
  { s with strayRead := s.strayRead || decide (n > len + 1) }

/-- The memory from `p` on. -/
def memFrom (m : ByteMem) (p : Nat) : ByteMem := fun i => m (p + i)

/-- `!strncmp(name, arg, n)` for a token of `len` characters, and the state
with what it looks at. -/
def isName (m : ByteMem) (name : Bytes) (arg len n : Nat) (s : BootCmdline) : Bool × BootCmdline :=
  (decide (strncmp (literal name) (memFrom m arg) n = 0),
    s.look len (strncmpReads (literal name) (memFrom m arg) n))

/-- What is done with a token that starts with a name of `n` characters: if
`=` is behind it, the rest is copied to a field. -/
def setParam (m : ByteMem) (field n arg len : Nat) (s : BootCmdline) : BootCmdline :=
  let s := s.look len (n + 1)
  if m (arg + n) = 61 then
    let param := arg + (n + 1)
    let plen := sub32 len (n + 1)
    let cnt := min plen BOOT_CMDLINE_PARAM_MAX_CHARS
    let s := s.look len (n + 1 + strncpyReads (memFrom m param) cnt 0)
    { s with
      fields := strncpy (fun i => m (param + (i - field))) cnt field s.fields
      strayWrite := s.strayWrite ||
        decide (strncpyWrites (memFrom m param) cnt 0 > BOOT_CMDLINE_PARAM_MAX_CHARS) }
  else s

/-- What is done with a token of `len` characters, which is not empty. -/
def parseArg (m : ByteMem) (arg len : Nat) (s : BootCmdline) : BootCmdline :=
  let uart := isName m UART_TTY arg len len s
  if uart.1 then { uart.2 with uartTty := true }
  else
    let quiet := isName m QUIET arg len len uart.2
    if quiet.1 then { quiet.2 with quiet := true }
    else
      let profile := isName m INIT_PROFILE arg len (min len 12) quiet.2
      if profile.1 then setParam m 0 12 arg len profile.2
      else
        let ramfs := isName m RAMFS arg len (min len 5) profile.2
        if ramfs.1 then setParam m RAMFS_MOUNT 5 arg len ramfs.2 else ramfs.2

/-- The loop of `parse_cmdline`. -/
def parseLoop (m : ByteMem) : Nat → Nat → BootCmdline → Except (Stop Unit) BootCmdline
  | 0, _, _ => .error .fuel
  | k + 1, arg, s =>
      (strchr m 32 arg k).bind fun next =>
      (match next with
        | some next => Except.ok (next - arg)
        | none => strlenAt m arg k).bind fun len =>
      let s := if len = 0 then s else parseArg m arg len s
      match next with
      | some next => parseLoop m k (next + 1) s
      | none => .ok s

/-- `parse_cmdline`: `cmdline` is a static variable, and this is the only
function that writes to it. -/
def parseCmdline (m : ByteMem) (cmdline : Option Nat) (k : Nat) : Except (Stop Unit) BootCmdline :=
  let s : BootCmdline := { fields := Function.update (fun _ => 0) 0 0 }
  match cmdline with
  | some arg => parseLoop m k arg s
  | none => .ok s

/-! ## the property -/

/-- The tokens between the spaces. -/
def tokens (text : Bytes) : List Bytes := text.splitOn 32

/-- The value of a token `name=value`. -/
def valueOf (name token : Bytes) : Option Bytes :=
  if name ++ [61] <+: token then some (token.drop (name.length + 1)) else none

/-- The value of the last token `name=value`; the empty string if there is
none. -/
def lastValue (name : Bytes) (ts : List Bytes) : Bytes :=
  ((ts.filterMap (valueOf name)).getLast?).getD []

/-- A string in a field. -/
abbrev Field (s : BootCmdline) (field : Nat) (value : Bytes) : Prop :=
  CStr (fun x => field ≤ x ∧ x < field + BOOT_CMDLINE_PARAM_MAX_CHARS) s.fields field value

/-- What the tokens say, and nothing else was looked at or written to. -/
structure Parsed (ts : List Bytes) (s : BootCmdline) : Prop where
  uart : s.uartTty = true ↔ UART_TTY ∈ ts
  quiet : s.quiet = true ↔ QUIET ∈ ts
  profile : Field s 0 ((lastValue INIT_PROFILE ts).take (BOOT_CMDLINE_PARAM_MAX_CHARS - 1))
  ramfs : Field s RAMFS_MOUNT ((lastValue RAMFS ts).take (BOOT_CMDLINE_PARAM_MAX_CHARS - 1))
  read : s.strayRead = false
  write : s.strayWrite = false

/-! ## the condition -/

/-- A front of a name, but not nothing. -/
def Abbreviates (token name : Bytes) : Prop := token ≠ [] ∧ token <+: name

instance (token name : Bytes) : Decidable (Abbreviates token name) :=
  inferInstanceAs (Decidable (_ ∧ _))

/-- No token abbreviates the name of a parameter, none abbreviates that of a
flag that is not set, and all values fit into their fields. -/
structure Plain (ts : List Bytes) : Prop where
  uart : ∀ t ∈ ts, Abbreviates t UART_TTY → UART_TTY ∈ ts
  quiet : ∀ t ∈ ts, Abbreviates t QUIET → QUIET ∈ ts
  profile : ∀ t ∈ ts, Abbreviates t INIT_PROFILE → t = INIT_PROFILE
  ramfs : ∀ t ∈ ts, Abbreviates t RAMFS → t = RAMFS
  fits : ∀ t ∈ ts, ∀ v, valueOf INIT_PROFILE t = some v ∨ valueOf RAMFS t = some v →
    v.length < BOOT_CMDLINE_PARAM_MAX_CHARS

/-! ## the string functions on a token -/

/-- A token of the command line at `arg`: what ends it is a space or the NUL. -/
structure TokenAt (m : ByteMem) (arg : Nat) (t : Bytes) : Prop where
  byte : ∀ i, i < t.length → m (arg + i) = t.getD i 0
  nonzero : (0 : UInt8) ∉ t
  stop : m (arg + t.length) = 32 ∨ m (arg + t.length) = 0

section

variable {m a b dst : ByteMem} {arg i k n len field : Nat} {t name v : Bytes} {s : BootCmdline}
variable {ts : List Bytes}

theorem sub_toNat_eq_zero (x y : UInt8) : ((x.toNat : Int) - y.toNat = 0) ↔ x = y := by
  rw [← UInt8.toNat_inj]
  omega

/-- The loop of `strncmp` on strings that do not end before `n` characters
of the second. -/
theorem strncmpLoop_eq_zero (ha : ∀ j, a (i + j) = name.getD j 0)
    (hb : ∀ j, j < t.length → b (i + j) = t.getD j 0) (hname : (0 : UInt8) ∉ name)
    (ht : (0 : UInt8) ∉ t) (hn : n < t.length) :
    strncmpLoop a b n i = 0 ↔ t.take (n + 1) <+: name := by
  induction n generalizing i t name with
  | zero =>
      obtain ⟨c, t, rfl⟩ := List.exists_cons_of_length_pos (by omega : 0 < t.length)
      have hbi : b i = c := hb 0 (Nat.zero_lt_succ _)
      have hc : c ≠ 0 := fun h => ht (h ▸ List.mem_cons_self)
      rw [strncmpLoop, sub_toNat_eq_zero, hbi, show a i = name.getD 0 0 from ha 0]
      cases name with
      | nil => simpa using hc.symm
      | cons d name => simp [List.cons_prefix_cons, eq_comm]
  | succ n ih =>
      obtain ⟨c, t, rfl⟩ := List.exists_cons_of_length_pos (by omega : 0 < t.length)
      have hbi : b i = c := hb 0 (Nat.zero_lt_succ _)
      have hc : c ≠ 0 := fun h => ht (h ▸ List.mem_cons_self)
      have hai : a i = name.getD 0 0 := ha 0
      rw [strncmpLoop, hbi, hai]
      cases name with
      | nil =>
          rw [if_neg (by simp), sub_toNat_eq_zero]
          simpa using hc.symm
      | cons d name =>
          have hd : d ≠ 0 := fun h => hname (h ▸ List.mem_cons_self)
          simp only [List.getD_cons_zero, List.take_succ_cons, List.cons_prefix_cons]
          by_cases hdc : d = c
          · rw [if_pos ⟨hd, hc, hdc⟩, @ih _ t name (fun j => ?_) (fun j hj => ?_)
              (fun h => hname (List.mem_cons_of_mem _ h)) (fun h => ht (List.mem_cons_of_mem _ h))
              (by simpa using hn)]
            · simp [hdc]
            · rw [Nat.add_assoc, Nat.add_comm 1]
              exact ha (j + 1)
            · rw [Nat.add_assoc, Nat.add_comm 1]
              exact hb (j + 1) (by simpa using hj)
          · rw [if_neg fun h => hdc h.2.2, sub_toNat_eq_zero]
            simp [hdc, Ne.symm hdc]

theorem strncmpLoopReads_le : strncmpLoopReads a b n i ≤ n + 1 := by
  induction n generalizing i with
  | zero => simp [strncmpLoopReads]
  | succ n ih =>
      rw [strncmpLoopReads]
      split
      · exact Nat.succ_le_succ ih
      · omega

theorem strncmpReads_le : strncmpReads a b n ≤ n := by
  rw [strncmpReads]
  split
  · omega
  · exact Nat.le_trans strncmpLoopReads_le (by omega)

theorem look_of_le (h : n ≤ len + 1) : s.look len n = s := by
  simp [BootCmdline.look, Nat.not_lt.mpr h]

/-- **A comparison** looks at the token only, and says whether its front is
one of the name. -/
theorem isName_eq (htok : TokenAt m arg t) (hname : (0 : UInt8) ∉ name) (hn : n ≤ t.length)
    (h1 : 1 ≤ n) :
    isName m name arg t.length n s = (decide (t.take n <+: name), s) := by
  obtain ⟨k, rfl⟩ : ∃ k, n = k + 1 := ⟨n - 1, by omega⟩
  have hzero : strncmp (literal name) (memFrom m arg) (k + 1) = 0 ↔ t.take (k + 1) <+: name := by
    rw [strncmp, if_neg (Nat.succ_ne_zero k), Nat.add_sub_cancel]
    refine strncmpLoop_eq_zero (fun j => ?_) (fun j hj => ?_) hname htok.nonzero (by omega)
    · rw [Nat.zero_add, literal]
    · rw [Nat.zero_add]
      exact htok.byte j hj
  rw [isName, look_of_le (Nat.le_trans strncmpReads_le (by omega)), decide_eq_decide.mpr hzero]

theorem strncpyReads_eq (h : ∀ j, j < k → a (i + j) ≠ 0) : strncpyReads a k i = k := by
  induction k generalizing i with
  | zero => rfl
  | succ k ih =>
      rw [strncpyReads, if_neg (show a i ≠ 0 from h 0 (Nat.zero_lt_succ k)), ih fun j hj => ?_]
      rw [Nat.add_assoc, Nat.add_comm 1]
      exact h (j + 1) (Nat.succ_lt_succ hj)

theorem strncpyWrites_eq (h : ∀ j, j < k → a (i + j) ≠ 0) : strncpyWrites a k i = k + 1 := by
  induction k generalizing i with
  | zero => rfl
  | succ k ih =>
      rw [strncpyWrites, if_neg (show a i ≠ 0 from h 0 (Nat.zero_lt_succ k)), ih fun j hj => ?_]
      rw [Nat.add_assoc, Nat.add_comm 1]
      exact h (j + 1) (Nat.succ_lt_succ hj)

/-! ## one parameter -/

/-- A value of a token, character by character. -/
theorem TokenAt.value (htok : TokenAt m arg (name ++ 61 :: v)) {j : Nat} (hj : j < v.length) :
    m (arg + (name.length + 1) + j) = v.getD j 0 ∧ v.getD j 0 ≠ 0 := by
  have hbyte := htok.byte (name.length + 1 + j) (by simp; omega)
  have hget : (name ++ 61 :: v).getD (name.length + 1 + j) 0 = v.getD j 0 := by
    rw [List.getD_append_right _ _ _ _ (by omega),
      show name.length + 1 + j - name.length = j + 1 by omega, List.getD_cons_succ]
  rw [← Nat.add_assoc, hget] at hbyte
  refine ⟨hbyte, fun h0 => htok.nonzero ?_⟩
  rw [List.getD_eq_getElem _ _ hj] at h0
  rw [← h0]
  exact List.mem_append_right _ (List.mem_cons_of_mem _ (List.getElem_mem hj))

/-- A front of the name: the code looks behind the token. -/
theorem strayRead_setParam (h : t.length < n) :
    (setParam m field n arg t.length s).strayRead = true := by
  simp only [setParam, BootCmdline.look]
  split <;> simp [h]

theorem setParam_of_ne (hn : n ≤ t.length) (hne : m (arg + n) ≠ 61) :
    setParam m field n arg t.length s = s := by
  rw [setParam, look_of_le (by omega)]
  exact if_neg hne

/-- A token with a value. -/
theorem setParam_value (htok : TokenAt m arg (name ++ 61 :: v))
    (hlt : (name ++ 61 :: v).length < 2 ^ 32) :
    setParam m field name.length arg (name ++ 61 :: v).length s =
      { s with
        fields := strncpy (fun i => m (arg + (name.length + 1) + (i - field)))
          (min v.length BOOT_CMDLINE_PARAM_MAX_CHARS) field s.fields
        strayWrite := s.strayWrite || decide (BOOT_CMDLINE_PARAM_MAX_CHARS ≤ v.length) } := by
  have hlen : (name ++ 61 :: v).length = name.length + 1 + v.length := by
    simp
    omega
  have heq : m (arg + name.length) = 61 := by
    have h := htok.byte name.length (by omega)
    simpa using h
  have hplen : sub32 (name ++ 61 :: v).length (name.length + 1) = v.length := by
    rw [sub32_of_le (by omega) hlt]
    omega
  have hsrc : ∀ j, j < min v.length BOOT_CMDLINE_PARAM_MAX_CHARS →
      memFrom m (arg + (name.length + 1)) (0 + j) ≠ 0 := by
    intro j hj
    obtain ⟨hbyte, hne⟩ := htok.value (j := j) (by omega)
    rw [Nat.zero_add, memFrom, hbyte]
    exact hne
  simp only [setParam, look_of_le (show name.length + 1 ≤ (name ++ 61 :: v).length + 1 by omega),
    if_pos heq, hplen, strncpyReads_eq hsrc, strncpyWrites_eq hsrc,
    look_of_le (show name.length + 1 + min v.length BOOT_CMDLINE_PARAM_MAX_CHARS ≤
      (name ++ 61 :: v).length + 1 by omega)]
  congr 2
  rw [decide_eq_decide, BOOT_CMDLINE_PARAM_MAX_CHARS]
  omega

/-- The copy of a value that fits is the string in its field. -/
theorem field_setParam (field : Nat) (dst : ByteMem) (htok : TokenAt m arg (name ++ 61 :: v))
    (hfit : v.length < BOOT_CMDLINE_PARAM_MAX_CHARS) :
    CStr (fun x => field ≤ x ∧ x < field + BOOT_CMDLINE_PARAM_MAX_CHARS)
      (strncpy (fun i => m (arg + (name.length + 1) + (i - field)))
        (min v.length BOOT_CMDLINE_PARAM_MAX_CHARS) field dst) field v ∧
    ∀ x, x < field ∨ field + BOOT_CMDLINE_PARAM_MAX_CHARS ≤ x →
      strncpy (fun i => m (arg + (name.length + 1) + (i - field)))
        (min v.length BOOT_CMDLINE_PARAM_MAX_CHARS) field dst x = dst x := by
  have hcopy : ∀ x, strncpy (fun i => m (arg + (name.length + 1) + (i - field)))
      (min v.length BOOT_CMDLINE_PARAM_MAX_CHARS) field dst x =
      if field ≤ x ∧ x < field + v.length then m (arg + (name.length + 1) + (x - field))
      else if x = field + v.length then 0 else dst x := by
    intro x
    rw [Nat.min_eq_left (Nat.le_of_lt hfit)]
    refine strncpy_at (fun l h1 h2 => ?_) (fun h => by omega) (by omega) (by omega)
    obtain ⟨hbyte, hne⟩ := htok.value (j := l - field) (by omega)
    rw [hbyte]
    exact hne
  refine ⟨⟨fun x hx h0 => htok.nonzero ?_, fun i hi => ⟨by omega, by omega⟩, fun i hi => ?_⟩,
    fun x hx => ?_⟩
  · rw [← h0]
    exact List.mem_append_right _ (List.mem_cons_of_mem _ hx)
  · rw [hcopy]
    by_cases hlt : i < v.length
    · rw [if_pos ⟨by omega, by omega⟩, Nat.add_sub_cancel_left, (htok.value hlt).1]
    · rw [if_neg (by omega), if_pos (by omega), List.getD_eq_getElem?_getD,
        List.getElem?_eq_none (by omega), Option.getD_none]
  · rw [hcopy, if_neg (by omega), if_neg (by omega)]

/-! ## one token -/

/-- The code looks behind the token. -/
def Stray (t : Bytes) : Prop :=
  (Abbreviates t INIT_PROFILE ∧ t ≠ INIT_PROFILE) ∨ (Abbreviates t RAMFS ∧ t ≠ RAMFS)

/-- The value of the token does not fit into its field. -/
def Long (t : Bytes) : Prop :=
  ∃ v, (valueOf INIT_PROFILE t = some v ∨ valueOf RAMFS t = some v) ∧
    BOOT_CMDLINE_PARAM_MAX_CHARS ≤ v.length

/-- What a token does. -/
structure Step (t : Bytes) (s s' : BootCmdline) : Prop where
  uart : s'.uartTty = true ↔ s.uartTty = true ∨ Abbreviates t UART_TTY
  quiet : s'.quiet = true ↔ s.quiet = true ∨ Abbreviates t QUIET
  readMono : s.strayRead = true → s'.strayRead = true
  writeMono : s.strayWrite = true → s'.strayWrite = true
  bad : Stray t ∨ Long t → s'.strayRead = true ∨ s'.strayWrite = true
  good : ¬Stray t → ¬Long t → s'.strayRead = s.strayRead ∧ s'.strayWrite = s.strayWrite ∧
    (∀ x, Field s 0 x → Field s' 0 ((valueOf INIT_PROFILE t).getD x)) ∧
    ∀ x, Field s RAMFS_MOUNT x → Field s' RAMFS_MOUNT ((valueOf RAMFS t).getD x)

theorem valueOf_eq_some : valueOf name t = some v ↔ t = name ++ 61 :: v := by
  unfold valueOf
  constructor
  · intro h
    split at h
    · next hpre =>
        obtain ⟨w, rfl⟩ := hpre
        obtain rfl : w = v := by simpa using h
        simp
    · contradiction
  · rintro rfl
    simp

/-- A token that does not start with a name has no value. -/
theorem valueOf_eq_none (h : ¬t.take name.length <+: name) : valueOf name t = none := by
  refine Option.eq_none_iff_forall_ne_some.mpr fun v hv => h ?_
  rw [valueOf_eq_some.mp hv]
  simp

/-- A token and a name with the same front. -/
theorem abbreviates_or_prefix (hne : t ≠ []) (h : t.take name.length <+: name) :
    Abbreviates t name ∨ ∃ c v, t = name ++ c :: v := by
  by_cases hlen : t.length ≤ name.length
  · rw [List.take_of_length_le hlen] at h
    exact .inl ⟨hne, h⟩
  · have heq : t.take name.length = name := h.eq_of_length (by simp; omega)
    have hrest : 0 < (t.drop name.length).length := by simp; omega
    obtain ⟨c, v, hcv⟩ := List.exists_cons_of_length_pos hrest
    exact .inr ⟨c, v, (List.take_append_drop name.length t).symm.trans (by rw [heq, hcv])⟩

theorem not_abbreviates_append {c : UInt8} : ¬Abbreviates (name ++ c :: v) name := by
  intro h
  have hlen := h.2.length_le
  rw [List.length_append, List.length_cons] at hlen
  omega

theorem head?_of_take (hne : t ≠ []) (hn : 1 ≤ n) (h : t.take n <+: name) :
    t.head? = name.head? := by
  obtain ⟨c, t, rfl⟩ := List.exists_cons_of_ne_nil hne
  obtain ⟨k, rfl⟩ : ∃ k, n = k + 1 := ⟨n - 1, by omega⟩
  obtain ⟨r, rfl⟩ := h
  rfl

theorem Abbreviates.head? (h : Abbreviates t name) : t.head? = name.head? :=
  head?_of_take h.1 (List.length_pos_iff.mpr h.1) (by rw [List.take_length]; exact h.2)

theorem head?_of_valueOf (hname : name ≠ []) (h : valueOf name t = some v) :
    t.head? = name.head? := by
  obtain ⟨c, name, rfl⟩ := List.exists_cons_of_ne_nil hname
  rw [valueOf_eq_some.mp h]
  rfl

/-- What is compared with the front of a token. -/
theorem parseArg_eq (htok : TokenAt m arg t) (hne : t ≠ []) :
    parseArg m arg t.length s =
      if t <+: UART_TTY then { s with uartTty := true }
      else if t <+: QUIET then { s with quiet := true }
      else if t.take 12 <+: INIT_PROFILE then setParam m 0 12 arg t.length s
      else if t.take 5 <+: RAMFS then setParam m RAMFS_MOUNT 5 arg t.length s
      else s := by
  have hpos := List.length_pos_iff.mpr hne
  have hall : ∀ {s}, ∀ name : Bytes, (0 : UInt8) ∉ name →
      isName m name arg t.length t.length s = (decide (t <+: name), s) := by
    intro s name h0
    rw [isName_eq htok h0 (Nat.le_refl _) hpos, List.take_length]
  have hfront : ∀ {s} n, 1 ≤ n → ∀ name : Bytes, (0 : UInt8) ∉ name →
      isName m name arg t.length (min t.length n) s = (decide (t.take n <+: name), s) := by
    intro s n hn name h0
    rw [isName_eq htok h0 (Nat.min_le_left ..) (by omega), Nat.min_comm,
      ← List.take_take, List.take_length]
  simp only [parseArg, hall UART_TTY (by decide), hall QUIET (by decide),
    hfront 12 (by decide) INIT_PROFILE (by decide), hfront 5 (by decide) RAMFS (by decide),
    decide_eq_true_eq]

/-- A token that the code takes for a parameter. -/
theorem setParam_cases (s : BootCmdline) (field : Nat) (htok : TokenAt m arg t) (hne : t ≠ [])
    (hlt : t.length < 2 ^ 32) (hpre : t.take name.length <+: name) :
    (Abbreviates t name ∧ t ≠ name ∧
      (setParam m field name.length arg t.length s).strayRead = true) ∨
    (¬(Abbreviates t name ∧ t ≠ name) ∧ valueOf name t = none ∧
      setParam m field name.length arg t.length s = s) ∨
    ∃ v, t = name ++ 61 :: v := by
  obtain habb | ⟨c, v, rfl⟩ := abbreviates_or_prefix hne hpre
  · have hle := habb.2.length_le
    by_cases heq : t = name
    · refine .inr (.inl ⟨fun h => h.2 heq, ?_, setParam_of_ne (by rw [heq]) ?_⟩)
      · rw [Option.eq_none_iff_forall_ne_some, heq]
        intro v hv
        have h := congrArg List.length (valueOf_eq_some.mp hv)
        simp at h
      · rw [← heq]
        obtain h | h := htok.stop <;> rw [h] <;> decide
    · refine .inl ⟨habb, heq, strayRead_setParam ?_⟩
      exact Nat.lt_of_le_of_ne hle fun h => heq (habb.2.eq_of_length h)
  · by_cases hc : c = 61
    · subst hc
      exact .inr (.inr ⟨v, rfl⟩)
    · refine .inr (.inl ⟨fun h => not_abbreviates_append h.1, ?_, setParam_of_ne (by simp) ?_⟩)
      · rw [Option.eq_none_iff_forall_ne_some]
        intro w hw
        have h := valueOf_eq_some.mp hw
        simp [hc] at h
      · have h := htok.byte name.length (by simp)
        rw [h]
        simpa using hc

theorem setParam_keeps :
    (setParam m field n arg len s).uartTty = s.uartTty ∧
    (setParam m field n arg len s).quiet = s.quiet ∧
    (s.strayRead = true → (setParam m field n arg len s).strayRead = true) ∧
    (s.strayWrite = true → (setParam m field n arg len s).strayWrite = true) := by
  unfold setParam
  split <;> simp_all [BootCmdline.look]

/-- A token that is not for a parameter. -/
theorem step_flags (hstray : ¬Stray t) (hp : valueOf INIT_PROFILE t = none)
    (hr : valueOf RAMFS t = none) {u q : Bool}
    (hu : u = true ↔ s.uartTty = true ∨ Abbreviates t UART_TTY)
    (hq : q = true ↔ s.quiet = true ∨ Abbreviates t QUIET) :
    Step t s { s with uartTty := u, quiet := q } where
  uart := hu
  quiet := hq
  readMono := id
  writeMono := id
  bad h := by
    obtain h | ⟨v, hv, -⟩ := h
    · exact absurd h hstray
    · simp [hp, hr] at hv
  good _ _ := by simp [hp, hr]

/-- A token cannot be read for two names. -/
theorem not_abbreviates (hhead : t.head? = name.head?) {name' : Bytes}
    (hne : name.head? ≠ name'.head?) : ¬Abbreviates t name' :=
  fun h => hne (hhead.symm.trans h.head?)

theorem valueOf_other (hhead : t.head? = name.head?) {name' : Bytes}
    (hne : name.head? ≠ name'.head?) (hname : name' ≠ []) : valueOf name' t = none :=
  Option.eq_none_iff_forall_ne_some.mpr fun _ hv =>
    hne (hhead.symm.trans (head?_of_valueOf hname hv))

/-- A token with a value changes its field. -/
theorem good_setParam (htok : TokenAt m arg (name ++ 61 :: v))
    (hlt : (name ++ 61 :: v).length < 2 ^ 32) (hfit : v.length < BOOT_CMDLINE_PARAM_MAX_CHARS)
    {s' : BootCmdline}
    (hs' : s' = setParam m field name.length arg (name ++ 61 :: v).length s) :
    s'.strayRead = s.strayRead ∧ s'.strayWrite = s.strayWrite ∧ Field s' field v ∧
      ∀ other x, other + BOOT_CMDLINE_PARAM_MAX_CHARS ≤ field ∨
        field + BOOT_CMDLINE_PARAM_MAX_CHARS ≤ other → Field s other x → Field s' other x := by
  rw [setParam_value htok hlt] at hs'
  subst hs'
  obtain ⟨hfield, hframe⟩ := field_setParam field s.fields htok hfit
  refine ⟨rfl, ?_, hfield, fun other x hother hx => hx.congr fun y hy => hframe y ?_⟩
  · simp [Nat.not_le.mpr hfit]
  · omega

/-- What a token does that the code takes for a parameter. -/
theorem param_effect (s : BootCmdline) (field : Nat) (htok : TokenAt m arg t) (hne : t ≠ [])
    (hlt : t.length < 2 ^ 32) (hpre : t.take name.length <+: name) {s' : BootCmdline}
    (hs' : s' = setParam m field name.length arg t.length s) :
    ((Abbreviates t name ∧ t ≠ name) ∨
        (∃ v, valueOf name t = some v ∧ BOOT_CMDLINE_PARAM_MAX_CHARS ≤ v.length) →
      s'.strayRead = true ∨ s'.strayWrite = true) ∧
    (¬(Abbreviates t name ∧ t ≠ name) →
        (∀ v, valueOf name t = some v → v.length < BOOT_CMDLINE_PARAM_MAX_CHARS) →
      s'.strayRead = s.strayRead ∧ s'.strayWrite = s.strayWrite ∧
        (∀ x, Field s field x → Field s' field ((valueOf name t).getD x)) ∧
        ∀ other x, other + BOOT_CMDLINE_PARAM_MAX_CHARS ≤ field ∨
          field + BOOT_CMDLINE_PARAM_MAX_CHARS ≤ other → Field s other x → Field s' other x) := by
  obtain ⟨habb, hname, hread⟩ | ⟨hnot, hnone, heq⟩ | ⟨v, rfl⟩ :=
    setParam_cases s field htok hne hlt hpre
  · rw [← hs'] at hread
    exact ⟨fun _ => .inl hread, fun h => absurd ⟨habb, hname⟩ h⟩
  · rw [heq] at hs'
    subst hs'
    refine ⟨fun h => ?_, fun _ _ => ?_⟩
    · obtain h | ⟨v, hv, -⟩ := h
      · exact absurd h hnot
      · simp [hnone] at hv
    · simp [hnone]
  · have hval : valueOf name (name ++ 61 :: v) = some v := valueOf_eq_some.mpr rfl
    refine ⟨fun h => ?_, fun _ hfit => ?_⟩
    · obtain h | ⟨w, hw, hlong⟩ := h
      · exact absurd h.1 not_abbreviates_append
      · obtain rfl : v = w := Option.some.inj (hval.symm.trans hw)
        rw [hs', setParam_value htok hlt]
        simp [hlong]
    · obtain ⟨hread, hwrite, hfield, hother⟩ := good_setParam htok hlt (hfit v hval) hs'
      rw [hval]
      exact ⟨hread, hwrite, fun _ _ => hfield, hother⟩

/-- **Step lemma**: what a token does. -/
theorem step_parseArg (htok : TokenAt m arg t) (hne : t ≠ []) (hlt : t.length < 2 ^ 32) :
    Step t s (parseArg m arg t.length s) := by
  rw [parseArg_eq htok hne]
  split_ifs with h1 h2 h3 h4
  · have hhead := Abbreviates.head? ⟨hne, h1⟩
    refine step_flags ?_ ?_ ?_ ?_ ?_
    · exact not_or.mpr ⟨fun h => not_abbreviates hhead (by decide) h.1,
        fun h => not_abbreviates hhead (by decide) h.1⟩
    · exact valueOf_other hhead (by decide) (by decide)
    · exact valueOf_other hhead (by decide) (by decide)
    · simp [Abbreviates, hne, h1]
    · simp [not_abbreviates hhead (show UART_TTY.head? ≠ QUIET.head? by decide)]
  · have hhead := Abbreviates.head? ⟨hne, h2⟩
    refine step_flags ?_ ?_ ?_ ?_ ?_
    · exact not_or.mpr ⟨fun h => not_abbreviates hhead (by decide) h.1,
        fun h => not_abbreviates hhead (by decide) h.1⟩
    · exact valueOf_other hhead (by decide) (by decide)
    · exact valueOf_other hhead (by decide) (by decide)
    · simp [Abbreviates, h1]
    · simp [Abbreviates, hne, h2]
  · have hhead := head?_of_take hne (by decide) h3
    obtain ⟨hu, hq, hread, hwrite⟩ := @setParam_keeps m arg 12 t.length 0 s
    obtain ⟨hbad, hgood⟩ := param_effect s 0 htok hne hlt
      (show t.take INIT_PROFILE.length <+: INIT_PROFILE from h3) rfl
    have hstray : ¬(Abbreviates t RAMFS ∧ t ≠ RAMFS) :=
      fun h => not_abbreviates hhead (by decide) h.1
    have hnone : valueOf RAMFS t = none := valueOf_other hhead (by decide) (by decide)
    refine ⟨?_, ?_, hread, hwrite, fun h => hbad ?_, fun hs hl => ?_⟩
    · simp [hu, not_abbreviates hhead (show INIT_PROFILE.head? ≠ UART_TTY.head? by decide)]
    · simp [hq, not_abbreviates hhead (show INIT_PROFILE.head? ≠ QUIET.head? by decide)]
    · simpa [Stray, Long, hstray, hnone] using h
    · obtain ⟨hr, hw, hfield, hother⟩ := hgood (fun h => hs (.inl h))
        fun v hv => Nat.not_le.mp fun hle => hl ⟨v, .inl hv, hle⟩
      refine ⟨hr, hw, hfield, fun x hx => ?_⟩
      rw [hnone]
      exact hother RAMFS_MOUNT x (.inr (by decide)) hx
  · have hhead := head?_of_take hne (by decide) h4
    obtain ⟨hu, hq, hread, hwrite⟩ := @setParam_keeps m arg 5 t.length RAMFS_MOUNT s
    obtain ⟨hbad, hgood⟩ := param_effect s RAMFS_MOUNT htok hne hlt
      (show t.take RAMFS.length <+: RAMFS from h4) rfl
    have hstray : ¬(Abbreviates t INIT_PROFILE ∧ t ≠ INIT_PROFILE) :=
      fun h => not_abbreviates hhead (by decide) h.1
    have hnone : valueOf INIT_PROFILE t = none := valueOf_other hhead (by decide) (by decide)
    refine ⟨?_, ?_, hread, hwrite, fun h => hbad ?_, fun hs hl => ?_⟩
    · simp [hu, not_abbreviates hhead (show RAMFS.head? ≠ UART_TTY.head? by decide)]
    · simp [hq, not_abbreviates hhead (show RAMFS.head? ≠ QUIET.head? by decide)]
    · simpa [Stray, Long, hstray, hnone] using h
    · obtain ⟨hr, hw, hfield, hother⟩ := hgood (fun h => hs (.inr h))
        fun v hv => Nat.not_le.mp fun hle => hl ⟨v, .inr hv, hle⟩
      refine ⟨hr, hw, fun x hx => ?_, hfield⟩
      rw [hnone]
      exact hother 0 x (.inl (by decide)) hx
  · have hnot : ∀ name : Bytes, ¬t.take name.length <+: name → ¬Abbreviates t name :=
      fun name hname h => hname ((List.take_prefix _ t).trans h.2)
    refine step_flags ?_ (valueOf_eq_none h3) (valueOf_eq_none h4) ?_ ?_
    · exact not_or.mpr ⟨fun h => hnot INIT_PROFILE h3 h.1, fun h => hnot RAMFS h4 h.1⟩
    · simp [Abbreviates, h1]
    · simp [Abbreviates, h2]

/-! ## all tokens -/

/-- The tokens one after the other, from `arg` on. -/
def parseTokens (m : ByteMem) : Nat → List Bytes → BootCmdline → BootCmdline
  | _, [], s => s
  | arg, t :: ts, s =>
      parseTokens m (arg + t.length + 1) ts (if t.length = 0 then s else parseArg m arg t.length s)

/-- The tokens are in memory, each behind the one before. -/
def Laid (m : ByteMem) : Nat → List Bytes → Prop
  | _, [] => True
  | arg, t :: ts => TokenAt m arg t ∧ t.length < 2 ^ 32 ∧ Laid m (arg + t.length + 1) ts

/-- What is said by tokens. -/
structure Run (ts : List Bytes) (s s' : BootCmdline) : Prop where
  uart : s'.uartTty = true ↔ s.uartTty = true ∨ ∃ t ∈ ts, Abbreviates t UART_TTY
  quiet : s'.quiet = true ↔ s.quiet = true ∨ ∃ t ∈ ts, Abbreviates t QUIET
  mono : s.strayRead = true ∨ s.strayWrite = true → s'.strayRead = true ∨ s'.strayWrite = true
  bad : (∃ t ∈ ts, Stray t ∨ Long t) → s'.strayRead = true ∨ s'.strayWrite = true
  good : (∀ t ∈ ts, ¬Stray t ∧ ¬Long t) →
    s'.strayRead = s.strayRead ∧ s'.strayWrite = s.strayWrite ∧
    (∀ x, Field s 0 x → Field s' 0 ((ts.filterMap (valueOf INIT_PROFILE)).getLast?.getD x)) ∧
    ∀ x, Field s RAMFS_MOUNT x →
      Field s' RAMFS_MOUNT ((ts.filterMap (valueOf RAMFS)).getLast?.getD x)

theorem run_nil : Run [] s s := by
  constructor <;> simp

theorem lastValue_cons (name : Bytes) (t : Bytes) (ts : List Bytes) (x : Bytes) :
    ((t :: ts).filterMap (valueOf name)).getLast?.getD x =
      (ts.filterMap (valueOf name)).getLast?.getD ((valueOf name t).getD x) := by
  cases h : valueOf name t with
  | none => simp [h]
  | some v =>
      rw [List.filterMap_cons, h]
      simp [List.getLast?_cons]

theorem run_cons {s' s'' : BootCmdline} (hstep : Step t s s') (hrun : Run ts s' s'') :
    Run (t :: ts) s s'' where
  uart := by simp [hrun.uart, hstep.uart, or_assoc]
  quiet := by simp [hrun.quiet, hstep.quiet, or_assoc]
  mono h := hrun.mono (h.imp hstep.readMono hstep.writeMono)
  bad h := by
    obtain ⟨x, hx, hbad⟩ := h
    obtain rfl | hx := List.mem_cons.mp hx
    · exact hrun.mono (hstep.bad hbad)
    · exact hrun.bad ⟨x, hx, hbad⟩
  good h := by
    obtain ⟨hstray, hlong⟩ := h t List.mem_cons_self
    obtain ⟨hr, hw, hp, hf⟩ := hstep.good hstray hlong
    obtain ⟨hr', hw', hp', hf'⟩ := hrun.good fun x hx => h x (List.mem_cons_of_mem _ hx)
    refine ⟨hr'.trans hr, hw'.trans hw, fun x hx => ?_, fun x hx => ?_⟩
    · rw [lastValue_cons]
      exact hp' _ (hp x hx)
    · rw [lastValue_cons]
      exact hf' _ (hf x hx)

/-- **Run lemma**. -/
theorem run_parseTokens (hlaid : Laid m arg ts) : Run ts s (parseTokens m arg ts s) := by
  induction ts generalizing arg s with
  | nil => exact run_nil
  | cons t ts ih =>
      obtain ⟨htok, hlt, hrest⟩ := hlaid
      refine run_cons ?_ (ih hrest)
      split_ifs with h0
      · obtain rfl := List.eq_nil_of_length_eq_zero h0
        exact step_flags (by simp [Stray, Abbreviates]) (by decide) (by decide)
          (by simp [Abbreviates]) (by simp [Abbreviates])
      · exact step_parseArg htok (fun h => h0 (by rw [h, List.length_nil])) hlt

/-- The loop reads the tokens between the spaces. -/
theorem parseLoop_returns {P : Nat → Prop} {text : Bytes} (hstr : CStr P m arg text)
    (hlt : text.length < 2 ^ 32) :
    Fuel.Returns (fun k => parseLoop m k arg s) (parseTokens m arg (tokens text) s) ∧
      Laid m arg (tokens text) := by
  induction hn : text.length using Nat.strong_induction_on generalizing text arg s with
  | _ n ih =>
      by_cases hsp : (32 : UInt8) ∈ text
      · obtain ⟨t, rest, rfl, ht⟩ := List.eq_append_cons_of_mem hsp
        have hlen : (t ++ 32 :: rest).length = t.length + 1 + rest.length := by
          simp
          omega
        have htoks : tokens (t ++ 32 :: rest) = t :: tokens rest :=
          List.splitOn_append_cons_self_of_not_mem ht rest
        have hrest : CStr P m (arg + t.length + 1) rest := cstr_tail (cstr_append hstr)
        obtain ⟨hret, hlaid⟩ := ih rest.length (by omega) hrest (by omega) rfl
        rw [htoks]
        refine ⟨.of_succ rfl ?_, ⟨fun i hi => ?_, fun h0 => ?_, .inl ?_⟩, by omega, hlaid⟩
        · refine Fuel.Returns.bind (strchr_of_append hstr ht) ?_
          refine Fuel.Returns.bind Fuel.returns_ok ?_
          rw [Nat.add_sub_cancel_left]
          exact hret
        · rw [hstr.byte i (by omega), List.getD_append _ _ _ _ hi]
        · exact hstr.nonzero 0 (List.mem_append_left _ h0) rfl
        · exact (cstr_first (cstr_append hstr)).1
      · have htoks : tokens text = [text] := List.splitOn_eq_singleton hsp
        rw [htoks]
        refine ⟨.of_succ rfl ?_, ⟨fun i hi => hstr.byte i (by omega), fun h0 => ?_, .inr ?_⟩, by omega,
          trivial⟩
        · refine Fuel.Returns.bind (strchr_of_not_mem hstr hsp) ?_
          exact Fuel.Returns.bind (strlenAt_returns hstr) Fuel.returns_ok
        · exact hstr.nonzero 0 h0 rfl
        · rw [hstr.byte _ (Nat.le_refl _)]
          simp

/-- `parse_cmdline` returns what the tokens say. -/
theorem parseCmdline_returns {P : Nat → Prop} {text : Bytes} (hstr : CStr P m arg text)
    (hlt : text.length < 2 ^ 32) :
    ∃ s', Fuel.Returns (parseCmdline m (some arg)) s' ∧ Run (tokens text) {} s' := by
  have hzero : Function.update (fun _ => 0 : ByteMem) 0 0 = fun _ => 0 :=
    Function.update_eq_self 0 (fun _ => 0)
  obtain ⟨hret, hlaid⟩ := parseLoop_returns (s := {}) hstr hlt
  refine ⟨_, ?_, run_parseTokens hlaid⟩
  unfold parseCmdline
  rw [hzero]
  exact hret

theorem field_zero {s : BootCmdline} (h : s.fields = fun _ => 0) (field : Nat) :
    Field s field [] where
  nonzero := by simp
  inside i hi := by
    obtain rfl : i = 0 := Nat.le_zero.mp hi
    exact ⟨by omega, Nat.lt_add_of_pos_right (by decide)⟩
  byte i _ := by simp [h]

theorem plain_iff : Plain ts ↔ ((∃ t ∈ ts, Abbreviates t UART_TTY) → UART_TTY ∈ ts) ∧
    ((∃ t ∈ ts, Abbreviates t QUIET) → QUIET ∈ ts) ∧ ∀ t ∈ ts, ¬Stray t ∧ ¬Long t := by
  constructor
  · intro h
    refine ⟨fun ⟨t, ht, ha⟩ => h.uart t ht ha, fun ⟨t, ht, ha⟩ => h.quiet t ht ha, ?_⟩
    refine fun t ht => ⟨fun hs => ?_, fun ⟨v, hv, hle⟩ => ?_⟩
    · obtain ⟨ha, hne⟩ | ⟨ha, hne⟩ := hs
      · exact hne (h.profile t ht ha)
      · exact hne (h.ramfs t ht ha)
    · exact absurd (h.fits t ht v hv) (Nat.not_lt.mpr hle)
  · rintro ⟨huart, hquiet, hgood⟩
    refine ⟨fun t ht ha => huart ⟨t, ht, ha⟩, fun t ht ha => hquiet ⟨t, ht, ha⟩, ?_, ?_, ?_⟩
    · exact fun t ht ha => by_contra fun hne => (hgood t ht).1 (.inl ⟨ha, hne⟩)
    · exact fun t ht ha => by_contra fun hne => (hgood t ht).1 (.inr ⟨ha, hne⟩)
    · exact fun t ht v hv => by_contra fun hle => (hgood t ht).2 ⟨v, hv, Nat.not_lt.mp hle⟩

/-- The values of tokens that are not long fit into their fields. -/
theorem length_lastValue (hlong : ∀ t ∈ ts, ¬Long t) (hname : name = INIT_PROFILE ∨ name = RAMFS) :
    (lastValue name ts).length < BOOT_CMDLINE_PARAM_MAX_CHARS := by
  unfold lastValue
  cases hlast : (ts.filterMap (valueOf name)).getLast? with
  | none => decide
  | some v =>
      obtain ⟨t, ht, hv⟩ := List.mem_filterMap.mp (List.mem_of_getLast? hlast)
      refine Nat.not_le.mp fun hle => hlong t ht ⟨v, ?_, hle⟩
      obtain rfl | rfl := hname
      · exact .inl hv
      · exact .inr hv

/-- What is said by tokens is right if they are plain, and only then. -/
theorem parsed_iff {s' : BootCmdline} (hrun : Run ts {} s') : Parsed ts s' ↔ Plain ts := by
  have hself : ∀ name, name ≠ [] → name ∈ ts → ∃ t ∈ ts, Abbreviates t name :=
    fun name hne hmem => ⟨name, hmem, hne, List.prefix_rfl⟩
  have huart : s'.uartTty = true ↔ ∃ t ∈ ts, Abbreviates t UART_TTY := by simpa using hrun.uart
  have hquiet : s'.quiet = true ↔ ∃ t ∈ ts, Abbreviates t QUIET := by simpa using hrun.quiet
  rw [plain_iff]
  constructor
  · intro h
    refine ⟨fun ha => h.uart.mp (huart.mpr ha), fun ha => h.quiet.mp (hquiet.mpr ha), ?_⟩
    intro t ht
    refine not_or.mp fun hbad => ?_
    have hstray := hrun.bad ⟨t, ht, hbad⟩
    rw [h.read, h.write] at hstray
    simp at hstray
  · rintro ⟨hu, hq, hgood⟩
    obtain ⟨hread, hwrite, hprofile, hramfs⟩ := hrun.good hgood
    have hfits := fun name => @length_lastValue name ts fun t ht => (hgood t ht).2
    refine ⟨huart.trans ⟨hu, hself _ (by decide)⟩, hquiet.trans ⟨hq, hself _ (by decide)⟩, ?_, ?_,
      hread, hwrite⟩
    · rw [List.take_of_length_le (Nat.le_sub_one_of_lt (hfits INIT_PROFILE (.inl rfl)))]
      exact hprofile [] (field_zero rfl 0)
    · rw [List.take_of_length_le (Nat.le_sub_one_of_lt (hfits RAMFS (.inr rfl)))]
      exact hramfs [] (field_zero rfl RAMFS_MOUNT)

end

/-! ## the theorem -/

/-- `parse_cmdline` returns, with what the command line at `arg` says. -/
def Right (m : ByteMem) (arg : Nat) (text : Bytes) : Prop :=
  ∃ s, Fuel.Returns (parseCmdline m (some arg)) s ∧ Parsed (tokens text) s

theorem right_iff_parsed {m : ByteMem} {arg : Nat} {text : Bytes} {s : BootCmdline}
    (hret : Fuel.Returns (parseCmdline m (some arg)) s) :
    Right m arg text ↔ Parsed (tokens text) s := by
  constructor
  · intro h
    obtain ⟨s', hret', hparsed⟩ := h
    obtain ⟨k, hk⟩ := hret'.exists_ok
    rwa [hret.eq_of_ok hk] at hparsed
  · exact fun h => ⟨s, hret, h⟩

/-- **The command line is read right** exactly if its tokens are plain. -/
theorem right_iff (m : ByteMem) (arg : Nat) (text : Bytes)
    (hstr : CStr (fun x => x < 2 ^ 32) m arg text) :
    Right m arg text ↔ Plain (tokens text) := by
  have hlt : text.length < 2 ^ 32 := by
    have h := hstr.inside text.length (Nat.le_refl _)
    omega
  obtain ⟨s, hret, hrun⟩ := parseCmdline_returns hstr hlt
  rw [right_iff_parsed hret, parsed_iff hrun]

/-- `quiet ramfs=/tmp`, in an otherwise empty memory. -/
theorem right_iff_quiet :
    CStr (fun x => x < 2 ^ 32)
      (literal [113, 117, 105, 101, 116, 32, 114, 97, 109, 102, 115, 61, 47, 116, 109, 112]) 0
      [113, 117, 105, 101, 116, 32, 114, 97, 109, 102, 115, 61, 47, 116, 109, 112] ∧
    (Right (literal [113, 117, 105, 101, 116, 32, 114, 97, 109, 102, 115, 61, 47, 116, 109, 112]) 0
        [113, 117, 105, 101, 116, 32, 114, 97, 109, 102, 115, 61, 47, 116, 109, 112] ↔
      Plain [[113, 117, 105, 101, 116], [114, 97, 109, 102, 115, 61, 47, 116, 109, 112]]) := by
  have hstr : CStr (fun x => x < 2 ^ 32)
      (literal [113, 117, 105, 101, 116, 32, 114, 97, 109, 102, 115, 61, 47, 116, 109, 112]) 0
      [113, 117, 105, 101, 116, 32, 114, 97, 109, 102, 115, 61, 47, 116, 109, 112] :=
    ⟨by decide +kernel, fun i hi => by simp at hi; omega, fun i _ => by rw [Nat.zero_add, literal]⟩
  exact ⟨hstr, right_iff _ 0 _ hstr⟩

/-- **A front of `uart-tty`** is taken for it. -/
theorem not_right : ¬∀ (m : ByteMem) (arg : Nat) (text : Bytes),
    CStr (fun x => x < 2 ^ 32) m arg text → Right m arg text := by
  intro h
  have hstr : CStr (fun x => x < 2 ^ 32) (literal [117]) 0 [117] :=
    ⟨by decide +kernel, fun i hi => by simp at hi; omega, fun i _ => by rw [Nat.zero_add, literal]⟩
  obtain ⟨s, hret, hrun⟩ := parseCmdline_returns hstr (by decide)
  have hplain := (parsed_iff hrun).mp ((right_iff_parsed hret).mp (h _ 0 _ hstr))
  exact absurd (hplain.uart [117] (by decide) (by decide)) (by decide)

end Cmdline

end Eclair
