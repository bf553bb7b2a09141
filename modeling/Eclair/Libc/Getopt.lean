import Eclair.Basic
import Eclair.Lib.Drain

/-!
# Eclair.Libc.Getopt

`getopt` (`libc/getopt.c`): the options of a program, one for each call.

An argument is its characters up to the NUL; `argv` is the list of them, with
the null pointer behind the last one.
-/

namespace Eclair

namespace Getopt

/-- The characters of a literal. -/
def ascii (s : String) : Bytes := s.toList.map fun c => c.toNat.toUInt8

/-- The parameter `optstring`: a pointer and its text. -/
structure OptString where
  addr : Nat
  text : Bytes

/-- The variables of the file; `arg` is the text from the pointer on. -/
structure Statics where
  s_optstring : Option Nat
  optarg : Option Bytes
  optind : Nat
  arg : Option Bytes
  index : Nat
  deriving DecidableEq

/-- What the caller has of a call: the value returned, `optarg`, and what was
printed. -/
structure Result where
  ret : Int
  optarg : Option Bytes
  err : Bytes
  deriving DecidableEq

/-- `int` of a `char`. -/
def charInt (c : UInt8) : Int := if c.toNat < 128 then c.toNat else c.toNat - 256

/-- `strchr`, for a character that is not NUL. -/
def strchr : Bytes → UInt8 → Option Bytes
  | [], _ => none
  | a :: s, c => if a = c then some (a :: s) else strchr s c

/-- `fprintf(stderr, "%s: Unrecognized option '-%c'\n", argv[0], *arg)` -/
def unrecognized (argv : List Bytes) (c : UInt8) : Bytes :=
  argv.headD [] ++ ascii ": Unrecognized option '-" ++ [c] ++ ascii "'\n"

/-- `fprintf(stderr, "%s: Expected argument after option '-%c'\n", argv[0], *arg)` -/
def expected (argv : List Bytes) (c : UInt8) : Bytes :=
  argv.headD [] ++ ascii ": Expected argument after option '-" ++ [c] ++ ascii "'\n"

/-- The body of the inner loop, at the character `c` with `cs` behind it.
Every path returns. -/
def option (argv : List Bytes) (optstring : Bytes) (c : UInt8) (cs : Bytes) (s : Statics) :
    Result × Statics :=
  let s := { s with arg := some (c :: cs) }
  match strchr optstring c with
  | none => (⟨63, s.optarg, unrecognized argv c⟩, s)
  | some opt =>
      if opt.head? = some 58 then (⟨63, s.optarg, unrecognized argv c⟩, s)
      else
        let s := { s with optind := s.index }
        if opt.tail.head? ≠ some 58 then (⟨charInt c, s.optarg, []⟩, s)
        else if cs ≠ [] then
          (⟨charInt (opt.headD 0), some cs, []⟩, { s with optarg := some cs, arg := none })
        else
          match argv[s.index]? with
          | none => (⟨63, s.optarg, expected argv c⟩, s)
          | some v => (⟨charInt (opt.headD 0), some v, []⟩,
              { s with optarg := some v, index := s.index + 1, optind := s.index + 1 })

/-- `arg = argv[index++]`, and no argument if it does not begin with `-`. -/
def fetch (argv : List Bytes) (s : Statics) : Statics :=
  let arg := argv.getD s.index []
  { s with index := s.index + 1, arg := if arg.head? ≠ some 45 then none else some arg }

/-- The loop over the arguments. -/
def loop (argv : List Bytes) (optstring : Bytes) : Nat → Statics → Option (Result × Statics)
  | 0, _ => none
  | n + 1, s =>
      if s.index < argv.length ∨ s.arg.getD [] ≠ [] then
        let s := if s.arg.getD [] = [] then fetch argv s else s
        match s.arg with
        | none => loop argv optstring n s
        | some arg =>
            match arg.tail with
            | [] => loop argv optstring n { s with arg := some [] }
            | c :: cs => some (option argv optstring c cs s)
      else some (⟨-1, s.optarg, []⟩, s)

/-- The reset for a new `optstring`. -/
def reset (optstring : OptString) (s : Statics) : Statics :=
  if s.s_optstring ≠ some optstring.addr then
    { s_optstring := some optstring.addr, optarg := none, optind := 1, index := 1, arg := none }
  else s

/-- `getopt`. -/
def getopt (argv : List Bytes) (optstring : OptString) (s : Statics) : Option (Result × Statics) :=
  loop argv optstring.text (argv.length + 2) (reset optstring s)

/-! ## options and operands -/

/-- What a character is for an option string. -/
inductive Kind where
  | unknown | plain | valued
  deriving DecidableEq

/-- A colon is no option; one behind an option asks for a value. -/
def kind (optstring : Bytes) (c : UInt8) : Kind :=
  if c = 58 ∨ c ∉ optstring then .unknown
  else if optstring[optstring.idxOf c + 1]? = some 58 then .valued
  else .plain

/-- What there is in a group of options. -/
inductive Item where
  | option (c : UInt8) (value : Option Bytes)
  | missing (c : UInt8)
  | unknown (c : UInt8)
  deriving DecidableEq

namespace Item

/-- The option is one of the option string. -/
def known : Item → Bool
  | unknown _ => false
  | _ => true

/-- The value to return: `?` without an option. -/
def ret : Item → Int
  | option c _ => charInt c
  | _ => 63

def value : Item → Option Bytes
  | option _ v => v
  | _ => none

def message (argv : List Bytes) : Item → Bytes
  | option _ _ => []
  | missing c => expected argv c
  | unknown c => unrecognized argv c

end Item

/-- The items of a group, and whether the next argument is the value of the
last one. -/
structure Group where
  items : List Item
  takes : Bool
  deriving DecidableEq

/-- The group of the characters, with `next` as next argument. -/
def groupOf (optstring : Bytes) (next : Option Bytes) : Bytes → Group
  | [] => ⟨[], false⟩
  | c :: cs =>
      match kind optstring c with
      | .unknown => ⟨.unknown c :: (groupOf optstring next cs).items, (groupOf optstring next cs).takes⟩
      | .plain => ⟨.option c none :: (groupOf optstring next cs).items, (groupOf optstring next cs).takes⟩
      | .valued =>
          if cs ≠ [] then ⟨[.option c (some cs)], false⟩
          else match next with
            | none => ⟨[.missing c], false⟩
            | some v => ⟨[.option c (some v)], true⟩

/-- What an argument is. -/
inductive Role where
  | operand
  | group (g : Group)
  | value
  deriving DecidableEq

namespace Role

def items : Role → List Item
  | group g => g.items
  | _ => []

def takes : Role → Bool
  | group g => g.takes
  | _ => false

/-- There is an option of the option string. -/
def known (r : Role) : Bool := r.items.any Item.known

end Role

/-- A dash with something behind it. -/
def isGroup (a : Bytes) : Bool := a.head? == some 45 && a.tail != []

/-- What the arguments are, the first a value if `takes`. -/
def roles (optstring : Bytes) : Bool → List Bytes → List Role
  | _, [] => []
  | true, _ :: rest => .value :: roles optstring false rest
  | false, a :: rest =>
      if isGroup a then
        .group (groupOf optstring rest.head? a.tail) ::
          roles optstring (groupOf optstring rest.head? a.tail).takes rest
      else .operand :: roles optstring false rest

/-- What the arguments of the program are. -/
def rolesOf (argv : List Bytes) (optstring : Bytes) : List Role := roles optstring false argv.tail

/-- The options present, in order. -/
def itemsOf (argv : List Bytes) (optstring : Bytes) : List Item :=
  (rolesOf argv optstring).flatMap Role.items

/-- What a call returns for an item. -/
def Gives (argv : List Bytes) (r : Result) (i : Item) : Prop :=
  r.ret = i.ret ∧ (∀ v, i.value = some v → r.optarg = some v) ∧ r.err = i.message argv

/-- The calls end, give the options in order, and leave all operands from
`optind` on. -/
def Parsed (argv : List Bytes) (optstring : OptString) (s : Statics) : Prop :=
  ∃ rs s', Drained (getopt argv optstring) (fun r => r.ret = -1) s rs s' ∧
    List.Forall₂ (Gives argv) rs (itemsOf argv optstring.text) ∧
    ∀ i, (rolesOf argv optstring.text)[i]? = some .operand → s'.optind ≤ i + 1

/-- No operand stands before an option. -/
def OperandsLast (argv : List Bytes) (optstring : Bytes) : Prop :=
  (rolesOf argv optstring).Pairwise fun a b => a = .operand → b.known = false

section

variable {argv args : List Bytes} {o text : Bytes} {next : Option Bytes} {c : UInt8} {cs : Bytes}
variable {s s' t : Statics} {r : Result} {res : Option (Result × Statics)} {n index optind : Nat}
variable {takes : Bool} {g : Group} {rs : List Role}

/-! ## the option string -/

theorem strchr_eq (text : Bytes) (c : UInt8) :
    strchr text c = if c ∈ text then some (text.drop (text.idxOf c)) else none := by
  induction text with
  | nil => rfl
  | cons a text ih =>
      by_cases ha : a = c
      · simp [strchr, ha]
      · simp [strchr, ha, ih, Ne.symm ha, List.idxOf_cons_ne text ha]

theorem strchr_of_mem (h : c ∈ o) :
    ∃ opt, strchr o c = some (c :: opt) ∧ opt.head? = o[o.idxOf c + 1]? := by
  have hlt : o.idxOf c < o.length := List.idxOf_lt_length_of_mem h
  refine ⟨o.drop (o.idxOf c + 1), ?_, List.head?_drop⟩
  rw [strchr_eq, if_pos h, List.drop_eq_getElem_cons hlt, List.getElem_idxOf hlt]

theorem strchr_of_not_mem (h : c ∉ o) : strchr o c = none := by
  rw [strchr_eq, if_neg h]

/-! ## what is ahead -/

/-- The rest of the group at `arg`. -/
def ahead (argv : List Bytes) (o : Bytes) (s : Statics) : Group :=
  groupOf o argv[s.index]? (s.arg.getD []).tail

/-- What the arguments from `index` on are. -/
def after (argv : List Bytes) (o : Bytes) (s : Statics) : List Role :=
  roles o (ahead argv o s).takes (argv.drop s.index)

/-- The options to come. -/
def pending (argv : List Bytes) (o : Bytes) (s : Statics) : List Item :=
  (ahead argv o s).items ++ (after argv o s).flatMap Role.items

/-- `optind` after the arguments from `index` on. -/
def indexAfter : Nat → Nat → List Role → Nat
  | optind, _, [] => optind
  | optind, index, r :: rs =>
      indexAfter (bif r.known then index + 1 + r.takes.toNat else optind) (index + 1) rs

/-- `optind` at the end. -/
def lastIndex (argv : List Bytes) (o : Bytes) (s : Statics) : Nat :=
  indexAfter
    (bif (ahead argv o s).items.any Item.known then s.index + (ahead argv o s).takes.toNat
      else s.optind)
    s.index (after argv o s)

/-- Two states with the same to come. -/
structure Same (argv : List Bytes) (o : Bytes) (s t : Statics) : Prop where
  string_eq : t.s_optstring = s.s_optstring
  pending_eq : pending argv o t = pending argv o s
  last_eq : lastIndex argv o t = lastIndex argv o s

/-- A call gives the first option to come, or ends. -/
structure Advances (argv : List Bytes) (o : Bytes) (s : Statics) (r : Result) (s' : Statics) :
    Prop where
  string_eq : s'.s_optstring = s.s_optstring
  last_eq : lastIndex argv o s' = lastIndex argv o s
  nil : pending argv o s = [] → r.ret = -1 ∧ pending argv o s' = []
  cons : ∀ i is, pending argv o s = i :: is → Gives argv r i ∧ pending argv o s' = is

theorem Same.advances (h : Same argv o s t) (ha : Advances argv o t r s') :
    Advances argv o s r s' where
  string_eq := ha.string_eq.trans h.string_eq
  last_eq := ha.last_eq.trans h.last_eq
  nil := by
    rw [← h.pending_eq]
    exact ha.nil
  cons := by
    rw [← h.pending_eq]
    exact ha.cons

theorem groupOf_unknown (h : kind o c = .unknown) : groupOf o next (c :: cs) =
    ⟨.unknown c :: (groupOf o next cs).items, (groupOf o next cs).takes⟩ := by
  rw [groupOf.eq_def]
  simp [h]

theorem groupOf_plain (h : kind o c = .plain) : groupOf o next (c :: cs) =
    ⟨.option c none :: (groupOf o next cs).items, (groupOf o next cs).takes⟩ := by
  rw [groupOf.eq_def]
  simp [h]

theorem groupOf_attached (h : kind o c = .valued) (hcs : cs ≠ []) :
    groupOf o next (c :: cs) = ⟨[.option c (some cs)], false⟩ := by
  rw [groupOf.eq_def]
  simp [h, hcs]

theorem groupOf_missing (h : kind o c = .valued) :
    groupOf o none [c] = ⟨[.missing c], false⟩ := by
  simp [groupOf, h]

theorem groupOf_separate {v : Bytes} (h : kind o c = .valued) :
    groupOf o (some v) [c] = ⟨[.option c (some v)], true⟩ := by
  simp [groupOf, h]

/-- A value that is taken is one of an option. -/
theorem groupOf_known (h : (groupOf o next cs).takes = true) :
    (groupOf o next cs).items.any Item.known = true := by
  induction cs with
  | nil => contradiction
  | cons c cs ih =>
      cases hk : kind o c with
      | unknown =>
          rw [groupOf_unknown hk] at h ⊢
          simp [Item.known, ih h]
      | plain => simp [groupOf_plain hk, Item.known]
      | valued =>
          by_cases hcs : cs = []
          · cases next <;> simp [hcs, groupOf_missing hk, groupOf_separate hk, Item.known]
          · simp [groupOf_attached hk hcs, Item.known]

/-! ## one character -/

theorem option_unknown (h : kind o c = .unknown) : option argv o c cs s =
    (⟨63, s.optarg, unrecognized argv c⟩, { s with arg := some (c :: cs) }) := by
  by_cases hmem : c ∈ o
  · obtain ⟨opt, hopt, -⟩ := strchr_of_mem hmem
    have hcolon : c = 58 := by
      by_contra hne
      by_cases hv : o[o.idxOf c + 1]? = some 58 <;> simp [kind, hne, hmem, hv] at h
    subst hcolon
    simp [option, hopt]
  · simp [option, strchr_of_not_mem hmem]

theorem known_of_kind (h : kind o c ≠ .unknown) : c ≠ 58 ∧ c ∈ o := by
  unfold kind at h
  split at h
  · exact absurd rfl h
  · next hnot => exact ⟨fun hc => hnot (.inl hc), Decidable.not_not.mp fun hm => hnot (.inr hm)⟩

theorem option_plain (h : kind o c = .plain) : option argv o c cs s =
    (⟨charInt c, s.optarg, []⟩, { s with arg := some (c :: cs), optind := s.index }) := by
  obtain ⟨hcolon, hmem⟩ := known_of_kind (by rw [h]; nofun : kind o c ≠ .unknown)
  obtain ⟨opt, hopt, hnext⟩ := strchr_of_mem hmem
  have hv : o[o.idxOf c + 1]? ≠ some 58 := by
    intro hv
    simp [kind, hcolon, hmem, hv] at h
  simp [option, hopt, hcolon, hnext, hv]

theorem option_valued (h : kind o c = .valued) : option argv o c cs s =
    (if cs ≠ [] then
      (⟨charInt c, some cs, []⟩, { s with optarg := some cs, optind := s.index, arg := none })
    else match argv[s.index]? with
      | none => (⟨63, s.optarg, expected argv c⟩,
          { s with arg := some (c :: cs), optind := s.index })
      | some v => (⟨charInt c, some v, []⟩,
          { s with
            arg := some (c :: cs), optarg := some v, index := s.index + 1
            optind := s.index + 1 })) := by
  obtain ⟨hcolon, hmem⟩ := known_of_kind (by rw [h]; nofun : kind o c ≠ .unknown)
  obtain ⟨opt, hopt, hnext⟩ := strchr_of_mem hmem
  have hv : o[o.idxOf c + 1]? = some 58 := by
    by_contra hv
    simp [kind, hcolon, hmem, hv] at h
  rw [← hnext] at hv
  simp [option, hopt, hcolon, hv]

theorem Advances.of_eq {i : Item} (hs : s'.s_optstring = s.s_optstring) (hgives : Gives argv r i)
    (hpending : pending argv o s = i :: pending argv o s')
    (hlast : lastIndex argv o s' = lastIndex argv o s) : Advances argv o s r s' := by
  refine ⟨hs, hlast, ?_, ?_⟩ <;> simp [hpending, hgives]

/-- One more character of the group: what the call returns for it, and what is
left. -/
theorem option_advances (argv : List Bytes) (o : Bytes) (harg : (s.arg.getD []).tail = c :: cs) :
    Advances argv o s (option argv o c cs s).1 (option argv o c cs s).2 := by
  cases hk : kind o c with
  | unknown =>
      rw [option_unknown hk]
      refine Advances.of_eq (i := .unknown c) rfl ⟨rfl, nofun, rfl⟩ ?_ ?_
      · simp [pending, ahead, after, harg, groupOf_unknown hk]
      · simp [lastIndex, ahead, after, harg, groupOf_unknown hk, Item.known]
  | plain =>
      rw [option_plain hk]
      refine Advances.of_eq (i := .option c none) rfl ⟨rfl, nofun, rfl⟩ ?_ ?_
      · simp [pending, ahead, after, harg, groupOf_plain hk]
      · have hrest : (bif (groupOf o argv[s.index]? cs).items.any Item.known then
            s.index + (groupOf o argv[s.index]? cs).takes.toNat else s.index) =
              s.index + (groupOf o argv[s.index]? cs).takes.toNat := by
          cases htakes : (groupOf o argv[s.index]? cs).takes with
          | true => rw [groupOf_known htakes, cond_true]
          | false => exact Bool.cond_self _ _
        simp [lastIndex, ahead, after, harg, groupOf_plain hk, Item.known, hrest]
  | valued =>
      rw [option_valued hk]
      by_cases hcs : cs = []
      · subst hcs
        cases hnext : argv[s.index]? with
        | none =>
            have hdrop : argv.drop s.index = [] := by
              simpa using hnext
            simp only [ne_eq, not_true_eq_false, if_false]
            refine Advances.of_eq (i := .missing c) rfl ⟨rfl, nofun, rfl⟩ ?_ ?_
            · simp [pending, ahead, after, harg, hnext, groupOf_missing hk, groupOf, hdrop]
            · simp [lastIndex, ahead, after, harg, hnext, groupOf_missing hk, groupOf, hdrop,
                Item.known]
        | some v =>
            have hdrop : argv.drop s.index = v :: argv.drop (s.index + 1) := by
              obtain ⟨hlt, hv⟩ := List.getElem?_eq_some_iff.mp hnext
              rw [List.drop_eq_getElem_cons hlt, hv]
            simp only [ne_eq, not_true_eq_false, if_false]
            refine Advances.of_eq (i := .option c (some v)) rfl ⟨rfl, fun v' hv' => hv', rfl⟩ ?_ ?_
            · simp [pending, ahead, after, harg, hnext, groupOf_separate hk, groupOf, hdrop, roles,
                Role.items]
            · simp [lastIndex, ahead, after, harg, hnext, groupOf_separate hk, groupOf, hdrop, roles,
                indexAfter, Item.known, Role.known, Role.items]
      · rw [if_pos hcs]
        refine Advances.of_eq (i := .option c (some cs)) rfl ⟨rfl, fun v' hv' => hv', rfl⟩ ?_ ?_
        · simp [pending, ahead, after, harg, groupOf_attached hk hcs, groupOf]
        · simp [lastIndex, ahead, after, harg, groupOf_attached hk hcs, groupOf, Item.known]

/-! ## the arguments -/

theorem groupOf_tail (hs : s.arg.getD [] = []) : ahead argv o s = ⟨[], false⟩ := by
  simp [ahead, hs, groupOf]

/-- Nothing is left of the group. -/
theorem same_exhausted (argv : List Bytes) (o : Bytes) (hs : (s.arg.getD []).tail = []) :
    Same argv o s { s with arg := some [] } := by
  constructor <;> simp [pending, lastIndex, after, ahead, hs]

theorem roles_cons (a : Bytes) (rest : List Bytes) (h : isGroup a = true) :
    roles o false (a :: rest) = .group (groupOf o rest.head? a.tail) ::
      roles o (groupOf o rest.head? a.tail).takes rest := by
  rw [roles, if_pos h]

theorem roles_operand (a : Bytes) (rest : List Bytes) (h : isGroup a = false) :
    roles o false (a :: rest) = .operand :: roles o false rest := by
  rw [roles, if_neg (by simp [h])]

theorem pending_exhausted (hs : s.arg.getD [] = []) :
    pending argv o s = (roles o false (argv.drop s.index)).flatMap Role.items := by
  simp [pending, after, groupOf_tail hs]

theorem lastIndex_exhausted (hs : s.arg.getD [] = []) : lastIndex argv o s =
    indexAfter s.optind s.index (roles o false (argv.drop s.index)) := by
  simp [lastIndex, after, groupOf_tail hs]

@[simp] theorem fetch_string (argv : List Bytes) (s : Statics) :
    (fetch argv s).s_optstring = s.s_optstring := rfl

@[simp] theorem fetch_optind (argv : List Bytes) (s : Statics) :
    (fetch argv s).optind = s.optind := rfl

@[simp] theorem fetch_index (argv : List Bytes) (s : Statics) :
    (fetch argv s).index = s.index + 1 := rfl

/-- The next argument is fetched. -/
theorem same_fetch (hs : s.arg.getD [] = []) (hlt : s.index < argv.length) :
    Same argv o s (fetch argv s) := by
  have hdrop : argv.drop s.index = argv[s.index] :: argv.drop (s.index + 1) :=
    List.drop_eq_getElem_cons hlt
  have hget : argv.getD s.index [] = argv[s.index] := by simp [hlt]
  generalize argv[s.index] = a at hdrop hget
  have hnext : argv[s.index + 1]? = (argv.drop (s.index + 1)).head? := by simp
  by_cases hdash : a.head? = some 45
  · have harg : (fetch argv s).arg.getD [] = a := by
      rw [fetch, hget, if_neg (not_not_intro hdash), Option.getD_some]
    by_cases htail : a.tail = []
    · have hrole := roles_operand (o := o) a (argv.drop (s.index + 1)) (by simp [isGroup, htail])
      refine ⟨rfl, ?_, ?_⟩
      · rw [pending_exhausted hs, hdrop, hrole]
        simp [pending, after, ahead, harg, htail, groupOf, Role.items]
      · rw [lastIndex_exhausted hs, hdrop, hrole]
        simp [lastIndex, after, ahead, harg, htail, groupOf, indexAfter, Role.known, Role.items]
    · have hrole := roles_cons (o := o) a (argv.drop (s.index + 1))
        (by simp [isGroup, htail, hdash])
      refine ⟨rfl, ?_, ?_⟩
      · rw [pending_exhausted hs, hdrop, hrole, ← hnext]
        simp [pending, after, ahead, harg, Role.items]
      · rw [lastIndex_exhausted hs, hdrop, hrole, ← hnext]
        simp [lastIndex, after, ahead, harg, indexAfter, Role.known, Role.takes, Role.items]
  · have hrole := roles_operand (o := o) a (argv.drop (s.index + 1)) (by simp [isGroup, hdash])
    have harg : (fetch argv s).arg.getD [] = [] := by
      rw [fetch, hget, if_pos hdash, Option.getD_none]
    refine ⟨rfl, ?_, ?_⟩
    · rw [pending_exhausted hs, hdrop, hrole, pending_exhausted harg]
      simp [Role.items]
    · rw [lastIndex_exhausted hs, hdrop, hrole, lastIndex_exhausted harg]
      simp [indexAfter, Role.known, Role.items]

/-! ## the loop -/

/-- **The loop** from the start of an argument. -/
theorem loop_advances (hs : s.arg.getD [] = []) (hn : argv.length - s.index < n) :
    ∃ r s', loop argv o n s = some (r, s') ∧ Advances argv o s r s' := by
  induction n generalizing s with
  | zero => contradiction
  | succ n ih =>
      by_cases hlt : s.index < argv.length
      · have hsame := same_fetch (o := o) hs hlt
        rw [loop, if_pos (.inl hlt), if_pos hs]
        cases harg : (fetch argv s).arg with
        | none =>
            obtain ⟨r, s', hr, ha⟩ := ih (s := fetch argv s) (by rw [harg]; rfl)
              (by rw [fetch_index]; omega)
            exact ⟨r, s', by simpa [harg] using hr, hsame.advances ha⟩
        | some arg =>
            cases htail : arg.tail with
            | nil =>
                have hexh := same_exhausted argv o (s := fetch argv s)
                  (by rw [harg]; exact htail)
                obtain ⟨r, s', hr, ha⟩ := ih (s := { fetch argv s with arg := some [] }) rfl
                  (by rw [fetch_index]; omega)
                exact ⟨r, s', by simpa [harg, htail] using hr, hsame.advances (hexh.advances ha)⟩
            | cons c cs =>
                have ha := option_advances argv o (s := fetch argv s)
                  (by rw [harg]; exact htail)
                exact ⟨_, _, by simp [harg, htail], hsame.advances ha⟩
      · have hnil : pending argv o s = [] := by
          rw [pending_exhausted hs, List.drop_eq_nil_of_le (by omega)]
          rfl
        rw [loop, if_neg (by simp [hs, hlt])]
        exact ⟨_, _, rfl, rfl, rfl, fun _ => ⟨rfl, hnil⟩, by simp [hnil]⟩

/-- **The loop** from anywhere in a group. -/
theorem loop_advances_group (hn : argv.length - s.index + 1 < n) :
    ∃ r s', loop argv o n s = some (r, s') ∧ Advances argv o s r s' := by
  by_cases hs : s.arg.getD [] = []
  · exact loop_advances hs (by omega)
  · obtain ⟨n, rfl⟩ : ∃ k, n = k + 1 := ⟨n - 1, by omega⟩
    rw [loop, if_pos (.inr hs), if_neg hs]
    cases harg : s.arg with
    | none => simp [harg] at hs
    | some arg =>
        cases htail : arg.tail with
        | nil =>
            have hexh := same_exhausted argv o (s := s) (by rw [harg]; exact htail)
            obtain ⟨r, s', hr, ha⟩ := loop_advances (o := o) (s := { s with arg := some [] }) rfl
              (show argv.length - s.index < n by omega)
            exact ⟨r, s', by simpa [harg, htail] using hr, hexh.advances ha⟩
        | cons c cs =>
            have ha := option_advances argv o (s := s) (by rw [harg]; exact htail)
            exact ⟨_, _, by simp [harg, htail], ha⟩

/-! ## the calls -/

section

variable {str : OptString}

theorem reset_of_eq (h : s.s_optstring = some str.addr) : reset str s = s :=
  if_neg (not_not_intro h)

theorem reset_string (str : OptString) (s : Statics) :
    (reset str s).s_optstring = some str.addr := by
  by_cases h : s.s_optstring = some str.addr
  · rw [reset_of_eq h, h]
  · rw [reset, if_pos h]

theorem getopt_reset (argv : List Bytes) (str : OptString) (s : Statics) :
    getopt argv str (reset str s) = getopt argv str s := by
  rw [getopt, getopt, reset_of_eq (reset_string str s)]

/-- **A call** gives the first option to come, and keeps where `optind` will be. -/
theorem getopt_feeds (argv : List Bytes) (h : s.s_optstring = some str.addr) :
    ∃ r s', Feeds (getopt argv str) (fun r => r.ret = -1) (pending argv str.text) (Gives argv) s r s' ∧
      s'.s_optstring = some str.addr ∧
      lastIndex argv str.text s' = lastIndex argv str.text s := by
  obtain ⟨r, s', hr, ha⟩ := loop_advances_group (o := str.text) (s := s)
    (show argv.length - s.index + 1 < argv.length + 2 by omega)
  refine ⟨r, s', ⟨?_, ha.nil, ha.cons⟩, ha.string_eq.trans h, ha.last_eq⟩
  rw [getopt, reset_of_eq h, hr]

theorem indexAfter_of_unknown (h : ∀ r ∈ rs, r.known = false) :
    indexAfter optind index rs = optind := by
  induction rs generalizing optind index with
  | nil => rfl
  | cons r rs ih =>
      rw [indexAfter, h r List.mem_cons_self, cond_false]
      exact ih fun r hr => h r (List.mem_cons_of_mem _ hr)

/-- An option moves `optind` behind it. -/
theorem lt_indexAfter {r : Role} (optind index : Nat) (hr : r ∈ rs) (hk : r.known = true) :
    index < indexAfter optind index rs := by
  induction rs generalizing r optind index with
  | nil => contradiction
  | cons r' rs ih =>
      rw [indexAfter]
      by_cases hrest : ∃ r ∈ rs, r.known = true
      · obtain ⟨r₁, hr₁, hk₁⟩ := hrest
        have hlt := ih (bif r'.known then index + 1 + r'.takes.toNat else optind) (index + 1) hr₁ hk₁
        omega
      · have hnone : ∀ r ∈ rs, r.known = false := by simpa using hrest
        obtain rfl | hr := List.mem_cons.mp hr
        · rw [indexAfter_of_unknown hnone, hk, cond_true]
          omega
        · rw [hnone r hr] at hk
          contradiction

/-- With nothing to come, `optind` is where it will be. -/
theorem lastIndex_of_nil (h : pending argv o s = []) : lastIndex argv o s = s.optind := by
  obtain ⟨hitems, hafter⟩ := List.append_eq_nil_iff.mp h
  have hnone : ∀ r ∈ after argv o s, r.known = false := by
    intro r hr
    simp [Role.known, List.flatMap_eq_nil_iff.mp hafter r hr]
  rw [lastIndex, hitems, indexAfter_of_unknown hnone]
  rfl

/-- **Operands** are from `optind` on exactly if no option comes behind one. -/
theorem operands_iff (takes : Bool) (ho : optind ≤ index + takes.toNat) :
    (∀ i, (roles o takes args)[i]? = some .operand →
      indexAfter optind index (roles o takes args) ≤ index + i) ↔
    (roles o takes args).Pairwise fun a b => a = .operand → b.known = false := by
  induction args generalizing takes optind index with
  | nil => simp [roles]
  | cons a args ih =>
      -- what comes first is no operand, or bounds `optind` for the others
      have hcons : ∀ (r : Role) (rs : List Role), (∀ i, (r :: rs)[i]? = some .operand →
          indexAfter optind index (r :: rs) ≤ index + i) ↔
          (r = .operand → indexAfter optind index (r :: rs) ≤ index) ∧
          ∀ i, rs[i]? = some .operand → indexAfter optind index (r :: rs) ≤ index + 1 + i := by
        intro r rs
        constructor
        · intro h
          exact ⟨fun hr => h 0 (by simp [hr]), fun i hi => Nat.le_trans (h (i + 1) hi) (by omega)⟩
        · intro h i hi
          cases i with
          | zero => exact h.1 (by simpa using hi)
          | succ i => exact Nat.le_trans (h.2 i hi) (by omega)
      cases takes with
      | true =>
          have hrest := @ih (index + 1) optind false ho
          rw [roles, hcons, List.pairwise_cons, ← hrest]
          simp [indexAfter, Role.known, Role.items]
      | false =>
          cases hgroup : isGroup a with
          | true =>
              generalize hg : groupOf o args.head? a.tail = g
              have hbound : (bif g.items.any Item.known then index + 1 + g.takes.toNat else optind) ≤
                  index + 1 + g.takes.toNat := by
                cases g.items.any Item.known <;> simp only [cond_true, cond_false]
                · simp only [Bool.toNat_false] at ho
                  omega
                · exact Nat.le_refl _
              have hrest := ih _ hbound
              rw [roles_cons a args hgroup, hg, hcons, List.pairwise_cons, ← hrest]
              simp [indexAfter, Role.known, Role.items, Role.takes]
          | false =>
              have hrest := @ih (index + 1) optind false (Nat.le_succ_of_le ho)
              have hfirst : indexAfter optind (index + 1) (roles o false args) ≤ index ↔
                  ∀ r ∈ roles o false args, r.known = false := by
                constructor
                · intro hle r hr
                  by_contra hk
                  have hlt := lt_indexAfter optind (index + 1) hr (by simpa using hk)
                  omega
                · intro hnone
                  rw [indexAfter_of_unknown hnone]
                  exact ho
              have hindex : indexAfter optind index (.operand :: roles o false args) =
                  indexAfter optind (index + 1) (roles o false args) := rfl
              rw [roles_operand a args hgroup, hcons, List.pairwise_cons, ← hrest, hindex, hfirst]
              simp

/-! ## the first call -/

theorem charInt_eq_neg_one {c : UInt8} (h : charInt c = -1) : c = 255 := by
  have hlt := c.toNat_lt
  unfold charInt at h
  split at h
  · omega
  · exact UInt8.toNat_inj.mp (show c.toNat = 255 by omega)

theorem ret_eq_neg_one {i : Item} (h : i.ret = -1) : ∃ v, i = .option 255 v := by
  cases i with
  | option c v => exact ⟨v, by rw [charInt_eq_neg_one h]⟩
  | missing c => contradiction
  | unknown c => contradiction

variable (h : s.s_optstring ≠ some str.addr)

include h

theorem pending_reset (argv : List Bytes) :
    pending argv str.text (reset str s) = itemsOf argv str.text ∧
    lastIndex argv str.text (reset str s) = indexAfter 1 1 (rolesOf argv str.text) := by
  have hreset : reset str s = ⟨some str.addr, none, 1, none, 1⟩ := if_pos h
  rw [hreset, pending_exhausted rfl, lastIndex_exhausted rfl]
  simp [itemsOf, rolesOf]

/-- **The calls** give all options if none of them looks like the end. -/
theorem exists_drained (hno : ∀ v, Item.option 255 v ∉ itemsOf argv str.text) :
    ∃ rs s', Drained (getopt argv str) (fun r => r.ret = -1) s rs s' ∧
      List.Forall₂ (Gives argv) rs (itemsOf argv str.text) ∧
      s'.optind = indexAfter 1 1 (rolesOf argv str.text) := by
  obtain ⟨hpending, hlast⟩ := pending_reset h argv
  have hgo : ∀ i ∈ pending argv str.text (reset str s), ∀ r, Gives argv r i → ¬r.ret = -1 := by
    intro i hi r hr hret
    obtain ⟨v, rfl⟩ := ret_eq_neg_one (hr.1 ▸ hret)
    exact hno v (hpending ▸ hi)
  obtain ⟨rs, s', hd, hall, hnil, -, hs'⟩ := drained_of_feeds
    (J := fun t => t.s_optstring = some str.addr ∧
      lastIndex argv str.text t = lastIndex argv str.text (reset str s))
    (fun t ht => by
      obtain ⟨r, t', hf, hstring, hkeep⟩ := getopt_feeds argv ht.1
      exact ⟨r, t', hf, hstring, hkeep.trans ht.2⟩)
    ⟨reset_string str s, rfl⟩ hgo
  exact ⟨rs, s', (Drained.congr (getopt_reset argv str s)).mp hd, hpending ▸ hall,
    (lastIndex_of_nil hnil).symm.trans (hs'.trans hlast)⟩

/-- An option that looks like the end is not given. -/
theorem not_mem_of_parsed (hp : Parsed argv str s) (v : Option Bytes) :
    Item.option 255 v ∉ itemsOf argv str.text := by
  intro hmem
  obtain ⟨rs, s', hd, hall, -⟩ := hp
  obtain ⟨hpending, -⟩ := pending_reset h argv
  have hend : ∀ r, Gives argv r (.option 255 v) → r.ret = -1 := fun r hr => hr.1
  have hlt := Drained.length_lt (J := fun t => t.s_optstring = some str.addr)
    (fun t ht => by
      obtain ⟨r, t', hf, hstring, -⟩ := getopt_feeds argv ht
      exact ⟨r, t', hf, hstring⟩)
    (reset_string str s) (hpending ▸ hmem) hend
    ((Drained.congr (getopt_reset argv str s)).mpr hd)
  rw [hpending, hall.length_eq] at hlt
  exact Nat.lt_irrefl _ hlt

theorem parsed_of (hno : ∀ v, Item.option 255 v ∉ itemsOf argv str.text)
    (hlast : OperandsLast argv str.text) : Parsed argv str s := by
  obtain ⟨rs, s', hd, hall, hind⟩ := exists_drained h hno
  refine ⟨rs, s', hd, hall, fun i hi => ?_⟩
  rw [hind, Nat.add_comm]
  exact (operands_iff false (Nat.le_refl 1)).mpr hlast i hi

theorem operandsLast_of_parsed (hp : Parsed argv str s) : OperandsLast argv str.text := by
  obtain ⟨rs, s', hd, -, hind⟩ := exists_drained h (not_mem_of_parsed h hp)
  obtain ⟨rs', s'', hd', -, hops⟩ := hp
  obtain ⟨-, rfl⟩ := hd.unique hd'
  refine (operands_iff false (Nat.le_refl 1)).mp fun i hi => ?_
  rw [← rolesOf, ← hind, Nat.add_comm]
  exact hops i hi

end

end

/-- **The options are parsed** exactly if none looks like the end of the
calls and no operand stands before one. -/
theorem options_parsed_iff (argv : List Bytes) (str : OptString) (s : Statics)
    (h : s.s_optstring ≠ some str.addr) :
    Parsed argv str s ↔
      (∀ v, Item.option 255 v ∉ itemsOf argv str.text) ∧ OperandsLast argv str.text :=
  ⟨fun hp => ⟨not_mem_of_parsed h hp, operandsLast_of_parsed h hp⟩, fun hc => parsed_of h hc.1 hc.2⟩

/-- The variables before any call. -/
def statics : Statics := { s_optstring := none, optarg := none, optind := 0, arg := none, index := 0 }

/-- `hr`, of the shell. -/
def shell : OptString := ⟨1, ascii "hr"⟩

/-- Options before the operand. -/
theorem options_parsed_iff_shell :
    Parsed (["sh", "-r", "f"].map ascii) shell statics ↔
      (∀ v, Item.option 255 v ∉ itemsOf (["sh", "-r", "f"].map ascii) shell.text) ∧
        OperandsLast (["sh", "-r", "f"].map ascii) shell.text :=
  options_parsed_iff _ _ _ (by decide)

/-- **An operand before an option** is in front of `optind`. -/
theorem not_options_parsed : ¬∀ (argv : List Bytes) (str : OptString) (s : Statics),
    s.s_optstring ≠ some str.addr → Parsed argv str s := by
  intro h
  have hlast := operandsLast_of_parsed (by decide)
    (h (["sh", "f", "-r"].map ascii) shell statics (by decide))
  exact absurd hlast (by unfold OperandsLast; decide +kernel)

end Getopt

end Eclair
