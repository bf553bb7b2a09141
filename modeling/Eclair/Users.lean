import Mathlib.Data.List.Nodup
import Eclair.Basic
import Eclair.Lib.Digits

/-!
# Eclair.Users

The user database (`kernel/users.c`): the parser of `/etc/groups` and
`/etc/users`, and the tables that it fills.

A text is its characters up to the NUL, and a text pointer may be null.
`kmalloc` has a block for each record, and a record stands for the pointer to
it.
-/

namespace Eclair

namespace Users

open Digits

/-! ## the database -/

def MAX_USERS : Int := 1024

def MAX_GROUPS : Int := 1024

def USER_NAMESZ : Nat := 32

/-- `user_t`, without the link. -/
structure User where
  uid : Int
  gid : Int
  name : Bytes
  pswd : Nat
  deriving DecidableEq

/-- `group_t`, without the link. -/
structure Group where
  id : Int
  name : Bytes
  deriving DecidableEq

/-- The tables `users` and `groups`, and the lists that begin at `ufirst` and `gfirst`. -/
structure Db where
  users : Nat → Option User
  ulist : List User
  groups : Nat → Option Group
  glist : List Group

/-- `elem1`, `elem2` and `elem3`. -/
structure Elems where
  elem1 : Bytes
  elem2 : Bytes
  elem3 : Bytes

/-- The ways a run does not get to its end: `kpanic`, and a copy behind the end of a buffer. -/
inductive Fault where
  | panic (message : String)
  | overrun
  | fuel
  deriving DecidableEq

/-- `user_register`. -/
def userRegister (db : Db) (uid gid : Int) (name : Bytes) (pswd : Nat) :
    Except Fault (Db × Option User) :=
  if uid < 0 ∨ MAX_USERS ≤ uid ∨ gid < 0 ∨ MAX_GROUPS ≤ gid ∨ (db.users uid.toNat).isSome ∨
      (db.groups gid.toNat).isNone then .ok (db, none)
  else if USER_NAMESZ ≤ name.length then .error .overrun
  else
    let user : User := ⟨uid, gid, name, pswd⟩
    .ok ({ db with
      users := fun i => if i = uid.toNat then some user else db.users i
      ulist := db.ulist ++ [user] }, some user)

/-- `user_register_group`. -/
def userRegisterGroup (db : Db) (gid : Int) (name : Bytes) : Except Fault (Db × Option Group) :=
  if gid < 0 ∨ MAX_GROUPS ≤ gid ∨ (db.groups gid.toNat).isSome then .ok (db, none)
  else if USER_NAMESZ ≤ name.length then .error .overrun
  else
    let group : Group := ⟨gid, name⟩
    .ok ({ db with
      groups := fun i => if i = gid.toNat then some group else db.groups i
      glist := db.glist ++ [group] }, some group)

/-! ## elements -/

/-- `(int)` of 32 bits. -/
def signed (n : Nat) : Int := if n < 2 ^ 31 then n else n - 2 ^ 32

/-- `to_int`. -/
def toInt (s : Bytes) : Int :=
  signed (s.foldl (fun (i : Nat) (c : UInt8) =>
    if 48 ≤ c ∧ c ≤ 57 then u32 (i * 10 + (c.toNat - 48)) else i) 0)

/-- `to_hex`. -/
def toHex (s : Bytes) : Nat :=
  s.foldl (fun (x : Nat) (c : UInt8) =>
    if 48 ≤ c ∧ c ≤ 57 then u32 (x <<< 4) ||| (c.toNat - 48)
    else if 97 ≤ c ∧ c ≤ 102 then u32 (x <<< 4) ||| (c.toNat - 97 + 10)
    else if 65 ≤ c ∧ c ≤ 70 then u32 (x <<< 4) ||| (c.toNat - 65 + 10)
    else x) 0

/-- `strchrs`: the rest of the string from the character on. -/
def strchrs : Bytes → Bytes → Option Bytes
  | [], _ => none
  | c :: str, chrs => if c ∈ chrs then some (c :: str) else strchrs str chrs

/-- `strncpy`. -/
def strncpy (dst src : Bytes) (cnt : Nat) : Except Fault Bytes :=
  let s := (src.take cnt).takeWhile (· ≠ 0)
  if s.length < dst.length then .ok (s ++ 0 :: dst.drop (s.length + 1)) else .error .overrun

/-- The string in a buffer. -/
def cstr (buf : Bytes) : Bytes := buf.takeWhile (· ≠ 0)

/-- `read_elem`: the text behind the element, and the buffer. -/
def readElem (text : Option Bytes) (elem : Bytes) : Except Fault (Option Bytes × Bytes) :=
  match text with
  | none => .error (.panic "Invalid user/database: Expected element")
  | some text =>
      let stop := strchrs text [58, 10]
      let len := match stop with
        | some stop => text.length - stop.length
        | none => text.length
      let stop := match stop with
        | some (58 :: stop) => some stop
        | stop => stop
      (strncpy elem text len).map fun elem => (stop, elem)

/-! ## `parse_text` -/

inductive Kind where
  | users | groups
  deriving DecidableEq

/-- One user. -/
def parseUser (db : Db) (elems : Elems) (text : Bytes) :
    Except Fault (Option Bytes × Elems × Db) := do
  let (text, elem1) ← readElem (some text) elems.elem1
  let uid := toInt (cstr elem1)
  let (text, elem1) ← readElem text elem1
  let (text, elem2) ← readElem text elems.elem2
  let (text, elem3) ← readElem text elems.elem3
  let pswd := toHex (cstr elem3)
  match db.glist.find? fun cur => cur.name = cstr elem2 with
  | none => .error (.panic "Invalid user database: Unknown group")
  | some cur => do
      let (db, _) ← userRegister db uid cur.id (cstr elem1) pswd
      return (text, ⟨elem1, elem2, elem3⟩, db)

/-- One group. -/
def parseGroup (db : Db) (elems : Elems) (text : Bytes) :
    Except Fault (Option Bytes × Elems × Db) := do
  let (text, elem1) ← readElem (some text) elems.elem1
  let gid := toInt (cstr elem1)
  let (text, elem1) ← readElem text elem1
  let (db, _) ← userRegisterGroup db gid (cstr elem1)
  return (text, { elems with elem1 := elem1 }, db)

/-- One record. -/
def parseRecord : Kind → Db → Elems → Bytes → Except Fault (Option Bytes × Elems × Db)
  | .users => parseUser
  | .groups => parseGroup

/-- The newline behind a record, unless the text has ended. -/
def readNewline : Option Bytes → Except Fault (Option Bytes)
  | none => .ok none
  | some (10 :: text) => .ok (some text)
  | some _ => .error (.panic "Invalid user/group database: Empty line")

/-- The loop of `parse_text`. -/
def parseLoop (kind : Kind) : Nat → Db → Elems → Option Bytes → Except Fault (Db × Elems)
  | _, db, elems, none => .ok (db, elems)
  | _, db, elems, some [] => .ok (db, elems)
  | 0, _, _, some (_ :: _) => .error .fuel
  | k + 1, db, elems, some (c :: text) => do
      let (text, elems, db) ← parseRecord kind db elems (c :: text)
      let text ← readNewline text
      parseLoop kind k db elems text

/-- `parse_text`: a record has at least one character. -/
def parseText (kind : Kind) (text : Bytes) (s : Db × Elems) : Except Fault (Db × Elems) :=
  parseLoop kind text.length s.1 s.2 (some text)

/-- The end of `user_init`. -/
def parseFiles (groupsText usersText : Bytes) (s : Db × Elems) : Except Fault (Db × Elems) :=
  (parseText .groups groupsText s).bind (parseText .users usersText)

/-! ## the texts -/

/-- A name that fits in its field, and has no separator. -/
structure Named (name : Bytes) : Prop where
  pos : 0 < name.length
  fits : name.length < 32
  plain : 58 ∉ name ∧ 10 ∉ name ∧ 0 ∉ name

structure GroupRec where
  id : Nat
  name : Bytes
  id_lt : id < 1024
  named : Named name

structure UserRec where
  id : Nat
  name : Bytes
  group : GroupRec
  pswd : Nat
  id_lt : id < 1024
  named : Named name
  pswd_lt : pswd < 2 ^ 32

/-- A list of groups and a list of users in these groups. -/
structure Listing where
  groups : List GroupRec
  users : List UserRec
  gids : (groups.map GroupRec.id).Nodup
  uids : (users.map UserRec.id).Nodup
  listed : ∀ u ∈ users, u.group ∈ groups

def GroupRec.line (g : GroupRec) : Bytes := numeral 10 false g.id ++ 58 :: g.name

def UserRec.line (u : UserRec) : Bytes :=
  numeral 10 false u.id ++ 58 :: (u.name ++ 58 :: (u.group.name ++ 58 :: numeral 16 false u.pswd))

/-- One record per line, with or without a newline at the end. -/
def render (final : Bool) : List Bytes → Bytes
  | [] => []
  | [line] => line ++ if final then [10] else []
  | line :: next :: lines => line ++ 10 :: render final (next :: lines)

/-! ## what is registered -/

def GroupRec.entry (g : GroupRec) : Group := ⟨g.id, g.name⟩

/-- A user in some group. -/
def UserRec.entry (group : UserRec → GroupRec) (u : UserRec) : User :=
  ⟨u.id, (group u).id, u.name, u.pswd⟩

/-- The first listed group with the name of the user's group. -/
def Listing.firstGroup (l : Listing) (u : UserRec) : GroupRec :=
  (l.groups.find? fun g => g.name = u.group.name).getD u.group

/-- Exactly these groups are registered, in this order. -/
structure HasGroups (gs : List GroupRec) (db : Db) : Prop where
  list : db.glist = gs.map GroupRec.entry
  table : ∀ i, db.groups i = (gs.find? fun g => g.id = i).map GroupRec.entry

/-- Exactly these users are registered, in this order and these groups. -/
structure HasUsers (group : UserRec → GroupRec) (us : List UserRec) (db : Db) : Prop where
  list : db.ulist = us.map (UserRec.entry group)
  table : ∀ i, db.users i = (us.find? fun u => u.id = i).map (UserRec.entry group)

/-- The tables at the start. -/
def Db.empty : Db := ⟨fun _ => none, [], fun _ => none, []⟩

/-- The buffers have their size. -/
structure Elems.Ok (elems : Elems) : Prop where
  size1 : elems.elem1.length = 32
  size2 : elems.elem2.length = 32
  size3 : elems.elem3.length = 32

/-- The texts of a listing are parsed to exactly its groups, and its users in these groups. -/
def RoundTrips (l : Listing) (group : UserRec → GroupRec) : Prop :=
  ∀ gfinal ufinal (elems : Elems), elems.Ok →
    ∃ s, parseFiles (render gfinal (l.groups.map GroupRec.line))
        (render ufinal (l.users.map UserRec.line)) (.empty, elems) = .ok s ∧
      HasGroups l.groups s.1 ∧ HasUsers group l.users s.1

variable {s t elem : Bytes} {db : Db} {elems : Elems} {g : GroupRec} {u : UserRec} {l : Listing}
variable {gs : List GroupRec} {us : List UserRec} {group : UserRec → GroupRec} {v : Nat}

/-! ## elements -/

/-- A string without separators that fits in a buffer. -/
structure IsElem (s : Bytes) : Prop where
  fits : s.length < 32
  plain : 58 ∉ s ∧ 10 ∉ s ∧ 0 ∉ s

/-- The text behind an element: a colon is taken. -/
def behind : Bytes → Option Bytes
  | [] => none
  | 58 :: t => some t
  | t => some t

/-- A text that ends, or goes on with a separator. -/
def Ends (t : Bytes) : Prop := t = [] ∨ (∃ t', t = 58 :: t') ∨ ∃ t', t = 10 :: t'

theorem strchrs_append (hs : 58 ∉ s ∧ 10 ∉ s) (ht : Ends t) :
    strchrs (s ++ t) [58, 10] = if t = [] then none else some t := by
  induction s with
  | nil =>
      obtain rfl | ⟨t, rfl⟩ | ⟨t, rfl⟩ := ht
      · rfl
      · simp [strchrs]
      · simp [strchrs]
  | cons c s ih =>
      obtain ⟨h58, h10⟩ := hs
      have hc : c ∉ ([58, 10] : Bytes) := by
        rintro hmem
        obtain rfl | rfl : c = 58 ∨ c = 10 := by simpa using hmem
        · exact h58 List.mem_cons_self
        · exact h10 List.mem_cons_self
      rw [List.cons_append, strchrs, if_neg hc]
      exact ih ⟨fun h => h58 (List.mem_cons_of_mem _ h), fun h => h10 (List.mem_cons_of_mem _ h)⟩

/-- A buffer with a string in it. -/
def put (s elem : Bytes) : Bytes := s ++ 0 :: elem.drop (s.length + 1)

theorem takeWhile_of_not_mem (h : 0 ∉ s) (t : Bytes) :
    (s ++ t).takeWhile (· ≠ 0) = s ++ t.takeWhile (· ≠ 0) :=
  List.takeWhile_append_of_pos fun a ha => by
    have hne : a ≠ 0 := fun h0 => h (h0 ▸ ha)
    simpa using hne

theorem cstr_put (hs : IsElem s) : cstr (put s elem) = s := by
  rw [cstr, put, takeWhile_of_not_mem hs.plain.2.2]
  simp

theorem length_put (hs : IsElem s) (he : elem.length = 32) : (put s elem).length = 32 := by
  have hfits := hs.fits
  simp [put]
  omega

/-- **An element is read** into its buffer. -/
theorem readElem_append (hs : IsElem s) (he : elem.length = 32) (ht : Ends t) :
    readElem (some (s ++ t)) elem = .ok (behind t, put s elem) := by
  have hcopy : strncpy elem (s ++ t) s.length = .ok (put s elem) := by
    have htake : ((s ++ t).take s.length).takeWhile (· ≠ 0) = s := by
      rw [List.take_left]
      simpa using takeWhile_of_not_mem hs.plain.2.2 []
    rw [strncpy, htake]
    exact if_pos (he ▸ hs.fits)
  rw [readElem, strchrs_append ⟨hs.plain.1, hs.plain.2.1⟩ ht]
  obtain rfl | ⟨t, rfl⟩ | ⟨t, rfl⟩ := ht
  · rw [if_pos rfl]
    dsimp only
    rw [List.append_nil] at hcopy ⊢
    rw [hcopy]
    rfl
  · have hsub : (s ++ 58 :: t).length - (58 :: t).length = s.length := by simp
    rw [if_neg (by simp)]
    dsimp only
    rw [hsub, hcopy]
    rfl
  · have hsub : (s ++ 10 :: t).length - (10 :: t).length = s.length := by simp
    rw [if_neg (by simp)]
    dsimp only
    rw [hsub, hcopy]
    rfl

theorem isElem_numeral {base k : Nat} (h1 : 1 < base) (h16 : base ≤ 16) (hk : 0 < k ∧ k < 32)
    (hv : v < base ^ k) : IsElem (numeral base false v) := by
  have hall : ∀ d < 16, digit false d ≠ 58 ∧ digit false d ≠ 10 ∧ digit false d ≠ 0 := by decide
  have hdigit (d : Nat) (hd : d < base) := hall d (Nat.lt_of_lt_of_le hd h16)
  exact ⟨Nat.lt_of_le_of_lt (length_numeral_le h1 hk.1 hv) hk.2,
    not_mem_numeral h1 fun d hd => (hdigit d hd).1,
    not_mem_numeral h1 fun d hd => (hdigit d hd).2.1, not_mem_numeral h1 fun d hd => (hdigit d hd).2.2⟩

theorem isElem_id (h : v < 1024) : IsElem (numeral 10 false v) :=
  isElem_numeral (k := 4) (by decide) (by decide) (by decide) (by omega)

theorem isElem_pswd (h : v < 2 ^ 32) : IsElem (numeral 16 false v) :=
  isElem_numeral (k := 8) (by decide) (by decide) (by decide) (by omega)

theorem Named.isElem (h : Named s) : IsElem s := ⟨h.fits, h.plain⟩

/-- **`to_int`** of a number. -/
theorem toInt_numeral (h : v < 2 ^ 31) : toInt (numeral 10 false v) = v := by
  have hdigit : ∀ d < 10, 48 ≤ digit false d ∧ digit false d ≤ 57 ∧
      (digit false d).toNat - 48 = d := by decide
  rw [toInt, foldl_numeral (by decide) fun n d hd hn => ?_, signed, if_pos h]
  obtain ⟨hlo, hhi, hval⟩ := hdigit d hd
  rw [if_pos ⟨hlo, hhi⟩, hval, u32_of_lt (by omega)]

/-- **`to_hex`** of a number. -/
theorem toHex_numeral (h : v < 2 ^ 32) : toHex (numeral 16 false v) = v := by
  have hdigit : ∀ d < 16, let c := digit false d
      (48 ≤ c ∧ c ≤ 57 ∧ c.toNat - 48 = d) ∨
        (¬(48 ≤ c ∧ c ≤ 57) ∧ 97 ≤ c ∧ c ≤ 102 ∧ c.toNat - 97 + 10 = d) := by decide
  rw [toHex, foldl_numeral (by decide) fun n d hd hn => ?_]
  have hshift : u32 (n <<< 4) ||| d = n * 16 + d := by
    rw [u32_of_lt (by rw [Nat.shiftLeft_eq]; omega), ← Nat.shiftLeft_add_eq_or_of_lt hd,
      Nat.shiftLeft_eq]
  obtain ⟨hlo, hhi, hval⟩ | ⟨hno, hlo, hhi, hval⟩ := hdigit d hd
  · rw [if_pos ⟨hlo, hhi⟩, hval, hshift]
  · rw [if_neg hno, if_pos ⟨hlo, hhi⟩, hval, hshift]

/-! ## one record -/

/-- The text behind a record: it ends, or goes on with a newline. -/
def LineEnds (t : Bytes) : Prop := t = [] ∨ ∃ t', t = 10 :: t'

theorem LineEnds.ends (h : LineEnds t) : Ends t := h.imp_right .inr

theorem ends_colon (t : Bytes) : Ends (58 :: t) := .inr (.inl ⟨t, rfl⟩)

/-- A table gets an entry behind those of a list. -/
theorem table_snoc {α β : Type} {key : α → Nat} {entry : α → β} {xs : List α} {x : α}
    {table : Nat → Option β} (h : ∀ i, table i = (xs.find? fun y => key y = i).map entry)
    (hnew : ∀ y ∈ xs, key y ≠ key x) (i : Nat) :
    (if i = key x then some (entry x) else table i) =
      ((xs ++ [x]).find? fun y => key y = i).map entry := by
  rw [List.find?_append]
  by_cases hi : i = key x
  · subst hi
    have hnone : (xs.find? fun y => key y = key x) = none :=
      List.find?_eq_none.mpr (by simpa using hnew)
    simp [hnone]
  · have hne : ¬key x = i := fun h => hi h.symm
    simp [hi, hne, h]

/-- A group is registered. -/
theorem userRegisterGroup_ok (h : HasGroups gs db) (hnew : ∀ g' ∈ gs, g'.id ≠ g.id) :
    ∃ db', userRegisterGroup db g.id g.name = .ok (db', some g.entry) ∧ HasGroups (gs ++ [g]) db' ∧
      db'.users = db.users ∧ db'.ulist = db.ulist := by
  have hlt := g.id_lt
  have hfits : ¬USER_NAMESZ ≤ g.name.length := Nat.not_le.mpr g.named.fits
  have hfree : db.groups g.id = none := by
    rw [h.table, List.find?_eq_none.mpr (by simpa using hnew)]
    rfl
  rw [userRegisterGroup, if_neg (by simp [MAX_GROUPS, hfree]; omega), if_neg hfits]
  exact ⟨_, rfl, ⟨by simp [h.list, GroupRec.entry], table_snoc h.table hnew⟩, rfl, rfl⟩

/-- A user is registered. -/
theorem userRegister_ok (h : HasUsers group us db) (hnew : ∀ u' ∈ us, u'.id ≠ u.id)
    (hgroup : (db.groups (group u).id).isSome) :
    ∃ db', userRegister db u.id (group u).id u.name u.pswd = .ok (db', some (u.entry group)) ∧
      HasUsers group (us ++ [u]) db' ∧ db'.groups = db.groups ∧ db'.glist = db.glist := by
  have hlt := u.id_lt
  have hglt := (group u).id_lt
  have hfits : ¬USER_NAMESZ ≤ u.name.length := Nat.not_le.mpr u.named.fits
  have hfree : db.users u.id = none := by
    rw [h.table, List.find?_eq_none.mpr (by simpa using hnew)]
    rfl
  have hvalid : ¬((u.id : Int) < 0 ∨ MAX_USERS ≤ u.id ∨ ((group u).id : Int) < 0 ∨
      MAX_GROUPS ≤ (group u).id ∨ (db.users (u.id : Int).toNat).isSome ∨
        (db.groups ((group u).id : Int).toNat).isNone) := by
    simp [MAX_GROUPS, MAX_USERS, hfree, Option.isSome_iff_ne_none.mp hgroup]
    omega
  rw [userRegister, if_neg hvalid, if_neg hfits]
  exact ⟨_, rfl, ⟨by simp [h.list, UserRec.entry], table_snoc h.table hnew⟩, rfl, rfl⟩

/-- **One group** is parsed and registered. -/
theorem parseGroup_line (he : elems.Ok) (h : HasGroups gs db) (hnew : ∀ g' ∈ gs, g'.id ≠ g.id)
    (ht : LineEnds t) :
    ∃ elems' db', parseGroup db elems (g.line ++ t) = .ok (behind t, elems', db') ∧ elems'.Ok ∧
      HasGroups (gs ++ [g]) db' ∧ db'.users = db.users ∧ db'.ulist = db.ulist := by
  obtain ⟨db', hreg, hgroups, hframe⟩ := userRegisterGroup_ok h hnew
  have hid := isElem_id g.id_lt
  have hput := length_put hid he.size1
  have hline : g.line ++ t = numeral 10 false g.id ++ 58 :: (g.name ++ t) := by simp [GroupRec.line]
  have hfirst : readElem (some (g.line ++ t)) elems.elem1 =
      .ok (some (g.name ++ t), put (numeral 10 false g.id) elems.elem1) := by
    rw [hline, readElem_append hid he.size1 (ends_colon _)]
    rfl
  have hsecond := readElem_append g.named.isElem hput ht.ends
  refine ⟨{ elems with elem1 := put g.name (put (numeral 10 false g.id) elems.elem1) }, db', ?_,
    ⟨length_put g.named.isElem hput, he.size2, he.size3⟩, hgroups, hframe⟩
  simp only [parseGroup, hfirst, hsecond, bind, Except.bind, pure, Except.pure]
  rw [cstr_put hid, toInt_numeral (Nat.lt_trans g.id_lt (by decide)), cstr_put g.named.isElem, hreg]

/-- The group of a user is found by its name. -/
theorem find_group (hlist : db.glist = gs.map GroupRec.entry) {g : GroupRec}
    (hg : (gs.find? fun g => g.name = s) = some g) :
    (db.glist.find? fun cur => cur.name = s) = some g.entry := by
  rw [hlist, List.find?_map]
  exact congrArg (Option.map GroupRec.entry) hg

/-- **One user** is parsed and registered. -/
theorem parseUser_line (he : elems.Ok) (hg : HasGroups gs db) (h : HasUsers group us db)
    (hnew : ∀ u' ∈ us, u'.id ≠ u.id)
    (hfind : (gs.find? fun g => g.name = u.group.name) = some (group u)) (ht : LineEnds t) :
    ∃ elems' db', parseUser db elems (u.line ++ t) = .ok (behind t, elems', db') ∧ elems'.Ok ∧
      HasUsers group (us ++ [u]) db' ∧ db'.groups = db.groups ∧ db'.glist = db.glist := by
  have hmem := List.mem_of_find?_eq_some hfind
  obtain ⟨db', hreg, husers, hframe⟩ := userRegister_ok h hnew (by
    rw [hg.table, Option.isSome_map, List.find?_isSome]
    exact ⟨group u, hmem, by simp⟩)
  have hid := isElem_id u.id_lt
  have hpswd := isElem_pswd u.pswd_lt
  have hput := length_put hid he.size1
  have hline : u.line ++ t = numeral 10 false u.id ++ 58 :: (u.name ++ 58 :: (u.group.name ++
      58 :: (numeral 16 false u.pswd ++ t))) := by simp [UserRec.line]
  have hfirst : readElem (some (u.line ++ t)) elems.elem1 = .ok (some (u.name ++ 58 ::
      (u.group.name ++ 58 :: (numeral 16 false u.pswd ++ t))),
      put (numeral 10 false u.id) elems.elem1) := by
    rw [hline, readElem_append hid he.size1 (ends_colon _)]
    rfl
  have hsecond := readElem_append u.named.isElem hput
    (ends_colon (u.group.name ++ 58 :: (numeral 16 false u.pswd ++ t)))
  have hthird := readElem_append u.group.named.isElem he.size2
    (ends_colon (numeral 16 false u.pswd ++ t))
  have hfourth := readElem_append hpswd he.size3 ht.ends
  refine ⟨⟨put u.name (put (numeral 10 false u.id) elems.elem1), put u.group.name elems.elem2,
    put (numeral 16 false u.pswd) elems.elem3⟩, db', ?_,
    ⟨length_put u.named.isElem hput, length_put u.group.named.isElem he.size2,
      length_put hpswd he.size3⟩, husers, hframe⟩
  simp only [parseUser, hfirst, hsecond, behind, hthird, hfourth, bind, Except.bind, pure, Except.pure]
  rw [cstr_put hid, toInt_numeral (Nat.lt_trans u.id_lt (by decide)), cstr_put u.group.named.isElem,
    cstr_put u.named.isElem, cstr_put hpswd, toHex_numeral u.pswd_lt, find_group hg.list hfind]
  simp only [GroupRec.entry, hreg]

/-! ## a whole text -/

theorem parseLoop_end (kind : Kind) (k : Nat) (db : Db) (elems : Elems) :
    parseLoop kind k db elems (some []) = .ok (db, elems) ∧
      parseLoop kind k db elems none = .ok (db, elems) := by
  cases k <;> exact ⟨rfl, rfl⟩

/-- The text behind the first line, and where the loop goes on. -/
theorem render_cons (final : Bool) (line : Bytes) (lines : List Bytes) :
    ∃ t next, render final (line :: lines) = line ++ t ∧ LineEnds t ∧
      readNewline (behind t) = .ok next ∧ ∀ kind k db elems,
        parseLoop kind k db elems next = parseLoop kind k db elems (some (render final lines)) := by
  cases lines with
  | nil =>
      cases final with
      | true => exact ⟨[10], some [], rfl, .inr ⟨[], rfl⟩, rfl, fun _ _ _ _ => rfl⟩
      | false =>
          refine ⟨[], none, rfl, .inl rfl, rfl, fun kind k db elems => ?_⟩
          have hend := parseLoop_end kind k db elems
          exact hend.2.trans hend.1.symm
  | cons next lines =>
      exact ⟨10 :: render final (next :: lines), some (render final (next :: lines)), rfl,
        .inr ⟨_, rfl⟩, rfl, fun _ _ _ _ => rfl⟩

/-- **A run of `parse_text`** over some records: what one record does is done for each. -/
theorem parseLoop_lines {α : Type} {line : α → Bytes} {kind : Kind} {all : List α}
    (Inv : List α → Db → Elems → Prop) (hne : ∀ x, line x ≠ [])
    (hstep : ∀ xs x rest db elems t, all = xs ++ x :: rest → Inv xs db elems → LineEnds t →
      ∃ elems' db', parseRecord kind db elems (line x ++ t) = .ok (behind t, elems', db') ∧
        Inv (xs ++ [x]) db' elems')
    (final : Bool) (rest xs : List α) (k : Nat) (hall : all = xs ++ rest) (hk : rest.length ≤ k)
    (h : Inv xs db elems) :
    ∃ db' elems', parseLoop kind k db elems (some (render final (rest.map line))) =
      .ok (db', elems') ∧ Inv all db' elems' := by
  induction rest generalizing xs k db elems with
  | nil => exact ⟨db, elems, (parseLoop_end kind k db elems).1, by simpa [hall] using h⟩
  | cons x rest ih =>
      obtain ⟨t, next, hrender, ht, hnewline, hnext⟩ := render_cons final (line x) (rest.map line)
      obtain ⟨elems', db', hparse, hinv⟩ := hstep xs x rest db elems t hall h ht
      obtain ⟨c, text, htext⟩ := List.exists_cons_of_ne_nil
        (show line x ++ t ≠ [] from fun h => hne x (List.append_eq_nil_iff.mp h).1)
      obtain ⟨k, rfl⟩ : ∃ j, k = j + 1 := ⟨k - 1, by simp at hk; omega⟩
      obtain ⟨db'', elems'', hrun, hdone⟩ :=
        ih (xs ++ [x]) k (by simpa using hall) (by simpa using hk) hinv
      refine ⟨db'', elems'', ?_, hdone⟩
      rw [htext] at hparse
      rw [List.map_cons, hrender, htext]
      simp only [parseLoop, hparse, hnewline, hnext, hrun, bind, Except.bind]

theorem length_le_render {α : Type} {line : α → Bytes} (hne : ∀ x, line x ≠ []) (final : Bool)
    (xs : List α) : xs.length ≤ (render final (xs.map line)).length := by
  induction xs with
  | nil => exact Nat.le_refl 0
  | cons x xs ih =>
      have hpos := List.length_pos_iff.mpr (hne x)
      cases xs with
      | nil =>
          simp [render]
          omega
      | cons y xs =>
          simp [render] at ih ⊢
          omega

theorem line_ne_nil (base : Nat) (t : Bytes) : numeral base false v ++ t ≠ [] :=
  fun h => numeral_ne_nil (List.append_eq_nil_iff.mp h).1

/-- An identifier is not one of those in front of it. -/
theorem ne_of_nodup {α : Type} {key : α → Nat} {xs rest : List α} {x : α}
    (h : ((xs ++ x :: rest).map key).Nodup) : ∀ y ∈ xs, key y ≠ key x := by
  intro y hy
  rw [List.map_append, List.nodup_append] at h
  exact h.2.2 (key y) (List.mem_map_of_mem hy) (key x) (by simp)

/-- **The text of the groups** registers them. -/
theorem parseText_groups (l : Listing) (final : Bool) (he : elems.Ok) :
    ∃ db' elems', parseText .groups (render final (l.groups.map GroupRec.line)) (.empty, elems) =
      .ok (db', elems') ∧ elems'.Ok ∧ HasGroups l.groups db' ∧ HasUsers group [] db' := by
  refine parseLoop_lines (fun gs db elems => elems.Ok ∧ HasGroups gs db ∧ HasUsers group [] db)
    (fun g => line_ne_nil 10 _) ?_ final l.groups [] _ rfl
    (length_le_render (fun g => line_ne_nil 10 _) final l.groups)
    ⟨he, ⟨rfl, fun i => rfl⟩, ⟨rfl, fun i => rfl⟩⟩
  rintro gs g rest db elems t hall ⟨he, hg, hu⟩ ht
  obtain ⟨elems', db', hparse, he', hg', hutable, hulist⟩ :=
    parseGroup_line he hg (ne_of_nodup (hall ▸ l.gids)) ht
  exact ⟨elems', db', hparse, he', hg', ⟨hulist.trans hu.list, fun i => by rw [hutable, hu.table]⟩⟩

/-- **The text of the users** registers them, each in the first group with the name of its own. -/
theorem parseText_users (l : Listing) (final : Bool) (he : elems.Ok) (hg : HasGroups l.groups db)
    (hu : HasUsers l.firstGroup [] db) :
    ∃ db' elems', parseText .users (render final (l.users.map UserRec.line)) (db, elems) =
      .ok (db', elems') ∧ elems'.Ok ∧ HasGroups l.groups db' ∧
        HasUsers l.firstGroup l.users db' := by
  refine parseLoop_lines
    (fun us db elems => elems.Ok ∧ HasGroups l.groups db ∧ HasUsers l.firstGroup us db)
    (fun u => line_ne_nil 10 _) ?_ final l.users [] _ rfl
    (length_le_render (fun u => line_ne_nil 10 _) final l.users) ⟨he, hg, hu⟩
  rintro us u rest db elems t hall ⟨he, hg, hu⟩ ht
  have hfind : (l.groups.find? fun g => g.name = u.group.name) = some (l.firstGroup u) := by
    have hlisted := l.listed u (by simp [hall])
    have hsome : (l.groups.find? fun g => g.name = u.group.name).isSome :=
      List.find?_isSome.mpr ⟨u.group, hlisted, by simp⟩
    obtain ⟨g, hg⟩ := Option.isSome_iff_exists.mp hsome
    rw [Listing.firstGroup, hg]
    rfl
  obtain ⟨elems', db', hparse, he', hu', hgtable, hglist⟩ :=
    parseUser_line he hg hu (ne_of_nodup (hall ▸ l.uids)) hfind ht
  exact ⟨elems', db', hparse, he', ⟨hglist.trans hg.list, fun i => by rw [hgtable, hg.table]⟩, hu'⟩

/-- What is registered for each user is the group, if a text is parsed. -/
theorem hasUsers_group {group' : UserRec → GroupRec} (h : HasUsers group us db)
    (h' : HasUsers group' us db) : ∀ u ∈ us, (group u).id = (group' u).id := by
  intro u hu
  have hmap : us.map (UserRec.entry group) = us.map (UserRec.entry group') :=
    h.list.symm.trans h'.list
  have hentry := List.map_inj_left.mp hmap u hu
  exact Int.ofNat.inj (congrArg User.gid hentry)

theorem hasUsers_congr {group' : UserRec → GroupRec} (h : HasUsers group us db)
    (heq : ∀ u ∈ us, (group u).id = (group' u).id) : HasUsers group' us db := by
  have hentry : ∀ u ∈ us, u.entry group = u.entry group' := fun u hu => by
    rw [UserRec.entry, UserRec.entry, heq u hu]
  refine ⟨h.list.trans (List.map_congr_left hentry), fun i => (h.table i).trans ?_⟩
  cases hfind : us.find? fun u => u.id = i with
  | none => rfl
  | some u => exact congrArg some (hentry u (List.mem_of_find?_eq_some hfind))

/-- **The round trip**: the groups and the users are registered exactly, in their order and with their
fields.  A user is in the first listed group with the name of its own, which is its own exactly if no
group in front of it has that name. -/
theorem round_trips (l : Listing) : RoundTrips l l.firstGroup ∧
    (RoundTrips l UserRec.group ↔ ∀ u ∈ l.users, (l.firstGroup u).id = u.group.id) := by
  have hrun : RoundTrips l l.firstGroup := by
    intro gfinal ufinal elems he
    obtain ⟨db, elems', hgroups, he', hg, hu⟩ := parseText_groups l gfinal he
    obtain ⟨db', elems'', husers, -, hg', hu'⟩ := parseText_users l ufinal he' hg hu
    refine ⟨(db', elems''), ?_, hg', hu'⟩
    rw [parseFiles, hgroups]
    exact husers
  refine ⟨hrun, fun h => ?_, fun heq gfinal ufinal elems he => ?_⟩
  · -- both hold of the one database that is parsed
    have he : Elems.Ok ⟨List.replicate 32 0, List.replicate 32 0, List.replicate 32 0⟩ :=
      ⟨rfl, rfl, rfl⟩
    obtain ⟨s, hs, -, hfirst⟩ := hrun true true _ he
    obtain ⟨s', hs', -, hown⟩ := h true true _ he
    obtain rfl := Except.ok.inj (hs.symm.trans hs')
    exact hasUsers_group hfirst hown
  · obtain ⟨s, hs, hg, hu⟩ := hrun gfinal ufinal elems he
    exact ⟨s, hs, hg, hasUsers_congr hu heq⟩

/-- With distinct names each user is in its own group. -/
theorem firstGroup_eq (l : Listing) (hnames : (l.groups.map GroupRec.name).Nodup) (hu : u ∈ l.users) :
    l.firstGroup u = u.group := by
  have hlisted := l.listed u hu
  have hsome : (l.groups.find? fun g => g.name = u.group.name).isSome :=
    List.find?_isSome.mpr ⟨u.group, hlisted, by simp⟩
  obtain ⟨g, hg⟩ := Option.isSome_iff_exists.mp hsome
  have hname : g.name = u.group.name := by simpa using List.find?_some hg
  rw [Listing.firstGroup, hg]
  exact List.inj_on_of_nodup_map hnames (List.mem_of_find?_eq_some hg) hlisted hname

/-- The groups 0 and 1 of one name, and a user in the second. -/
def sameName : Listing where
  groups := [⟨0, [97], by decide, ⟨by decide, by decide, by decide⟩⟩,
    ⟨1, [97], by decide, ⟨by decide, by decide, by decide⟩⟩]
  users := [⟨0, [98], ⟨1, [97], by decide, ⟨by decide, by decide, by decide⟩⟩, 7, by decide,
    ⟨by decide, by decide, by decide⟩, by decide⟩]
  gids := by decide
  uids := by decide
  listed := by simp

/-- The user is registered in the first group. -/
theorem not_round_trips : ¬RoundTrips sameName UserRec.group := by
  intro h
  obtain ⟨s, hs, -, hu⟩ := h true true ⟨List.replicate 32 0, List.replicate 32 0,
    List.replicate 32 0⟩ ⟨rfl, rfl, rfl⟩
  have hrun : (parseFiles (render true (sameName.groups.map GroupRec.line))
      (render true (sameName.users.map UserRec.line)) (.empty, ⟨List.replicate 32 0,
        List.replicate 32 0, List.replicate 32 0⟩)).toOption.map (·.1.ulist) =
        some [⟨0, 0, [98], 7⟩] := by decide +kernel
  rw [hs] at hrun
  have hlist := hu.list.symm.trans (Option.some.inj hrun)
  exact absurd hlist (by decide)

end Users

end Eclair
