import Eclair.Libc.Fixpath

/-!
# Eclair.Libc.Getenv

`getenv` of `libc/stdlib.c` and `raw_getenv` of the shell (`bin/sh.c`): the
search for a name among the strings of `environ`.

An entry is compared with the name over the length of its own name, so that it
is taken as soon as its name is a prefix of the requested one.
-/

namespace Eclair

namespace Environ

open Ec

/-- A pointer into the environment: byte `off` of `environ[env]`. -/
structure EnvPtr where
  env : Nat
  off : Nat
  deriving DecidableEq

/-- The loop over `environ`, from entry `i` on; `ret` is the pointer to return
for an entry whose `=` is at a byte of it. -/
def searchEnv (ret : Nat → Nat → EnvPtr) (name : CString) :
    Nat → List CString → Except EcFault (Option EnvPtr)
  | _, [] => .ok none
  | i, env :: environ =>
      (Ec.strchr (literal env.chars) 61 (env.chars.length + 1) 0).bind fun
        | none => searchEnv ret name (i + 1) environ
        | some stop =>
            if strncmp (literal env.chars) (literal name.chars) stop = 0 then .ok (some (ret i stop))
            else searchEnv ret name (i + 1) environ

/-- `getenv`: the byte behind the `=`. -/
def getenv (environ : List CString) (name : CString) : Except EcFault (Option EnvPtr) :=
  searchEnv (fun i stop => ⟨i, stop + 1⟩) name 0 environ

/-- `raw_getenv`: the entry itself. -/
def rawGetenv (environ : List CString) (name : CString) : Except EcFault (Option EnvPtr) :=
  searchEnv (fun i _ => ⟨i, 0⟩) name 0 environ

/-! ## what the search is for -/

/-- The part of an entry before its first `=`, if it has one. -/
def nameOf (env : CString) : Option Bytes :=
  if 61 ∈ env.chars then some (env.chars.takeWhile (· ≠ 61)) else none

/-- The first entry with exactly this name. -/
def lookup (environ : List CString) (name : Bytes) : Option Nat :=
  environ.findIdx? fun env => nameOf env = some name

/-- `getenv` returns the value of the first entry with the name, and
`raw_getenv` selects the same entry. -/
structure LookupRight (environ : List CString) (name : CString) : Prop where
  value : getenv environ name =
    .ok ((lookup environ name.chars).map fun i => ⟨i, name.chars.length + 1⟩)
  same : rawGetenv environ name = (getenv environ name).map (Option.map fun p => ⟨p.env, 0⟩)

/-- An entry whose name is a proper prefix of this one comes only behind an
entry that has it. -/
def Unshadowed (environ : List CString) (name : Bytes) : Prop :=
  ∀ pre env post n, environ = pre ++ env :: post → nameOf env = some n → n <+: name →
    n = name ∨ ∃ e ∈ pre, nameOf e = some name

variable {a b : ByteMem} {environ : List CString} {env : CString} {s t n name : Bytes} {i k : Nat}
variable {ret ret' : Nat → Nat → EnvPtr}

/-! ## the string functions -/

theorem strncmpLoop_eq_zero (h : ∀ j, j ≤ k → a (i + j) ≠ 0) :
    strncmpLoop a b k i = 0 ↔ ∀ j, j ≤ k → a (i + j) = b (i + j) := by
  have hbyte : ∀ x y : UInt8, (x.toNat : Int) - y.toNat = 0 ↔ x = y := by
    intro x y
    rw [← UInt8.toNat_inj]
    omega
  induction k generalizing i with
  | zero => simp [strncmpLoop, hbyte]
  | succ k ih =>
      have hi := h 0 (Nat.zero_le _)
      rw [Nat.add_zero] at hi
      have hrest : ∀ j, j ≤ k → a (i + 1 + j) ≠ 0 := fun j hj => by
        have hj' := h (j + 1) (Nat.succ_le_succ hj)
        rwa [← Nat.add_assoc, Nat.add_right_comm] at hj'
      rw [strncmpLoop]
      by_cases he : a i = b i
      · rw [if_pos ⟨hi, he ▸ hi, he⟩]
        refine (ih hrest).trans ?_
        constructor
        · intro hall j hj
          cases j with
          | zero => exact he
          | succ j => simpa only [Nat.add_right_comm, ← Nat.add_assoc] using hall j (by omega)
        · intro hall j hj
          simpa only [Nat.add_right_comm, ← Nat.add_assoc] using hall (j + 1) (by omega)
      · rw [if_neg fun hc => he hc.2.2, hbyte]
        exact ⟨fun h => absurd h he, fun hall => hall 0 (Nat.zero_le _)⟩

/-- **`strncmp`** over the length of a string: this one is a prefix of the other. -/
theorem strncmp_literal (h0 : (0 : UInt8) ∉ s) :
    strncmp (literal (s ++ t)) (literal n) s.length = 0 ↔ s <+: n := by
  have hbyte : ∀ j, j < s.length → literal (s ++ t) j = s.getD j 0 := fun j hj =>
    List.getD_append _ _ _ _ hj
  have hne : ∀ j, j < s.length → s.getD j 0 ≠ 0 := fun j hj hz => h0 (by
    rw [List.getD_eq_getElem _ _ hj] at hz
    exact hz ▸ List.getElem_mem hj)
  have hpre : s <+: n ↔ ∀ j, j < s.length → s.getD j 0 = literal n j := by
    rw [List.prefix_iff_getElem?]
    refine forall₂_congr fun j hj => ?_
    have hj0 := hne j hj
    rw [List.getD_eq_getElem _ _ hj] at hj0 ⊢
    rw [literal, List.getD_eq_getElem?_getD]
    cases n[j]? with
    | none => simpa using hj0
    | some c => simp [eq_comm]
  rw [hpre, strncmp]
  cases hs : s.length with
  | zero => simp
  | succ k =>
      rw [if_neg (Nat.succ_ne_zero k), Nat.add_sub_cancel, strncmpLoop_eq_zero fun j hj => by
        rw [Nat.zero_add, hbyte j (by omega)]
        exact hne j (by omega)]
      refine forall_congr' fun j => ?_
      rw [Nat.lt_succ_iff]
      refine imp_congr_right fun hj => ?_
      rw [Nat.zero_add, hbyte j (by omega)]

/-! ## one entry -/

theorem nameOf_append (env : CString) (h : env.chars = n ++ 61 :: t) (hn : 61 ∉ n) :
    nameOf env = some n := by
  have hall : ∀ x ∈ n, decide (x ≠ 61) = true := fun x hx => decide_eq_true fun he => hn (he ▸ hx)
  rw [nameOf, h, if_pos (by simp), List.takeWhile_append_of_pos hall]
  simp

/-- **What a round does**: an entry is taken if its name is a prefix of the requested one. -/
theorem searchEnv_cons (req : CString) :
    searchEnv ret req i (env :: environ) =
      match nameOf env with
      | some n =>
          if n <+: req.chars then .ok (some (ret i n.length)) else searchEnv ret req (i + 1) environ
      | none => searchEnv ret req (i + 1) environ := by
  by_cases hmem : (61 : UInt8) ∈ env.chars
  · obtain ⟨n, t, henv, hn⟩ := List.eq_append_cons_of_mem hmem
    have h0 : (0 : UInt8) ∉ n := fun h => env.nonzero (henv ▸ List.mem_append_left _ h)
    have hchr : Ec.strchr (literal env.chars) 61 (env.chars.length + 1) 0 = .ok (some n.length) := by
      have hc := cstr_literal env.nonzero
      rw [henv] at hc ⊢
      have hlen : n.length < (n ++ 61 :: t).length + 1 := by
        simp only [List.length_append, List.length_cons]
        omega
      rw [Ec.strchr_of_append hc hn hlen, Nat.zero_add]
    rw [searchEnv, hchr, nameOf_append env henv hn, henv]
    simp only [Except.bind, strncmp_literal h0]
  · rw [searchEnv, Ec.strchr_of_not_mem (cstr_literal env.nonzero) hmem (Nat.lt_succ_self _),
      nameOf, if_neg hmem]
    rfl

theorem lookup_cons :
    lookup (env :: environ) name =
      if nameOf env = some name then some 0 else (lookup environ name).map (· + 1) := by
  simp [lookup, List.findIdx?_cons]

theorem unshadowed_cons :
    Unshadowed (env :: environ) name ↔ nameOf env = some name ∨
      (∀ n, nameOf env = some n → ¬n <+: name) ∧ Unshadowed environ name := by
  constructor
  · intro h
    by_cases he : nameOf env = some name
    · exact .inl he
    · refine .inr ⟨fun n hn hp => ?_, fun pre e post n heq hn hp => ?_⟩
      · obtain rfl | ⟨e, hmem, -⟩ := h [] env environ n rfl hn hp
        · exact he hn
        · exact absurd hmem List.not_mem_nil
      · obtain h | ⟨e, hmem, hex⟩ := h (env :: pre) e post n (by rw [heq]; rfl) hn hp
        · exact .inl h
        · obtain rfl | hmem := List.mem_cons.mp hmem
          · exact absurd hex he
          · exact .inr ⟨e, hmem, hex⟩
  · intro h pre e post n heq hn hp
    cases pre with
    | nil =>
        obtain ⟨rfl, -⟩ := List.cons.inj heq
        obtain h | ⟨h, -⟩ := h
        · exact .inl (Option.some.inj (hn.symm.trans h))
        · exact absurd hp (h n hn)
    | cons e' pre =>
        obtain ⟨rfl, htail⟩ := List.cons.inj heq
        obtain h | ⟨-, h⟩ := h
        · exact .inr ⟨env, List.mem_cons_self, h⟩
        · obtain h | ⟨e, hmem, hex⟩ := h pre e post n htail hn hp
          · exact .inl h
          · exact .inr ⟨e, List.mem_cons_of_mem _ hmem, hex⟩

/-! ## all of them -/

/-- Both searches stop at the same entry. -/
theorem searchEnv_map (f : EnvPtr → EnvPtr) (hf : ∀ i stop, f (ret i stop) = ret' i stop)
    (req : CString) :
    searchEnv ret' req i environ = (searchEnv ret req i environ).map (Option.map f) := by
  induction environ generalizing i with
  | nil => rfl
  | cons env environ ih =>
      rw [searchEnv_cons, searchEnv_cons, ih]
      cases nameOf env with
      | none => rfl
      | some n =>
          dsimp only
          split
          · exact congrArg (fun p => Except.ok (some p)) (hf i n.length).symm
          · rfl

theorem rawGetenv_eq (environ : List CString) (req : CString) :
    rawGetenv environ req = (getenv environ req).map (Option.map fun p => ⟨p.env, 0⟩) := by
  rw [rawGetenv, getenv]
  refine searchEnv_map _ (fun i stop => ?_) req
  rfl

theorem searchEnv_right_iff (environ : List CString) (i : Nat) (req : CString) :
    searchEnv (fun i stop => ⟨i, stop + 1⟩) req i environ =
        .ok ((lookup environ req.chars).map fun j => ⟨i + j, req.chars.length + 1⟩) ↔
      Unshadowed environ req.chars := by
  induction environ generalizing i with
  | nil => exact ⟨fun _ pre env post n h => by simp at h, fun _ => rfl⟩
  | cons env environ ih =>
      rw [searchEnv_cons, lookup_cons, unshadowed_cons]
      have hnext : ((lookup environ req.chars).map (· + 1)).map
            (fun j => (⟨i + j, req.chars.length + 1⟩ : EnvPtr)) =
          (lookup environ req.chars).map fun j => ⟨i + 1 + j, req.chars.length + 1⟩ := by
        rw [Option.map_map]
        refine congrArg (Option.map · _) (funext fun j => ?_)
        simp only [Function.comp_apply, Nat.add_left_comm, Nat.add_comm]
      cases hn : nameOf env with
      | none => simpa [hnext] using ih (i + 1)
      | some n =>
          by_cases he : n = req.chars
          · simp [he]
          · rw [if_neg fun h => he (Option.some.inj h), hnext]
            by_cases hp : n <+: req.chars
            · -- the entry is taken, and no later one can be it
              have hlater : ∀ o : Option Nat, some (EnvPtr.mk i (n.length + 1)) ≠
                  o.map fun j => ⟨i + 1 + j, req.chars.length + 1⟩ := by
                intro o ho
                obtain ⟨j, -, hj⟩ := Option.map_eq_some_iff.mp ho.symm
                have := congrArg EnvPtr.env hj
                dsimp only at this
                omega
              simp [hp, he, hlater]
            · simpa [hp, he] using ih (i + 1)

/-- **The lookup is right exactly if no shorter name comes first**: `getenv` returns the value of the
first entry with the name, or `NULL` if there is none, exactly if every entry whose name is a proper
prefix of the requested one comes behind an entry that has it. -/
theorem lookupRight_iff (environ : List CString) (name : CString) :
    LookupRight environ name ↔ Unshadowed environ name.chars := by
  have hval := searchEnv_right_iff environ 0 name
  simp only [Nat.zero_add] at hval
  exact ⟨fun h => hval.mp h.value, fun h => ⟨hval.mpr h, rawGetenv_eq environ name⟩⟩

/-- `PATH` is asked for, and `PA=1` is there. -/
theorem not_lookupRight :
    ¬LookupRight [⟨[80, 65, 61, 49], by decide⟩] ⟨[80, 65, 84, 72], by decide⟩ := fun h =>
  absurd h.value (by decide)

end Environ

end Eclair
