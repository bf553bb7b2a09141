import Mathlib.Data.List.GetD
import Eclair.Lib.Walk
import Eclair.Vfs.CString
import Eclair.Vfs.Fs

/-!
# Eclair.Libc.Fixpath

`fixpath` of `libc/ec.c`: a path is made absolute in the static buffer
`tempbuf`, component by component, starting from the directory in `pathbuf`.

The two buffers are memory with `EC_PATHSZ` bytes; a byte that is read or
written behind them is a fault.  What the code means for the components of a
path is a `Walk`: `Holds` says which place the front of `tempbuf` is.
-/

namespace Eclair

namespace Ec

open ByteMem Walk

def EC_PATHSZ : Nat := 256

/-- A string in memory: the characters in front of its NUL. -/
structure CString where
  chars : Bytes
  nonzero : (0 : UInt8) ∉ chars

inductive EcFault where
  /-- a byte outside a buffer or a string -/
  | outside
  deriving DecidableEq

structure Paths where
  pathbuf : ByteMem
  tempbuf : ByteMem

/-! ## the string functions, with `k` bytes left to read -/

/-- `strlen`. -/
def strlen (m : ByteMem) : Nat → Nat → Except EcFault Nat
  | 0, _ => .error .outside
  | k + 1, p => if m p = 0 then .ok 0 else (strlen m k (p + 1)).map (· + 1)

/-- `strchr`. -/
def strchr (m : ByteMem) (ch : UInt8) : Nat → Nat → Except EcFault (Option Nat)
  | 0, _ => .error .outside
  | k + 1, p =>
      if m p = 0 then .ok none
      else if m p = ch then .ok (some p)
      else strchr m ch k (p + 1)

/-- `strrchr`, with the last place found so far. -/
def strrchr (m : ByteMem) (ch : UInt8) : Nat → Nat → Option Nat → Except EcFault (Option Nat)
  | 0, _, _ => .error .outside
  | k + 1, p, stop =>
      if m p = 0 then .ok stop
      else strrchr m ch k (p + 1) (if m p = ch then some p else stop)

/-- The loop of `strncmp`. -/
def strncmpLoop (a b : ByteMem) : Nat → Nat → Int
  | 0, i => (a i).toNat - (b i).toNat
  | n + 1, i =>
      if a i ≠ 0 ∧ b i ≠ 0 ∧ a i = b i then strncmpLoop a b n (i + 1)
      else (a i).toNat - (b i).toNat

/-- `strncmp`. -/
def strncmp (a b : ByteMem) (n : Nat) : Int := if n = 0 then 0 else strncmpLoop a b (n - 1) 0

/-- `strncpy`, from byte `i` on, for a count that is not 0. -/
def strncpy (src : ByteMem) : Nat → Nat → ByteMem → ByteMem
  | 0, i, dst => Function.update dst i 0
  | n + 1, i, dst =>
      if src i = 0 ∨ n = 0 then Function.update dst i 0
      else strncpy src n (i + 1) (Function.update dst i (src i))

/-! ## `fixpath` -/

/-- `tempbuf[i] = c`. -/
def put (i : Nat) (c : UInt8) (tb : ByteMem) : Except EcFault ByteMem :=
  if i < EC_PATHSZ then .ok (Function.update tb i c) else .error .outside

/-- `memcpy` of `n` bytes at `p` to byte `i` of `tempbuf`. -/
def memcpy (m : ByteMem) : Nat → Nat → Nat → ByteMem → Except EcFault ByteMem
  | 0, _, _, tb => .ok tb
  | n + 1, p, i, tb => (put i (m p) tb).bind fun tb => memcpy m n (p + 1) (i + 1) tb

/-- Go back one directory. -/
def goBack (len : Nat) (tb : ByteMem) : Except EcFault (Nat × ByteMem) :=
  (put len 0 tb).bind fun tb =>
  (strrchr tb 47 EC_PATHSZ 0 none).bind fun prev => .ok (prev.getD len, tb)

/-- Add a directory: the `plen` bytes at `p`. -/
def addDir (m : ByteMem) (p plen len : Nat) (tb : ByteMem) : Except EcFault (Nat × ByteMem) :=
  (if len ≠ 1 then (put len 47 tb).map fun tb => (len + 1, tb) else .ok (len, tb)).bind fun r =>
    let rem := sub32 (sub32 EC_PATHSZ r.1) 2
    let plen := if plen < rem then plen else rem
    (memcpy m plen p r.1 r.2).map fun tb => (r.1 + plen, tb)

/-- `!strncmp(path, "..", plen)`. -/
def isBack (m : ByteMem) (p plen : Nat) : Bool :=
  strncmp (fun i => m (p + i)) (literal [46, 46]) plen = 0

/-- What a round does with the component of `plen` bytes at `p`. -/
def fixComponent (m : ByteMem) (p plen len : Nat) (tb : ByteMem) : Except EcFault (Nat × ByteMem) :=
  if plen = 0 then .ok (len, tb)
  else if isBack m p plen then goBack len tb
  else addDir m p plen len tb

/-- `end? (size_t)end - (size_t)path: strlen(path)`. -/
def componentLen (m : ByteMem) (size p : Nat) : Option Nat → Except EcFault Nat
  | some stop => .ok (stop - p)
  | none => strlen m (size - p) p

/-- The loop over the components of the string `m` of `size` bytes. -/
def fixLoop (m : ByteMem) (size : Nat) : Nat → Nat → Nat → ByteMem → Except EcFault (Nat × ByteMem)
  | 0, _, _, _ => .error .outside
  | k + 1, p, len, tb =>
      (strchr m 47 (size - p) p).bind fun stop =>
      (componentLen m size p stop).bind fun plen =>
      (fixComponent m p plen len tb).bind fun r =>
        match stop with
        | some stop => fixLoop m size k (stop + 1) r.1 r.2
        | none => .ok r

/-- `if (!len) tempbuf[len++] = '/'; tempbuf[len++] = 0;`. -/
def finish (len : Nat) (tb : ByteMem) : Except EcFault ByteMem :=
  if len = 0 then (put 0 47 tb).bind (put 1 0) else put len 0 tb

/-- The start in the current directory, if the path is not absolute. -/
def start (m : ByteMem) (s : Paths) : Except EcFault (Nat × ByteMem) :=
  if m 0 ≠ 47 then
    (strlen s.pathbuf EC_PATHSZ 0).bind fun len =>
    (memcpy s.pathbuf (if len < EC_PATHSZ - 2 then len else EC_PATHSZ - 2) 0 0 s.tempbuf).map
      fun tb => (len, tb)
  else .ok (0, s.tempbuf)

/-- `fixpath`: the memory that the result points to, if it is not `NULL`. -/
def fixpath (path : Option CString) (s : Paths) : Except EcFault (Option ByteMem × Paths) :=
  match path with
  | none => .ok (none, s)
  | some path =>
      let m := literal path.chars
      let size := path.chars.length + 1
      (start m s).bind fun r =>
      (fixLoop m size size 0 r.1 r.2).bind fun r =>
      (finish r.1 r.2).map fun tb => (some tb, { s with tempbuf := tb })

/-! ## strings that are long enough -/

variable {m tb : ByteMem} {s t c : Bytes} {ch : UInt8} {i j k n p len plen : Nat} {stop : Option Nat}
variable {d : List Bytes}

theorem strlen_eq (h : CStr (fun _ => True) m p s) (hk : s.length < k) : strlen m k p = .ok s.length := by
  induction s generalizing p k with
  | nil =>
      obtain ⟨k, rfl⟩ := Nat.exists_eq_add_of_lt hk
      rw [strlen, if_pos (cstr_end h)]
      rfl
  | cons c s ih =>
      obtain ⟨k, rfl⟩ := Nat.exists_eq_add_of_lt hk
      obtain ⟨hc, h0⟩ := cstr_first h
      rw [strlen, hc, if_neg h0, ih (cstr_tail h) (by rw [List.length_cons]; omega)]
      rfl

theorem strchr_of_not_mem (h : CStr (fun _ => True) m p s) (hch : ch ∉ s) (hk : s.length < k) :
    strchr m ch k p = .ok none := by
  induction s generalizing p k with
  | nil =>
      obtain ⟨k, rfl⟩ := Nat.exists_eq_add_of_lt hk
      rw [strchr, if_pos (cstr_end h)]
  | cons c s ih =>
      obtain ⟨k, rfl⟩ := Nat.exists_eq_add_of_lt hk
      obtain ⟨hc, h0⟩ := cstr_first h
      obtain ⟨hne, hrest⟩ := not_or.mp (mt List.mem_cons.mpr hch)
      rw [strchr, hc, if_neg h0, if_neg (Ne.symm hne)]
      exact ih (cstr_tail h) hrest (by rw [List.length_cons]; omega)

theorem strchr_of_append (h : CStr (fun _ => True) m p (s ++ ch :: t)) (hch : ch ∉ s)
    (hk : s.length < k) : strchr m ch k p = .ok (some (p + s.length)) := by
  induction s generalizing p k with
  | nil =>
      obtain ⟨k, rfl⟩ := Nat.exists_eq_add_of_lt hk
      obtain ⟨hc, h0⟩ := cstr_first h
      rw [strchr, hc, if_neg h0, if_pos rfl]
      rfl
  | cons c s ih =>
      obtain ⟨k, rfl⟩ := Nat.exists_eq_add_of_lt hk
      obtain ⟨hc, h0⟩ := cstr_first h
      obtain ⟨hne, hrest⟩ := not_or.mp (mt List.mem_cons.mpr hch)
      rw [strchr, hc, if_neg h0, if_neg (Ne.symm hne), ih (cstr_tail h) hrest (by
        rw [List.length_cons]; omega), List.length_cons, Nat.add_assoc, Nat.add_comm 1]

theorem strrchr_of_not_mem (h : CStr (fun _ => True) m p s) (hch : ch ∉ s) (hk : s.length < k) :
    strrchr m ch k p stop = .ok stop := by
  induction s generalizing p k with
  | nil =>
      obtain ⟨k, rfl⟩ := Nat.exists_eq_add_of_lt hk
      rw [strrchr, if_pos (cstr_end h)]
  | cons c s ih =>
      obtain ⟨k, rfl⟩ := Nat.exists_eq_add_of_lt hk
      obtain ⟨hc, h0⟩ := cstr_first h
      obtain ⟨hne, hrest⟩ := not_or.mp (mt List.mem_cons.mpr hch)
      rw [strrchr, hc, if_neg h0, if_neg (Ne.symm hne)]
      exact ih (cstr_tail h) hrest (by rw [List.length_cons]; omega)

theorem strrchr_of_append (h : CStr (fun _ => True) m p (s ++ ch :: t)) (hch : ch ∉ t)
    (hk : (s ++ ch :: t).length < k) : strrchr m ch k p stop = .ok (some (p + s.length)) := by
  induction s generalizing p k stop with
  | nil =>
      obtain ⟨k, rfl⟩ := Nat.exists_eq_add_of_lt hk
      obtain ⟨hc, h0⟩ := cstr_first h
      rw [strrchr, hc, if_neg h0, if_pos rfl]
      exact strrchr_of_not_mem (cstr_tail h) hch (by simp; omega)
  | cons c s ih =>
      obtain ⟨k, rfl⟩ := Nat.exists_eq_add_of_lt hk
      obtain ⟨hc, h0⟩ := cstr_first h
      rw [strrchr, hc, if_neg h0, ih (cstr_tail h) (by simp; omega), List.length_cons, Nat.add_assoc,
        Nat.add_comm 1]

theorem strncmpLoop_end {a b : ByteMem} (h : b i = 0) :
    strncmpLoop a b n i = (a i).toNat - (b i).toNat := by
  cases n with
  | zero => rfl
  | succ n => exact if_neg fun hn => hn.2.1 h

/-- **The test for going back** takes `.` for `..`: it compares no more bytes
than the component has. -/
theorem isBack_iff (hc : c ≠ []) (h0 : (0 : UInt8) ∉ c) (hm : ∀ i, i < c.length → m (p + i) = c.getD i 0) :
    isBack m p c.length = true ↔ c = [46] ∨ c = [46, 46] := by
  have hsub : ∀ a : UInt8, ((a.toNat : Int) - 46 = 0) ↔ a = 46 := by
    intro a
    have h46 : (46 : UInt8).toNat = 46 := rfl
    rw [← UInt8.toNat_inj, h46]
    omega
  have hzero : ∀ a : UInt8, a ≠ 0 → a.toNat ≠ 0 := fun a h h0 => h (UInt8.toNat_inj.mp h0)
  obtain ⟨a, l, rfl⟩ := List.exists_cons_of_ne_nil hc
  have ha := hm 0 (by simp)
  rw [Nat.add_zero, List.getD_cons_zero] at ha
  cases l with
  | nil => simp [isBack, strncmp, strncmpLoop, ha, hsub, literal]
  | cons b l =>
      have hb := hm 1 (by simp)
      rw [List.getD_cons_succ, List.getD_cons_zero] at hb
      by_cases h : a = 46
      · cases l with
        | nil => simp [isBack, strncmp, strncmpLoop, ha, hb, hsub, literal, h]
        | cons e l =>
            have he := hm 2 (by simp)
            rw [List.getD_cons_succ, List.getD_cons_succ, List.getD_cons_zero] at he
            have hne := hzero e fun h => h0 (by simp [h])
            by_cases h' : b = 46
            · have hend := fun n => strncmpLoop_end (n := n) (a := fun i => m (p + i))
                (b := literal [46, 46]) (i := 2) rfl
              simp [isBack, strncmp, strncmpLoop, ha, hb, he, literal, h, h', hne, hend]
            · simp [isBack, strncmp, strncmpLoop, ha, hb, hsub, literal, h, h']
      · cases l with
        | nil => simp [isBack, strncmp, strncmpLoop, ha, hsub, literal, h]
        | cons e l => simp [isBack, strncmp, strncmpLoop, ha, hsub, literal, h]

/-! ## stores into `tempbuf` -/

theorem put_of_lt (h : i < EC_PATHSZ) : put i ch tb = .ok (Function.update tb i ch) := if_pos h

theorem put_of_le (h : EC_PATHSZ ≤ i) : put i ch tb = .error .outside := if_neg (Nat.not_lt.mpr h)

/-- **`memcpy`** inside the buffer. -/
theorem memcpy_eq (h : i + n ≤ EC_PATHSZ) :
    memcpy m n p i tb = .ok (write i n (fun j => m (p + j)) tb) := by
  induction n generalizing p i tb with
  | zero =>
      refine congrArg Except.ok (funext fun x => ?_)
      rw [write_outside (by omega)]
  | succ n ih =>
      rw [memcpy, put_of_lt (by omega)]
      refine (ih (by omega)).trans (congrArg Except.ok (funext fun x => ?_))
      by_cases hx : i ≤ x ∧ x < i + (n + 1)
      · obtain ⟨j, rfl⟩ := Nat.exists_eq_add_of_le hx.1
        rw [write_inside (by omega)]
        cases j with
        | zero => rw [write_outside (by omega), Nat.add_zero, Nat.add_zero, Function.update_self]
        | succ j =>
            rw [← Nat.add_assoc, Nat.add_right_comm, write_inside (by omega), Nat.add_right_comm p]
            rfl
      · rw [write_outside (by omega), write_outside hx, Function.update_of_ne (by omega)]

/-- **`memcpy`** past the end of the buffer. -/
theorem memcpy_outside (hi : i ≤ EC_PATHSZ) (h : EC_PATHSZ < i + n) :
    memcpy m n p i tb = .error .outside := by
  induction n generalizing p i tb with
  | zero => omega
  | succ n ih =>
      rw [memcpy]
      by_cases hlt : i < EC_PATHSZ
      · rw [put_of_lt hlt]
        exact ih (by omega) (by omega)
      · rw [put_of_le (Nat.not_lt.mp hlt)]
        rfl

/-! ## what the components mean -/

/-- The longest path that `fixpath` keeps. -/
def LIMIT : Nat := EC_PATHSZ - 2

/-- The characters of a place, the root apart. -/
def flat (d : List Bytes) : Bytes := d.flatMap (47 :: ·)

def size (d : List Bytes) : Nat := (flat d).length

/-- A component that is walked down to. -/
def IsName (c : Bytes) : Prop := c ≠ [] ∧ c ≠ [46] ∧ c ≠ [46, 46]

instance (c : Bytes) : Decidable (IsName c) := inferInstanceAs (Decidable (_ ∧ _))

/-- What the code makes of a component: one dot is as good as two. -/
def codeMove (c : Bytes) : Move Bytes :=
  if c = [] then .stay else if c = [46] ∨ c = [46, 46] then .up else .down c

/-- The place after the components. -/
def codeWalk (d : List Bytes) (cs : List Bytes) : List Bytes := Walk.walk d (cs.map codeMove)

theorem codeMove_of_name (h : IsName c) : codeMove c = .down c := by
  obtain ⟨h0, h1, h2⟩ := h
  rw [codeMove, if_neg h0, if_neg (not_or.mpr ⟨h1, h2⟩)]

/-- The characters between two slashes. -/
def Part (c : Bytes) : Prop := (47 : UInt8) ∉ c ∧ (0 : UInt8) ∉ c

/-- A place whose components are names. -/
def Plain (d : List Bytes) : Prop := ∀ c ∈ d, IsName c ∧ Part c

theorem Plain.append (h : Plain d) (hn : IsName c) (hc : Part c) : Plain (d ++ [c]) := by
  intro b hb
  obtain hb | hb := List.mem_append.mp hb
  · exact h b hb
  · rw [List.mem_singleton.mp hb]
    exact ⟨hn, hc⟩

@[simp] theorem flat_nil : flat [] = [] := rfl

theorem flat_append : flat (d ++ [c]) = flat d ++ 47 :: c := by simp [flat]

theorem size_append : size (d ++ [c]) = size d + (c.length + 1) := by
  rw [size, flat_append, List.length_append, List.length_cons, size]

theorem Plain.not_mem_flat (h : Plain d) : (0 : UInt8) ∉ flat d := by
  intro h0
  obtain ⟨c, hc, h0⟩ := List.mem_flatMap.mp h0
  obtain h0 | h0 := List.mem_cons.mp h0
  · exact absurd h0 (by decide)
  · exact (h c hc).2.2 h0

/-- Only the root is as short as a slash. -/
theorem Plain.size_ne_one (h : Plain d) : size d ≠ 1 := by
  obtain rfl | ⟨e, c, rfl⟩ := d.eq_nil_or_concat
  · simp [size]
  · have hc := (h c (by simp)).1.1
    have hpos := List.length_pos_iff.mpr hc
    rw [List.concat_eq_append, size_append]
    omega

/-! ## the front of `tempbuf` -/

/-- The buffer starts with these characters. -/
def Starts (tb : ByteMem) (s : Bytes) : Prop := ∀ i, i < s.length → tb i = s.getD i 0

/-- The first `len` bytes of the buffer are the place, as far as they fit;
the root may have its slash there. -/
structure Holds (tb : ByteMem) (len : Nat) (d : List Bytes) : Prop where
  plain : Plain d
  room : size d.dropLast < LIMIT
  front : ∃ s, Starts tb s ∧ len = s.length ∧ (s = (flat d).take LIMIT ∨ d = [] ∧ s = [47])

theorem Starts.append (h : Starts tb s) : Starts (Function.update tb s.length ch) (s ++ [ch]) := by
  intro i hi
  rw [List.length_append, List.length_singleton] at hi
  by_cases hlt : i < s.length
  · rw [Function.update_of_ne (by omega), h i hlt, List.getD_append _ _ _ _ hlt]
  · obtain rfl : i = s.length := by omega
    rw [Function.update_self, List.getD_append_right _ _ _ _ (Nat.le_refl _), Nat.sub_self]
    rfl

/-- A NUL behind the characters makes them a string. -/
theorem Starts.cstr (h : Starts tb s) (h0 : (0 : UInt8) ∉ s) :
    CStr (fun _ => True) (Function.update tb s.length 0) 0 s where
  nonzero x hx hzero := h0 (hzero ▸ hx)
  inside _ _ := trivial
  byte i hi := by
    rw [Nat.zero_add]
    by_cases hlt : i < s.length
    · rw [Function.update_of_ne (by omega), h i hlt]
    · obtain rfl : i = s.length := by omega
      rw [Function.update_self, List.getD_eq_default _ _ (Nat.le_refl _)]

/-- Copying bytes behind the characters. -/
theorem Starts.write (h : Starts tb s) (ht : ∀ i, i < t.length → m (p + i) = t.getD i 0) :
    Starts (write s.length t.length (fun j => m (p + j)) tb) (s ++ t) := by
  intro i hi
  rw [List.length_append] at hi
  by_cases hlt : i < s.length
  · rw [write_outside (by omega), h i hlt, List.getD_append _ _ _ _ hlt]
  · obtain ⟨j, rfl⟩ := Nat.exists_eq_add_of_le (Nat.not_lt.mp hlt)
    rw [write_inside (by omega), ht j (by omega), List.getD_append_right _ _ _ _ (by omega),
      Nat.add_sub_cancel_left]

/-- What is in front of the last component is as it was. -/
theorem Starts.of_append (h : Starts tb (s ++ t)) : Starts tb s := by
  intro i hi
  rw [h i (by rw [List.length_append]; omega), List.getD_append _ _ _ _ hi]

theorem starts_of_cstr (h : CStr (fun _ => True) tb 0 s) : Starts tb s := by
  intro i hi
  have hb := h.byte i (Nat.le_of_lt hi)
  rwa [Nat.zero_add] at hb

theorem size_dropLast_le (d : List Bytes) : size d.dropLast ≤ size d := by
  obtain rfl | ⟨e, c, rfl⟩ := d.eq_nil_or_concat
  · exact Nat.le_refl _
  · rw [List.concat_eq_append, List.dropLast_concat, size_append]
    omega

/-- What fits of a place whose last component starts in the buffer. -/
theorem take_flat (h : size d < LIMIT) :
    (flat (d ++ [c])).take LIMIT = flat d ++ 47 :: c.take (LIMIT - 1 - size d) := by
  have hsub : LIMIT - size d = LIMIT - 1 - size d + 1 := by omega
  rw [flat_append, List.take_append, List.take_of_length_le (Nat.le_of_lt h)]
  change _ ++ (47 :: c).take (LIMIT - size d) = _
  rw [hsub, List.take_succ_cons]

theorem Holds.length_le (h : Holds tb len d) : len ≤ LIMIT := by
  obtain ⟨s, -, rfl, rfl | ⟨-, rfl⟩⟩ := h.front
  · exact List.length_take_le _ _
  · decide

/-- A place that fits. -/
theorem holds_of_fits (hd : Plain d) (hs : Starts tb (flat d)) (h : size d ≤ LIMIT) :
    Holds tb (size d) d := by
  refine ⟨hd, ?_, flat d, hs, rfl, .inl (List.take_of_length_le h).symm⟩
  obtain rfl | ⟨e, c, rfl⟩ := d.eq_nil_or_concat
  · decide
  · rw [List.concat_eq_append, size_append] at h
    rw [List.concat_eq_append, List.dropLast_concat]
    omega

theorem holds_root : Holds tb 0 [] :=
  holds_of_fits (fun _ hc => absurd hc List.not_mem_nil) (fun i hi => absurd hi (Nat.not_lt_zero i))
    (by decide)

/-- **Going back** removes the last component. -/
theorem goBack_holds (h : Holds tb len d) :
    ∃ len' tb', goBack len tb = .ok (len', tb') ∧ Holds tb' len' d.dropLast := by
  have hlen : len < EC_PATHSZ := Nat.lt_of_le_of_lt h.length_le (by decide)
  obtain ⟨s, hs, rfl, hcase⟩ := h.front
  have hput : put s.length 0 tb = .ok (Function.update tb s.length 0) := put_of_lt hlen
  obtain rfl | ⟨rfl, rfl⟩ := hcase
  · have h0 : (0 : UInt8) ∉ (flat d).take LIMIT := fun hmem => h.plain.not_mem_flat (List.mem_of_mem_take hmem)
    have hstr := hs.cstr h0
    obtain rfl | ⟨e, c, rfl⟩ := d.eq_nil_or_concat
    · have hnone : strrchr _ 47 EC_PATHSZ 0 none = .ok none := strrchr_of_not_mem hstr (by simp) hlen
      refine ⟨0, Function.update tb ((flat []).take LIMIT).length 0, ?_, holds_root⟩
      rw [goBack, hput, Except.bind, hnone]
      rfl
    · rw [List.concat_eq_append] at *
      have hroom := h.room
      rw [List.dropLast_concat] at hroom ⊢
      have hc : (47 : UInt8) ∉ c := (h.plain c (by simp)).2.1
      have htake := take_flat (c := c) hroom
      generalize (flat (e ++ [c])).take LIMIT = s at *
      subst htake
      have hsome : strrchr _ 47 EC_PATHSZ 0 none = _ :=
        strrchr_of_append hstr (fun hmem => hc (List.mem_of_mem_take hmem)) hlen
      have hplain : Plain e := fun b hb => h.plain b (List.mem_append_left _ hb)
      refine ⟨size e, _, ?_, holds_of_fits hplain (starts_of_cstr hstr).of_append
        (Nat.le_of_lt hroom)⟩
      rw [goBack, hput, Except.bind, hsome, Nat.zero_add]
      rfl
  · have hstr := hs.cstr (by decide)
    have hsome : strrchr _ 47 EC_PATHSZ 0 none = _ := strrchr_of_append (s := []) hstr (by simp) hlen
    refine ⟨0, Function.update tb [(47 : UInt8)].length 0, ?_, holds_root⟩
    rw [goBack, hput, Except.bind, hsome]
    rfl

/-- The slash in front of a component. -/
theorem slash_holds (h : Holds tb len d) (hlt : size d < LIMIT) :
    ∃ tb', (if len ≠ 1 then (put len 47 tb).map fun tb => (len + 1, tb) else .ok (len, tb)) =
      .ok (size d + 1, tb') ∧ Starts tb' (flat d ++ [47]) := by
  have hlen : len < EC_PATHSZ := Nat.lt_of_le_of_lt h.length_le (by decide)
  obtain ⟨s, hs, rfl, rfl | ⟨rfl, rfl⟩⟩ := h.front
  · have hone : (flat d).length ≠ 1 := h.plain.size_ne_one
    rw [List.take_of_length_le (Nat.le_of_lt hlt)] at *
    rw [if_pos hone, put_of_lt hlen]
    exact ⟨_, rfl, hs.append⟩
  · rw [if_neg (by decide)]
    exact ⟨tb, rfl, hs⟩

/-- **A name is added**, as far as it fits. -/
theorem addDir_holds (h : Holds tb len d) (hn : IsName c) (hc : Part c)
    (hm : ∀ i, i < c.length → m (p + i) = c.getD i 0) (hlt : size d < LIMIT) :
    ∃ len' tb', addDir m p c.length len tb = .ok (len', tb') ∧ Holds tb' len' (d ++ [c]) := by
  obtain ⟨tb', hslash, hs⟩ := slash_holds h hlt
  have hlimit : LIMIT = 254 := rfl
  have hsz : EC_PATHSZ = 256 := rfl
  have hrem : sub32 (sub32 EC_PATHSZ (size d + 1)) 2 = LIMIT - 1 - size d := by
    have hinner : sub32 EC_PATHSZ (size d + 1) = EC_PATHSZ - (size d + 1) :=
      sub32_of_le (by omega) (by decide)
    rw [hinner, sub32_of_le (by omega) (by omega)]
    omega
  have hplen : (if c.length < LIMIT - 1 - size d then c.length else LIMIT - 1 - size d) =
      (c.take (LIMIT - 1 - size d)).length := by
    rw [List.length_take]
    split <;> omega
  have hfit : size d + 1 + (c.take (LIMIT - 1 - size d)).length ≤ EC_PATHSZ := by
    rw [List.length_take]
    omega
  have ht : ∀ i, i < (c.take (LIMIT - 1 - size d)).length →
      m (p + i) = (c.take (LIMIT - 1 - size d)).getD i 0 := by
    intro i hi
    rw [List.length_take] at hi
    rw [hm i (by omega), List.getD_eq_getElem?_getD, List.getD_eq_getElem?_getD,
      List.getElem?_take_of_lt (by omega)]
  have hlen : size d + 1 = (flat d ++ [47]).length := by
    rw [List.length_append, List.length_singleton, size]
  refine ⟨size d + 1 + (c.take (LIMIT - 1 - size d)).length,
    write (size d + 1) (c.take (LIMIT - 1 - size d)).length (fun j => m (p + j)) tb', ?_,
    h.plain.append hn hc, ?_, flat d ++ [47] ++ c.take (LIMIT - 1 - size d), ?_, ?_, .inl ?_⟩
  · rw [addDir, hslash, Except.bind]
    dsimp only
    rw [hrem, hplen, memcpy_eq hfit]
    rfl
  · rw [List.dropLast_concat]
    exact hlt
  · rw [hlen]
    exact hs.write ht
  · rw [hlen, ← List.length_append]
  · rw [take_flat hlt, List.append_assoc, List.singleton_append]

/-- **A name behind a path that fills the buffer**: what is left is less
than nothing, so the name is copied past the end. -/
theorem addDir_full (h : Holds tb len d) (hge : LIMIT ≤ size d) (hp : 0 < plen) :
    addDir m p plen len tb = .error .outside ∨ ∃ tb', addDir m p plen len tb = .ok (EC_PATHSZ, tb') := by
  have hlimit : LIMIT = 254 := rfl
  obtain ⟨s, -, rfl, rfl | ⟨rfl, rfl⟩⟩ := h.front
  · have hlen : ((flat d).take LIMIT).length = 254 := by
      rw [List.length_take, ← hlimit]
      exact Nat.min_eq_left hge
    have hrem : sub32 (sub32 EC_PATHSZ (254 + 1)) 2 = 2 ^ 32 - 1 := rfl
    rw [hlen, addDir, if_pos (by decide), put_of_lt (by decide)]
    dsimp only [Except.map, Except.bind]
    rw [hrem]
    by_cases hone : (if plen < 2 ^ 32 - 1 then plen else 2 ^ 32 - 1) = 1
    · rw [hone, memcpy_eq (by decide)]
      exact .inr ⟨_, rfl⟩
    · rw [memcpy_outside (by decide)]
      · exact .inl rfl
      · have hsz : EC_PATHSZ = 256 := rfl
        split
        · next hc =>
            rw [if_pos hc] at hone
            omega
        · omega
  · exact absurd hge (by decide)

/-! ## the loop -/

/-- No name comes when the path fills the buffer. -/
def Roomy (d : List Bytes) (cs : List Bytes) : Prop :=
  ∀ p c, p ++ [c] <+: cs → IsName c → size (codeWalk d p) < LIMIT

theorem roomy_cons {cs : List Bytes} : Roomy d (c :: cs) ↔
    (IsName c → size d < LIMIT) ∧ Roomy (step d (codeMove c)) cs := by
  constructor
  · intro h
    refine ⟨fun hn => h [] c ⟨cs, rfl⟩ hn, fun p b hp hn => ?_⟩
    exact h (c :: p) b (List.cons_prefix_cons.mpr ⟨rfl, hp⟩) hn
  · intro ⟨hc, h⟩ p b hp hn
    cases p with
    | nil =>
        obtain ⟨rfl, -⟩ := List.cons_prefix_cons.mp hp
        exact hc hn
    | cons a p =>
        obtain ⟨rfl, hrest⟩ := List.cons_prefix_cons.mp hp
        exact h p b hrest hn

theorem codeWalk_cons {cs : List Bytes} : codeWalk d (c :: cs) = codeWalk (step d (codeMove c)) cs := rfl

/-- **Round lemma**: a component moves the place. -/
theorem fixComponent_holds (h : Holds tb len d) (hc : Part c)
    (hm : ∀ i, i < c.length → m (p + i) = c.getD i 0) (hroom : IsName c → size d < LIMIT) :
    ∃ len' tb', fixComponent m p c.length len tb = .ok (len', tb') ∧
      Holds tb' len' (step d (codeMove c)) := by
  by_cases h0 : c = []
  · rw [fixComponent, if_pos (List.length_eq_zero_iff.mpr h0), codeMove, if_pos h0]
    exact ⟨len, tb, rfl, h⟩
  rw [fixComponent, if_neg (mt List.length_eq_zero_iff.mp h0)]
  by_cases hback : c = [46] ∨ c = [46, 46]
  · rw [if_pos ((isBack_iff h0 hc.2 hm).mpr hback), codeMove, if_neg h0, if_pos hback]
    exact goBack_holds h
  · rw [if_neg (mt (isBack_iff h0 hc.2 hm).mp hback)]
    have hn : IsName c := ⟨h0, not_or.mp hback⟩
    rw [codeMove_of_name hn]
    exact addDir_holds h hn hc hm (hroom hn)

/-- Behind the end of the buffer nothing is ever written. -/
theorem fixComponent_end : fixComponent m p plen EC_PATHSZ tb = .error .outside ∨
    fixComponent m p plen EC_PATHSZ tb = .ok (EC_PATHSZ, tb) := by
  rw [fixComponent]
  split
  · exact .inr rfl
  · left
    split
    · rw [goBack, put_of_le (Nat.le_refl _)]
      rfl
    · rw [addDir, if_pos (by decide), put_of_le (Nat.le_refl _)]
      rfl

theorem fixLoop_end {n : Nat} : fixLoop m n k p EC_PATHSZ tb = .error .outside ∨
    ∃ tb', fixLoop m n k p EC_PATHSZ tb = .ok (EC_PATHSZ, tb') := by
  induction k generalizing p tb with
  | zero => exact .inl rfl
  | succ k ih =>
      rw [fixLoop]
      cases strchr m 47 (n - p) p with
      | error e => exact .inl rfl
      | ok stop =>
          dsimp only [Except.bind]
          cases componentLen m n p stop with
          | error e => exact .inl rfl
          | ok plen =>
              dsimp only
              obtain he | hok := @fixComponent_end m tb p plen
              · rw [he]
                exact .inl rfl
              · rw [hok]
                cases stop with
                | none => exact .inr ⟨tb, rfl⟩
                | some stop => exact ih

/-- The round that the component in front of the next slash gets. -/
theorem fixLoop_slash {n : Nat} (hs : CStr (fun _ => True) m p (c ++ 47 :: t)) (hc : (47 : UInt8) ∉ c)
    (hn : (c ++ 47 :: t).length < n - p) : fixLoop m n (k + 1) p len tb =
      (fixComponent m p c.length len tb).bind fun r => fixLoop m n k (p + c.length + 1) r.1 r.2 := by
  rw [List.length_append] at hn
  rw [fixLoop, strchr_of_append hs hc (by omega)]
  dsimp only [Except.bind, componentLen]
  rw [Nat.add_sub_cancel_left]

/-- The round of the last component. -/
theorem fixLoop_last {n : Nat} (hs : CStr (fun _ => True) m p c) (hc : (47 : UInt8) ∉ c)
    (hn : c.length < n - p) :
    fixLoop m n (k + 1) p len tb = fixComponent m p c.length len tb := by
  rw [fixLoop, strchr_of_not_mem hs hc hn]
  dsimp only [Except.bind, componentLen]
  rw [strlen_eq hs hn]
  dsimp only
  cases fixComponent m p c.length len tb <;> rfl

theorem cstr_bytes (h : CStr (fun _ => True) m p (s ++ t)) :
    ∀ i, i < s.length → m (p + i) = s.getD i 0 := by
  intro i hi
  rw [h.byte i (by rw [List.length_append]; omega), List.getD_append _ _ _ _ hi]

theorem cstr_part (h : CStr (fun _ => True) m p (s ++ t)) (hs : (47 : UInt8) ∉ s) : Part s :=
  ⟨hs, fun h0 => h.nonzero 0 (List.mem_append_left t h0) rfl⟩

/-- **Run lemma**: the loop walks along the components, by induction on what
is left of the path. -/
theorem fixLoop_holds {n : Nat} (hs : CStr (fun _ => True) m p s) (hn : s.length < n - p)
    (hk : s.length < k) (h : Holds tb len d) (hroom : Roomy d (components s)) :
    ∃ len' tb', fixLoop m n k p len tb = .ok (len', tb') ∧ Holds tb' len' (codeWalk d (components s)) := by
  induction k generalizing p s len tb d with
  | zero => omega
  | succ k ih =>
      by_cases hslash : (47 : UInt8) ∉ s
      · rw [components_of_not_mem hslash] at hroom ⊢
        rw [fixLoop_last hs hslash hn]
        have hs' : CStr (fun _ => True) m p (s ++ []) := by rwa [List.append_nil]
        exact fixComponent_holds h (cstr_part hs' hslash) (cstr_bytes hs') (roomy_cons.mp hroom).1
      obtain ⟨c, t, rfl, hnot⟩ := List.eq_append_cons_of_mem (Decidable.not_not.mp hslash)
      rw [components_append hnot] at hroom ⊢
      obtain ⟨hc, hrest⟩ := roomy_cons.mp hroom
      obtain ⟨len', tb', hok, h'⟩ := fixComponent_holds h (cstr_part hs hnot) (cstr_bytes hs) hc
      rw [fixLoop_slash hs hnot hn, hok, codeWalk_cons]
      rw [List.length_append, List.length_cons] at hn hk
      exact ih (cstr_tail (cstr_append hs)) (by omega) (by omega) h' hrest

/-- **Overrun lemma**: with a name that comes when the path fills the buffer,
the loop faults or leaves no room for the NUL. -/
theorem fixLoop_overrun {n : Nat} (hs : CStr (fun _ => True) m p s) (hn : s.length < n - p)
    (hk : s.length < k) (h : Holds tb len d) (hroom : ¬ Roomy d (components s)) :
    fixLoop m n k p len tb = .error .outside ∨ ∃ tb', fixLoop m n k p len tb = .ok (EC_PATHSZ, tb') := by
  induction k generalizing p s len tb d with
  | zero => omega
  | succ k ih =>
      have hfull : ∀ {c t}, CStr (fun _ => True) m p (c ++ t) → (47 : UInt8) ∉ c →
          ¬ (IsName c → size d < LIMIT) → fixComponent m p c.length len tb = .error .outside ∨
            ∃ tb', fixComponent m p c.length len tb = .ok (EC_PATHSZ, tb') := by
        intro c t hct hnot hc
        obtain ⟨hname, hge⟩ := Classical.not_imp.mp hc
        have hback := mt (isBack_iff hname.1 (cstr_part hct hnot).2 (cstr_bytes hct)).mp
          (not_or.mpr hname.2)
        rw [fixComponent, if_neg (mt List.length_eq_zero_iff.mp hname.1), if_neg hback]
        exact addDir_full h (Nat.not_lt.mp hge) (List.length_pos_iff.mpr hname.1)
      by_cases hslash : (47 : UInt8) ∉ s
      · rw [components_of_not_mem hslash, roomy_cons] at hroom
        rw [fixLoop_last hs hslash hn]
        have hs' : CStr (fun _ => True) m p (s ++ []) := by rwa [List.append_nil]
        refine hfull hs' hslash fun hc => hroom ⟨hc, fun p b hp => ?_⟩
        simp at hp
      obtain ⟨c, t, rfl, hnot⟩ := List.eq_append_cons_of_mem (Decidable.not_not.mp hslash)
      rw [components_append hnot, roomy_cons] at hroom
      rw [fixLoop_slash hs hnot hn]
      by_cases hc : IsName c → size d < LIMIT
      · obtain ⟨len', tb', hok, h'⟩ := fixComponent_holds h (cstr_part hs hnot) (cstr_bytes hs) hc
        rw [hok]
        rw [List.length_append, List.length_cons] at hn hk
        exact ih (cstr_tail (cstr_append hs)) (by omega) (by omega) h' fun hrest => hroom ⟨hc, hrest⟩
      · obtain he | ⟨tb', hok⟩ := hfull hs hnot hc
        · rw [he]
          exact .inl rfl
        · rw [hok]
          exact fixLoop_end

end Ec

end Eclair
