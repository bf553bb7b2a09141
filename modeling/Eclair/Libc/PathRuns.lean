import Mathlib.Data.List.Infix
import Eclair.Lib.System
import Eclair.Libc.Fixpath

/-!
# Eclair.Libc.PathRuns

The current directory over whole runs of path calls (`libc/ec.c`): what
`ec_chdir` has stored, and whether `fixpath` gives the absolute normal form
of a path against it.

`normal` is the normal form.  The code departs from it where a component is
one dot, and where a path fills the buffer; `Fixable` says when neither
matters.
-/

namespace Eclair

namespace Ec

open ByteMem Walk

/-! ## the calls -/

def ENOTDIR : Int := 20

/-- `ec_chdir`, with the answer of `ec_stat`: an error number or the flags.
The result is the error number, if it fails. -/
def ecChdir (path : Option CString) (stat : Except Int Nat) (s : Paths) :
    Except EcFault (Option Int × Paths) :=
  match path with
  | none => .ok (some EINVAL, s)
  | some path => (fixpath (some path) s).map fun r =>
      match stat with
      | .error e => (some e, r.2)
      | .ok flags =>
          if !hasFlag flags 0x2 then (some ENOTDIR, r.2)
          else (none, { r.2 with pathbuf := strncpy (r.1.getD r.2.tempbuf) EC_PATHSZ 0 r.2.pathbuf })

/-- A call with a path: `ec_open` or `ec_readdir`, which fix it, or
`ec_chdir`. -/
inductive PathCall where
  | fix (path : Option CString)
  | chdir (path : Option CString) (stat : Except Int Nat)

def PathCall.path : PathCall → Option CString
  | .fix path => path
  | .chdir path _ => path

def PathCall.next (s : Paths) : PathCall → Except EcFault Paths
  | .fix path => (fixpath path s).map (·.2)
  | .chdir path stat => (ecChdir path stat s).map (·.2)

/-- A process that makes path calls; the buffers are 0 at its start. -/
def pathSystem : System Paths PathCall where
  init s := s = ⟨fun _ => 0, fun _ => 0⟩
  step s e s' := e.next s = .ok s'

/-! ## the normal form -/

/-- What a component means. -/
def move (c : Bytes) : Move Bytes :=
  if c = [] ∨ c = [46] then .stay else if c = [46, 46] then .up else .down c

/-- The place that the components lead to. -/
def normal (d cs : List Bytes) : List Bytes := Walk.walk d (cs.map move)

/-- The characters of a place. -/
def render (d : List Bytes) : Bytes := if d = [] then [47] else flat d

/-- The string in a buffer. -/
def bufString (m : ByteMem) : Bytes := ((List.range EC_PATHSZ).map m).takeWhile (· ≠ 0)

/-- The components of a path that are not empty. -/
def names (s : Bytes) : List Bytes := (components s).filter (· ≠ [])

/-- Where a path starts. -/
def base (s : Paths) (path : CString) : List Bytes :=
  if path.chars.head? = some 47 then [] else names (bufString s.pathbuf)

/-- Nothing has to be cut: no place on the way is too long. -/
def Uncut (d cs : List Bytes) : Prop := ∀ p, p <+: cs → size (normal d p) ≤ LIMIT

/-- **The path is fixed right**: the result is inside the buffer, it is the
normal form if nothing has to be cut, and fixing it again changes nothing. -/
def FixedRight (s : Paths) (path : CString) : Prop :=
  ∃ tb s', fixpath (some path) s = .ok (some tb, s') ∧
    (Uncut (base s path) (components path.chars) →
      bufString tb = render (normal (base s path) (components path.chars))) ∧
    ∀ again : CString, again.chars = bufString tb →
      ∃ tb' s'', fixpath (some again) s' = .ok (some tb', s'') ∧ bufString tb' = bufString tb

/-- The paths that are fixed right. -/
structure Fixable (s : Paths) (path : CString) : Prop where
  /-- no name comes when the path fills the buffer -/
  room : Roomy (base s path) (components path.chars)
  /-- to go up at every dot ends as deep as to stay, if nothing has to be cut -/
  dots : Uncut (base s path) (components path.chars) →
    depth (base s path).length ((components path.chars).map codeMove) =
      depth (base s path).length ((components path.chars).map move)
  /-- what fits of the last component is a name -/
  last : ∀ d c, codeWalk (base s path) (components path.chars) = d ++ [c] →
    IsName (c.take (LIMIT - 1 - size d))

/-- A call whose path, if there is one, is fixed right. -/
def Meets (s : Paths) (e : PathCall) : Prop := ∀ path, e.path = some path → Fixable s path

/-! ## places and their characters -/

variable {s s' : Paths} {path : CString} {d e cs : List Bytes} {c t : Bytes} {m tb : ByteMem} {len i n : Nat}

theorem components_append_flat (hc : (47 : UInt8) ∉ c) (hd : ∀ b ∈ d, (47 : UInt8) ∉ b) :
    components (c ++ flat d) = c :: d := by
  induction d generalizing c with
  | nil => rw [flat_nil, List.append_nil, components_of_not_mem hc]
  | cons b d ih =>
      have hflat : flat (b :: d) = 47 :: (b ++ flat d) := rfl
      rw [hflat, components_append hc, ih (hd b List.mem_cons_self) fun a ha => hd a (List.mem_cons_of_mem b ha)]

theorem components_flat (hd : ∀ b ∈ d, (47 : UInt8) ∉ b) : components (flat d) = [] :: d :=
  components_append_flat (c := []) List.not_mem_nil hd

theorem Plain.names_flat (h : Plain d) : names (flat d) = d := by
  rw [names, components_flat fun b hb => (h b hb).2.1, List.filter_cons_of_neg (by simp)]
  exact List.filter_eq_self.mpr fun b hb => by simpa using (h b hb).1.1

theorem names_root : names [47] = [] := by decide

theorem Plain.names_render (h : Plain d) : names (render d) = d := by
  rw [render]
  split
  · next h0 => rw [h0, names_root]
  · exact h.names_flat

/-- The characters say which place it is. -/
theorem render_inj (hd : Plain d) (he : Plain e) (h : render d = render e) : d = e := by
  rw [← hd.names_render, h, he.names_render]

theorem size_le_of_sublist (h : d.Sublist e) : size d ≤ size e := by
  induction h with
  | slnil => exact Nat.le_refl _
  | cons a _ ih => exact Nat.le_trans ih (by simp [size, flat]; omega)
  | cons_cons a _ ih =>
      simp only [size, flat, List.flatMap_cons, List.length_append, List.length_cons] at ih ⊢
      omega

/-- The components are parts. -/
theorem part_of_mem (hs : (0 : UInt8) ∉ t) (hc : c ∈ components t) : Part c := by
  induction hn : t.length using Nat.strongRecOn generalizing t with
  | ind n ih =>
      by_cases hslash : (47 : UInt8) ∉ t
      · rw [components_of_not_mem hslash, List.mem_singleton] at hc
        exact hc ▸ ⟨hslash, hs⟩
      obtain ⟨b, r, rfl, hnot⟩ := List.eq_append_cons_of_mem (Decidable.not_not.mp hslash)
      obtain ⟨hb0, hr0⟩ := not_or.mp (mt List.mem_append.mpr hs)
      rw [components_append hnot] at hc
      obtain rfl | hc := List.mem_cons.mp hc
      · exact ⟨hnot, hb0⟩
      · refine ih r.length ?_ (fun h => hr0 (List.mem_cons_of_mem 47 h)) hc rfl
        rw [List.length_append, List.length_cons] at hn
        omega

theorem Plain.normal (hd : Plain d) (hs : (0 : UInt8) ∉ t) : Plain (normal d (components t)) := by
  intro c hc
  obtain hc | hc := mem_walk hc
  · exact hd c hc
  · obtain ⟨b, hb, hmove⟩ := List.mem_map.mp hc
    rw [move] at hmove
    split at hmove
    · contradiction
    · next h0 =>
        split at hmove
        · contradiction
        · next h2 =>
            obtain rfl := Move.down.inj hmove
            obtain ⟨h0, h1⟩ := not_or.mp h0
            exact ⟨⟨h0, h1, h2⟩, part_of_mem hs hb⟩

/-- The code goes up where it should, and at single dots. -/
theorem lower_codeMove : List.Forall₂ Lower (cs.map codeMove) (cs.map move) := by
  rw [List.forall₂_map_left_iff, List.forall₂_map_right_iff]
  refine List.forall₂_same.mpr fun c _ => ?_
  rw [codeMove, move]
  by_cases h0 : c = []
  · rw [if_pos h0, if_pos (.inl h0)]
    exact .refl _
  by_cases h1 : c = [46]
  · rw [if_neg h0, if_pos (.inl h1), if_pos (.inr h1)]
    exact .up
  rw [if_neg h0, if_neg (not_or.mpr ⟨h0, h1⟩)]
  by_cases h2 : c = [46, 46]
  · rw [if_pos (.inr h2), if_pos h2]
    exact .refl _
  · rw [if_neg (not_or.mpr ⟨h1, h2⟩), if_neg h2]
    exact .refl _

theorem codeWalk_sublist : (codeWalk d cs).Sublist (normal d cs) :=
  Lower.walk lower_codeMove (List.Sublist.refl d)

theorem codeWalk_eq_iff : codeWalk d cs = normal d cs ↔
    depth d.length (cs.map codeMove) = depth d.length (cs.map move) := Lower.walk_eq_iff lower_codeMove

/-- If nothing has to be cut, nothing is cut. -/
theorem Uncut.roomy (h : Uncut d cs) : Roomy d cs := by
  intro p c hp hn
  have hle := h (p ++ [c]) hp
  have hmove : Walk.walk d ((p ++ [c]).map move) = normal d p ++ [c] := by
    obtain ⟨h0, h1, h2⟩ := hn
    rw [List.map_append, walk_append, List.map_singleton, move, if_neg (not_or.mpr ⟨h0, h1⟩), if_neg h2]
    rfl
  rw [normal, hmove, size_append] at hle
  have hsub : size (codeWalk d p) ≤ size (normal d p) := size_le_of_sublist codeWalk_sublist
  omega

/-! ## the result -/

/-- What fits of the characters of a place. -/
def kept (d : List Bytes) : Bytes := if d = [] then [47] else (flat d).take LIMIT

theorem kept_of_le (h : size d ≤ LIMIT) : kept d = render d := by
  rw [kept, render, List.take_of_length_le h]

theorem kept_append (h : size d < LIMIT) : kept (d ++ [c]) = flat (d ++ [c.take (LIMIT - 1 - size d)]) := by
  rw [kept, if_neg (by simp), take_flat h, flat_append]

theorem length_kept_le : (kept d).length ≤ LIMIT := by
  rw [kept]
  split
  · decide
  · exact List.length_take_le _ _

theorem Plain.not_mem_kept (h : Plain d) : (0 : UInt8) ∉ kept d := by
  rw [kept]
  split
  · decide
  · exact fun h0 => h.not_mem_flat (List.mem_of_mem_take h0)

/-- **The end of the path**: the NUL, and a slash for the root. -/
theorem finish_holds (h : Holds tb len d) :
    ∃ tb', finish len tb = .ok tb' ∧ CStr (fun _ => True) tb' 0 (kept d) := by
  have hlen : len < EC_PATHSZ := Nat.lt_of_le_of_lt h.length_le (by decide)
  have hplain := h.plain.not_mem_kept
  obtain ⟨s, hs, rfl, hcase⟩ := h.front
  by_cases h0 : s = []
  · have hroot : d = [] := by
      obtain hs | ⟨hd, -⟩ := hcase
      · by_contra hne
        obtain ⟨b, d, rfl⟩ := List.exists_cons_of_ne_nil hne
        rw [h0] at hs
        exact absurd hs (by simp [flat, LIMIT, EC_PATHSZ])
      · exact hd
    rw [finish, h0, if_pos List.length_nil, put_of_lt (by decide), kept, if_pos hroot]
    have hslash : Starts (Function.update tb 0 47) [47] :=
      Starts.append (s := []) fun i hi => absurd hi (Nat.not_lt_zero i)
    exact ⟨_, put_of_lt (by decide), hslash.cstr (by decide)⟩
  · have heq : s = kept d := by
      obtain hs | ⟨hd, hs⟩ := hcase
      · rw [kept, if_neg, hs]
        intro hd
        exact h0 (by rw [hs, hd]; rfl)
      · rw [kept, if_pos hd, hs]
    rw [finish, if_neg (mt List.length_eq_zero_iff.mp h0), put_of_lt hlen]
    rw [← heq] at hplain ⊢
    exact ⟨_, rfl, hs.cstr hplain⟩

theorem bufString_of_cstr (h : CStr (fun _ => True) m 0 t) (hl : t.length < EC_PATHSZ) : bufString m = t := by
  obtain ⟨k, hk⟩ := Nat.exists_eq_add_of_lt hl
  have hfront : (List.range t.length).map m = t := by
    refine List.ext_getElem (by simp) fun i h1 h2 => ?_
    have hb := h.byte i (Nat.le_of_lt h2)
    rw [Nat.zero_add, List.getD_eq_getElem _ _ h2] at hb
    simpa using hb
  have hend : m t.length = 0 := by
    have hb := h.byte t.length (Nat.le_refl _)
    rwa [Nat.zero_add, List.getD_eq_default _ _ (Nat.le_refl _)] at hb
  have hrest : ((List.range (k + 1)).map fun i => m (t.length + i)) =
      0 :: (List.range k).map fun i => m (t.length + (i + 1)) := by
    rw [List.range_succ_eq_map, List.map_cons, Nat.add_zero, hend, List.map_map]
    rfl
  rw [bufString, hk, Nat.add_assoc, List.range_add, List.map_append, hfront, List.map_map]
  change (t ++ (List.range (k + 1)).map fun i => m (t.length + i)).takeWhile _ = t
  rw [hrest, List.takeWhile_append_of_pos fun b hb => by simpa using h.nonzero b hb]
  simp

/-! ## the call -/

/-- The current directory is a place. -/
def Stored (s : Paths) : Prop := ∃ d t, Plain d ∧ size d ≤ LIMIT ∧ CStr (fun _ => True) s.pathbuf 0 t ∧
  (t = flat d ∨ d = [] ∧ t = [47])

theorem Stored.base_plain (h : Stored s) (path : CString) : Plain (base s path) := by
  have hnil : Plain [] := fun _ hc => absurd hc List.not_mem_nil
  rw [base]
  split
  · exact hnil
  obtain ⟨d, t, hd, hsize, hstr, rfl | ⟨rfl, rfl⟩⟩ := h
  · rw [bufString_of_cstr hstr (Nat.lt_of_le_of_lt hsize (by decide)), hd.names_flat]
    exact hd
  · rw [bufString_of_cstr hstr (by decide), names_root]
    exact hnil

/-- **The start** is the current directory, or the root. -/
theorem start_holds (h : Stored s) (path : CString) :
    ∃ len tb, start (literal path.chars) s = .ok (len, tb) ∧ Holds tb len (base s path) := by
  have hfirst : literal path.chars 0 = 47 ↔ path.chars.head? = some 47 := by
    rw [literal]
    cases path.chars <;> simp
  rw [start, base]
  by_cases habs : path.chars.head? = some 47
  · rw [if_neg (not_not_intro (hfirst.mpr habs)), if_pos habs]
    exact ⟨0, s.tempbuf, rfl, holds_root⟩
  rw [if_pos (mt hfirst.mp habs), if_neg habs]
  have hcopy : ∀ {t : Bytes}, CStr (fun _ => True) s.pathbuf 0 t → t.length ≤ LIMIT → ∃ tb,
      ((strlen s.pathbuf EC_PATHSZ 0).bind fun len =>
        (memcpy s.pathbuf (if len < EC_PATHSZ - 2 then len else EC_PATHSZ - 2) 0 0 s.tempbuf).map
          fun tb => (len, tb)) = .ok (t.length, tb) ∧ Starts tb t := by
    intro t ht hle
    have hlimit : LIMIT = EC_PATHSZ - 2 := rfl
    have hsz : EC_PATHSZ = 256 := rfl
    have hmin : (if t.length < EC_PATHSZ - 2 then t.length else EC_PATHSZ - 2) = t.length := by
      split <;> omega
    rw [strlen_eq ht (by omega), Except.bind, hmin, memcpy_eq (by omega)]
    have hnil : Starts s.tempbuf [] := fun i hi => absurd hi (Nat.not_lt_zero i)
    exact ⟨_, rfl, hnil.write (t := t) (cstr_bytes (t := []) (by rwa [List.append_nil]))⟩
  obtain ⟨d, t, hd, hsize, hstr, rfl | ⟨rfl, rfl⟩⟩ := h
  · rw [bufString_of_cstr hstr (Nat.lt_of_le_of_lt hsize (by decide)), hd.names_flat]
    obtain ⟨tb, hok, hs⟩ := hcopy hstr hsize
    exact ⟨_, tb, hok, holds_of_fits hd hs hsize⟩
  · rw [bufString_of_cstr hstr (by decide), names_root]
    obtain ⟨tb, hok, hs⟩ := hcopy hstr (by decide)
    exact ⟨_, tb, hok, hd, by decide, [47], hs, rfl, .inr ⟨rfl, rfl⟩⟩

theorem path_cstr (path : CString) : CStr (fun _ => True) (literal path.chars) 0 path.chars :=
  cstr_literal path.nonzero

/-- **A call with room**: the result is the place that the code walks to, as
far as it fits. -/
theorem fixpath_holds (h : Stored s) (hroom : Roomy (base s path) (components path.chars)) :
    ∃ tb, fixpath (some path) s = .ok (some tb, { s with tempbuf := tb }) ∧
      CStr (fun _ => True) tb 0 (kept (codeWalk (base s path) (components path.chars))) ∧
      Plain (codeWalk (base s path) (components path.chars)) ∧
      size (codeWalk (base s path) (components path.chars)).dropLast < LIMIT := by
  obtain ⟨len, tb, hstart, hold⟩ := start_holds h path
  obtain ⟨len', tb', hloop, hold'⟩ := fixLoop_holds (n := path.chars.length + 1) (path_cstr path)
    (by omega) (Nat.lt_succ_self _) hold hroom
  obtain ⟨tb'', hfinish, hstr⟩ := finish_holds hold'
  refine ⟨tb'', ?_, hstr, hold'.plain, hold'.room⟩
  simp only [fixpath, hstart, Except.bind, hloop, hfinish, Except.map]

/-- **A call without room** writes behind the buffer. -/
theorem fixpath_overrun (h : Stored s) (hroom : ¬ Roomy (base s path) (components path.chars)) :
    fixpath (some path) s = .error .outside := by
  obtain ⟨len, tb, hstart, hold⟩ := start_holds h path
  obtain hloop | ⟨tb', hloop⟩ := fixLoop_overrun (n := path.chars.length + 1) (path_cstr path)
    (by omega) (Nat.lt_succ_self _) hold hroom
  · simp only [fixpath, hstart, Except.bind, hloop]
  · have hfinish : finish EC_PATHSZ tb' = .error .outside := by
      rw [finish, if_neg (by decide), put_of_le (Nat.le_refl _)]
    simp only [fixpath, hstart, Except.bind, hloop, hfinish, Except.map]

/-! ## fixing the result again -/

theorem Plain.codeWalk_eq (h : Plain e) : codeWalk d e = d ++ e := by
  have hmap : e.map codeMove = e.map .down :=
    List.map_congr_left fun c hc => codeMove_of_name (h c hc).1
  rw [codeWalk, hmap, walk_down]

/-- The characters that are kept of a place, taken as a path. -/
theorem refix (hd : Plain d) (hlt : size d < LIMIT) (hc : Part c) :
    Roomy [] (components (flat (d ++ [c]))) ∧
      codeWalk [] (components (flat (d ++ [c]))) = step d (codeMove c) := by
  have hslash : ∀ b ∈ d ++ [c], (47 : UInt8) ∉ b := by
    intro b hb
    obtain hb | hb := List.mem_append.mp hb
    · exact (hd b hb).2.1
    · exact List.mem_singleton.mp hb ▸ hc.1
  rw [components_flat hslash]
  constructor
  · rw [roomy_cons]
    refine ⟨fun hn => absurd rfl hn.1, fun p b hp hn => ?_⟩
    -- what is in front of a component is in front of the last one
    have hpre : p <+: d := by
      obtain ⟨r, hr⟩ := hp
      have hlen := congrArg List.length hr
      simp only [List.length_append, List.length_singleton] at hlen
      refine List.prefix_of_prefix_length_le ⟨[b] ++ r, by rw [← List.append_assoc, hr]⟩
        (List.prefix_append d [c]) (by omega)
    have hplain : Plain p := fun a ha => hd a (hpre.subset ha)
    have hroot : step [] (codeMove []) = ([] : List Bytes) := rfl
    rw [hroot, hplain.codeWalk_eq, List.nil_append]
    exact Nat.lt_of_le_of_lt (size_le_of_sublist hpre.sublist) hlt
  · have hroot : codeWalk [] ([] :: (d ++ [c])) = codeWalk [] (d ++ [c]) := rfl
    rw [hroot, codeWalk, List.map_append, walk_append]
    have hfront : Walk.walk [] (d.map codeMove) = d := hd.codeWalk_eq
    rw [hfront]
    rfl

/-- The result is the same again if what is kept of the last component is a
name. -/
theorem kept_step_iff (hlt : size d < LIMIT) (hn : IsName c) :
    kept (step d (codeMove (c.take (LIMIT - 1 - size d)))) = kept (d ++ [c]) ↔
      IsName (c.take (LIMIT - 1 - size d)) := by
  have hlen : (kept (d ++ [c])).length = size d + ((c.take (LIMIT - 1 - size d)).length + 1) := by
    rw [kept_append hlt, ← size_append]
    rfl
  constructor
  · intro h
    by_contra hnot
    -- a cut that leaves no name leaves two bytes at most
    have hshort : (c.take (LIMIT - 1 - size d)).length ≤ 2 := by
      rw [IsName, not_and_or, not_and_or, not_not, not_not, not_not] at hnot
      obtain h0 | h1 | h2 := hnot
      · simp [h0]
      · simp [h1]
      · simp [h2]
    have hcut : LIMIT - 1 - size d < c.length := by
      by_contra hle
      exact hnot ((List.take_of_length_le (Nat.not_lt.mp hle)).symm ▸ hn)
    have hstep : size (step d (codeMove (c.take (LIMIT - 1 - size d)))) ≤ size d := by
      rw [codeMove]
      split
      · exact Nat.le_refl _
      · next h0 =>
          split
          · exact size_dropLast_le d
          · next hdots => exact absurd ⟨h0, not_or.mp hdots⟩ hnot
    have hlimit : LIMIT = 254 := rfl
    rw [List.length_take] at hshort
    rw [← h, List.length_take, kept_of_le (Nat.le_trans hstep (Nat.le_of_lt hlt)), render] at hlen
    split at hlen
    · rw [List.length_singleton] at hlen
      omega
    · rw [size] at hstep
      omega
  · intro hname
    have hfit : size (d ++ [c.take (LIMIT - 1 - size d)]) ≤ LIMIT := by
      rw [size_append, List.length_take]
      omega
    rw [codeMove_of_name hname, step, kept_of_le hfit, kept_append hlt, render, if_neg (by simp)]

theorem bufString_kept (h : CStr (fun _ => True) m 0 (kept d)) : bufString m = kept d :=
  bufString_of_cstr h (Nat.lt_of_le_of_lt length_kept_le (by decide))

theorem part_take (hc : Part c) : Part (c.take n) :=
  ⟨fun h => hc.1 (List.mem_of_mem_take h), fun h => hc.2 (List.mem_of_mem_take h)⟩

/-- **Fixing the result again** changes nothing if what is kept of the last
component is a name. -/
theorem fixpath_again (h : Stored s) (hd : Plain d) (hroom : size d.dropLast < LIMIT)
    (hpath : path.chars = kept d) :
    ∃ tb, fixpath (some path) s = .ok (some tb, { s with tempbuf := tb }) ∧
      (bufString tb = kept d ↔ ∀ e c, d = e ++ [c] → IsName (c.take (LIMIT - 1 - size e))) := by
  obtain rfl | ⟨e, c, rfl⟩ := d.eq_nil_or_concat
  · have hroot : path.chars = [47] := hpath
    have hbase : base s path = [] := by
      rw [base, hroot]
      rfl
    have hcs : components path.chars = [[], []] := by rw [hroot]; decide
    have hpathroom : Roomy (base s path) (components path.chars) := by
      rw [hbase, hcs, roomy_cons, roomy_cons]
      refine ⟨fun hn => absurd rfl hn.1, fun hn => absurd rfl hn.1, fun p b hp => ?_⟩
      simp at hp
    obtain ⟨tb, hok, hstr, -, -⟩ := fixpath_holds h hpathroom
    rw [hbase, hcs] at hstr
    refine ⟨tb, hok, iff_of_true (bufString_kept hstr) fun e c he => ?_⟩
    simp at he
  · rw [List.concat_eq_append] at *
    rw [List.dropLast_concat] at hroom
    have he : Plain e := fun b hb => hd b (List.mem_append_left _ hb)
    obtain ⟨hname, hpart⟩ := hd c (List.mem_append_right e List.mem_cons_self)
    rw [kept_append hroom] at hpath
    have hbase : base s path = [] := by
      rw [base, if_pos]
      rw [hpath]
      cases e <;> rfl
    obtain ⟨hpathroom, hwalk⟩ := refix he hroom (part_take (n := LIMIT - 1 - size e) hpart)
    rw [← hpath, ← hbase] at hpathroom
    obtain ⟨tb, hok, hstr, -, -⟩ := fixpath_holds h hpathroom
    rw [hbase, hpath, hwalk] at hstr
    refine ⟨tb, hok, ?_⟩
    rw [bufString_kept hstr, kept_step_iff hroom hname]
    constructor
    · intro hn e' c' heq
      obtain ⟨rfl, rfl⟩ := List.append_singleton_inj.mp heq
      exact hn
    · exact fun hall => hall e c rfl

/-- **One call**: which paths are fixed right. -/
theorem fixedRight_iff_of_stored (h : Stored s) (path : CString) :
    FixedRight s path ↔ Fixable s path := by
  have hbase := h.base_plain path
  have hnormal := hbase.normal path.nonzero
  constructor
  · intro ⟨tb, s', hok, hnorm, hagain⟩
    have hroom : Roomy (base s path) (components path.chars) := by
      by_contra hnot
      rw [fixpath_overrun h hnot] at hok
      contradiction
    obtain ⟨tb₁, hok₁, hstr, hplain, hlast⟩ := fixpath_holds h hroom
    rw [hok₁] at hok
    obtain ⟨htb, rfl⟩ := Prod.mk.inj (Except.ok.inj hok)
    obtain rfl := Option.some.inj htb
    rw [bufString_kept hstr] at hnorm hagain
    refine ⟨hroom, fun hun => ?_, ?_⟩
    · have hsize := hun _ (List.prefix_refl _)
      have heq := hnorm hun
      rw [kept_of_le (Nat.le_trans (size_le_of_sublist codeWalk_sublist) hsize)] at heq
      exact codeWalk_eq_iff.mp (render_inj hplain hnormal heq)
    · obtain ⟨again, ha⟩ : ∃ again : CString,
          again.chars = kept (codeWalk (base s path) (components path.chars)) :=
        ⟨⟨_, hplain.not_mem_kept⟩, rfl⟩
      obtain ⟨tb', s'', hok', heq⟩ := hagain again ha
      have hs' : Stored { s with tempbuf := tb₁ } := h
      obtain ⟨tb₂, hok₂, hiff⟩ := fixpath_again hs' hplain hlast ha
      rw [hok₂] at hok'
      obtain ⟨htb, -⟩ := Prod.mk.inj (Except.ok.inj hok')
      obtain rfl := Option.some.inj htb
      exact hiff.mp heq
  · intro hf
    obtain ⟨tb, hok, hstr, hplain, hlast⟩ := fixpath_holds h hf.room
    have hs' : Stored { s with tempbuf := tb } := h
    refine ⟨tb, _, hok, fun hun => ?_, fun again ha => ?_⟩
    · rw [bufString_kept hstr, codeWalk_eq_iff.mpr (hf.dots hun)]
      exact kept_of_le (hun _ (List.prefix_refl _))
    · rw [bufString_kept hstr] at ha ⊢
      obtain ⟨tb', hok', hiff⟩ := fixpath_again hs' hplain hlast ha
      exact ⟨tb', _, hok', hiff.mpr hf.last⟩

/-! ## runs -/

/-- **`strncpy`** of a string that ends within the count. -/
theorem strncpy_eq {src dst : ByteMem} {x : Nat} (h : CStr (fun _ => True) src i t) (hn : t.length < n) :
    strncpy src n i dst x = if i ≤ x ∧ x ≤ i + t.length then src x else dst x := by
  induction t generalizing i n dst with
  | nil =>
      obtain ⟨n, rfl⟩ := Nat.exists_eq_add_of_lt hn
      have h0 := cstr_end h
      rw [strncpy, if_pos (.inl h0), List.length_nil, Nat.add_zero]
      by_cases hx : x = i
      · rw [if_pos (by omega), hx, h0, Function.update_self]
      · rw [if_neg (by omega), Function.update_of_ne hx]
  | cons c t ih =>
      obtain ⟨n, rfl⟩ := Nat.exists_eq_add_of_lt hn
      obtain ⟨hc, h0⟩ := cstr_first h
      rw [strncpy, if_neg (not_or.mpr ⟨by rw [hc]; exact h0, by rw [List.length_cons]; omega⟩),
        ih (cstr_tail h) (by rw [List.length_cons]; omega), List.length_cons]
      by_cases hx : x = i
      · rw [if_neg (by omega), if_pos (by omega), hx, Function.update_self]
      · rw [Function.update_of_ne hx]
        exact if_congr (by omega) rfl rfl

theorem strncpy_cstr {src dst : ByteMem} (h : CStr (fun _ => True) src 0 t) (hn : t.length < n) :
    CStr (fun _ => True) (strncpy src n 0 dst) 0 t where
  nonzero := h.nonzero
  inside := h.inside
  byte k hk := by
    rw [strncpy_eq h hn, if_pos (by omega)]
    exact h.byte k hk

/-- A directory that is stored is what the code keeps of a place. -/
theorem stored_of_kept (hd : Plain d) (hroom : size d.dropLast < LIMIT)
    (hlast : ∀ e c, d = e ++ [c] → IsName (c.take (LIMIT - 1 - size e)))
    (h : CStr (fun _ => True) s.pathbuf 0 (kept d)) : Stored s := by
  obtain rfl | ⟨e, c, rfl⟩ := d.eq_nil_or_concat
  · exact ⟨[], [47], hd, by decide, h, .inr ⟨rfl, rfl⟩⟩
  · rw [List.concat_eq_append] at *
    rw [List.dropLast_concat] at hroom
    rw [kept_append hroom] at h
    have he : Plain e := fun b hb => hd b (List.mem_append_left _ hb)
    have hpart := (hd c (List.mem_append_right e List.mem_cons_self)).2
    refine ⟨_, _, he.append (hlast e c rfl) (part_take hpart), ?_, h, .inl rfl⟩
    rw [size_append, List.length_take]
    omega

/-- **Step lemma**: a call whose path is fixed right leaves a place as the
current directory. -/
theorem Stored.next {call : PathCall} (h : Stored s) (hc : Meets s call) (hs : call.next s = .ok s') :
    Stored s' := by
  have hfix : ∀ path r, call.path = some path → fixpath (some path) s = .ok r →
      ∃ tb, r = (some tb, { s with tempbuf := tb }) ∧
        ∀ pathbuf, Stored ⟨strncpy tb EC_PATHSZ 0 pathbuf, tb⟩ := by
    intro path r hpath hok
    have hf := hc path hpath
    obtain ⟨tb, hok', hstr, hplain, hlast⟩ := fixpath_holds h hf.room
    rw [hok'] at hok
    refine ⟨tb, (Except.ok.inj hok).symm, fun pathbuf => ?_⟩
    refine stored_of_kept hplain hlast hf.last (strncpy_cstr hstr ?_)
    exact Nat.lt_of_le_of_lt length_kept_le (by decide)
  cases call with
  | fix path =>
      cases path with
      | none =>
          obtain rfl := Except.ok.inj hs
          exact h
      | some path =>
          rw [PathCall.next] at hs
          cases hr : fixpath (some path) s with
          | error e =>
              rw [hr] at hs
              contradiction
          | ok r =>
              obtain ⟨tb, rfl, -⟩ := hfix path r rfl hr
              rw [hr] at hs
              obtain rfl := Except.ok.inj hs
              exact h
  | chdir path stat =>
      cases path with
      | none =>
          obtain rfl := Except.ok.inj hs
          exact h
      | some path =>
          rw [PathCall.next, ecChdir] at hs
          cases hr : fixpath (some path) s with
          | error e =>
              rw [hr] at hs
              contradiction
          | ok r =>
              obtain ⟨tb, rfl, hstore⟩ := hfix path r rfl hr
              rw [hr] at hs
              obtain rfl := Except.ok.inj hs
              cases stat with
              | error e => exact h
              | ok flags =>
                  dsimp only
                  split
                  · exact h
                  · exact hstore _

theorem stored_of_reachable (h : pathSystem.Reachable Meets s) : Stored s := by
  refine h.invariant (fun s hs => ?_) fun s call s' hI hc hs => hI.next hc hs
  refine ⟨[], [], fun _ hc => absurd hc List.not_mem_nil, by decide, ⟨?_, ?_, ?_⟩, .inl rfl⟩
  · exact fun _ hx => absurd hx List.not_mem_nil
  · exact fun _ _ => trivial
  · intro i hi
    obtain rfl := Nat.le_zero.mp hi
    rw [hs]
    rfl

/-- **Path fixing**: with the directories that calls with such paths have
stored, a path is fixed right exactly if no name comes when the path fills
the buffer, going up at single dots does not change how deep it ends, and
what fits of its last component is a name. -/
theorem fixedRight_iff (h : pathSystem.Reachable Meets s) (path : CString) :
    FixedRight s path ↔ Fixable s path := fixedRight_iff_of_stored (stored_of_reachable h) path

/-- At the start, in the root. -/
theorem fixedRight_iff_start :
    FixedRight ⟨fun _ => 0, fun _ => 0⟩ ⟨[97, 47, 98], by decide⟩ ↔
      Fixable ⟨fun _ => 0, fun _ => 0⟩ ⟨[97, 47, 98], by decide⟩ :=
  fixedRight_iff (.of_init rfl) _

/-- The path `/a/.` is fixed to the root. -/
theorem not_fixedRight : ¬ ∀ s, pathSystem.Reachable System.Any s → ∀ path, FixedRight s path := by
  intro hall
  have hs : Stored ⟨fun _ => 0, fun _ => 0⟩ := stored_of_reachable (.of_init rfl)
  have hright := hall ⟨fun _ => 0, fun _ => 0⟩ (.of_init rfl) ⟨[47, 97, 47, 46], by decide⟩
  have hdots := ((fixedRight_iff_of_stored hs _).mp hright).dots
  have hbase : base ⟨fun _ => 0, fun _ => 0⟩ ⟨[47, 97, 47, 46], by decide⟩ = [] := rfl
  have hcs : components [47, 97, 47, 46] = [[], [97], [46]] := by decide
  dsimp only at hdots
  rw [hbase, hcs] at hdots
  have huncut : ∀ p ∈ ([[], [97], [46]] : List Bytes).inits, size (normal [] p) ≤ LIMIT := by decide
  exact absurd (hdots fun p hp => huncut p ((List.mem_inits _ _).mpr hp)) (by decide)

end Ec

end Eclair
