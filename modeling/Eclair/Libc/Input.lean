import Eclair.Libc.Stdio
import Eclair.Lib.Fuel

/-!
# Eclair.Libc.Input

The input side of a stream of `libc/stdio.c`: `fgetc` and `fgets`.

What the reads of the descriptor give is a list of replies, of any sizes;
behind them the file is at its end.  `Avail` says which bytes a stream will
give before it reports an end, and `fgets` is about these: it takes a line,
keeps what fits of it, and gives nothing of a line without a newline.
-/

namespace Eclair

namespace Stdio

open Fuel

/-- The input side of a `FILE`; `rbuf` is its first `rcnt` bytes. -/
structure InStream where
  errno : Int
  rpos : Nat
  rbuf : Bytes
  eof : Bool

/-- What an `ec_read` gives: bytes, or a negative result. -/
inductive Reply where
  | data (b : Bytes)
  | fail (nread : Int)

/-- A stream, and what its reads will give; behind that they give `EOF`. -/
structure Input where
  stream : InStream
  replies : List Reply

/-- A file that was just opened. -/
def openInput (replies : List Reply) : Input := ⟨⟨0, 0, [], false⟩, replies⟩

/-- `ec_read` into an empty read buffer, and what `fgetc` makes of it. -/
def readMore (s : InStream) : List Reply → Int × Input
  | [] => (EOF, ⟨{ s with eof := true }, []⟩)
  | .fail nread :: replies =>
      if nread = EOF then (EOF, ⟨{ s with eof := true }, replies⟩)
      else (EOF, ⟨{ s with errno := -nread }, replies⟩)
  | .data b :: replies =>
      match b with
      | [] => (EOF, ⟨s, replies⟩)
      | c :: b => (c.toNat, ⟨{ s with rbuf := c :: b, rpos := 1 }, replies⟩)

/-- `fgetc`. -/
def fgetc (i : Input) : Int × Input :=
  if i.stream.errno ≠ 0 ∨ i.stream.eof then (EOF, i)
  else if i.stream.rbuf.length ≤ i.stream.rpos then
    readMore { i.stream with rbuf := [], rpos := 0 } i.replies
  else ((i.stream.rbuf.getD i.stream.rpos 0).toNat,
    { i with stream := { i.stream with rpos := i.stream.rpos + 1 } })

/-- The loop of `fgets`, with the characters stored so far. -/
def fgetsLoop (n : Nat) : Bytes → Input → Nat → Except (Stop StdioFault) (Int × Bytes × Input)
  | _, _, 0 => .error .fuel
  | s, i, k + 1 =>
      let r := fgetc i
      let s := if r.1 ≠ EOF ∧ s.length < n - 1 then s ++ [UInt8.ofInt r.1] else s
      if r.1 ≠ EOF ∧ r.1 ≠ 10 then fgetsLoop n s r.2 k else .ok (r.1, s, r.2)

/-- The characters in front of the first NUL. -/
def asString (s : Bytes) : Bytes := s.takeWhile (· ≠ 0)

/-- `fgets`: the string at `s`, or `NULL`. -/
def fgets (n : Nat) (i : Input) (k : Nat) : Except (Stop StdioFault) (Option Bytes × Input) :=
  (fgetsLoop n [] i k).bind fun r =>
    .ok (if r.1 = EOF then none else some (asString r.2.1), r.2.2)

/-- The strings that `fgets` gives, call after call, until it gives `NULL`. -/
def fgetsAll (n : Nat) : Input → Nat → Except (Stop StdioFault) (List Bytes)
  | _, 0 => .error .fuel
  | i, k + 1 => (fgets n i k).bind fun r =>
      match r.1 with
      | none => .ok []
      | some l => (fgetsAll n r.2 k).bind fun ls => .ok (l :: ls)

/-! ## what a stream will give -/

/-- The bytes in front of the first read that gives none. -/
def ahead (chunks : List Bytes) : Bytes := (chunks.takeWhile (· ≠ [])).flatten

/-- These bytes come before the stream reports an end. -/
structure Avail (i : Input) (t : Bytes) : Prop where
  errno : i.stream.errno = 0
  eof : i.stream.eof = false
  bytes : ∃ chunks, i.replies = chunks.map .data ∧
    t = i.stream.rbuf.drop i.stream.rpos ++ ahead chunks

/-- The text is some lines, each with a newline behind it, and a rest without one. -/
structure Lines (t : Bytes) (bodies : List Bytes) (tail : Bytes) : Prop where
  eq : t = (bodies.map (· ++ [10])).flatten ++ tail
  bodies : ∀ l ∈ bodies, (10 : UInt8) ∉ l
  tail : (10 : UInt8) ∉ tail

/-- The strings that `fgets` gives are the contents of the file, each but the last of them `n - 1`
characters long or ended by a newline. -/
def Reproduces (n : Nat) (chunks : List Bytes) : Prop :=
  ∃ ls, Returns (fgetsAll n (openInput (chunks.map .data))) ls ∧ ls.flatten = chunks.flatten ∧
    ∀ l ∈ ls.dropLast, l.length = n - 1 ∨ l.getLast? = some 10

/-- No read gives nothing while there is more to come, and the contents are lines of at most `n - 1`
characters, with their newlines. -/
structure Short (n : Nat) (chunks : List Bytes) : Prop where
  noGap : ∀ pre post, chunks = pre ++ [] :: post → post.flatten = []
  lines : ∃ bodies, Lines chunks.flatten bodies [] ∧ ∀ l ∈ bodies, l.length + 1 ≤ n - 1

variable {i : Input} {t l p tail : Bytes} {bodies chunks : List Bytes} {c : UInt8} {n : Nat}

theorem avail_openInput (chunks : List Bytes) : Avail (openInput (chunks.map .data)) (ahead chunks) :=
  ⟨rfl, rfl, chunks, rfl, rfl⟩

/-- **`fgetc`** at the end of what is there. -/
theorem Avail.fgetc_nil (h : Avail i []) : (fgetc i).1 = EOF := by
  obtain ⟨herr, heof, chunks, hrep, ht⟩ := h
  obtain ⟨hbuf, hahead⟩ := List.append_eq_nil_iff.mp ht.symm
  have hle := List.drop_eq_nil_iff.mp hbuf
  rw [fgetc, if_neg (by simp [herr, heof]), if_pos hle, hrep]
  cases chunks with
  | nil => rfl
  | cons b chunks =>
      cases b with
      | nil => rfl
      | cons c b => simp [ahead] at hahead

/-- **`fgetc`** of a byte. -/
theorem Avail.fgetc_cons (h : Avail i (c :: t)) :
    (fgetc i).1 = c.toNat ∧ Avail (fgetc i).2 t := by
  obtain ⟨herr, heof, chunks, hrep, ht⟩ := h
  rw [fgetc, if_neg (by simp [herr, heof])]
  by_cases hle : i.stream.rbuf.length ≤ i.stream.rpos
  · rw [if_pos hle, hrep]
    rw [List.drop_eq_nil_iff.mpr hle, List.nil_append] at ht
    cases chunks with
    | nil => contradiction
    | cons b chunks =>
        cases b with
        | nil => contradiction
        | cons d b =>
            have hahead : ahead ((d :: b) :: chunks) = d :: (b ++ ahead chunks) := by simp [ahead]
            obtain ⟨rfl, rfl⟩ := List.cons.inj (ht.trans hahead)
            exact ⟨rfl, herr, heof, chunks, rfl, rfl⟩
  · rw [if_neg hle]
    have hlt := Nat.not_le.mp hle
    rw [List.drop_eq_getElem_cons hlt, List.cons_append] at ht
    obtain ⟨hc, rfl⟩ := List.cons.inj ht
    refine ⟨?_, herr, heof, chunks, hrep, rfl⟩
    rw [List.getD_eq_getElem?_getD, List.getElem?_eq_getElem hlt, hc]
    rfl

theorem byte_ne_eof : (c.toNat : Int) ≠ EOF := by
  rw [EOF]
  omega

/-- A character is stored if there is room for it. -/
theorem store_take : (if (c.toNat : Int) ≠ EOF ∧ (p.take n).length < n then
    p.take n ++ [UInt8.ofInt c.toNat] else p.take n) = (p ++ [c]).take n := by
  rw [List.length_take]
  by_cases h : p.length < n
  · rw [if_pos ⟨byte_ne_eof, by omega⟩, ofInt_natCast, List.take_of_length_le (by omega),
      List.take_of_length_le (by simp; omega)]
  · rw [if_neg (by omega), List.take_append_of_le_length (by omega)]

/-- A line without the newline, from the characters `p` on. -/
theorem fgetsLoop_line (h : Avail i (l ++ 10 :: t)) (hl : (10 : UInt8) ∉ l) :
    ∃ j, Returns (fgetsLoop n (p.take (n - 1)) i) (10, (p ++ l ++ [10]).take (n - 1), j) ∧
      Avail j t := by
  induction l generalizing i p with
  | nil =>
      obtain ⟨hc, hrest⟩ := h.fgetc_cons
      refine ⟨(fgetc i).2, .of_succ rfl ?_, hrest⟩
      simp only [fgetsLoop, hc, store_take, List.append_nil]
      exact returns_ok
  | cons c l ih =>
      obtain ⟨hne, hl⟩ := not_or.mp (mt List.mem_cons.mpr hl)
      obtain ⟨hc, hrest⟩ := h.fgetc_cons
      obtain ⟨j, hj, ht⟩ := ih (p := p ++ [c]) hrest hl
      rw [List.append_assoc p, List.singleton_append] at hj
      have hgo : (c.toNat : Int) ≠ EOF ∧ (c.toNat : Int) ≠ 10 :=
        ⟨byte_ne_eof, fun h => hne (UInt8.toNat_inj.mp (Int.ofNat_inj.mp h)).symm⟩
      refine ⟨j, .of_succ rfl ?_, ht⟩
      simp only [fgetsLoop, hc, store_take, if_pos hgo]
      exact hj

/-- A rest without a newline. -/
theorem fgetsLoop_tail (h : Avail i l) (hl : (10 : UInt8) ∉ l) :
    ∃ s j, Returns (fgetsLoop n (p.take (n - 1)) i) (EOF, s, j) := by
  induction l generalizing i p with
  | nil =>
      refine ⟨p.take (n - 1), (fgetc i).2, .of_succ rfl ?_⟩
      simp only [fgetsLoop, h.fgetc_nil, ne_eq, not_true, false_and, if_false]
      exact returns_ok
  | cons c l ih =>
      obtain ⟨hne, hl⟩ := not_or.mp (mt List.mem_cons.mpr hl)
      obtain ⟨hc, hrest⟩ := h.fgetc_cons
      obtain ⟨s, j, hj⟩ := ih (p := p ++ [c]) hrest hl
      have hgo : (c.toNat : Int) ≠ EOF ∧ (c.toNat : Int) ≠ 10 :=
        ⟨byte_ne_eof, fun h => hne (UInt8.toNat_inj.mp (Int.ofNat_inj.mp h)).symm⟩
      refine ⟨s, j, .of_succ rfl ?_⟩
      simp only [fgetsLoop, hc, store_take, if_pos hgo]
      exact hj

/-- What `fgets` keeps of a line. -/
def kept (n : Nat) (l : Bytes) : Bytes := asString ((l ++ [10]).take (n - 1))

theorem fgets_of_loop {r : Int × Bytes × Input} (h : Returns (fgetsLoop n [] i) r) :
    Returns (fgets n i) (if r.1 = EOF then none else some (asString r.2.1), r.2.2) :=
  h.bind (g := fun (r : Int × Bytes × Input) _ =>
    .ok (if r.1 = EOF then none else some (asString r.2.1), r.2.2))
    returns_ok

/-- **`fgets`** of a line. -/
theorem fgets_line (h : Avail i (l ++ 10 :: t)) (hl : (10 : UInt8) ∉ l) :
    ∃ j, Returns (fgets n i) (some (kept n l), j) ∧ Avail j t := by
  obtain ⟨j, hj, ht⟩ := fgetsLoop_line (n := n) (p := []) h hl
  rw [List.take_nil] at hj
  exact ⟨j, fgets_of_loop hj, ht⟩

/-- **`fgets`** without a newline. -/
theorem fgets_tail (h : Avail i l) (hl : (10 : UInt8) ∉ l) :
    ∃ j, Returns (fgets n i) (none, j) := by
  obtain ⟨s, j, hj⟩ := fgetsLoop_tail (n := n) (p := []) h hl
  rw [List.take_nil] at hj
  exact ⟨j, fgets_of_loop hj⟩

/-- **All calls** of `fgets`. -/
theorem fgetsAll_lines (h : Avail i t) (hl : Lines t bodies tail) :
    Returns (fgetsAll n i) (bodies.map (kept n)) := by
  obtain ⟨rfl, hb, htail⟩ := hl
  induction bodies generalizing i with
  | nil =>
      obtain ⟨j, hj⟩ := fgets_tail (n := n) h htail
      exact .of_succ rfl (hj.bind returns_ok)
  | cons l bodies ih =>
      rw [List.map_cons, List.flatten_cons, List.append_assoc, List.append_assoc,
        List.singleton_append] at h
      obtain ⟨j, hj, hrest⟩ := fgets_line (n := n) h (hb l List.mem_cons_self)
      have hall := ih (fun x hx => hb x (List.mem_cons_of_mem _ hx)) hrest
      exact .of_succ rfl (hj.bind (hall.bind returns_ok))

/-! ## the contents of a file -/

theorem exists_lines (t : Bytes) : ∃ bodies tail, Lines t bodies tail := by
  induction t with
  | nil => exact ⟨[], [], rfl, by simp, by simp⟩
  | cons c t ih =>
      obtain ⟨bodies, tail, rfl, hb, htail⟩ := ih
      by_cases hc : c = 10
      · exact ⟨[] :: bodies, tail, by simp [hc], by simpa using hb, htail⟩
      · cases bodies with
        | nil => exact ⟨[], c :: tail, rfl, by simp, by simp [Ne.symm hc, htail]⟩
        | cons l bodies =>
            refine ⟨(c :: l) :: bodies, tail, rfl, ?_, htail⟩
            simpa [Ne.symm hc] using hb

@[simp] theorem ahead_cons_nil : ahead ([] :: chunks) = [] := rfl

@[simp] theorem ahead_cons_cons : ahead ((c :: p) :: chunks) = c :: p ++ ahead chunks := by
  simp [ahead]

theorem length_ahead_le (chunks : List Bytes) : (ahead chunks).length ≤ chunks.flatten.length := by
  induction chunks with
  | nil => exact Nat.le_refl _
  | cons p chunks ih =>
      cases p with
      | nil => simp
      | cons c p => simpa using ih

/-- An empty read ends what comes. -/
theorem length_ahead_gap_le (pre post : List Bytes) :
    (ahead (pre ++ [] :: post)).length ≤ pre.flatten.length := by
  induction pre with
  | nil => simp
  | cons p pre ih =>
      cases p with
      | nil => simp
      | cons c p => simpa using ih

theorem ahead_of_noGap (h : ∀ pre post, chunks = pre ++ [] :: post → post.flatten = []) :
    ahead chunks = chunks.flatten := by
  induction chunks with
  | nil => rfl
  | cons p chunks ih =>
      cases p with
      | nil => simp [h [] chunks rfl]
      | cons c p =>
          rw [ahead_cons_cons, List.flatten_cons, ih]
          intro pre post hchunks
          exact h ((c :: p) :: pre) post (by rw [hchunks, List.cons_append])

theorem length_kept_le : (kept n l).length ≤ n - 1 ∧ (kept n l).length ≤ l.length + 1 := by
  have hle : (kept n l).length ≤ _ := (List.takeWhile_sublist _).length_le
  rw [List.length_take, List.length_append, List.length_singleton] at hle
  omega

theorem kept_of_short (h0 : (0 : UInt8) ∉ l) (h : l.length + 1 ≤ n - 1) : kept n l = l ++ [10] := by
  rw [kept, List.take_of_length_le (by simpa using h), asString, ← List.append_nil (l ++ [10]),
    List.takeWhile_append_of_pos (by grind), List.takeWhile_nil]

theorem length_flatten_kept_le (n : Nat) (bodies : List Bytes) :
    (bodies.map (kept n)).flatten.length ≤ (bodies.map (· ++ [10])).flatten.length := by
  induction bodies with
  | nil => exact Nat.le_refl _
  | cons l bodies ih =>
      have hl := (length_kept_le (n := n) (l := l)).2
      simp only [List.map_cons, List.flatten_cons, List.length_append, List.length_singleton]
      omega

/-- Lines that lose nothing are short. -/
theorem short_of_length_le
    (h : (bodies.map (· ++ [10])).flatten.length ≤ (bodies.map (kept n)).flatten.length) :
    ∀ l ∈ bodies, l.length + 1 ≤ n - 1 := by
  induction bodies with
  | nil => simp
  | cons l bodies ih =>
      have hl := length_kept_le (n := n) (l := l)
      have hrest := length_flatten_kept_le n bodies
      simp only [List.map_cons, List.flatten_cons, List.length_append, List.length_singleton] at h
      exact List.forall_mem_cons.mpr ⟨by omega, ih (by omega)⟩

theorem reproduces_of_short (h0 : (0 : UInt8) ∉ chunks.flatten) (h : Short n chunks) :
    Reproduces n chunks := by
  obtain ⟨hgap, bodies, hl, hshort⟩ := h
  have hkept : ∀ l ∈ bodies, kept n l = l ++ [10] := by
    intro l hmem
    refine kept_of_short (fun hz => h0 ?_) (hshort l hmem)
    rw [hl.eq]
    simp only [List.append_nil, List.mem_flatten, List.mem_map]
    exact ⟨l ++ [10], ⟨l, hmem, rfl⟩, List.mem_append_left _ hz⟩
  have hall := fgetsAll_lines (n := n) (avail_openInput chunks) (ahead_of_noGap hgap ▸ hl)
  rw [List.map_congr_left hkept] at hall
  refine ⟨_, hall, by simpa using hl.eq.symm, fun s hs => .inr ?_⟩
  obtain ⟨l, -, rfl⟩ := List.mem_map.mp (List.dropLast_subset _ hs)
  exact List.getLast?_concat

theorem short_of_reproduces (h : Reproduces n chunks) : Short n chunks := by
  obtain ⟨ls, hls, heq, -⟩ := h
  obtain ⟨bodies, tail, hl⟩ := exists_lines (ahead chunks)
  obtain ⟨m, hm⟩ := hls.exists_ok
  obtain rfl := (fgetsAll_lines (n := n) (avail_openInput chunks) hl).eq_of_ok hm
  -- what is stored is at most as long as what comes, and that as the contents
  have hkept := length_flatten_kept_le n bodies
  have hahead := length_ahead_le chunks
  have hlen := congrArg List.length hl.eq
  rw [List.length_append] at hlen
  rw [heq] at hkept
  have htail : tail = [] := List.length_eq_zero_iff.mp (by omega)
  subst htail
  have hgap : ∀ pre post, chunks = pre ++ [] :: post → post.flatten = [] := by
    intro pre post hchunks
    have hgap := length_ahead_gap_le pre post
    have hflat := congrArg (fun c => c.flatten.length) hchunks
    simp only [List.flatten_append, List.flatten_cons, List.length_append, List.length_nil] at hflat
    rw [← hchunks] at hgap
    exact List.length_eq_zero_iff.mp (by omega)
  rw [ahead_of_noGap hgap] at hl
  refine ⟨hgap, bodies, hl, short_of_length_le ?_⟩
  rw [heq, hl.eq, List.append_nil]

/-- **The file is reproduced** exactly if it is all short lines that end with a newline, and no
read gives nothing too early. -/
theorem reproduces_iff (h0 : (0 : UInt8) ∉ chunks.flatten) : Reproduces n chunks ↔ Short n chunks :=
  ⟨short_of_reproduces, reproduces_of_short h0⟩

/-- The lines `a` and `bc`, read as `a`, a newline and `b`, and then the rest. -/
theorem reproduces_iff_example :
    (0 : UInt8) ∉ [[97, 10, 98], [99, 10]].flatten ∧ Reproduces 4 [[97, 10, 98], [99, 10]] := by
  refine ⟨by decide, (reproduces_iff (by decide)).mpr ⟨?_, [[97], [98, 99]], ⟨rfl, ?_, ?_⟩, ?_⟩⟩
  · intro pre post h
    have hmem : ([] : Bytes) ∈ [[97, 10, 98], [99, 10]] := h ▸ by simp
    simp at hmem
  all_goals simp

theorem not_reproduces_of_fgetsAll (k : Nat) (ls : List Bytes)
    (h : fgetsAll n (openInput (chunks.map .data)) k = .ok ls) (hne : ls.flatten ≠ chunks.flatten) :
    ¬Reproduces n chunks := by
  intro hrep
  obtain ⟨ls', hret, heq, -⟩ := hrep
  exact hne (hret.eq_of_ok h ▸ heq)

/-- **A line without a newline** is lost, and so is what does not fit, and what comes behind a
read that gives nothing. -/
theorem not_reproduces : ¬Reproduces 10 [[97, 98]] ∧ ¬Reproduces 3 [[97, 98, 99, 10]] ∧
    ¬Reproduces 10 [[], [97, 10]] :=
  ⟨not_reproduces_of_fgetsAll 9 [] rfl (by decide),
    not_reproduces_of_fgetsAll 9 [[97, 98]] rfl (by decide),
    not_reproduces_of_fgetsAll 9 [] rfl (by decide)⟩

end Stdio

end Eclair
