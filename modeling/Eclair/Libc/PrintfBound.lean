import Mathlib.Data.List.GetD
import Eclair.Libc.Printf

/-!
# Eclair.Libc.PrintfBound

What `vsnprintf` leaves in the buffer: the front of the text, as far as it
fits.

A conversion that reports an error ends the text, and the NUL is not stored.
With a size of 0 the bound `size-1` wraps around, so that nothing is cut.
-/

namespace Eclair

namespace Printf

open ByteMem

/-! ## the text -/

/-- The text that some calls write. -/
def text (calls : List Call) : Bytes := calls.flatMap fun c => match c with
  | .wr buf => buf
  | .store _ => []

/-- The text that is produced without a bound. -/
def fullText (fmt : Bytes) (args : List Arg) : Option Bytes :=
  (interncalls [] 0 fmt args).map fun r => text r.1

/-- Every conversion finds an argument of its kind. -/
def Matches (fmt : Bytes) (args : List Arg) : Prop := (interncalls [] 0 fmt args).isSome = true

/-- The memory has these characters at `s`, and a NUL behind them. -/
structure HasString (m : ByteMem) (s : Nat) (t : Bytes) : Prop where
  chars : ∀ i, i < t.length → m (s + i) = t.getD i 0
  nul : m (s + t.length) = 0

/-- Whatever is in memory, `vsnprintf` changes no byte but the `n` at `s`, and leaves there the first
`n - 1` characters of the text, and a NUL. -/
def Bounded (s n : Nat) (fmt : Bytes) (args : List Arg) : Prop :=
  ∀ m, ∃ r info t, vsnprintf s n fmt args m = some (r, info) ∧ fullText fmt args = some t ∧
    (∀ a, info.mem a ≠ m a → s ≤ a ∧ a < s + n) ∧
    (0 < n → HasString info.mem s (t.take (n - 1)))

/-! ## conversions that report an error -/

/-- The conversion reports an error: those of floating point numbers, the lengths `z` and `L` of a
number and `t` of an unsigned one, and the string at the null pointer. -/
def Fspec.reports (spec : Fspec) (args : List Arg) : Bool :=
  match spec.conv with
  | none => false
  | some .int => spec.len ∈ [.size, .ldouble]
  | some .octal => spec.len ∈ [.size, .ldouble, .ptrdiff]
  | some .uint => spec.len ∈ [.size, .ldouble, .ptrdiff]
  | some .hex => spec.len ∈ [.size, .ldouble, .ptrdiff]
  | some .double => true
  | some .exp => true
  | some .expauto => true
  | some .hexexp => true
  | some .char => false
  | some .str => args.head? = some (.str none)
  | some .ptr => false
  | some .nchars => false

/-- The conversion produces no character: none at all, the count, and an empty string. -/
def Fspec.silent (spec : Fspec) (args : List Arg) : Bool :=
  match spec.conv with
  | none => true
  | some .nchars => true
  | some .str => args.head? = some (.str (some [])) && spec.width = 0
  | _ => false

/-- The arguments that it takes. -/
def Fspec.takes (spec : Fspec) : Nat := if spec.conv = none then 0 else 1

/-- The format specifiers of a format, each with the characters in front. -/
def specs : Bytes → Nat → Bytes → List (Bytes × Fspec)
  | _, _, [] => []
  | lit, skip + 1, _ :: fmt => specs lit skip fmt
  | lit, 0, c :: fmt =>
      if c = 37 then
        let r := readfspec fmt
        (lit, r.1) :: specs [] (fmt.length - r.2.length) fmt
      else specs (lit ++ [c]) 0 fmt

/-- Some conversion reports an error. -/
def reports : List (Bytes × Fspec) → List Arg → Bool
  | [], _ => false
  | (_, spec) :: ps, args => spec.reports args || reports ps (args.drop spec.takes)

/-- Some conversion reports an error, and nothing in front of it produces a character. -/
def reportsFirst : List (Bytes × Fspec) → List Arg → Bool
  | [], _ => false
  | (lit, spec) :: ps, args =>
      lit.isEmpty && (spec.reports args || spec.silent args && reportsFirst ps (args.drop spec.takes))

variable {spec : Fspec} {args : List Arg} {d : Done} {calls : List Call} {lit fmt t buf : Bytes}
variable {ok : Bool} {base k n s skip : Nat} {upper : Bool} {v : Nat} {m : ByteMem} {info : Finfo}

@[simp] theorem text_nil : text [] = [] := rfl

@[simp] theorem text_append (c d : List Call) : text (c ++ d) = text c ++ text d :=
  List.flatMap_append

@[simp] theorem text_wr : text (.wr buf :: calls) = buf ++ text calls := rfl

@[simp] theorem text_store (p : Nat) : text (.store p :: calls) = text calls := rfl

theorem text_flush : text (flush lit) = lit := by
  rw [flush]
  split
  · next h => rw [h, text_nil]
  · simp

theorem digits_ne_nil (h : v ≠ 0) : digits base upper (k + 1) v ≠ [] := by simp [digits, h]

theorem intDigits_ne_nil {v : Int} (h : v ≠ 0) : intDigits (k + 1) v ≠ [] := by simp [intDigits, h]

/-- What a conversion does: it reports an error and writes nothing, or it takes its argument, and
produces characters unless it is silent. -/
structure Does (reports silent : Bool) (takes : Nat) (args : List Arg) (d : Done) : Prop where
  code : d.code < 0 ↔ reports = true
  nothing : reports = true → text d.calls = []
  left : reports = false → d.args = args.drop takes
  chars : reports = false → (text d.calls = [] ↔ silent = true)

theorem does_failed {silent : Bool} {takes : Nat} {rest : List Arg} (h : failed rest = some d) :
    Does true silent takes args d := by
  obtain rfl := Option.some.inj h
  exact {
    code := iff_of_true (show (-1 : Int) < 0 by decide) rfl
    nothing := fun _ => rfl
    left := fun h => nomatch h
    chars := fun h => nomatch h }

theorem does_written {a : Arg} (hd : d.code = 0) (ha : d.args = args) (hc : text d.calls ≠ []) :
    Does false false 1 (a :: args) d where
  code := by simp [hd]
  nothing h := nomatch h
  left _ := ha
  chars _ := by simp [hc]

theorem does_number {a : Arg} (h : (if v = 0 then some ⟨[.wr [48]], 0, args⟩
      else some ⟨psign spec ++ [.wr (digits base upper 32 v)], 0, args⟩ : Option Done) = some d) :
    Does false false 1 (a :: args) d := by
  split at h
  · obtain rfl := Option.some.inj h
    exact does_written rfl rfl (by simp)
  · next hv =>
      obtain rfl := Option.some.inj h
      exact does_written rfl rfl (by simp [digits_ne_nil hv])

theorem does_unsigned (h : finfowrUnsigned base upper spec args = some d) :
    Does (spec.len ∈ [.size, .ldouble, .ptrdiff]) false 1 args d := by
  unfold finfowrUnsigned at h
  cases hlen : spec.len with
  | ptrdiff =>
      rw [hlen] at h
      exact does_failed h
  | ldouble =>
      rw [hlen] at h
      exact does_failed h
  | size =>
      rw [hlen] at h
      dsimp only at h
      split at h
      · exact does_failed h
      · contradiction
  | llong =>
      rw [hlen] at h
      dsimp only at h
      split at h
      · exact does_number h
      · contradiction
  | _ =>
      rw [hlen] at h
      dsimp only at h
      split at h
      · exact does_number h
      · contradiction

theorem does_int (h : finfowrInt spec args = some d) :
    Does (spec.len ∈ [.size, .ldouble]) false 1 args d := by
  have hvalue : ∀ (v : Int) (a : Arg) (args : List Arg),
      (if v = 0 then some ⟨[.wr [48]], 0, args⟩
        else if v < 0 then some ⟨[.wr [45], .wr (intDigits 32 (neg64 v))], 0, args⟩
        else some ⟨psign spec ++ [.wr (intDigits 32 v)], 0, args⟩ : Option Done) = some d →
      Does false false 1 (a :: args) d := by
    intro v a args h
    split at h
    · obtain rfl := Option.some.inj h
      exact does_written rfl rfl (by simp)
    · next hv =>
        split at h
        · obtain rfl := Option.some.inj h
          exact does_written rfl rfl (by simp)
        · obtain rfl := Option.some.inj h
          exact does_written rfl rfl (by simp [intDigits_ne_nil hv])
  unfold finfowrInt at h
  cases hlen : spec.len with
  | size =>
      rw [hlen] at h
      have hdoes := does_unsigned h
      rw [hlen] at hdoes
      exact hdoes
  | ldouble =>
      rw [hlen] at h
      exact does_failed h
  | llong =>
      rw [hlen] at h
      dsimp only at h
      split at h
      · exact hvalue _ _ _ h
      · contradiction
  | _ =>
      rw [hlen] at h
      dsimp only at h
      split at h
      · exact hvalue _ _ _ h
      · contradiction

theorem does_ptr (h : finfowrPtr spec args = some d) : Does false false 1 args d := by
  obtain ⟨e, he, rfl⟩ := Option.map_eq_some_iff.mp h
  have hhex := does_unsigned he
  exact ⟨hhex.code, fun h => (nomatch h), hhex.left, fun _ => by simp⟩

theorem does_str (h : finfowrStr spec args = some d) :
    Does (args.head? = some (.str none)) (args.head? = some (.str (some [])) && spec.width = 0) 1
      args d := by
  unfold finfowrStr at h
  split at h
  · exact does_failed h
  · next str args =>
      obtain rfl := Option.some.inj h
      refine ⟨by simp, fun h => by simp at h, fun _ => rfl, fun _ => ?_⟩
      cases str with
      | cons c str => simp
      | nil =>
          by_cases hw : spec.width = 0
          · simp [hw]
          · cases spec.paddir <;> simp [hw, Nat.pos_of_ne_zero hw, text]
  · contradiction

/-- **One conversion.** -/
theorem finfowrFspec_does (h : finfowrFspec spec args = some d) :
    Does (spec.reports args) (spec.silent args) spec.takes args d := by
  unfold finfowrFspec at h
  rw [Fspec.reports, Fspec.silent, Fspec.takes]
  cases hconv : spec.conv with
  | none =>
      rw [hconv] at h
      obtain rfl := Option.some.inj h
      exact ⟨by simp, fun h => (nomatch h), fun _ => rfl, fun _ => by simp⟩
  | some kind =>
      rw [hconv] at h
      cases kind with
      | int => exact does_int h
      | octal => exact does_unsigned h
      | uint => exact does_unsigned h
      | hex => exact does_unsigned h
      | double => exact does_failed h
      | exp => exact does_failed h
      | expauto => exact does_failed h
      | hexexp => exact does_failed h
      | str => exact does_str h
      | ptr => exact does_ptr h
      | char =>
          dsimp only at h
          unfold finfowrChar at h
          split at h
          · obtain rfl := Option.some.inj h
            exact does_written rfl rfl (by simp)
          · contradiction
      | nchars =>
          dsimp only at h
          unfold finfowrNchars at h
          split at h
          · obtain rfl := Option.some.inj h
            exact ⟨by simp, fun h => (nomatch h), fun _ => rfl, fun _ => by simp⟩
          · contradiction

/-- **The whole format**: it is gone through to its end unless a conversion reports an error. -/
theorem interncalls_spec (h : interncalls lit skip fmt args = some (calls, ok)) :
    ok = !reports (specs lit skip fmt) args ∧
      (ok = false → (text calls = [] ↔ reportsFirst (specs lit skip fmt) args = true)) := by
  induction fmt generalizing lit skip args calls with
  | nil =>
      obtain ⟨-, rfl⟩ : flush lit = calls ∧ true = ok := by
        cases skip <;> simpa [interncalls] using h
      cases skip <;> exact ⟨rfl, fun h => nomatch h⟩
  | cons c fmt ih =>
      cases skip with
      | succ skip => exact ih h
      | zero =>
          rw [interncalls] at h
          rw [specs]
          by_cases hc : c = 37
          · rw [if_pos hc] at h ⊢
            obtain ⟨d, hd, h⟩ := Option.bind_eq_some_iff.mp h
            have hdoes := finfowrFspec_does hd
            dsimp only [reports, reportsFirst]
            cases hr : (readfspec fmt).1.reports args with
            | true =>
                rw [if_pos (hdoes.code.mpr hr)] at h
                obtain ⟨rfl, rfl⟩ := Prod.mk.inj (Option.some.inj h)
                exact ⟨rfl, fun _ => by simp [text_flush, hdoes.nothing hr]⟩
            | false =>
                have hcode : ¬d.code < 0 := fun hneg => by simp [hdoes.code.mp hneg] at hr
                rw [if_neg hcode] at h
                obtain ⟨⟨rest, ok'⟩, hq, h⟩ := Option.map_eq_some_iff.mp h
                obtain ⟨rfl, rfl⟩ := Prod.mk.inj h
                rw [hdoes.left hr] at hq
                obtain ⟨hok, hfirst⟩ := ih hq
                refine ⟨by simpa using hok, fun hfalse => ?_⟩
                simp [text_flush, hdoes.chars hr, hfirst hfalse]
          · rw [if_neg hc] at h ⊢
            exact ih h

/-! ## the buffer -/

/-- The first `limit` characters of the text are in the buffer. -/
structure Holds (s n : Nat) (m : ByteMem) (t : Bytes) (info : Finfo) : Prop where
  buffer : info.buffer = s
  size : info.size = n
  pos : info.pos = min (sub32 n 1) t.length
  mem : info.mem = write s (min (sub32 n 1) t.length) (fun i => t.getD i 0) m

/-- A character that fits. -/
theorem holds_step {c : UInt8} (h : Holds s n m t info) (hlt : info.pos < sub32 info.size 1) :
    Holds s n m (t ++ [c]) { info with
      mem := Function.update info.mem (info.buffer + info.pos) c
      pos := info.pos + 1 } := by
  obtain ⟨hbuf, hsize, hpos, hmem⟩ := h
  rw [hsize, hpos] at hlt
  have hlen : min (sub32 n 1) t.length = t.length := by omega
  have hlen' : min (sub32 n 1) (t ++ [c]).length = t.length + 1 := by
    rw [List.length_append, List.length_singleton]
    omega
  refine ⟨hbuf, hsize, by dsimp only; rw [hpos, hlen, hlen'], funext fun a => ?_⟩
  dsimp only
  rw [hmem, hbuf, hpos, hlen, hlen']
  by_cases ha : s ≤ a ∧ a < s + (t.length + 1)
  · obtain ⟨i, rfl⟩ := Nat.exists_eq_add_of_le ha.1
    rw [write_inside (by omega)]
    by_cases hi : i = t.length
    · rw [hi, Function.update_self, List.getD_append_right _ _ _ _ (Nat.le_refl _), Nat.sub_self]
      rfl
    · rw [Function.update_of_ne (by omega), write_inside (by omega),
        List.getD_append _ _ _ _ (by omega)]
  · rw [write_outside ha, Function.update_of_ne (by omega), write_outside (by omega)]

/-- Text behind a full buffer. -/
theorem holds_full (h : Holds s n m t info) (hle : ¬info.pos < sub32 info.size 1) :
    Holds s n m (t ++ buf) info := by
  obtain ⟨hbuf, hsize, hpos, hmem⟩ := h
  rw [hsize, hpos] at hle
  have hlen : min (sub32 n 1) (t ++ buf).length = min (sub32 n 1) t.length := by
    rw [List.length_append]
    omega
  refine ⟨hbuf, hsize, hpos.trans hlen.symm, funext fun a => ?_⟩
  rw [hmem, hlen]
  by_cases ha : s ≤ a ∧ a < s + min (sub32 n 1) t.length
  · obtain ⟨i, rfl⟩ := Nat.exists_eq_add_of_le ha.1
    rw [write_inside (by omega), write_inside (by omega), List.getD_append _ _ _ _ (by omega)]
  · rw [write_outside ha, write_outside ha]

theorem holds_finfowr (buf : Bytes) (h : Holds s n m t info) : Holds s n m (t ++ buf) (finfowr buf info) := by
  induction buf generalizing t info with
  | nil => simpa [finfowr] using h
  | cons c buf ih =>
      rw [finfowr]
      split
      · next hlt =>
          have hrest := ih (holds_step (c := c) h hlt)
          rwa [List.append_assoc, List.singleton_append] at hrest
      · next hle => exact holds_full h hle

/-- **The buffer** after some calls holds the front of their text. -/
theorem holds_calls (calls : List Call) (h : Holds s n m t info) :
    Holds s n m (t ++ text calls) (calls.foldl Finfo.call info) := by
  induction calls generalizing t info with
  | nil => simpa using h
  | cons c calls ih =>
      cases c with
      | wr buf =>
          have hrest := ih (holds_finfowr buf h)
          rwa [List.append_assoc] at hrest
      | store p => exact ih ⟨h.buffer, h.size, h.pos, h.mem⟩

theorem holds_start (s n : Nat) (m : ByteMem) : Holds s n m [] ⟨s, n, 0, m, []⟩ where
  buffer := rfl
  size := rfl
  pos := by simp
  mem := by
    funext a
    rw [write_outside (by simp only [List.length_nil]; omega)]

theorem holds_run (s n : Nat) (m : ByteMem) (calls : List Call) :
    Holds s n m (text calls) (calls.foldl Finfo.call ⟨s, n, 0, m, []⟩) := by
  simpa using holds_calls calls (holds_start s n m)

/-- What is reported first is reported. -/
theorem reports_of_first {ps : List (Bytes × Fspec)} (h : reportsFirst ps args = true) :
    reports ps args = true := by
  induction ps generalizing args with
  | nil => contradiction
  | cons p ps ih => grind [reports, reportsFirst]

/-! ## exactly when the output is bounded -/

/-- The memory after a run that gets to the end of the format. -/
theorem vsnprintf_ok (h : interncalls [] 0 fmt args = some (calls, true)) :
    (vsnprintf s n fmt args m).map (·.2.mem) = some (Function.update
      (write s (min (sub32 n 1) (text calls).length) (fun i => (text calls).getD i 0) m)
      (s + min (sub32 n 1) (text calls).length) 0) := by
  obtain ⟨hbuf, -, hpos, hmem⟩ := holds_run s n m calls
  rw [vsnprintf, h, ← hmem, ← hpos]
  exact congrArg (fun b => some (Function.update _ (b + _) 0)) hbuf

/-- The memory after a run that a conversion ends. -/
theorem vsnprintf_error (h : interncalls [] 0 fmt args = some (calls, false)) :
    (vsnprintf s n fmt args m).map (·.2.mem) = some
      (write s (min (sub32 n 1) (text calls).length) (fun i => (text calls).getD i 0) m) := by
  rw [vsnprintf, h, ← (holds_run s n m calls).mem]
  rfl

/-- `Bounded` in terms of the memory. -/
theorem bounded_iff_mem (f : ByteMem → ByteMem) (h : interncalls [] 0 fmt args = some (calls, ok))
    (hf : ∀ m, (vsnprintf s n fmt args m).map (·.2.mem) = some (f m)) :
    Bounded s n fmt args ↔ ∀ m, (∀ a, f m a ≠ m a → s ≤ a ∧ a < s + n) ∧
      (0 < n → HasString (f m) s ((text calls).take (n - 1))) := by
  have htext : fullText fmt args = some (text calls) := by rw [fullText, h]; rfl
  refine forall_congr' fun m => ?_
  obtain ⟨⟨r, info⟩, hrun, hmem⟩ := Option.map_eq_some_iff.mp (hf m)
  dsimp only at hmem
  rw [hrun, htext, ← hmem]
  constructor
  · rintro ⟨r', info', t, hsame, ht, hb⟩
    obtain ⟨rfl, rfl⟩ := Prod.mk.inj (Option.some.inj hsame)
    obtain rfl := Option.some.inj ht
    exact hb
  · exact fun hb => ⟨r, info, text calls, rfl, rfl, hb⟩

/-- With room for the NUL and no error the front of the text is left. -/
theorem bounded_of_ok (hn : n < 2 ^ 32) (h0 : 0 < n)
    (h : interncalls [] 0 fmt args = some (calls, true)) : Bounded s n fmt args := by
  rw [bounded_iff_mem _ h fun m => vsnprintf_ok h, sub32_of_le h0 hn]
  have hlen : ((text calls).take (n - 1)).length = min (n - 1) (text calls).length :=
    List.length_take
  refine fun m => ⟨fun a ha => ?_, fun _ => ⟨fun i hi => ?_, ?_⟩⟩
  · by_contra hout
    rw [Function.update_of_ne (by omega), write_outside (by omega)] at ha
    exact ha rfl
  · rw [hlen] at hi
    rw [Function.update_of_ne (by omega), write_inside hi, List.getD_eq_getElem?_getD,
      List.getD_eq_getElem?_getD, List.getElem?_take_of_lt (by omega)]
  · rw [hlen, Function.update_self]

/-- An error leaves no NUL. -/
theorem not_bounded_of_error (hn : n < 2 ^ 32) (h0 : 0 < n)
    (h : interncalls [] 0 fmt args = some (calls, false)) : ¬Bounded s n fmt args := by
  rw [bounded_iff_mem _ h fun m => vsnprintf_error h, sub32_of_le h0 hn]
  intro hb
  have hnul := ((hb fun _ => 1).2 h0).nul
  rw [List.length_take, write_outside (by omega)] at hnul
  exact absurd hnul (by decide)

/-- An error in front of all characters leaves the memory as it is. -/
theorem bounded_of_nothing (h : interncalls [] 0 fmt args = some (calls, false))
    (ht : text calls = []) : Bounded s 0 fmt args := by
  rw [bounded_iff_mem _ h fun m => vsnprintf_error h, ht]
  refine fun m => ⟨fun a ha => absurd ?_ ha, fun h0 => absurd h0 (Nat.lt_irrefl 0)⟩
  rw [write_outside (by simp only [List.length_nil]; omega)]

/-- A byte that is neither a NUL nor this one. -/
theorem exists_other (c : UInt8) : ∃ b : UInt8, b ≠ 0 ∧ b ≠ c := by
  by_cases h : c = 1
  · exact ⟨2, by decide, by rw [h]; decide⟩
  · exact ⟨1, by decide, Ne.symm h⟩

/-- With a size of 0 the first byte is changed. -/
theorem not_bounded_of_written (h : interncalls [] 0 fmt args = some (calls, ok))
    (hw : text calls = [] → ok = true) : ¬Bounded s 0 fmt args := by
  obtain ⟨b, hb0, hbt⟩ := exists_other ((text calls).getD 0 0)
  have hlim : sub32 0 1 = 2 ^ 32 - 1 := rfl
  -- `size-1` is no bound, so that the first character is stored at `s`
  have hfirst : text calls ≠ [] → write s (min (2 ^ 32 - 1) (text calls).length)
      (fun i => (text calls).getD i 0) (fun _ => b) s = (text calls).getD 0 0 := by
    intro ht
    have hlen := List.length_pos_iff.mpr ht
    exact write_inside (x := 0) (by omega)
  cases ok with
  | true =>
      rw [bounded_iff_mem _ h fun m => vsnprintf_ok h, hlim]
      intro hb
      refine absurd ((hb fun _ => b).1 s ?_).2 (Nat.lt_irrefl s)
      by_cases ht : text calls = []
      · rw [ht, List.length_nil, Nat.min_zero, Nat.add_zero, Function.update_self]
        exact Ne.symm hb0
      · have hlen := List.length_pos_iff.mpr ht
        rw [Function.update_of_ne (by omega), hfirst ht]
        exact Ne.symm hbt
  | false =>
      rw [bounded_iff_mem _ h fun m => vsnprintf_error h, hlim]
      intro hb
      refine absurd ((hb fun _ => b).1 s ?_).2 (Nat.lt_irrefl s)
      rw [hfirst fun ht => Bool.false_ne_true (hw ht)]
      exact Ne.symm hbt

/-- **The output is bounded exactly if** the size is not 0 and no conversion reports an error, or the
size is 0 and a conversion reports one before any character is produced. -/
theorem bounded_iff (s n : Nat) (fmt : Bytes) (args : List Arg) (hn : n < 2 ^ 32)
    (hm : Matches fmt args) :
    Bounded s n fmt args ↔
      0 < n ∧ reports (specs [] 0 fmt) args = false ∨
        n = 0 ∧ reportsFirst (specs [] 0 fmt) args = true := by
  obtain ⟨⟨calls, ok⟩, h⟩ := Option.isSome_iff_exists.mp hm
  obtain ⟨hok, hfirst⟩ := interncalls_spec h
  obtain rfl | h0 := Nat.eq_zero_or_pos n
  · have hzero : Bounded s 0 fmt args ↔ ok = false ∧ text calls = [] := by
      constructor
      · intro hb
        by_contra hnot
        refine not_bounded_of_written h (fun ht => ?_) hb
        exact (Bool.not_eq_false ok).mp fun hf => hnot ⟨hf, ht⟩
      · rintro ⟨rfl, ht⟩
        exact bounded_of_nothing h ht
    rw [hzero]
    cases ok with
    | true =>
        have hnot : reportsFirst (specs [] 0 fmt) args = false := by
          by_contra hr
          rw [reports_of_first ((Bool.not_eq_false _).mp hr)] at hok
          contradiction
        simp [hnot]
    | false => simp [hfirst rfl]
  · have hpos : Bounded s n fmt args ↔ ok = true := by
      cases ok with
      | true => exact iff_of_true (bounded_of_ok hn h0 h) rfl
      | false => exact iff_of_false (not_bounded_of_error hn h0 h) Bool.false_ne_true
    rw [hpos, hok]
    simp [h0, Nat.ne_of_gt h0]

/-- The text `hi` in two bytes, and `%s` of the null pointer with a size of 0. -/
theorem bounded_iff_example : Bounded 0 2 [104, 105] [] ∧ Bounded 0 0 [37, 115] [.str none] :=
  ⟨(bounded_iff 0 2 [104, 105] [] (by decide) rfl).mpr (.inl (by decide)),
    (bounded_iff 0 0 [37, 115] [.str none] (by decide) rfl).mpr (.inr (by decide))⟩

/-- The text `hi` with a size of 0, and `%s` of the null pointer in four bytes. -/
theorem not_bounded : ¬Bounded 0 0 [104, 105] [] ∧ ¬Bounded 0 4 [37, 115] [.str none] := by
  have hhi : interncalls [] 0 [104, 105] [] = some ([.wr [104, 105]], true) := rfl
  have hnull : interncalls [] 0 [37, 115] [.str none] = some ([], false) := rfl
  exact ⟨not_bounded_of_written hhi fun _ => rfl,
    not_bounded_of_error (by decide) (by decide) hnull⟩

end Printf

end Eclair
