import Eclair.Shell.Flow

/-!
# Eclair.Shell.Words

Words that are written for `parse_line`: in single quotes, or with
backslashes.

Quoted words come back as they are.  Behind a backslash the code forgets that
an argument is to be started, and its `switch` falls through: a word with an
escape at its front is added to the word before, and every letter escape is
an ESC.
-/

namespace Eclair

variable {W : Type} {os : Os W} {fuel m : Nat} {s : Sh W} {line a w : Bytes}
variable {args done ws : List Bytes} {exp : Bool} {c : UInt8}

/-! ## the argument buffers -/

@[simp] theorem addarg_nil (c : UInt8) : addarg [] c = [[c]] := rfl

theorem addarg_append (done : List Bytes) (h : a.length < ARG_VLEN - 1) :
    addarg (done ++ [a]) c = done ++ [a ++ [c]] := by
  have hlt : done.length < (done ++ [a]).length := by simp
  simp [addarg, List.modify_eq_take_cons_drop hlt, h]

theorem newarg_of_lt (h : args.length < MAX_ARGS) : newarg args = args ++ [[]] := if_pos h

theorem foldl_addarg (done : List Bytes) (h : a.length + w.length ≤ ARG_VLEN - 1) :
    w.foldl addarg (done ++ [a]) = done ++ [a ++ w] := by
  induction w generalizing a with
  | nil => simp
  | cons c w ih =>
      rw [List.length_cons] at h
      rw [List.foldl_cons, addarg_append done (by omega), ih (by simp; omega)]
      simp

theorem foldl_addarg_nil (h0 : w ≠ []) (h : w.length ≤ ARG_VLEN - 1) : w.foldl addarg [] = [w] := by
  cases w with
  | nil => contradiction
  | cons c w =>
      rw [List.length_cons] at h
      exact foldl_addarg (a := [c]) [] (by simp; omega)

/-! ## words in quotes -/

/-- A word in single quotes. -/
def quoted (w : Bytes) : Bytes := 39 :: w ++ [39]

/-- A word that can be written in single quotes. -/
structure Quotable (w : Bytes) : Prop where
  nonempty : w ≠ []
  short : w.length ≤ ARG_VLEN - 1
  quote : (39 : UInt8) ∉ w
  newline : (10 : UInt8) ∉ w
  nul : (0 : UInt8) ∉ w

theorem parseFrom_close (hq : (39 : UInt8) ∉ w) (hn : (10 : UInt8) ∉ w) :
    parseFrom os fuel s (w ++ 39 :: line) 0 39 exp args =
      parseFrom os fuel s line 0 0 exp (w.foldl addarg args) := by
  induction w generalizing args with
  | nil => simp [parseFrom]
  | cons c w ih =>
      simp only [List.mem_cons, not_or] at hq hn
      rw [List.cons_append, parseFrom, if_neg (Ne.symm hq.1), if_neg (Ne.symm hn.1), if_pos rfl,
        ih hq.2 hn.2, List.foldl_cons]

/-- **A word in quotes** is added behind the start of an argument. -/
theorem parseFrom_quoted (h : Quotable w) :
    parseFrom os fuel s (quoted w ++ line) 0 0 exp args =
      parseFrom os fuel s line 0 0 false (w.foldl addarg (startArg exp args)) := by
  have hline : quoted w ++ line = 39 :: (w ++ 39 :: line) := by simp [quoted]
  rw [hline, ← parseFrom_close h.quote h.newline]
  simp [parseFrom]

theorem parseFrom_blank :
    parseFrom os fuel s (32 :: line) 0 0 exp args = parseFrom os fuel s line 0 0 true args := by
  simp [parseFrom]

/-- The start of an argument behind others, and a word. -/
theorem foldl_startArg (done : List Bytes) (hd : done.length < MAX_ARGS) (h : Quotable w) :
    w.foldl addarg (startArg (!done.isEmpty) done) = done ++ [w] := by
  cases done with
  | nil => exact foldl_addarg_nil h.nonempty h.short
  | cons b done =>
      rw [startArg, List.isEmpty_cons, Bool.not_false, if_pos rfl, newarg_of_lt hd,
        foldl_addarg _ (by simpa using h.short), List.nil_append]

theorem parseFrom_quotedWords (done : List Bytes) (hne : ws ≠ []) (hlen : done.length + ws.length ≤ MAX_ARGS)
    (hw : ∀ w ∈ ws, Quotable w) :
    parseFrom os fuel s ([32].intercalate (ws.map quoted)) 0 0 (!done.isEmpty) done =
      some (done ++ ws, []) := by
  induction ws generalizing done with
  | nil => contradiction
  | cons w ws ih =>
      rw [List.length_cons] at hlen
      have hfirst := foldl_startArg done (by omega) (hw w List.mem_cons_self)
      cases ws with
      | nil =>
          have hparse : parseFrom os fuel s (quoted w ++ []) 0 0 (!done.isEmpty) done = _ :=
            parseFrom_quoted (hw w List.mem_cons_self)
          rw [List.append_nil, hfirst] at hparse
          simpa [parseFrom] using hparse
      | cons v ws =>
          have hnext := @ih (done ++ [w]) (by simp)
            (by simp only [List.length_append, List.length_singleton]; omega)
            fun x hx => hw x (List.mem_cons_of_mem _ hx)
          have hsome : (done ++ [w]).isEmpty = false := by simp
          rw [hsome] at hnext
          rw [List.map_cons, List.map_cons, List.intercalate_cons_cons, List.append_assoc,
            parseFrom_quoted (hw w List.mem_cons_self), hfirst, List.singleton_append, parseFrom_blank]
          simpa using hnext

/-- **Quoting round trip**: words in single quotes, joined by spaces, come back as they are, and the
whole line is consumed. -/
theorem parseLine_quoted (os : Os W) (fuel : Nat) (s : Sh W) (ws : List Bytes) (h1 : 1 ≤ ws.length)
    (h16 : ws.length ≤ MAX_ARGS) (hw : ∀ w ∈ ws, Quotable w) :
    parseLine os fuel s ([32].intercalate (ws.map quoted)) = some (ws, []) :=
  parseFrom_quotedWords [] (List.length_pos_iff.mp h1) (by simpa using h16) hw

theorem parseLine_quoted_example :
    parseLine bareOs 0 bareSh ([32].intercalate ([[97, 32], [36, 92]].map quoted)) =
      some ([[97, 32], [36, 92]], []) := by
  refine parseLine_quoted bareOs 0 bareSh _ (by decide) (by decide) fun w hw => ?_
  obtain rfl | rfl : w = [97, 32] ∨ w = [36, 92] := by simpa using hw
  · exact ⟨by decide, by decide, by decide, by decide, by decide⟩
  · exact ⟨by decide, by decide, by decide, by decide, by decide⟩

/-! ## words with backslashes -/

/-- The characters that are special outside quotes. -/
def special (c : UInt8) : Bool := c ∈ [32, 9, 39, 34, 36, 35, 59, 92]

/-- The letter escapes. -/
inductive Letter where
  | n | r | t | e
  deriving DecidableEq

def Letter.char : Letter → UInt8
  | n => 110
  | r => 114
  | t => 116
  | e => 101

/-- The control character that a letter names. -/
def Letter.value : Letter → UInt8
  | n => 10
  | r => 13
  | t => 9
  | e => 27

/-- A character of a word: one that stands for itself, or a letter escape. -/
inductive Item where
  | lit (c : UInt8)
  | letter (l : Letter)
  deriving DecidableEq

namespace Item

/-- How it is written: with a backslash if it is special. -/
def text : Item → Bytes
  | lit c => if special c then [92, c] else [c]
  | letter l => [92, l.char]

/-- What it means. -/
def value : Item → UInt8
  | lit c => c
  | letter l => l.value

/-- What the shell adds for it. -/
def got : Item → UInt8
  | lit c => c
  | letter _ => 0x1b

/-- Written without a backslash. -/
def bare : Item → Bool
  | lit c => !special c
  | letter _ => false

end Item

def wordText (w : List Item) : Bytes := w.flatMap Item.text

/-- A word that can be written with backslashes. -/
structure Writable (w : List Item) : Prop where
  nonempty : w ≠ []
  short : w.length ≤ ARG_VLEN - 1
  newline : .lit 10 ∉ w
  nul : .lit 0 ∉ w

/-- The words, written and joined by spaces, come back with what they mean. -/
def ComeBack (os : Os W) (fuel : Nat) (s : Sh W) (ws : List (List Item)) : Prop :=
  parseLine os fuel s ([32].intercalate (ws.map wordText)) = some (ws.map (·.map Item.value), [])

/-- Whether an argument is expected, and the arguments, behind a character of a word. -/
def itemStep (st : Bool × List Bytes) (it : Item) : Bool × List Bytes :=
  if it.bare then (false, addarg (startArg st.1 st.2) it.got) else (st.1, addarg st.2 it.got)

/-- The same behind a word and a blank. -/
def wordStep (st : Bool × List Bytes) (w : List Item) : Bool × List Bytes :=
  (true, (w.foldl itemStep st).2)

variable {it : Item} {items : List Item} {words : List (List Item)} {st : Bool × List Bytes}

/-- **A character of a word**, as the loop of `parse_line` takes it. -/
theorem parseFrom_item (h10 : it ≠ .lit 10) (h0 : it ≠ .lit 0) :
    parseFrom os fuel s (it.text ++ line) 0 0 st.1 st.2 =
      parseFrom os fuel s line 0 0 (itemStep st it).1 (itemStep st it).2 := by
  cases it with
  | letter l => cases l <;> rfl
  | lit c =>
      by_cases hs : special c = true
      · have hesc : escaped c = c := by
          simp only [special, decide_eq_true_eq, List.mem_cons, List.not_mem_nil, or_false] at hs
          obtain rfl | rfl | rfl | rfl | rfl | rfl | rfl | rfl := hs <;> rfl
        simp [Item.text, hs, parseFrom, hesc, itemStep, Item.bare, Item.got]
      · have h10' : c ≠ 10 := fun h => h10 (congrArg _ h)
        have h0' : c ≠ 0 := fun h => h0 (congrArg _ h)
        have hne := hs
        simp only [special, decide_eq_true_eq, List.mem_cons, List.not_mem_nil, or_false,
          not_or] at hne
        obtain ⟨h32, h9, h39, h34, h36, h35, h59, h92⟩ := hne
        simp [Item.text, hs, parseFrom, itemStep, Item.bare, Item.got, h10', h0', h32, h9, h39, h34,
          h36, h35, h59, h92]

theorem parseFrom_word (h10 : .lit 10 ∉ items) (h0 : .lit 0 ∉ items) :
    parseFrom os fuel s (wordText items ++ line) 0 0 st.1 st.2 =
      parseFrom os fuel s line 0 0 (items.foldl itemStep st).1 (items.foldl itemStep st).2 := by
  induction items generalizing st with
  | nil => rfl
  | cons it items ih =>
      simp only [List.mem_cons, not_or] at h10 h0
      rw [wordText, List.flatMap_cons, List.append_assoc, parseFrom_item (Ne.symm h10.1) (Ne.symm h0.1)]
      exact ih h10.2 h0.2

/-- **The whole line**, word by word. -/
theorem parseFrom_words (st : Bool × List Bytes) (hne : words ≠ []) (hw : ∀ w ∈ words, Writable w) :
    parseFrom os fuel s ([32].intercalate (words.map wordText)) 0 0 st.1 st.2 =
      some ((words.foldl wordStep st).2, []) := by
  induction words generalizing st with
  | nil => contradiction
  | cons w words ih =>
      have hfirst := hw w List.mem_cons_self
      cases words with
      | nil =>
          rw [List.map_singleton, List.intercalate_singleton, ← List.append_nil (wordText w),
            parseFrom_word hfirst.newline hfirst.nul]
          rfl
      | cons v words =>
          rw [List.map_cons, List.map_cons, List.intercalate_cons_cons, List.append_assoc,
            parseFrom_word hfirst.newline hfirst.nul, List.singleton_append, parseFrom_blank]
          exact ih (wordStep st w) (by simp) fun x hx => hw x (List.mem_cons_of_mem _ hx)

/-! ### words that start as they should -/

/-- The first character is written without a backslash. -/
def StartsBare (w : List Item) : Prop := ∃ it ∈ w.head?, it.bare = true

theorem foldl_itemStep (done : List Bytes) (h : a.length + items.length ≤ ARG_VLEN - 1) :
    items.foldl itemStep (false, done ++ [a]) = (false, done ++ [a ++ items.map Item.got]) := by
  induction items generalizing a with
  | nil => simp
  | cons it items ih =>
      rw [List.length_cons] at h
      have hstep : itemStep (false, done ++ [a]) it = (false, done ++ [a ++ [it.got]]) := by
        have hadd := addarg_append (c := it.got) (a := a) done (by omega)
        simp [itemStep, startArg, hadd]
      rw [List.foldl_cons, hstep, ih (by simp; omega)]
      simp

/-- The first word of a line. -/
theorem foldl_itemStep_first (h : Writable items) :
    items.foldl itemStep (false, []) = (false, [items.map Item.got]) := by
  cases items with
  | nil => exact absurd rfl h.nonempty
  | cons it items =>
      have hshort := h.short
      rw [List.length_cons] at hshort
      have hstep : itemStep (false, []) it = (false, [[it.got]]) := by simp [itemStep, startArg]
      rw [List.foldl_cons, hstep]
      exact foldl_itemStep (a := [it.got]) [] (by simp; omega)

/-- A word behind others. -/
theorem foldl_itemStep_bare (done : List Bytes) (h : Writable items) (hb : StartsBare items)
    (hd : done.length < MAX_ARGS) :
    items.foldl itemStep (true, done) = (false, done ++ [items.map Item.got]) := by
  cases items with
  | nil => exact absurd rfl h.nonempty
  | cons it items =>
      obtain ⟨it', hit, hbare⟩ := hb
      obtain rfl : it = it' := by simpa using hit
      have hshort := h.short
      rw [List.length_cons] at hshort
      have hstep : itemStep (true, done) it = (false, done ++ [[it.got]]) := by
        have hadd := addarg_append (c := it.got) (a := []) done (by decide)
        rw [itemStep, if_pos hbare, startArg, if_pos rfl, newarg_of_lt hd, hadd, List.nil_append]
      rw [List.foldl_cons, hstep, foldl_itemStep (a := [it.got]) _ (by simp; omega)]
      simp

theorem foldl_wordStep_bare (hw : ∀ w ∈ words, Writable w) (hb : ∀ w ∈ words, StartsBare w)
    (hd : done.length + words.length ≤ MAX_ARGS) :
    (words.foldl wordStep (true, done)).2 = done ++ words.map (·.map Item.got) := by
  induction words generalizing done with
  | nil => simp
  | cons w words ih =>
      rw [List.length_cons] at hd
      have hstep := foldl_itemStep_bare done (hw w List.mem_cons_self) (hb w List.mem_cons_self)
        (by omega)
      rw [List.foldl_cons, wordStep, hstep]
      refine (ih (fun x hx => hw x (List.mem_cons_of_mem _ hx))
        (fun x hx => hb x (List.mem_cons_of_mem _ hx)) ?_).trans (by simp)
      simp only [List.length_append, List.length_singleton]
      omega

/-! ### words that do not -/

/-- The characters of some arguments. -/
def total (args : List Bytes) : Nat := (args.map List.length).sum

theorem total_addarg (h : args ≠ []) : (addarg args c).length = args.length ∧
    total ((addarg args c).drop m) ≤ total (args.drop m) + 1 := by
  obtain rfl | ⟨done, a, rfl⟩ := args.eq_nil_or_concat
  · contradiction
  · rw [List.concat_eq_append]
    by_cases hlen : a.length < ARG_VLEN - 1
    · rw [addarg_append done hlen]
      refine ⟨by simp, ?_⟩
      rw [List.drop_append, List.drop_append]
      cases hm : m - done.length <;> simp [total, Nat.add_assoc]
    · have hsame : addarg (done ++ [a]) c = done ++ [a] := by
        have hlt : done.length < (done ++ [a]).length := by simp
        simp [addarg, List.modify_eq_take_cons_drop hlt, hlen]
      rw [hsame]
      exact ⟨rfl, Nat.le_succ _⟩

theorem total_newarg (args : List Bytes) (m : Nat) : args.length ≤ (newarg args).length ∧
    total ((newarg args).drop m) = total (args.drop m) := by
  rw [newarg]
  split
  · refine ⟨by simp, ?_⟩
    rw [List.drop_append]
    cases hm : m - args.length <;> simp [total]
  · exact ⟨Nat.le_refl _, rfl⟩

/-- A character of a word is added to one argument, if to any. -/
theorem total_itemStep (it : Item) (m : Nat) (h : st.2 ≠ []) : (itemStep st it).2 ≠ [] ∧
    total ((itemStep st it).2.drop m) ≤ total (st.2.drop m) + 1 := by
  have hadd : ∀ args : List Bytes, args ≠ [] → addarg args it.got ≠ [] ∧
      total ((addarg args it.got).drop m) ≤ total (args.drop m) + 1 := by
    intro args hne
    obtain ⟨hlen, htotal⟩ := total_addarg (c := it.got) (m := m) hne
    exact ⟨fun h0 => hne (List.length_eq_zero_iff.mp (by rw [← hlen, h0, List.length_nil])), htotal⟩
  rw [itemStep]
  split
  · rw [startArg]
    split
    · obtain ⟨hlen, htotal⟩ := total_newarg st.2 m
      rw [← htotal]
      refine hadd _ fun h0 => h (List.length_eq_zero_iff.mp ?_)
      rw [h0, List.length_nil] at hlen
      omega
    · exact hadd _ h
  · exact hadd _ h

theorem total_items (items : List Item) (m : Nat) (h : st.2 ≠ []) : (items.foldl itemStep st).2 ≠ [] ∧
    total ((items.foldl itemStep st).2.drop m) ≤ total (st.2.drop m) + items.length := by
  induction items generalizing st with
  | nil => exact ⟨h, Nat.le_refl _⟩
  | cons it items ih =>
      obtain ⟨hne, hone⟩ := total_itemStep it m h
      obtain ⟨hne', hrest⟩ := ih hne
      rw [List.length_cons]
      exact ⟨hne', by rw [List.foldl_cons]; omega⟩

theorem total_words (h : st.2 ≠ []) : total ((words.foldl wordStep st).2.drop m) ≤
    total (st.2.drop m) + (words.map List.length).sum := by
  induction words generalizing st with
  | nil => exact Nat.le_refl _
  | cons w words ih =>
      obtain ⟨hne, hw⟩ := total_items w m h
      have hrest := @ih (wordStep st w) hne
      have hsame : (wordStep st w).2 = (w.foldl itemStep st).2 := rfl
      rw [hsame] at hrest
      rw [List.foldl_cons, List.map_cons, List.sum_cons]
      omega

/-- **Words of the right lengths** come only from words that start without a backslash: the first
character of another one goes to the argument before. -/
theorem startsBare_of_lengths (done : List Bytes) (hne : done ≠ []) (hw : ∀ w ∈ words, Writable w)
    (hd : done.length + words.length ≤ MAX_ARGS)
    (h : ((words.foldl wordStep (true, done)).2.drop done.length).map List.length =
      words.map List.length) : ∀ w ∈ words, StartsBare w := by
  induction words generalizing done with
  | nil => simp
  | cons w words ih =>
      rw [List.length_cons] at hd
      have hfirst := hw w List.mem_cons_self
      have hb : StartsBare w := by
        cases w with
        | nil => exact absurd rfl hfirst.nonempty
        | cons it items =>
            by_contra hnot
            have hbare : ¬it.bare = true := fun hb => hnot ⟨it, rfl, hb⟩
            have hstep : itemStep (true, done) it = (true, addarg done it.got) := if_neg hbare
            obtain ⟨hlen, -⟩ := total_addarg (c := it.got) (m := 0) hne
            have hne' : addarg done it.got ≠ [] := fun h0 =>
              hne (List.length_eq_zero_iff.mp (by rw [← hlen, h0, List.length_nil]))
            let st := items.foldl itemStep (true, addarg done it.got)
            obtain ⟨hne₁, hitems⟩ : st.2 ≠ [] ∧ total (st.2.drop done.length) ≤
                total ((addarg done it.got).drop done.length) + items.length := total_items _ _ hne'
            have hwords : total ((words.foldl wordStep (true, st.2)).2.drop done.length) ≤
                total (st.2.drop done.length) + (words.map List.length).sum := total_words hne₁
            have hsum := congrArg List.sum h
            rw [List.foldl_cons, wordStep, List.foldl_cons, hstep, List.map_cons, List.sum_cons,
              List.length_cons] at hsum
            have hdrop : total ((addarg done it.got).drop done.length) = 0 := by
              rw [← hlen, List.drop_length]
              rfl
            have hsum' : total ((words.foldl wordStep (true, st.2)).2.drop done.length) =
                items.length + 1 + (words.map List.length).sum := hsum
            omega
      have hstep := foldl_itemStep_bare done hfirst hb (by omega)
      rw [List.foldl_cons, wordStep, hstep] at h
      dsimp only at h
      have hlen : (done ++ [w.map Item.got]).length = done.length + 1 := by simp
      have htail := congrArg List.tail h
      rw [← List.map_tail, List.tail_drop, List.map_cons, List.tail_cons, ← hlen] at htail
      intro x hx
      obtain rfl | hx := List.mem_cons.mp hx
      · exact hb
      · exact @ih (done ++ [w.map Item.got]) (by simp)
          (fun x hx => hw x (List.mem_cons_of_mem _ hx)) (by omega) htail x hx

/-! ### exactly when words come back -/

theorem map_got_eq_iff : items.map Item.got = items.map Item.value ↔
    ∀ l, .letter l ∈ items → l = .e := by
  have hone : ∀ it : Item, it.got = it.value ↔ ∀ l, it = .letter l → l = .e := by
    intro it
    cases it with
    | lit c => simp [Item.got, Item.value]
    | letter l => cases l <;> simp [Item.got, Item.value, Letter.value]
  rw [List.map_inj_left]
  exact ⟨fun h l hl => (hone _).mp (h _ hl) l rfl, fun h it hit => (hone it).mpr fun l hl =>
    h l (hl ▸ hit)⟩

/-- **Words with backslashes come back exactly if** no word but the first starts with a backslash,
and no letter escape is used but `e`. -/
theorem comeBack_iff (os : Os W) (fuel : Nat) (s : Sh W) (ws : List (List Item)) (h1 : 1 ≤ ws.length)
    (h16 : ws.length ≤ MAX_ARGS) (hw : ∀ w ∈ ws, Writable w) :
    ComeBack os fuel s ws ↔
      (∀ w ∈ ws.tail, StartsBare w) ∧ ∀ w ∈ ws, ∀ l, .letter l ∈ w → l = .e := by
  cases ws with
  | nil => contradiction
  | cons w ws =>
      rw [List.length_cons] at h16
      have hfirst := foldl_itemStep_first (hw w List.mem_cons_self)
      have hrest : ∀ x ∈ ws, Writable x := fun x hx => hw x (List.mem_cons_of_mem _ hx)
      have hparse : parseFrom os fuel s ([32].intercalate ((w :: ws).map wordText)) 0 0 false [] =
          some (((w :: ws).foldl wordStep (false, [])).2, []) :=
        parseFrom_words (false, []) (List.cons_ne_nil w ws) hw
      rw [List.foldl_cons, wordStep, hfirst] at hparse
      have hgot : (ws.map (·.map Item.got) = ws.map (·.map Item.value) ∧
          w.map Item.got = w.map Item.value) ↔ ∀ x ∈ w :: ws, ∀ l, .letter l ∈ x → l = .e := by
        rw [List.forall_mem_cons, List.map_inj_left, map_got_eq_iff, and_comm]
        exact and_congr_right' (forall₂_congr fun x _ => map_got_eq_iff)
      have hback : ComeBack os fuel s (w :: ws) ↔
          (ws.foldl wordStep (true, [w.map Item.got])).2 = (w :: ws).map (·.map Item.value) := by
        rw [ComeBack, parseLine, hparse]
        simp
      rw [hback, List.tail_cons, ← hgot]
      constructor
      · intro h
        have hb : ∀ x ∈ ws, StartsBare x := by
          refine startsBare_of_lengths [w.map Item.got] (by simp) hrest
            (by simp; omega) ?_
          rw [h]
          simp
        rw [foldl_wordStep_bare hrest hb (by simp; omega), List.map_cons] at h
        obtain ⟨hw', hws⟩ := List.cons.inj h
        exact ⟨hb, hws, hw'⟩
      · rintro ⟨hb, hws, hw'⟩
        rw [foldl_wordStep_bare hrest hb (by simp; omega), hws, hw']
        rfl

theorem comeBack_iff_example : ComeBack bareOs 0 bareSh [[.lit 36], [.lit 97, .letter .e]] := by
  refine (comeBack_iff bareOs 0 bareSh _ (by decide) (by decide) fun w hw => ?_).mpr ?_
  · obtain rfl | rfl : w = [.lit 36] ∨ w = [.lit 97, .letter .e] := by simpa using hw
    · exact ⟨by decide, by decide, by decide, by decide⟩
    · exact ⟨by decide, by decide, by decide, by decide⟩
  · simp [StartsBare, Item.bare, special]

/-- The words `a` and `$` are read as `a$`, and `\n` as an ESC. -/
theorem not_comeBack : ¬ComeBack bareOs 0 bareSh [[.lit 97], [.lit 36]] ∧
    ¬ComeBack bareOs 0 bareSh [[.lit 97, .letter .n]] := by
  rw [ComeBack, ComeBack]
  decide

end Eclair
