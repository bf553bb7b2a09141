import Eclair.Lib.System
import Eclair.Crepe.Widget
import Eclair.Driver.Lines
import Eclair.Wm.State

/-!
# Eclair.Crepe.Entry

The text entry of `lib/crepe/entry.c`: what keys and buttons do to its
buffer, and what drawing reads of it.

The text is ended by what an earlier edit, or the `memset` of
`crepe_widget_new`, has left behind it.  Over a run `typed` keeps the
characters that were typed and not deleted.
-/

namespace Eclair

/-- `CREPE_ENTRY_MAX_CHARS`. -/
def CREPE_ENTRY_MAX_CHARS : Nat := 128

/-- `eck_aschar`, over the table that the kernel has too. -/
def eckAschar (code : Nat) : UInt8 :=
  if 0 < code ∧ code < ECK_COUNT then
    let ch := ascii.getD code 0
    if ch = 63 then 0 else ch
  else 0

/-- `toupper`. -/
def toupper (c : UInt8) : UInt8 := if 97 ≤ c ∧ c ≤ 122 then c - 32 else c

/-- Where the widget is on the window. -/
structure EntryBox where
  absx : Int
  absy : Int
  width : Nat
  height : Nat

/-- The comparisons with a position, which are unsigned. -/
def EntryBox.holds (b : EntryBox) (x y : Nat) : Bool :=
  decide (wrap b.absx ≤ x) && decide (x < wrap (b.absx + b.width)) &&
    (decide (wrap b.absy ≤ y) && decide (y < wrap (b.absy + b.height)))

/-- `crepe_entry_t`, with the `draw` of its widget. -/
structure CrepeEntry where
  active : Bool
  shift : Bool
  text : Bytes
  pos : Nat
  draw : Bool
  deriving DecidableEq

namespace CrepeEntry

/-- `crepe_entry_new`. -/
def new : CrepeEntry := ⟨false, false, List.replicate CREPE_ENTRY_MAX_CHARS 0, 0, true⟩

/-- Store a character of the text, if it is one of the buffer. -/
def store (s : CrepeEntry) (i : Nat) (c : UInt8) : Option CrepeEntry :=
  if i < s.text.length then some { s with text := s.text.set i c } else none

/-- A key press. -/
def pressKey (code : Nat) (s : CrepeEntry) : Option CrepeEntry :=
  if code = ECK_BACKSPACE then
    if s.pos ≠ 0 then
      (s.store (s.pos - 1) 0).map fun s => { s with pos := s.pos - 1, draw := true }
    else some s
  else if code = ECK_LEFT_SHIFT then some { s with shift := true }
  else if s.pos < CREPE_ENTRY_MAX_CHARS then
    let ch := eckAschar code
    if ch = 0 then some s
    else
      let ch := if s.shift then toupper ch else ch
      (s.store s.pos ch).map fun s => { s with pos := s.pos + 1, draw := true }
  else some s

/-- `process_event`, and whether the event goes on to other widgets; `none` is an access outside the
buffer. -/
def processEvent (box : EntryBox) (event : WmEvent) (s : CrepeEntry) : Option (CrepeEntry × Bool) :=
  if s.active then
    match event with
    | .button _ action x y =>
        if action ≠ WM_ACTION_PRESSED then some (s, true)
        else if box.holds x y then some (s, true)
        else some ({ s with active := false, draw := true }, true)
    | .key code action =>
        if action ≠ WM_ACTION_PRESSED then
          some (if code = ECK_LEFT_SHIFT then { s with shift := false } else s, false)
        else (s.pressKey code).map fun s => (s, false)
    | .motion .. => some (s, true)
  else
    match event with
    | .button _ action x y =>
        if action = WM_ACTION_PRESSED ∧ box.holds x y then some ({ s with active := true, draw := true }, true)
        else some (s, true)
    | _ => some (s, true)

/-- Reading a string up to its NUL; `none` is a read behind the buffer. -/
def readString : Bytes → Option Bytes
  | [] => none
  | c :: text => if c = 0 then some [] else (readString text).map (c :: ·)

/-- `draw`: its drawing calls. -/
def drawCalls (box : EntryBox) (ui : Nat) (s : CrepeEntry) : Option (List DrawCall) :=
  if s.draw then
    (readString s.text).map fun text =>
      let size := textSize {} text
      let margin : Int := (i32 box.height - size.2).tdiv 2
      let x := i32 (box.absx + margin)
      let y := i32 (box.absy + margin)
      [.position box.absx box.absy, .image ui 104 179 box.width box.height, .position x y,
        .text {} text] ++
      if s.active then [.position (i32 (x + size.1 + 1)) y, .image ui 3 21 1 11] else []
  else some []

/-! ## runs -/

/-- What happens to an entry. -/
inductive Event where
  | event (box : EntryBox) (event : WmEvent)
  | draw (box : EntryBox) (ui : Nat)

/-- `crepe_widget_process_event` and `crepe_widget_draw`. -/
def step (s : CrepeEntry) : Event → Option CrepeEntry
  | .event box event => (s.processEvent box event).map Prod.fst
  | .draw box ui => (s.drawCalls box ui).map fun _ => { s with draw := false }

/-- The characters after an edit: a typed one is put behind them as long as there are fewer than
`CREPE_ENTRY_MAX_CHARS`, and a deletion takes the last one. -/
def edit (s : CrepeEntry) (typed : Bytes) : Event → Bytes
  | .event _ (.key code action) =>
      if s.active ∧ action = WM_ACTION_PRESSED then
        if code = ECK_BACKSPACE then typed.dropLast
        else if code ≠ ECK_LEFT_SHIFT ∧ eckAschar code ≠ 0 ∧ typed.length < CREPE_ENTRY_MAX_CHARS then
          typed ++ [if s.shift then toupper (eckAschar code) else eckAschar code]
        else typed
      else typed
  | _ => typed

/-- An entry, and the characters that were typed into it. -/
structure Run where
  entry : CrepeEntry
  typed : Bytes

/-- A step of a run; one that accesses memory outside the buffer is not taken. -/
def next (r : Run) (e : Event) : Run :=
  match r.entry.step e with
  | some s => ⟨s, r.entry.edit r.typed e⟩
  | none => r

def start : Run := ⟨new, []⟩

/-- The position is in the buffer and has a NUL, and the string in front of it is what was typed. -/
structure Sound (r : Run) : Prop where
  inside : r.entry.pos < CREPE_ENTRY_MAX_CHARS
  nul : r.entry.text[r.entry.pos]? = some 0
  text : readString r.entry.text = some r.typed
  pos : r.entry.pos = r.typed.length

/-- The property of a run: no access outside the buffer, and a terminated text in every state. -/
def Terminated (es : List Event) : Prop :=
  Sound start ∧ System.Along next (fun r e => (r.entry.step e).isSome ∧ Sound (next r e)) start es

/-- The event types a character. -/
def Types (s : CrepeEntry) : Event → Prop
  | .event _ (.key code action) => s.active ∧ action = WM_ACTION_PRESSED ∧ code ≠ ECK_BACKSPACE ∧
      code ≠ ECK_LEFT_SHIFT ∧ eckAschar code ≠ 0
  | _ => False

variable {r : Run} {e : Event} {es : List Event} {t : Bytes} {c : UInt8} {k : Nat}

/-- The buffer: what was typed, and zeros behind it. -/
structure Holds (r : Run) : Prop where
  text : r.entry.text = r.typed ++ List.replicate (CREPE_ENTRY_MAX_CHARS - r.typed.length) 0
  nonzero : 0 ∉ r.typed
  pos : r.entry.pos = r.typed.length
  room : r.typed.length < CREPE_ENTRY_MAX_CHARS

theorem readString_append (h : 0 ∉ t) : readString (t ++ 0 :: rest) = some t := by
  induction t with
  | nil => rfl
  | cons c t ih =>
      have hc : c ≠ 0 := fun h0 => h (by simp [h0])
      have ht : 0 ∉ t := fun hm => h (List.mem_cons_of_mem c hm)
      simp [readString, hc, ih ht]

/-- A zero is behind the text as long as there is room. -/
theorem zeros_succ (h : k < CREPE_ENTRY_MAX_CHARS) :
    List.replicate (CREPE_ENTRY_MAX_CHARS - k) (0 : UInt8) =
      0 :: List.replicate (CREPE_ENTRY_MAX_CHARS - (k + 1)) 0 := by
  rw [← List.replicate_succ]
  congr 1
  omega

theorem Holds.sound (h : Holds r) : Sound r where
  inside := h.pos ▸ h.room
  nul := by
    rw [h.text, zeros_succ h.room, h.pos]
    simp
  text := by rw [h.text, zeros_succ h.room, readString_append h.nonzero]
  pos := h.pos

/-- A character is typed. -/
theorem text_typed (h : t.length < CREPE_ENTRY_MAX_CHARS) :
    (t ++ List.replicate (CREPE_ENTRY_MAX_CHARS - t.length) 0).set t.length c =
      (t ++ [c]) ++ List.replicate (CREPE_ENTRY_MAX_CHARS - (t ++ [c]).length) 0 := by
  rw [zeros_succ h]
  simp

/-- The last character is deleted. -/
theorem text_deleted (h : t.length < CREPE_ENTRY_MAX_CHARS) :
    ((t ++ [c]) ++ List.replicate (CREPE_ENTRY_MAX_CHARS - (t ++ [c]).length) 0).set t.length 0 =
      t ++ List.replicate (CREPE_ENTRY_MAX_CHARS - t.length) 0 := by
  rw [zeros_succ h]
  simp

theorem toupper_ne_zero (h : c ≠ 0) : toupper c ≠ 0 := by
  rw [toupper]
  split
  · grind
  · exact h

theorem Holds.length (h : Holds r) : r.entry.text.length = CREPE_ENTRY_MAX_CHARS := by
  have hroom := h.room
  rw [h.text, List.length_append, List.length_replicate]
  omega

theorem store_eq {s : CrepeEntry} (h : i < s.text.length) :
    s.store i c = some { s with text := s.text.set i c } := if_pos h

/-- The text and the position are as they were. -/
theorem Holds.keep {s : CrepeEntry} (h : Holds r) (ht : s.text = r.entry.text) (hp : s.pos = r.entry.pos) :
    Holds ⟨s, r.typed⟩ := ⟨ht.trans h.text, h.nonzero, hp.trans h.pos, h.room⟩

/-- A character is put into the buffer, and a NUL is behind it. -/
theorem Holds.push (h : Holds r) (hc : c ≠ 0) (hroom : r.entry.pos + 1 < CREPE_ENTRY_MAX_CHARS) :
    ∃ s, r.entry.store r.entry.pos c = some s ∧
      Holds ⟨{ s with pos := s.pos + 1, draw := true }, r.typed ++ [c]⟩ := by
  refine ⟨_, store_eq (by rw [h.length]; omega), ⟨?_, by simp [h.nonzero, Ne.symm hc], ?_, ?_⟩⟩
  · dsimp only
    rw [h.text, h.pos, text_typed h.room]
  · simp [h.pos]
  · simpa [h.pos] using hroom

/-- The last character is taken out of the buffer. -/
theorem Holds.pop (h : Holds r) (hr : r.typed = t ++ [c]) :
    ∃ s, r.entry.store (r.entry.pos - 1) 0 = some s ∧
      Holds ⟨{ s with pos := s.pos - 1, draw := true }, t⟩ := by
  have hpos : r.entry.pos = t.length + 1 := by simp [h.pos, hr]
  have hroom : t.length < CREPE_ENTRY_MAX_CHARS := by
    have hlt := h.room
    simp [hr] at hlt
    omega
  refine ⟨_, store_eq (by rw [h.length]; omega), ⟨?_, fun hm => h.nonzero (by simp [hr, hm]), ?_, hroom⟩⟩
  · dsimp only
    rw [h.text, hr, hpos, Nat.add_sub_cancel, text_deleted hroom]
  · simp [hpos]

/-- **A key**: the character that it types, unless there is no room for a NUL behind it, the deletion
of the last one, or nothing. -/
theorem Holds.pressKey {code : Nat} {box : EntryBox} (h : Holds r) (hactive : r.entry.active = true)
    (hfit : ¬(Types r.entry (.event box (.key code WM_ACTION_PRESSED)) ∧ r.entry.pos = 127)) :
    ∃ s, r.entry.pressKey code = some s ∧
      Holds ⟨s, r.entry.edit r.typed (.event box (.key code WM_ACTION_PRESSED))⟩ := by
  have hedit : r.entry.active ∧ WM_ACTION_PRESSED = WM_ACTION_PRESSED := ⟨hactive, rfl⟩
  rw [edit, if_pos hedit, CrepeEntry.pressKey]
  by_cases hback : code = ECK_BACKSPACE
  · rw [if_pos hback, if_pos hback]
    obtain hnil | ⟨front, c, hr⟩ := List.eq_nil_or_concat r.typed
    · have hsame := h.keep (s := r.entry) rfl rfl
      rw [hnil] at hsame
      rw [if_neg (by simp [h.pos, hnil]), hnil]
      exact ⟨_, rfl, hsame⟩
    · rw [List.concat_eq_append] at hr
      obtain ⟨s, hstore, hs⟩ := h.pop hr
      rw [if_pos (by simp [h.pos, hr]), hstore, hr, List.dropLast_concat]
      exact ⟨_, rfl, hs⟩
  · rw [if_neg hback, if_neg hback]
    by_cases hshift : code = ECK_LEFT_SHIFT
    · rw [if_pos hshift, if_neg fun hedit => hedit.1 hshift]
      exact ⟨_, rfl, h.keep rfl rfl⟩
    · rw [if_neg hshift, if_pos (h.pos ▸ h.room)]
      by_cases hch : eckAschar code = 0
      · have hno : ¬(code ≠ ECK_LEFT_SHIFT ∧ eckAschar code ≠ 0 ∧
            r.typed.length < CREPE_ENTRY_MAX_CHARS) := fun hedit => hedit.2.1 hch
        rw [if_neg hno, if_pos hch]
        exact ⟨_, rfl, h.keep rfl rfl⟩
      · have hroom : r.entry.pos + 1 < CREPE_ENTRY_MAX_CHARS := by
          have hne : r.entry.pos ≠ 127 := fun hp => hfit ⟨⟨hactive, rfl, hback, hshift, hch⟩, hp⟩
          have hlt := h.pos ▸ h.room
          rw [CREPE_ENTRY_MAX_CHARS] at hlt ⊢
          omega
        have hne : (if r.entry.shift then toupper (eckAschar code) else eckAschar code) ≠ 0 := by
          split
          · exact toupper_ne_zero hch
          · exact hch
        have hyes : code ≠ ECK_LEFT_SHIFT ∧ eckAschar code ≠ 0 ∧
            r.typed.length < CREPE_ENTRY_MAX_CHARS := ⟨hshift, hch, h.room⟩
        obtain ⟨s, hstore, hs⟩ := h.push hne hroom
        rw [if_pos hyes, if_neg hch]
        exact ⟨_, congrArg (Option.map _) hstore, hs⟩

/-- **One step** in a state that holds. -/
theorem Holds.next (h : Holds r) (hfit : ¬(Types r.entry e ∧ r.entry.pos = 127)) :
    (r.entry.step e).isSome ∧ Holds (CrepeEntry.next r e) := by
  have hdone : ∀ s, r.entry.step e = some s → Holds ⟨s, r.entry.edit r.typed e⟩ →
      (r.entry.step e).isSome ∧ Holds (CrepeEntry.next r e) := by
    intro s hstep hs
    rw [CrepeEntry.next, hstep]
    exact ⟨rfl, hs⟩
  cases e with
  | draw box ui =>
      by_cases hd : r.entry.draw = true
      · refine hdone { r.entry with draw := false } ?_ (h.keep rfl rfl)
        rw [step, drawCalls, if_pos hd, h.sound.text]
        rfl
      · refine hdone { r.entry with draw := false } ?_ (h.keep rfl rfl)
        rw [step, drawCalls, if_neg hd]
        rfl
  | event box event =>
      by_cases hactive : r.entry.active = true
      · cases event with
        | motion mx my x y =>
            refine hdone r.entry ?_ (h.keep rfl rfl)
            rw [step, processEvent, if_pos hactive]
            rfl
        | button code action x y =>
            by_cases hleave : action = WM_ACTION_PRESSED ∧ box.holds x y = false
            · refine hdone { r.entry with active := false, draw := true } ?_ (h.keep rfl rfl)
              simp [step, processEvent, hactive, hleave]
            · refine hdone r.entry ?_ (h.keep rfl rfl)
              grind [step, processEvent]
        | key code action =>
            by_cases hact : action = WM_ACTION_PRESSED
            · subst hact
              obtain ⟨s, hpress, hs⟩ := h.pressKey hactive hfit
              refine hdone s ?_ hs
              simp [step, processEvent, hactive, hpress]
            · have hsame : r.entry.edit r.typed (.event box (.key code action)) = r.typed :=
                if_neg fun hedit => hact hedit.2
              refine hdone _ (by simp [step, processEvent, hactive, hact]; rfl) ?_
              rw [hsame]
              exact h.keep (by split <;> rfl) (by split <;> rfl)
      · have hsame : r.entry.edit r.typed (.event box event) = r.typed := by
          cases event <;> simp [edit, hactive]
        by_cases henter : ∃ code x y, event = .button code WM_ACTION_PRESSED x y ∧ box.holds x y = true
        · obtain ⟨code, x, y, rfl, hin⟩ := henter
          refine hdone { r.entry with active := true, draw := true } ?_ (h.keep rfl rfl)
          simp [step, processEvent, hactive, hin]
        · refine hdone r.entry ?_ (by rw [hsame]; exact h)
          cases event <;> grind [step, processEvent]

/-- A character in the last byte leaves no room for the NUL. -/
theorem Holds.not_sound (h : Holds r) (ht : Types r.entry e) (hp : r.entry.pos = 127) :
    ¬Sound (CrepeEntry.next r e) := by
  intro hs
  cases e with
  | draw box ui => exact ht
  | event box event =>
      cases event with
      | key code action =>
          obtain ⟨hactive, rfl, hback, hshift, hch⟩ := ht
          have hstore : r.entry.store r.entry.pos
              (if r.entry.shift then toupper (eckAschar code) else eckAschar code) = some _ :=
            store_eq (by rw [h.length, hp]; decide)
          have hpress : ∃ s, r.entry.pressKey code = some s ∧ s.pos = 128 := by
            rw [CrepeEntry.pressKey, if_neg hback, if_neg hshift, if_pos (by rw [hp]; decide)]
            dsimp only
            rw [if_neg hch, hstore]
            exact ⟨_, rfl, by simp [hp]⟩
          obtain ⟨s, hpress, hpos⟩ := hpress
          have hstep : r.entry.step (.event box (.key code WM_ACTION_PRESSED)) = some s := by
            simp [step, processEvent, hactive, hpress]
          have hinside := hs.inside
          rw [CrepeEntry.next, hstep] at hinside
          exact absurd hinside (by simp [hpos, CREPE_ENTRY_MAX_CHARS])
      | _ => exact ht

theorem holds_start : Holds start where
  text := rfl
  nonzero := List.not_mem_nil
  pos := rfl
  room := by decide

/-- **The text is terminated in every state exactly if** no character is typed while the position is at
the last byte of the buffer. -/
theorem terminated_iff (es : List Event) : Terminated es ↔
    System.Along next (fun r e => ¬(Types r.entry e ∧ r.entry.pos = 127)) start es := by
  rw [Terminated, and_iff_right holds_start.sound]
  refine System.along_iff (I := Holds) (fun r e h hgood => ?_) (fun r e h => ⟨fun hgood hbad => ?_,
    fun hfit => ?_⟩) holds_start
  · by_cases hfit : Types r.entry e ∧ r.entry.pos = 127
    · exact absurd hgood.2 (h.not_sound hfit.1 hfit.2)
    · exact (h.next hfit).2
  · exact h.not_sound hbad.1 hbad.2 hgood.2
  · exact ⟨(h.next hfit).1, (h.next hfit).2.sound⟩

/-- A click into the entry, and 128 times the key A. -/
def fillEntry : List Event :=
  .event ⟨0, 0, 143, 21⟩ (.button 0 WM_ACTION_PRESSED 5 5) ::
    List.replicate 128 (.event ⟨0, 0, 143, 21⟩ (.key 11 WM_ACTION_PRESSED))

/-- The last of the characters takes the place of the NUL. -/
theorem not_terminated : ¬Terminated fillEntry := by
  rintro ⟨hstart, hrun⟩
  have hpos : (fillEntry.foldl next start).entry.pos = 128 := by decide +kernel
  have hlast : Sound (fillEntry.foldl next start) := hrun.last (fun _ _ h => h.2) hstart
  exact absurd hlast.inside (by simp [hpos, CREPE_ENTRY_MAX_CHARS])

end CrepeEntry

end Eclair
