import Mathlib.Logic.Basic
import Eclair.Lib.Outbox
import Eclair.Wm.Draw

/-!
# Eclair.Crepe.Draw

The drawing context of `lib/crepe/draw.c`: drawing calls queue commands for
the window manager, which are sent in batches.

The loops of the drawing calls do not depend on how a command is queued, so
they take that as a parameter `emit`.  With the code's own `emit` they are
the source functions; with one that only lists the commands they say which
commands a call issues (`issued`).
-/

namespace Eclair

/-- `WM_DRAW_BATCH_MAX`: what fits into a message of `ECIO_CHNL_BUFSZ` bytes
behind the request. -/
def WM_DRAW_BATCH_MAX : Nat := (65536 - 20) / 32

/-- `wm_draw_command_t`. -/
inductive DrawCommand where
  | copyArea (id : Nat) (x y : Int) (sx sy sw sh : Nat)
  | fill (color : Color)
  | fillRect (x y : Int) (w h : Nat) (color : Color)

/-- `crepe_text_style_t`. -/
structure TextStyle where
  bold : Bool := false
  inverted : Bool := false

/-- `fontsizes`. -/
def fontSize (style : TextStyle) : Nat × Nat := if style.bold then (8, 11) else (6, 11)

/-- `crepe_draw_context_t`, without its destination; `out` holds the
`commands` array and the batches sent from it. -/
structure DrawContext where
  out : Outbox DrawCommand
  x : Int
  y : Int
  fonts : Bool → Nat

inductive DrawFault where
  /-- a command is written behind the `commands` array -/
  | overflow
  /-- a loop never ends -/
  | hangs

/-! ## the loops -/

section

variable {S : Type} (emit : DrawCommand → S → Except DrawFault S)

/-- The loop of `crepe_draw_context_text`; `px` is where the lines start. -/
def textLoop (font : Nat) (style : TextStyle) (px : Int) :
    Bytes → Int → Int → S → Except DrawFault S
  | [], _, _, s => .ok s
  | c :: text, x, y, s =>
      let size := fontSize style
      if c = 10 then textLoop font style px text px (i32 (y + size.2)) s
      else if c < 32 ∨ c > 126 then textLoop font style px text x y s
      else
        let offset := if style.inverted then size.2 * 6 else 0
        let glyph := c.toNat - 32
        (emit (.copyArea font x y (glyph % 16 * size.1) (glyph / 16 * size.2 + offset)
          size.1 size.2) s).bind (textLoop font style px text (i32 (x + size.1)) y)

/-- The inner loop of `crepe_draw_context_image_repeated`.  A round that
draws nothing is repeated forever. -/
def rowLoop (image : Nat) (x y : Int) (sw ph : Nat) (ay : Int) :
    Nat → Nat → Int → S → Except DrawFault S
  | fuel, w, ax, s =>
      if w = 0 then .ok s
      else match fuel with
        | 0 => .error .hangs
        | fuel + 1 =>
            let pw := if w > sw then sw else w
            (emit (.copyArea image ax ay (wrap x) (wrap y) pw ph) s).bind
              (rowLoop image x y sw ph ay fuel (w - pw) (i32 (ax + pw)))

/-- The outer loop of `crepe_draw_context_image_repeated`. -/
def gridLoop (image : Nat) (x y : Int) (sw sh w : Nat) (px : Int) :
    Nat → Nat → Int → S → Except DrawFault S
  | fuel, h, ay, s =>
      if h = 0 then .ok s
      else match fuel with
        | 0 => .error .hangs
        | fuel + 1 =>
            let ph := if h > sh then sh else h
            (rowLoop emit image x y sw ph ay w w px s).bind
              (gridLoop image x y sw sh w px fuel (h - ph) (i32 (ay + ph)))

/-- `crepe_draw_context_image`, at the position `px`, `py`. -/
def drawImage (image : Nat) (x y : Int) (w h : Nat) (px py : Int) : S → Except DrawFault S :=
  emit (.copyArea image px py (wrap x) (wrap y) w h)

/-- `crepe_draw_context_image_repeated`, at the position `px`, `py`. -/
def drawRepeated (image : Nat) (x y : Int) (sw sh w h : Nat) (px py : Int) :
    S → Except DrawFault S :=
  gridLoop emit image x y sw sh w px h h py

/-- The corners and the edges between them, clockwise from the top left. -/
def drawFrame (image : Nat) (x sx sxr y sy syb : Int) (bw esw esh ew eh : Nat)
    (left inner right top below bottom : Int) (s : S) : Except DrawFault S :=
  (drawImage emit image x y bw bw left top s).bind fun s =>
  (drawRepeated emit image sx y esw bw ew bw inner top s).bind fun s =>
  (drawImage emit image sxr y bw bw right top s).bind fun s =>
  (drawRepeated emit image sxr sy bw esh bw eh right below s).bind fun s =>
  (drawImage emit image sxr syb bw bw right bottom s).bind fun s =>
  (drawRepeated emit image sx syb esw bw ew bw inner bottom s).bind fun s =>
  (drawImage emit image x syb bw bw left bottom s).bind fun s =>
  drawRepeated emit image x sy bw esh bw eh left below s

/-- `crepe_draw_context_border`, at the position `ax`, `ay`. -/
def drawBorder (image : Nat) (x y : Int) (sw sh w h bw : Nat) (ax ay : Int) (s : S) :
    Except DrawFault S :=
  drawFrame emit image
    x (i32 (x + bw)) (i32 (x + sub32 sw bw))
    y (i32 (y + bw)) (i32 (y + sub32 sh bw))
    bw (sub32 sw (bw * 2)) (sub32 sh (bw * 2)) (sub32 w (bw * 2)) (sub32 h (bw * 2))
    ax (i32 (ax + bw)) (i32 (ax + sub32 w bw))
    ay (i32 (ay + bw)) (i32 (ay + sub32 h bw)) s

end

/-! ## the calls -/

inductive DrawCall where
  | clear (color : Color)
  | fillRect (w h : Nat) (color : Color)
  | position (x y : Int)
  /-- with the characters before the NUL -/
  | text (style : TextStyle) (text : Bytes)
  | image (image : Nat) (x y : Int) (w h : Nat)
  | imageRepeated (image : Nat) (x y : Int) (sw sh w h : Nat)
  | border (image : Nat) (x y : Int) (sw sh w h bw : Nat)
  | flush

/-- What a call does with the commands that it issues. -/
def DrawCall.issue {S : Type} (emit : DrawCommand → S → Except DrawFault S) (fonts : Bool → Nat)
    (px py : Int) : DrawCall → S → Except DrawFault S
  | .clear color => emit (.fill color)
  | .fillRect w h color => emit (.fillRect px py w h color)
  | .text style str => textLoop emit (fonts style.bold) style px str px py
  | .image id x y w h => drawImage emit id x y w h px py
  | .imageRepeated id x y sw sh w h => drawRepeated emit id x y sw sh w h px py
  | .border id x y sw sh w h bw => drawBorder emit id x y sw sh w h bw px py
  | .position _ _ | .flush => .ok

/-- Where the next call draws. -/
def DrawCall.pen (p : Int × Int) : DrawCall → Int × Int
  | .position x y => (x, y)
  | _ => p

/-- How a call queues a command: all but `crepe_draw_context_fill_rect` send
a full array. -/
def DrawCall.emit (call : DrawCall) (c : DrawCommand) (out : Outbox DrawCommand) :
    Except DrawFault (Outbox DrawCommand) :=
  match call with
  | .fillRect .. => out.put WM_DRAW_BATCH_MAX .overflow c
  | _ => out.putFlush WM_DRAW_BATCH_MAX .overflow c

/-- The context once a call has queued its commands. -/
def DrawCall.settle (call : DrawCall) (ctx : DrawContext) (out : Outbox DrawCommand) :
    DrawContext :=
  { ctx with
    out := match call with
      | .flush => out.flush
      | _ => out
    x := (call.pen (ctx.x, ctx.y)).1
    y := (call.pen (ctx.x, ctx.y)).2 }

/-- A call. -/
def DrawCall.run (call : DrawCall) (ctx : DrawContext) : Except DrawFault DrawContext :=
  (call.issue call.emit ctx.fonts ctx.x ctx.y ctx.out).map (call.settle ctx)

/-- `crepe_draw_context_begin`: what is still queued is dropped, and the
record of what is sent starts anew. -/
def drawBegin (ctx : DrawContext) : DrawContext := { ctx with out := {}, x := 0, y := 0 }

/-- `crepe_draw_context_end`. -/
def drawEnd (ctx : DrawContext) : DrawContext := { ctx with out := ctx.out.flush }

/-- The calls, one after the other. -/
def drawCalls : List DrawCall → DrawContext → Except DrawFault DrawContext
  | [], ctx => .ok ctx
  | call :: calls, ctx => (call.run ctx).bind (drawCalls calls)

/-! ## the commands of a call -/

/-- List a command. -/
def listCommand (c : DrawCommand) (l : List DrawCommand) : Except DrawFault (List DrawCommand) :=
  .ok (l ++ [c])

/-- The commands that the calls issue from the position `p` on, if every
call returns. -/
def issued (fonts : Bool → Nat) : Int × Int → List DrawCall → Except DrawFault (List DrawCommand)
  | _, [] => .ok []
  | p, call :: calls =>
      (call.issue listCommand fonts p.1 p.2 []).bind fun l =>
      (issued fonts (call.pen p) calls).map (l ++ ·)

/-- Queue the commands of a list. -/
def emitAll {S : Type} (emit : DrawCommand → S → Except DrawFault S) :
    List DrawCommand → S → Except DrawFault S
  | [], s => .ok s
  | c :: cs, s => (emit c s).bind (emitAll emit cs)

/-- The commands that code issues, and whether it then loops forever. -/
structure Script where
  commands : List DrawCommand
  hangs : Bool

def Script.run {S : Type} (sc : Script) (emit : DrawCommand → S → Except DrawFault S) (s : S) :
    Except DrawFault S :=
  (emitAll emit sc.commands s).bind fun s => if sc.hangs then .error .hangs else .ok s

/-- Code that queues commands, whatever the queue is. -/
abbrev Drawing := ∀ S : Type, (DrawCommand → S → Except DrawFault S) → S → Except DrawFault S

/-- It queues the commands of a script, which does not depend on the queue. -/
def Drawing.Uniform (f : Drawing) : Prop := ∃ sc : Script, ∀ S emit s, f S emit s = sc.run emit s

section

variable {S : Type} {emit : DrawCommand → S → Except DrawFault S} {f g : Drawing} {sc : Script}
variable {s : S} {cs ds l l' : List DrawCommand}

theorem emitAll_append : emitAll emit (cs ++ ds) s = (emitAll emit cs s).bind (emitAll emit ds) := by
  induction cs generalizing s with
  | nil => rfl
  | cons c cs ih =>
      simp only [List.cons_append, emitAll]
      cases emit c s with
      | error e => rfl
      | ok s' => exact ih

theorem emitAll_listCommand : emitAll listCommand cs l = .ok (l ++ cs) := by
  induction cs generalizing l with
  | nil => simp [emitAll]
  | cons c cs ih => simp [emitAll, listCommand, Except.bind, ih]

/-- What a script lists. -/
theorem Script.run_listCommand :
    sc.run listCommand l = if sc.hangs then .error .hangs else .ok (l ++ sc.commands) := by
  simp [Script.run, emitAll_listCommand, Except.bind]

theorem Drawing.Uniform.none : Drawing.Uniform fun _ _ s => .ok s :=
  ⟨⟨[], false⟩, fun _ _ _ => rfl⟩

theorem Drawing.Uniform.hangs : Drawing.Uniform fun _ _ _ => .error .hangs :=
  ⟨⟨[], true⟩, fun _ _ _ => rfl⟩

theorem Drawing.Uniform.one (c : DrawCommand) : Drawing.Uniform fun _ emit s => emit c s := by
  refine ⟨⟨[c], false⟩, fun S emit s => ?_⟩
  simp only [Script.run, emitAll]
  cases emit c s <;> rfl

theorem Drawing.Uniform.bind (hf : Drawing.Uniform f) (hg : Drawing.Uniform g) :
    Drawing.Uniform fun S emit s => (f S emit s).bind (g S emit) := by
  obtain ⟨⟨cs, fh⟩, hf⟩ := hf
  obtain ⟨⟨ds, gh⟩, hg⟩ := hg
  cases fh with
  | true =>
      refine ⟨⟨cs, true⟩, fun S emit s => ?_⟩
      simp only [hf, Script.run]
      cases emitAll emit cs s <;> rfl
  | false =>
      refine ⟨⟨cs ++ ds, gh⟩, fun S emit s => ?_⟩
      simp only [hf, Script.run, emitAll_append]
      cases emitAll emit cs s with
      | error e => rfl
      | ok s' => exact hg S emit s'

end

theorem uniform_textLoop (font : Nat) (style : TextStyle) (px : Int) (text : Bytes) (x y : Int) :
    Drawing.Uniform fun _ emit s => textLoop emit font style px text x y s := by
  induction text generalizing x y with
  | nil => exact .none
  | cons c text ih =>
      by_cases h1 : c = 10
      · simp only [textLoop, h1, if_true]
        exact ih _ _
      · by_cases h2 : c < 32 ∨ c > 126
        · simp only [textLoop, h1, h2, if_true, if_false]
          exact ih _ _
        · simp only [textLoop, h1, h2, if_false]
          exact .bind (.one _) (ih _ _)

theorem uniform_rowLoop (image : Nat) (x y : Int) (sw ph : Nat) (ay : Int) (fuel w : Nat)
    (ax : Int) : Drawing.Uniform fun _ emit s => rowLoop emit image x y sw ph ay fuel w ax s := by
  induction fuel generalizing w ax with
  | zero =>
      by_cases hw : w = 0
      · simp only [rowLoop, hw, if_true]
        exact .none
      · simp only [rowLoop, hw, if_false]
        exact .hangs
  | succ fuel ih =>
      by_cases hw : w = 0
      · simp only [rowLoop, hw, if_true]
        exact .none
      · simp only [rowLoop, hw, if_false]
        exact .bind (.one _) (ih _ _)

theorem uniform_gridLoop (image : Nat) (x y : Int) (sw sh w : Nat) (px : Int) (fuel h : Nat)
    (ay : Int) :
    Drawing.Uniform fun _ emit s => gridLoop emit image x y sw sh w px fuel h ay s := by
  induction fuel generalizing h ay with
  | zero =>
      by_cases hh : h = 0
      · simp only [gridLoop, hh, if_true]
        exact .none
      · simp only [gridLoop, hh, if_false]
        exact .hangs
  | succ fuel ih =>
      by_cases hh : h = 0
      · simp only [gridLoop, hh, if_true]
        exact .none
      · simp only [gridLoop, hh, if_false]
        exact .bind (uniform_rowLoop ..) (ih _ _)

theorem uniform_drawImage (image : Nat) (x y : Int) (w h : Nat) (px py : Int) :
    Drawing.Uniform fun _ emit s => drawImage emit image x y w h px py s :=
  .one _

theorem uniform_drawRepeated (image : Nat) (x y : Int) (sw sh w h : Nat) (px py : Int) :
    Drawing.Uniform fun _ emit s => drawRepeated emit image x y sw sh w h px py s :=
  uniform_gridLoop ..

theorem uniform_drawFrame (image : Nat) (x sx sxr y sy syb : Int) (bw esw esh ew eh : Nat)
    (left inner right top below bottom : Int) :
    Drawing.Uniform fun _ emit s => drawFrame emit image x sx sxr y sy syb bw esw esh ew eh
      left inner right top below bottom s := by
  have himage := uniform_drawImage image
  have hedge := uniform_drawRepeated image
  exact .bind (himage ..) (.bind (hedge ..) (.bind (himage ..) (.bind (hedge ..)
    (.bind (himage ..) (.bind (hedge ..) (.bind (himage ..) (hedge ..)))))))

/-- **Every call** queues the commands that it lists. -/
theorem uniform_issue (call : DrawCall) (fonts : Bool → Nat) (px py : Int) :
    Drawing.Uniform fun _ emit s => call.issue emit fonts px py s := by
  cases call with
  | clear color => exact .one _
  | fillRect w h color => exact .one _
  | position x y => exact .none
  | text style text => exact uniform_textLoop ..
  | image image x y w h => exact .one _
  | imageRepeated image x y sw sh w h => exact uniform_gridLoop ..
  | border image x y sw sh w h bw => exact uniform_drawFrame ..
  | flush => exact .none

/-! ## the property -/

/-- No call between `begin` and `end` writes a command behind the array, and
if they all return, the batches sent are the commands issued. -/
def Batched (ctx : DrawContext) (calls : List DrawCall) : Prop :=
  drawCalls calls (drawBegin ctx) ≠ .error .overflow ∧
    ∀ l, issued ctx.fonts (0, 0) calls = .ok l →
      ∃ ctx', drawCalls calls (drawBegin ctx) = .ok ctx' ∧ (drawEnd ctx').out.sent.flatten = l

/-! ## the condition -/

/-- The call issues a command. -/
def DrawCall.draws (call : DrawCall) (fonts : Bool → Nat) (p : Int × Int) : Bool :=
  match call.issue (fun _ () => .error .overflow) fonts p.1 p.2 () with
  | .error .overflow => true
  | _ => false

/-- How many commands are queued after a call that issues `k` of them. -/
def DrawCall.queued (call : DrawCall) (k n : Nat) : Nat :=
  match call with
  | .flush => 0
  | .fillRect .. => n + 1
  | _ => if k = 0 then n else (n + k) % WM_DRAW_BATCH_MAX

/-- No call issues a command while the array is full, with `n` commands
queued at the start. -/
def fits (fonts : Bool → Nat) : Int × Int → Nat → List DrawCall → Bool
  | _, _, [] => true
  | p, n, call :: calls =>
      if call.draws fonts p ∧ n ≥ WM_DRAW_BATCH_MAX then false
      else match call.issue listCommand fonts p.1 p.2 [] with
        | .error _ => true
        | .ok l => fits fonts (call.pen p) (call.queued l.length n) calls

/-! ## runs -/

section

variable {call : DrawCall} {calls : List DrawCall} {ctx : DrawContext} {l : List DrawCommand}
variable {fonts : Bool → Nat} {px py : Int} {out : Outbox DrawCommand} {sc : Script}

theorem draws_eq (hsc : ∀ S emit s, call.issue (S := S) emit fonts px py s = sc.run emit s) :
    call.draws fonts (px, py) = !sc.commands.isEmpty := by
  unfold DrawCall.draws
  rw [hsc]
  rcases sc with ⟨_ | ⟨c, cs⟩, _ | _⟩ <;> rfl

theorem emitAll_putFlush :
    emitAll (fun c out => out.putFlush WM_DRAW_BATCH_MAX .overflow c) l out =
      Outbox.putAll WM_DRAW_BATCH_MAX .overflow l out := by
  induction l generalizing out with
  | nil => rfl
  | cons c l ih =>
      simp only [emitAll, Outbox.putAll]
      congr 1
      funext out
      exact ih

/-- The commands of a call that sends a full array. -/
theorem emitAll_checked (hroom : l = [] ∨ out.queue.length < WM_DRAW_BATCH_MAX) :
    ∃ out', emitAll (fun c out => out.putFlush WM_DRAW_BATCH_MAX .overflow c) l out = .ok out' ∧
      out'.all = out.all ++ l ∧ out'.queue.length =
        if l.length = 0 then out.queue.length
        else (out.queue.length + l.length) % WM_DRAW_BATCH_MAX := by
  rw [emitAll_putFlush]
  by_cases hl : l = []
  · subst hl
    exact ⟨out, rfl, by simp, rfl⟩
  · rw [if_neg fun h => hl (List.eq_nil_of_length_eq_zero h)]
    exact Outbox.putAll_of_lt (hroom.resolve_left hl)

/-- The commands of a call that has room for the first. -/
theorem emitAll_emit
    (hsc : ∀ S emit s, call.issue (S := S) emit fonts px py s = sc.run emit s)
    (hroom : sc.commands = [] ∨ out.queue.length < WM_DRAW_BATCH_MAX) :
    ∃ out', emitAll call.emit sc.commands out = .ok out' ∧ out'.all = out.all ++ sc.commands ∧
      (call = .flush ∨ out'.queue.length = call.queued sc.commands.length out.queue.length) := by
  have hchecked := emitAll_checked hroom
  cases call with
  | flush => exact hchecked.imp fun out' h => ⟨h.1, h.2.1, .inl rfl⟩
  | fillRect w h color =>
      have hl : sc.run listCommand [] = .ok [.fillRect px py w h color] :=
        (hsc _ listCommand []).symm
      rw [Script.run_listCommand] at hl
      split at hl
      · contradiction
      · replace hl : sc.commands = [.fillRect px py w h color] := Except.ok.inj hl
        have hn : out.queue.length < WM_DRAW_BATCH_MAX := hroom.resolve_left (by simp [hl])
        rw [hl]
        simp only [emitAll, DrawCall.emit, Outbox.put_of_lt hn]
        exact ⟨_, rfl, by simp [Outbox.all], .inr (by simp [DrawCall.queued])⟩
  | clear color => exact hchecked.imp fun out' h => ⟨h.1, h.2.1, .inr h.2.2⟩
  | position x y => exact hchecked.imp fun out' h => ⟨h.1, h.2.1, .inr h.2.2⟩
  | text style text => exact hchecked.imp fun out' h => ⟨h.1, h.2.1, .inr h.2.2⟩
  | image image x y w h => exact hchecked.imp fun out' h => ⟨h.1, h.2.1, .inr h.2.2⟩
  | imageRepeated image x y sw sh w h => exact hchecked.imp fun out' h => ⟨h.1, h.2.1, .inr h.2.2⟩
  | border image x y sw sh w h bw => exact hchecked.imp fun out' h => ⟨h.1, h.2.1, .inr h.2.2⟩

/-- A call without room writes behind the array. -/
theorem emitAll_full (hne : sc.commands ≠ []) (hfull : WM_DRAW_BATCH_MAX ≤ out.queue.length) :
    emitAll call.emit sc.commands out = .error .overflow := by
  obtain ⟨c, cs, hcs⟩ := List.exists_cons_of_ne_nil hne
  have hput : call.emit c out = .error .overflow := by
    cases call <;>
      simp only [DrawCall.emit, Outbox.putFlush, Outbox.put_of_ge hfull] <;> rfl
  rw [hcs, emitAll, hput]
  rfl

@[simp] theorem all_settle : (call.settle ctx out).out.all = out.all := by
  cases call <;> simp [DrawCall.settle]

theorem queue_settle {k n : Nat} (h : call = .flush ∨ out.queue.length = call.queued k n) :
    (call.settle ctx out).out.queue.length = call.queued k n := by
  cases call <;> simp [DrawCall.settle] at h ⊢ <;> first | exact h | rfl

/-- Room for what a call issues. -/
def DrawCall.Room (call : DrawCall) (ctx : DrawContext) : Prop :=
  ¬(call.draws ctx.fonts (ctx.x, ctx.y) ∧ ctx.out.queue.length ≥ WM_DRAW_BATCH_MAX)

/-- A call that has room never returns, or queues and sends what it issues. -/
theorem run_of_room (h : call.Room ctx) :
    (call.issue listCommand ctx.fonts ctx.x ctx.y [] = .error .hangs ∧
      call.run ctx = .error .hangs) ∨
    ∃ l ctx', call.issue listCommand ctx.fonts ctx.x ctx.y [] = .ok l ∧
      call.run ctx = .ok ctx' ∧ ctx'.fonts = ctx.fonts ∧
      (ctx'.x, ctx'.y) = call.pen (ctx.x, ctx.y) ∧ ctx'.out.all = ctx.out.all ++ l ∧
      ctx'.out.queue.length = call.queued l.length ctx.out.queue.length := by
  obtain ⟨sc, hsc⟩ := uniform_issue call ctx.fonts ctx.x ctx.y
  have hlist := (hsc _ listCommand []).trans Script.run_listCommand
  have hrun : call.run ctx = (sc.run call.emit ctx.out).map (call.settle ctx) :=
    congrArg (Except.map _) (hsc _ call.emit ctx.out)
  have hroom : sc.commands = [] ∨ ctx.out.queue.length < WM_DRAW_BATCH_MAX := by
    rw [DrawCall.Room, draws_eq hsc] at h
    simpa [or_iff_not_imp_left] using h
  obtain ⟨out, hout, hall, hqueue⟩ := emitAll_emit hsc hroom
  rw [Script.run, hout] at hrun
  cases hh : sc.hangs with
  | true =>
      rw [hh] at hlist hrun
      exact .inl ⟨hlist, hrun⟩
  | false =>
      rw [hh] at hlist hrun
      exact .inr ⟨_, _, hlist, hrun, rfl, rfl, all_settle.trans hall, queue_settle hqueue⟩

/-- A call without room writes behind the array. -/
theorem run_of_not_room (h : ¬call.Room ctx) : call.run ctx = .error .overflow := by
  obtain ⟨sc, hsc⟩ := uniform_issue call ctx.fonts ctx.x ctx.y
  have hrun : call.run ctx = (sc.run call.emit ctx.out).map (call.settle ctx) :=
    congrArg (Except.map _) (hsc _ call.emit ctx.out)
  rw [DrawCall.Room, draws_eq hsc, not_not] at h
  rw [hrun, Script.run, emitAll_full (by simpa using h.1) h.2]
  rfl

/-- **Run lemma**: if the calls fit, none writes behind the array, and if
they return, they queue and send what they issue. -/
theorem drawCalls_of_fits
    (h : fits ctx.fonts (ctx.x, ctx.y) ctx.out.queue.length calls = true) :
    drawCalls calls ctx ≠ .error .overflow ∧
      ∀ l, issued ctx.fonts (ctx.x, ctx.y) calls = .ok l →
        ∃ ctx', drawCalls calls ctx = .ok ctx' ∧ ctx'.out.all = ctx.out.all ++ l := by
  induction calls generalizing ctx with
  | nil =>
      refine ⟨nofun, fun l hl => ⟨ctx, rfl, ?_⟩⟩
      obtain rfl : [] = l := Except.ok.inj hl
      simp
  | cons call calls ih =>
      unfold fits at h
      split at h
      · contradiction
      next hroom =>
        obtain ⟨hlist, hrun⟩ | ⟨lc, ctx', hlist, hrun, hf, hp, hall, hqueue⟩ := run_of_room hroom
        · simp only [drawCalls, hrun, issued, hlist]
          exact ⟨nofun, nofun⟩
        · simp only [hlist] at h
          rw [← hf, ← hp, ← hqueue] at h
          obtain ⟨hover, hret⟩ := ih h
          simp only [drawCalls, hrun, issued, hlist, Except.bind]
          refine ⟨hover, fun l hl => ?_⟩
          rw [← hf, ← hp] at hl
          cases hi : issued ctx'.fonts (ctx'.x, ctx'.y) calls with
          | error e =>
              rw [hi] at hl
              contradiction
          | ok lr =>
              rw [hi] at hl
              obtain rfl : lc ++ lr = l := Except.ok.inj hl
              obtain ⟨ctx'', h2, hall'⟩ := hret lr hi
              exact ⟨ctx'', h2, by rw [hall', hall, List.append_assoc]⟩

/-- If they do not fit, one writes behind the array. -/
theorem drawCalls_of_not_fits
    (h : fits ctx.fonts (ctx.x, ctx.y) ctx.out.queue.length calls = false) :
    drawCalls calls ctx = .error .overflow := by
  induction calls generalizing ctx with
  | nil => contradiction
  | cons call calls ih =>
      unfold fits at h
      rw [drawCalls]
      split at h
      next hfull =>
        rw [run_of_not_room (not_not_intro hfull)]
        rfl
      next hroom =>
        obtain ⟨hlist, hrun⟩ | ⟨lc, ctx', hlist, hrun, hf, hp, hall, hqueue⟩ := run_of_room hroom
        · simp only [hlist] at h
          contradiction
        · simp only [hlist] at h
          rw [← hf, ← hp, ← hqueue] at h
          rw [hrun]
          exact ih h

theorem sent_drawEnd (ctx : DrawContext) : (drawEnd ctx).out.sent.flatten = ctx.out.all := by
  have h : (drawEnd ctx).out.all = ctx.out.all := Outbox.all_flush
  rwa [Outbox.all, drawEnd, Outbox.queue_flush, List.append_nil] at h

end

/-- **Batches are the issued commands** exactly if no call issues a command
while the array is full.  Only `crepe_draw_context_fill_rect` leaves it so. -/
theorem batched_iff_fits (ctx : DrawContext) (calls : List DrawCall) :
    Batched ctx calls ↔ fits ctx.fonts (0, 0) 0 calls = true := by
  constructor
  · intro h
    cases hfits : fits ctx.fonts (0, 0) 0 calls with
    | true => rfl
    | false => exact absurd (drawCalls_of_not_fits hfits) h.1
  · intro h
    have hstart : fits (drawBegin ctx).fonts ((drawBegin ctx).x, (drawBegin ctx).y)
        (drawBegin ctx).out.queue.length calls = true := h
    obtain ⟨hover, hret⟩ := drawCalls_of_fits hstart
    refine ⟨hover, fun l hl => ?_⟩
    obtain ⟨ctx', hrun, hall⟩ := hret l hl
    exact ⟨ctx', hrun, (sent_drawEnd ctx').trans hall⟩

/-- One rectangle more than the array has room for. -/
def manyRects : List DrawCall := List.replicate (WM_DRAW_BATCH_MAX + 1) (.fillRect 1 1 ⟨0, 0, 0⟩)

/-- **Rectangles drawn one after the other** write behind the array. -/
theorem not_batched : ¬∀ ctx calls, Batched ctx calls := by
  intro h
  let ctx : DrawContext := ⟨{}, 0, 0, fun _ => 0⟩
  have hfits : fits ctx.fonts (0, 0) 0 manyRects = false := by decide +kernel
  exact (h ctx manyRects).1 (drawCalls_of_not_fits hfits)

end Eclair
