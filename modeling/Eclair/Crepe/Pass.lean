import Eclair.Crepe.Draw
import Eclair.Wm.Calls
import Eclair.Wm.Compose
import Eclair.Wm.Safety

/-!
# Eclair.Crepe.Pass

A drawing pass from end to end: the calls of `lib/crepe/draw.c`, their
batches as `wm_draw_batch` sends them, and the image of the server after
`handle_draw_batch`.

`pass_shows` says that each pixel then shows the last command that covers
it, however the commands came into batches and whatever the server does for
others between them.
-/

namespace Eclair

open Painter

/-! ## commands on the way -/

/-- A command in the message; `pad` is what the array held there before. -/
inductive DrawCommand.SentAs : DrawCommand → WmDraw → Prop
  | copyArea (id : Nat) (x y : Int) (sx sy sw sh : Nat) :
      SentAs (.copyArea id x y sx sy sw sh)
        (.copyArea (u32 id) (wrap x) (wrap y) (u32 sx) (u32 sy) (u32 sw) (u32 sh))
  | fill (color : Color) {pad : Bytes} (hpad : pad.length = 25) : SentAs (.fill color) (.fill color pad)
  | fillRect (x y : Int) (w h : Nat) (color : Color) {pad : Bytes} (hpad : pad.length = 9) :
      SentAs (.fillRect x y w h color) (.fillRect (wrap x) (wrap y) (u32 w) (u32 h) color pad)

/-- The arguments of `image_copy_area`. -/
def copyArgs (x y : Int) (sx sy sw sh : Nat) : CopyArea :=
  ⟨i32 x, i32 y, i32 sx, i32 sy, i32 sw, i32 sh⟩

/-- The arguments of `image_fill_rect`. -/
def rectArgs (x y : Int) (w h : Nat) : Area := ⟨i32 x, i32 y, i32 w, i32 h⟩

namespace DrawCommand

/-- The image that a command copies from. -/
def source : DrawCommand → Option Nat
  | .copyArea id _ _ _ _ _ _ => some (u32 id)
  | .fill _ | .fillRect .. => none

/-- The pixels that a command sets: a byte of one, or nothing where the image stays as it is. -/
def layer (fb : Display) (images : Nat → Option Image) : DrawCommand → Nat × Nat × Nat → Option UInt8
  | .copyArea id x y sx sy sw sh, (c, r, i) =>
      (images (u32 id)).bind fun image =>
        let a := copyArgs x y sx sy sw sh
        if a.Has image c r then
          some (image.byteOf (a.sx + (c - a.x)).toNat (a.sy + (r - a.y)).toNat i)
        else none
  | .fill color, (_, _, i) => some (screenConvertColor fb color i)
  | .fillRect x y w h color, (c, r, i) =>
      let a := rectArgs x y w h
      if Covers a.x a.w c ∧ Covers a.y a.h r then some (screenConvertColor fb color i) else none

/-- The command copies from another live image like this one, if it copies, and its arguments are
such that the server clips them right. -/
def Right (s : Wm) (k : Nat) (image : Image) : DrawCommand → Prop
  | .copyArea id x y sx sy sw sh =>
      u32 id ≠ k ∧ HasType s (u32 id) WM_RESOURCE_IMAGE ∧
        ∃ other, s.image (u32 id) = some other ∧ other.Real ∧ other.depthBytes = image.depthBytes ∧
          (copyArgs x y sx sy sw sh).When image other false
  | .fill _ => True
  | .fillRect x y w h _ => FillWhen image (rectArgs x y w h)

end DrawCommand

/-! ## a pass -/

/-- What the server does: it processes a message of this client, or what others ask for. -/
inductive PassEvent where
  | message (m : Bytes)
  | other (f : Wm → Wm)

/-- One of them; a message has to be answered with success. -/
def PassEvent.next (fb : Display) (s : Wm) : PassEvent → Option Wm
  | .message m => match processMessage fb m s with
    | .ok (some (t, .result v)) => if v = WM_SUCCESS then some t else none
    | _ => none
  | .other f => some (f s)

/-- The messages of the client. -/
def messagesOf (es : List PassEvent) : List Bytes :=
  es.filterMap fun
    | .message m => some m
    | .other _ => none

/-- The image `k` and the images that the commands copy from are left alone. -/
def Aside (k : Nat) (l : List DrawCommand) (f : Wm → Wm) : Prop :=
  ∀ s j, (j = k ∨ ∃ c ∈ l, c.source = some j) → (f s).resources j = s.resources j

variable {fb : Display} {s t : Wm} {k cls : Nat} {image dest dest' : Image} {c : DrawCommand} {d : WmDraw}
  {l done cs : List DrawCommand} {ds : List WmDraw}

/-! ## one command -/

theorem i32_wrap (x : Int) : i32 (wrap x) = i32 x := by
  have hx : ((wrap x : Nat) : Int) = x % 2 ^ 32 := by
    rw [wrap]
    omega
  rw [i32, i32, hx]
  exact Int.emod_bmod x (2 ^ 32)

theorem i32_u32 (n : Nat) : i32 (u32 n) = i32 n := by
  rw [← wrap_natCast, i32_wrap]

theorem isInt_i32 (a : Int) : IsInt (i32 a) := i32_bounds a

theorem copyArgs_ints (x y : Int) (sx sy sw sh : Nat) : (copyArgs x y sx sy sw sh).Ints := by
  constructor <;> dsimp only [copyArgs] <;> exact isInt_i32 _

theorem rectArgs_ints (x y : Int) (w h : Nat) : (rectArgs x y w h).Ints := by
  constructor <;> dsimp only [rectArgs] <;> exact isInt_i32 _

/-- A round of the second loop of `image_fill` copies the first row to another. -/
theorem copyFirstRow_becomes (h : image.Real) {j : Nat} (hj : j < image.height) :
    ∃ image', copyRun image image (u32 (j * image.pitch)) 0 (u32 (image.width * image.depthBytes))
        = .ok image' ∧
      image.Becomes image' fun c r i => if r = j then image.byteOf c 0 i else image.byteOf c r i := by
  obtain ⟨image', hok, hrow⟩ := copyRun_becomes h h rfl image.width hj (show 0 < image.height by omega)
    (show 0 + image.width ≤ image.width by omega) (show 0 + image.width ≤ image.width by omega)
  have hlen := h.wrap_columns (n := image.width) (by omega) (Nat.le_refl _)
  rw [← Int.natCast_mul, wrap_natCast] at hlen
  have hplace : image.pixel (0 : Nat) j = u32 (j * image.pitch) := by
    rw [Image.pixel_natCast, Nat.zero_mul, Nat.add_zero]
  have hzero : image.pixel (0 : Nat) (0 : Nat) = 0 := by
    rw [Image.pixel_natCast, Nat.zero_mul, Nat.zero_mul]
    rfl
  rw [hplace, hzero, ← hlen] at hok
  refine ⟨image', hok, hrow.congr fun c hc r _ i _ => ?_⟩
  rw [Nat.sub_zero, Nat.zero_add, Nat.zero_add]
  exact if_ctx_congr (by omega) (fun _ => rfl) fun _ => rfl

/-- `image_fill` sets every pixel: the first row one by one, the others as copies of it. -/
theorem imageFill_becomes (fb : Display) (h : image.Real) (color : Color) :
    ∃ image', imageFill fb image color = .ok image' ∧
      image.Becomes image' fun _ _ i => screenConvertColor fb color i := by
  by_cases h0 : image.height = 0
  · exact ⟨image, if_pos h0, Image.Becomes.refl.congr fun c hc r hr => by omega⟩
  have hpos : 0 < image.height := by omega
  obtain ⟨t, ht, hfirst⟩ := fillColumns_becomes h (x := 0) (y := 0) (n := image.width) hpos (by omega)
    (screenConvertColor fb color)
  have hcolumns : (fun (i : Nat) (t : Image) => t.writeRun (t.pixel (((0 : Nat) : Int) + i) ((0 : Nat) : Int))
      t.depthBytes (screenConvertColor fb color)) = fun x t => t.writeRun (u32 (x * t.depthBytes))
      t.depthBytes (screenConvertColor fb color) := by
    funext x t
    rw [← Int.natCast_add, Image.pixel_natCast, Nat.zero_mul, Nat.zero_add, Nat.zero_add]
  rw [hcolumns] at ht
  have hreal := h.sameSize hfirst.size
  let I (j : Nat) (u : Image) : Prop := t.Becomes u fun c r i =>
    if r < j then t.byteOf c 0 i else t.byteOf c r i
  have hstart : I 1 t := Image.Becomes.refl.congr fun c _ r _ i _ => by
    split
    · rw [show r = 0 by omega]
    · rfl
  have hround : ∀ j u, 1 ≤ j → j < 1 + (t.height - 1) → I j u → ∃ v, Loop.tryEach (fun y u =>
      copyRun u u (u32 (y * u.pitch)) 0 (u32 (u.width * u.depthBytes))) j u = .ok (v, true) ∧
        I (j + 1) v := by
    intro j u h1 hj hu
    have hheight := hu.size.height
    obtain ⟨v, hv, hrow⟩ := copyFirstRow_becomes (hreal.sameSize hu.size) (show j < u.height by omega)
    refine ⟨v, ?_, hu.trans hrow fun c hc r hr i hi => ?_⟩
    · rw [Loop.tryEach, hv, Except.bind]
    · by_cases hcr : r = j
      · rw [if_pos hcr, if_pos (by omega), hu.bytes c hc 0 (by omega) i hi, if_pos (by omega)]
      · rw [if_neg hcr, hu.bytes c hc r hr i hi]
        exact if_ctx_congr (by omega) (fun _ => rfl) fun _ => rfl
  obtain ⟨image', hok, hI, -⟩ := Loop.tryLoop_spec hround hstart
  refine ⟨image', ?_, hfirst.trans hI fun c hc r hr i hi => ?_⟩
  · rw [imageFill, if_neg h0, ht, ok_bind]
    exact hok
  · have hheight := hfirst.size.height
    rw [if_pos (by omega), hfirst.bytes c hc 0 hpos i hi, if_pos (by omega)]

/-- The image stays live when it is drawn on, and keeps its class. -/
theorem draw_redraws (fb : Display) (hi : LiveImage s k cls dest) (hreal : dest.Real) (hsent : c.SentAs d)
    (hright : c.Right s k dest) :
    ∃ dest', d.draw fb k s = .ok (s.redraw k dest', true) ∧
      dest.Becomes dest' fun x y i => (c.layer fb s.image (x, y, i)).getD (dest.byteOf x y i) := by
  have hget : imageResourceGetImage s k = .ok dest := by rw [imageResourceGetImage, hi.image_eq]
  cases hsent with
  | copyArea id x y sx sy sw sh =>
      obtain ⟨hne, htype, other, hother, horeal, hdepth, hwhen⟩ := hright
      obtain ⟨dest', hok, hbecomes⟩ := CopyArea.copies_of_when hreal horeal (copyArgs_ints x y sx sy sw sh)
        hdepth (by simp) hwhen
      refine ⟨dest', ?_, hbecomes.congr fun x' _ y' _ i _ => ?_⟩
      · rw [WmDraw.draw, if_pos htype, hget, ok_bind, imageResourceGetImage, hother]
        dsimp only
        rw [ok_bind, i32_wrap, i32_wrap, i32_u32, i32_u32, i32_u32, i32_u32, decide_eq_false hne]
        dsimp only [copyArgs] at hok
        rw [hok, ok_bind]
      · rw [CopyArea.spec, DrawCommand.layer, hother, Option.bind_some]
        dsimp only
        split <;> rfl
  | fill color hpad =>
      obtain ⟨dest', hok, hbecomes⟩ := imageFill_becomes fb hreal color
      exact ⟨dest', by rw [WmDraw.draw, hget, ok_bind, hok, ok_bind], hbecomes⟩
  | fillRect x y w h color hpad =>
      have hrect : FillsRect fb dest (rectArgs x y w h) :=
        (fillsRect_iff hreal (rectArgs_ints x y w h)).mpr hright
      obtain ⟨-, hfills⟩ := hrect
      obtain ⟨dest', hok, hbecomes⟩ := hfills dest .refl color
      refine ⟨dest', ?_, hbecomes.congr fun x' _ y' _ i _ => ?_⟩
      · rw [WmDraw.draw, hget, ok_bind, i32_wrap, i32_wrap, i32_u32, i32_u32]
        rw [rectArgs] at hok
        rw [hok, ok_bind]
      · rw [fillSpec, DrawCommand.layer]
        split <;> rfl

/-! ## a list of commands -/

theorem hasType_congr {id type : Nat} (h : t.resources id = s.resources id) :
    HasType t id type ↔ HasType s id type := by
  simp only [HasType, serverGetResource, h]

theorem HasType.lt {id type : Nat} (h : HasType s id type) : id < MAX_RESOURCES := by
  obtain ⟨hget, -⟩ := h
  unfold serverGetResource at hget
  split at hget
  · next hc => exact hc.1
  · contradiction

theorem image_congr {j : Nat} (h : t.resources j = s.resources j) : t.image j = s.image j := by
  rw [Wm.image, Wm.image, h]

theorem fillWhen_congr {a : Area} (h : dest.SameSize dest') : FillWhen dest a ↔ FillWhen dest' a := by
  simp only [FillWhen, FillDefined, h.width, h.height]

/-- What a command needs depends on the sizes of the image, and on the image that it copies from. -/
theorem DrawCommand.Right.congr (h : c.Right s k dest)
    (hsource : ∀ j, c.source = some j → t.resources j = s.resources j) (hsize : dest.SameSize dest') :
    c.Right t k dest' := by
  cases c with
  | copyArea id x y sx sy sw sh =>
      obtain ⟨hne, htype, other, hother, horeal, hdepth, hwhen⟩ := h
      have hres := hsource (u32 id) rfl
      refine ⟨hne, (hasType_congr hres).mpr htype, other, (image_congr hres).trans hother, horeal,
        hdepth.trans hsize.depth.symm, ?_⟩
      rw [hsize.eq_withData]
      exact hwhen.withData
  | fill color => trivial
  | fillRect x y w h' color => exact (fillWhen_congr hsize).mp h

/-- The pixels that a command sets depend on the image that it copies from. -/
theorem DrawCommand.layer_congr (hsource : ∀ j, c.source = some j → t.resources j = s.resources j) :
    c.layer fb t.image = c.layer fb s.image := by
  cases c with
  | copyArea id x y sx sy sw sh =>
      funext p
      simp only [DrawCommand.layer, image_congr (hsource (u32 id) rfl)]
  | fill color => rfl
  | fillRect x y w h color => rfl

/-- The image `k`, which was `image` in the state `s`, with the commands `done` painted on it; the
commands `l` still find the images that they copy from. -/
structure Painted (fb : Display) (s : Wm) (k : Nat) (image : Image) (l done : List DrawCommand) (t : Wm) :
    Prop where
  image : ∃ cls now, LiveImage t k cls now ∧ image.Becomes now fun x y i =>
    paint image.seen (done.map (DrawCommand.layer fb s.image)) (x, y, i)
  type : HasType t k WM_RESOURCE_IMAGE
  sources : ∀ c ∈ l, ∀ j, c.source = some j → t.resources j = s.resources j

theorem paint_append (ls : List (Nat × Nat × Nat → Option UInt8)) (f : Nat × Nat × Nat → Option UInt8)
    (a : Nat × Nat × Nat → UInt8) (p : Nat × Nat × Nat) :
    paint a (ls ++ [f]) p = (f p).getD (paint a ls p) := by
  rw [paint, List.foldl_append]
  rfl

/-- **One command** paints its layer over what is there. -/
theorem Painted.draw (h : Painted fb s k image l done t) (hreal : image.Real) (hc : c ∈ l)
    (hright : ∀ c ∈ l, c.Right s k image) (hsent : c.SentAs d) :
    ∃ u, d.draw fb k t = .ok (u, true) ∧ Painted fb s k image l (done ++ [c]) u := by
  obtain ⟨cls, now, hi, hnow⟩ := h.image
  have hsource := h.sources c hc
  obtain ⟨dest, hdraw, hdest⟩ := draw_redraws fb hi (hreal.sameSize hnow.size) hsent
    ((hright c hc).congr hsource hnow.size)
  refine ⟨_, hdraw, ⟨cls, dest, hi.redrawn, hnow.trans hdest fun x hx y hy i hi => ?_⟩,
    hasType_redraw.mpr h.type, fun c' hc' j hj => ?_⟩
  · rw [List.map_append, List.map_singleton, paint_append, DrawCommand.layer_congr hsource,
      hnow.bytes x hx y hy i hi]
  · have hjk : j ≠ k := by
      rintro rfl
      have hr := hright c' hc'
      cases c' with
      | copyArea id x y sx sy sw sh => exact hr.1 (Option.some.inj hj)
      | fill color => cases hj
      | fillRect x y w h color => cases hj
    rw [hi.redraw, Wm.modify_other hjk]
    exact h.sources c' hc' j hj

/-- **The commands of a batch**, one over the other. -/
theorem Painted.drawAll (h : Painted fb s k image l done t) (hreal : image.Real)
    (hright : ∀ c ∈ l, c.Right s k image) (hsent : List.Forall₂ DrawCommand.SentAs cs ds)
    (hcs : ∀ c ∈ cs, c ∈ l) :
    ∃ u, drawAll fb k ds t = .ok u ∧ Painted fb s k image l (done ++ cs) u := by
  induction hsent generalizing t done with
  | nil => exact ⟨t, rfl, by rwa [List.append_nil]⟩
  | @cons c d cs ds hone _ ih =>
      obtain ⟨u, hu, hpaint⟩ := h.draw hreal (hcs c List.mem_cons_self) hright hone
      obtain ⟨v, hv, hrest⟩ := ih hpaint fun c' hc' => hcs c' (List.mem_cons_of_mem c hc')
      refine ⟨v, ?_, by rwa [List.append_assoc, List.singleton_append] at hrest⟩
      rw [Eclair.drawAll, hu, ok_bind]
      exact hv

/-! ## a batch on the way -/

theorem DrawCommand.SentAs.valid (h : c.SentAs d) : d.Valid := by
  cases h with
  | copyArea id x y sx sy sw sh =>
      refine ⟨?_, rfl, fun _ _ hd => WmDraw.noConfusion hd⟩
      simp only [WmDraw.words, List.mem_cons, List.not_mem_nil, or_false, forall_eq_or_imp, forall_eq]
      exact ⟨by decide, u32_lt _, wrap_lt _, wrap_lt _, u32_lt _, u32_lt _, u32_lt _, u32_lt _⟩
  | fill color hpad =>
      refine ⟨?_, ?_, fun _ _ hd => WmDraw.noConfusion hd⟩
      · simp only [WmDraw.words, List.mem_singleton, forall_eq]
        decide
      · simp [WmDraw.bytes, WmDraw.words, WmDraw.tail, Words.length_all, hpad, DRAW_COMMAND_SIZE]
  | fillRect x y w h color hpad =>
      refine ⟨?_, ?_, fun _ _ hd => WmDraw.noConfusion hd⟩
      · simp only [WmDraw.words, List.mem_cons, List.not_mem_nil, or_false, forall_eq_or_imp, forall_eq]
        exact ⟨by decide, wrap_lt _, wrap_lt _, u32_lt _, u32_lt _⟩
      · simp [WmDraw.bytes, WmDraw.words, WmDraw.tail, Words.length_all, hpad, DRAW_COMMAND_SIZE]

theorem valid_of_sent (hsent : List.Forall₂ DrawCommand.SentAs cs ds) : ∀ d ∈ ds, d.Valid := by
  induction hsent with
  | nil => simp
  | cons hone _ ih => simpa using ⟨hone.valid, ih⟩

/-- A batch of at most `WM_DRAW_BATCH_MAX` commands fits in a message. -/
theorem drawBatch_valid (hk : k < MAX_RESOURCES) (hsent : List.Forall₂ DrawCommand.SentAs cs ds)
    (hlen : cs.length ≤ WM_DRAW_BATCH_MAX) : (WmCall.drawBatch k ds).Valid := by
  have hvalid := valid_of_sent hsent
  have hds : ds.length ≤ WM_DRAW_BATCH_MAX := hsent.length_eq ▸ hlen
  simp only [WM_DRAW_BATCH_MAX, MAX_RESOURCES] at hds hk
  refine ⟨?_, ?_, fun _ _ _ _ _ h => WmCall.noConfusion h, fun _ ds' h => ?_⟩
  · simp only [WmCall.fields, List.mem_cons, List.not_mem_nil, or_false, forall_eq_or_imp, forall_eq]
    omega
  · simp only [WmCall.size, WmCall.fields, WmCall.data, length_commands hvalid, DRAW_COMMAND_SIZE,
      ECIO_CHNL_BUFSZ, List.length_cons, List.length_nil]
    omega
  · obtain ⟨-, rfl⟩ := WmCall.drawBatch.inj h
    exact hvalid

/-! ## the batches of a pass -/

variable {ctx ctx' : DrawContext} {call : DrawCall} {calls : List DrawCall} {out out' : Outbox DrawCommand}

theorem DrawCall.emit_bounded (h : out.Bounded WM_DRAW_BATCH_MAX) (he : call.emit c out = .ok out') :
    out'.Bounded WM_DRAW_BATCH_MAX := by
  cases call with
  | fillRect w h' color => exact h.put he
  | clear color => exact h.putFlush he
  | position x y => exact h.putFlush he
  | text style text => exact h.putFlush he
  | image image x y w h' => exact h.putFlush he
  | imageRepeated image x y sw sh w h' => exact h.putFlush he
  | border image x y sw sh w h' bw => exact h.putFlush he
  | flush => exact h.putFlush he

theorem emitAll_bounded (h : out.Bounded WM_DRAW_BATCH_MAX) (he : emitAll call.emit cs out = .ok out') :
    out'.Bounded WM_DRAW_BATCH_MAX := by
  induction cs generalizing out with
  | nil =>
      obtain rfl := Except.ok.inj he
      exact h
  | cons c cs ih =>
      obtain ⟨out₁, hone, hrest⟩ := Exact.bind_eq_ok.mp he
      exact ih (DrawCall.emit_bounded h hone) hrest

/-- **Every call** keeps the batches within the size of a message. -/
theorem DrawCall.run_bounded (h : ctx.out.Bounded WM_DRAW_BATCH_MAX) (hr : call.run ctx = .ok ctx') :
    ctx'.out.Bounded WM_DRAW_BATCH_MAX := by
  obtain ⟨sc, hsc⟩ := uniform_issue call ctx.fonts ctx.x ctx.y
  have hrun : call.run ctx = (sc.run call.emit ctx.out).map (call.settle ctx) :=
    congrArg (Except.map _) (hsc _ call.emit ctx.out)
  rw [hrun, Script.run] at hr
  cases he : emitAll call.emit sc.commands ctx.out with
  | error e =>
      rw [he] at hr
      contradiction
  | ok out =>
      have hout := emitAll_bounded h he
      rw [he] at hr
      simp only [Except.bind] at hr
      split at hr
      · contradiction
      · obtain rfl : call.settle ctx out = ctx' := Except.ok.inj hr
        cases call with
        | flush => exact hout.flush
        | _ => exact hout

theorem drawCalls_bounded (h : ctx.out.Bounded WM_DRAW_BATCH_MAX) (hr : drawCalls calls ctx = .ok ctx') :
    ctx'.out.Bounded WM_DRAW_BATCH_MAX := by
  induction calls generalizing ctx with
  | nil =>
      obtain rfl := Except.ok.inj hr
      exact h
  | cons call calls ih =>
      obtain ⟨ctx₁, hone, hrest⟩ := Exact.bind_eq_ok.mp hr
      exact ih (call.run_bounded h hone) hrest

/-! ## the server -/

/-- **A batch** is answered with success, and painted. -/
theorem Painted.message (h : Painted fb s k image l done t) (hreal : image.Real)
    (hright : ∀ c ∈ l, c.Right s k image) (hsent : List.Forall₂ DrawCommand.SentAs cs ds)
    (hcs : ∀ c ∈ cs, c ∈ l) (hlen : cs.length ≤ WM_DRAW_BATCH_MAX) :
    ∃ u, PassEvent.next fb t (.message (WmCall.drawBatch k ds).request) = some u ∧
      Painted fb s k image l (done ++ cs) u := by
  have hk : k < MAX_RESOURCES := h.type.lt
  obtain ⟨u, hu, hpaint⟩ := h.drawAll hreal hright hsent hcs
  refine ⟨u, ?_, hpaint⟩
  rw [PassEvent.next, request_served (drawBatch_valid hk hsent hlen), WmCall.serve, if_pos h.type, hu,
    ok_bind, answer]
  exact if_pos rfl

/-- What others do to other images changes nothing. -/
theorem Painted.aside {f : Wm → Wm} (h : Painted fb s k image l done t) (hf : Aside k l f) :
    Painted fb s k image l done (f t) := by
  obtain ⟨cls, now, hi, hnow⟩ := h.image
  have hres : (f t).resources k = t.resources k := hf t k (.inl rfl)
  refine ⟨⟨cls, now, by rwa [LiveImage, hres], hnow⟩, (hasType_congr hres).mpr h.type,
    fun c hc j hj => ?_⟩
  rw [hf t j (.inr ⟨c, hc, hj⟩)]
  exact h.sources c hc j hj

/-- **Any run** of the server that processes the batches in order paints all their commands. -/
theorem Painted.run {css : List (List DrawCommand)} {dss : List (List WmDraw)} {es : List PassEvent}
    (h : Painted fb s k image l done t) (hreal : image.Real) (hright : ∀ c ∈ l, c.Right s k image)
    (hsent : List.Forall₂ (List.Forall₂ DrawCommand.SentAs) css dss)
    (hcss : ∀ cs ∈ css, (∀ c ∈ cs, c ∈ l) ∧ cs.length ≤ WM_DRAW_BATCH_MAX)
    (hes : messagesOf es = dss.map fun ds => (WmCall.drawBatch k ds).request)
    (hothers : ∀ f, .other f ∈ es → Aside k l f) :
    ∃ u, System.run (PassEvent.next fb) t es = some u ∧ Painted fb s k image l (done ++ css.flatten) u := by
  induction es generalizing t done css dss with
  | nil =>
      have hnil : dss = [] := List.map_eq_nil_iff.mp hes.symm
      subst hnil
      cases hsent
      exact ⟨t, rfl, by rwa [List.flatten_nil, List.append_nil]⟩
  | cons e es ih =>
      cases e with
      | message m =>
          replace hes : m :: messagesOf es = dss.map fun ds => (WmCall.drawBatch k ds).request := hes
          cases hsent with
          | nil => contradiction
          | @cons cs ds css dss hone hrest =>
              obtain ⟨rfl, htail⟩ := List.cons.inj hes
              obtain ⟨hmem, hlen⟩ := hcss cs List.mem_cons_self
              obtain ⟨u, hu, hpaint⟩ := h.message hreal hright hone hmem hlen
              obtain ⟨v, hv, hall⟩ := ih hpaint hrest (fun cs hcs => hcss cs (List.mem_cons_of_mem _ hcs)) htail
                fun f hf => hothers f (List.mem_cons_of_mem _ hf)
              refine ⟨v, ?_, by rwa [List.append_assoc, ← List.flatten_cons] at hall⟩
              rw [System.run, hu]
              exact hv
      | other f =>
          obtain ⟨v, hv, hall⟩ := ih (h.aside (hothers f List.mem_cons_self)) hsent hcss hes
            fun f hf => hothers f (List.mem_cons_of_mem _ hf)
          exact ⟨v, hv, hall⟩

/-- **A drawing pass shows what was drawn**: if the calls fit, the server answers every batch of the
pass with success, and each pixel of the image then shows the last command that covers it, whatever
happens to other images meanwhile. -/
theorem pass_shows (hfits : fits ctx.fonts (0, 0) 0 calls = true) (hl : issued ctx.fonts (0, 0) calls = .ok l)
    (hi : LiveImage s k cls image) (htype : HasType s k WM_RESOURCE_IMAGE) (hreal : image.Real)
    (hright : ∀ c ∈ l, c.Right s k image) :
    ∃ ctx', drawCalls calls (drawBegin ctx) = .ok ctx' ∧
      ∀ dss es, List.Forall₂ (List.Forall₂ DrawCommand.SentAs) (drawEnd ctx').out.sent dss →
        messagesOf es = dss.map (fun ds => (WmCall.drawBatch k ds).request) →
        (∀ f, .other f ∈ es → Aside k l f) →
        ∃ t image', System.run (PassEvent.next fb) s es = some t ∧ t.image k = some image' ∧
          image.Becomes image' fun x y i =>
            (top (l.map (DrawCommand.layer fb s.image)) (x, y, i)).getD (image.byteOf x y i) := by
  have hstart : fits (drawBegin ctx).fonts ((drawBegin ctx).x, (drawBegin ctx).y)
      (drawBegin ctx).out.queue.length calls = true := hfits
  obtain ⟨-, hret⟩ := drawCalls_of_fits hstart
  obtain ⟨ctx', hrun, hall⟩ := hret l hl
  have hflat : (drawEnd ctx').out.sent.flatten = l := (sent_drawEnd ctx').trans hall
  have hbounded : (drawEnd ctx').out.Bounded WM_DRAW_BATCH_MAX :=
    (drawCalls_bounded Outbox.bounded_empty hrun).flush
  refine ⟨ctx', hrun, fun dss es hsent hes hothers => ?_⟩
  have hbegin : Painted fb s k image l [] s := ⟨⟨cls, image, hi, .refl⟩, htype, fun _ _ _ _ => rfl⟩
  obtain ⟨t, ht, hpaint⟩ := hbegin.run hreal hright hsent
    (fun cs hcs => ⟨fun c hc => hflat ▸ List.mem_flatten.mpr ⟨cs, hcs, hc⟩, hbounded.sent cs hcs⟩) hes hothers
  obtain ⟨cls', now, hnow, hbecomes⟩ := hpaint.image
  refine ⟨t, now, ht, hnow.image_eq, hbecomes.congr fun x _ y _ i _ => ?_⟩
  rw [List.nil_append, hflat, paint_apply]
  rfl

/-- An area that lies in both images is copied right. -/
theorem CopyArea.when_of_inside {other : Image} (x y sx sy sw sh : Nat) (hd : dest.Real) (hs : other.Real)
    (hx : x + sw ≤ dest.width) (hy : y + sh ≤ dest.height) (hsx : sx + sw ≤ other.width)
    (hsy : sy + sh ≤ other.height) : (⟨x, y, sx, sy, sw, sh⟩ : CopyArea).When dest other false := by
  have hwidth := hd.width
  have hswidth := hs.width
  refine ⟨⟨?_, fun _ => ?_, fun _ i hi => ?_, fun hsame => ?_⟩, .inr ⟨.inl ?_, fun hsame => ?_⟩⟩
  · simp only [SumFits]
    omega
  · simp only [SumFits, leave]
    omega
  · simp only [CopyArea.rows] at hi
    rw [if_pos (by omega)] at hi
    have hto := hd.offset_lt (c := x) (r := y + i) (by omega) (by omega)
    have hfrom := hs.offset_lt (c := sx) (r := sy + i) (by omega) (by omega)
    dsimp only
    rw [max_eq_left (by omega), max_eq_left (by omega)]
    exact ⟨by exact_mod_cast hto, by exact_mod_cast hfrom⟩
  · cases hsame
  · simp only [CopyArea.Plain]
    omega
  · cases hsame

/-- The server with an image to draw on and one to copy from. -/
def passStart : Wm :=
  (handleCreateImage vesaDisplay (handleCreateImage vesaDisplay Wm.init WM_CLASS_WINDOW 8 4).1
    WM_CLASS_WINDOW 2 2).1

theorem real_imageInit {width height : Nat} (hw : width ≤ 8) (hh : height ≤ 8) :
    (imageInit vesaDisplay width height).Real := by
  have hlt : width * height ≤ 8 * 8 := Nat.mul_le_mul hw hh
  refine ⟨show 0 < 4 by decide, u32_of_lt ?_, ?_, ?_, ?_⟩ <;>
    simp only [imageInit, vesaDisplay, Image.extent] <;> omega

/-- A background, a picture and a line, with another client's request between. -/
theorem pass_shows_example :
    ∃ ctx', drawCalls [.clear ⟨1, 2, 3⟩, .position 1 1, .image 2 0 0 2 2, .fillRect 3 1 ⟨4, 5, 6⟩]
        (drawBegin ⟨{}, 0, 0, fun _ => 0⟩) = .ok ctx' ∧
      ∀ dss es, List.Forall₂ (List.Forall₂ DrawCommand.SentAs) (drawEnd ctx').out.sent dss →
        messagesOf es = dss.map (fun ds => (WmCall.drawBatch 1 ds).request) →
        (∀ f, .other f ∈ es → Aside 1
          [.fill ⟨1, 2, 3⟩, .copyArea 2 1 1 0 0 2 2, .fillRect 1 1 3 1 ⟨4, 5, 6⟩] f) →
        ∃ t image', System.run (PassEvent.next vesaDisplay) passStart es = some t ∧ t.image 1 = some image' ∧
          (imageInit vesaDisplay 8 4).Becomes image' fun x y i =>
            (top ([.fill ⟨1, 2, 3⟩, .copyArea 2 1 1 0 0 2 2, .fillRect 1 1 3 1 ⟨4, 5, 6⟩].map
              (DrawCommand.layer vesaDisplay passStart.image)) (x, y, i)).getD
                ((imageInit vesaDisplay 8 4).byteOf x y i) := by
  have hdest : (imageInit vesaDisplay 8 4).Real := real_imageInit (by decide) (by decide)
  have hother : (imageInit vesaDisplay 2 2).Real := real_imageInit (by decide) (by decide)
  have hlive : LiveImage passStart 1 WM_CLASS_WINDOW (imageInit vesaDisplay 8 4) := ⟨by decide, rfl⟩
  refine pass_shows (by decide) rfl hlive (by decide) hdest ?_
  simp only [List.mem_cons, List.not_mem_nil, or_false, forall_eq_or_imp, forall_eq]
  refine ⟨trivial, ⟨by decide, by decide, imageInit vesaDisplay 2 2, rfl, hother, rfl, ?_⟩, ?_⟩
  · exact CopyArea.when_of_inside 1 1 0 0 2 2 hdest hother (by decide) (by decide) (by decide) (by decide)
  · exact ⟨.inr ⟨by decide, .inr (by decide)⟩, .inr (.inr ⟨by decide, by decide⟩)⟩

end Eclair
