import Eclair.Wm.Message
import Eclair.Wm.Refs

/-!
# Eclair.Wm.Safety

Which messages the server handles without doing what it must not do.

`Served` holds between messages.  For each handler there is the exact
condition under which it gets through (`RequestFits`), and
`handles_iff_of_reachable` puts them together for whole messages in every
state that messages and events lead to.
-/

namespace Eclair

/-- The image of a live resource that is one. -/
def liveImage (s : Wm) (id : Nat) : Option Image :=
  if HasType s id WM_RESOURCE_IMAGE then s.image id else none

/-- The attributes of a message. -/
def attrsAt (msg : Bytes) : WinAttrs where
  x := wordAt msg 20
  y := wordAt msg 24
  width := wordAt msg 28
  height := wordAt msg 32
  events := wordAt msg 36
  image := wordAt msg 40
  stack := wordAt msg 44

/-- The attributes that are taken were received: those of the mask, up to
the place in the stack, as long as nothing before is refused. -/
def AttributesFit (s : Wm) (msg : Bytes) (id : Nat) (mask : AttrMask) : Prop :=
  (mask.position = true ∨ mask.size = true → id = s.focus) →
    (mask.position = true → 28 ≤ msg.length) ∧ (mask.size = true → 36 ≤ msg.length) ∧
    (mask.events = true → 40 ≤ msg.length) ∧ (mask.image = true → 44 ≤ msg.length) ∧
    (mask.stack = true → stackOf s id = some WM_STACK_CENTER →
      (mask.image = true → clsAfter s id mask (attrsAt msg) = some WM_CLASS_WINDOW) → 48 ≤ msg.length)

/-- Pixels for an image that has columns, or none at all. -/
def DataFits (msg : Bytes) (image : Image) : Prop :=
  20 ≤ msg.length ∧ (WM_FORMAT_RGB8 ≤ wordAt msg 16 → wordAt msg 16 ≤ WM_FORMAT_RGBA8 →
    SET_IMAGE_DATA_SIZE ≤ msg.length ∧
      (wordAt msg 24 = (msg.length - SET_IMAGE_DATA_SIZE) / (wordAt msg 16 + 2) →
        image.width = 0 → wordAt msg 24 = 0 ∨ 2 ^ 32 ≤ wordAt msg 20 + wordAt msg 24))

/-- The command copies from what is no image. -/
def CopiesNothing (s : Wm) (msg : Bytes) (i : Nat) : Prop :=
  wordAt msg (commandAt i) = WM_DRAW_COPY_AREA ∧
    ¬ HasType s (wordAt msg (commandAt i + 4)) WM_RESOURCE_IMAGE

/-- A field of the command. -/
def intAt (msg : Bytes) (i off : Nat) : Int := i32 (wordAt msg (commandAt i + off))

/-- The command was received, and touches only pixels. -/
def CommandFits (s : Wm) (msg : Bytes) (image : Image) (i : Nat) : Prop :=
  commandAt i + DRAW_COMMAND_SIZE ≤ msg.length ∧
    (wordAt msg (commandAt i) = WM_DRAW_COPY_AREA →
      ∀ source ∈ liveImage s (wordAt msg (commandAt i + 4)),
        CopyAreaFits image source (intAt msg i 8) (intAt msg i 12) (intAt msg i 16) (intAt msg i 20)
          (intAt msg i 24) (intAt msg i 28)) ∧
    (wordAt msg (commandAt i) = WM_DRAW_FILL_RECT →
      FillRectFits image ⟨intAt msg i 4, intAt msg i 8, intAt msg i 12, intAt msg i 16⟩)

/-- The count is that of the message in 32 bits; the commands up to the
first one that copies nothing fit. -/
def BatchFits (s : Wm) (msg : Bytes) (image : Image) : Prop :=
  20 ≤ msg.length ∧
    (msg.length = u32 (u32 (wordAt msg 16 * DRAW_COMMAND_SIZE) + DRAW_BATCH_SIZE) →
      ∀ i < wordAt msg 16, (∀ j < i, ¬ CopiesNothing s msg j) → CommandFits s msg image i)

/-- What a handler needs of its request. -/
def RequestFits (s : Wm) (msg : Bytes) : WmFunction → Prop
  | .acknowledge | .forget | .getScreenInfo | .createWindow => True
  | .createImage => 24 ≤ msg.length
  | .destroyImage | .destroyWindow | .getQueuedWindowEvents | .postWindow => 16 ≤ msg.length
  | .resizeImage => 16 ≤ msg.length ∧ (HasType s (wordAt msg 12) WM_RESOURCE_IMAGE → 24 ≤ msg.length)
  | .setImageData => 16 ≤ msg.length ∧ ∀ image ∈ liveImage s (wordAt msg 12), DataFits msg image
  | .getWindowAttributes =>
      16 ≤ msg.length ∧ (HasType s (wordAt msg 12) WM_RESOURCE_WINDOW → 20 ≤ msg.length)
  | .setWindowAttributes => 16 ≤ msg.length ∧ (HasType s (wordAt msg 12) WM_RESOURCE_WINDOW →
      20 ≤ msg.length ∧ AttributesFit s msg (wordAt msg 12) (attrMask (wordAt msg 16)))
  | .drawBatch => 16 ≤ msg.length ∧ ∀ image ∈ liveImage s (wordAt msg 12), BatchFits s msg image

/-- What the server needs of a message. -/
def MessageFits (s : Wm) (msg : Bytes) : Prop :=
  8 ≤ msg.length ∧ (wordAt msg 4 = msg.length → wordAt msg 0 = WM_REQUEST →
    12 ≤ msg.length ∧ ∀ f ∈ handlers (wordAt msg 8), RequestFits s msg f)

/-! ## between messages -/

/-- The table is good, and its images are laid out for the framebuffer. -/
structure Served (fb : Display) (s : Wm) : Prop where
  good : GoodTable s
  sized : ∀ k cls image, LiveImage s k cls image → image.Sized fb

variable {fb : Display} {s t u : Wm} {k j cls : Nat} {w w' : Window} {image image' : Image}
variable {f : Resource → Resource} {d : Int} {msg : Bytes} {e : WmReq} {named : Prop}

theorem LiveImage.of_resources (h : t.resources = s.resources) (hi : LiveImage t k cls image) :
    LiveImage s k cls image := by
  rwa [LiveImage, h] at hi

/-- A change of one slot. -/
theorem LiveImage.of_modify (hi : LiveImage (s.modify k f) j cls image) :
    j = k ∧ (f (s.resources k)).id ≠ 0 ∧ (f (s.resources k)).data = some (.image cls image) ∨
      LiveImage s j cls image := by
  by_cases hj : j = k
  · rw [hj, LiveImage, Wm.modify_same] at hi
    exact .inl ⟨hj, hi⟩
  · rw [LiveImage, Wm.modify_other hj] at hi
    exact .inr hi

theorem LiveImage.of_addRef (hi : LiveImage (s.addRef k d) j cls image) : LiveImage s j cls image := by
  obtain ⟨rfl, hid, hd⟩ | h := hi.of_modify
  · exact ⟨hid, hd⟩
  · exact h

theorem LiveImage.of_unref (hi : LiveImage (s.unref w) j cls image) : LiveImage s j cls image := by
  unfold Wm.unref at hi
  split at hi
  · exact hi.of_addRef
  · exact hi

theorem LiveImage.of_setWindow (hi : LiveImage (s.setWindow k w) j cls image) :
    LiveImage s j cls image := by
  obtain ⟨-, -, hd⟩ | h := hi.of_modify
  · exact absurd hd (by simp)
  · exact h

theorem LiveImage.of_destroy (hi : LiveImage (serverDestroyResource s k) j cls image) :
    LiveImage s j cls image := by
  obtain ⟨-, hid, -⟩ | h := hi.of_modify
  · exact absurd rfl hid
  · exact h

/-- Changes of windows leave the images as they are. -/
theorem LiveImage.of_windows (hi : LiveImage t j cls image)
    (h : Relation.ReflTransGen (WindowStep named) s t) : LiveImage s j cls image := by
  induction h with
  | refl => exact hi
  | tail _ hstep ih =>
      refine ih ?_
      cases hstep with
      | window k w w' hw hid hp h => exact (hi.of_resources h).of_setWindow
      | image k i w hw hcls h => exact (hi.of_resources h).of_addRef.of_setWindow.of_unref

theorem WindowStep.good_of_steps (h : Relation.ReflTransGen (WindowStep named) s t) (hs : GoodTable s) :
    GoodTable t := by
  induction h with
  | refl => exact hs
  | tail _ hstep ih => exact hstep.good ih

/-- A resource that changes keeps the table as it should be. -/
theorem Served.modify (h : Served fb s) (hr : t.resources = (s.modify k f).resources)
    (hgood : GoodTable (s.modify k f))
    (hi : ∀ cls image, (f (s.resources k)).id ≠ 0 → (f (s.resources k)).data = some (.image cls image) →
      image.Sized fb) : Served fb t where
  good := (goodTable_congr hr).mpr hgood
  sized j cls image hj := by
    obtain ⟨-, hid, hd⟩ | hold := (hj.of_resources hr).of_modify
    · exact hi cls image hid hd
    · exact h.sized j cls image hold

theorem Served.step (h : Served fb s) (hstep : TableStep named fb s t) : Served fb t := by
  cases hstep with
  | newImage k cls image hfree hsize hk hlt hr =>
      refine h.modify hr (h.good.withImage hlt) fun _ _ _ hd => ?_
      obtain ⟨-, rfl⟩ := ResData.image.inj (Option.some.inj hd)
      exact hsize
  | freeImage k cls image hi href hr =>
      exact h.modify hr h.good.destroy fun _ _ hid => absurd rfl hid
  | resizeImage k cls image image' hi hsize hr =>
      refine h.modify hr (h.good.setImage hi) fun _ _ _ hd => ?_
      obtain ⟨-, rfl⟩ := ResData.image.inj (Option.some.inj hd)
      exact hsize (h.sized k cls image hi)
  | newWindow k hfree hk hlt hr =>
      have hgood : GoodTable (s.withWindow k []) := h.good.withWindow hlt
      exact h.modify hr ((goodTable_congr rfl).mp hgood) fun _ _ _ hd => absurd hd (by simp)
  | freeWindow k w hw hr =>
      exact ⟨(goodTable_congr hr).mpr h.good.unref.destroy,
        fun j cls image hi => h.sized j cls image (hi.of_resources hr).of_destroy.of_unref⟩
  | windows u hu hr =>
      exact ⟨(goodTable_congr hr).mpr (WindowStep.good_of_steps hu h.good),
        fun j cls image hi => h.sized j cls image ((hi.of_resources hr).of_windows hu)⟩

/-- Requests and events keep the table as it should be, whatever they name. -/
theorem Served.next (h : Served fb s) (hnext : wmNext fb s e = some t) : Served fb t := by
  have hstep : TableStep False fb s t := wmNext_step h.good False.elim hnext
  exact h.step hstep

/-! ## the parts of handlers -/

/-- What the server is in after a message. -/
def StaysServed (fb : Display) (r : Option (Wm × WmResponse)) : Prop := ∀ p ∈ r, Served fb p.1

theorem answer_exact {result : Nat} (h : Served fb s) : Exact (answer s result) True (StaysServed fb) :=
  Exact.ok fun p hp => by
    obtain rfl := Option.some.inj hp
    exact h

theorem answerWith_exact {r : Option (Wm × Nat)} (h : ∀ p ∈ r, Served fb p.1) :
    Exact (answerWith r) True (StaysServed fb) :=
  Exact.ok fun p hp => by
    obtain ⟨q, hq, rfl⟩ := Option.map_eq_some_iff.mp hp
    exact h q hq

/-- A request as an event of the windows. -/
theorem answerWith_next {r : Option (Wm × Nat)} (h : Served fb s)
    (hr : wmNext fb s e = r.map (·.1)) : Exact (answerWith r) True (StaysServed fb) := by
  refine answerWith_exact fun p hp => h.next (e := e) ?_
  rw [hr, Option.mem_def.mp hp, Option.map_some]

theorem msgWord_exact {off : Nat} :
    Exact (msgWord msg off) (off + 4 ≤ msg.length) fun v => v = wordAt msg off :=
  Exact.check fun _ => rfl

theorem msgId_exact : Exact (msgId msg) (16 ≤ msg.length) fun v => v = wordAt msg 12 := msgWord_exact

theorem msgInt_exact {off : Nat} :
    Exact (msgInt msg off) (off + 4 ≤ msg.length) fun v => v = i32 (wordAt msg off) :=
  (msgWord_exact.bind fun _ hv => Exact.ok (by rw [hv])).congr (and_iff_left trivial)

theorem msgColor_exact {off : Nat} :
    Exact (msgColor msg off) (off + 3 ≤ msg.length) fun _ => True := by
  have hbyte : ∀ off, Exact (msgByte msg off) (off < msg.length) fun _ => True :=
    fun _ => Exact.check fun _ => trivial
  refine Exact.congr ((hbyte off).bind fun _ _ => (hbyte (off + 1)).bind fun _ _ =>
    (hbyte (off + 2)).bind fun _ _ => Exact.ok trivial) ?_
  rw [and_true]
  omega

theorem wordAt_lt {off : Nat} : wordAt msg off < 2 ^ 32 := ByteMem.word_lt

theorem hasType_image {id : Nat} (h : Served fb s) :
    HasType s id WM_RESOURCE_IMAGE ↔ ∃ cls image, LiveImage s id cls image := by
  constructor
  · rintro ⟨hg, ht⟩
    obtain ⟨k, hk⟩ := Option.isSome_iff_exists.mp hg
    obtain ⟨rfl, hl⟩ := serverGetResource_some hk
    exact h.good.liveImage hl ht
  · rintro ⟨cls, image, hi⟩
    refine ⟨by rw [h.good.getResource hi.1]; rfl, ?_⟩
    obtain ⟨-, -, ⟨ht, -⟩ | ⟨-, w, hd⟩⟩ := h.good id hi.1
    · exact ht
    · exact absurd (hd.symm.trans hi.2) (by simp)

theorem hasType_window {id : Nat} (h : Served fb s) :
    HasType s id WM_RESOURCE_WINDOW ↔ ∃ w, LiveWindow s id w := by
  constructor
  · rintro ⟨hg, ht⟩
    obtain ⟨k, hk⟩ := Option.isSome_iff_exists.mp hg
    obtain ⟨rfl, hl⟩ := serverGetResource_some hk
    exact h.good.liveWindow hl ht
  · rintro ⟨w, hw⟩
    exact ⟨by rw [h.good.getResource hw.1]; rfl, h.good.window_type hw⟩

theorem LiveImage.image_eq (hi : LiveImage s k cls image) : s.image k = some image := by
  rw [Wm.image, hi.2]

theorem LiveImage.liveImage (h : Served fb s) (hi : LiveImage s k cls image) :
    liveImage s k = some image := by
  rw [Eclair.liveImage, if_pos ((hasType_image h).mpr ⟨cls, image, hi⟩), hi.image_eq]

theorem liveImage_none {id : Nat} (hn : ¬ HasType s id WM_RESOURCE_IMAGE) : liveImage s id = none :=
  if_neg hn

/-! ## images -/

theorem createImage_exact (h : Served fb s) :
    Exact (createImage fb msg s) (24 ≤ msg.length) (StaysServed fb) := by
  refine Exact.congr (msgWord_exact.bind fun cls _ => msgWord_exact.bind fun width _ =>
    msgWord_exact.bind fun height _ => answerWith_next (e := .createImage cls width height) h rfl) ?_
  rw [and_true]
  omega

theorem destroyImage_exact (h : Served fb s) :
    Exact (destroyImage msg s) (16 ≤ msg.length) (StaysServed fb) :=
  Exact.congr (msgId_exact.bind fun id _ => answerWith_next (e := .destroyImage id) h rfl)
    (and_iff_left trivial)

theorem resizeImage_exact (h : Served fb s) : Exact (resizeImage fb msg s)
    (16 ≤ msg.length ∧ (HasType s (wordAt msg 12) WM_RESOURCE_IMAGE → 24 ≤ msg.length)) (StaysServed fb) := by
  refine msgId_exact.bind_eq ?_
  refine Exact.congr (Exact.ite (fun _ => msgWord_exact.bind fun width _ => msgWord_exact.bind
    fun height _ => answerWith_next (e := .resizeImage _ width height) h rfl)
    fun _ => answer_exact h) ?_
  simp only [implies_true, and_true]
  exact imp_congr_right fun _ => by omega

theorem imageResourceGetImage_exact (hi : LiveImage s k cls image) :
    Exact (imageResourceGetImage s k) True (· = image) := by
  rw [imageResourceGetImage, hi.image_eq]
  exact Exact.ok rfl

theorem dataLength_exact : Exact (dataLength msg) (SET_IMAGE_DATA_SIZE ≤ msg.length) fun v =>
    v = msg.length - SET_IMAGE_DATA_SIZE ∧ SET_IMAGE_DATA_SIZE ≤ msg.length :=
  Exact.check fun h => ⟨rfl, h⟩

/-- Drawing on a live image. -/
theorem LiveImage.redraw (hi : LiveImage s k cls image) :
    s.redraw k image' = s.modify k fun r => { r with data := some (.image cls image') } := by
  rw [Wm.redraw, Wm.modify, Wm.modify, hi.2]
  rfl

theorem Served.redraw (h : Served fb s) (hi : LiveImage s k cls image) (hsize : image.SameSize image') :
    Served fb (s.redraw k image') := by
  have hstep : TableStep False fb s (s.redraw k image') :=
    .resizeImage _ k cls image image' hi hsize.sized (by rw [hi.redraw])
  exact h.step hstep

/-- The pixels of a request were received. -/
theorem drawData_exact {format size : Nat} (h : Served fb s) (hi : LiveImage s k cls image)
    (hf : 0 < format) (hs : size < 2 ^ 32) (hlen : SET_IMAGE_DATA_SIZE + size * (format + 2) ≤ msg.length) :
    Exact ((imageResourceGetImage s k).bind fun image => (msgWord msg 20).bind fun offset =>
      (imageSetData fb image format offset size fun p => msgByte msg (SET_IMAGE_DATA_SIZE + p)).bind
        fun image => answer (s.redraw k image) WM_SUCCESS)
      (24 ≤ msg.length ∧ (image.width = 0 → size = 0 ∨ 2 ^ 32 ≤ wordAt msg 20 + size)) (StaysServed fb) := by
  have hdata : ∀ p < size * (format + 2), ∃ b, msgByte msg (SET_IMAGE_DATA_SIZE + p) = .ok b :=
    fun p hp => ⟨_, if_pos (by omega)⟩
  refine Exact.congr ((imageResourceGetImage_exact hi).bind_eq (msgWord_exact.bind_eq ?_))
    (iff_of_eq (true_and _))
  exact Exact.congr ((imageSetData_exact (h.sized k cls image hi) hf wordAt_lt hs hdata).bind
    fun u hu => answer_exact (h.redraw hi hu)) (and_iff_left trivial)

theorem setImageData_exact (h : Served fb s) : Exact (setImageData fb msg s)
    (16 ≤ msg.length ∧ ∀ image ∈ liveImage s (wordAt msg 12), DataFits msg image) (StaysServed fb) := by
  refine msgId_exact.bind_eq ?_
  by_cases ht : HasType s (wordAt msg 12) WM_RESOURCE_IMAGE
  · obtain ⟨cls, image, hi⟩ := (hasType_image h).mp ht
    rw [if_pos ht, hi.liveImage h]
    simp only [Option.mem_def, Option.some.injEq, forall_eq']
    refine msgWord_exact.bind_eq ?_
    by_cases hf : wordAt msg 16 < WM_FORMAT_RGB8 ∨ wordAt msg 16 > WM_FORMAT_RGBA8
    · rw [if_pos hf]
      exact (answer_exact h).congr (iff_of_true trivial fun h1 h2 => by omega)
    rw [if_neg hf]
    have hformat := not_or.mp hf
    have hrest : ∀ length, length = msg.length - SET_IMAGE_DATA_SIZE ∧ SET_IMAGE_DATA_SIZE ≤ msg.length →
        Exact (if wordAt msg 24 ≠ length / (wordAt msg 16 + 2) then answer s WM_FAILURE
          else (imageResourceGetImage s (wordAt msg 12)).bind fun image =>
            (msgWord msg 20).bind fun offset =>
            (imageSetData fb image (wordAt msg 16) offset (wordAt msg 24) fun p =>
              msgByte msg (SET_IMAGE_DATA_SIZE + p)).bind
              fun image => answer (s.redraw (wordAt msg 12) image) WM_SUCCESS)
          (wordAt msg 24 = (msg.length - SET_IMAGE_DATA_SIZE) / (wordAt msg 16 + 2) →
            image.width = 0 → wordAt msg 24 = 0 ∨ 2 ^ 32 ≤ wordAt msg 20 + wordAt msg 24) (StaysServed fb) := by
      rintro _ ⟨rfl, hlen⟩
      by_cases hsize : wordAt msg 24 = (msg.length - SET_IMAGE_DATA_SIZE) / (wordAt msg 16 + 2)
      · rw [if_neg (not_not.mpr hsize)]
        have hfit : SET_IMAGE_DATA_SIZE + wordAt msg 24 * (wordAt msg 16 + 2) ≤ msg.length := by
          have hmul := Nat.div_mul_le_self (msg.length - SET_IMAGE_DATA_SIZE) (wordAt msg 16 + 2)
          rw [← hsize] at hmul
          omega
        refine (drawData_exact h hi (Nat.not_lt.mp hformat.1) wordAt_lt hfit).congr ?_
        have h24 : 24 ≤ msg.length := Nat.le_trans (by decide) hlen
        simp only [h24, hsize, true_and, true_implies]
      · rw [if_pos hsize]
        exact (answer_exact h).congr (by simp [hsize])
    refine Exact.congr (msgWord_exact.bind_eq (dataLength_exact.bind hrest)) ?_
    constructor
    · rintro ⟨-, hlen, hdata⟩ - -
      exact ⟨hlen, hdata⟩
    · intro hdata
      obtain ⟨hlen, hdata⟩ := hdata (Nat.not_lt.mp hformat.1) (Nat.not_lt.mp hformat.2)
      exact ⟨hlen, hlen, hdata⟩
  · rw [if_neg ht, liveImage_none ht]
    exact (answer_exact h).congr (by simp)

/-! ## windows -/

theorem ofWindow_exact {f : Nat → Window → Handled} {C : Prop} (h : Served fb s)
    (hf : ∀ w, LiveWindow s (wordAt msg 12) w → Exact (f (wordAt msg 12) w) C (StaysServed fb)) :
    Exact (ofWindow msg s f) (16 ≤ msg.length ∧ (HasType s (wordAt msg 12) WM_RESOURCE_WINDOW → C))
      (StaysServed fb) := by
  refine msgId_exact.bind_eq ?_
  by_cases ht : HasType s (wordAt msg 12) WM_RESOURCE_WINDOW
  · obtain ⟨w, hw⟩ := (hasType_window h).mp ht
    rw [if_pos ht, hw.window]
    exact (hf w hw).congr (by simp [ht])
  · rw [if_neg ht]
    exact (answer_exact h).congr (by simp [ht])

theorem destroyWindow_exact (h : Served fb s) :
    Exact (destroyWindow msg s) (16 ≤ msg.length) (StaysServed fb) :=
  Exact.congr (msgId_exact.bind fun id _ => answerWith_next (e := .destroyWindow id) h rfl)
    (and_iff_left trivial)

theorem getWindowAttributes_exact (h : Served fb s) : Exact (getWindowAttributes msg s)
    (16 ≤ msg.length ∧ (HasType s (wordAt msg 12) WM_RESOURCE_WINDOW → 20 ≤ msg.length))
    (StaysServed fb) :=
  ofWindow_exact h fun _ _ => Exact.congr (msgWord_exact.bind_eq (Exact.ok fun p hp => by
    obtain rfl := Option.some.inj hp
    exact h)) (and_iff_left trivial)

theorem getQueuedWindowEvents_exact (h : Served fb s) :
    Exact (getQueuedWindowEvents msg s) (16 ≤ msg.length) (StaysServed fb) := by
  refine Exact.congr (ofWindow_exact h fun w hw => Exact.ok fun p hp => ?_) (by simp)
  obtain rfl := Option.some.inj hp
  exact ⟨h.good.setWindow hw, fun j cls image hi => h.sized j cls image hi.of_setWindow⟩

theorem postWindow_exact (h : Served fb s) :
    Exact (postWindow msg s) (16 ≤ msg.length) (StaysServed fb) :=
  (ofWindow_exact h fun _ _ => answer_exact h).congr (by simp)

/-- The result of a part is that with the attributes of the message. -/
theorem attrPart_exact {reads : Bool} {read : Except WmFault WinAttrs} {part : WinAttrs → AttrStep}
    {P : Prop} {Q : WinAttrs → Prop} {r : AttrStep} (hread : Exact read P Q)
    (hr : ∀ a, Q a → part a = r) (hskip : reads = false → part {} = r) :
    Exact (attrPart reads read part) (reads = true → P) fun x => x = r := by
  cases reads with
  | true => exact Exact.congr (hread.bind fun a ha => Exact.ok (hr a ha)) (by simp)
  | false => exact Exact.congr (Exact.ok (hskip rfl)) (by simp)

theorem attrThen_exact {x : Except WmFault AttrStep} {f : Wm → Except WmFault AttrStep}
    {g : Wm → AttrStep} {r : AttrStep} {P C : Prop} (hx : Exact x P fun y => y = r)
    (hf : ∀ s, r = some (s, true) → Exact (f s) C fun y => y = g s) :
    Exact (attrThen x f) (P ∧ ((∃ s, r = some (s, true)) → C)) fun y => y = r.andThen g := by
  refine hx.bind_eq ?_
  cases hr : r with
  | none => exact Exact.congr (Exact.ok rfl) (by simp)
  | some p =>
      obtain ⟨s, go⟩ := p
      cases go with
      | true => exact (hf s hr).congr (by simp)
      | false => exact Exact.congr (Exact.ok rfl) (by simp)

variable {mask : AttrMask}

theorem msgAttr_exact {off : Nat} {set : Nat → WinAttrs} :
    Exact (msgAttr msg off set) (off + 4 ≤ msg.length) fun a => a = set (wordAt msg off) :=
  Exact.congr (msgWord_exact.bind_eq (Exact.ok rfl)) (and_iff_left trivial)

theorem stackFrom_exact (hw : s.window k = some w) :
    Exact (stackFrom msg k mask s) (mask.stack = true → w.attributes.stack = WM_STACK_CENTER → 48 ≤ msg.length)
      fun r => r = setStack s k mask.stack (attrsAt msg).stack := by
  refine Exact.congr (attrPart_exact msgAttr_exact (fun a ha => by rw [ha]; rfl) fun hskip => ?_) ?_
  · simp only [hw, Option.any_some, Bool.and_eq_false_iff, decide_eq_false_iff_not] at hskip
    cases hon : mask.stack with
    | false => rfl
    | true =>
        have hplace : w.attributes.stack ≠ WM_STACK_CENTER := hskip.resolve_left (by simp [hon])
        simp only [setStack, if_true, hw, Option.bind_some, if_pos hplace]
  · simp [hw]

/-- The class that is read through a window that changed. -/
theorem clsOf_setWindow {id : Nat} (h : GoodTable s) (hw : LiveWindow s k w) :
    clsOf (s.setWindow k w') id = if id = k then some w'.attributes.x else clsOf s id := by
  rw [clsOf, serverGetResource_setWindow]
  by_cases hid : id = k
  · rw [if_pos hid, hid, h.getResource hw.1]
    simp [clsField, Wm.setWindow]
  · rw [if_neg hid, clsOf]
    cases hg : serverGetResource s id with
    | none => rfl
    | some i =>
        obtain ⟨rfl, -⟩ := serverGetResource_some hg
        simp [clsField, Wm.setWindow, Wm.modify_other hid]

/-- The last fields were received: `cls` is what is read as the class of
the image, `stack` where the window is. -/
def LastFits (cls : Option Nat) (stack : Nat) (mask : AttrMask) (msg : Bytes) : Prop :=
  (mask.image = true → 44 ≤ msg.length) ∧ (mask.stack = true → stack = WM_STACK_CENTER →
    (mask.image = true → cls = some WM_CLASS_WINDOW) → 48 ≤ msg.length)

theorem imageFrom_exact (h : GoodTable s) (hw : LiveWindow s k w) :
    Exact (imageFrom msg k mask s) (LastFits (clsOf s (attrsAt msg).image) w.attributes.stack mask msg)
      fun r => r = (setImage s k mask.image (attrsAt msg).image).andThen fun s =>
        setStack s k mask.stack (attrsAt msg).stack := by
  have hpart : setImage s k mask.image (attrsAt msg).image = some
      (if mask.image = true then
        if clsOf s (attrsAt msg).image = some WM_CLASS_WINDOW then
          (s.imaged k w (attrsAt msg).image, true) else (s, false)
      else (s, true)) := by
    cases hon : mask.image with
    | false => rfl
    | true => exact setImage_eq h hw.window
  refine Exact.congr (attrThen_exact (attrPart_exact msgAttr_exact (fun a ha => by rw [ha]; rfl)
    fun hskip => by rw [hskip]; rfl) (C := mask.stack = true →
      w.attributes.stack = WM_STACK_CENTER → 48 ≤ msg.length) fun t ht => ?_) ?_
  · have hlive : ∃ w', LiveWindow t k w' ∧ w'.attributes.stack = w.attributes.stack := by
      rw [hpart] at ht
      have ht := Option.some.inj ht
      split at ht
      · split at ht
        · obtain ⟨rfl, -⟩ := Prod.mk.inj ht
          exact hw.imaged _
        · exact absurd (Prod.mk.inj ht).2 (by simp)
      · obtain ⟨rfl, -⟩ := Prod.mk.inj ht
        exact ⟨w, hw, rfl⟩
    obtain ⟨w', hw', hplace⟩ := hlive
    rw [← hplace]
    exact stackFrom_exact hw'.window
  · rw [hpart, LastFits]
    cases mask.image with
    | false => simp
    | true =>
        by_cases hcls : clsOf s (attrsAt msg).image = some WM_CLASS_WINDOW
        · simp [hcls]
        · simp [hcls]

theorem clsOf_setWindow_same {id : Nat} (h : GoodTable s) (hw : LiveWindow s k w)
    (hx : w'.attributes.x = w.attributes.x) : clsOf (s.setWindow k w') id = clsOf s id := by
  have hself : clsOf (s.setWindow k w) id = if id = k then some w.attributes.x else clsOf s id :=
    clsOf_setWindow h hw
  rw [Wm.setWindow_self hw.window] at hself
  rw [clsOf_setWindow h hw, hx, hself]
  split <;> rfl

theorem eventsFrom_exact (h : GoodTable s) (hw : LiveWindow s k w) :
    Exact (eventsFrom msg k mask s) ((mask.events = true → 40 ≤ msg.length) ∧
        LastFits (clsOf s (attrsAt msg).image) w.attributes.stack mask msg)
      fun r => r = (setEvents s k mask.events (attrsAt msg).events).andThen fun s =>
        (setImage s k mask.image (attrsAt msg).image).andThen fun s =>
        setStack s k mask.stack (attrsAt msg).stack := by
  refine Exact.congr (attrThen_exact (attrPart_exact msgAttr_exact (fun a ha => by rw [ha]; rfl)
    fun hskip => by rw [hskip]; rfl) (C := LastFits (clsOf s (attrsAt msg).image) w.attributes.stack mask msg)
    fun t ht => ?_) ?_
  · rw [setEvents_eq hw.window] at ht
    obtain ⟨rfl, -⟩ := Prod.mk.inj (Option.some.inj ht)
    exact Exact.congr (imageFrom_exact (h.setWindow hw) hw.setWindow)
      (iff_of_eq (congrArg (LastFits · _ mask msg) (clsOf_setWindow_same h hw rfl)))
  · simp [setEvents_eq hw.window]

/-- A part with two fields that only the window in focus takes. -/
theorem placePart_exact {off : Nat} {on : Bool} {m : Nat → Nat → WinAttrs}
    {f : WinAttrs → WinAttrs → WinAttrs} (hw : s.window k = some w)
    (hf : ∀ b, f (m (wordAt msg off) (wordAt msg (off + 4))) b = f (attrsAt msg) b) :
    Exact (attrPart (on && decide ((s.resources k).id = s.focus))
      ((msgWord msg off).bind fun x => (msgWord msg (off + 4)).bind fun y => .ok (m x y))
      fun a => setPlace s k on (f a))
      (on = true → (s.resources k).id = s.focus → off + 8 ≤ msg.length)
      fun r => r = setPlace s k on (f (attrsAt msg)) := by
  have hread : Exact ((msgWord msg off).bind fun x => (msgWord msg (off + 4)).bind fun y =>
      .ok (m x y)) (off + 8 ≤ msg.length) fun a => a = m (wordAt msg off) (wordAt msg (off + 4)) := by
    refine Exact.congr (msgWord_exact.bind_eq (msgWord_exact.bind_eq (Exact.ok rfl))) ?_
    rw [and_true]
    omega
  refine Exact.congr (attrPart_exact hread (fun a ha => ?_) fun hskip => ?_) ?_
  · rw [ha, funext hf]
  · rw [setPlace_eq hw, setPlace_eq hw]
    cases on with
    | false => rfl
    | true =>
        have hfocus : (s.resources k).id ≠ s.focus := by simpa using hskip
        rw [if_pos ⟨rfl, hfocus⟩, if_pos ⟨rfl, hfocus⟩]
  · simp

/-- Such a part goes on unless it is refused. -/
theorem setPlace_goes {on : Bool} {f : WinAttrs → WinAttrs} (hw : s.window k = some w) :
    (∃ t, setPlace s k on f = some (t, true)) ↔ (on = true → (s.resources k).id = s.focus) := by
  rw [setPlace_eq hw, ← not_and_not_right]
  split
  · next hc => simp [hc.1, hc.2]
  · next hc => exact iff_of_true ⟨_, rfl⟩ hc

theorem setPlace_some {on : Bool} {f : WinAttrs → WinAttrs} (hw : s.window k = some w)
    (h : setPlace s k on f = some (t, true)) :
    ∃ w', w'.attributes = (if on then f w.attributes else w.attributes) ∧ t = s.setWindow k w' := by
  rw [setPlace_eq hw] at h
  split at h
  · exact absurd (Prod.mk.inj (Option.some.inj h)).2 (by simp)
  · exact ⟨_, rfl, (Prod.mk.inj (Option.some.inj h)).1.symm⟩

theorem sizeFrom_exact (h : GoodTable s) (hw : LiveWindow s k w) :
    Exact (sizeFrom msg k mask s)
      ((mask.size = true → (s.resources k).id = s.focus → 36 ≤ msg.length) ∧
        ((mask.size = true → (s.resources k).id = s.focus) →
          (mask.events = true → 40 ≤ msg.length) ∧ LastFits (clsOf s (attrsAt msg).image) w.attributes.stack mask msg))
      fun r => r = (setPlace s k mask.size fun b =>
          { b with width := (attrsAt msg).width, height := (attrsAt msg).height }).andThen fun s =>
        (setEvents s k mask.events (attrsAt msg).events).andThen fun s =>
        (setImage s k mask.image (attrsAt msg).image).andThen fun s =>
        setStack s k mask.stack (attrsAt msg).stack := by
  refine Exact.congr (attrThen_exact (placePart_exact (m := fun width height =>
    { width := width, height := height }) hw.window fun b => rfl)
    (C := (mask.events = true → 40 ≤ msg.length) ∧ LastFits (clsOf s (attrsAt msg).image) w.attributes.stack mask msg)
    fun t ht => ?_) ?_
  · obtain ⟨w', hw', rfl⟩ := setPlace_some hw.window ht
    refine Exact.congr (eventsFrom_exact (h.setWindow hw) hw.setWindow) ?_
    have hx : w'.attributes.x = w.attributes.x := by
      rw [hw']
      split <;> rfl
    have hstack : w'.attributes.stack = w.attributes.stack := by
      rw [hw']
      split <;> rfl
    rw [clsOf_setWindow_same h hw hx, hstack]
  · rw [setPlace_goes hw.window]

theorem setAttributesFrom_exact (h : GoodTable s) (hw : LiveWindow s k w) :
    Exact (setAttributesFrom msg k mask s) (AttributesFit s msg k mask)
      fun r => r = windowResourceSetAttributes s k (attrsAt msg) mask := by
  refine Exact.congr (attrThen_exact (placePart_exact (m := fun x y => { x := x, y := y })
    hw.window fun b => rfl) (C :=
      (mask.size = true → (s.resources k).id = s.focus → 36 ≤ msg.length) ∧
        ((mask.size = true → (s.resources k).id = s.focus) → (mask.events = true → 40 ≤ msg.length) ∧
          LastFits (clsAfter s k mask (attrsAt msg)) w.attributes.stack mask msg))
    fun t ht => ?_) ?_
  · obtain ⟨w', hw', rfl⟩ := setPlace_some hw.window ht
    refine Exact.congr (sizeFrom_exact (h.setWindow hw) hw.setWindow) ?_
    have hstack : w'.attributes.stack = w.attributes.stack := by
      rw [hw']
      split <;> rfl
    have hcls : clsOf (s.setWindow k w') (attrsAt msg).image = clsAfter s k mask (attrsAt msg) := by
      have hself : clsOf (s.setWindow k w) k = some w.attributes.x := by
        rw [clsOf_setWindow h hw, if_pos rfl]
      rw [Wm.setWindow_self hw.window] at hself
      rw [clsOf_setWindow h hw, clsAfter, hw']
      by_cases hid : (attrsAt msg).image = k
      · rw [if_pos hid, hid, hself]
        cases mask.position <;> simp
      · rw [if_neg hid, if_neg fun hc => hid hc.2]
    rw [hcls, hstack, Wm.setWindow_id, Wm.setWindow_focus]
  · rw [setPlace_goes hw.window, h.id_eq hw.1, AttributesFit, hw.stack, LastFits]
    simp only [Option.some.injEq]
    by_cases hf : k = s.focus
    · simp [hf]
    · cases mask.position <;> cases mask.size <;> simp [hf]

theorem setWindowAttributes_exact (h : Served fb s) : Exact (setWindowAttributes msg s)
    (16 ≤ msg.length ∧ (HasType s (wordAt msg 12) WM_RESOURCE_WINDOW → 20 ≤ msg.length ∧
      AttributesFit s msg (wordAt msg 12) (attrMask (wordAt msg 16)))) (StaysServed fb) := by
  refine ofWindow_exact h fun w hw => msgWord_exact.bind_eq ?_
  refine Exact.congr ((setAttributesFrom_exact h.good hw).bind_eq (answerWith_next
    (e := .setWindowAttributes (wordAt msg 12) (attrMask (wordAt msg 16)) (attrsAt msg)) h ?_))
    (and_iff_left trivial)
  have htype := (hasType_window h).mpr ⟨w, hw⟩
  rw [wmNext, handleSetWindowAttributes, h.good.getResource hw.1]
  dsimp only
  rw [if_neg (not_not.mpr htype.2)]

/-! ## drawing -/

theorem LiveImage.redrawn (hi : LiveImage s k cls image) : LiveImage (s.redraw k image') k cls image' := by
  rw [hi.redraw, LiveImage, Wm.modify_same]
  exact ⟨hi.1, rfl⟩

theorem LiveImage.redraw_self (hi : LiveImage s k cls image) : s.redraw k image = s := by
  rw [hi.redraw]
  refine Wm.modify_id ?_
  rw [← hi.2]

theorem LiveImage.redraw_redraw {image'' : Image} (hi : LiveImage s k cls image) :
    (s.redraw k image').redraw k image'' = s.redraw k image'' := by
  rw [hi.redrawn.redraw, hi.redraw, hi.redraw, Wm.modify_modify]

theorem hasType_redraw {id type : Nat} : HasType (s.redraw k image) id type ↔ HasType s id type := by
  by_cases hid : id = k
  · simp [HasType, serverGetResource, Wm.redraw, hid]
  · simp [HasType, serverGetResource, Wm.redraw, Wm.modify_other hid]

/-- The images after one was drawn on. -/
theorem LiveImage.of_redraw {cls' : Nat} {source : Image} (hi : LiveImage s k cls image)
    (hj : LiveImage s j cls' source) (hsize : image.SameSize image') :
    ∃ source', LiveImage (s.redraw k image') j cls' source' ∧ source.SameSize source' ∧
      (j = k → source' = image') := by
  by_cases hjk : j = k
  · obtain ⟨rfl, rfl⟩ := ResData.image.inj (Option.some.inj (hi.2.symm.trans (hjk ▸ hj.2)))
    exact ⟨image', hjk ▸ hi.redrawn, hsize, fun _ => rfl⟩
  · refine ⟨source, ?_, .refl, fun h => absurd h hjk⟩
    rwa [hi.redraw, LiveImage, Wm.modify_other hjk]

/-- What a batch has done so far. -/
def Drawn (s : Wm) (k : Nat) (image : Image) (t : Wm) : Prop :=
  ∃ image', image.SameSize image' ∧ t = s.redraw k image'

theorem LiveImage.drawn {image'' : Image} (hi : LiveImage s k cls image) (hsize : image.SameSize image'')
    : Drawn s k image ((s.redraw k image').redraw k image'') := ⟨image'', hsize, hi.redraw_redraw⟩

variable {off : Nat}

theorem drawFill_exact (h : Served fb s) (hi : LiveImage s k cls image) (hsize : image.SameSize image') :
    Exact (drawFill fb msg k off (s.redraw k image')) (off + 7 ≤ msg.length) fun r =>
      Drawn s k image r.1 ∧ r.2 = true := by
  have hsized := hsize.sized (h.sized k cls image hi)
  refine Exact.congr (msgColor_exact.bind fun color _ => (imageResourceGetImage_exact hi.redrawn).bind_eq
    ((imageFill_exact hsized).bind fun u hu => Exact.ok ⟨hi.drawn (hsize.trans hu), rfl⟩)) ?_
  simp only [and_true]

theorem drawFillRect_exact (hi : LiveImage s k cls image) (hsize : image.SameSize image') :
    Exact (drawFillRect fb msg k off (s.redraw k image')) (off + 23 ≤ msg.length ∧
      FillRectFits image ⟨i32 (wordAt msg (off + 4)), i32 (wordAt msg (off + 8)),
        i32 (wordAt msg (off + 12)), i32 (wordAt msg (off + 16))⟩) fun r =>
      Drawn s k image r.1 ∧ r.2 = true := by
  refine Exact.congr (msgColor_exact.bind fun color _ => (imageResourceGetImage_exact hi.redrawn).bind_eq
    (msgInt_exact.bind_eq (msgInt_exact.bind_eq (msgInt_exact.bind_eq (msgInt_exact.bind_eq
      (imageFillRect_exact.bind fun u hu => Exact.ok ⟨hi.drawn (hsize.trans hu), rfl⟩)))))) ?_
  rw [fillRectFits_congr hsize]
  simp only [and_true, true_and, ← and_assoc]
  exact and_congr_left fun _ => by omega

theorem drawCopyArea_exact (h : Served fb s) (hi : LiveImage s k cls image)
    (hsize : image.SameSize image') : Exact (drawCopyArea msg k off (s.redraw k image'))
      (off + 8 ≤ msg.length ∧ ∀ source ∈ liveImage s (wordAt msg (off + 4)), off + 32 ≤ msg.length ∧
        CopyAreaFits image source (i32 (wordAt msg (off + 8))) (i32 (wordAt msg (off + 12)))
          (i32 (wordAt msg (off + 16))) (i32 (wordAt msg (off + 20))) (i32 (wordAt msg (off + 24)))
          (i32 (wordAt msg (off + 28))))
      fun r => Drawn s k image r.1 ∧
        (r.2 = true ↔ HasType s (wordAt msg (off + 4)) WM_RESOURCE_IMAGE) := by
  refine msgWord_exact.bind_eq ?_
  by_cases ht : HasType s (wordAt msg (off + 4)) WM_RESOURCE_IMAGE
  · obtain ⟨cls', source, hsrc⟩ := (hasType_image h).mp ht
    obtain ⟨source', hsrc', hsame, hdest⟩ := hi.of_redraw hsrc hsize
    rw [if_pos (hasType_redraw.mpr ht), hsrc.liveImage h]
    refine Exact.congr ((imageResourceGetImage_exact hi.redrawn).bind_eq
      ((imageResourceGetImage_exact hsrc').bind_eq (msgInt_exact.bind_eq (msgInt_exact.bind_eq
      (msgInt_exact.bind_eq (msgInt_exact.bind_eq (msgInt_exact.bind_eq (msgInt_exact.bind_eq
      ((imageCopyArea_exact fun hk => hdest (of_decide_eq_true hk)).bind fun u hu =>
        Exact.ok ⟨hi.drawn (hsize.trans hu), by simp [ht]⟩))))))))) ?_
    rw [copyAreaFits_congr hsize hsame]
    simp only [and_true, true_and, ← and_assoc, Option.mem_def, Option.some.injEq, forall_eq']
    exact and_congr_left fun _ => by omega
  · rw [if_neg fun hc => ht (hasType_redraw.mp hc), liveImage_none ht]
    exact Exact.congr (Exact.ok ⟨⟨image', hsize, rfl⟩, by simp [ht]⟩) (by simp)

/-- Commands lie one after the other, so that the first word of one is
received only with the rest. -/
theorem drawCommand_exact {i n : Nat} (h : Served fb s) (hi : LiveImage s k cls image)
    (hlen : msg.length = DRAW_BATCH_SIZE + DRAW_COMMAND_SIZE * n) (ht : Drawn s k image t) :
    Exact (drawCommand fb msg k i t) (CommandFits s msg image i) fun r =>
      Drawn s k image r.1 ∧ (r.2 = true ↔ ¬ CopiesNothing s msg i) := by
  obtain ⟨image', hsize, rfl⟩ := ht
  have hwhole : ∀ m, 4 ≤ m → m ≤ DRAW_COMMAND_SIZE →
      (commandAt i + m ≤ msg.length ↔ commandAt i + DRAW_COMMAND_SIZE ≤ msg.length) := by
    intro m h4 hm
    simp only [hlen, commandAt, DRAW_COMMAND_SIZE, DRAW_BATCH_SIZE] at *
    omega
  by_cases hin : commandAt i + DRAW_COMMAND_SIZE ≤ msg.length
  · have hfit : ∀ m, 4 ≤ m → m ≤ DRAW_COMMAND_SIZE → commandAt i + m ≤ msg.length :=
      fun m h4 hm => (hwhole m h4 hm).mpr hin
    refine Exact.congr (msgWord_exact.bind_eq (C := CommandFits s msg image i) ?_)
      (and_iff_right (hfit 4 (Nat.le_refl 4) (by decide)))
    unfold CommandFits CopiesNothing
    by_cases hcopy : wordAt msg (commandAt i) = WM_DRAW_COPY_AREA
    · rw [if_pos hcopy]
      refine ((drawCopyArea_exact h hi hsize).mono fun r hr => ⟨hr.1, by simp [hr.2, hcopy]⟩).congr ?_
      have h8 := hfit 8 (by decide) (by decide)
      have h32 := hfit 32 (by decide) (by decide)
      have hne : WM_DRAW_COPY_AREA ≠ WM_DRAW_FILL_RECT := by decide
      simp [hcopy, hin, h8, h32, hne, intAt]
    rw [if_neg hcopy]
    by_cases hfill : wordAt msg (commandAt i) = WM_DRAW_FILL
    · rw [if_pos hfill]
      refine ((drawFill_exact h hi hsize).mono fun r hr => ⟨hr.1, by simp [hr.2, hcopy]⟩).congr ?_
      have h7 := hfit 7 (by decide) (by decide)
      have hne : WM_DRAW_FILL ≠ WM_DRAW_FILL_RECT := by decide
      simp [hfill ▸ hcopy, hfill, hin, h7, hne]
    rw [if_neg hfill]
    by_cases hrect : wordAt msg (commandAt i) = WM_DRAW_FILL_RECT
    · rw [if_pos hrect]
      refine ((drawFillRect_exact hi hsize).mono fun r hr => ⟨hr.1, by simp [hr.2, hcopy]⟩).congr ?_
      have h23 := hfit 23 (by decide) (by decide)
      simp [hrect ▸ hcopy, hrect, hin, h23, intAt]
    · rw [if_neg hrect]
      exact Exact.congr (Exact.ok ⟨⟨image', hsize, rfl⟩, by simp [hcopy]⟩) (by simp [hcopy, hrect, hin])
  · have hout : ¬ commandAt i + 4 ≤ msg.length := fun hc => hin ((hwhole 4 (by decide) (by decide)).mp hc)
    rw [drawCommand, msgWord, if_neg hout]
    exact Exact.error.congr (by simp [CommandFits, hin])

theorem drawBatch_exact (h : Served fb s) : Exact (drawBatch fb msg s)
    (16 ≤ msg.length ∧ ∀ image ∈ liveImage s (wordAt msg 12), BatchFits s msg image)
    (StaysServed fb) := by
  refine msgId_exact.bind_eq ?_
  by_cases ht : HasType s (wordAt msg 12) WM_RESOURCE_IMAGE
  · obtain ⟨cls, image, hi⟩ := (hasType_image h).mp ht
    rw [if_pos ht, hi.liveImage h]
    simp only [Option.mem_def, Option.some.injEq, forall_eq']
    refine msgWord_exact.bind_eq ?_
    by_cases hcount : msg.length =
        u32 (u32 (wordAt msg 16 * DRAW_COMMAND_SIZE) + DRAW_BATCH_SIZE)
    · have hlen : ∃ n, msg.length = DRAW_BATCH_SIZE + DRAW_COMMAND_SIZE * n := by
        refine ⟨wordAt msg 16 % 2 ^ 27, ?_⟩
        rw [hcount]
        simp only [u32, DRAW_BATCH_SIZE, DRAW_COMMAND_SIZE]
        omega
      obtain ⟨n, hn⟩ := hlen
      rw [if_neg (not_not.mpr hcount)]
      have hloop : Exact (Loop.tryLoop (drawCommand fb msg (wordAt msg 12)) 0 (wordAt msg 16) s) _
          (Drawn s (wordAt msg 12) image) :=
        Exact.tryLoop (fun i t _ _ ht => drawCommand_exact h hi hn ht) ⟨image, .refl, hi.redraw_self.symm⟩
      refine Exact.congr (hloop.bind (C := True) fun t ht => ?_) ?_
      · obtain ⟨image', hsize, rfl⟩ := ht
        exact answer_exact (h.redraw hi hsize)
      · simp [hcount]
    · rw [if_pos hcount]
      exact (answer_exact h).congr (by simp [hcount])
  · rw [if_neg ht, liveImage_none ht]
    exact (answer_exact h).congr (by simp)

/-! ## messages -/

theorem handle_exact {f : WmFunction} (h : Served fb s) :
    Exact (handle fb msg s f) (RequestFits s msg f) (StaysServed fb) := by
  cases f with
  | acknowledge => exact answer_exact h
  | forget => exact answer_exact h
  | getScreenInfo =>
      refine Exact.ok fun p hp => ?_
      obtain rfl := Option.some.inj hp
      exact h
  | createImage => exact createImage_exact h
  | destroyImage => exact destroyImage_exact h
  | resizeImage => exact resizeImage_exact h
  | setImageData => exact setImageData_exact h
  | createWindow => exact answerWith_next (e := .createWindow) h rfl
  | destroyWindow => exact destroyWindow_exact h
  | setWindowAttributes => exact setWindowAttributes_exact h
  | getWindowAttributes => exact getWindowAttributes_exact h
  | getQueuedWindowEvents => exact getQueuedWindowEvents_exact h
  | postWindow => exact postWindow_exact h
  | drawBatch => exact drawBatch_exact h

/-- The dispatch, once the size and the type are right. -/
theorem dispatch_exact (h : Served fb s) :
    Exact ((msgWord msg 8).bind fun function =>
        match handlers function with
        | none => answer s WM_FAILURE
        | some f => handle fb msg s f)
      (12 ≤ msg.length ∧ ∀ f ∈ handlers (wordAt msg 8), RequestFits s msg f) (StaysServed fb) := by
  refine msgWord_exact.bind_eq ?_
  cases handlers (wordAt msg 8) with
  | none => exact (answer_exact h).congr (by simp)
  | some f => exact (handle_exact h).congr (by simp)

/-- **A message** gets through exactly if it fits. -/
theorem processMessage_exact (h : Served fb s) :
    Exact (processMessage fb msg s) (MessageFits s msg) (StaysServed fb) := by
  have htype : Exact ((msgWord msg 0).bind fun type =>
      if type ≠ WM_REQUEST then answer s WM_FAILURE
      else (msgWord msg 8).bind fun function =>
        match handlers function with
        | none => answer s WM_FAILURE
        | some f => handle fb msg s f)
      (4 ≤ msg.length ∧ (wordAt msg 0 = WM_REQUEST →
        12 ≤ msg.length ∧ ∀ f ∈ handlers (wordAt msg 8), RequestFits s msg f)) (StaysServed fb) := by
    refine msgWord_exact.bind_eq ?_
    exact Exact.congr (Exact.ite (fun _ => answer_exact h) fun _ => dispatch_exact h) (by simp)
  refine Exact.congr (msgWord_exact.bind_eq (Exact.ite (fun _ => answer_exact h) fun _ => htype)) ?_
  simp only [implies_true, true_and, not_not, MessageFits]
  refine and_congr_right fun hlen => imp_congr_right fun _ => ?_
  exact and_iff_right (Nat.le_trans (by decide) hlen)

/-! ## runs -/

/-- What happens to the server. -/
inductive ServerEvent where
  | message (msg : Bytes)
  | event (e : WmEvent)

/-- `server_update`: a message of up to the size of the channel's buffer, or an event. -/
def serverNext (fb : Display) (s : Wm) : ServerEvent → Option Wm
  | .message msg =>
      if msg.length ≤ ECIO_CHNL_BUFSZ then
        match processMessage fb msg s with
        | .ok r => r.map (·.1)
        | .error _ => none
      else none
  | .event e => windowProcessEvent s e

/-- The server from its start on. -/
def serverSystem (fb : Display) : System Wm ServerEvent := System.ofNext (· = Wm.init) (serverNext fb)

theorem served_init : Served fb Wm.init := ⟨goodTable_init, fun _ _ _ hi => absurd rfl hi.1⟩

theorem served_of_reachable (h : (serverSystem fb).Reachable System.Any s) : Served fb s := by
  refine h.invariant ?_ ?_
  · rintro s rfl
    exact served_init
  · intro s e t hs _ hstep
    cases e with
    | event e => exact hs.next (e := .event e) hstep
    | message msg =>
        simp only [serverSystem, System.ofNext, serverNext] at hstep
        split at hstep
        · split at hstep
          · next r hr =>
              obtain ⟨p, rfl, rfl⟩ := Option.map_eq_some_iff.mp hstep
              exact (processMessage_exact hs).post _ hr p rfl
          · contradiction
        · contradiction

/-- A request of three words. -/
def createImageMessage : Bytes :=
  [1, 0, 0, 0, 24, 0, 0, 0, 1, 1, 0, 0, 8, 0, 0, 0, 4, 0, 0, 0, 2, 0, 0, 0]

/-- Filling the pixels from (1, 1) to (3, 3) of the image 1. -/
def fillRectMessage : Bytes :=
  [1, 0, 0, 0, 52, 0, 0, 0, 1, 4, 0, 0, 1, 0, 0, 0, 1, 0, 0, 0,
    3, 0, 0, 0, 1, 0, 0, 0, 1, 0, 0, 0, 2, 0, 0, 0, 2, 0, 0, 0, 255, 0, 0, 0, 0, 0, 0, 0, 0, 0, 0, 0]

/-- A request to destroy an image that ends before the id. -/
def shortMessage : Bytes := [1, 0, 0, 0, 12, 0, 0, 0, 2, 1, 0, 0]

end Eclair
