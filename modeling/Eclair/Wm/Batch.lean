import Eclair.Wm.Safety

/-!
# Eclair.Wm.Batch

What the server answers to a batch of drawing commands (`handle_draw_batch`).

The result that a command sets when it fails is written over after the
loop, and a command of an unknown type is passed over.  So a batch for a
live image whose length is right is always answered with success:
`drawBatch_replies_iff` says which batches get the answer they should.
-/

namespace Eclair

/-- The command is of a known type, and copies from a live image if it copies. -/
def CommandValid (s : Wm) (msg : Bytes) (i : Nat) : Prop :=
  wordAt msg (commandAt i) ∈ [WM_DRAW_COPY_AREA, WM_DRAW_FILL, WM_DRAW_FILL_RECT] ∧
    ¬ CopiesNothing s msg i

/-- The target is a live image, the message is as long as its count says,
and all its commands are valid. -/
def BatchValid (s : Wm) (msg : Bytes) : Prop :=
  HasType s (wordAt msg 12) WM_RESOURCE_IMAGE ∧
    msg.length = DRAW_BATCH_SIZE + DRAW_COMMAND_SIZE * wordAt msg 16 ∧
    ∀ i < wordAt msg 16, CommandValid s msg i

/-- The batch is handled, and the answer says whether it is valid. -/
def RepliesRight (fb : Display) (msg : Bytes) (s : Wm) : Prop :=
  ∃ t result, drawBatch fb msg s = .ok (some (t, .result result)) ∧
    (result = WM_SUCCESS ↔ BatchValid s msg) ∧ (¬ BatchValid s msg → result = WM_FAILURE)

/-- The batch passes the checks before the loop. -/
def BatchTaken (s : Wm) (msg : Bytes) : Prop :=
  HasType s (wordAt msg 12) WM_RESOURCE_IMAGE ∧
    msg.length = u32 (u32 (wordAt msg 16 * DRAW_COMMAND_SIZE) + DRAW_BATCH_SIZE)

instance (s : Wm) (msg : Bytes) : Decidable (BatchTaken s msg) :=
  inferInstanceAs (Decidable (_ ∧ _))

variable {fb : Display} {s : Wm} {msg : Bytes} {r : Option (Wm × WmResponse)}

/-! ## the checks -/

theorem BatchValid.taken (h : BatchValid s msg) (hl : msg.length ≤ ECIO_CHNL_BUFSZ) :
    BatchTaken s msg := by
  obtain ⟨ht, hlen, -⟩ := h
  refine ⟨ht, ?_⟩
  simp only [DRAW_BATCH_SIZE, DRAW_COMMAND_SIZE, ECIO_CHNL_BUFSZ, u32] at hlen hl ⊢
  omega

/-- With all its commands received a batch has the length of its count. -/
theorem BatchTaken.length_eq (h : BatchTaken s msg)
    (hin : ∀ i < wordAt msg 16, commandAt i + DRAW_COMMAND_SIZE ≤ msg.length) :
    msg.length = DRAW_BATCH_SIZE + DRAW_COMMAND_SIZE * wordAt msg 16 := by
  have hle : DRAW_BATCH_SIZE + DRAW_COMMAND_SIZE * wordAt msg 16 ≤ msg.length ∨ wordAt msg 16 = 0 := by
    by_cases hc : wordAt msg 16 = 0
    · exact .inr hc
    · have hlast := hin (wordAt msg 16 - 1) (by omega)
      simp only [commandAt, DRAW_BATCH_SIZE, DRAW_COMMAND_SIZE] at hlast ⊢
      omega
  have hlen := h.2
  simp only [u32, DRAW_BATCH_SIZE, DRAW_COMMAND_SIZE] at hlen hle ⊢
  omega

/-! ## the answer -/

/-- The answer says only whether the checks were passed. -/
theorem drawBatch_result (h : drawBatch fb msg s = .ok r) :
    ∃ t, r = some (t, .result (if BatchTaken s msg then WM_SUCCESS else WM_FAILURE)) := by
  obtain ⟨id, hid, h⟩ := Exact.bind_eq_ok.mp h
  obtain rfl : id = wordAt msg 12 := msgId_exact.post _ hid
  by_cases ht : HasType s (wordAt msg 12) WM_RESOURCE_IMAGE
  · rw [if_pos ht] at h
    obtain ⟨count, hcount, h⟩ := Exact.bind_eq_ok.mp h
    obtain rfl : count = wordAt msg 16 := msgWord_exact.post _ hcount
    by_cases hl : msg.length = u32 (u32 (wordAt msg 16 * DRAW_COMMAND_SIZE) + DRAW_BATCH_SIZE)
    · rw [if_neg (not_not.mpr hl)] at h
      obtain ⟨t, -, h⟩ := Exact.bind_eq_ok.mp h
      exact ⟨t, by rw [← Except.ok.inj h, if_pos ⟨ht, hl⟩]⟩
    · rw [if_pos hl] at h
      exact ⟨s, by rw [← Except.ok.inj h, if_neg fun hb => hl hb.2]⟩
  · rw [if_neg ht] at h
    exact ⟨s, by rw [← Except.ok.inj h, if_neg fun hb => ht hb.1]⟩

/-- Where the commands are all valid they are all got to, and received. -/
theorem BatchTaken.valid (h : Served fb s) (hb : BatchTaken s msg)
    (hfit : RequestFits s msg .drawBatch) (hc : ∀ i < wordAt msg 16, CommandValid s msg i) :
    BatchValid s msg := by
  obtain ⟨cls, image, hi⟩ := (hasType_image h).mp hb.1
  have hbatch : BatchFits s msg image := hfit.2 image (hi.liveImage h)
  have hin : ∀ i < wordAt msg 16, commandAt i + DRAW_COMMAND_SIZE ≤ msg.length := fun i hlt =>
    (hbatch.2 hb.2 i hlt fun j hj => (hc j (by omega)).2).1
  exact ⟨hb.1, hb.length_eq hin, hc⟩

/-- **A batch that is handled gets the answer it should exactly if it fails
the checks before the loop, or all its commands are valid**: in every state
that messages and events lead to. -/
theorem drawBatch_replies_iff (h : (serverSystem fb).Reachable System.Any s)
    (hl : msg.length ≤ ECIO_CHNL_BUFSZ) :
    RepliesRight fb msg s ↔ RequestFits s msg .drawBatch ∧
      (BatchTaken s msg → ∀ i < wordAt msg 16, CommandValid s msg i) := by
  have hs := served_of_reachable h
  constructor
  · rintro ⟨t, result, hd, hiff, -⟩
    refine ⟨(drawBatch_exact hs).iff.mp ⟨_, hd⟩, fun hb => ?_⟩
    obtain ⟨t', ht'⟩ := drawBatch_result hd
    rw [if_pos hb] at ht'
    obtain ⟨-, hr⟩ := Prod.mk.inj (Option.some.inj ht')
    exact (hiff.mp (WmResponse.result.inj hr)).2.2
  · rintro ⟨hfit, hc⟩
    obtain ⟨r, hr⟩ := (drawBatch_exact hs).iff.mpr hfit
    obtain ⟨t, rfl⟩ := drawBatch_result hr
    refine ⟨t, _, hr, ?_⟩
    by_cases hb : BatchTaken s msg
    · have hv : BatchValid s msg := hb.valid hs hfit (hc hb)
      exact ⟨iff_of_true (if_pos hb) hv, fun hn => absurd hv hn⟩
    · have hv : ¬ BatchValid s msg := fun hv => hb (hv.taken hl)
      rw [if_neg hb]
      exact ⟨iff_of_false (by decide) hv, fun _ => rfl⟩

theorem drawBatch_replies_iff_example : ∃ s, (s.image 1).map Image.extent = some 128 ∧
    (RepliesRight vesaDisplay fillRectMessage s ↔ RequestFits s fillRectMessage .drawBatch ∧
      (BatchTaken s fillRectMessage →
        ∀ i < wordAt fillRectMessage 16, CommandValid s fillRectMessage i)) := by
  have hrun : (System.run (serverNext vesaDisplay) Wm.init [.message createImageMessage]).map
      (fun s => (s.image 1).map Image.extent) = some (some 128) := by decide +kernel
  obtain ⟨s, hs, hf⟩ := Option.map_eq_some_iff.mp hrun
  exact ⟨s, hf, drawBatch_replies_iff ⟨_, rfl, System.steps_of_run hs⟩ (by decide)⟩

/-- A copy from the image 2, which there is not, to the image 1. -/
def copyNothingMessage : Bytes :=
  [1, 0, 0, 0, 52, 0, 0, 0, 1, 4, 0, 0, 1, 0, 0, 0, 1, 0, 0, 0, 1, 0, 0, 0, 2, 0, 0, 0] ++
    List.replicate 24 0

theorem not_drawBatch_replies :
    ¬ ∀ s, (serverSystem vesaDisplay).Reachable System.Any s → ∀ msg : Bytes,
      msg.length ≤ ECIO_CHNL_BUFSZ → RepliesRight vesaDisplay msg s := by
  intro h
  have hrun : (System.run (serverNext vesaDisplay) Wm.init [.message createImageMessage]).map
      (fun s => (decide (BatchTaken s copyNothingMessage),
        decide (HasType s 2 WM_RESOURCE_IMAGE))) = some (true, false) := by decide +kernel
  obtain ⟨s, hs, hf⟩ := Option.map_eq_some_iff.mp hrun
  obtain ⟨hb, hn⟩ := Prod.mk.inj hf
  obtain ⟨t, result, hd, hiff, -⟩ := h s ⟨_, rfl, System.steps_of_run hs⟩ copyNothingMessage (by decide)
  obtain ⟨t', ht'⟩ := drawBatch_result hd
  rw [if_pos (of_decide_eq_true hb)] at ht'
  obtain ⟨-, hr⟩ := Prod.mk.inj (Option.some.inj ht')
  have hvalid := (hiff.mp (WmResponse.result.inj hr)).2.2 0 (by decide)
  exact hvalid.2 ⟨by decide, of_decide_eq_false hn⟩

end Eclair
