import Eclair.Crepe.Draw
import Eclair.Lib.Area

/-!
# Eclair.Crepe.Tiles

What `crepe_draw_context_image_repeated` (`lib/crepe/draw.c`) paints: which
pixels its commands write, and which pixel of the image each is taken from.
-/

namespace Eclair

/-- A pixel that is copied: where it goes, and the image and the place in it
that it comes from. -/
structure PixelCopy where
  dest : Int × Int
  image : Nat
  source : Nat × Nat

/-- The pixel in column `i` and row `j` of an area that is copied. -/
def pixelCopy (image : Nat) (x y : Int) (sx sy i j : Nat) : PixelCopy where
  dest := (i32 (x + i), i32 (y + j))
  image := image
  source := (sx + i, sy + j)

/-- The pixels that a command copies. -/
def DrawCommand.copies : DrawCommand → Multiset PixelCopy
  | .copyArea image x y sx sy sw sh => Area.items sw sh (pixelCopy image x y sx sy)
  | .fill _ | .fillRect .. => 0

def DrawCommand.IsCopy : DrawCommand → Prop
  | .copyArea .. => True
  | .fill _ | .fillRect .. => False

/-- The pixel in column `i` and row `j` of an area that is painted with tiles
of `sw` by `sh`. -/
def tilePixel (image : Nat) (x y : Int) (sw sh : Nat) (px py : Int) (i j : Nat) : PixelCopy where
  dest := (i32 (px + i), i32 (py + j))
  image := image
  source := (wrap x + i % sw, wrap y + j % sh)

/-- The commands do nothing but copy pixels, which are those of `f` in an
area of `w` by `h`, each once. -/
structure Paints (w h : Nat) (f : Nat → Nat → PixelCopy) (cmds : List DrawCommand) : Prop where
  only : ∀ c ∈ cmds, c.IsCopy
  pixels : (cmds : Multiset DrawCommand).bind DrawCommand.copies = Area.items w h f

/-- Code that queues the commands of a list, whatever the queue is. -/
def Drawing.Issues (f : Drawing) (cmds : List DrawCommand) : Prop :=
  ∀ S emit s, f S emit s = emitAll emit cmds s

section

variable {f g : Drawing} {cs ds : List DrawCommand} {p q : Nat → Nat → PixelCopy} {w w' h h' : Nat}

theorem Drawing.Issues.none : Drawing.Issues (fun _ _ s => .ok s) [] := fun _ _ _ => rfl

theorem Drawing.Issues.one (c : DrawCommand) : Drawing.Issues (fun _ emit s => emit c s) [c] := by
  intro S emit s
  simp only [emitAll]
  cases emit c s <;> rfl

theorem Drawing.Issues.bind (hf : f.Issues cs) (hg : g.Issues ds) :
    Drawing.Issues (fun S emit s => (f S emit s).bind (g S emit)) (cs ++ ds) := by
  intro S emit s
  simp only [hf S emit s, emitAll_append]
  congr 1
  exact funext (hg S emit)

theorem Paints.none_left : Paints 0 h p [] := ⟨by simp, by simp⟩

theorem Paints.none_right : Paints w 0 p [] := ⟨by simp, by simp⟩

/-- An area that one command copies. -/
theorem Paints.one {image : Nat} {x y : Int} {sx sy : Nat}
    (heq : ∀ i < w, ∀ j < h, pixelCopy image x y sx sy i j = p i j) :
    Paints w h p [.copyArea image x y sx sy w h] where
  only := by simp [DrawCommand.IsCopy]
  pixels := by simpa [DrawCommand.copies] using Area.items_congr heq

/-- Two areas side by side. -/
theorem Paints.beside (hcs : Paints w h p cs) (hds : Paints w' h (fun i j => p (w + i) j) ds) :
    Paints (w + w') h p (cs ++ ds) where
  only := fun c hc => (List.mem_append.mp hc).elim (hcs.only c) (hds.only c)
  pixels := by
    rw [← Multiset.coe_add, Multiset.add_bind, hcs.pixels, hds.pixels, Area.items_add_left]

/-- Two areas one above the other. -/
theorem Paints.below (hcs : Paints w h p cs) (hds : Paints w h' (fun i j => p i (h + j)) ds) :
    Paints w (h + h') p (cs ++ ds) where
  only := fun c hc => (List.mem_append.mp hc).elim (hcs.only c) (hds.only c)
  pixels := by
    rw [← Multiset.coe_add, Multiset.add_bind, hcs.pixels, hds.pixels, Area.items_add_right]

theorem Paints.congr (hcs : Paints w h p cs) (heq : ∀ i < w, ∀ j < h, p i j = q i j) :
    Paints w h q cs :=
  ⟨hcs.only, hcs.pixels.trans (Area.items_congr heq)⟩

end

/-! ## the loops -/

section

variable {image : Nat} {x y px py : Int} {sw sh w h : Nat}

theorem i32_add_natCast (a : Int) (m n : Nat) : i32 (i32 (a + m) + n) = i32 (a + (m + n : Nat)) := by
  simp only [i32, Int.bmod]
  omega

/-- What is left of a loop counter after one round. -/
theorem eq_add_sub (n s : Nat) : n = (if n > s then s else n) + (n - if n > s then s else n) := by
  split <;> omega

/-- A round takes its part from the start of the tile. -/
theorem mod_of_lt_part {n s i : Nat} (hi : i < if n > s then s else n) : i % s = i := by
  apply Nat.mod_eq_of_lt
  split at hi <;> omega

/-- The rounds after it start at the start of the tile again. -/
theorem add_mod_part {n s i : Nat} (hi : i < n - if n > s then s else n) :
    ((if n > s then s else n) + i) % s = i % s := by
  split at hi
  · next hgt => rw [if_pos hgt, Nat.add_mod_left]
  · omega

/-- The inner loop paints one row of tiles. -/
theorem rowLoop_paints (image : Nat) (x y : Int) (hsw : 0 < sw) (ph : Nat) (ay : Int) (fuel w : Nat)
    (hw : w ≤ fuel) (ax : Int) :
    ∃ cmds, Drawing.Issues (fun _ emit s => rowLoop emit image x y sw ph ay fuel w ax s) cmds ∧
      Paints w ph (fun i j => ⟨(i32 (ax + i), i32 (ay + j)), image, (wrap x + i % sw, wrap y + j)⟩)
        cmds := by
  induction fuel generalizing w ax with
  | zero =>
      obtain rfl : w = 0 := by omega
      exact ⟨[], .none, .none_left⟩
  | succ fuel ih =>
      by_cases h0 : w = 0
      · subst h0
        exact ⟨[], .none, .none_left⟩
      · generalize hpw : (if w > sw then sw else w) = pw
        have hpos : 0 < pw := by subst hpw; split <;> omega
        obtain ⟨cmds, hissue, hpaint⟩ := ih (w - pw) (by omega) (i32 (ax + pw))
        refine ⟨[.copyArea image ax ay (wrap x) (wrap y) pw ph] ++ cmds, ?_, ?_⟩
        · simp only [rowLoop, h0, if_false, hpw]
          exact .bind (.one _) hissue
        · have hsum : w = pw + (w - pw) := by rw [← hpw]; exact eq_add_sub w sw
          rw [hsum]
          refine .beside (.one fun i hi j _ => ?_) (hpaint.congr fun i hi j _ => ?_)
          · rw [← hpw] at hi
            simp [pixelCopy, mod_of_lt_part hi]
          · rw [← hpw] at hi ⊢
            rw [i32_add_natCast, add_mod_part hi]

/-- The outer loop paints the rows one above the other. -/
theorem gridLoop_paints (image : Nat) (x y px : Int) (w : Nat) (hsw : 0 < sw) (hsh : 0 < sh)
    (fuel h : Nat) (hh : h ≤ fuel) (ay : Int) :
    ∃ cmds, Drawing.Issues (fun _ emit s => gridLoop emit image x y sw sh w px fuel h ay s) cmds ∧
      Paints w h (tilePixel image x y sw sh px ay) cmds := by
  induction fuel generalizing h ay with
  | zero =>
      obtain rfl : h = 0 := by omega
      exact ⟨[], .none, .none_right⟩
  | succ fuel ih =>
      by_cases h0 : h = 0
      · subst h0
        exact ⟨[], .none, .none_right⟩
      · generalize hph : (if h > sh then sh else h) = ph
        have hpos : 0 < ph := by subst hph; split <;> omega
        obtain ⟨row, hrow, hpaintRow⟩ := rowLoop_paints image x y hsw ph ay w w le_rfl px
        obtain ⟨rest, hrest, hpaintRest⟩ := ih (h - ph) (by omega) (i32 (ay + ph))
        refine ⟨row ++ rest, ?_, ?_⟩
        · simp only [gridLoop, h0, if_false, hph]
          exact .bind hrow hrest
        · have hsum : h = ph + (h - ph) := by rw [← hph]; exact eq_add_sub h sh
          rw [hsum]
          refine .below (hpaintRow.congr fun i _ j hj => ?_) (hpaintRest.congr fun i _ j hj => ?_)
          · rw [← hph] at hj
            simp [tilePixel, mod_of_lt_part hj]
          · rw [← hph] at hj ⊢
            simp only [tilePixel]
            rw [i32_add_natCast, add_mod_part hj]

/-- No two pixels of an area go to the same place. -/
theorem nodup_dest (hw : w < 2 ^ 32) (hh : h < 2 ^ 32) :
    ((Area.items w h (tilePixel image x y sw sh px py)).map PixelCopy.dest).Nodup := by
  rw [Area.map_items]
  refine Area.nodup_items fun i hi j hj i' hi' j' hj' heq => ?_
  simp only [tilePixel, Prod.mk.injEq, i32, Int.bmod] at heq
  omega

end

/-! ## the property -/

/-- A call of `crepe_draw_context_image_repeated` issues commands that paint
the area at the current position with tiles, each pixel once; it ends, and
if there is room for one command it queues and sends them. -/
def TilesArea (ctx : DrawContext) (image : Nat) (x y : Int) (sw sh w h : Nat) : Prop :=
  ∃ cmds,
    Paints w h (tilePixel image x y sw sh ctx.x ctx.y) cmds ∧
    ((Area.items w h (tilePixel image x y sw sh ctx.x ctx.y)).map PixelCopy.dest).Nodup ∧
    let call := DrawCall.imageRepeated image x y sw sh w h
    call.issue listCommand ctx.fonts ctx.x ctx.y [] = .ok cmds ∧
    call.run ctx ≠ .error .hangs ∧
    (ctx.out.queue.length < WM_DRAW_BATCH_MAX →
      ∃ ctx', call.run ctx = .ok ctx' ∧ ctx'.out.all = ctx.out.all ++ cmds)

theorem putAll_ne_hangs (cmds : List DrawCommand) (out : Outbox DrawCommand) :
    Outbox.putAll WM_DRAW_BATCH_MAX DrawFault.overflow cmds out ≠ .error .hangs := by
  induction cmds generalizing out with
  | nil =>
      intro h
      cases h
  | cons c cmds ih =>
      simp only [Outbox.putAll, Outbox.putFlush]
      by_cases hlt : out.queue.length < WM_DRAW_BATCH_MAX
      · rw [Outbox.put_of_lt hlt]
        exact ih _
      · rw [Outbox.put_of_ge (by omega)]
        intro h
        cases h

/-- **Tiles cover the area exactly**, whatever its size and that of the
tile. -/
theorem tilesArea (ctx : DrawContext) (image : Nat) (x y : Int) (sw sh w h : Nat)
    (hsw : 0 < sw) (hsh : 0 < sh) (hw : w < 2 ^ 32) (hh : h < 2 ^ 32) :
    TilesArea ctx image x y sw sh w h := by
  obtain ⟨cmds, hissue, hpaint⟩ := gridLoop_paints image x y ctx.x w hsw hsh h h le_rfl ctx.y
  have hlist : (DrawCall.imageRepeated image x y sw sh w h).issue listCommand ctx.fonts ctx.x ctx.y []
      = .ok cmds := (hissue _ listCommand []).trans emitAll_listCommand
  have hrun : (DrawCall.imageRepeated image x y sw sh w h).run ctx =
      (Outbox.putAll WM_DRAW_BATCH_MAX .overflow cmds ctx.out).map
        ((DrawCall.imageRepeated image x y sw sh w h).settle ctx) := by
    refine congrArg (Except.map _) ((hissue _ _ ctx.out).trans ?_)
    exact emitAll_putFlush
  refine ⟨cmds, hpaint, nodup_dest hw hh, hlist, ?_, fun hroom => ?_⟩
  · have hends := putAll_ne_hangs cmds ctx.out
    rw [hrun]
    cases hput : Outbox.putAll WM_DRAW_BATCH_MAX DrawFault.overflow cmds ctx.out with
    | ok out => nofun
    | error e =>
        rw [hput] at hends
        simpa [Except.map] using hends
  · obtain ⟨out, hput, hall, -⟩ := emitAll_checked (l := cmds) (.inr hroom)
    rw [emitAll_putFlush] at hput
    rw [hrun, hput]
    exact ⟨_, rfl, all_settle.trans hall⟩

/-- Tiles of 3 by 2 on an area of 7 by 5, with a batch sent in between. -/
theorem tilesArea_partial :
    TilesArea ⟨⟨List.replicate 2046 (.fill ⟨0, 0, 0⟩), []⟩, 10, -1, fun _ => 0⟩ 4 0 16 3 2 7 5 :=
  tilesArea _ 4 0 16 3 2 7 5 (by decide) (by decide) (by decide) (by decide)

end Eclair
