import Eclair.Driver.Console

/-!
# Eclair.Driver.Screen

What the text mode console shows (`kernel/driver/vgacon.c`).

Everything that is written goes on one long page, wrapped at the width of the
screen, in the colours that the style sequences set.  `vgacon_shows` says
that the screen is the window on the last rows of this page.
-/

namespace Eclair

open Fuel

/-! ## style parameters -/

/-- The numbers of a style sequence, behind the digits `r` of one. -/
def paramsFrom : Option Nat → List UInt8 → List Nat
  | r, [] => r.toList
  | r, c :: cs =>
      if c = 0 ∨ c = 109 then r.toList
      else if isDigit c then paramsFrom (some (u32 (r.getD 0 * 10 + (c.toNat - 48)))) cs
      else r.getD 0 :: paramsFrom none cs

section params

variable {e : Esc} {c : UInt8} {n p pos r : Nat} {S : Type} {f : Nat → S → S} {s : S}

theorem paramsFrom_end {x : Option Nat} {cs : List UInt8} (h : c = 0 ∨ c = 109) :
    paramsFrom x (c :: cs) = x.toList := by
  rw [paramsFrom, if_pos h]

theorem paramsFrom_digit {x : Option Nat} {cs : List UInt8} (h : isDigit c = true) :
    paramsFrom x (c :: cs) = paramsFrom (some (u32 (x.getD 0 * 10 + (c.toNat - 48)))) cs := by
  obtain ⟨h0, h109, -⟩ := isDigit_ne h
  rw [paramsFrom, if_neg (by simp [h0, h109]), if_pos h]

theorem paramsFrom_separator {x : Option Nat} {cs : List UInt8} :
    paramsFrom x (59 :: cs) = x.getD 0 :: paramsFrom none cs := by
  rw [paramsFrom, if_neg (by decide), if_neg (by decide)]

/-- A number begins with no digits. -/
theorem paramsFrom_none {cs : List UInt8} (h : ¬(c = 0 ∨ c = 109)) :
    paramsFrom none (c :: cs) = paramsFrom (some 0) (c :: cs) := by
  simp [paramsFrom, h]

/-- The end letter is no number. -/
theorem paramsFrom_append_end (x : Option Nat) (body : List UInt8) :
    paramsFrom x (body ++ [109]) = paramsFrom x body := by
  induction body generalizing x with
  | nil => rfl
  | cons c cs ih => simp [paramsFrom, ih]

theorem wellFormed_tail (h : wellFormed (c :: cs) = true) (hc : ¬(c = 0 ∨ c = 109)) :
    isParam c = true ∧ wellFormed cs = true := by
  simp only [wellFormed, Bool.or_eq_true, beq_iff_eq, Bool.and_eq_true, hc, false_or] at h
  exact h

/-- **`read_esc_int`** takes one number off the parameters. -/
theorem readEscInt_params (h0 : e.escbuf n = 0) (hn : n < ESCBUFSZ) (hp : p ≤ n)
    (hwf : wellFormed (e.tail n p) = true) (r : Nat) : ∃ q v,
    Returns (fun m => readEscInt e m p r) (q, v) ∧ p ≤ q ∧ q ≤ n ∧
      wellFormed (e.tail n q) = true ∧ (isParam (e.escbuf p) = true → p < q) ∧
      paramsFrom (some r) (e.tail n p) = v :: paramsFrom none (e.tail n q) := by
  obtain ⟨k, hk⟩ : ∃ k, k = n - p := ⟨_, rfl⟩
  induction k generalizing p r with
  | zero =>
      obtain rfl : p = n := by omega
      have hd : isDigit (e.escbuf p) = false := by simp [h0, isDigit]
      have hret : Returns (fun m => readEscInt e (m + 1) p r) (p, r) := by
        simp only [readEscInt_end hn hd, h0]
        exact returns_ok
      refine ⟨p, r, hret.of_succ rfl, le_rfl, le_rfl, hwf, by simp [h0, isParam, isDigit], ?_⟩
      simp [Esc.tail, paramsFrom]
  | succ k ih =>
      have hlt : p < ESCBUFSZ := by omega
      have htail : e.tail n p = e.escbuf p :: e.tail n (p + 1) := Esc.tail_cons (by omega)
      cases hd : isDigit (e.escbuf p) with
      | true =>
          rw [htail, wellFormed_digit hd] at hwf
          obtain ⟨q, v, hret, hpq, hqn, hwf', -, hv⟩ := ih (p := p + 1) (by omega) hwf
            (u32 (r * 10 + ((e.escbuf p).toNat - 48))) (by omega)
          have hret' : Returns (fun m => readEscInt e (m + 1) p r) (q, v) := by
            simpa only [readEscInt_digit hlt hd] using hret
          refine ⟨q, v, hret'.of_succ rfl, by omega, hqn, hwf', fun _ => by omega, ?_⟩
          rw [htail, paramsFrom_digit hd]
          exact hv
      | false =>
          have hret : Returns (fun m => readEscInt e (m + 1) p r)
              (if e.escbuf p = 59 then p + 1 else p, r) := by
            simp only [readEscInt_end hlt hd]
            exact returns_ok
          by_cases hs : e.escbuf p = 59
          · rw [if_pos hs] at hret
            refine ⟨p + 1, r, hret.of_succ rfl, by omega, by omega, ?_, fun _ => by omega, ?_⟩
            · rw [htail] at hwf
              exact (wellFormed_tail hwf (by rw [hs]; decide)).2
            · rw [htail, hs, paramsFrom_separator]
              rfl
          · rw [if_neg hs] at hret
            have hpar : isParam (e.escbuf p) = false := by simp [isParam, hd, hs]
            refine ⟨p, r, hret.of_succ rfl, le_rfl, hp, hwf, by simp [hpar], ?_⟩
            have hend : e.escbuf p = 0 ∨ e.escbuf p = 109 := by
              by_contra hne
              rw [htail] at hwf
              rw [(wellFormed_tail hwf hne).1] at hpar
              contradiction
            rw [htail, paramsFrom_end hend, paramsFrom_end hend]
            rfl

/-- **The style loop** goes over the numbers in order. -/
theorem styleLoop_params (h0 : e.escbuf n = 0) (hn : n < ESCBUFSZ) (hp : pos ≤ n)
    (hwf : wellFormed (e.tail n pos) = true) (s : S) :
    Returns (fun m => styleLoop f e m pos s)
      ((paramsFrom none (e.tail n pos)).foldl (fun s v => f v s) s) := by
  obtain ⟨k, hk⟩ : ∃ k, k = n - pos := ⟨_, rfl⟩
  induction k using Nat.strongRecOn generalizing pos s with
  | _ k ih =>
      have hlt : pos < ESCBUFSZ := by omega
      by_cases hc : e.escbuf pos = 0 ∨ e.escbuf pos = 109
      · have hnone : paramsFrom none (e.tail n pos) = [] := by
          by_cases hpn : pos = n
          · subst hpn
            simp [Esc.tail, paramsFrom]
          · rw [Esc.tail_cons (by omega), paramsFrom_end hc]
            rfl
        rw [hnone]
        refine Returns.of_succ rfl ?_
        simp only [styleLoop_end hlt hc]
        exact returns_ok
      · have hpn : pos ≠ n := fun heq => hc (.inl (heq ▸ h0))
        have htail : e.tail n pos = e.escbuf pos :: e.tail n (pos + 1) := Esc.tail_cons (by omega)
        have hpar : isParam (e.escbuf pos) = true := by
          rw [htail] at hwf
          exact (wellFormed_tail hwf hc).1
        obtain ⟨q, v, hret, -, hqn, hwf', hmove, hv⟩ := readEscInt_params h0 hn hp hwf 0
        have hq := hmove hpar
        have hrest := ih (n - q) (by omega) (by omega) hwf' (f v s) rfl
        rw [htail, paramsFrom_none hc, ← htail, hv, List.foldl_cons]
        refine Returns.of_succ rfl ?_
        simp only [styleLoop_round hlt hc]
        exact hret.bind hrest

end params

/-! ## the page -/

/-- What a parameter does to the brightness and the colours. -/
def attrStyle (p : Bool × Nat) (num : Nat) : Bool × Nat :=
  if num = 0 then (false, 7)
  else if num = 2 then (true, p.2)
  else if num = 1 then (false, p.2)
  else if 30 ≤ num ∧ num < 50 then
    let col := stcolors.getD ((num - 30) % 10) 0 + if p.1 then 8 else 0
    if (num - 30) / 10 ≠ 0 then (p.1, p.2 &&& 0xf ||| col <<< 4)
    else (p.1, p.2 &&& 0xf0 ||| col)
  else p

/-- The byte is an ordinary character. -/
def Scan.isText (q : Scan) (c : UInt8) : Bool :=
  c != ESC && match q with
    | .out => true
    | .esc => c != 91
    | .seq _ => false

/-- The colours after the byte: a style sequence that ends in time sets them. -/
def Scan.attr (q : Scan) (c : UInt8) (attr : Nat) : Nat :=
  match q with
  | .seq body =>
      if c = 109 ∧ body.length + 2 < ESCBUFSZ - 1 then
        ((paramsFrom none body).foldl attrStyle (false, attr)).2
      else attr
  | _ => attr

/-- A page as wide as the screen: a character and its colours at each position. -/
structure Page where
  cells : Nat → Nat × Nat := fun _ => (0, 7)
  pos : Nat := 0
  scan : Scan := .out
  attr : Nat := 7

namespace Page

/-- The first row on the screen. -/
def top (p : Page) : Nat := p.pos / VGA_WIDTH - (VGA_HEIGHT - 1)

/-- One byte; none is a style sequence that is not well formed. -/
def next (p : Page) (c : UInt8) : Option Page :=
  if c = 10 then some { p with pos := p.pos + (VGA_WIDTH - p.pos % VGA_WIDTH) }
  else (p.scan.next Vgacon.endstr false c).map fun scan =>
    if p.scan.isText c then
      { p with scan := scan, cells := Function.update p.cells p.pos (c.toNat, p.attr), pos := p.pos + 1 }
    else { p with scan := scan, attr := p.scan.attr c p.attr }

/-- A byte string. -/
def print : Page → List UInt8 → Option Page
  | p, [] => some p
  | p, c :: cs => (p.next c).bind fun p => p.print cs

end Page

/-- `vgacon_clear`. -/
def vgaconClear (s : Vgacon) : Vgacon :=
  { s with vidmem := fun i =>
      if i < VGA_WIDTH * VGA_HEIGHT * 2 then if i % 2 = 0 then 0 else s.color else s.vidmem i }

/-- The console that `vgacon_init` leaves, with `m` in the memory before. -/
def vgaconInit (m : Nat → Nat) : Vgacon := vgaconClear { vidmem := m }

/-- The memory shows the rows of the page from `top` on, and is `m` behind. -/
structure PageWindow (m : Nat → Nat) (top : Nat) (p : Page) (s : Vgacon) : Prop where
  cursor : s.idx + VGA_WIDTH * top = p.pos
  chars : ∀ i, i < VGA_WIDTH * VGA_HEIGHT → s.vidmem (i * 2) = (p.cells (VGA_WIDTH * top + i)).1
  attrs : ∀ i, i < VGA_WIDTH * VGA_HEIGHT → s.vidmem (i * 2 + 1) = (p.cells (VGA_WIDTH * top + i)).2
  rest : ∀ i, VGA_WIDTH * VGA_HEIGHT * 2 ≤ i → s.vidmem i = m i

/-- The console shows the page and goes on in the same way. -/
structure Page.Shows (m : Nat → Nat) (p : Page) (s : Vgacon) : Prop extends PageWindow m p.top p s where
  waiting : s.esc.Waiting Vgacon.endstr
  scan : s.esc.scan = p.scan
  color : s.color = p.attr
  blank : ∀ i, p.pos ≤ i → p.cells i = (0, 7)

section screen

variable {m : Nat → Nat} {p p' : Page} {s s' : Vgacon} {c : UInt8} {top : Nat}

/-- The cursor is on the screen. -/
theorem PageWindow.idx_lt (h : PageWindow m p.top p s) : s.idx < VGA_WIDTH * VGA_HEIGHT := by
  have hc := h.cursor
  rw [Page.top] at hc
  simp only [VGA_WIDTH, VGA_HEIGHT] at hc ⊢
  omega

theorem scroll_of_lt (h : s.idx < VGA_WIDTH * VGA_HEIGHT) : s.scroll = s := if_pos h

/-- A console that scrolls. -/
theorem scroll_of_le (h : ¬ s.idx < 2000) : s.scroll.idx = 1920 ∧
    (∀ i, i < 3840 → s.scroll.vidmem i = s.vidmem (i + 160)) ∧
    (∀ i, 3840 ≤ i → i < 4000 → s.scroll.vidmem i = if i % 2 = 0 then 0 else 7) ∧
    ∀ i, 4000 ≤ i → s.scroll.vidmem i = s.vidmem i := by
  have h' : ¬ s.idx < VGA_WIDTH * VGA_HEIGHT := h
  rw [Vgacon.scroll, if_neg h']
  refine ⟨rfl, fun i hi => if_pos hi, fun i hi hi' => ?_, fun i hi => ?_⟩
  · exact (if_neg (Nat.not_lt.mpr hi)).trans (if_pos hi')
  · exact (if_neg (by simp only [VGA_WIDTH, VGA_HEIGHT]; omega)).trans (if_neg (Nat.not_lt.mpr hi))

/-- Scrolling keeps the cursor on the screen. -/
theorem PageWindow.scroll (h : PageWindow m top p s)
    (hlow : top = 0 ∨ VGA_WIDTH * (top + (VGA_HEIGHT - 1)) ≤ p.pos)
    (hhigh : p.pos ≤ VGA_WIDTH * (top + VGA_HEIGHT)) (hblank : ∀ i, p.pos ≤ i → p.cells i = (0, 7)) :
    PageWindow m p.top p s.scroll := by
  obtain ⟨hcursor, hchars, hattrs, hrest⟩ := h
  simp only [VGA_WIDTH, VGA_HEIGHT] at *
  by_cases hidx : s.idx < 2000
  · have htop : p.top = top := by
      simp only [Page.top, VGA_WIDTH, VGA_HEIGHT]
      omega
    rw [scroll_of_lt hidx, htop]
    exact ⟨hcursor, hchars, hattrs, hrest⟩
  · -- the cursor is just behind the last row
    have htop : p.top = top + 1 := by
      simp only [Page.top, VGA_WIDTH, VGA_HEIGHT]
      omega
    obtain ⟨hidx', hup, hclear, hbehind⟩ := scroll_of_le hidx
    rw [htop]
    constructor <;> simp only [VGA_WIDTH, VGA_HEIGHT]
    · omega
    · intro i hi
      by_cases hi' : i < 1920
      · rw [hup _ (by omega), show i * 2 + 160 = (i + 80) * 2 by omega, hchars _ (by omega),
          show 80 * top + (i + 80) = 80 * (top + 1) + i by omega]
      · rw [hclear _ (by omega) (by omega), if_pos (by omega), hblank _ (by omega)]
    · intro i hi
      by_cases hi' : i < 1920
      · rw [hup _ (by omega), show i * 2 + 1 + 160 = (i + 80) * 2 + 1 by omega, hattrs _ (by omega),
          show 80 * top + (i + 80) = 80 * (top + 1) + i by omega]
      · rw [hclear _ (by omega) (by omega), if_neg (by omega), hblank _ (by omega)]
    · intro i hi
      rw [hbehind _ (by omega), hrest _ (by omega)]

/-- Only the position, the memory and the page are seen. -/
theorem PageWindow.congr (h : PageWindow m top p s) (hidx : s'.idx = s.idx) (hmem : s'.vidmem = s.vidmem)
    (hpos : p'.pos = p.pos) (hcells : p'.cells = p.cells) : PageWindow m top p' s' := by
  obtain ⟨hcursor, hchars, hattrs, hrest⟩ := h
  refine ⟨?_, ?_, ?_, ?_⟩
  · rw [hidx, hpos, hcursor]
  · rwa [hmem, hcells]
  · rwa [hmem, hcells]
  · rwa [hmem]

theorem top_low (p : Page) : p.top = 0 ∨ VGA_WIDTH * (p.top + (VGA_HEIGHT - 1)) ≤ p.pos := by
  simp only [Page.top, VGA_WIDTH, VGA_HEIGHT]
  omega

@[simp] theorem Vgacon.scroll_color (s : Vgacon) : s.scroll.color = s.color := by
  unfold Vgacon.scroll
  split <;> rfl

/-- The cursor goes on by at most a row, and not behind the one below the
screen; then the console scrolls. -/
theorem Page.Shows.moved {k : Nat} (h : p.Shows m s) (hk : 0 < k) (hpos : p'.pos = p.pos + k)
    (hrow : p'.pos % VGA_WIDTH = 0 ∨ k = 1) (hle : k ≤ VGA_WIDTH)
    (hwin : PageWindow m p.top p' s') (hwait : s'.esc.Waiting Vgacon.endstr)
    (hscan : s'.esc.scan = p'.scan) (hcolor : s'.color = p'.attr)
    (hblank : ∀ i, p'.pos ≤ i → p'.cells i = (0, 7)) : p'.Shows m s'.scroll.setCursor := by
  have hidx := h.idx_lt
  have hcur := h.cursor
  have hscroll : PageWindow m p'.top p' s'.scroll := by
    refine hwin.scroll ?_ ?_ hblank
    · obtain hl | hl := top_low p
      · exact .inl hl
      · exact .inr (by omega)
    · simp only [VGA_WIDTH, VGA_HEIGHT] at *
      omega
  exact ⟨⟨hscroll.cursor, hscroll.chars, hscroll.attrs, hscroll.rest⟩, by simpa using hwait,
    by simpa using hscan, by simpa [Vgacon.setCursor] using hcolor, hblank⟩

/-- A byte that moves nothing. -/
theorem Page.Shows.kept (h : p.Shows m s) (hidx : s'.idx = s.idx) (hmem : s'.vidmem = s.vidmem)
    (hpos : p'.pos = p.pos) (hcells : p'.cells = p.cells) (hwait : s'.esc.Waiting Vgacon.endstr)
    (hscan : s'.esc.scan = p'.scan) (hcolor : s'.color = p'.attr) :
    p'.Shows m s'.scroll.setCursor := by
  have htop : p'.top = p.top := by rw [Page.top, Page.top, hpos]
  have hwin : PageWindow m p'.top p' s' := htop ▸ h.toPageWindow.congr hidx hmem hpos hcells
  rw [scroll_of_lt (hidx ▸ h.idx_lt)]
  refine ⟨⟨hwin.cursor, hwin.chars, hwin.attrs, hwin.rest⟩, hwait, hscan, hcolor, fun i hi => ?_⟩
  rw [hcells]
  exact h.blank i (hpos ▸ hi)

/-! ## one byte -/

theorem Vgacon.style_eq (num : Nat) (b : Bool) (s : Vgacon) :
    Vgacon.style num (b, s) =
      ((attrStyle (b, s.color) num).1, { s with color := (attrStyle (b, s.color) num).2 }) := by
  unfold Vgacon.style attrStyle
  dsimp only
  split_ifs <;> rfl

/-- A style sequence only changes the colours. -/
theorem Vgacon.foldl_style (nums : List Nat) (b : Bool) (s : Vgacon) :
    nums.foldl (fun p v => Vgacon.style v p) (b, s) =
      ((nums.foldl attrStyle (b, s.color)).1,
        { s with color := (nums.foldl attrStyle (b, s.color)).2 }) := by
  induction nums generalizing b s with
  | nil => rfl
  | cons v nums ih => rw [List.foldl_cons, Vgacon.style_eq, ih, List.foldl_cons]

theorem scan_of_two (h : 2 ≤ s.esc.nescbuf) :
    s.esc.scan = .seq (s.esc.tail s.esc.nescbuf 2) ∧
      (s.esc.tail s.esc.nescbuf 2).length + 2 = s.esc.nescbuf := by
  refine ⟨?_, ?_⟩
  · rw [Esc.scan, if_neg (by omega), if_neg (by omega)]
  · rw [Esc.length_tail]
    omega

/-- The command of a sequence that is ready. -/
theorem Vgacon.interpret_returns {k : Nat} (h : s.esc.Ready k)
    (hwf : s.esc.escbuf k = 109 → wellFormed (s.esc.tail (k + 1) 2) = true) :
    Returns (fun fuel => s.interpret fuel) { s with
      esc := s.esc.clear
      color := if s.esc.escbuf k = 109 then
        ((paramsFrom none (s.esc.tail (k + 1) 2)).foldl attrStyle (false, s.color)).2 else s.color } := by
  simp only [Vgacon.interpret, h.read, bind, Except.bind]
  by_cases hm : s.esc.escbuf k = 109
  · have hret := styleLoop_params (f := Vgacon.style) (e := s.esc.clear) h.nul h.lt
      (Nat.le_succ_of_le h.two) (hwf hm) (false, { s with esc := s.esc.clear })
    rw [Vgacon.foldl_style] at hret
    simp only [hm, if_true]
    exact hret.bind returns_ok
  · simp only [hm, if_false]
    exact returns_ok

/-- **A byte of a sequence** moves nothing on the screen. -/
theorem Page.Shows.seq (h : p.Shows m s) (hc : c ≠ 10) (htext : p.scan.isText c = false)
    (hn : p.next c = some p') :
    ∃ s', Returns (fun fuel => vgaconPrintc fuel s c) s' ∧ p'.Shows m s' := by
  have hw := h.waiting
  have hscan := h.scan
  have hE : ESCBUFSZ = 32 := rfl
  rw [Page.next, if_neg hc, Option.map_eq_some_iff] at hn
  obtain ⟨scan, hnext, rfl⟩ := hn
  rw [if_neg (by simp [htext])]
  -- a byte that goes to the buffer
  have hmore : ∀ e' : Esc, s.esc.collect Vgacon.endstr c = .ok (some e') →
      e'.Waiting Vgacon.endstr → e'.scan = scan → p.scan.attr c p.attr = p.attr →
      ∃ s', Returns (fun fuel => vgaconPrintc fuel s c) s' ∧
        Page.Shows m { p with scan := scan, attr := p.scan.attr c p.attr } s' := by
    intro e' hcol hw' hscan' hattr
    obtain ⟨s', hput, hesc⟩ := vgaconParts.put_some s c e' hc hcol
    have hs' : s' = { s with esc := e' } := by
      have hput' : Vgacon.put s c = .ok s' := hput
      simpa [Vgacon.put, hc, hcol, bind, Except.bind, pure, Except.pure] using hput'.symm
    subst hs'
    exact ⟨_, vgaconParts.returns_waiting hput hw'.ready, h.kept rfl rfl rfl rfl hw' hscan'
      (h.color.trans hattr.symm)⟩
  -- a byte that makes the sequence ready
  have hready : ∀ (e' : Esc) (k : Nat), s.esc.collect Vgacon.endstr c = .ok (some e') → e'.Ready k →
      (e'.escbuf k = 109 → wellFormed (e'.tail (k + 1) 2) = true) → scan = .out →
      p.scan.attr c p.attr = (if e'.escbuf k = 109 then
        ((paramsFrom none (e'.tail (k + 1) 2)).foldl attrStyle (false, p.attr)).2 else p.attr) →
      ∃ s', Returns (fun fuel => vgaconPrintc fuel s c) s' ∧
        Page.Shows m { p with scan := scan, attr := p.scan.attr c p.attr } s' := by
    intro e' k hcol hr hwf hout hattr
    subst hout
    have hint := Vgacon.interpret_returns (s := { s with esc := e' }) hr hwf
    have hshow : Page.Shows m { p with scan := .out, attr := p.scan.attr c p.attr }
        (Vgacon.scroll { s with
          esc := e'.clear
          color := if e'.escbuf k = 109 then
            ((paramsFrom none (e'.tail (k + 1) 2)).foldl attrStyle (false, s.color)).2
            else s.color }).setCursor :=
      h.kept rfl rfl rfl rfl Esc.waiting_clear rfl (by rw [hattr, h.color])
    refine ⟨_, ?_, hshow⟩
    simp only [vgaconPrintc, Vgacon.put, hc, hcol, bind, Except.bind, pure, Except.pure, if_false]
    simp only [show e'.escready = true from hr.ready, if_true]
    exact hint.bind returns_ok
  by_cases hesc : c = ESC
  · -- a new sequence
    subst hesc
    refine hmore ⟨fun j => if j = 0 then ESC else s.esc.escbuf j, 1, s.esc.escready⟩ ?_
      ⟨hw.ready, by simp [hE], fun i hi hin => ?_⟩ ?_ ?_
    · simp [Esc.collect, Esc.write, hE, bind, Except.bind, pure, Except.pure]
    · simp at hin
      omega
    · simpa [Scan.next, hc, Esc.scan] using hnext
    · unfold Scan.attr
      split <;> simp [ESC]
  · have hnot : s.esc.scan.isText c = false := hscan ▸ htext
    by_cases h2 : 2 ≤ s.esc.nescbuf
    · obtain ⟨hseq, hlen⟩ := scan_of_two h2
      have hattr : p.scan.attr c p.attr = if c = 109 ∧ s.esc.nescbuf < ESCBUFSZ - 1 then
          ((paramsFrom none (s.esc.tail s.esc.nescbuf 2)).foldl attrStyle (false, p.attr)).2
          else p.attr := by
        rw [← hscan, hseq, Scan.attr, hlen]
      rw [← hscan, hseq, Scan.next, if_neg hc, if_neg hesc, hlen] at hnext
      by_cases hfull : ESCBUFSZ - 1 ≤ s.esc.nescbuf
      · obtain ⟨e', hcol, hr, hend⟩ := Esc.collect_full hw hesc hfull
        have hne : e'.escbuf (s.esc.nescbuf - 1) ≠ 109 := fun heq => hend (heq ▸ by decide)
        rw [if_pos hfull] at hnext
        refine hready e' _ hcol hr (fun heq => absurd heq hne) (Option.some.inj hnext).symm ?_
        rw [hattr, if_neg (by omega), if_neg hne]
      · rw [if_neg hfull] at hnext
        by_cases hend : c ∈ Vgacon.endstr
        · obtain ⟨e', hcol, hr, hlast, htail⟩ := Esc.collect_end hesc h2 (by omega) hend
          rw [if_pos hend] at hnext
          have hout : scan = .out := by
            split at hnext
            · contradiction
            · exact (Option.some.inj hnext).symm
          refine hready e' _ hcol hr (fun hm => ?_) hout ?_
          · rw [hlast] at hm
            subst hm
            rw [htail, wellFormed_append_end]
            by_contra hbad
            rw [Bool.not_eq_true] at hbad
            simp [hbad] at hnext
          · rw [hattr, hlast, htail]
            by_cases hm : c = 109
            · rw [if_pos ⟨hm, by omega⟩, if_pos hm, hm, paramsFrom_append_end]
            · rw [if_neg (fun hx => hm hx.1), if_neg hm]
        · obtain ⟨e', hcol, hw', hscan'⟩ := Esc.collect_seq hw hesc h2 (by omega) hend
          have hm : c ≠ 109 := fun heq => hend (heq ▸ by decide)
          rw [if_neg hend] at hnext
          refine hmore e' hcol hw' (hscan'.trans (Option.some.inj hnext)) ?_
          rw [hattr, if_neg (fun hx => hm hx.1)]
    · -- the bracket behind an escape character
      have h1 : s.esc.nescbuf = 1 ∧ c = 91 := by
        by_cases h0 : s.esc.nescbuf = 0
        · simp [Scan.isText, Esc.scan, h0, hesc] at hnot
        · have h1 : s.esc.nescbuf = 1 := by omega
          simpa [Scan.isText, Esc.scan, h1, hesc] using hnot
      obtain ⟨h1, rfl⟩ := h1
      have hp : p.scan = .esc := by rw [← hscan, Esc.scan, if_neg (by omega), if_pos h1]
      refine hmore ⟨fun j => if j = 1 then 91 else s.esc.escbuf j, 2, s.esc.escready⟩ ?_
        ⟨hw.ready, by simp [hE], fun i hi hin => ?_⟩ ?_ ?_
      · simp [Esc.collect, Esc.write, hE, h1, ESC, bind, Except.bind, pure, Except.pure]
      · simp at hin
        omega
      · simpa [hp, Scan.next, ESC, Esc.scan, Esc.tail] using hnext
      · rw [hp]
        rfl

/-- **An ordinary character** is put where the cursor is. -/
theorem Page.Shows.text (h : p.Shows m s) (hc : c ≠ 10) (htext : p.scan.isText c = true)
    (hn : p.next c = some p') :
    ∃ s', Returns (fun fuel => vgaconPrintc fuel s c) s' ∧ p'.Shows m s' := by
  have hidx := h.idx_lt
  rw [Page.next, if_neg hc, Option.map_eq_some_iff] at hn
  obtain ⟨scan, hnext, rfl⟩ := hn
  rw [if_pos htext]
  have hcol : s.esc.collect Vgacon.endstr c = .ok none ∧ scan = .out := by
    rw [← h.scan] at hnext htext
    unfold Scan.next at hnext
    unfold Scan.isText at htext
    unfold Esc.scan at hnext htext
    rw [if_neg hc] at hnext
    by_cases h0 : s.esc.nescbuf = 0
    · simp only [h0, if_true, Bool.and_true, bne_iff_ne] at htext hnext
      rw [if_neg htext] at hnext
      exact ⟨by simp [Esc.collect, h0, htext, pure, Except.pure], (Option.some.inj hnext).symm⟩
    · by_cases h1 : s.esc.nescbuf = 1
      · simp only [h1, if_true, Bool.and_eq_true, bne_iff_ne, Nat.one_ne_zero, if_false] at htext hnext
        rw [if_neg htext.1, if_neg htext.2] at hnext
        exact ⟨by simp [Esc.collect, h1, htext, pure, Except.pure], (Option.some.inj hnext).symm⟩
      · simp [h0, h1] at htext
  obtain ⟨hcol, rfl⟩ := hcol
  have hput : s.put c = .ok { s with
      esc := s.esc.clear
      vidmem := fun i => if i = s.idx * 2 then c.toNat
        else if i = s.idx * 2 + 1 then s.color else s.vidmem i
      idx := u32 (s.idx + 1) } := by
    simp [Vgacon.put, hc, hcol, bind, Except.bind, pure, Except.pure]
  refine ⟨_, vgaconParts.returns_waiting hput rfl, ?_⟩
  have hu : u32 (s.idx + 1) = s.idx + 1 := Nat.mod_eq_of_lt (by simp only [VGA_WIDTH, VGA_HEIGHT] at hidx; omega)
  have hcur := h.cursor
  refine h.moved (k := 1) Nat.one_pos rfl (.inr rfl) (by decide) ⟨?_, fun i hi => ?_, fun i hi => ?_,
    fun i hi => ?_⟩ Esc.waiting_clear rfl h.color fun i hi => ?_
  · dsimp only
    omega
  · dsimp only
    by_cases hi' : i = s.idx
    · rw [if_pos (by omega), hi', Function.update_apply, if_pos (by omega)]
    · rw [if_neg (by omega), if_neg (by omega), h.chars i hi, Function.update_apply, if_neg (by omega)]
  · dsimp only
    by_cases hi' : i = s.idx
    · rw [if_neg (by omega), if_pos (by omega), hi', Function.update_apply, if_pos (by omega), h.color]
    · rw [if_neg (by omega), if_neg (by omega), h.attrs i hi, Function.update_apply, if_neg (by omega)]
  · dsimp only
    rw [if_neg (by omega), if_neg (by omega), h.rest i hi]
  · dsimp only at hi ⊢
    rw [Function.update_apply, if_neg (by omega), h.blank i (by omega)]

/-- **A newline** moves the cursor to the next row. -/
theorem Page.Shows.newline (h : p.Shows m s) :
    ∃ s', Returns (fun fuel => vgaconPrintc fuel s 10) s' ∧
      Page.Shows m { p with pos := p.pos + (VGA_WIDTH - p.pos % VGA_WIDTH) } s' := by
  have hidx := h.idx_lt
  have hcur := h.cursor
  have hput : s.put 10 =
      .ok { s with idx := u32 (s.idx + (VGA_WIDTH - s.idx % VGA_WIDTH)) } := rfl
  refine ⟨_, vgaconParts.returns_waiting hput h.waiting.ready, ?_⟩
  have hlt : p.pos % VGA_WIDTH < VGA_WIDTH := Nat.mod_lt _ (by decide)
  have hmod : s.idx % VGA_WIDTH = p.pos % VGA_WIDTH := by
    rw [← hcur, Nat.add_mul_mod_self_left]
  have hu : u32 (s.idx + (VGA_WIDTH - s.idx % VGA_WIDTH)) =
      s.idx + (VGA_WIDTH - p.pos % VGA_WIDTH) := by
    rw [hmod]
    refine Nat.mod_eq_of_lt ?_
    simp only [VGA_WIDTH, VGA_HEIGHT] at *
    omega
  refine h.moved (k := VGA_WIDTH - p.pos % VGA_WIDTH) (by omega) rfl (.inl ?_) (Nat.sub_le _ _)
    ⟨?_, h.chars, h.attrs, h.rest⟩ h.waiting h.scan h.color fun i hi => ?_
  · simp only [VGA_WIDTH]
    omega
  · dsimp only
    omega
  · exact h.blank i (by dsimp only at hi; omega)

/-- **Step**: a byte does to the screen what it does to the page. -/
theorem Page.Shows.next (h : p.Shows m s) (c : UInt8) :
    match p.next c with
    | none => Hangs fun fuel => vgaconPrintc fuel s c
    | some p' => ∃ s', Returns (fun fuel => vgaconPrintc fuel s c) s' ∧ p'.Shows m s' := by
  by_cases hc : c = 10
  · subst hc
    exact h.newline
  · cases hn : p.next c with
    | none =>
        have hfollow := vgacon_follows s c h.waiting
        rw [Page.next, if_neg hc, Option.map_eq_none_iff] at hn
        rwa [h.scan, hn] at hfollow
    | some p' =>
        cases htext : p.scan.isText c with
        | true => exact h.text hc htext hn
        | false => exact h.seq hc htext hn

/-- **Run**: so does a byte string. -/
theorem Page.Shows.print (h : p.Shows m s) (buf : List UInt8) :
    match p.print buf with
    | none => Hangs fun fuel => conWrite vgaconPrintc fuel s buf
    | some p' => ∃ s', Returns (fun fuel => conWrite vgaconPrintc fuel s buf) s' ∧ p'.Shows m s' := by
  induction buf generalizing p s with
  | nil => exact ⟨s, returns_ok, h⟩
  | cons c buf ih =>
      have hc := h.next c
      rw [Page.print]
      cases hn : p.next c with
      | none =>
          rw [hn] at hc
          exact hc.bind
      | some q =>
          rw [hn] at hc
          obtain ⟨s', hret, hq⟩ := hc
          have hrest := ih hq
          rw [Option.bind_some]
          cases hr : q.print buf with
          | none =>
              rw [hr] at hrest
              exact hret.bind_hangs hrest
          | some r =>
              rw [hr] at hrest
              obtain ⟨s'', hret', hr'⟩ := hrest
              exact ⟨s'', hret.bind hret', hr'⟩

end screen

theorem shows_vgaconInit (m : Nat → Nat) : Page.Shows m {} (vgaconInit m) := by
  refine ⟨⟨rfl, fun i hi => ?_, fun i hi => ?_, fun i hi => ?_⟩, ⟨rfl, (by decide : 0 < ESCBUFSZ), fun i h2 hi => ?_⟩,
    rfl, rfl, fun _ _ => rfl⟩
  · exact (if_pos (by omega)).trans (if_pos (by omega))
  · exact (if_pos (by omega)).trans (if_neg (by omega))
  · exact if_neg (by omega)
  · exact absurd hi (Nat.not_lt_zero i)

/-- **The screen shows the end of all that was written**: whatever is written, in any split into
writes, the text memory holds the last 25 rows of the page that it makes, characters and colours,
and nothing else in memory changes; a style sequence that is not well formed never returns. -/
theorem vgacon_shows (m : Nat → Nat) (bufs : List (List UInt8)) :
    match Page.print {} bufs.flatten with
    | none => Hangs fun fuel => writeAll (vgaconWrite fuel) (vgaconInit m) bufs
    | some p => ∃ s, Returns (fun fuel => writeAll (vgaconWrite fuel) (vgaconInit m) bufs) s ∧
        p.Shows m s := by
  simp only [vgaconWrite_all]
  exact (shows_vgaconInit m).print bufs.flatten

/-- Bright red on black, and the next row. -/
example : (Page.print {} [ESC, 91, 50, 59, 51, 49, 109, 104, 105, 10]).map
    (fun p => (p.pos, p.cells 0, p.cells 1, p.cells 2)) =
      some (80, (104, 12), (105, 12), (0, 7)) := by decide

end Eclair
