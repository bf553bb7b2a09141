import Eclair.Driver.Lines
import Eclair.Lib.Exact

/-!
# Eclair.Driver.Cursor

The cursor of the text consoles between output and line reads, and the
memory that they use.

A backspace moves the cursor back by one cell for each character that was
typed, whether or not that character has moved it on; a line that scrolled
the screen, or keys that went into an escape sequence, take it below zero.
And `vgacon_read` ends the line wherever it has got to.  `consoles_safe` says
that nothing else goes wrong.
-/

namespace Eclair

open Fuel

/-- A console, and where its reads put the line. -/
structure Terminal (S : Type) where
  /-- the positions of the cursor -/
  cells : Nat
  idx : S → Nat
  endstr : List UInt8
  keep : Bool
  esc : S → Esc
  boot : S
  printc : Nat → S → UInt8 → EscRes S
  backspace : S → S
  /-- the bytes of text memory, and which of them are used -/
  memory : Nat
  uses : S → UInt8 → List Nat
  eraseUses : S → List Nat
  /-- the size of the buffer of the line, in a read of so many bytes -/
  size : Nat → Nat
  /-- characters are stored below this index -/
  limit : Nat → Nat
  /-- the end of the line is stored below this index -/
  last : Nat → Nat
  terminator : UInt8

/-- A console, and the line and the size of the read that is under way. -/
structure TtyState (S : Type) where
  con : S
  line : Option (Line × Nat)

inductive TtyEvent where
  /-- a byte of output -/
  | put (c : UInt8)
  /-- a read begins, unless one is under way -/
  | read (buf : Nat → UInt8) (nbytes : UInt32)
  | key (key : Nat)

namespace Terminal

variable {S : Type} (T : Terminal S)

/-- A key in a read. -/
def readKey (fuel key : Nat) (con : S) (l : Line) (nbytes : Nat) :
    Except (Stop LineFault) (TtyState S) :=
  if key = ECK_RETURN then
    (liftEsc (T.printc fuel con 10)).bind fun con =>
    (l.store (T.last nbytes) (T.size nbytes) l.nread T.terminator).map fun _ => ⟨con, none⟩
  else
    (conKey T.printc T.backspace (T.limit nbytes) (T.size nbytes) fuel key con l).map fun r =>
      ⟨r.1, some (r.2, nbytes)⟩

def step (fuel : Nat) (s : TtyState S) : TtyEvent → Except (Stop LineFault) (TtyState S)
  | .put c => (liftEsc (T.printc fuel s.con c)).map fun con => { s with con := con }
  | .read buf nbytes => .ok
      (if s.line.isSome then s else { s with line := some (⟨buf, 0, false⟩, nbytes.toNat) })
  | .key key => match s.line with
    | none => .ok s
    | some (l, nbytes) => T.readKey fuel key s.con l nbytes

/-- The text memory that an event uses. -/
def used (s : TtyState S) : TtyEvent → List Nat
  | .put c => T.uses s.con c
  | .read _ _ => []
  | .key key => match s.line with
    | none => []
    | some (l, _) =>
        if key = ECK_RETURN then T.uses s.con 10
        else match keyAct key with
          | .erase => if l.nread = 0 then [] else T.eraseUses s.con
          | .type code => T.uses s.con (typed l.shift code)
          | _ => []

/-- A console with readers. -/
def system : System (TtyState S) TtyEvent where
  init s := s = ⟨T.boot, none⟩
  step s e s' := ∃ fuel, T.step fuel s e = .ok s'

/-- A backspace that takes a character finds the cursor behind the first cell, and what is stored
fits in the buffer. -/
def Within (s : TtyState S) : TtyEvent → Prop
  | .key key => ∀ l nbytes, s.line = some (l, nbytes) →
      if key = ECK_RETURN then l.nread < T.last nbytes → l.nread < T.size nbytes
      else match keyAct key with
        | .erase => l.nread ≠ 0 → T.idx s.con ≠ 0
        | .type _ => l.nread < T.limit nbytes → l.nread < T.size nbytes
        | _ => True
  | _ => True

/-- The cursor is on the screen, and whatever comes next that is within the line uses no memory
outside of the text memory, and stores nothing outside of the buffer. -/
structure Safe (s : TtyState S) : Prop where
  idx : T.idx s.con < T.cells
  used : ∀ e, T.Within s e → ∀ i ∈ T.used s e, i < T.memory
  stored : ∀ e, T.Within s e → ∀ fuel f, T.step fuel s e ≠ .error (.fault f)

end Terminal

/-! ## the two consoles -/

/-- The bytes that `vgacon_scroll` copies, and those that it clears. -/
def Vgacon.scrollUses (idx : Nat) : List Nat :=
  if idx < VGA_WIDTH * VGA_HEIGHT then []
  else
    let lr := VGA_WIDTH * (VGA_HEIGHT - 1)
    (List.range (lr * 2)).flatMap (fun i => [i + VGA_WIDTH * 2, i]) ++
      (List.range' lr VGA_WIDTH).flatMap fun i => [i * 2, i * 2 + 1]

/-- The cell of an ordinary character. -/
def Vgacon.cellUses (s : Vgacon) (c : UInt8) : List Nat :=
  if c = 10 then []
  else match s.esc.collect endstr c with
    | .ok none => [s.idx * 2, s.idx * 2 + 1]
    | _ => []

/-- The bytes of text memory that `vgacon_printc` uses. -/
def Vgacon.uses (s : Vgacon) (c : UInt8) : List Nat :=
  match s.put c with
  | .error _ => []
  | .ok s' => s.cellUses c ++ scrollUses s'.idx

/-- `vgacon`. -/
def vgaTerminal : Terminal Vgacon where
  cells := VGA_WIDTH * VGA_HEIGHT
  idx := Vgacon.idx
  endstr := Vgacon.endstr
  keep := false
  esc := Vgacon.esc
  boot := {}
  printc := vgaconPrintc
  backspace := vgaconBackspace
  memory := VGA_WIDTH * VGA_HEIGHT * 2
  uses := Vgacon.uses
  eraseUses s := [sub32 s.idx 1 * 2]
  size nbytes := nbytes
  limit nbytes := sub32 nbytes 1
  last _ := 2 ^ 32
  terminator := 0

/-- `fbcon`, which has no text memory and reads into a buffer of its own. -/
def fbTerminal (g : FbInfo) : Terminal Fbcon where
  cells := g.width * g.height
  idx := Fbcon.idx
  endstr := Fbcon.endstr
  keep := true
  esc := Fbcon.esc
  boot := {}
  printc := fbconPrintc g
  backspace := fbconBackspace
  memory := 0
  uses _ _ := []
  eraseUses _ := []
  size _ := Fbcon.LINEBUFSZ
  limit _ := Fbcon.LINEBUFSZ - 2
  last _ := Fbcon.LINEBUFSZ - 1
  terminator := 10

/-! ## steps -/

namespace Terminal

variable {S : Type} {T : Terminal S} {s s' : TtyState S} {e : TtyEvent} {con : S} {l : Line}
variable {c : UInt8} {nbytes fuel : Nat}

/-- What a console has to do. -/
structure Lawful (T : Terminal S) : Prop where
  follows : Follows T.endstr T.keep T.esc T.printc
  boot_waiting : (T.esc T.boot).Waiting T.endstr
  boot_idx : T.idx T.boot < T.cells
  printc_idx : ∀ fuel con c con', T.idx con < T.cells → T.printc fuel con c = .ok con' →
    T.idx con' < T.cells
  backspace_idx : ∀ con, T.idx con ≠ 0 → T.idx con < T.cells → T.idx (T.backspace con) < T.cells
  backspace_esc : ∀ con, T.esc (T.backspace con) = T.esc con
  uses_lt : ∀ con c, T.idx con < T.cells → ∀ i ∈ T.uses con c, i < T.memory
  eraseUses_lt : ∀ con, T.idx con ≠ 0 → T.idx con < T.cells → ∀ i ∈ T.eraseUses con, i < T.memory

/-- The cursor is on the screen, and no sequence is ready between two bytes. -/
structure Good (T : Terminal S) (con : S) : Prop where
  idx : T.idx con < T.cells
  waiting : (T.esc con).Waiting T.endstr

/-- The part of a line that was stored is in the buffer. -/
structure Inv (T : Terminal S) (s : TtyState S) : Prop where
  good : T.Good s.con
  line : ∀ l nbytes, s.line = some (l, nbytes) → ∀ i < l.nread, i < T.limit nbytes → i < T.size nbytes

theorem Lawful.printc_spec (hT : T.Lawful) (h : T.Good con) (fuel : Nat) (c : UInt8) :
    (∃ con', liftEsc (T.printc fuel con c) = .ok con' ∧ T.Good con') ∨
      liftEsc (T.printc fuel con c) = .error .fuel := by
  have hf := hT.follows con c h.waiting
  split at hf
  · have hfuel : T.printc fuel con c = .error .fuel := hf fuel
    exact .inr (by rw [hfuel]; rfl)
  · obtain ⟨con', hret, hw, -⟩ := hf
    obtain hok | hfuel := hret.ok_or_fuel fuel
    · exact .inl ⟨con', by rw [hok]; rfl, hT.printc_idx fuel con c con' h.idx hok, hw⟩
    · exact .inr (by rw [hfuel]; rfl)

theorem store_spec {limit size i : Nat} (l : Line) (h : i < limit → i < size) :
    ∃ l', l.store limit size i c = .ok l' ∧ l'.nread = l.nread := by
  rw [Line.store]
  split
  · next hlt => exact ⟨_, if_pos (h hlt), rfl⟩
  · exact ⟨l, rfl, rfl⟩

/-- What a step that keeps the invariant may give. -/
def Keeps (T : Terminal S) (r : Except (Stop LineFault) (TtyState S)) : Prop :=
  r = .error .fuel ∨ ∃ s', r = .ok s' ∧ T.Inv s'

/-- **A key** in a read. -/
theorem Lawful.readKey_keeps (hT : T.Lawful) (h : T.Inv ⟨con, some (l, nbytes)⟩) {key : Nat}
    (hok : T.Within ⟨con, some (l, nbytes)⟩ (.key key)) :
    T.Keeps (T.readKey fuel key con l nbytes) := by
  have hline := h.line l nbytes rfl
  replace hok := hok l nbytes rfl
  rw [readKey]
  by_cases hret : key = ECK_RETURN
  · rw [if_pos hret] at hok ⊢
    obtain ⟨con', hp, hgood⟩ | hp := hT.printc_spec h.good fuel 10
    · obtain ⟨l', hstore, -⟩ := store_spec (c := T.terminator) l hok
      refine .inr ⟨⟨con', none⟩, ?_, hgood, nofun⟩
      rw [hp, Except.bind, hstore]
      rfl
    · exact .inl (by rw [hp]; rfl)
  · rw [if_neg hret] at hok ⊢
    have hsame (con' : S) (l' : Line) (hgood : T.Good con') (hn : l'.nread ≤ l.nread) :
        T.Inv ⟨con', some (l', nbytes)⟩ := by
      refine ⟨hgood, fun l'' n hl i hi => ?_⟩
      obtain ⟨rfl, rfl⟩ := Prod.mk.inj (Option.some.inj hl)
      exact hline i (by omega)
    rw [conKey]
    cases hact : keyAct key with
    | ignore => exact .inr ⟨_, rfl, hsame con l h.good (Nat.le_refl _)⟩
    | shift on => exact .inr ⟨_, rfl, hsame con { l with shift := on } h.good (Nat.le_refl _)⟩
    | erase =>
        rw [hact] at hok
        dsimp only at hok ⊢
        by_cases h0 : l.nread = 0
        · rw [if_pos h0]
          exact .inr ⟨_, rfl, hsame con l h.good (Nat.le_refl _)⟩
        · rw [if_neg h0]
          obtain ⟨l', hstore, hn⟩ := store_spec (c := 0) { l with nread := l.nread - 1 }
            (hline (l.nread - 1) (by omega))
          have hgood : T.Good (T.backspace con) :=
            ⟨hT.backspace_idx con (hok h0) h.good.idx, by rw [hT.backspace_esc]; exact h.good.waiting⟩
          refine .inr ⟨⟨T.backspace con, some (l', nbytes)⟩, by rw [hstore]; rfl,
            hsame _ l' hgood ?_⟩
          rw [hn]
          exact Nat.sub_le _ _
    | type code =>
        rw [hact] at hok
        dsimp only at hok ⊢
        obtain ⟨con', hp, hgood⟩ | hp := hT.printc_spec h.good fuel (typed l.shift code)
        · obtain ⟨l', hstore, hn⟩ := store_spec (c := typed l.shift code) l hok
          refine .inr ⟨⟨con', some ({ l' with nread := u32 (l'.nread + 1) }, nbytes)⟩, ?_, hgood, ?_⟩
          · rw [hp, Except.bind, hstore]
            rfl
          · intro l'' n hl i hi hlt
            obtain ⟨rfl, rfl⟩ := Prod.mk.inj (Option.some.inj hl)
            have hle : i ≤ l.nread := by
              dsimp only at hi
              rw [hn, u32] at hi
              omega
            obtain hlt' | rfl := Nat.lt_or_eq_of_le hle
            · exact hline i hlt' hlt
            · exact hok hlt
        · exact .inl (by rw [hp]; rfl)

/-- **Step**. -/
theorem Lawful.step_keeps (hT : T.Lawful) (fuel : Nat) (h : T.Inv s) (hok : T.Within s e) :
    T.Keeps (T.step fuel s e) := by
  cases e with
  | put c =>
      obtain ⟨con', hp, hgood⟩ | hp := hT.printc_spec h.good fuel c
      · exact .inr ⟨⟨con', s.line⟩, by rw [step, hp]; rfl, hgood, h.line⟩
      · exact .inl (by rw [step, hp]; rfl)
  | read buf nbytes =>
      refine .inr ⟨_, rfl, ?_⟩
      split
      · exact h
      · refine ⟨h.good, fun l n hl i hi => ?_⟩
        obtain ⟨rfl, rfl⟩ := Prod.mk.inj (Option.some.inj hl)
        exact absurd hi (Nat.not_lt_zero i)
  | key key =>
      obtain ⟨con, line⟩ := s
      match line with
      | none => exact .inr ⟨_, rfl, h⟩
      | some (l, nbytes) => exact hT.readKey_keeps h hok

/-- The text memory used by an event. -/
theorem Lawful.used_lt (hT : T.Lawful) (h : T.Inv s) (hok : T.Within s e) :
    ∀ i ∈ T.used s e, i < T.memory := by
  have huses := fun c => hT.uses_lt s.con c h.good.idx
  cases e with
  | put c => exact huses c
  | read buf nbytes => exact nofun
  | key key =>
      obtain ⟨con, line⟩ := s
      match line with
      | none => exact nofun
      | some (l, nbytes) =>
          replace hok := hok l nbytes rfl
          dsimp only [used]
          split
          · exact huses 10
          · next hret =>
              rw [if_neg hret] at hok
              cases hact : keyAct key with
              | erase =>
                  rw [hact] at hok
                  dsimp only
                  split
                  · exact nofun
                  · next h0 => exact hT.eraseUses_lt con (hok h0) h.good.idx
              | type code => exact huses _
              | _ => exact nofun

theorem Lawful.safe (hT : T.Lawful) (h : T.system.Reachable T.Within s) : T.Safe s := by
  have hinv : T.Inv s := by
    refine h.invariant (fun s hs => ?_) fun s e s' hi hok hs => ?_
    · obtain rfl := hs
      exact ⟨⟨hT.boot_idx, hT.boot_waiting⟩, nofun⟩
    · obtain ⟨fuel, hstep⟩ := hs
      obtain hfuel | ⟨s'', hok', hinv⟩ := hT.step_keeps fuel hi hok
      · rw [hfuel] at hstep
        contradiction
      · rw [hok'] at hstep
        exact Except.ok.inj hstep ▸ hinv
  refine ⟨hinv.good.idx, fun e hok => hT.used_lt hinv hok, fun e hok fuel f hstep => ?_⟩
  obtain hfuel | ⟨s', hok', -⟩ := hT.step_keeps fuel hinv hok
  · rw [hfuel] at hstep
    cases Except.error.inj hstep
  · rw [hok'] at hstep
    contradiction

end Terminal

/-! ## laws of the consoles -/

/-- `printc` ends with the scrolling. -/
theorem Parts.exists_post {S : Type} {endstr : List UInt8} {keep : Bool} {esc : S → Esc}
    {printc : Nat → S → UInt8 → EscRes S} (P : Parts endstr keep esc printc) {fuel : Nat} {s s' : S}
    {c : UInt8} (h : printc fuel s c = .ok s') : ∃ s₁, s' = P.post s₁ := by
  rw [P.printc_eq] at h
  obtain ⟨s₀, -, h⟩ := Exact.bind_eq_ok.mp h
  obtain ⟨s₁, -, h⟩ := Exact.bind_eq_ok.mp h
  exact ⟨s₁, (Except.ok.inj h).symm⟩

/-- The style loop keeps what its body keeps. -/
theorem styleLoop_keeps {S : Type} {style : Nat → S → S} {e : Esc} {I : S → Prop}
    (hI : ∀ v s, I s → I (style v s)) {fuel pos : Nat} {s s' : S} (hs : I s)
    (h : styleLoop style e fuel pos s = .ok s') : I s' := by
  induction fuel generalizing pos s with
  | zero => contradiction
  | succ fuel ih =>
      rw [styleLoop] at h
      obtain ⟨c, -, h⟩ := Exact.bind_eq_ok.mp h
      split at h
      · exact Except.ok.inj h ▸ hs
      · obtain ⟨r, -, h⟩ := Exact.bind_eq_ok.mp h
        exact ih (hI _ _ hs) h

namespace Vgacon

variable {s : Vgacon} {c : UInt8} {fuel : Nat}

theorem scroll_idx_lt (s : Vgacon) : s.scroll.idx < VGA_WIDTH * VGA_HEIGHT := by
  rw [scroll]
  split
  · assumption
  · exact (by decide : VGA_WIDTH * (VGA_HEIGHT - 1) < VGA_WIDTH * VGA_HEIGHT)

theorem scrollUses_lt {idx i : Nat} (h : i ∈ scrollUses idx) : i < VGA_WIDTH * VGA_HEIGHT * 2 := by
  rw [scrollUses] at h
  split at h
  · simp at h
  · simp only [VGA_WIDTH, VGA_HEIGHT, List.mem_append, List.mem_flatMap, List.mem_range,
      List.mem_range'_1, List.mem_cons, List.not_mem_nil, or_false] at h ⊢
    omega

theorem uses_lt (hs : s.idx < VGA_WIDTH * VGA_HEIGHT) {i : Nat} (h : i ∈ s.uses c) :
    i < VGA_WIDTH * VGA_HEIGHT * 2 := by
  rw [uses] at h
  split at h
  · simp at h
  · obtain h | h := List.mem_append.mp h
    · rw [cellUses] at h
      split at h
      · simp at h
      · split at h
        · simp at h
          omega
        · simp at h
    · exact scrollUses_lt h

theorem scroll_vidmem {i : Nat} (h : i ∉ scrollUses s.idx) : s.scroll.vidmem i = s.vidmem i := by
  rw [scrollUses] at h
  rw [scroll]
  split
  · rfl
  · next hfull =>
      rw [if_neg hfull] at h
      simp only [VGA_WIDTH, VGA_HEIGHT, List.mem_append, List.mem_flatMap, List.mem_range,
        List.mem_range'_1, List.mem_cons, List.not_mem_nil, or_false, not_or, not_exists,
        not_and] at h
      obtain ⟨hcopy, hclear⟩ := h
      have hlow : ¬i < VGA_WIDTH * (VGA_HEIGHT - 1) * 2 := fun hlt => (hcopy i hlt).2 rfl
      have hhigh : ¬i < VGA_WIDTH * VGA_HEIGHT * 2 := by
        have hrow := hclear (i / 2)
        simp only [VGA_WIDTH, VGA_HEIGHT] at hlow ⊢
        omega
      dsimp only
      rw [if_neg hlow, if_neg hhigh]

theorem style_keeps (num : Nat) (p : Bool × Vgacon) :
    (style num p).2.idx = p.2.idx ∧ (style num p).2.vidmem = p.2.vidmem := by
  unfold style
  split_ifs <;> exact ⟨rfl, rfl⟩

theorem interpret_keeps {s' : Vgacon} (h : s.interpret fuel = .ok s') :
    s'.idx = s.idx ∧ s'.vidmem = s.vidmem := by
  rw [interpret] at h
  obtain ⟨cmd, -, h⟩ := Exact.bind_eq_ok.mp h
  dsimp only at h
  split at h
  · obtain ⟨p, hp, h⟩ := Exact.bind_eq_ok.mp h
    obtain rfl := Except.ok.inj h
    refine styleLoop_keeps (I := fun p => p.2.idx = s.idx ∧ p.2.vidmem = s.vidmem) (fun v p hp => ?_)
      ⟨rfl, rfl⟩ hp
    obtain ⟨hidx, hmem⟩ := style_keeps v p
    exact ⟨hidx.trans hp.1, hmem.trans hp.2⟩
  · exact Except.ok.inj h ▸ ⟨rfl, rfl⟩

theorem put_vidmem {s' : Vgacon} (h : s.put c = .ok s') {i : Nat} (hi : i ∉ s.cellUses c) :
    s'.vidmem i = s.vidmem i := by
  rw [put] at h
  rw [cellUses] at hi
  split at h
  · exact Except.ok.inj h ▸ rfl
  · next hc =>
      obtain ⟨r, hr, h⟩ := Exact.bind_eq_ok.mp h
      split at h
      · exact Except.ok.inj h ▸ rfl
      · obtain rfl := Except.ok.inj h
        rw [if_neg hc, hr] at hi
        simp only [List.mem_cons, List.not_mem_nil, or_false, not_or] at hi
        dsimp only
        rw [if_neg hi.1, if_neg hi.2]

/-- **Frame**: the text memory that is not used stays as it is. -/
theorem printc_vidmem {s' : Vgacon} (h : vgaconPrintc fuel s c = .ok s') {i : Nat}
    (hi : i ∉ s.uses c) : s'.vidmem i = s.vidmem i := by
  rw [vgaconParts.printc_eq] at h
  obtain ⟨s₁, h1, h⟩ := Exact.bind_eq_ok.mp h
  obtain ⟨s₂, h2, h⟩ := Exact.bind_eq_ok.mp h
  obtain rfl := Except.ok.inj h
  have h1' : s.put c = .ok s₁ := h1
  rw [uses, h1'] at hi
  obtain ⟨hcell, hscroll⟩ := not_or.mp (mt List.mem_append.mpr hi)
  have hkeep : s₂.idx = s₁.idx ∧ s₂.vidmem = s₁.vidmem := by
    split at h2
    · exact interpret_keeps h2
    · exact Except.ok.inj h2 ▸ ⟨rfl, rfl⟩
  have hpost : s₂.scroll.vidmem i = s₂.vidmem i := scroll_vidmem (by rwa [hkeep.1])
  exact hpost.trans (by rw [hkeep.2, put_vidmem h1' hcell])

end Vgacon

theorem vgaTerminal_lawful : vgaTerminal.Lawful where
  follows := vgacon_follows
  boot_waiting := Esc.waiting_clear (e := {})
  boot_idx := by decide
  printc_idx fuel con c con' _ h := by
    obtain ⟨s₁, rfl⟩ := vgaconParts.exists_post h
    exact s₁.scroll_idx_lt
  backspace_idx con h0 hlt := by
    have hlt' : con.idx < VGA_WIDTH * VGA_HEIGHT := hlt
    have h0' : con.idx ≠ 0 := h0
    have hcells : VGA_WIDTH * VGA_HEIGHT = 2000 := rfl
    have hidx : (vgaconBackspace con).idx = con.idx - 1 := sub32_of_le (by omega) (by omega)
    show (vgaconBackspace con).idx < VGA_WIDTH * VGA_HEIGHT
    omega
  backspace_esc := vgaconBackspace_esc
  uses_lt con c hlt i hi := Vgacon.uses_lt hlt hi
  eraseUses_lt con h0 hlt i hi := by
    have hlt' : con.idx < VGA_WIDTH * VGA_HEIGHT := hlt
    have h0' : con.idx ≠ 0 := h0
    have hcells : VGA_WIDTH * VGA_HEIGHT = 2000 := rfl
    have hidx : sub32 con.idx 1 = con.idx - 1 := sub32_of_le (by omega) (by omega)
    have hi' : i = sub32 con.idx 1 * 2 := List.mem_singleton.mp hi
    show i < VGA_WIDTH * VGA_HEIGHT * 2
    omega

theorem Fbcon.setCursor_idx (old new : Nat) (s : Fbcon) : (s.setCursor old new).idx = s.idx := by
  rw [setCursor]
  split <;> rfl

theorem Fbcon.scroll_idx_lt {g : FbInfo} (hg : g.width * g.height < 2 ^ 32) (s : Fbcon) :
    (s.scroll g).idx < g.width * g.height := by
  have hw : 0 < g.width := Nat.div_pos g.wide (by decide)
  have hh : 0 < g.height := Nat.div_pos g.high (by decide)
  rw [scroll, u32_of_lt hg]
  split
  · assumption
  · have hlt : g.width * (g.height - 1) < g.width * g.height :=
      Nat.mul_lt_mul_of_pos_left (Nat.sub_lt hh Nat.zero_lt_one) hw
    have hheight : g.height < 2 ^ 32 := Nat.lt_of_le_of_lt (Nat.le_mul_of_pos_left _ hw) hg
    rw [setCursor_idx]
    dsimp only
    rw [sub32_of_le (by omega) hheight, u32_of_lt (by omega)]
    exact hlt

theorem fbTerminal_lawful {g : FbInfo} (hg : g.width * g.height < 2 ^ 32) : (fbTerminal g).Lawful where
  follows := fbcon_follows g
  boot_waiting := Esc.waiting_clear (e := {})
  boot_idx := by
    exact Nat.mul_pos (Nat.div_pos g.wide (by decide)) (Nat.div_pos g.high (by decide))
  printc_idx fuel con c con' _ h := by
    obtain ⟨s₁, rfl⟩ := (fbconParts g).exists_post h
    exact s₁.scroll_idx_lt hg
  backspace_idx con h0 hlt := by
    have hlt' : con.idx < g.width * g.height := hlt
    have h0' : con.idx ≠ 0 := h0
    have hidx : (fbconBackspace con).idx = con.idx - 1 := by
      rw [fbconBackspace, Fbcon.setCursor_idx]
      exact sub32_of_le (by omega) (by omega)
    show (fbconBackspace con).idx < g.width * g.height
    omega
  backspace_esc con := by
    show (fbconBackspace con).esc = con.esc
    rw [fbconBackspace, Fbcon.setCursor_esc, Fbcon.drawc]
  uses_lt _ _ _ _ := nofun
  eraseUses_lt _ _ _ _ := nofun

/-- **The consoles are safe** in every run in which no backspace takes a character while the cursor
is in the first cell, and the lines fit in the buffers of the reads. -/
theorem consoles_safe {g : FbInfo} (hg : g.width * g.height < 2 ^ 32) :
    (∀ s, vgaTerminal.system.Reachable vgaTerminal.Within s → vgaTerminal.Safe s) ∧
      ∀ s, (fbTerminal g).system.Reachable (fbTerminal g).Within s → (fbTerminal g).Safe s :=
  ⟨fun _ h => vgaTerminal_lawful.safe h, fun _ h => (fbTerminal_lawful hg).safe h⟩

/-- A display of 1024 by 768 pixels. -/
def FbInfo.xga : FbInfo := ⟨1024, 768, by decide, by decide⟩

theorem consoles_safe_example : FbInfo.xga.width * FbInfo.xga.height < 2 ^ 32 ∧
    (∀ s, vgaTerminal.system.Reachable vgaTerminal.Within s → vgaTerminal.Safe s) ∧
      ∀ s, (fbTerminal .xga).system.Reachable (fbTerminal .xga).Within s → (fbTerminal .xga).Safe s :=
  ⟨by decide, consoles_safe (by decide)⟩

/-- The events, one after the other. -/
def Terminal.run {S : Type} (T : Terminal S) (fuel : Nat) :
    TtyState S → List TtyEvent → Except (Stop LineFault) (TtyState S)
  | s, [] => .ok s
  | s, e :: es => (T.step fuel s e).bind fun s => T.run fuel s es

theorem Terminal.steps_of_run {S : Type} {T : Terminal S} (fuel : Nat) (es : List TtyEvent)
    {s s' : TtyState S} (h : T.run fuel s es = .ok s') : T.system.Steps System.Any s s' := by
  induction es generalizing s with
  | nil => exact Except.ok.inj h ▸ System.Steps.refl
  | cons e es ih =>
      obtain ⟨s₁, hstep, h⟩ := Exact.bind_eq_ok.mp h
      exact System.Steps.head e trivial ⟨fuel, hstep⟩ (ih h)

/-- A key is typed inside of an escape sequence, and taken back. -/
def escapedKey : List TtyEvent :=
  [.put ESC, .put 91, .read (fun _ => 0) 10, .key 11, .key ECK_BACKSPACE]

/-- **The cursor leaves the screen** when a key that went into an escape sequence is taken back, and
a line of one character is ended outside of a buffer of one byte. -/
theorem not_consoles_safe :
    (∃ s, vgaTerminal.system.Reachable System.Any s ∧ ¬s.con.idx < VGA_WIDTH * VGA_HEIGHT) ∧
      (∃ s, (fbTerminal .xga).system.Reachable System.Any s ∧
        ¬s.con.idx < FbInfo.xga.width * FbInfo.xga.height) ∧
      ∃ s, vgaTerminal.system.Reachable System.Any s ∧
        vgaTerminal.step 0 s (.key ECK_RETURN) = .error (.fault .outside) := by
  refine ⟨⟨_, ⟨_, rfl, Terminal.steps_of_run 0 escapedKey rfl⟩, ?_⟩,
    ⟨_, ⟨_, rfl, Terminal.steps_of_run 0 escapedKey rfl⟩, ?_⟩,
    ⟨_, ⟨_, rfl, Terminal.steps_of_run 0 [.read (fun _ => 0) 1, .key 11] rfl⟩, rfl⟩⟩
  · decide
  · decide

end Eclair
