import Eclair.Elf.Load
import Eclair.Lib.Layers

/-!
# Eclair.Elf.Image

What a program finds in its memory when it starts.

The loader's writes go through the page tables of the moment, into frames.
While it maps further pages none of those it has mapped moves, and every page
of the user half has a frame of its own, so the writes can be read as layers
on the addresses of the program: `loadEntry_image` says that each byte is
that of the last loadable segment that covers it, and that no other memory
changes.
-/

namespace Eclair

/-! ## memory behind the page tables -/

/-- The address in physical memory. -/
def physAddr (p : Paging) (a : Nat) : Nat := pageGetFrame (a / 4096) p * 4096 + a % 4096

/-- The byte `k` of a write. -/
def Store.byte : Store → Nat → UInt8
  | .copy _ data, k => data.getD k 0
  | .zero _ _ _, _ => 0

/-- `memcpy` or `memset`, through the page tables. -/
def Store.perform (w : Store) (p : Paging) (m : Nat → UInt8) : Nat → UInt8 :=
  (List.range w.len).foldl
    (fun m k => Function.update m (physAddr p (u32 (w.addr + k))) (w.byte k)) m

/-- Physical memory after all that the loader has written. -/
def Loader.memory (l : Loader) (m : Nat → UInt8) : Nat → UInt8 :=
  l.log.foldl (fun m x => x.1.perform x.2 m) m

/-- What a write puts at an address. -/
def Store.layer (w : Store) (a : Nat) : Option UInt8 :=
  if w.addr ≤ a ∧ a < w.addr + w.len then some (w.byte (a - w.addr)) else none

/-- No two bytes of the user half share their place in memory. -/
def UserDistinct (p : Paging) : Prop :=
  ∀ a b, UserByte a p → UserByte b p → physAddr p a = physAddr p b → a = b

/-- The pages that are mapped keep their frames. -/
def PagesKept (p q : Paging) : Prop :=
  ∀ pg, pageIsMapped pg p = true → pageIsMapped pg q = true ∧ pageGetFrame pg q = pageGetFrame pg p

variable {w : Store} {p q r : Paging} {m : Nat → UInt8} {a b : Nat} {l l' : Loader}
  {n : LoadNode} {e : ElfHeader} {ph : ProgramHeader} {is : List Nat}

theorem PagesKept.refl (p : Paging) : PagesKept p p := fun _ h => ⟨h, rfl⟩

theorem PagesKept.trans (h : PagesKept p q) (h' : PagesKept q r) : PagesKept p r := fun pg hpg => by
  obtain ⟨h1, h2⟩ := h pg hpg
  obtain ⟨h3, h4⟩ := h' pg h1
  exact ⟨h3, h4.trans h2⟩

theorem PagesKept.userByte (h : PagesKept p q) (ha : UserByte a p) : UserByte a q :=
  ⟨ha.1, (h _ ha.2).1⟩

theorem PagesKept.physAddr (h : PagesKept p q) (ha : UserByte a p) :
    physAddr q a = Eclair.physAddr p a := by
  rw [Eclair.physAddr, Eclair.physAddr, (h _ ha.2).2]

/-! ## one write -/

/-- The bytes of a sound write, one after the other. -/
theorem Store.Sound.addr (hw : w.Sound p) {k : Nat} (hk : k < w.len) :
    u32 (w.addr + k) = w.addr + k ∧ UserByte (w.addr + k) p := by
  have hwrap := hw.noWrap
  exact ⟨u32_of_lt (by omega), hw.inside k hk⟩

/-- **Inside** the pages of the task a sound write puts its bytes at its
addresses. -/
theorem Store.perform_apply (hw : w.Sound p) (hd : UserDistinct p) (ha : UserByte a p) :
    w.perform p m (physAddr p a) = (w.layer a).getD (m (physAddr p a)) := by
  have hrounds : ∀ n, n ≤ w.len →
      (List.range n).foldl
          (fun m k => Function.update m (physAddr p (u32 (w.addr + k))) (w.byte k)) m (physAddr p a) =
        if w.addr ≤ a ∧ a < w.addr + n then w.byte (a - w.addr) else m (physAddr p a) := by
    intro n hn
    induction n with
    | zero =>
        rw [if_neg (by omega)]
        rfl
    | succ n ih =>
        obtain ⟨haddr, hbyte⟩ := hw.addr (show n < w.len by omega)
        rw [List.range_succ, List.foldl_append, List.foldl_cons, List.foldl_nil, haddr]
        by_cases hlast : a = w.addr + n
        · subst hlast
          rw [Function.update_self, if_pos (by omega), Nat.add_sub_cancel_left]
        · have hne : physAddr p a ≠ physAddr p (w.addr + n) := fun h => hlast (hd _ _ ha hbyte h)
          rw [Function.update_of_ne hne, ih (by omega)]
          congr 1
          apply propext
          omega
  rw [Store.perform, hrounds _ (Nat.le_refl _), Store.layer]
  split <;> rfl

/-- **Outside** of them it changes nothing. -/
theorem Store.perform_other {x : Nat} (hw : w.Sound p) (hx : ∀ a, UserByte a p → physAddr p a ≠ x) :
    w.perform p m x = m x := by
  have hrounds : ∀ n, n ≤ w.len →
      (List.range n).foldl
          (fun m k => Function.update m (physAddr p (u32 (w.addr + k))) (w.byte k)) m x = m x := by
    intro n hn
    induction n with
    | zero => rfl
    | succ n ih =>
        obtain ⟨haddr, hbyte⟩ := hw.addr (show n < w.len by omega)
        rw [List.range_succ, List.foldl_append, List.foldl_cons, List.foldl_nil, haddr,
          Function.update_of_ne (hx _ hbyte).symm, ih (by omega)]
  exact hrounds _ (Nat.le_refl _)

/-- Later page tables send a sound write to the same place. -/
theorem Store.Sound.kept (hw : w.Sound p) (h : PagesKept p q) :
    w.Sound q ∧ w.perform p m = w.perform q m := by
  refine ⟨⟨hw.sized, hw.noWrap, fun k hk => h.userByte (hw.inside k hk)⟩, ?_⟩
  have hrounds : ∀ n, n ≤ w.len →
      (List.range n).foldl
          (fun m k => Function.update m (Eclair.physAddr p (u32 (w.addr + k))) (w.byte k)) m =
        (List.range n).foldl
          (fun m k => Function.update m (Eclair.physAddr q (u32 (w.addr + k))) (w.byte k)) m := by
    intro n hn
    induction n with
    | zero => simp only [List.range_zero, List.foldl_nil]
    | succ n ih =>
        obtain ⟨haddr, hbyte⟩ := hw.addr (show n < w.len by omega)
        rw [List.range_succ, List.foldl_append, List.foldl_append, ih (by omega)]
        simp only [List.foldl_cons, List.foldl_nil, haddr, h.physAddr hbyte]
  rw [Store.perform, Store.perform, hrounds _ (Nat.le_refl _)]

/-! ## all writes -/

/-- Every write is sound, and its page tables have been kept. -/
structure LogKept (log : List (Store × Paging)) (q : Paging) : Prop where
  sound : ∀ x ∈ log, x.1.Sound x.2
  kept : ∀ x ∈ log, PagesKept x.2 q

theorem LogKept.tail {x : Store × Paging} {log : List (Store × Paging)} (h : LogKept (x :: log) q) :
    LogKept log q :=
  ⟨fun y hy => h.sound y (List.mem_cons_of_mem x hy), fun y hy => h.kept y (List.mem_cons_of_mem x hy)⟩

/-- **The writes are layers** on the addresses of the task. -/
theorem LogKept.memory_apply {log : List (Store × Paging)} (h : LogKept log q) (hd : UserDistinct q)
    (ha : UserByte a q) :
    log.foldl (fun m x => x.1.perform x.2 m) m (physAddr q a) =
      (Painter.top (log.map fun x => x.1.layer) a).getD (m (physAddr q a)) := by
  induction log generalizing m with
  | nil => rfl
  | cons x log ih =>
      obtain ⟨hs, hp⟩ := (h.sound x List.mem_cons_self).kept (m := m) (h.kept x List.mem_cons_self)
      rw [List.foldl_cons, ih h.tail, hp, Store.perform_apply hs hd ha, List.map_cons, Painter.top_cons]
      cases Painter.top (log.map fun x => x.1.layer) a <;> rfl

/-- They leave the rest of the memory alone. -/
theorem LogKept.memory_other {log : List (Store × Paging)} {x : Nat} (h : LogKept log q)
    (hx : ∀ a, UserByte a q → physAddr q a ≠ x) :
    log.foldl (fun m x => x.1.perform x.2 m) m x = m x := by
  induction log generalizing m with
  | nil => rfl
  | cons y log ih =>
      obtain ⟨hs, hp⟩ := (h.sound y List.mem_cons_self).kept (m := m) (h.kept y List.mem_cons_self)
      rw [List.foldl_cons, ih h.tail, hp, Store.perform_other hs hx]

/-! ## the page tables while loading -/

/-- Every page of the user half is on a frame of its own, or on frame 0. -/
def UserFrames (p : Paging) : Prop := OwnFrames (fun pg => pg < USER_PAGES) p

/-- The frame of a mapped page is the one in its table entry. -/
theorem pageGetFrame_of_mapped {pg : Nat} (h : pageIsMapped pg p = true) :
    p.table pg = some (pageGetFrame pg p) := by
  simp only [pageIsMapped, Bool.and_eq_true, Option.isSome_iff_exists] at h
  obtain ⟨⟨d, hd⟩, f, hf⟩ := h
  simp [pageGetFrame, hd, hf]

/-- With no page on frame 0 the user half is laid out without overlap. -/
theorem UserFrames.distinct (h : UserFrames p)
    (h0 : ∀ pg, pg < USER_PAGES → pageIsMapped pg p = true → pageGetFrame pg p ≠ 0) :
    UserDistinct p := by
  intro a b ha hb hab
  have hown : ∀ c, UserByte c p → p.owner (pageGetFrame (c / 4096) p) = some (.page (c / 4096)) :=
    fun c hc => h.own _ _ hc.1 (pageGetFrame_of_mapped hc.2) (h0 _ hc.1 hc.2)
  simp only [physAddr] at hab
  have hframe : pageGetFrame (a / 4096) p = pageGetFrame (b / 4096) p := by omega
  have hpage : a / 4096 = b / 4096 := by
    have hboth := hown a ha
    rw [hframe, hown b hb] at hboth
    simpa using hboth.symm
  omega

/-- A page is mapped where none was: the others keep their frames. -/
theorem pagesKept_pageMap {pg : Nat} (f : Nat) (h : pageIsMapped pg p = false) :
    PagesKept p (pageMap pg f p) := by
  intro q hq
  have hne : q ≠ pg := by
    intro hp
    rw [hp, h] at hq
    contradiction
  refine ⟨pageIsMapped_pageMap.mpr (.inr hq), ?_⟩
  rw [pageMap]
  split
  · next hnone =>
      have hother : q / 1024 ≠ pg / 1024 := by
        intro hp
        simp [pageIsMapped, hp, Option.isNone_iff_eq_none.mp hnone] at hq
      have hsame : (pageFrameAlloc .other p).2.dir = p.dir ∧
          (pageFrameAlloc .other p).2.table = p.table := by
        unfold pageFrameAlloc
        split <;> exact ⟨rfl, rfl⟩
      simp [pageGetFrame, pageMapTable, hne, hother, hsame]
  · simp [pageGetFrame, hne]

theorem pagesKept_mapRange (use : Nat → FrameOwner) (pgs : List Nat) :
    PagesKept p (mapRange use pgs p) := by
  unfold mapRange
  induction pgs generalizing p with
  | nil => exact .refl p
  | cons i pgs ih =>
      rw [List.foldl_cons]
      refine PagesKept.trans ?_ ih
      split
      · exact .refl p
      · next hi =>
          have hmapped : pageIsMapped i (pageFrameAlloc (use i) p).2 = false := by
            rw [pageIsMapped_pageFrameAlloc]
            simpa using hi
          have halloc : PagesKept p (pageFrameAlloc (use i) p).2 := by
            intro q hq
            refine ⟨by rwa [pageIsMapped_pageFrameAlloc], ?_⟩
            unfold pageFrameAlloc
            split <;> rfl
          exact halloc.trans (pagesKept_pageMap _ hmapped)

/-! ## the segments -/

/-- The loadable segments among the program headers. -/
def loadable (n : LoadNode) (e : ElfHeader) (is : List Nat) : List ProgramHeader :=
  is.filterMap fun i => (readProgramHeader n e i).filter fun ph => ph.type = ELF_PH_TYPE_LOAD

/-- What a segment has at an address: the bytes of the file, then zeros. -/
def segmentByte (n : LoadNode) (ph : ProgramHeader) (a : Nat) : Option UInt8 :=
  if ph.paddr ≤ a ∧ a < ph.paddr + ph.memsz then
    some ((n.fsRead ph.offset ph.filesz).getD (a - ph.paddr) 0)
  else none

/-- **One segment**: the copy and the zeros are the layer of the segment. -/
theorem segment_layers {top : Nat} (hw : ph.Words)
    (hn : (n.fsRead ph.offset ph.filesz).length = ph.filesz)
    (hfit : ph.Fits (n.fsRead ph.offset ph.filesz).length top) :
    Painter.top [(Store.copy ph.paddr (n.fsRead ph.offset ph.filesz)).layer,
      (Store.zero (u32 (ph.paddr + ph.filesz)) ph.filesz ph.memsz).layer] a = segmentByte n ph a := by
  obtain ⟨hle, hplace⟩ := hfit
  have hle := hle hn
  have hmin : min top USER_PAGES * 4096 ≤ 0xC0000000 :=
    Nat.mul_le_mul_right 4096 (Nat.min_le_right _ _)
  rw [if_pos hn] at hplace
  simp only [Painter.top_cons, segmentByte, Store.layer, Store.addr, Store.len, Store.byte, hn,
    sub32_of_le hle hw.memsz]
  rcases hplace with h0 | ⟨-, hend⟩
  · have hf0 : ph.filesz = 0 := by omega
    rw [h0, hf0, if_neg (by omega), if_neg (by omega)]
    rfl
  · rw [u32_of_lt (by omega)]
    by_cases hin : ph.paddr ≤ a ∧ a < ph.paddr + ph.memsz
    · rw [if_pos hin]
      by_cases hfile : a < ph.paddr + ph.filesz
      · rw [if_neg (by omega), if_pos ⟨hin.1, hfile⟩]
        rfl
      · have hzero : (n.fsRead ph.offset ph.filesz).getD (a - ph.paddr) 0 = 0 := by
          rw [List.getD_eq_getElem?_getD, List.getElem?_eq_none (by omega)]
          rfl
        rw [if_pos (by omega), hzero]
        rfl
    · rw [if_neg hin, if_neg (by omega), if_neg (by omega)]
      rfl

/-! ## the loop over the program headers -/

/-- The pages of what has been written are kept, and laid out on frames of their own. -/
structure Loader.Laid (l : Loader) : Prop where
  kept : ∀ x ∈ l.log, PagesKept x.2 l.paging
  frames : UserFrames l.paging

theorem Loader.Laid.loadMap (h : l.Laid) (ph : ProgramHeader) : (loadMap ph l).Laid := by
  unfold Eclair.loadMap
  split
  · exact ⟨fun x hx => (h.kept x hx).trans (pagesKept_mapRange _ _), OwnFrames.mapRange h.frames _⟩
  · exact h

theorem Loader.Laid.store (h : l.Laid) (w : Store) : (l.store w).Laid := by
  refine ⟨fun x hx => ?_, h.frames⟩
  cases List.mem_append.mp hx with
  | inl hx => exact h.kept x hx
  | inr hx =>
      obtain rfl := List.mem_singleton.mp hx
      exact .refl _

theorem Loader.Laid.loadProgram (h : l.Laid) : (loadProgram n ph l).2.Laid := by
  unfold Eclair.loadProgram
  dsimp only
  split
  · exact (h.loadMap ph).store _
  · exact ((h.loadMap ph).store _).store _

theorem Loader.Laid.loadLoop (h : l.Laid) : (loadLoop n e is l).2.Laid := by
  induction is generalizing l with
  | nil => exact h
  | cons i is ih =>
      rw [Eclair.loadLoop]
      cases readProgramHeader n e i with
      | none => exact h
      | some ph =>
          dsimp only
          split
          · exact ih h
          · have hph : (Eclair.loadProgram n ph l).2.Laid := h.loadProgram
            cases hr : Eclair.loadProgram n ph l with
            | mk ok l' =>
                rw [hr] at hph
                cases ok with
                | true => exact ih hph
                | false => exact hph

/-- The layers of what has been written. -/
def Loader.layers (l : Loader) : List (Nat → Option UInt8) := l.log.map fun x => x.1.layer

/-- A segment that the file has all of is written in two layers. -/
theorem loadProgram_layers (hr : loadProgram n ph l = (true, l')) :
    (n.fsRead ph.offset ph.filesz).length = ph.filesz ∧
      l'.layers = l.layers ++ [(Store.copy ph.paddr (n.fsRead ph.offset ph.filesz)).layer,
        (Store.zero (u32 (ph.paddr + ph.filesz)) ph.filesz ph.memsz).layer] := by
  have hlog : (loadMap ph l).log = l.log := by
    unfold loadMap
    split <;> rfl
  unfold loadProgram at hr
  dsimp only at hr
  split at hr
  · cases hr
  · next hn =>
      cases hr
      refine ⟨not_not.mp hn, ?_⟩
      simp [Loader.layers, Loader.store, hlog]

/-- **The loop**: a load that succeeds has written the loadable segments, one over the other. -/
theorem LoaderInv.loadLoop_layers {top : Nat} (h : LoaderInv l top) (hfit : SegmentsFit n e is l.brkp top)
    (hr : Eclair.loadLoop n e is l = (true, l')) :
    Painter.top l'.layers a = (Painter.top ((loadable n e is).map (segmentByte n)) a).or
      (Painter.top l.layers a) := by
  induction is generalizing l top with
  | nil =>
      cases hr
      rfl
  | cons i is ih =>
      rw [Eclair.loadLoop] at hr
      rw [SegmentsFit] at hfit
      cases hph : readProgramHeader n e i with
      | none =>
          rw [hph] at hr
          cases hr
      | some ph =>
          rw [hph] at hr hfit
          dsimp only at hr hfit
          split at hr
          · next htype =>
              rw [if_pos htype] at hfit
              simpa [loadable, hph, htype] using ih h hfit hr
          · next htype =>
              rw [if_neg htype] at hfit
              obtain ⟨hinv, hbrk, -, -⟩ := h.loadProgram (n := n) (readProgramHeader_words hph)
              cases hp : Eclair.loadProgram n ph l with
              | mk ok l₁ =>
                  rw [hp] at hr hinv hbrk
                  cases ok with
                  | false => cases hr
                  | true =>
                      obtain ⟨hn, hlayers⟩ := loadProgram_layers hp
                      have hrest := ih hinv (by rw [hbrk]; exact hfit.2 hn) hr
                      have hfilter : (readProgramHeader n e i).filter
                          (fun ph => ph.type = ELF_PH_TYPE_LOAD) = some ph := by
                        simp [hph, not_not.mp htype]
                      have hload : loadable n e (i :: is) = ph :: loadable n e is :=
                        List.filterMap_cons_some hfilter
                      rw [hrest, hlayers, Painter.top_append,
                        segment_layers (readProgramHeader_words hph) hn hfit.1, hload, List.map_cons,
                        Painter.top_cons, Option.or_assoc]

/-- What a sound log puts anywhere lies in the pages of the task. -/
theorem LogKept.userByte {log : List (Store × Paging)} {v : UInt8} (h : LogKept log q)
    (ha : Painter.top (log.map fun x => x.1.layer) a = some v) : UserByte a q := by
  obtain ⟨layer, hlayer, hv⟩ := List.exists_of_findSome?_eq_some ha
  rw [List.mem_reverse, List.mem_map] at hlayer
  obtain ⟨x, hx, rfl⟩ := hlayer
  rw [Store.layer] at hv
  split at hv
  · next hin =>
      have hbyte := (h.sound x hx).inside (a - x.1.addr) (by omega)
      rw [Nat.add_sub_cancel' hin.1] at hbyte
      exact (h.kept x hx).userByte hbyte
  · cases hv

/-- **The image**: when the segments of an executable fit, the load succeeds and no page had to
share frame 0, the task starts at the entry point of the file, every byte of a loadable segment is
in a page of the task and holds what the last segment over it says, and all other memory is as it
was. -/
theorem loadEntry_image {node : Option LoadNode} {entry : Nat} (hp : UserEmpty p)
    (hframes : UserFrames p) (hfit : ExecutableFits node)
    (hr : loadEntry node (freshTask p) = (some entry, l))
    (h0 : ∀ pg, pg < USER_PAGES → pageIsMapped pg l.paging = true → pageGetFrame pg l.paging ≠ 0) :
    ∃ n e, loadHeader node = some (n, e) ∧ entry = e.entry ∧
      (∀ ph ∈ loadable n e (List.range e.phnum), ∀ a, ph.paddr ≤ a → a < ph.paddr + ph.memsz →
        UserByte a l.paging) ∧
      (∀ a, UserByte a l.paging → l.memory m (physAddr l.paging a) =
        (Painter.top ((loadable n e (List.range e.phnum)).map (segmentByte n)) a).getD
          (m (physAddr l.paging a))) ∧
      ∀ x, (∀ a, UserByte a l.paging → physAddr l.paging a ≠ x) → l.memory m x = m x := by
  rw [loadEntry] at hr
  rw [ExecutableFits] at hfit
  cases hh : loadHeader node with
  | none =>
      rw [hh] at hr
      cases hr
  | some r =>
      obtain ⟨n, e⟩ := r
      rw [hh] at hr hfit
      dsimp only at hr hfit
      cases hl : loadLoop n e (List.range e.phnum) (freshTask p) with
      | mk ok l₁ =>
          rw [hl] at hr
          cases ok with
          | false => cases hr
          | true =>
              obtain ⟨rfl, rfl⟩ : e.entry = entry ∧ l₁ = l := by simpa using hr
              have hnothing : (freshTask p).Sound := fun _ hx => by cases hx
              have hsound : l₁.Sound := by
                have hiff := hp.loaderInv.loadLoop.mpr ⟨hnothing, hfit⟩
                rwa [hl] at hiff
              have hlaid : l₁.Laid := by
                have hfresh : (freshTask p).Laid := ⟨fun _ hx => absurd hx List.not_mem_nil, hframes⟩
                have hloop : (loadLoop n e (List.range e.phnum) (freshTask p)).2.Laid := hfresh.loadLoop
                rwa [hl] at hloop
              have hlog : LogKept l₁.log l₁.paging := ⟨hsound, hlaid.kept⟩
              have hd : UserDistinct l₁.paging := hlaid.frames.distinct h0
              have htop : ∀ a, Painter.top l₁.layers a =
                  Painter.top ((loadable n e (List.range e.phnum)).map (segmentByte n)) a := by
                intro a
                rw [hp.loaderInv.loadLoop_layers hfit hl]
                exact Option.or_none
              refine ⟨n, e, rfl, rfl, fun ph hph a h1 h2 => ?_, fun a ha => ?_, fun x hx => ?_⟩
              · have hcover : (Painter.top ((loadable n e (List.range e.phnum)).map (segmentByte n))
                    a).isSome := by
                  rw [Painter.top, List.findSome?_isSome_iff]
                  exact ⟨segmentByte n ph, by simpa using ⟨ph, hph, rfl⟩, by
                    rw [segmentByte, if_pos ⟨h1, h2⟩]
                    rfl⟩
                obtain ⟨v, hv⟩ := Option.isSome_iff_exists.mp hcover
                exact hlog.userByte ((htop a).trans hv)
              · rw [Loader.memory, hlog.memory_apply hd ha]
                rw [← htop a]
                rfl
              · exact hlog.memory_other hx

/-- Frame 0 is in use, and nothing is mapped. -/
def bootPaging : Paging := { emptyPaging with bitmap := fun f => f == 0 }

/-- Twelve bytes at `0x800000`, of which the file has four. -/
theorem loadEntry_image_example : ∃ l, loadEntry (some (fileNode (oneSegment 0x800000 12)))
    (freshTask bootPaging) = (some 0x800000, l) ∧ ∃ n e,
      loadHeader (some (fileNode (oneSegment 0x800000 12))) = some (n, e) ∧ 0x800000 = e.entry ∧
      (∀ ph ∈ loadable n e (List.range e.phnum), ∀ a, ph.paddr ≤ a → a < ph.paddr + ph.memsz →
        UserByte a l.paging) ∧
      (∀ a, UserByte a l.paging → l.memory (fun _ => 0xCC) (physAddr l.paging a) =
        (Painter.top ((loadable n e (List.range e.phnum)).map (segmentByte n)) a).getD 0xCC) ∧
      ∀ x, (∀ a, UserByte a l.paging → physAddr l.paging a ≠ x) →
        l.memory (fun _ => 0xCC) x = 0xCC := by
  have hentry : (loadEntry (some (fileNode (oneSegment 0x800000 12))) (freshTask bootPaging)).1 =
      some 0x800000 := by decide +kernel
  have hpaging : (loadEntry (some (fileNode (oneSegment 0x800000 12))) (freshTask bootPaging)).2.paging =
      mapRange .page [0x800] bootPaging := by rfl
  have hp : UserEmpty bootPaging := fun _ _ => rfl
  have hframes : UserFrames bootPaging :=
    ⟨fun _ hf => absurd rfl hf, fun _ _ _ hf => by cases hf⟩
  have hl : loadEntry (some (fileNode (oneSegment 0x800000 12))) (freshTask bootPaging) =
      (some 0x800000, (loadEntry (some (fileNode (oneSegment 0x800000 12))) (freshTask bootPaging)).2) :=
    Prod.ext hentry rfl
  refine ⟨_, hl, loadEntry_image hp hframes (by decide) hl fun pg hpg hm => ?_⟩
  rw [hpaging] at hm ⊢
  have hpg : pg = 0x800 := by
    simpa [pageIsMapped_mapRange, hp pg hpg] using hm
  rw [hpg]
  decide +kernel

end Eclair
