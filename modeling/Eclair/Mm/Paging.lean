import Mathlib.Logic.Function.Basic
import Eclair.Basic

/-!
# Eclair.Mm.Paging

The frame allocator and the page mapper of `kernel/mm/paging.c`.

A page table entry is the frame it maps to, or `none` where the entry is
zero; the present and writable bits, which every mapping sets, are left
out.  Next to the bitmap a ghost map remembers what each frame that was
allocated is used for.
-/

namespace Eclair

/-- What an allocated frame is used for. -/
inductive FrameOwner where
  | page (pg : Nat)
  | other
  deriving DecidableEq, Repr

/-- `BITMAP_SIZE`, in bytes. -/
def BITMAP_SIZE : Nat := 131072

/-- The bitmap, the page directory and the page tables. -/
structure Paging where
  bitmap : Nat → Bool
  nused : Nat
  dir : Nat → Option Nat
  table : Nat → Option Nat
  /-- ghost: the use of each frame that `page_frame_alloc` has given away -/
  owner : Nat → Option FrameOwner

/-! ## frames -/

/-- `page_frame_use`. -/
def pageFrameUse (id : Nat) (p : Paging) : Paging :=
  { p with
    nused := if p.bitmap id then p.nused else u32 (p.nused + 1)
    bitmap := Function.update p.bitmap id true }

/-- The first free frame from `i` on. -/
def firstFree (bitmap : Nat → Bool) : Nat → Nat → Option Nat
  | 0, _ => none
  | n + 1, i => if bitmap i then firstFree bitmap n (i + 1) else some i

/-- `page_frame_alloc`, with the use of the frame. -/
def pageFrameAlloc (who : FrameOwner) (p : Paging) : Nat × Paging :=
  match firstFree p.bitmap (BITMAP_SIZE * 8) 0 with
  | some f => (f, { pageFrameUse f p with owner := Function.update p.owner f (some who) })
  | none => (0, p)

/-- `page_frame_free`. -/
def pageFrameFree (id : Nat) (p : Paging) : Paging :=
  { p with
    nused := if p.bitmap id then sub32 p.nused 1 else p.nused
    bitmap := Function.update p.bitmap id false
    owner := Function.update p.owner id none }

/-! ## pages -/

/-- `page_map_table`: the entries of the new table are zero. -/
def pageMapTable (pt f : Nat) (p : Paging) : Paging :=
  { p with
    dir := Function.update p.dir pt (some f)
    table := fun pg => if pg / 1024 = pt then none else p.table pg }

/-- `page_map`. -/
def pageMap (pg f : Nat) (p : Paging) : Paging :=
  let p := if (p.dir (pg / 1024)).isNone then
      let r := pageFrameAlloc .other p
      pageMapTable (pg / 1024) r.1 r.2
    else p
  { p with table := Function.update p.table pg (some f) }

/-- `page_is_mapped`. -/
def pageIsMapped (pg : Nat) (p : Paging) : Bool :=
  (p.dir (pg / 1024)).isSome && (p.table pg).isSome

/-- `page_get_frame`. -/
def pageGetFrame (pg : Nat) (p : Paging) : Nat :=
  if (p.dir (pg / 1024)).isNone then 0 else (p.table pg).getD 0

/-- `page_unmap`. -/
def pageUnmap (pg : Nat) (p : Paging) : Paging :=
  if (p.dir (pg / 1024)).isNone then p else { p with table := Function.update p.table pg none }

/-! ## what they do -/

variable {p : Paging} {who : FrameOwner} {n i f pg : Nat}

theorem firstFree_spec {bitmap : Nat → Bool} (h : firstFree bitmap n i = some f) :
    bitmap f = false := by
  induction n generalizing i with
  | zero => simp [firstFree] at h
  | succ n ih =>
      rw [firstFree] at h
      split at h
      · exact ih h
      · next hi =>
          obtain rfl := Option.some.inj h
          simpa using hi

/-- Frames in use are marked in the bitmap, and a page of `U` is mapped to a
frame of its own, or to frame 0. -/
structure OwnFrames (U : Nat → Prop) (p : Paging) : Prop where
  used : ∀ f, p.owner f ≠ none → p.bitmap f = true
  own : ∀ pg f, U pg → p.table pg = some f → f ≠ 0 → p.owner f = some (.page pg)

namespace OwnFrames

variable {U : Nat → Prop}

/-- **Allocating** takes a frame that nobody owns, or none; the other frames
keep their owners. -/
theorem alloc (h : OwnFrames U p) (who : FrameOwner) :
    OwnFrames U (pageFrameAlloc who p).2 ∧ (pageFrameAlloc who p).2.table = p.table ∧
      (pageFrameAlloc who p).2.dir = p.dir ∧
      ((pageFrameAlloc who p).1 ≠ 0 →
        (pageFrameAlloc who p).2.owner (pageFrameAlloc who p).1 = some who) ∧
      ∀ f, p.owner f ≠ none → (pageFrameAlloc who p).2.owner f = p.owner f := by
  unfold pageFrameAlloc
  cases hf : firstFree p.bitmap (BITMAP_SIZE * 8) 0 with
  | none => exact ⟨h, rfl, rfl, fun hne => absurd rfl hne, fun _ _ => rfl⟩
  | some f =>
      have hne : ∀ g, p.owner g ≠ none → g ≠ f := by
        rintro g hg rfl
        have hused := h.used g hg
        rw [firstFree_spec hf] at hused
        contradiction
      refine ⟨⟨fun g hg => ?_, fun pg g hpg hg hg0 => ?_⟩, rfl, rfl, fun _ => by simp,
        fun g hg => Function.update_of_ne (hne g hg) _ _⟩
      · simp only [pageFrameUse] at hg ⊢
        by_cases hgf : g = f
        · simp [hgf]
        · rw [Function.update_of_ne hgf] at hg ⊢
          exact h.used g hg
      · have hown := h.own pg g hpg hg hg0
        have hgf : g ≠ f := hne g (by simp [hown])
        simpa [Function.update_of_ne hgf] using hown

/-- Clearing table entries keeps the invariant. -/
theorem of_table {p' : Paging} (h : OwnFrames U p) (hb : p'.bitmap = p.bitmap)
    (ho : p'.owner = p.owner) (ht : ∀ pg f, p'.table pg = some f → p.table pg = some f) :
    OwnFrames U p' :=
  ⟨fun f hf => by rw [hb]; exact h.used f (by rwa [ho] at hf),
    fun pg f hpg hf hf0 => by rw [ho]; exact h.own pg f hpg (ht pg f hf) hf0⟩

/-- `page_map` allocates the page table if there is none. -/
theorem pageTable (h : OwnFrames U p) (pt : Nat) :
    OwnFrames U (if (p.dir pt).isNone then
        pageMapTable pt (pageFrameAlloc .other p).1 (pageFrameAlloc .other p).2 else p) ∧
      ∀ f, p.owner f ≠ none → (if (p.dir pt).isNone then
        pageMapTable pt (pageFrameAlloc .other p).1 (pageFrameAlloc .other p).2 else p).owner f =
          p.owner f := by
  obtain ⟨h1, -, -, -, h2⟩ := h.alloc .other
  split
  · refine ⟨h1.of_table rfl rfl fun pg f hf => ?_, h2⟩
    simp only [pageMapTable] at hf
    split at hf
    · contradiction
    · exact hf
  · exact ⟨h, fun _ _ => rfl⟩

/-- **Mapping** a page to a frame that is its own, or to frame 0. -/
theorem map (h : OwnFrames U p) (hf : f ≠ 0 → p.owner f = some (.page pg)) :
    OwnFrames U (pageMap pg f p) := by
  obtain ⟨h1, h2⟩ := h.pageTable (pg / 1024)
  rw [pageMap]
  generalize (if (p.dir (pg / 1024)).isNone then _ else p : Paging) = p' at h1 h2 ⊢
  refine ⟨h1.used, fun pg' g hpg hg hg0 => ?_⟩
  dsimp only at hg ⊢
  by_cases hp : pg' = pg
  · subst hp
    rw [Function.update_self] at hg
    obtain rfl := Option.some.inj hg
    rw [h2 f (by simp [hf hg0])]
    exact hf hg0
  · rw [Function.update_of_ne hp] at hg
    exact h1.own pg' g hpg hg hg0

end OwnFrames

/-- Frames in use are marked in the bitmap, and a page from `P` on is mapped
to a frame of its own, or to frame 0. -/
structure PagingInv (P : Nat) (p : Paging) : Prop where
  used : ∀ f, p.owner f ≠ none → p.bitmap f = true
  mapped : ∀ pg f, P ≤ pg → p.table pg = some f → f ≠ 0 → p.owner f = some (.page pg)

namespace PagingInv

variable {P : Nat}

theorem ownFrames (h : PagingInv P p) : OwnFrames (P ≤ ·) p := ⟨h.used, h.mapped⟩

theorem of_ownFrames (h : OwnFrames (P ≤ ·) p) : PagingInv P p := ⟨h.used, h.own⟩

theorem alloc (h : PagingInv P p) (who : FrameOwner) :
    PagingInv P (pageFrameAlloc who p).2 ∧ (pageFrameAlloc who p).2.table = p.table ∧
      (pageFrameAlloc who p).2.dir = p.dir ∧
      ((pageFrameAlloc who p).1 ≠ 0 →
        (pageFrameAlloc who p).2.owner (pageFrameAlloc who p).1 = some who) ∧
      ∀ f, p.owner f ≠ none → (pageFrameAlloc who p).2.owner f = p.owner f := by
  obtain ⟨h1, h2⟩ := h.ownFrames.alloc who
  exact ⟨.of_ownFrames h1, h2⟩

/-- **Releasing** the frame of a page, and unmapping the page. -/
theorem release (h : PagingInv P p) (hpg : P ≤ pg) (hm : pageIsMapped pg p = true)
    (h0 : pageGetFrame pg p ≠ 0) :
    PagingInv P (pageUnmap pg (pageFrameFree (pageGetFrame pg p) p)) ∧
      p.owner (pageGetFrame pg p) = some (.page pg) := by
  obtain ⟨hdir, f, hf⟩ : (p.dir (pg / 1024)).isNone = false ∧ ∃ f, p.table pg = some f := by
    simp only [pageIsMapped, Bool.and_eq_true, Option.isSome_iff_exists] at hm
    obtain ⟨⟨d, hd⟩, hf⟩ := hm
    exact ⟨by simp [hd], hf⟩
  have hget : pageGetFrame pg p = f := by simp [pageGetFrame, hdir, hf]
  rw [hget] at h0 ⊢
  have hown := h.mapped pg f hpg hf h0
  refine ⟨?_, hown⟩
  simp only [pageUnmap, pageFrameFree, hdir]
  refine ⟨fun g hg => ?_, fun pg' g hpg' hg hg0 => ?_⟩
  · have hgf : g ≠ f := by
      rintro rfl
      simp at hg
    simp only [Bool.false_eq_true, if_false, Function.update_of_ne hgf] at hg ⊢
    exact h.used g hg
  · simp only [Bool.false_eq_true, if_false] at hg ⊢
    have hp : pg' ≠ pg := by
      rintro rfl
      simp at hg
    rw [Function.update_of_ne hp] at hg
    have hown' := h.mapped pg' g hpg' hg hg0
    have hgf : g ≠ f := by
      rintro rfl
      rw [hown] at hown'
      exact hp (by simpa using hown'.symm)
    rwa [Function.update_of_ne hgf]

/-- Somebody else frees a frame of theirs. -/
theorem free (h : PagingInv P p) (hf : p.owner f = some .other) :
    PagingInv P (pageFrameFree f p) := by
  refine ⟨fun g hg => ?_, fun pg g hpg hg hg0 => ?_⟩
  · have hgf : g ≠ f := by
      rintro rfl
      simp [pageFrameFree] at hg
    simp only [pageFrameFree, Function.update_of_ne hgf] at hg ⊢
    exact h.used g hg
  · have hown := h.mapped pg g hpg hg hg0
    have hgf : g ≠ f := by
      rintro rfl
      simp [hf] at hown
    simpa only [pageFrameFree, Function.update_of_ne hgf] using hown

end PagingInv

/-! ## a range of pages -/

/-- Map the pages of a range that are not mapped yet. -/
def mapRange (who : Nat → FrameOwner) (pgs : List Nat) (p : Paging) : Paging :=
  pgs.foldl (fun p i =>
    if pageIsMapped i p then p
    else let r := pageFrameAlloc (who i) p; pageMap i r.1 r.2) p

theorem OwnFrames.mapRange {U : Nat → Prop} (h : OwnFrames U p) (pgs : List Nat) :
    OwnFrames U (mapRange .page pgs p) := by
  unfold Eclair.mapRange
  induction pgs generalizing p with
  | nil => exact h
  | cons i pgs ih =>
      rw [List.foldl_cons]
      refine ih ?_
      split
      · exact h
      · obtain ⟨h1, -, -, h2, -⟩ := h.alloc (.page i)
        exact h1.map h2

theorem PagingInv.mapRange {P : Nat} (h : PagingInv P p) (pgs : List Nat) :
    PagingInv P (mapRange .page pgs p) :=
  .of_ownFrames (h.ownFrames.mapRange pgs)

/-! ## which pages are mapped -/

variable {q : Nat}

theorem pageIsMapped_pageFrameAlloc :
    pageIsMapped q (pageFrameAlloc who p).2 = pageIsMapped q p := by
  unfold pageFrameAlloc
  split <;> rfl

/-- `page_map` maps the page and unmaps none: a page table that it allocates
was missing for all its pages. -/
theorem pageIsMapped_pageMap :
    pageIsMapped q (pageMap pg f p) = true ↔ q = pg ∨ pageIsMapped q p = true := by
  rw [pageMap]
  obtain ⟨p', hp'⟩ : ∃ p', (if (p.dir (pg / 1024)).isNone then
      let r := pageFrameAlloc .other p
      pageMapTable (pg / 1024) r.1 r.2 else p) = p' := ⟨_, rfl⟩
  have hdir : (p'.dir (pg / 1024)).isSome = true := by
    subst hp'
    split
    · simp [pageMapTable]
    · next h => simpa [Option.isSome_iff_ne_none] using h
  have hsame : pageIsMapped q p' = pageIsMapped q p := by
    subst hp'
    split
    · next h =>
        have halloc : pageIsMapped q (pageFrameAlloc .other p).2 = pageIsMapped q p :=
          pageIsMapped_pageFrameAlloc
        rw [← halloc]
        have hd : (pageFrameAlloc .other p).2.dir = p.dir := by
          unfold pageFrameAlloc
          split <;> rfl
        by_cases hq : q / 1024 = pg / 1024
        · simp [pageIsMapped, pageMapTable, hq, hd, Option.isNone_iff_eq_none.mp h]
        · simp [pageIsMapped, pageMapTable, hq]
    · rfl
  rw [hp', ← hsame]
  by_cases hq : q = pg
  · subst hq
    simp [pageIsMapped, hdir]
  · simp [pageIsMapped, hq]

/-- Unmapping a page leaves the other pages alone. -/
theorem page_release {q : Nat} (hq : q ≠ pg) (f : Nat) :
    pageGetFrame q (pageUnmap pg (pageFrameFree f p)) = pageGetFrame q p ∧
      pageIsMapped q (pageUnmap pg (pageFrameFree f p)) = pageIsMapped q p := by
  have hdir : (pageUnmap pg (pageFrameFree f p)).dir = p.dir := by
    unfold pageUnmap
    split <;> rfl
  have htable : (pageUnmap pg (pageFrameFree f p)).table q = p.table q := by
    unfold pageUnmap
    split
    · rfl
    · exact Function.update_of_ne hq _ _
  simp [pageGetFrame, pageIsMapped, hdir, htable]

/-- A range of pages that is mapped is added to the mapped ones. -/
theorem pageIsMapped_mapRange {use : Nat → FrameOwner} {pgs : List Nat} :
    pageIsMapped q (mapRange use pgs p) = true ↔ q ∈ pgs ∨ pageIsMapped q p = true := by
  unfold Eclair.mapRange
  induction pgs generalizing p with
  | nil => simp
  | cons i pgs ih =>
      rw [List.foldl_cons, ih, List.mem_cons]
      split
      · next hi =>
          constructor
          · rintro (h | h)
            · exact .inl (.inr h)
            · exact .inr h
          · rintro ((rfl | h) | h)
            · exact .inr hi
            · exact .inl h
            · exact .inr h
      · rw [pageIsMapped_pageMap, pageIsMapped_pageFrameAlloc, or_assoc]
        exact or_left_comm

end Eclair
