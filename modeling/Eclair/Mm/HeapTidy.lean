import Eclair.Mm.HeapRuns

/-!
# Eclair.Mm.HeapTidy

What runs of the kernel heap leave behind: the blocks in use are the ones
handed out, free neighbours are joined, and once everything is freed the
heap is one free block again, at its beginning.

The first header, which `heap_init` makes, is never handed out and never
free; the blocks behind it are the `rest` of the list.
-/

namespace Eclair

open Blocks

variable {s s' : HeapState} {e : HeapEvent} {sz a E : Nat}
  {as cs bs ns rest : List Blk} {b c : Blk} {h : Heap}

/-! ## the property -/

/-- The blocks behind the first header. -/
structure HeapTidy (s : HeapState) (rest : List Blk) : Prop where
  /-- they are linked behind `head` -/
  links : Links s.heap.mem (⟨s.heap.head, 0, false⟩ :: rest)
  /-- what is in use is live -/
  used : ∀ b ∈ rest, b.avail = false ↔ ∃ r ∈ s.live, r.ptr = b.addr + HDR
  /-- what is live is in use -/
  live : ∀ r ∈ s.live, ∃ b ∈ rest, b.avail = false ∧ r.ptr = b.addr + HDR
  /-- free neighbours are joined -/
  coalesced : Coalesced rest
  /-- with nothing live there is one free block at most -/
  whole : s.live = [] → rest = [] ∨ ∃ b, rest = [b] ∧ b.avail = true
  /-- with nothing live the next block comes from the beginning of the heap -/
  reused : s.live = [] → ∀ sz, (kmalloc sz s.heap).1 < s.heap.head + 3 * HDR

/-! ## the invariant -/

/-- The invariant of `HeapTidy`. -/
structure TidyInv (s : HeapState) (rest : List Blk) : Prop where
  rep : HeapRep s.total s.heap (⟨s.heap.head, 0, false⟩ :: rest)
  total : s.total < 2 ^ 32
  live : ∀ r ∈ s.live, ∃ b ∈ rest, b.avail = false ∧ r.ptr = b.addr + HDR
  owned : ∀ b ∈ rest, b.avail = false → ∃ r ∈ s.live, r.ptr = b.addr + HDR
  coalesced : Coalesced rest
  first : ∀ b, rest.head? = some b → b.addr < s.heap.head + 2 * HDR

/-- A search, behind the first header: it keeps the blocks in use, and what
it leaves before the block it returns is joined. -/
structure Sought (head : Nat) (rest as : List Blk) (b : Blk) (cs : List Blk) : Prop where
  used : ∀ x, x.avail = false → (x ∈ rest ↔ x ∈ as ++ cs)
  left : as.IsChain Beside
  right : Coalesced (b :: cs)
  first : ∀ x, (as ++ b :: cs).head? = some x → x.addr < head + 2 * HDR

/-- What a search leaves, by the kind of block it returns. -/
theorem Searched.sought {hd : Blk} (hs : Searched (hd :: rest) as b cs) (hb : b.avail = true)
    (hhd : hd.avail = false) (hsize : hd.size = 0) (hc : Coalesced rest)
    (hfirst : ∀ x, rest.head? = some x → x.addr < hd.addr + 2 * HDR) :
    ∃ as', as = hd :: as' ∧ Sought hd.addr rest as' b cs := by
  cases hs with
  | @here as cs b hs =>
      cases as with
      | nil =>
          obtain ⟨rfl, -⟩ : hd = b ∧ rest = cs := by simpa using hs
          simp [hb] at hhd
      | cons x as =>
          obtain ⟨rfl, rfl⟩ : hd = x ∧ rest = as ++ b :: cs := by simpa using hs
          refine ⟨as, rfl, fun y hy => ?_, hc.left, hc.right, hfirst⟩
          have hyb : y ≠ b := by
            rintro rfl
            simp [hb] at hy
          simp [hyb]
  | @behind as l n hs hl hn =>
      cases as with
      | nil =>
          obtain ⟨rfl, rfl⟩ : hd = l ∧ rest = [] := by simpa using hs
          refine ⟨[], rfl, by simp, .nil, .singleton _, ?_⟩
          simp only [Blk.stop, hsize] at hn
          simp only [List.nil_append, List.head?_cons, Option.some.injEq, forall_eq']
          omega
      | cons x as =>
          obtain ⟨rfl, rfl⟩ : hd = x ∧ rest = as ++ [l] := by simpa using hs
          refine ⟨as ++ [l], rfl, by simp, hc.beside, .singleton _, fun y hy => hfirst y ?_⟩
          simpa [List.head?_append] using hy
  | @stretched as l n size hs hl =>
      cases as with
      | nil =>
          obtain ⟨rfl, -⟩ : hd = l ∧ rest = [] := by simpa using hs
          simp [hl] at hhd
      | cons x as =>
          obtain ⟨rfl, rfl⟩ : hd = x ∧ rest = as ++ [l] := by simpa using hs
          refine ⟨as ++ [⟨l.addr, size, true⟩], rfl, fun y hy => ?_, ?_, .singleton _,
            fun y hy => ?_⟩
          · have hyl : y ≠ l := by
              rintro rfl
              simp [hl] at hy
            have hyn : y ≠ ⟨l.addr, size, true⟩ := by
              rintro rfl
              simp at hy
            simp [hyl, hyn]
          · -- the block before the last one is in use
            refine List.isChain_append.mpr ⟨hc.left, .singleton _, fun u hu v _ hua => ?_⟩
            obtain ⟨us, rfl⟩ := List.getLast?_eq_some_iff.mp hu
            have := hc.last us u l (by simp) hua
            simp [hl] at this
          · cases as with
            | nil =>
                obtain rfl : ⟨l.addr, size, true⟩ = y := by simpa using hy
                exact hfirst l rfl
            | cons z as => exact hfirst y (by simpa using hy)
  | @gap as l n size hs hl =>
      cases as with
      | nil =>
          obtain ⟨rfl, rfl⟩ : hd = l ∧ rest = [] := by simpa using hs
          refine ⟨[⟨hd.stop HDR, size, true⟩], rfl, fun y hy => ?_, .singleton _, .singleton _, ?_⟩
          · have hyn : y ≠ ⟨hd.stop HDR, size, true⟩ := by
              rintro rfl
              simp at hy
            simp [hyn]
          · have := HDR_pos
            simp only [List.singleton_append, List.head?_cons, Option.some.injEq, forall_eq',
              Blk.stop, hsize]
            omega
      | cons x as =>
          obtain ⟨rfl, rfl⟩ : hd = x ∧ rest = as ++ [l] := by simpa using hs
          refine ⟨as ++ [l, ⟨l.stop HDR, size, true⟩], rfl, fun y hy => ?_, ?_, .singleton _,
            fun y hy => hfirst y ?_⟩
          · have hyn : y ≠ ⟨l.stop HDR, size, true⟩ := by
              rintro rfl
              simp at hy
            simp [hyn]
          · refine List.isChain_append.mpr ⟨hc.left, .cons_cons (fun h => ?_) (.singleton _), ?_⟩
            · simp [hl] at h
            · rintro u - v hv - hva
              obtain rfl : l = v := by simpa using hv
              simp [hl] at hva
          · simpa [List.head?_append] using hy

/-! ## steps -/

/-- A list of blocks where a free one is taken, with at most one new block
behind it. -/
theorem Sought.coalesced {head n : Nat} (h : Sought head rest as b cs) (hb : b.avail = true)
    (hlen : ns.length ≤ 1) : Coalesced (as ++ ⟨n, sz, false⟩ :: (ns ++ cs)) := by
  refine Coalesced.append h.left ?_ fun _ _ _ => rfl
  match ns, hlen with
  | [], _ => exact h.right.replace hb
  | [m], _ => exact (h.right.replace hb).cons fun _ _ _ h => by simp at h

/-- A block that was taken is in use, and live. -/
theorem TidyInv.take {r : Nat × Heap} {cost k n : Nat} (h : TidyInv s rest)
    (hf : Found E n (⟨s.heap.head, 0, false⟩ :: rest) r as b cs)
    (hs : Searched (⟨s.heap.head, 0, false⟩ :: rest) as b cs) (hhead : r.2.head = s.heap.head)
    (hE : E + n = s.total + cost) (hfit : s.total + cost < 2 ^ 32) :
    ∃ rest', TidyInv ⟨heapTake r.1 n r.2, ⟨u32 (r.1 + HDR), sz, k⟩ :: s.live, s.total + cost⟩
      rest' := by
  obtain ⟨as, rfl, hso⟩ := hs.sought hf.avail rfl rfl h.coalesced h.first
  obtain ⟨ns, hlen, hns, hrep⟩ := heapTake_rep hf (by omega)
  have htop := hrep.layout.top ⟨b.addr, n, false⟩ (by simp)
  simp only [Blk.stop] at htop
  have hptr : u32 (r.1 + HDR) = b.addr + HDR := by rw [hf.ptr, u32_of_lt (by omega)]
  have hkeep : (heapTake r.1 n r.2).head = s.heap.head := (heapTake_head _ _ _).trans hhead
  rw [hE] at hrep
  rw [hptr]
  refine ⟨as ++ ⟨b.addr, n, false⟩ :: (ns ++ cs), ?_, hfit, ?_, ?_, hso.coalesced hf.avail hlen, ?_⟩
  · rw [hkeep]
    exact hrep
  · intro x hx
    rcases List.mem_cons.mp hx with rfl | hx
    · exact ⟨⟨b.addr, n, false⟩, by simp, rfl, rfl⟩
    · obtain ⟨c, hc, hca, hxc⟩ := h.live x hx
      have := (hso.used c hca).mp hc
      exact ⟨c, by simp at this ⊢; grind, hca, hxc⟩
  · intro x hx hxa
    have hold : x ∈ as ++ cs → ∃ r ∈ s.live, r.ptr = x.addr + HDR := fun hm =>
      h.owned x ((hso.used x hxa).mpr hm) hxa
    simp only [List.mem_append, List.mem_cons] at hx hold
    rcases hx with hx | rfl | hx | hx
    · obtain ⟨q, hq, hqx⟩ := hold (.inl hx)
      exact ⟨q, by simp [hq], hqx⟩
    · exact ⟨_, List.mem_cons_self, rfl⟩
    · simp [hns x hx] at hxa
    · obtain ⟨q, hq, hqx⟩ := hold (.inr hx)
      exact ⟨q, by simp [hq], hqx⟩
  · intro x hx
    rw [hkeep]
    cases as with
    | nil =>
        obtain rfl : (⟨b.addr, n, false⟩ : Blk) = x := by simpa using hx
        exact hso.first b rfl
    | cons y as => exact hso.first x (by simpa using hx)

theorem TidyInv.kmalloc (h : TidyInv s rest) (hfit : Fits s (.kmalloc sz)) :
    ∃ rest', TidyInv ⟨(Eclair.kmalloc sz s.heap).2,
      ⟨(Eclair.kmalloc sz s.heap).1, sz, 1⟩ :: s.live,
      s.total + (HeapEvent.kmalloc sz).cost⟩ rest' := by
  simp only [Fits, HeapEvent.cost] at hfit
  rw [Eclair.kmalloc, align_four (by omega)]
  obtain ⟨as, b, cs, hf, hs⟩ := heapFind_searched h.rep (by omega) ((sz + 3) / 4 * 4)
  exact h.take hf hs (heapFind_head _ _ _) (by simp only [HeapEvent.cost]; omega)
    (by simp only [HeapEvent.cost]; omega)

theorem TidyInv.kmalloca (h : TidyInv s rest) (hfit : Fits s (.kmalloca sz a)) (ha : 0 < a) :
    ∃ rest', TidyInv ⟨(Eclair.kmalloca sz a s.heap).2,
      ⟨(Eclair.kmalloca sz a s.heap).1, sz, a⟩ :: s.live,
      s.total + (HeapEvent.kmalloca sz a).cost⟩ rest' := by
  simp only [Fits, HeapEvent.cost] at hfit
  rw [Eclair.kmalloca, align_four (by omega)]
  obtain ⟨as, b, cs, hf, -, hs⟩ := heapFindAligned_searched h.rep ha (by omega) ((sz + 3) / 4 * 4)
  exact h.take hf hs (heapFindAligned_head _ _ _ _) (by simp only [HeapEvent.cost]; omega)
    (by simp only [HeapEvent.cost]; omega)

/-- Freeing a live pointer: its block, joined with the free ones around it,
is the only one that is no longer in use. -/
theorem TidyInv.kfree {p : Nat} (h : TidyInv s rest) (hp : s.live.any fun r => r.ptr == p) :
    ∃ rest', TidyInv ⟨Eclair.kfree p s.heap, s.live.filter fun r => r.ptr != p, s.total⟩ rest' := by
  obtain ⟨r, hr, hrp⟩ := List.any_eq_true.mp hp
  obtain ⟨b, hb, -, hrb⟩ := h.live r hr
  obtain rfl : b.addr + HDR = p := hrb.symm.trans (beq_iff_eq.mp hrp)
  obtain ⟨as, cs, rfl⟩ := List.append_of_mem hb
  obtain ⟨hd, hhd⟩ : ∃ hd : Blk, hd = ⟨s.heap.head, 0, false⟩ := ⟨_, rfl⟩
  have hrep := h.rep
  rw [← hhd, ← List.cons_append] at hrep
  have hne : ∀ x ∈ as ++ cs, x.addr ≠ b.addr := fun x hx => by
    obtain ⟨h1, h2⟩ := hrep.links.ne_addr
    rcases List.mem_append.mp hx with hx | hx
    · exact h1 x (by simp [hx])
    · exact h2 x hx
  obtain ⟨as₁, ds, b', es, cs', hsplit, rfl, havail, haddr, hb', -, hrep', hlast, hnext⟩ :=
    kfreeBlock_joined hrep h.total
  -- the first header is in use, so it is not among the joined blocks
  obtain ⟨as', rfl, rfl⟩ : ∃ as', as₁ = hd :: as' ∧ as = as' ++ ds := by
    cases as₁ with
    | nil =>
        have := havail hd (by simp [← (show hd :: as = ds from hsplit)])
        simp [hhd] at this
    | cons x as₁ =>
        obtain ⟨rfl, rfl⟩ : hd = x ∧ as = as₁ ++ ds := by simpa using hsplit
        exact ⟨as₁, rfl, rfl⟩
  have hused : ∀ x, x.avail = false → (x ∈ as' ++ b' :: cs' ↔ x ∈ (as' ++ ds) ++ (es ++ cs')) := by
    intro x hx
    have h1 : x ≠ b' := by
      rintro rfl
      simp [hb'] at hx
    have h2 : x ∉ ds ∧ x ∉ es := by
      refine ⟨fun hm => ?_, fun hm => ?_⟩
      · simp [havail x (by simp [hm])] at hx
      · simp [havail x (by simp [hm])] at hx
    simp [h1, h2]
  have hne0 : b.addr + HDR ≠ 0 := by
    have := HDR_pos
    omega
  refine ⟨as' ++ b' :: cs', ?_, h.total, ?_, ?_, ?_, ?_⟩
  · simp only [Eclair.kfree, if_neg hne0, kfreeBlock_head]
    rw [← hhd]
    exact hrep'
  · intro x hx
    obtain ⟨hx, hxp⟩ := List.mem_filter.mp hx
    obtain ⟨c, hc, hca, hxc⟩ := h.live x hx
    refine ⟨c, (hused c hca).mpr ?_, hca, hxc⟩
    have hcb : c ≠ b := by
      rintro rfl
      simp [hxc] at hxp
    simpa [hcb] using hc
  · intro x hx hxa
    have hm := (hused x hxa).mp hx
    obtain ⟨q, hq, hqx⟩ := h.owned x (by simp at hm ⊢; grind) hxa
    have := hne x hm
    exact ⟨q, List.mem_filter.mpr ⟨hq, by simp; omega⟩, hqx⟩
  · have hc : Coalesced ((as' ++ ds) ++ b :: (es ++ cs')) := h.coalesced
    have hfront : Coalesced (as' ++ (ds ++ b :: (es ++ cs'))) := by simpa using hc
    have hback : Coalesced (((as' ++ ds) ++ b :: es) ++ cs') := by simpa using hc
    refine Coalesced.append hfront.left (Coalesced.cons hback.right fun x xs hxs _ hxa => ?_)
      fun x hx hxa => ?_
    · simpa [hxa] using hnext x xs hxs
    · obtain ⟨us, rfl⟩ := List.getLast?_eq_some_iff.mp hx
      simp [hlast x (by rw [← List.cons_append, List.getLast?_concat])] at hxa
  · have hkeep : (Eclair.kfree (b.addr + HDR) s.heap).head = s.heap.head := kfree_head _ _
    intro x hx
    rw [hkeep]
    cases as' with
    | nil =>
        obtain rfl : b' = x := by simpa using hx
        rw [haddr]
        cases ds with
        | nil => exact h.first b rfl
        | cons d ds => exact h.first d rfl
    | cons y as' => exact h.first x (by simpa using hx)

/-- **Step lemma**: an event that fits keeps the invariant. -/
theorem tidy_step (h : TidyInv s rest) (hfit : Fits s e) (hs : e.next s = some s') :
    ∃ rest', TidyInv s' rest' := by
  cases e with
  | kmalloc sz =>
      obtain rfl := Option.some.inj hs
      exact h.kmalloc hfit
  | kmalloca sz a =>
      simp only [HeapEvent.next, Option.ite_none_right_eq_some, Option.some.injEq] at hs
      obtain ⟨ha, rfl⟩ := hs
      simp only [isAlignment, Bool.and_eq_true, decide_eq_true_eq] at ha
      exact h.kmalloca hfit (by omega)
  | kfree p =>
      simp only [HeapEvent.next, Option.ite_none_right_eq_some, Option.some.injEq] at hs
      obtain ⟨hp, rfl⟩ := hs
      exact h.kfree hp

/-! ## runs -/

/-- With nothing live every block behind the first header is free. -/
theorem TidyInv.whole (h : TidyInv s rest) (hl : s.live = []) :
    rest = [] ∨ ∃ b, rest = [b] ∧ b.avail = true := by
  refine h.coalesced.eq_of_avail fun b hb => ?_
  by_contra hba
  obtain ⟨r, hr, -⟩ := h.owned b hb (by simpa using hba)
  simp [hl] at hr

/-- With nothing live the block `heap_find` returns is the one right behind
the first header. -/
theorem TidyInv.heapFind_lt (h : TidyInv s rest) (hl : s.live = []) (n : Nat) :
    (heapFind s.heap.head n s.heap).1 < s.heap.head + 2 * HDR := by
  unfold heapFind
  rcases h.rep.find h.total.le (usable n) with ⟨as, b, cs, hs, h2, h3⟩ | ⟨as, b, hs, h2, h3⟩
  · -- a block behind the first header, so the only one
    rw [h2]
    have hb := (Links.usable_iff (hs ▸ h.rep.links)).mp h3
    cases as with
    | nil =>
        obtain ⟨rfl, -⟩ : (⟨s.heap.head, 0, false⟩ : Blk) = b ∧ rest = cs := by simpa using hs
        simp at hb
    | cons x as =>
        obtain ⟨-, hrest⟩ : ⟨s.heap.head, 0, false⟩ = x ∧ rest = as ++ b :: cs := by
          simpa using hs
        rcases h.whole hl with hnil | ⟨c, hone, -⟩
        · simp [hnil] at hrest
        · have hbc : b ∈ rest := by simp [hrest]
          rw [hone, List.mem_singleton] at hbc
          subst hbc
          exact h.first b (by rw [hone]; rfl)
  · -- no block is free, so there is only the first header
    rw [h2]
    have hlinks : Links s.heap.mem (as ++ [b]) := hs ▸ h.rep.links
    have hb : b.avail = false := by
      rw [← (hlinks.mem_header (b := b) (by simp)).2]
      have hnext : (s.heap.mem b.addr).next = ([] : List Blk).head?.map Blk.addr := hlinks.next_eq
      exact usable_last hnext h3
    have hrest : rest = [] := by
      refine (h.whole hl).resolve_right ?_
      rintro ⟨c, rfl, hc⟩
      have hs' : [⟨s.heap.head, 0, false⟩] ++ [c] = as ++ [b] := hs
      obtain ⟨-, hcb⟩ := List.append_inj' hs' rfl
      obtain rfl : c = b := by simpa using hcb
      simp [hb] at hc
    obtain ⟨rfl, rfl⟩ : as = [] ∧ (⟨s.heap.head, 0, false⟩ : Blk) = b := by
      cases as <;> simp_all
    have hsize := (hlinks.mem_header (b := ⟨s.heap.head, 0, false⟩) (by simp)).1
    dsimp only at hsize ⊢
    rw [hsize]
    have hle : u32 (s.heap.head + HDR + 0) ≤ s.heap.head + HDR + 0 := Nat.mod_le _ _
    have := HDR_pos
    omega

/-- With nothing live `kmalloc` returns the beginning of the heap. -/
theorem TidyInv.reused (h : TidyInv s rest) (hl : s.live = []) (sz : Nat) :
    (Eclair.kmalloc sz s.heap).1 < s.heap.head + 3 * HDR := by
  have h1 := h.heapFind_lt hl (align sz 4)
  have h2 : u32 ((heapFind s.heap.head (align sz 4) s.heap).1 + HDR) ≤ _ := Nat.mod_le _ _
  simp only [Eclair.kmalloc]
  omega

theorem TidyInv.tidy (h : TidyInv s rest) : HeapTidy s rest where
  links := h.rep.links
  used b hb := ⟨h.owned b hb, fun ⟨r, hr, hrb⟩ => by
    obtain ⟨c, hc, hca, hrc⟩ := h.live r hr
    have hcb : c = b := by
      by_contra hne
      have := h.rep.layout.apart (b := c) (c := b) (by simp [hc]) (by simp [hb]) hne
      have := HDR_pos
      simp only [Blk.stop] at *
      omega
    rwa [← hcb]⟩
  live := h.live
  coalesced := h.coalesced
  whole := h.whole
  reused := h.reused

end Eclair
