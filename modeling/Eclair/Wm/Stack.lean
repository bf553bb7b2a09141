import Eclair.Lib.Layers
import Eclair.Lib.System
import Eclair.Wm.Table

/-!
# Eclair.Wm.Stack

The stack of windows.

`Layered s l` says that the array, the two indices and the focus of `s` are
the stack `l` in three sections, and that its elements are the live windows
with the places they ask for.  Creation, destruction and a press on a
window keep this, and so does a change of section when the shift that goes
with it moves nothing else.
-/

namespace Eclair

/-- The place in the stack that a resource asks for, if it is a live window. -/
def Resource.stack (r : Resource) : Option Nat :=
  if r.id = 0 then none
  else match r.data with
    | some (.window w) => some w.attributes.stack
    | _ => none

/-- That of the slot `k`. -/
def stackOf (s : Wm) (k : Nat) : Option Nat := (s.resources k).stack

/-- The state shows the stack `l`. -/
structure Layered (s : Wm) (l : Layers Nat) : Prop where
  windows : ∃ junk, s.windows = l.all ++ junk
  room : s.windows.length = MAX_WINDOWS
  nwindows : s.nwindows = l.all.length
  firstcenter : s.firstcenter = l.below.length
  firstabove : s.firstabove = l.below.length + l.center.length
  live : ∀ k, k ∈ l.all ↔ (stackOf s k).isSome = true
  below : ∀ k ∈ l.below, stackOf s k = some WM_STACK_BELOW
  center : ∀ k ∈ l.center, stackOf s k = some WM_STACK_CENTER
  above : ∀ k ∈ l.above, stackOf s k = some WM_STACK_ABOVE
  focus : s.focus = WM_NULL ∨ s.focus ∈ l.center

/-- The array of windows is in order. -/
def Stacked (s : Wm) : Prop := ∃ l, Layered s l

/-- The array, the indices, the focus and the places are the same. -/
structure SameStack (s t : Wm) : Prop where
  windows : t.windows = s.windows
  nwindows : t.nwindows = s.nwindows
  firstcenter : t.firstcenter = s.firstcenter
  firstabove : t.firstabove = s.firstabove
  focus : t.focus = s.focus
  places : ∀ k, stackOf t k = stackOf s k

variable {s t : Wm} {l : Layers Nat} {k j : Nat} {w w' : Window} {f : Resource → Resource}
variable {a : WinAttrs} {mask : AttrMask} {d : Int}

theorem SameStack.refl : SameStack s s := ⟨rfl, rfl, rfl, rfl, rfl, fun _ => rfl⟩

theorem SameStack.trans {u : Wm} (h : SameStack s t) (h' : SameStack t u) : SameStack s u where
  windows := h'.windows.trans h.windows
  nwindows := h'.nwindows.trans h.nwindows
  firstcenter := h'.firstcenter.trans h.firstcenter
  firstabove := h'.firstabove.trans h.firstabove
  focus := h'.focus.trans h.focus
  places k := (h'.places k).trans (h.places k)

theorem stackOf_modify :
    stackOf (s.modify k f) j = if j = k then (f (s.resources k)).stack else stackOf s j := by
  by_cases hj : j = k
  · rw [if_pos hj, hj, stackOf, Wm.modify_same]
  · rw [if_neg hj, stackOf, Wm.modify_other hj, stackOf]

theorem SameStack.modify (h : (f (s.resources k)).stack = (s.resources k).stack) :
    SameStack s (s.modify k f) := by
  refine ⟨rfl, rfl, rfl, rfl, rfl, fun j => ?_⟩
  rw [stackOf_modify]
  by_cases hj : j = k
  · rw [if_pos hj, h, hj, stackOf]
  · rw [if_neg hj]

theorem SameStack.addRef : SameStack s (s.addRef k d) := .modify rfl

theorem LiveWindow.stack (h : LiveWindow s k w) : stackOf s k = some w.attributes.stack := by
  rw [stackOf, Resource.stack, if_neg h.1, h.2]

theorem SameStack.setWindow (h : LiveWindow s k w)
    (hs : w'.attributes.stack = w.attributes.stack) : SameStack s (s.setWindow k w') := by
  refine .modify ?_
  have hold := h.stack
  simp only [stackOf] at hold
  rw [hold, ← hs]
  simp [Resource.stack, h.1]

theorem Layered.congr (h : Layered s l) (hs : SameStack s t) : Layered t l where
  windows := hs.windows ▸ h.windows
  room := hs.windows ▸ h.room
  nwindows := hs.nwindows ▸ h.nwindows
  firstcenter := hs.firstcenter ▸ h.firstcenter
  firstabove := hs.firstabove ▸ h.firstabove
  live k := by rw [hs.places, h.live]
  below k hk := by rw [hs.places, h.below k hk]
  center k hk := by rw [hs.places, h.center k hk]
  above k hk := by rw [hs.places, h.above k hk]
  focus := by rw [hs.focus]; exact h.focus

theorem Stacked.congr (h : Stacked s) (hs : SameStack s t) : Stacked t := by
  obtain ⟨l, hl⟩ := h
  exact ⟨l, hl.congr hs⟩

/-- A live window is in the stack. -/
theorem Layered.mem (h : Layered s l) (hw : LiveWindow s k w) : k ∈ l.all := by
  rw [h.live, hw.stack]
  rfl

theorem exists_liveWindow (h : (stackOf s k).isSome = true) : ∃ w, LiveWindow s k w := by
  unfold stackOf Resource.stack at h
  split at h
  · contradiction
  · next hid =>
      split at h
      · next w hd => exact ⟨w, hid, hd⟩
      · contradiction

/-- An element of the stack is a live window. -/
theorem Layered.window (h : Layered s l) (hk : k ∈ l.all) : ∃ w, LiveWindow s k w :=
  exists_liveWindow ((h.live k).mp hk)

/-- A center window is in the center section. -/
theorem Layered.mem_center (h : Layered s l) (hs : stackOf s k = some WM_STACK_CENTER) :
    k ∈ l.center := by
  have hk := (h.live k).mpr (by rw [hs]; rfl)
  obtain hb | hc | ha := Layers.mem_all.mp hk
  · rw [h.below k hb] at hs
    contradiction
  · exact hc
  · rw [h.above k ha] at hs
    contradiction

/-! ## creation -/

/-- The array with a new window. -/
theorem Layered.insert (h : Layered s l) (hlt : s.nwindows < MAX_WINDOWS) :
    ∃ junk, insertWindow s k = some ((l.below ++ ((l.center ++ [k]) ++ l.above)) ++ junk) ∧
      ((l.below ++ ((l.center ++ [k]) ++ l.above)) ++ junk).length = MAX_WINDOWS := by
  obtain ⟨junk, hw⟩ := h.windows
  have hlen := congrArg List.length hw
  have hn := h.nwindows
  have ha := h.firstabove
  simp only [Layers.all, List.length_append] at hlen hn
  rw [h.room] at hlen
  cases junk with
  | nil =>
      simp only [List.length_nil] at hlen
      omega
  | cons x junk =>
      have hrounds : (if s.nwindows ≠ 0 then (s.nwindows - s.firstabove).toNat else 0) =
          l.above.length := by split <;> omega
      refine ⟨junk, ?_, ?_⟩
      · rw [insertWindow, hrounds, hw, Layers.all, List.append_assoc, List.append_assoc,
          ← List.append_assoc, Slice.openUp_write (by simp; omega) (by simp; omega)]
        simp
      · simp only [List.length_append, List.length_cons, List.length_nil] at hlen ⊢
        omega

theorem stackOf_withWindow {ws : List Nat} (hk : k ≠ WM_NULL) : stackOf (s.withWindow k ws) j =
    if j = k then some WM_STACK_CENTER else stackOf s j := by
  have hm : stackOf (s.withWindow k ws) j =
      stackOf (s.modify k fun _ => ⟨k, WM_RESOURCE_WINDOW, 0, some (.window .fresh)⟩) j := rfl
  have hnew : Resource.stack ⟨k, WM_RESOURCE_WINDOW, 0, some (.window .fresh)⟩ =
      some WM_STACK_CENTER := if_neg hk
  rw [hm, stackOf_modify, hnew]

/-- A free slot is not in the stack. -/
theorem Layered.not_mem (h : Layered s l) (hfree : (s.resources k).id = 0) : k ∉ l.all := by
  rw [h.live, stackOf, Resource.stack, if_pos hfree]
  simp

theorem Layered.withWindow {ws junk : List Nat} (h : Layered s l) (hfree : (s.resources k).id = 0)
    (hk : k ≠ WM_NULL) (hws : ws = (l.below ++ ((l.center ++ [k]) ++ l.above)) ++ junk)
    (hroom : ws.length = MAX_WINDOWS) : Layered (s.withWindow k ws) (l.add k (h.not_mem hfree)) := by
  have hne : ∀ j ∈ l.all, j ≠ k := fun j hj he => h.not_mem hfree (he ▸ hj)
  have hold : ∀ j ∈ l.all, stackOf (s.withWindow k ws) j = stackOf s j := by
    intro j hj
    rw [stackOf_withWindow hk, if_neg (hne j hj)]
  refine ⟨⟨junk, hws⟩, hroom, ?_, h.firstcenter, ?_, ?_, ?_, ?_, ?_, ?_⟩
  · have hn := h.nwindows
    simp only [Wm.withWindow, Layers.add, Layers.all, List.length_append, List.length_singleton] at hn ⊢
    omega
  · have ha := h.firstabove
    simp only [Wm.withWindow, Layers.add, List.length_append, List.length_singleton]
    omega
  · intro j
    rw [stackOf_withWindow hk]
    by_cases hj : j = k
    · simp [hj, Layers.add]
    · rw [if_neg hj, ← h.live]
      simp [Layers.add, hj]
  · intro j hj
    rw [hold j (Layers.mem_all.mpr (.inl hj)), h.below j hj]
  · intro j hj
    obtain hj | hj := List.mem_append.mp hj
    · rw [hold j (Layers.mem_all.mpr (.inr (.inl hj))), h.center j hj]
    · rw [stackOf_withWindow hk, if_pos (List.mem_singleton.mp hj)]
  · intro j hj
    rw [hold j (Layers.mem_all.mpr (.inr (.inr hj))), h.above j hj]
  · exact .inr (by simp [Layers.add, Wm.withWindow])

theorem windowResourceNew_spec (hs : GoodTable s) (h : Stacked s) :
    ∃ t r, windowResourceNew s = some (t, r) ∧ GoodTable t ∧ Stacked t := by
  obtain ⟨l, h⟩ := h
  obtain hsame | ⟨k, hlt, hfree, hnull, hk, heq⟩ := windowResourceNew_eq (s := s)
  · exact ⟨s, none, hsame, hs, l, h⟩
  · obtain ⟨junk, hws, hroom⟩ := h.insert (k := k) hlt
    rw [heq, hws]
    exact ⟨_, _, rfl, hs.withWindow hk, _, h.withWindow hfree hnull rfl hroom⟩

/-! ## destruction -/

/-- The array and the indices of `l`. -/
structure Holds (s : Wm) (l : Layers Nat) : Prop where
  windows : ∃ junk, s.windows = l.all ++ junk
  room : s.windows.length = MAX_WINDOWS
  nwindows : s.nwindows = l.all.length
  firstcenter : s.firstcenter = l.below.length
  firstabove : s.firstabove = l.below.length + l.center.length

theorem Layered.holds (h : Layered s l) : Holds s l :=
  ⟨h.windows, h.room, h.nwindows, h.firstcenter, h.firstabove⟩

theorem Holds.modify (h : Holds s l) : Holds (s.modify k f) l :=
  ⟨h.windows, h.room, h.nwindows, h.firstcenter, h.firstabove⟩

/-- The array without the window `k`. -/
theorem Holds.unstack (h : Holds s l) (hk : k ∈ l.all) :
    ∃ t, unstack s k = some t ∧ t.resources = s.resources ∧ t.focus = s.focus ∧
      Holds t (l.erase k) := by
  obtain ⟨junk, hw⟩ := h.windows
  obtain ⟨p, q, hpq, hp, hall, hbelow, hcenter⟩ := Layers.exists_split hk
  have hlen : l.all.length = p.length + (q.length + 1) := by simp [hpq]
  have hn := h.nwindows
  have hsearch : Slice.search s.windows k s.nwindows.toNat 0 = some (p.length : Int) := by
    have hs := Slice.search_spec (a := []) (b := p) (c := q ++ junk) (v := k)
      (n := s.nwindows.toNat) (i := 0) rfl hp (by omega)
    rw [hw, hpq, List.append_assoc, List.cons_append]
    simpa using hs
  have hrounds : (s.nwindows - 1 - p.length).toNat = q.length := by omega
  obtain ⟨y, hclose⟩ := Slice.closeUp_spec (a := p) (b := q) (c := junk) (x := k) rfl
  have hws : s.windows = p ++ k :: (q ++ junk) := by simp [hw, hpq]
  have hun : Eclair.unstack s k = some { s with
      windows := p ++ (q ++ y :: junk)
      firstabove := if (p.length : Int) < s.firstabove then s.firstabove - 1 else s.firstabove
      firstcenter := if (p.length : Int) < s.firstcenter then s.firstcenter - 1 else s.firstcenter
      nwindows := s.nwindows - 1 } := by
    unfold Eclair.unstack
    rw [hsearch, Option.bind_some, if_pos (by omega), hrounds, hws, hclose]
    rfl
  have hroom := h.room
  refine ⟨_, hun, rfl, rfl, ⟨y :: junk, by simp [hall]⟩, ?_, ?_, ?_, ?_⟩
  · simp only [hws, List.length_append, List.length_cons] at hroom ⊢
    omega
  · simp only [hall, List.length_append]
    omega
  · rw [hbelow, h.firstcenter]
    dsimp only
    split <;> split <;> omega
  · rw [← Int.natCast_add, hcenter, h.firstabove]
    dsimp only
    split <;> split <;> omega

/-- The focus goes to a center window or to none. -/
theorem Holds.refocus {i : Int} (h : Holds s l)
    (hi : s.firstcenter < s.firstabove → s.firstcenter ≤ i ∧ i < s.firstabove) :
    ∃ id, refocus s i = some { s with focus := id } ∧ (id = WM_NULL ∨ id ∈ l.center) := by
  have hc := h.firstcenter
  have ha := h.firstabove
  unfold Eclair.refocus
  by_cases hlt : s.firstcenter < s.firstabove
  · obtain ⟨junk, hw⟩ := h.windows
    obtain ⟨hlo, hhi⟩ := hi hlt
    obtain ⟨p, z, q, hpq, -, hread⟩ := Slice.read_slice (a := l.below) (b := l.center)
      (c := l.above ++ junk) (i := i) (by omega) (by omega)
    rw [if_pos hlt, hw, Layers.all, List.append_assoc, List.append_assoc, hread]
    exact ⟨z, rfl, .inr (by simp [hpq])⟩
  · rw [if_neg hlt]
    exact ⟨WM_NULL, rfl, .inl rfl⟩

/-- A live window that is not in the stack any more is freed. -/
theorem Layered.erase (h : Layered s l) (ht : Holds t (l.erase k)) (hplace : stackOf t k = none)
    (hplaces : ∀ j, j ≠ k → stackOf t j = stackOf s j)
    (hf : t.focus = WM_NULL ∨ t.focus ∈ (l.erase k).center) : Layered t (l.erase k) where
  windows := ht.windows
  room := ht.room
  nwindows := ht.nwindows
  firstcenter := ht.firstcenter
  firstabove := ht.firstabove
  live j := by
    rw [Layers.mem_erase, h.live]
    by_cases hj : j = k
    · simp [hj, hplace]
    · simp [hj, hplaces j hj]
  below j hj := by
    obtain ⟨hne, hj⟩ := Layers.mem_erase_below.mp hj
    rw [hplaces j hne, h.below j hj]
  center j hj := by
    obtain ⟨hne, hj⟩ := Layers.mem_erase_center.mp hj
    rw [hplaces j hne, h.center j hj]
  above j hj := by
    obtain ⟨hne, hj⟩ := Layers.mem_erase_above.mp hj
    rw [hplaces j hne, h.above j hj]
  focus := hf

theorem SameStack.unref : SameStack s (s.unref w) := by
  unfold Wm.unref
  split
  · exact .addRef
  · exact .refl

theorem Holds.congr (h : Holds s l) (hs : SameStack s t) : Holds t l where
  windows := hs.windows ▸ h.windows
  room := hs.windows ▸ h.room
  nwindows := hs.nwindows ▸ h.nwindows
  firstcenter := hs.firstcenter ▸ h.firstcenter
  firstabove := hs.firstabove ▸ h.firstabove

theorem stackOf_destroy :
    stackOf (serverDestroyResource s k) j = if j = k then none else stackOf s j := stackOf_modify

theorem stackOf_congr (h : t.resources = s.resources) : stackOf t j = stackOf s j := by
  rw [stackOf, h, stackOf]

/-- The array and the focus without the window `k`. -/
theorem Layered.dropWindow (h : Layered s l) (hk : k ∈ l.all) (hid : (s.resources k).id = k) :
    ∃ t, dropWindow s k = some t ∧ Holds t (l.erase k) ∧
      (t.focus = WM_NULL ∨ t.focus ∈ (l.erase k).center) := by
  obtain ⟨u, hun, -, hfoc, hu⟩ := h.holds.unstack hk
  simp only [Eclair.dropWindow, hid, hun, Option.bind_some, hfoc]
  by_cases hf : k = s.focus
  · rw [if_pos hf]
    obtain ⟨id, href, hmem⟩ := hu.refocus (i := u.firstabove - 1) (by omega)
    exact ⟨_, href, ⟨hu.windows, hu.room, hu.nwindows, hu.firstcenter, hu.firstabove⟩, hmem⟩
  · rw [if_neg hf]
    refine ⟨u, rfl, hu, ?_⟩
    rw [hfoc]
    exact h.focus.imp_right fun hc => Layers.mem_erase_center.mpr ⟨Ne.symm hf, hc⟩

theorem windowResourceFree_spec (hs : GoodTable s) (h : Stacked s) (hw : LiveWindow s k w) :
    ∃ t, windowResourceFree s k = some t ∧ GoodTable t ∧ Stacked t := by
  obtain ⟨l, h⟩ := h
  obtain ⟨u, hdrop, hu, hfoc⟩ := h.dropWindow (h.mem hw) (hs.id_eq hw.1)
  have hres := dropWindow_resources hdrop
  have hsame : SameStack u (u.unref w) := .unref
  rw [windowResourceFree_eq hw.window, hdrop]
  refine ⟨_, rfl, ((goodTable_congr hres).mpr hs).unref.destroy, _, h.erase (k := k) ?_ ?_ ?_ ?_⟩
  · exact (hu.congr hsame).modify
  · rw [stackOf_destroy, if_pos rfl]
  · intro j hj
    rw [stackOf_destroy, if_neg hj, hsame.places, stackOf_congr hres]
  · exact hsame.focus ▸ hfoc

/-! ## a press on a window -/

/-- The array and the focus are those of `l'`, with the same elements. -/
theorem Layered.rearrange {l' : Layers Nat} (h : Layered s l) (ht : Holds t l')
    (hmem : ∀ j, j ∈ l'.all ↔ j ∈ l.all)
    (hlive : ∀ j, (stackOf t j).isSome = (stackOf s j).isSome)
    (hb : ∀ j ∈ l'.below, stackOf t j = some WM_STACK_BELOW)
    (hc : ∀ j ∈ l'.center, stackOf t j = some WM_STACK_CENTER)
    (ha : ∀ j ∈ l'.above, stackOf t j = some WM_STACK_ABOVE)
    (hf : t.focus = WM_NULL ∨ t.focus ∈ l'.center) : Layered t l' where
  windows := ht.windows
  room := ht.room
  nwindows := ht.nwindows
  firstcenter := ht.firstcenter
  firstabove := ht.firstabove
  live j := by rw [hmem, hlive, h.live]
  below := hb
  center := hc
  above := ha
  focus := hf

/-- The array with `k` raised. -/
theorem Holds.raise {i : Nat} (h : Holds s l) (hread : Slice.read s.windows i = some k)
    (hlo : s.firstcenter ≤ i) (hhi : (i : Int) < s.firstabove) (hk : k ∈ l.center)
    (hf : k ≠ s.focus) :
    ∃ t, raise s i = some t ∧ t.resources = s.resources ∧ t.focus = k ∧ Holds t (l.raise k hk) := by
  obtain ⟨junk, hw⟩ := h.windows
  have hc := h.firstcenter
  have ha := h.firstabove
  obtain ⟨p, x, q, hpq, hi, hx⟩ := Slice.read_slice (a := l.below) (b := l.center)
    (c := l.above ++ junk) (i := i) (by omega) (by omega)
  have hall : s.windows = l.below ++ (l.center ++ (l.above ++ junk)) := by
    simp [hw, Layers.all]
  obtain rfl : k = x := Option.some.inj ((hall ▸ hread).symm.trans hx)
  have hp : k ∉ p := by
    have hn := l.nodup_center
    rw [hpq] at hn
    exact fun hmem => (List.nodup_append'.mp hn).2.2 hmem List.mem_cons_self
  have hlen : l.center.length = p.length + (q.length + 1) := by simp [hpq]
  have hrounds : (s.firstabove - 1 - i).toNat = q.length := by omega
  have hclose := Slice.closeUp_write (a := l.below ++ p) (b := q) (c := l.above ++ junk) (x := k)
    (v := k) (i := i) (j := s.firstabove - 1) (by simp [hi]) (by simp; omega)
  have hws : s.windows = (l.below ++ p) ++ k :: (q ++ (l.above ++ junk)) := by simp [hall, hpq]
  have herase : l.center.erase k = p ++ q := by rw [hpq, Layers.erase_middle hp]
  refine ⟨{ s with windows := (l.below ++ p) ++ (q ++ k :: (l.above ++ junk)), focus := k }, ?_, rfl,
    rfl, ⟨junk, ?_⟩, ?_, ?_, hc, ?_⟩
  · obtain ⟨ws, hup, hwrite⟩ := Option.bind_eq_some_iff.mp hclose
    unfold Eclair.raise
    rw [hread, Option.bind_some, if_pos ⟨hlo, hhi, hf⟩, hrounds, hws, hup, Option.bind_some, hwrite]
    rfl
  · simp [Layers.raise, Layers.rearrange, Layers.all, herase]
  · have hroom := h.room
    rw [hws] at hroom
    simp only [List.length_append, List.length_cons] at hroom ⊢
    omega
  · have hn := h.nwindows
    rwa [← (Layers.rearrange_perm _ : (l.raise k hk).all.Perm l.all).length_eq] at hn
  · simp [Layers.raise, Layers.rearrange, herase, ha, hlen]

theorem Layered.raise (h : Layered s l) {i : Nat} (hi : (i : Int) < s.nwindows) :
    ∃ t, raise s i = some t ∧ t.resources = s.resources ∧ Stacked t := by
  obtain ⟨junk, hw⟩ := h.windows
  have hn := h.nwindows
  have hc := h.firstcenter
  have ha := h.firstabove
  obtain ⟨p, k, q, hpq, hip, hread⟩ := Slice.read_slice (a := []) (b := l.all) (c := junk) (i := i)
    (by simp) (by simp; omega)
  have hread' : Slice.read s.windows i = some k := by rw [hw]; exact hread
  by_cases hcase : s.firstcenter ≤ i ∧ (i : Int) < s.firstabove ∧ k ≠ s.focus
  · obtain ⟨hlo, hhi, hf⟩ := hcase
    obtain ⟨p', x, q', hpq', -, hx⟩ := Slice.read_slice (a := l.below) (b := l.center)
      (c := l.above ++ junk) (i := i) (by omega) (by omega)
    have hk : k ∈ l.center := by
      have hall : s.windows = l.below ++ (l.center ++ (l.above ++ junk)) := by simp [hw, Layers.all]
      obtain rfl : x = k := Option.some.inj (hx.symm.trans (hall ▸ hread'))
      simp [hpq']
    obtain ⟨t, ht, hres, hfoc, hh⟩ := h.holds.raise hread' hlo hhi hk hf
    have hsame : ∀ j, stackOf t j = stackOf s j := fun j => stackOf_congr hres
    refine ⟨t, ht, hres, l.raise k hk, h.rearrange hh ?_ ?_ ?_ ?_ ?_ (.inr ?_)⟩
    · exact fun j => (Layers.rearrange_perm _ : (l.raise k hk).all.Perm l.all).mem_iff
    · exact fun j => by rw [hsame]
    · exact fun j hj => (hsame j).trans (h.below j hj)
    · exact fun j hj => (hsame j).trans (h.center j (Layers.mem_raise.mp hj))
    · exact fun j hj => (hsame j).trans (h.above j hj)
    · rw [hfoc]
      exact Layers.mem_raise.mpr hk
  · unfold Eclair.raise
    rw [hread', Option.bind_some, if_neg hcase]
    exact ⟨s, rfl, rfl, l, h⟩

theorem sendEvent_spec (hs : GoodTable s) (h : Stacked s) {wid : Nat} (e : WmEvent)
    (hw : wid = WM_NULL ∨ (stackOf s wid).isSome = true) :
    ∃ t, sendEvent s wid e = some t ∧ GoodTable t ∧ Stacked t := by
  unfold sendEvent
  cases hg : serverGetResource s wid with
  | none => exact ⟨s, rfl, hs, h⟩
  | some k =>
      obtain ⟨rfl, hl⟩ := serverGetResource_some hg
      obtain ⟨w, hw⟩ := exists_liveWindow (hw.resolve_left (hs.pos hl))
      dsimp only
      rw [hw.window]
      exact ⟨_, rfl, hs.setWindow hw, h.congr (.setWindow hw rfl)⟩

/-- What is read below `nwindows` is in the stack. -/
theorem Layered.read (h : Layered s l) {i : Nat} (hi : (i : Int) < s.nwindows) :
    ∃ k, Slice.read s.windows i = some k ∧ k ∈ l.all := by
  obtain ⟨junk, hw⟩ := h.windows
  have hn := h.nwindows
  obtain ⟨p, k, q, hpq, -, hread⟩ := Slice.read_slice (a := []) (b := l.all) (c := junk) (i := i)
    (by simp) (by simp; omega)
  exact ⟨k, by rw [hw]; exact hread, by simp [hpq]⟩

/-- Every window of the array is there. -/
theorem Layered.hitLoop (hs : GoodTable s) (h : Layered s l) (px py : Nat) {n : Nat}
    (hn : (n : Int) ≤ s.nwindows) :
    ∃ r, hitLoop s px py n = some r ∧ ∀ i rx ry, r = some (i, rx, ry) → i < n := by
  induction n with
  | zero => exact ⟨none, rfl, by simp⟩
  | succ n ih =>
      obtain ⟨k, hread, hk⟩ := h.read (i := n) (by omega)
      obtain ⟨w, hw⟩ := h.window hk
      obtain ⟨r, hr, hlt⟩ := ih (by omega)
      rw [Eclair.hitLoop, hread, Option.bind_some, hs.getResource hw.1, Option.bind_some, hw.window,
        Option.bind_some]
      dsimp only
      split
      · refine ⟨_, rfl, fun i rx ry he => ?_⟩
        obtain ⟨rfl, -⟩ := Prod.mk.inj (Option.some.inj he)
        exact Nat.lt_succ_self _
      · exact ⟨r, hr, fun i rx ry he => Nat.lt_succ_of_lt (hlt i rx ry he)⟩

theorem windowProcessEvent_spec (hs : GoodTable s) (h : Stacked s) (e : WmEvent) :
    ∃ t, windowProcessEvent s e = some t ∧ GoodTable t ∧ Stacked t := by
  obtain ⟨l, hl⟩ := h
  have hfocus : s.focus = WM_NULL ∨ (stackOf s s.focus).isSome = true :=
    hl.focus.imp_right fun hc => (hl.live _).mp (Layers.mem_all.mpr (.inr (.inl hc)))
  have hn : ((s.nwindows.toNat : Nat) : Int) ≤ s.nwindows := by
    have := hl.nwindows
    omega
  cases e with
  | key code action => exact sendEvent_spec hs ⟨l, hl⟩ _ hfocus
  | button code action px py =>
      rw [windowProcessEvent]
      split
      · exact sendEvent_spec hs ⟨l, hl⟩ _ hfocus
      · obtain ⟨r, hr, hlt⟩ := hl.hitLoop hs px py hn
        rw [hr, Option.bind_some]
        cases r with
        | none => exact sendEvent_spec hs ⟨l, hl⟩ _ hfocus
        | some r =>
            obtain ⟨i, rx, ry⟩ := r
            have hi := hlt i rx ry rfl
            obtain ⟨k, hread, hk⟩ := hl.read (i := i) (by omega)
            obtain ⟨t, ht, hres, hst⟩ := hl.raise (i := i) (by omega)
            dsimp only
            rw [hread, Option.bind_some, ht, Option.bind_some]
            refine sendEvent_spec ((goodTable_congr hres).mpr hs) hst _ (.inr ?_)
            rw [stackOf_congr hres]
            exact (hl.live k).mp hk
  | motion mx my px py =>
      rw [windowProcessEvent]
      split
      · exact sendEvent_spec hs ⟨l, hl⟩ _ hfocus
      · obtain ⟨r, hr, hlt⟩ := hl.hitLoop hs px py hn
        rw [hr, Option.bind_some]
        cases r with
        | none => exact sendEvent_spec hs ⟨l, hl⟩ _ hfocus
        | some r =>
            obtain ⟨i, rx, ry⟩ := r
            have hi := hlt i rx ry rfl
            obtain ⟨k, hread, hk⟩ := hl.read (i := i) (by omega)
            dsimp only
            rw [hread, Option.bind_some]
            exact sendEvent_spec hs ⟨l, hl⟩ _ (.inr ((hl.live k).mp hk))

/-! ## a change of section -/

/-- The shift that goes with the new place `stack` of the center window `k`
moves nothing else. -/
def StackFits (s : Wm) (k stack : Nat) : Prop :=
  stack = WM_STACK_CENTER ∨
    stack = WM_STACK_BELOW ∧ s.firstabove = s.firstcenter + 1 ∨
    stack = WM_STACK_ABOVE ∧ Slice.read s.windows (s.firstabove - 1) = some k

/-- With one center window the loop has no round. -/
theorem Holds.sink (h : Holds s l) (hk : k ∈ l.center) (hone : s.firstabove = s.firstcenter + 1) :
    ∃ t, restack s k WM_STACK_BELOW = some t ∧ t.resources = s.resources ∧ t.focus = s.focus ∧
      Holds t (l.sink k hk) := by
  obtain ⟨junk, hw⟩ := h.windows
  have hc := h.firstcenter
  have ha := h.firstabove
  obtain ⟨z, hz⟩ := List.length_eq_one_iff.mp (show l.center.length = 1 by omega)
  obtain rfl : k = z := by simpa [hz] using hk
  have hws : s.windows = l.below ++ k :: (l.above ++ junk) := by simp [hw, Layers.all, hz]
  have hloop : belowLoop s.firstcenter (MAX_WINDOWS + 2) (s.firstabove - 1) s.windows =
      some s.windows := by
    rw [belowLoop, if_neg (by omega)]
  refine ⟨{ s with windows := l.below ++ k :: (l.above ++ junk), firstcenter := s.firstcenter + 1 },
    ?_, rfl, rfl, ⟨junk, ?_⟩, ?_, ?_, ?_, ?_⟩
  · rw [restack, if_pos rfl, hloop, Option.bind_some, hws, Slice.write_eq hc]
    rfl
  · simp [Layers.sink, Layers.rearrange, Layers.all, hz]
  · rw [← hws, h.room]
  · have hn := h.nwindows
    rwa [← (Layers.rearrange_perm _ : (l.sink k hk).all.Perm l.all).length_eq] at hn
  · simp [Layers.sink, Layers.rearrange, hc]
  · simp [Layers.sink, Layers.rearrange, ha, hz]

/-- The topmost center window leaves the slice above it to move down. -/
theorem Holds.lift (h : Holds s l) (hk : k ∈ l.center)
    (htop : Slice.read s.windows (s.firstabove - 1) = some k) :
    ∃ t, restack s k WM_STACK_ABOVE = some t ∧ t.resources = s.resources ∧ t.focus = s.focus ∧
      Holds t (l.lift k hk) := by
  obtain ⟨junk, hw⟩ := h.windows
  have hc := h.firstcenter
  have ha := h.firstabove
  have hpos := List.length_pos_of_mem hk
  obtain ⟨p, x, q, hpq, hi, hx⟩ := Slice.read_slice (a := l.below) (b := l.center)
    (c := l.above ++ junk) (i := s.firstabove - 1) (by omega) (by omega)
  have hall : s.windows = l.below ++ (l.center ++ (l.above ++ junk)) := by simp [hw, Layers.all]
  obtain rfl : k = x := Option.some.inj ((hall ▸ htop).symm.trans hx)
  have hlen : l.center.length = p.length + (q.length + 1) := by simp [hpq]
  obtain rfl : q = [] := List.eq_nil_of_length_eq_zero (by omega)
  have hp : k ∉ p := by
    have hn := l.nodup_center
    rw [hpq] at hn
    exact fun hmem => (List.nodup_append'.mp hn).2.2 hmem List.mem_cons_self
  have herase : l.center.erase k = p := by rw [hpq, Layers.erase_middle hp, List.append_nil]
  have hn := h.nwindows
  have hnlen : l.all.length = l.below.length + (l.center.length + l.above.length) := by
    simp [Layers.all]
  have hrounds : (s.nwindows - 1 - (s.firstabove - 1)).toNat = l.above.length := by omega
  have hclose := Slice.closeUp_write (a := l.below ++ p) (b := l.above) (c := junk) (x := k)
    (v := k) (i := s.firstabove - 1) (j := s.nwindows - 1) (by simp [hi])
    (by simp only [List.length_append]; omega)
  have hws : s.windows = (l.below ++ p) ++ k :: (l.above ++ junk) := by simp [hall, hpq]
  refine ⟨{ s with
    windows := (l.below ++ p) ++ (l.above ++ k :: junk), firstabove := s.firstabove - 1 },
    ?_, rfl, rfl, ⟨junk, ?_⟩, ?_, ?_, hc, ?_⟩
  · obtain ⟨ws, hup, hwrite⟩ := Option.bind_eq_some_iff.mp hclose
    rw [restack, if_neg (by decide), if_pos rfl, hrounds, hws, hup, Option.bind_some, hwrite]
    rfl
  · simp [Layers.lift, Layers.rearrange, Layers.all, herase]
  · have hroom := h.room
    rw [hws] at hroom
    simp only [List.length_append, List.length_cons] at hroom ⊢
    omega
  · rwa [← (Layers.rearrange_perm _ : (l.lift k hk).all.Perm l.all).length_eq] at hn
  · simp [Layers.lift, Layers.rearrange, herase, ha, hlen]
    omega

theorem stackOf_setWindow (hl : (s.resources k).id ≠ 0) :
    stackOf (s.setWindow k w') j = if j = k then some w'.attributes.stack else stackOf s j := by
  rw [Wm.setWindow, stackOf_modify, Resource.stack, if_neg hl]

/-- A center window in another section: it has left the center section. -/
theorem Layered.restacked {l' : Layers Nat} {u : Wm} (h : Layered s l) (stack : Nat)
    (hw : LiveWindow s k w) (hk : k ∈ l.center) (hs : w'.attributes.stack = stack)
    (hres : u.resources = (s.setWindow k w').resources) (hfoc : u.focus = s.focus)
    (hu : Holds u l') (hp : l'.all.Perm l.all) (hc : l'.center = l.center.erase k)
    (hb : ∀ j ∈ l'.below, j = k ∧ stack = WM_STACK_BELOW ∨ j ≠ k ∧ j ∈ l.below)
    (ha : ∀ j ∈ l'.above, j = k ∧ stack = WM_STACK_ABOVE ∨ j ≠ k ∧ j ∈ l.above) :
    ∃ t, (if k = u.focus then refocus u u.firstcenter else some u) = some t ∧
      t.resources = u.resources ∧ Layered t l' := by
  have hplace : ∀ t, t.resources = u.resources → ∀ j, stackOf t j =
      if j = k then some stack else stackOf s j := by
    intro t ht j
    rw [stackOf_congr (ht.trans hres), stackOf_setWindow hw.1, hs]
  have hlive := hw.stack
  have hfin : ∀ t, t.resources = u.resources → Holds t l' →
      (t.focus = WM_NULL ∨ t.focus ∈ l'.center) → Layered t l' := by
    intro t ht hh hf
    refine h.rearrange hh (fun j => hp.mem_iff) ?_ ?_ ?_ ?_ hf
    · intro j
      rw [hplace t ht]
      by_cases hj : j = k
      · rw [if_pos hj, hj, hlive]
        rfl
      · rw [if_neg hj]
    · intro j hj
      rw [hplace t ht]
      obtain ⟨rfl, rfl⟩ | ⟨hne, hj⟩ := hb j hj
      · rw [if_pos rfl]
      · rw [if_neg hne, h.below j hj]
    · intro j hj
      rw [hc] at hj
      obtain ⟨hne, hj⟩ := Layers.mem_erase_center.mp hj
      rw [hplace t ht, if_neg hne, h.center j hj]
    · intro j hj
      rw [hplace t ht]
      obtain ⟨rfl, rfl⟩ | ⟨hne, hj⟩ := ha j hj
      · rw [if_pos rfl]
      · rw [if_neg hne, h.above j hj]
  by_cases hf : k = u.focus
  · obtain ⟨id, href, hid⟩ := hu.refocus (i := u.firstcenter) (by omega)
    rw [if_pos hf, href]
    exact ⟨_, rfl, rfl, hfin _ rfl
      ⟨hu.windows, hu.room, hu.nwindows, hu.firstcenter, hu.firstabove⟩ hid⟩
  · rw [if_neg hf]
    refine ⟨u, rfl, rfl, hfin u rfl hu ?_⟩
    rw [hc, hfoc]
    exact h.focus.imp_right fun hmem => Layers.mem_erase_center.mpr ⟨fun he => hf (hfoc ▸ he.symm), hmem⟩

/-- The rest of the change, once the array is done. -/
theorem setStack_eq {stack : Nat} {u : Wm} (hid : (s.resources k).id = k) (hw : s.window k = some w)
    (hc : w.attributes.stack = WM_STACK_CENTER) (hne : stack ≠ WM_STACK_CENTER)
    (hu : restack (s.setWindow k { w with attributes := { w.attributes with stack := stack } }) k
      stack = some u) :
    setStack s k true stack =
      (if k = u.focus then refocus u u.firstcenter else some u).map fun t => (t, true) := by
  simp only [setStack, if_true, hw, Option.bind_some, hid, hc, ne_eq, not_true_eq_false, if_false, hu]
  by_cases hf : k = u.focus
  · rw [if_pos ⟨hf, hne⟩, if_pos hf]
  · rw [if_neg (fun h => hf h.1), if_neg hf]
    rfl

theorem setStack_spec {on : Bool} {stack : Nat} (hs : GoodTable s) (h : Stacked s)
    (hw : LiveWindow s k w)
    (hfit : on = true → w.attributes.stack = WM_STACK_CENTER → StackFits s k stack) :
    ∃ t ok, setStack s k on stack = some (t, ok) ∧ GoodTable t ∧ Stacked t := by
  cases on with
  | false => exact ⟨s, true, rfl, hs, h⟩
  | true =>
      have hid := hs.id_eq hw.1
      by_cases hcenter : w.attributes.stack = WM_STACK_CENTER
      · obtain ⟨l, h⟩ := h
        have hk : k ∈ l.center := h.mem_center (hw.stack.trans (congrArg some hcenter))
        have hgood : ∀ n, GoodTable (s.setWindow k
            { w with attributes := { w.attributes with stack := n } }) := fun n => hs.setWindow hw
        have hset : ∀ n, Holds (s.setWindow k
            { w with attributes := { w.attributes with stack := n } }) l := fun n => h.holds.modify
        have hb : ∀ j ∈ l.below, j ≠ k := fun j hj he => l.not_mem_center hj (he ▸ hk)
        have ha : ∀ j ∈ l.above, j ≠ k := fun j hj he => l.center_not_mem_above hk (he ▸ hj)
        obtain rfl | ⟨rfl, hone⟩ | ⟨rfl, htop⟩ := hfit rfl hcenter
        · refine ⟨s.setWindow k { w with attributes := { w.attributes with stack := 2 } }, true, ?_,
            hgood _, l, h.congr (.setWindow hw hcenter.symm)⟩
          simp [setStack, hw.window, hcenter, restack, WM_STACK_CENTER, WM_STACK_BELOW,
            WM_STACK_ABOVE]
        · obtain ⟨u, hu, hres, hfoc, hh⟩ := (hset WM_STACK_BELOW).sink hk hone
          obtain ⟨t, ht, htres, hl⟩ := h.restacked WM_STACK_BELOW hw hk rfl hres hfoc hh
            (Layers.rearrange_perm _) Layers.sink_center (fun j hj => by
              obtain hj | hj := List.mem_append.mp hj
              · exact .inr ⟨hb j hj, hj⟩
              · exact .inl ⟨List.mem_singleton.mp hj, rfl⟩) (fun j hj => .inr ⟨ha j hj, hj⟩)
          refine ⟨t, true, ?_, (goodTable_congr (htres.trans hres)).mpr (hgood _), _, hl⟩
          rw [setStack_eq hid hw.window hcenter (by decide) hu, ht]
          rfl
        · obtain ⟨u, hu, hres, hfoc, hh⟩ := (hset WM_STACK_ABOVE).lift hk htop
          obtain ⟨t, ht, htres, hl⟩ := h.restacked WM_STACK_ABOVE hw hk rfl hres hfoc hh
            (Layers.rearrange_perm _) Layers.lift_center (fun j hj => .inr ⟨hb j hj, hj⟩) (fun j hj => by
              obtain hj | hj := List.mem_append.mp hj
              · exact .inr ⟨ha j hj, hj⟩
              · exact .inl ⟨List.mem_singleton.mp hj, rfl⟩)
          refine ⟨t, true, ?_, (goodTable_congr (htres.trans hres)).mpr (hgood _), _, hl⟩
          rw [setStack_eq hid hw.window hcenter (by decide) hu, ht]
          rfl
      · refine ⟨s, false, ?_, hs, h⟩
        simp [setStack, hw.window, hcenter]

/-- The request gets to the place in the stack of a center window. -/
def Restacks (s : Wm) (id : Nat) (mask : AttrMask) (a : WinAttrs) : Prop :=
  mask.stack = true ∧ (mask.position = true ∨ mask.size = true → id = s.focus) ∧
    (mask.image = true → clsAfter s id mask a = some WM_CLASS_WINDOW) ∧
    stackOf s id = some WM_STACK_CENTER

theorem StackFits.congr {stack : Nat} (h : StackFits s k stack) (hs : SameStack s t) :
    StackFits t k stack := by
  unfold StackFits
  rw [hs.windows, hs.firstabove, hs.firstcenter]
  exact h

theorem SameStack.imaged {image : Nat} (hw : LiveWindow s k w) :
    SameStack s (s.imaged k w image) := by
  have hunref : SameStack s (s.unref w) := .unref
  have hset : SameStack (s.unref w) ((s.unref w).setWindow k
      { w with attributes := { w.attributes with image := image }, image := some image }) :=
    .setWindow hw.unref rfl
  exact (hunref.trans hset).trans .addRef

theorem windowResourceSetAttributes_spec (hs : GoodTable s) (h : Stacked s) (hw : LiveWindow s k w)
    (hfit : Restacks s k mask a → StackFits s k a.stack) :
    ∃ t ok, windowResourceSetAttributes s k a mask = some (t, ok) ∧ GoodTable t ∧ Stacked t := by
  rw [windowResourceSetAttributes_eq hw.window]
  have hid := hs.id_eq hw.1
  by_cases hplace : (mask.position = true ∨ mask.size = true) ∧ (s.resources k).id ≠ s.focus
  · rw [if_pos hplace]
    exact ⟨s, false, rfl, hs, h⟩
  rw [if_neg hplace]
  have hfocus : mask.position = true ∨ mask.size = true → k = s.focus := by
    intro hm
    rw [← hid]
    exact Decidable.byContradiction fun hne => hplace ⟨hm, hne⟩
  have hsame : SameStack s (s.placed k w a mask) := .setWindow hw rfl
  have hgood : GoodTable (s.placed k w a mask) := hs.setWindow hw
  have hlive : LiveWindow (s.placed k w a mask) k _ := hw.setWindow
  have hrest : ∀ t w', SameStack s t → GoodTable t → LiveWindow t k w' →
      (mask.image = true → clsAfter s k mask a = some WM_CLASS_WINDOW) →
      ∃ u ok, setStack t k mask.stack a.stack = some (u, ok) ∧ GoodTable u ∧ Stacked u := by
    intro t w' hst hgt hlt himage
    refine setStack_spec hgt (h.congr hst) hlt fun hon hcenter => ?_
    have hplace : stackOf s k = some WM_STACK_CENTER := by
      rw [← hst.places, hlt.stack, hcenter]
    exact (hfit ⟨hon, hfocus, himage, hplace⟩).congr hst
  cases hm : mask.image with
  | false => exact hrest _ _ hsame hgood hlive (by simp [hm])
  | true =>
      rw [setImage_eq hgood hlive.window, clsOf_placed hs hw]
      by_cases hcls : clsAfter s k mask a = some WM_CLASS_WINDOW
      · rw [if_pos hcls]
        obtain ⟨w', hlive', -⟩ := hlive.imaged a.image
        exact hrest _ w' (hsame.trans (.imaged hlive)) (hgood.imaged hlive) hlive' fun _ => hcls
      · rw [if_neg hcls]
        exact ⟨_, false, rfl, hgood, h.congr hsame⟩

/-! ## runs -/

/-- The server, from its start on. -/
def wmSystem (fb : Display) : System Wm WmReq := System.ofNext (· = Wm.init) (wmNext fb)

/-- A request for a place in the stack is one that the shift fits. -/
def Restackable (s : Wm) : WmReq → Prop
  | .setWindowAttributes id mask a => Restacks s id mask a → StackFits s id a.stack
  | _ => True

theorem goodTable_init : GoodTable Wm.init := fun _ h => absurd rfl h

theorem stacked_init : Stacked Wm.init := by
  refine ⟨.empty, ⟨List.replicate MAX_WINDOWS 0, rfl⟩, List.length_replicate, rfl, rfl, rfl, ?_, ?_,
    ?_, ?_, .inl rfl⟩
  · intro k
    simp [Layers.empty, stackOf, Wm.init, Resource.empty, Resource.stack]
  · simp [Layers.empty]
  · simp [Layers.empty]
  · simp [Layers.empty]

variable {fb : Display} {e : WmReq}

theorem LiveImage.stack {cls : Nat} {image : Image} (h : LiveImage s k cls image) :
    (s.resources k).stack = none := by
  rw [Resource.stack, if_neg h.1, h.2]

/-- **One request**: it ends well and keeps the windows in order. -/
theorem wmNext_stacked (fb : Display) (hs : GoodTable s) (h : Stacked s) (he : Restackable s e) :
    ∃ t, wmNext fb s e = some t ∧ GoodTable t ∧ Stacked t := by
  cases e with
  | createImage cls width height =>
      refine ⟨_, rfl, ?_⟩
      obtain hsame | ⟨k, hfree, hnull, hk, hnew⟩ := handleCreateImage_cases fb s cls width height
      · rw [hsame]
        exact ⟨hs, h⟩
      · rw [hnew]
        refine ⟨hs.withImage hk, h.congr (.modify ?_)⟩
        simp [Resource.stack, hfree]
  | destroyImage id =>
      refine ⟨_, rfl, ?_⟩
      obtain hsame | ⟨cls, image, hi, -, hd⟩ := handleDestroyImage_cases hs id
      · rw [hsame]
        exact ⟨hs, h⟩
      · rw [hd]
        exact ⟨hs.destroy, h.congr (.modify hi.stack.symm)⟩
  | resizeImage id width height =>
      obtain ⟨r, hr, hcases⟩ := handleResizeImage_cases fb hs id width height
      refine ⟨r.1, by rw [wmNext, hr, Option.map_some], ?_⟩
      obtain hsame | ⟨cls, image, hi, hd⟩ := hcases
      · rw [hsame]
        exact ⟨hs, h⟩
      · rw [hd]
        refine ⟨hs.setImage hi, h.congr (.modify ?_)⟩
        rw [hi.stack, Resource.stack, if_neg hi.1]
  | createWindow =>
      obtain ⟨t, r, hr, hgood, hst⟩ := windowResourceNew_spec hs h
      refine ⟨t, ?_, hgood, hst⟩
      cases r <;> simp [wmNext, handleCreateWindow, hr]
  | destroyWindow id =>
      rw [wmNext, handleDestroyWindow]
      cases hg : serverGetResource s id with
      | none => exact ⟨s, rfl, hs, h⟩
      | some k =>
          obtain ⟨rfl, hl⟩ := serverGetResource_some hg
          dsimp only
          split
          · exact ⟨s, rfl, hs, h⟩
          · next htype =>
              obtain ⟨w, hw⟩ := hs.liveWindow hl (Decidable.not_not.mp htype)
              obtain ⟨t, ht, hgood, hst⟩ := windowResourceFree_spec hs h hw
              rw [ht]
              exact ⟨t, rfl, hgood, hst⟩
  | setWindowAttributes id mask a =>
      rw [wmNext, handleSetWindowAttributes]
      cases hg : serverGetResource s id with
      | none => exact ⟨s, rfl, hs, h⟩
      | some k =>
          obtain ⟨rfl, hl⟩ := serverGetResource_some hg
          dsimp only
          split
          · exact ⟨s, rfl, hs, h⟩
          · next htype =>
              obtain ⟨w, hw⟩ := hs.liveWindow hl (Decidable.not_not.mp htype)
              obtain ⟨t, ok, ht, hgood, hst⟩ := windowResourceSetAttributes_spec hs h hw he
              rw [ht]
              exact ⟨t, rfl, hgood, hst⟩
  | event e => exact windowProcessEvent_spec hs h e

/-- The table and the windows stay in order in such a run. -/
theorem inOrder_of_reachable (h : (wmSystem fb).Reachable Restackable s) : GoodTable s ∧ Stacked s := by
  refine h.invariant (I := fun s => GoodTable s ∧ Stacked s) ?_ ?_
  · rintro s rfl
    exact ⟨goodTable_init, stacked_init⟩
  · intro s e t hi he hstep
    obtain ⟨u, hu, hgood, hst⟩ := wmNext_stacked fb hi.1 hi.2 he
    obtain rfl := Option.some.inj (hu.symm.trans hstep)
    exact ⟨hgood, hst⟩

/-- **The window stack**: in a run where every request for a place in the
stack is one that the shift fits, the windows are in order in every state,
and every such request ends well. -/
theorem stacked_of_reachable (h : (wmSystem fb).Reachable Restackable s) :
    Stacked s ∧ ∀ e, Restackable s e → ∃ t, wmNext fb s e = some t := by
  have hinv := inOrder_of_reachable h
  refine ⟨hinv.2, fun e he => ?_⟩
  obtain ⟨t, ht, -⟩ := wmNext_stacked fb hinv.1 hinv.2 he
  exact ⟨t, ht⟩

instance (s : Wm) (k stack : Nat) : Decidable (StackFits s k stack) := by
  unfold StackFits
  infer_instance

instance (s : Wm) (id : Nat) (mask : AttrMask) (a : WinAttrs) : Decidable (Restacks s id mask a) := by
  unfold Restacks
  infer_instance

instance (s : Wm) (e : WmReq) : Decidable (Restackable s e) :=
  match e with
  | .setWindowAttributes id mask a =>
      inferInstanceAs (Decidable (Restacks s id mask a → StackFits s id a.stack))
  | .createImage .. | .destroyImage _ | .resizeImage .. | .createWindow | .destroyWindow _
  | .event _ => isTrue trivial

/-- A framebuffer of 32-bit pixels. -/
def vesaDisplay : Display := ⟨640, 480, 4, ⟨16, 8⟩, ⟨8, 8⟩, ⟨0, 8⟩, fun _ => 0⟩

/-- A request for a place in the stack. -/
def stackReq (id stack : Nat) : WmReq :=
  .setWindowAttributes id ⟨false, false, false, false, true⟩ { stack := stack }

/-- Two windows; the upper one goes above the others. -/
theorem stacked_of_reachable_example : ∃ s, s.nwindows = 2 ∧ s.firstabove = 1 ∧
    Stacked s ∧ ∀ e, Restackable s e → ∃ t, wmNext vesaDisplay s e = some t := by
  have hrun : (System.run (fun s e => if decide (Restackable s e) then wmNext vesaDisplay s e else none)
      Wm.init [.createWindow, .createWindow, stackReq 2 WM_STACK_ABOVE]).map
        (fun s => (s.nwindows, s.firstabove)) = some (2, 1) := by decide +kernel
  obtain ⟨s, hs, hn⟩ := Option.map_eq_some_iff.mp hrun
  obtain ⟨hn, ha⟩ := Prod.mk.inj hn
  exact ⟨s, hn, ha, stacked_of_reachable ⟨_, rfl, System.steps_of_run_if _ (by simp) hs⟩⟩

/-- As soon as there is another center window, the loop leaves the array. -/
theorem belowLoop_none {fc i : Int} {n : Nat} {ws : List Nat} (h : fc < i) :
    belowLoop fc n i ws = none := by
  induction n generalizing i ws with
  | zero => rfl
  | succ n ih =>
      rw [belowLoop, if_pos h]
      cases Slice.move ws i (i - 1) with
      | none => rfl
      | some ws' => exact ih (by omega)

/-- With another center window no window goes below: the request does not end. -/
theorem wmNext_below_none (hg : serverGetResource s k = some k)
    (ht : (s.resources k).type = WM_RESOURCE_WINDOW) (hw : s.window k = some w)
    (hc : w.attributes.stack = WM_STACK_CENTER) (htwo : s.firstcenter < s.firstabove - 1) :
    wmNext fb s (stackReq k WM_STACK_BELOW) = none := by
  have hself : s.placed k w { stack := WM_STACK_BELOW } ⟨false, false, false, false, true⟩ = s :=
    Wm.setWindow_self hw
  have hrestack : ∀ w', restack (s.setWindow k w') (s.resources k).id WM_STACK_BELOW = none := by
    intro w'
    rw [restack, if_pos rfl, Wm.setWindow_firstcenter, Wm.setWindow_firstabove, belowLoop_none htwo]
    rfl
  simp [wmNext, stackReq, handleSetWindowAttributes, hg, ht, windowResourceSetAttributes_eq hw,
    hself, setImage, setStack, hw, hc, hrestack]

/-- Of two windows neither can go below. -/
theorem not_stacked_of_reachable :
    ¬ ∀ s, (wmSystem vesaDisplay).Reachable System.Any s →
      Stacked s ∧ ∀ e, ∃ t, wmNext vesaDisplay s e = some t := by
  intro h
  have hrun : (System.run (wmNext vesaDisplay) Wm.init [.createWindow, .createWindow]).map
      (fun s => (serverGetResource s 2, (s.resources 2).type, s.window 2, s.firstcenter,
        s.firstabove)) = some (some 2, WM_RESOURCE_WINDOW, some .fresh, 0, 2) := by
    decide +kernel
  obtain ⟨s, hs, hn⟩ := Option.map_eq_some_iff.mp hrun
  simp only [Prod.mk.injEq] at hn
  obtain ⟨hg, ht, hw, hc, ha⟩ := hn
  obtain ⟨-, hall⟩ := h s ⟨_, rfl, System.steps_of_run hs⟩
  obtain ⟨t, hnext⟩ := hall (stackReq 2 WM_STACK_BELOW)
  rw [wmNext_below_none hg ht hw rfl (by omega)] at hnext
  exact Option.some_ne_none t hnext.symm

end Eclair
