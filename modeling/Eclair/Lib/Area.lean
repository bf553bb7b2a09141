import Mathlib.Data.Multiset.Bind
import Mathlib.Data.Multiset.Range

/-!
# Eclair.Lib.Area

What an area of `w` by `h` holds, as a multiset: one item `f i j` for every
column `i` and every row `j`.

An area is cut into two side by side or one above the other (`add_left`,
`add_right`), so that a cover with rectangles is proved rectangle by
rectangle.  That it is exact shows in the count: with `f` injective on the
area, nothing is in it twice (`nodup`).
-/

universe u v

namespace Area

variable {α : Type u} {β : Type v} {f g : Nat → Nat → α} {w w' h h' : Nat}

/-- The items of an area. -/
def items (w h : Nat) (f : Nat → Nat → α) : Multiset α :=
  (Multiset.range h).bind fun j => (Multiset.range w).map fun i => f i j

@[simp] theorem items_zero_left : items 0 h f = 0 := by
  simp [items]

@[simp] theorem items_zero_right : items w 0 f = 0 := by
  simp [items]

theorem items_congr (heq : ∀ i < w, ∀ j < h, f i j = g i j) : items w h f = items w h g := by
  refine Multiset.bind_congr fun j hj => Multiset.map_congr rfl fun i hi => ?_
  exact heq i (Multiset.mem_range.mp hi) j (Multiset.mem_range.mp hj)

theorem map_items (k : α → β) : (items w h f).map k = items w h fun i j => k (f i j) := by
  simp [items, Multiset.map_bind]

/-- Two areas side by side. -/
theorem items_add_left : items (w + w') h f = items w h f + items w' h fun i j => f (w + i) j := by
  simp [items, Multiset.range_add, Multiset.bind_add]

/-- Two areas one above the other. -/
theorem items_add_right :
    items w (h + h') f = items w h f + items w h' fun i j => f i (h + j) := by
  simp [items, Multiset.range_add, Multiset.add_bind, Multiset.bind_map]

/-- Nothing is in an area twice. -/
theorem nodup_items
    (hinj : ∀ i < w, ∀ j < h, ∀ i' < w, ∀ j' < h, f i j = f i' j' → i = i' ∧ j = j') :
    (items w h f).Nodup := by
  refine Multiset.nodup_bind.mpr ⟨fun j hj => ?_, ?_⟩
  · refine (Multiset.nodup_range w).map_on fun i hi i' hi' heq => ?_
    rw [Multiset.mem_range] at hi hi' hj
    exact (hinj i hi j hj i' hi' j hj heq).1
  · refine ⟨List.range h, rfl, List.pairwise_iff_getElem.mpr fun j j' hj hj' hlt => ?_⟩
    simp only [List.getElem_range, List.length_range] at hj hj' ⊢
    refine Multiset.disjoint_left.mpr fun {a} ha ha' => ?_
    obtain ⟨i, hi, rfl⟩ := Multiset.mem_map.mp ha
    obtain ⟨i', hi', heq⟩ := Multiset.mem_map.mp ha'
    rw [Multiset.mem_range] at hi hi'
    have := (hinj i hi j hj i' hi' j' hj' heq.symm).2
    omega

end Area
