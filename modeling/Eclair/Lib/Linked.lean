import Mathlib.Logic.Function.Basic
import Mathlib.Data.List.Nodup

/-!
# Eclair.Lib.Linked

Intrusive doubly linked lists: nodes that live at addresses of a memory
and carry their own links.

`Seg addr cell mem p xs q` says that the memory links the elements `xs`,
in order, between the predecessor `p` and the successor `q`: the cell at
`addr x` is `cell x` of the address before it and the address after it.
Everything a program does to such a list is a split of `xs` by `seg_append`,
a change of a few cells and a join back; `Seg.update` carries the untouched
segments over the change.

`IsList` adds the two end pointers and that no node occurs twice.
-/

namespace Linked

variable {P α C : Type*}

/-- The address a segment starts at, when `q` follows it. -/
def front (addr : α → P) (xs : List α) (q : Option P) : Option P := (xs.head?.map addr).or q

/-- The address a segment ends at, when `p` precedes it. -/
def back (addr : α → P) (p : Option P) (xs : List α) : Option P := (xs.getLast?.map addr).or p

section ends

variable (addr : α → P) (p q : Option P) (x : α) (xs ys : List α)

@[simp] theorem front_nil : front addr [] q = q := by simp [front]

@[simp] theorem front_cons : front addr (x :: xs) q = some (addr x) := by simp [front]

@[simp] theorem back_nil : back addr p [] = p := by simp [back]

@[simp] theorem back_concat : back addr p (xs ++ [x]) = some (addr x) := by simp [back]

@[simp] theorem back_cons : back addr p (x :: xs) = back addr (some (addr x)) xs := by
  cases xs with
  | nil => simp [back]
  | cons y ys => simp [back, List.getLast?_cons]

@[simp] theorem front_append : front addr (xs ++ ys) q = front addr xs (front addr ys q) := by
  cases xs <;> simp

@[simp] theorem back_append : back addr p (xs ++ ys) = back addr (back addr p xs) ys := by
  induction xs generalizing p with
  | nil => simp
  | cons x xs ih => simp [ih]

/-- Either end of a segment is one of its elements or what lies outside. -/
theorem back_eq_or_mem : back addr p xs = p ∨ ∃ y ∈ xs, back addr p xs = some (addr y) := by
  rcases List.eq_nil_or_concat' xs with rfl | ⟨ys, y, rfl⟩
  · exact .inl (by simp)
  · exact .inr ⟨y, by simp, by simp⟩

end ends

/-- The memory links `xs` between `p` and `q`. -/
def Seg (addr : α → P) (cell : α → Option P → Option P → C) (mem : P → C) :
    Option P → List α → Option P → Prop
  | _, [], _ => True
  | p, x :: xs, q => mem (addr x) = cell x p (front addr xs q) ∧
      Seg addr cell mem (some (addr x)) xs q

section seg

variable {addr : α → P} {cell : α → Option P → Option P → C} {mem mem' : P → C}
variable {p q : Option P} {x : α} {xs ys : List α}

@[simp] theorem seg_nil : Seg addr cell mem p [] q := trivial

@[simp] theorem seg_cons :
    Seg addr cell mem p (x :: xs) q ↔
      mem (addr x) = cell x p (front addr xs q) ∧ Seg addr cell mem (some (addr x)) xs q :=
  Iff.rfl

/-- **Split and join**: a linked list is two linked segments that meet. -/
theorem seg_append :
    Seg addr cell mem p (xs ++ ys) q ↔
      Seg addr cell mem p xs (front addr ys q) ∧ Seg addr cell mem (back addr p xs) ys q := by
  induction xs generalizing p with
  | nil => simp
  | cons x xs ih => simp [ih, and_assoc]

/-- A segment only reads the cells of its own elements. -/
theorem Seg.congr (h : Seg addr cell mem p xs q)
    (hm : ∀ x ∈ xs, mem' (addr x) = mem (addr x)) : Seg addr cell mem' p xs q := by
  induction xs generalizing p with
  | nil => trivial
  | cons x xs ih =>
      rw [seg_cons] at h ⊢
      exact ⟨(hm x (by simp)).trans h.1, ih h.2 fun y hy => hm y (by simp [hy])⟩

/-- Writing a cell outside a segment leaves it linked. -/
theorem Seg.update [DecidableEq P] {a : P} {c : C} (h : Seg addr cell mem p xs q)
    (ha : ∀ x ∈ xs, addr x ≠ a) : Seg addr cell (Function.update mem a c) p xs q :=
  h.congr fun x hx => Function.update_of_ne (ha x hx) c mem

end seg

/-! ## pure link cells -/

/-- The two ends of a list. -/
structure Ends (P : Type*) where
  first : Option P := none
  last : Option P := none
  deriving DecidableEq, Repr

/-- The memory links `xs` with `ends` as its ends and no node twice; the
cells are the pairs of links. -/
structure IsList (mem : P → Option P × Option P) (ends : Ends P) (xs : List P) : Prop where
  first : ends.first = front id xs none
  last : ends.last = back id none xs
  seg : Seg id (fun _ p q => (p, q)) mem none xs none
  nodup : xs.Nodup

namespace IsList

variable {mem mem' : P → Option P × Option P} {ends : Ends P} {x : P} {xs ys : List P}

theorem nil : IsList mem ⟨none, none⟩ [] := ⟨rfl, rfl, trivial, List.nodup_nil⟩

theorem congr (h : IsList mem ends xs) (hm : ∀ x ∈ xs, mem' x = mem x) : IsList mem' ends xs :=
  ⟨h.first, h.last, h.seg.congr hm, h.nodup⟩

/-- The links of an element inside a list. -/
theorem links (h : IsList mem ends (xs ++ x :: ys)) :
    mem x = (back id none xs, front id ys none) := by
  have hs := h.seg
  rw [seg_append, seg_cons] at hs
  exact hs.2.1

/-- The element after `x`, as a walk over the list reads it. -/
theorem next_eq (h : IsList mem ends (xs ++ x :: ys)) : (mem x).2 = ys.head? := by
  rw [h.links]
  cases ys <;> simp

theorem first_eq (h : IsList mem ends xs) : ends.first = xs.head? := by
  rw [h.first]
  cases xs <;> simp

/-- The links determine what follows a node. -/
theorem seg_unique {p : Option P}
    (h : Seg id (fun _ p q => (p, q)) mem p xs none)
    (h' : Seg id (fun _ p q => (p, q)) mem p ys none) (hf : xs.head? = ys.head?) : xs = ys := by
  induction xs generalizing p ys with
  | nil => exact (List.head?_eq_none_iff.mp hf.symm).symm
  | cons x xs ih =>
      cases ys with
      | nil => simp at hf
      | cons y ys =>
          obtain rfl := Option.some.inj hf
          obtain ⟨hx, hs⟩ := h
          obtain ⟨hy, hs'⟩ := h'
          have hnext : front id xs none = front id ys none := (Prod.mk.inj (hx.symm.trans hy)).2
          refine congrArg _ (ih hs hs' ?_)
          simpa [front] using hnext

/-- **One list**: the ends and the links determine the elements. -/
theorem unique (h : IsList mem ends xs) (h' : IsList mem ends ys) : xs = ys :=
  seg_unique h.seg h'.seg (h.first_eq.symm.trans h'.first_eq)

/-- **Append at the end**: the new node points back to the old last one,
which points forward to it. -/
theorem concat (h : IsList mem ends xs) (hx : x ∉ xs)
    (hnew : mem' x = (ends.last, none))
    (hlast : ∀ l, ends.last = some l → mem' l = ((mem l).1, some x))
    (hother : ∀ y ∈ xs, ends.last ≠ some y → mem' y = mem y) :
    IsList mem' ⟨some (ends.first.getD x), some x⟩ (xs ++ [x]) := by
  have hnd : (xs ++ [x]).Nodup := by
    rw [List.nodup_append]
    exact ⟨h.nodup, by simp, fun a ha b hb => by grind⟩
  rcases List.eq_nil_or_concat' xs with rfl | ⟨ys, l, rfl⟩
  · have hf : ends.first = none := by simpa using h.first
    have hl : ends.last = none := by simpa using h.last
    exact ⟨by simp [hf], by simp, by simp [hnew, hl], hnd⟩
  · have hl : ends.last = some l := by simpa using h.last
    have hseg := h.seg
    rw [seg_append] at hseg
    have hys : ∀ y ∈ ys, mem' y = mem y := fun y hy =>
      hother y (by simp [hy]) (by
        rw [hl]
        intro he
        have hle : l = y := by simpa using he
        have hdis := (List.nodup_append.mp h.nodup).2.2
        exact hdis y hy l (by simp) hle.symm)
    refine ⟨?_, by simp, ?_, hnd⟩
    · rw [h.first]
      cases ys <;> simp
    · rw [List.append_assoc, seg_append]
      refine ⟨by simpa using hseg.1.congr hys, ?_⟩
      have hml : mem l = (back id none ys, none) := by simpa using hseg.2
      simp [hlast l hl, hml, hnew, hl]

/-- **Unlink**: the neighbours of the removed node point at each other. -/
theorem remove [DecidableEq P] (h : IsList mem ends (xs ++ x :: ys))
    (hprev : ∀ l, (mem x).1 = some l → mem' l = ((mem l).1, (mem x).2))
    (hnext : ∀ r, (mem x).2 = some r → mem' r = ((mem x).1, (mem r).2))
    (hother : ∀ y ∈ xs ++ ys, (mem x).1 ≠ some y → (mem x).2 ≠ some y → mem' y = mem y) :
    IsList mem' ⟨if ends.first = some x then (mem x).2 else ends.first,
      if ends.last = some x then (mem x).1 else ends.last⟩ (xs ++ ys) := by
  have hx := h.links
  have hnd := h.nodup
  have hnd' : (xs ++ ys).Nodup := hnd.sublist (by simp)
  have hxs : x ∉ xs := by grind
  have hys : x ∉ ys := by grind
  have hseg := h.seg
  rw [seg_append, seg_cons] at hseg
  have hp : (mem x).1 = back id none xs := by rw [hx]
  have hn : (mem x).2 = front id ys none := by rw [hx]
  refine ⟨?_, ?_, ?_, hnd'⟩
  · rw [h.first, hn]
    cases xs with
    | nil => simp
    | cons a as => simp [show a ≠ x by grind]
  · rw [h.last, hp]
    rcases List.eq_nil_or_concat' ys with rfl | ⟨bs, b, rfl⟩
    · simp
    · simp [show b ≠ x by grind]
  · rw [seg_append]
    constructor
    · -- the part before: only its last node changes
      rcases List.eq_nil_or_concat' xs with rfl | ⟨as, a, rfl⟩
      · trivial
      · have hpa : (mem x).1 = some a := by simpa using hp
        have has : ∀ y ∈ as, mem' y = mem y := fun y hy => hother y (by simp [hy])
          (by rw [hpa]; grind) (by
            rw [hn]
            cases ys with
            | nil => simp
            | cons z zs =>
                simp
                grind)
        have hs := hseg.1
        rw [seg_append] at hs ⊢
        refine ⟨by simpa using hs.1.congr has, ?_⟩
        have hma : mem a = (back id none as, some x) := by simpa using hs.2
        simp [hprev a hpa, hma, hn]
    · -- the part after: only its first node changes
      cases ys with
      | nil => trivial
      | cons b bs =>
          have hnb : (mem x).2 = some b := by simpa using hn
          have hbs : ∀ y ∈ bs, mem' y = mem y := fun y hy => hother y (by simp [hy])
            (by
              rw [hp]
              rcases List.eq_nil_or_concat' xs with rfl | ⟨as, a, rfl⟩
              · simp
              · simp only [back_concat, id, ne_eq, Option.some.injEq]
                grind)
            (by rw [hnb]; grind)
          have hs := hseg.2.2
          rw [seg_cons] at hs ⊢
          exact ⟨by rw [id, hnext b hnb, hp]; simp [show mem b = _ from hs.1], hs.2.congr hbs⟩

end IsList

end Linked
