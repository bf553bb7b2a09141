import Mathlib.Data.List.Nodup
import Mathlib.Data.List.Perm.Basic

/-!
# Eclair.Lib.Layers

A stack cut in three sections.

A `Layers` is a list without duplicates, from bottom to top, in a section
below, one in the center and one above; that there are none is a field, so
that every operation keeps it.  New elements go on top of the center
section; an element of it can be raised to its top, or leave it for one of
the others.
-/

universe u

/-- A stack in three sections, from bottom to top. -/
structure Layers (α : Type u) where
  below : List α
  center : List α
  above : List α
  nodup : (below ++ (center ++ above)).Nodup

namespace Layers

variable {α : Type u} {l : Layers α} {x y : α} {a b : List α}

/-- All elements. -/
def all (l : Layers α) : List α := l.below ++ (l.center ++ l.above)

/-- Nothing in it. -/
def empty : Layers α := ⟨[], [], [], List.nodup_nil⟩

/-- The sections with the elements in another order. -/
def rearrange (l : Layers α) (b c d : List α) (h : (b ++ (c ++ d)).Perm l.all) : Layers α :=
  ⟨b, c, d, h.nodup_iff.mpr l.nodup⟩

@[simp] theorem mem_all : x ∈ l.all ↔ x ∈ l.below ∨ x ∈ l.center ∨ x ∈ l.above := by simp [all]

theorem not_mem_center (h : x ∈ l.below) : x ∉ l.center := by
  have hd := (List.nodup_append'.mp l.nodup).2.2
  exact fun hc => hd h (List.mem_append_left _ hc)

theorem not_mem_above (h : x ∈ l.below) : x ∉ l.above := by
  have hd := (List.nodup_append'.mp l.nodup).2.2
  exact fun hc => hd h (List.mem_append_right _ hc)

theorem center_not_mem_above (h : x ∈ l.center) : x ∉ l.above := by
  have hc := (List.nodup_append'.mp l.nodup).2.1
  exact fun ha => (List.nodup_append'.mp hc).2.2 h ha

theorem nodup_center : l.center.Nodup :=
  (List.nodup_append'.mp (List.nodup_append'.mp l.nodup).2.1).1

theorem rearrange_perm {b c d : List α} (h : (b ++ (c ++ d)).Perm l.all) :
    (l.rearrange b c d h).all.Perm l.all := h

/-- A new element, on top of the center section. -/
def add (l : Layers α) (x : α) (hx : x ∉ l.all) : Layers α where
  below := l.below
  center := l.center ++ [x]
  above := l.above
  nodup := by
    have hp : (l.below ++ (l.center ++ [x] ++ l.above)).Perm (x :: l.all) := by
      rw [List.append_assoc, List.singleton_append, ← List.append_assoc]
      refine List.perm_middle.trans ?_
      rw [List.append_assoc]
      rfl
    exact hp.nodup_iff.mpr (List.nodup_cons.mpr ⟨hx, l.nodup⟩)

variable [DecidableEq α]

/-- Without an element. -/
def erase (l : Layers α) (x : α) : Layers α where
  below := l.below.erase x
  center := l.center.erase x
  above := l.above.erase x
  nodup := by
    have hs : (l.below.erase x ++ (l.center.erase x ++ l.above.erase x)).Sublist
        (l.below ++ (l.center ++ l.above)) :=
      List.erase_sublist.append (List.erase_sublist.append List.erase_sublist)
    exact hs.nodup l.nodup

/-- An element of the center section on top of it. -/
def raise (l : Layers α) (x : α) (hx : x ∈ l.center) : Layers α :=
  l.rearrange l.below (l.center.erase x ++ [x]) l.above <|
    List.Perm.append_left _ <| List.Perm.append_right _ <|
      (List.perm_append_singleton x _).trans (List.perm_cons_erase hx).symm

/-- An element of the center section to the section above. -/
def lift (l : Layers α) (x : α) (hx : x ∈ l.center) : Layers α :=
  l.rearrange l.below (l.center.erase x) (l.above ++ [x]) <| List.Perm.append_left _ <| by
    rw [← List.append_assoc]
    refine (List.perm_append_singleton x _).trans ?_
    rw [← List.cons_append]
    exact List.Perm.append_right _ (List.perm_cons_erase hx).symm

/-- An element of the center section to the section below. -/
def sink (l : Layers α) (x : α) (hx : x ∈ l.center) : Layers α :=
  l.rearrange (l.below ++ [x]) (l.center.erase x) l.above <| by
    rw [List.append_assoc, List.singleton_append, ← List.cons_append]
    exact List.Perm.append_left _ (List.Perm.append_right _ (List.perm_cons_erase hx).symm)

theorem mem_raise {hx : x ∈ l.center} : y ∈ (l.raise x hx).center ↔ y ∈ l.center := by
  have hp := (List.perm_append_singleton x (l.center.erase x)).trans (List.perm_cons_erase hx).symm
  exact hp.mem_iff

theorem sink_center {hx : x ∈ l.center} : (l.sink x hx).center = l.center.erase x := rfl
theorem lift_center {hx : x ∈ l.center} : (l.lift x hx).center = l.center.erase x := rfl

theorem erase_middle (hx : x ∉ a) : (a ++ x :: b).erase x = a ++ b := by
  rw [List.erase_append_right _ hx, List.erase_cons_head]

/-- Where an element stands, and what its removal does to the sections. -/
theorem exists_split (hx : x ∈ l.all) : ∃ p q, l.all = p ++ x :: q ∧ x ∉ p ∧
    (l.erase x).all = p ++ q ∧
    (l.erase x).below.length =
      (if p.length < l.below.length then l.below.length - 1 else l.below.length) ∧
    (l.erase x).below.length + (l.erase x).center.length =
      if p.length < l.below.length + l.center.length then l.below.length + l.center.length - 1
      else l.below.length + l.center.length := by
  obtain hb | hc | ha := mem_all.mp hx
  · obtain ⟨p, q, hpq, hp⟩ := List.eq_append_cons_of_mem hb
    have hc := l.not_mem_center hb
    have ha := l.not_mem_above hb
    have hlen : l.below.length = p.length + (q.length + 1) := by simp [hpq]
    refine ⟨p, q ++ (l.center ++ l.above), by simp [all, hpq], hp, ?_, ?_, ?_⟩
    · simp [all, erase, hpq, erase_middle hp, List.erase_of_not_mem hc, List.erase_of_not_mem ha]
    · rw [if_pos (by omega)]
      simp [erase, hpq, erase_middle hp]
    · rw [if_pos (by omega)]
      simp [erase, hpq, erase_middle hp, List.erase_of_not_mem hc]
      omega
  · obtain ⟨p, q, hpq, hp⟩ := List.eq_append_cons_of_mem hc
    have hb : x ∉ l.below := fun hb => l.not_mem_center hb hc
    have ha := l.center_not_mem_above hc
    have hlen : l.center.length = p.length + (q.length + 1) := by simp [hpq]
    refine ⟨l.below ++ p, q ++ l.above, by simp [all, hpq], by simp [hb, hp], ?_, ?_, ?_⟩
    · simp [all, erase, hpq, erase_middle hp, List.erase_of_not_mem hb, List.erase_of_not_mem ha]
    · rw [List.length_append, if_neg (by omega)]
      simp [erase, List.erase_of_not_mem hb]
    · rw [List.length_append, if_pos (by omega)]
      simp [erase, hpq, erase_middle hp, List.erase_of_not_mem hb]
      omega
  · obtain ⟨p, q, hpq, hp⟩ := List.eq_append_cons_of_mem ha
    have hb : x ∉ l.below := fun hb => l.not_mem_above hb ha
    have hc : x ∉ l.center := fun hc => l.center_not_mem_above hc ha
    refine ⟨l.below ++ (l.center ++ p), q, by simp [all, hpq], by simp [hb, hc, hp], ?_, ?_, ?_⟩
    · simp [all, erase, hpq, erase_middle hp, List.erase_of_not_mem hb, List.erase_of_not_mem hc]
    · rw [List.length_append, if_neg (by omega)]
      simp [erase, List.erase_of_not_mem hb]
    · rw [List.length_append, List.length_append, if_neg (by omega)]
      simp [erase, List.erase_of_not_mem hb, List.erase_of_not_mem hc]

theorem mem_erase_below : y ∈ (l.erase x).below ↔ y ≠ x ∧ y ∈ l.below :=
  (List.nodup_append'.mp l.nodup).1.mem_erase_iff

theorem mem_erase_center : y ∈ (l.erase x).center ↔ y ≠ x ∧ y ∈ l.center :=
  l.nodup_center.mem_erase_iff

theorem mem_erase_above : y ∈ (l.erase x).above ↔ y ≠ x ∧ y ∈ l.above :=
  (List.nodup_append'.mp (List.nodup_append'.mp l.nodup).2.1).2.1.mem_erase_iff

theorem mem_erase : y ∈ (l.erase x).all ↔ y ≠ x ∧ y ∈ l.all := by
  simp only [mem_all, mem_erase_below, mem_erase_center, mem_erase_above]
  tauto

end Layers

/-! ## what is on top -/

namespace Painter

universe v

variable {P : Type u} {V : Type v} {c : P → V} {p : P} {ls : List (P → Option V)}

/-- Layers painted on `c`, from bottom to top; a layer covers some places. -/
def paint (c : P → V) (ls : List (P → Option V)) : P → V :=
  ls.foldl (fun c l p => (l p).getD (c p)) c

/-- The topmost layer that covers a place is seen there. -/
def top (ls : List (P → Option V)) (p : P) : Option V := ls.reverse.findSome? fun l => l p

theorem top_cons (l : P → Option V) (ls : List (P → Option V)) :
    top (l :: ls) p = (top ls p).or (l p) := by
  rw [top, List.reverse_cons, List.findSome?_append, top]
  cases h : l p <;> simp [h]

theorem top_append (ls ls' : List (P → Option V)) : top (ls ++ ls') p = (top ls' p).or (top ls p) := by
  rw [top, List.reverse_append, List.findSome?_append]
  rfl

/-- **Painting** shows the topmost layer, and what was there where none covers it. -/
theorem paint_apply (c : P → V) (ls : List (P → Option V)) : paint c ls p = (top ls p).getD (c p) := by
  induction ls generalizing c with
  | nil => rfl
  | cons l ls ih =>
      have hrest := ih fun p => (l p).getD (c p)
      rw [paint] at hrest ⊢
      rw [List.foldl_cons, hrest, top_cons]
      cases top ls p <;> rfl

end Painter
