import Eclair.Task.State

/-!
# Eclair.Task.Lists

The intrusive state lists of `kernel/task.c`: `task_add_to_list` and
`task_remove_from_list` on the links of the control blocks, and what they do
to the lists read as lists (`Lists`).  Both change links and list ends only
(`SameButLinks`).
-/

namespace Eclair

open Linked

/-- `if (p) p->next = n`. -/
def setNextOf (p n : Option TaskPtr) (s : Kernel) : Kernel :=
  match p with
  | some p => s.modTask p fun k => { k with next := n }
  | none => s

/-- `if (n) n->prev = p`. -/
def setPrevOf (n p : Option TaskPtr) (s : Kernel) : Kernel :=
  match n with
  | some n => s.modTask n fun k => { k with prev := p }
  | none => s

/-- `task_add_to_list`. -/
def taskAddToList (l : TaskState) (t : TaskPtr) (s : Kernel) : Kernel :=
  let list := s.lists l
  let s := s.modTask t fun k => { k with prev := list.last, next := none }
  let s := setNextOf list.last (some t) s
  s.setList l ⟨some (list.first.getD t), some t⟩

/-- `task_remove_from_list`. -/
def taskRemoveFromList (l : TaskState) (t : TaskPtr) (s : Kernel) : Kernel :=
  let list := s.lists l
  let s := s.setList l
    ⟨if list.first = some t then (s.task t).next else list.first,
      if list.last = some t then (s.task t).prev else list.last⟩
  let s := setNextOf (s.task t).prev (s.task t).next s
  let s := setPrevOf (s.task t).next (s.task t).prev s
  s.modTask t fun k => { k with prev := none, next := none }

/-- The fields of two tasks agree up to their links. -/
def SameTask (a b : Task) : Prop :=
  ∃ p n, a = { b with prev := p, next := n }

theorem SameTask.refl (a : Task) : SameTask a a := ⟨a.prev, a.next, rfl⟩

theorem SameTask.state {a b : Task} (h : SameTask a b) : a.state = b.state := by
  obtain ⟨p, n, rfl⟩ := h
  rfl

theorem SameTask.id {a b : Task} (h : SameTask a b) : a.id = b.id := by
  obtain ⟨p, n, rfl⟩ := h
  rfl

theorem SameTask.trans {a b c : Task} (h : SameTask a b) (h' : SameTask b c) : SameTask a c := by
  obtain ⟨p, n, rfl⟩ := h
  obtain ⟨p', n', rfl⟩ := h'
  exact ⟨p, n, rfl⟩

/-- Two states agree up to links and list ends. -/
structure SameButLinks (s' s : Kernel) : Prop where
  task : ∀ u, SameTask (s'.task u) (s.task u)
  taskmap : s'.taskmap = s.taskmap
  taskres : s'.taskres = s.taskres
  taskActive : s'.taskActive = s.taskActive
  timens : s'.timens = s.timens
  nlockpost : s'.nlockpost = s.nlockpost
  postponed : s'.postponed = s.postponed
  vfs : s'.vfs = s.vfs

namespace SameButLinks

variable {s s' s'' : Kernel}

theorem refl (s : Kernel) : SameButLinks s s :=
  ⟨fun _ => SameTask.refl _, rfl, rfl, rfl, rfl, rfl, rfl, rfl⟩

theorem trans (h : SameButLinks s'' s') (h' : SameButLinks s' s) : SameButLinks s'' s :=
  ⟨fun u => (h.task u).trans (h'.task u), h.taskmap.trans h'.taskmap, h.taskres.trans h'.taskres,
    h.taskActive.trans h'.taskActive, h.timens.trans h'.timens, h.nlockpost.trans h'.nlockpost,
    h.postponed.trans h'.postponed, h.vfs.trans h'.vfs⟩

theorem setList (s : Kernel) (l : TaskState) (e : Ends TaskPtr) :
    SameButLinks (s.setList l e) s :=
  ⟨fun _ => SameTask.refl _, rfl, rfl, rfl, rfl, rfl, rfl, rfl⟩

theorem modTask (s : Kernel) (t : TaskPtr) {f : Task → Task} (h : ∀ k, SameTask (f k) k) :
    SameButLinks (s.modTask t f) s := by
  refine ⟨fun u => ?_, rfl, rfl, rfl, rfl, rfl, rfl, rfl⟩
  rw [Kernel.modTask_task]
  split
  · exact h _
  · exact SameTask.refl _

end SameButLinks

theorem sameButLinks_setNextOf (p n : Option TaskPtr) (s : Kernel) :
    SameButLinks (setNextOf p n s) s := by
  cases p with
  | none => exact SameButLinks.refl _
  | some p => exact SameButLinks.modTask _ _ fun k => ⟨k.prev, n, rfl⟩

theorem sameButLinks_setPrevOf (n p : Option TaskPtr) (s : Kernel) :
    SameButLinks (setPrevOf n p s) s := by
  cases n with
  | none => exact SameButLinks.refl _
  | some n => exact SameButLinks.modTask _ _ fun k => ⟨p, k.next, rfl⟩

/-- Adding to a list changes links only. -/
theorem sameButLinks_taskAddToList (l : TaskState) (t : TaskPtr) (s : Kernel) :
    SameButLinks (taskAddToList l t s) s :=
  (SameButLinks.setList _ _ _).trans <| (sameButLinks_setNextOf _ _ _).trans <|
    SameButLinks.modTask _ _ fun _ => ⟨_, _, rfl⟩

/-- Removing from a list changes links only. -/
theorem sameButLinks_taskRemoveFromList (l : TaskState) (t : TaskPtr) (s : Kernel) :
    SameButLinks (taskRemoveFromList l t s) s :=
  (SameButLinks.modTask _ _ fun _ => ⟨_, _, rfl⟩).trans <|
    (sameButLinks_setPrevOf _ _ _).trans <| (sameButLinks_setNextOf _ _ _).trans <|
    SameButLinks.setList _ _ _

namespace SameButLinks

variable {s s' : Kernel} (h : SameButLinks s' s) (u : TaskPtr)
include h

theorem state : (s'.task u).state = (s.task u).state := (h.task u).state

theorem id : (s'.task u).id = (s.task u).id := (h.task u).id

end SameButLinks

section

variable (l : TaskState) (t u : TaskPtr) (s : Kernel)

@[simp] theorem taskAddToList_state :
    ((taskAddToList l t s).task u).state = (s.task u).state :=
  (sameButLinks_taskAddToList l t s).state u

@[simp] theorem taskAddToList_id : ((taskAddToList l t s).task u).id = (s.task u).id :=
  (sameButLinks_taskAddToList l t s).id u

@[simp] theorem taskAddToList_taskmap : (taskAddToList l t s).taskmap = s.taskmap :=
  (sameButLinks_taskAddToList l t s).taskmap

@[simp] theorem taskAddToList_taskActive : (taskAddToList l t s).taskActive = s.taskActive :=
  (sameButLinks_taskAddToList l t s).taskActive

@[simp] theorem taskAddToList_timens : (taskAddToList l t s).timens = s.timens :=
  (sameButLinks_taskAddToList l t s).timens

@[simp] theorem taskAddToList_nlockpost : (taskAddToList l t s).nlockpost = s.nlockpost :=
  (sameButLinks_taskAddToList l t s).nlockpost

@[simp] theorem taskAddToList_postponed : (taskAddToList l t s).postponed = s.postponed :=
  (sameButLinks_taskAddToList l t s).postponed

@[simp] theorem taskAddToList_vfs : (taskAddToList l t s).vfs = s.vfs :=
  (sameButLinks_taskAddToList l t s).vfs

@[simp] theorem taskRemoveFromList_state :
    ((taskRemoveFromList l t s).task u).state = (s.task u).state :=
  (sameButLinks_taskRemoveFromList l t s).state u

@[simp] theorem taskRemoveFromList_id :
    ((taskRemoveFromList l t s).task u).id = (s.task u).id :=
  (sameButLinks_taskRemoveFromList l t s).id u

@[simp] theorem taskRemoveFromList_taskmap : (taskRemoveFromList l t s).taskmap = s.taskmap :=
  (sameButLinks_taskRemoveFromList l t s).taskmap

@[simp] theorem taskRemoveFromList_taskActive :
    (taskRemoveFromList l t s).taskActive = s.taskActive :=
  (sameButLinks_taskRemoveFromList l t s).taskActive

@[simp] theorem taskRemoveFromList_timens : (taskRemoveFromList l t s).timens = s.timens :=
  (sameButLinks_taskRemoveFromList l t s).timens

@[simp] theorem taskRemoveFromList_nlockpost :
    (taskRemoveFromList l t s).nlockpost = s.nlockpost :=
  (sameButLinks_taskRemoveFromList l t s).nlockpost

@[simp] theorem taskRemoveFromList_postponed :
    (taskRemoveFromList l t s).postponed = s.postponed :=
  (sameButLinks_taskRemoveFromList l t s).postponed

@[simp] theorem taskRemoveFromList_vfs : (taskRemoveFromList l t s).vfs = s.vfs :=
  (sameButLinks_taskRemoveFromList l t s).vfs

end

/-! ## the lists as lists -/

/-- `xs l` are the tasks on `lists[l]`, in order, and no task is on two
lists. -/
structure Lists (s : Kernel) (xs : TaskState → List TaskPtr) : Prop where
  isList : ∀ l, IsList s.links (s.lists l) (xs l)
  apart : ∀ l l' t, t ∈ xs l → t ∈ xs l' → l = l'

/-- Links and ends determine the lists. -/
theorem Lists.congr {s s' : Kernel} {xs : TaskState → List TaskPtr} (h : Lists s xs)
    (hl : s'.lists = s.lists) (hm : ∀ t, s'.links t = s.links t) : Lists s' xs :=
  ⟨fun l => by rw [hl]; exact (h.isList l).congr fun t _ => hm t, h.apart⟩

@[simp] theorem links_setList (l : TaskState) (e : Ends TaskPtr) (s : Kernel) :
    (s.setList l e).links = s.links := rfl

theorem links_modTask (t u : TaskPtr) (f : Task → Task) (s : Kernel) :
    (s.modTask t f).links u =
      if u = t then ((f (s.task u)).prev, (f (s.task u)).next) else s.links u := by
  unfold Kernel.links
  rw [Kernel.modTask_task]
  split <;> rfl

theorem links_setNextOf (p n : Option TaskPtr) (u : TaskPtr) (s : Kernel) :
    (setNextOf p n s).links u = if p = some u then ((s.links u).1, n) else s.links u := by
  cases p with
  | none => rfl
  | some p =>
      simp only [setNextOf, links_modTask, Option.some.injEq, eq_comm (a := u)]
      rfl

theorem links_setPrevOf (n p : Option TaskPtr) (u : TaskPtr) (s : Kernel) :
    (setPrevOf n p s).links u = if n = some u then (p, (s.links u).2) else s.links u := by
  cases n with
  | none => rfl
  | some n =>
      simp only [setPrevOf, links_modTask, Option.some.injEq, eq_comm (a := u)]
      rfl

@[simp] theorem lists_setNextOf (p n : Option TaskPtr) (s : Kernel) :
    (setNextOf p n s).lists = s.lists := by
  cases p <;> rfl

@[simp] theorem lists_setPrevOf (n p : Option TaskPtr) (s : Kernel) :
    (setPrevOf n p s).lists = s.lists := by
  cases n <;> rfl

theorem links_taskAddToList (l : TaskState) (t u : TaskPtr) (s : Kernel)
    (ht : (s.lists l).last ≠ some t) :
    (taskAddToList l t s).links u =
      if u = t then ((s.lists l).last, none)
      else if (s.lists l).last = some u then ((s.links u).1, some t) else s.links u := by
  simp only [taskAddToList, links_setList, links_setNextOf, links_modTask]
  by_cases hu : u = t
  · subst hu
    simp [ht]
  · simp [hu]

/-- **Append**: adding a task that is on no list puts it at the end of one. -/
theorem Lists.add {s : Kernel} {xs : TaskState → List TaskPtr} (h : Lists s xs) {t : TaskPtr}
    (l : TaskState) (ht : ∀ l, t ∉ xs l) :
    Lists (taskAddToList l t s) (Function.update xs l (xs l ++ [t])) := by
  have hlast : (s.lists l).last ≠ some t := by
    rw [(h.isList l).last]
    rcases List.eq_nil_or_concat' (xs l) with hx | ⟨ys, y, hx⟩
    · simp [hx]
    · have hty := ht l
      rw [hx] at hty ⊢
      simp only [back_concat, id, ne_eq, Option.some.injEq]
      grind
  have hlinks := fun u => links_taskAddToList l t u s hlast
  have hends : (taskAddToList l t s).lists =
      Function.update s.lists l ⟨some ((s.lists l).first.getD t), some t⟩ := by
    simp [taskAddToList]
  constructor
  · intro l'
    rw [hends]
    by_cases hl' : l' = l
    · subst hl'
      simp only [Function.update_self]
      refine (h.isList l').concat (ht l') (by simp [hlinks]) ?_ ?_
      · intro p hp
        have hpt : p ≠ t := fun he => hlast (he ▸ hp)
        rw [hlinks, if_neg hpt, if_pos hp]
      · intro y hy hne
        have hyt : y ≠ t := fun he => ht l' (he ▸ hy)
        rw [hlinks, if_neg hyt, if_neg hne]
    · rw [Function.update_of_ne hl', Function.update_of_ne hl']
      refine (h.isList l').congr fun y hy => ?_
      have hyt : y ≠ t := fun he => ht l' (he ▸ hy)
      have hyl : (s.lists l).last ≠ some y := by
        rw [(h.isList l).last]
        intro he
        rcases back_eq_or_mem id none (xs l) with hb | ⟨z, hz, hb⟩
        · rw [hb] at he
          contradiction
        · rw [hb] at he
          obtain rfl : z = y := by simpa using he
          exact hl' (h.apart l' l z hy hz)
      rw [hlinks, if_neg hyt, if_neg hyl]
  · intro l₁ l₂ u h1 h2
    have ha := h.apart l₁ l₂ u
    have h1t := ht l₁
    have h2t := ht l₂
    by_cases e1 : l₁ = l <;> by_cases e2 : l₂ = l
    · rw [e1, e2]
    · subst e1
      rw [Function.update_self] at h1
      rw [Function.update_of_ne e2] at h2
      rcases List.mem_append.mp h1 with hm | hm
      · exact ha hm h2
      · exact absurd (List.mem_singleton.mp hm ▸ h2) h2t
    · subst e2
      rw [Function.update_self] at h2
      rw [Function.update_of_ne e1] at h1
      rcases List.mem_append.mp h2 with hm | hm
      · exact ha h1 hm
      · exact absurd (List.mem_singleton.mp hm ▸ h1) h1t
    · rw [Function.update_of_ne e1] at h1
      rw [Function.update_of_ne e2] at h2
      exact ha h1 h2

theorem links_taskRemoveFromList (l : TaskState) (t u : TaskPtr) (s : Kernel)
    (hp : (s.links t).1 ≠ some t)
    (hpn : ∀ p, (s.links t).1 = some p → (s.links t).2 ≠ some p) :
    (taskRemoveFromList l t s).links u =
      if u = t then (none, none)
      else if (s.links t).1 = some u then ((s.links u).1, (s.links t).2)
      else if (s.links t).2 = some u then ((s.links t).1, (s.links u).2)
      else s.links u := by
  unfold taskRemoveFromList
  dsimp only
  generalize hs₁ : s.setList l _ = s₁
  have h1 : s₁.links = s.links := by rw [← hs₁, links_setList]
  generalize hs₂ : setNextOf (s₁.task t).prev (s₁.task t).next s₁ = s₂
  have h2 : ∀ u, s₂.links u =
      if (s.links t).1 = some u then ((s.links u).1, (s.links t).2) else s.links u := by
    intro u
    rw [← hs₂, links_setNextOf, h1]
    rw [← h1]
    rfl
  have ht2 : s₂.links t = s.links t := by rw [h2, if_neg hp]
  rw [links_modTask, links_setPrevOf]
  by_cases hu : u = t
  · simp [hu]
  · rw [if_neg hu, if_neg hu]
    rw [show (s₂.task t).next = (s₂.links t).2 from rfl,
      show (s₂.task t).prev = (s₂.links t).1 from rfl, ht2, h2]
    by_cases h3 : (s.links t).1 = some u
    · rw [if_pos h3, if_pos h3, if_neg (hpn u h3)]
    · rw [if_neg h3, if_neg h3]

/-- **Remove**: a task leaves the list it is on. -/
theorem Lists.remove {s : Kernel} {xs : TaskState → List TaskPtr} (h : Lists s xs) {t : TaskPtr}
    {l : TaskState} {as bs : List TaskPtr} (ht : xs l = as ++ t :: bs) :
    Lists (taskRemoveFromList l t s) (Function.update xs l (as ++ bs)) := by
  have hl := h.isList l
  rw [ht] at hl
  have hlk := hl.links
  have hnd := hl.nodup
  have hp : ∀ p, (s.links t).1 = some p → p ∈ as := by
    intro p hp
    rw [hlk] at hp
    rcases List.eq_nil_or_concat' as with rfl | ⟨cs, c, rfl⟩
    · simp at hp
    · simp only [back_concat, id, Option.some.injEq] at hp
      simp [hp]
  have hn : ∀ n, (s.links t).2 = some n → n ∈ bs := by
    intro n hn
    rw [hlk] at hn
    cases bs with
    | nil => simp at hn
    | cons b bs =>
        simp only [front_cons, id, Option.some.injEq] at hn
        simp [hn]
  have hlinks := fun u => links_taskRemoveFromList l t u s
    (fun he => by have := hp t he; grind)
    (fun p h1 h2 => by have := hp p h1; have := hn p h2; grind)
  have hends : (taskRemoveFromList l t s).lists = Function.update s.lists l
      ⟨if (s.lists l).first = some t then (s.links t).2 else (s.lists l).first,
        if (s.lists l).last = some t then (s.links t).1 else (s.lists l).last⟩ := by
    simp [taskRemoveFromList, Kernel.links]
  constructor
  · intro l'
    rw [hends]
    by_cases hl' : l' = l
    · subst hl'
      simp only [Function.update_self]
      refine hl.remove ?_ ?_ ?_
      · intro p h1
        have hpt : p ≠ t := by have := hp p h1; grind
        rw [hlinks, if_neg hpt, if_pos h1]
      · intro n h1
        have hnt : n ≠ t := by have := hn n h1; grind
        have hpn : (s.links t).1 ≠ some n := fun h2 => by
          have := hp n h2
          have := hn n h1
          grind
        rw [hlinks, if_neg hnt, if_neg hpn, if_pos h1]
      · intro y hy h1 h2
        have hyt : y ≠ t := by grind
        rw [hlinks, if_neg hyt, if_neg h1, if_neg h2]
    · rw [Function.update_of_ne hl', Function.update_of_ne hl']
      refine (h.isList l').congr fun y hy => ?_
      have hout : ∀ z ∈ xs l, y ≠ z := fun z hz he => hl' (h.apart l' l y hy (he ▸ hz))
      rw [ht] at hout
      have hyt : y ≠ t := hout t (by simp)
      have h1 : (s.links t).1 ≠ some y := fun h1 => hout y (by simp [hp y h1]) rfl
      have h2 : (s.links t).2 ≠ some y := fun h2 => hout y (by simp [hn y h2]) rfl
      rw [hlinks, if_neg hyt, if_neg h1, if_neg h2]
  · intro l₁ l₂ u h1 h2
    have hsub : ∀ l', u ∈ Function.update xs l (as ++ bs) l' → u ∈ xs l' := by
      intro l' hm
      by_cases e : l' = l
      · subst e
        rw [Function.update_self] at hm
        rw [ht]
        grind
      · rwa [Function.update_of_ne e] at hm
    exact h.apart l₁ l₂ u (hsub l₁ h1) (hsub l₂ h2)

end Eclair
