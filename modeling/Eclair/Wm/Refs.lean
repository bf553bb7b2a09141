import Mathlib.Algebra.BigOperators.Group.Finset.Piecewise
import Eclair.Wm.Stack

/-!
# Eclair.Wm.Refs

The images that windows use, and the counts of their users.

`TableStep named fb s t` is what a request can do to the table of resources:
every request is one such step (`wmNext_step`).  As long as none of them
names a window where an image is expected (`named`), each step keeps the
counts.
-/

namespace Eclair

/-- The image of a live window: its id and the resource it points to. -/
def Resource.imageField (r : Resource) : Option (Nat × Option Nat) :=
  if r.id = 0 then none
  else match r.data with
    | some (.window w) => some (w.attributes.image, w.image)
    | _ => none

/-- The class of a live image. -/
def Resource.imageCls (r : Resource) : Option Nat :=
  if r.id = 0 then none
  else match r.data with
    | some (.image cls _) => some cls
    | _ => none

/-- The image of the window in the slot `k`. -/
def imageField (s : Wm) (k : Nat) : Option (Nat × Option Nat) := (s.resources k).imageField

/-- The class of the image in the slot `k`. -/
def imageCls (s : Wm) (k : Nat) : Option Nat := (s.resources k).imageCls

/-- The window in the slot `k` uses the resource `j`. -/
def Uses (s : Wm) (j k : Nat) : Prop := (imageField s k).bind (·.2) = some j

instance (s : Wm) (j k : Nat) : Decidable (Uses s j k) := inferInstanceAs (Decidable (_ = _))

/-- How many windows use the resource `j`. -/
def users (s : Wm) (j : Nat) : Nat := ((Finset.range MAX_RESOURCES).filter (Uses s j)).card

/-- The images of windows are as they should be. -/
structure Refs (s : Wm) : Prop where
  /-- The image of a window is null, or a live image of the class of windows. -/
  image : ∀ k id p, imageField s k = some (id, p) →
    id = WM_NULL ∧ p = none ∨ p = some id ∧ imageCls s id = some WM_CLASS_WINDOW
  /-- Such an image counts its users. -/
  counted : ∀ j, imageCls s j = some WM_CLASS_WINDOW → (s.resources j).refcnt = users s j

/-- A change of windows: of anything but the image, or of the image.  With
`named`, the image is one. -/
inductive WindowStep (named : Prop) (s : Wm) : Wm → Prop
  | window (t : Wm) (k : Nat) (w w' : Window) (hw : LiveWindow s k w)
      (hid : w'.attributes.image = w.attributes.image) (hp : w'.image = w.image)
      (h : t.resources = (s.setWindow k w').resources) : WindowStep named s t
  | image (t : Wm) (k image : Nat) (w : Window) (hw : LiveWindow s k w)
      (hi : named → imageCls s image = some WM_CLASS_WINDOW)
      (h : t.resources = (s.imaged k w image).resources) : WindowStep named s t

/-- A change of the table of resources. -/
inductive TableStep (named : Prop) (fb : Display) (s : Wm) : Wm → Prop
  | newImage (t : Wm) (k cls : Nat) (image : Image) (hfree : (s.resources k).id = 0)
      (hsize : image.Sized fb)
      (hk : k ≠ WM_NULL) (hlt : k < MAX_RESOURCES)
      (h : t.resources =
        (s.modify k fun _ => ⟨k, WM_RESOURCE_IMAGE, 0, some (.image cls image)⟩).resources) :
      TableStep named fb s t
  | freeImage (t : Wm) (k cls : Nat) (image : Image) (hi : LiveImage s k cls image)
      (href : (s.resources k).refcnt = 0)
      (h : t.resources = (serverDestroyResource s k).resources) : TableStep named fb s t
  | resizeImage (t : Wm) (k cls : Nat) (image image' : Image) (hi : LiveImage s k cls image)
      (hsize : image.Sized fb → image'.Sized fb)
      (h : t.resources = (s.modify k fun r => { r with data := some (.image cls image') }).resources) :
      TableStep named fb s t
  | newWindow (t : Wm) (k : Nat) (hfree : (s.resources k).id = 0)
      (hk : k ≠ WM_NULL) (hlt : k < MAX_RESOURCES)
      (h : t.resources =
        (s.modify k fun _ => ⟨k, WM_RESOURCE_WINDOW, 0, some (.window .fresh)⟩).resources) :
      TableStep named fb s t
  | freeWindow (t : Wm) (k : Nat) (w : Window) (hw : LiveWindow s k w)
      (h : t.resources = (serverDestroyResource (s.unref w) k).resources) : TableStep named fb s t
  | windows (t u : Wm) (hu : Relation.ReflTransGen (WindowStep named) s u)
      (h : t.resources = u.resources) : TableStep named fb s t

variable {s t : Wm} {k j l cls : Nat} {w w' : Window} {image : Image} {f : Resource → Resource}
variable {d : Int} {fb : Display} {e : WmReq} {named : Prop}

/-! ## what a change does to the fields -/

theorem imageField_modify : imageField (s.modify k f) j =
    if j = k then (f (s.resources k)).imageField else imageField s j := by
  by_cases hj : j = k
  · rw [if_pos hj, hj, imageField, Wm.modify_same]
  · rw [if_neg hj, imageField, Wm.modify_other hj, imageField]

theorem imageCls_modify : imageCls (s.modify k f) j =
    if j = k then (f (s.resources k)).imageCls else imageCls s j := by
  by_cases hj : j = k
  · rw [if_pos hj, hj, imageCls, Wm.modify_same]
  · rw [if_neg hj, imageCls, Wm.modify_other hj, imageCls]

theorem LiveWindow.imageField (h : LiveWindow s k w) :
    imageField s k = some (w.attributes.image, w.image) := by
  rw [Eclair.imageField, Resource.imageField, if_neg h.1, h.2]

theorem LiveWindow.imageCls (h : LiveWindow s k w) : imageCls s k = none := by
  rw [Eclair.imageCls, Resource.imageCls, if_neg h.1, h.2]

theorem LiveImage.imageField (h : LiveImage s k cls image) : imageField s k = none := by
  rw [Eclair.imageField, Resource.imageField, if_neg h.1, h.2]

theorem LiveImage.imageCls (h : LiveImage s k cls image) : imageCls s k = some cls := by
  rw [Eclair.imageCls, Resource.imageCls, if_neg h.1, h.2]

theorem imageField_free (h : (s.resources k).id = 0) : imageField s k = none := by
  rw [imageField, Resource.imageField, if_pos h]

theorem imageCls_free (h : (s.resources k).id = 0) : imageCls s k = none := by
  rw [imageCls, Resource.imageCls, if_pos h]

theorem live_of_imageField (h : imageField s k ≠ none) : (s.resources k).id ≠ 0 :=
  fun h0 => h (imageField_free h0)

/-- A count moves at one place only. -/
theorem card_filter_change {p q : Nat → Prop} [DecidablePred p] [DecidablePred q] {n : Nat}
    (hk : k < n) (h : ∀ l, l ≠ k → (p l ↔ q l)) :
    ((Finset.range n).filter q).card + (if p k then 1 else 0) =
      ((Finset.range n).filter p).card + if q k then 1 else 0 := by
  have hrest : ∑ l ∈ (Finset.range n).erase k, (if q l then 1 else 0) =
      ∑ l ∈ (Finset.range n).erase k, if p l then 1 else 0 := by
    refine Finset.sum_congr rfl fun l hl => ?_
    simp only [h l (Finset.ne_of_mem_erase hl)]
  rw [Finset.card_filter, Finset.card_filter, ← Finset.add_sum_erase _ _ (Finset.mem_range.mpr hk),
    ← Finset.add_sum_erase _ (fun l => if p l then 1 else 0) (Finset.mem_range.mpr hk), hrest]
  omega

theorem users_change (hk : k < MAX_RESOURCES) (h : ∀ l, l ≠ k → imageField t l = imageField s l) :
    users t j + (if Uses s j k then 1 else 0) = users s j + if Uses t j k then 1 else 0 := by
  refine card_filter_change hk fun l hl => ?_
  rw [Uses, Uses, h l hl]

theorem users_congr (h : ∀ l, imageField t l = imageField s l) : users t j = users s j := by
  have hu : ∀ l, Uses t j l ↔ Uses s j l := fun l => by rw [Uses, Uses, h]
  rw [users, users, Finset.filter_congr fun l _ => hu l]

/-- Only an image of the class of windows is used. -/
theorem Refs.users_eq_zero (h : Refs s) (hc : imageCls s j ≠ some WM_CLASS_WINDOW) :
    users s j = 0 := by
  rw [users, Finset.card_eq_zero, Finset.filter_eq_empty_iff]
  intro l _ hu
  obtain ⟨⟨id, p⟩, hf, hp⟩ := Option.bind_eq_some_iff.mp hu
  obtain ⟨-, rfl⟩ | ⟨rfl, hcls⟩ := h.image l id p hf
  · exact absurd hp (by simp)
  · obtain rfl := Option.some.inj hp
    exact hc hcls

theorem users_pos (hk : k < MAX_RESOURCES) (h : Uses s j k) : 0 < users s j :=
  Finset.card_pos.mpr ⟨k, Finset.mem_filter.mpr ⟨Finset.mem_range.mpr hk, h⟩⟩

/-! ## the steps keep the counts -/

/-- Nothing that counts is changed. -/
theorem Refs.congr (h : Refs s) (hf : ∀ l, imageField t l = imageField s l)
    (hc : ∀ l, imageCls t l = imageCls s l)
    (hr : ∀ l, imageCls s l = some WM_CLASS_WINDOW → (t.resources l).refcnt = (s.resources l).refcnt) :
    Refs t where
  image k id p hk := by
    rw [hc]
    exact h.image k id p ((hf k).symm.trans hk)
  counted j hj := by
    rw [hc] at hj
    rw [hr j hj, h.counted j hj, users_congr hf]

theorem imageField_congr (h : t.resources = s.resources) : imageField t l = imageField s l := by
  rw [imageField, h, imageField]

theorem imageCls_congr (h : t.resources = s.resources) : imageCls t l = imageCls s l := by
  rw [imageCls, h, imageCls]

theorem Refs.newImage (h : Refs s) (hfree : (s.resources k).id = 0)
    (ht : t.resources =
      (s.modify k fun _ => ⟨k, WM_RESOURCE_IMAGE, 0, some (.image cls image)⟩).resources) :
    Refs t := by
  have hf : ∀ l, imageField t l = imageField s l := by
    intro l
    rw [imageField_congr ht, imageField_modify]
    by_cases hl : l = k
    · rw [if_pos hl, hl, imageField_free hfree]
      simp [Resource.imageField]
    · rw [if_neg hl]
  have hc : ∀ l, l ≠ k → imageCls t l = imageCls s l := by
    intro l hl
    rw [imageCls_congr ht, imageCls_modify, if_neg hl]
  have hnone := imageCls_free hfree
  refine ⟨fun l id p hl => ?_, fun j hj => ?_⟩
  · obtain hnull | ⟨hp, hcls⟩ := h.image l id p ((hf l).symm.trans hl)
    · exact .inl hnull
    · refine .inr ⟨hp, ?_⟩
      rw [hc id fun he => ?_, hcls]
      rw [he, hnone] at hcls
      contradiction
  · rw [users_congr hf]
    by_cases hjk : j = k
    · rw [hjk, h.users_eq_zero (by simp [hnone]), ht, Wm.modify_same]
      rfl
    · rw [hc j hjk] at hj
      rw [← h.counted j hj, ht, Wm.modify_other hjk]

theorem Refs.freeImage (hs : GoodTable s) (h : Refs s) (hi : LiveImage s k cls image)
    (href : (s.resources k).refcnt = 0)
    (ht : t.resources = (serverDestroyResource s k).resources) : users s k = 0 ∧ Refs t := by
  have hzero : users s k = 0 := by
    by_cases hcls : cls = WM_CLASS_WINDOW
    · have hcount := h.counted k (by rw [hi.imageCls, hcls])
      omega
    · exact h.users_eq_zero (by rw [hi.imageCls]; simpa using hcls)
  have hf : ∀ l, imageField t l = imageField s l := by
    intro l
    rw [imageField_congr ht, serverDestroyResource, imageField_modify]
    by_cases hl : l = k
    · rw [if_pos hl, hl, hi.imageField]
      rfl
    · rw [if_neg hl]
  have hc : ∀ l, l ≠ k → imageCls t l = imageCls s l := by
    intro l hl
    rw [imageCls_congr ht, serverDestroyResource, imageCls_modify, if_neg hl]
  have hk : imageCls t k = none := by
    rw [imageCls_congr ht, serverDestroyResource, imageCls_modify, if_pos rfl]
    rfl
  refine ⟨hzero, fun l id p hl => ?_, fun j hj => ?_⟩
  · have hl' := (hf l).symm.trans hl
    obtain hnull | ⟨hp, hcls⟩ := h.image l id p hl'
    · exact .inl hnull
    · refine .inr ⟨hp, ?_⟩
      rw [hc id fun he => ?_, hcls]
      -- a user would have been counted
      have huse : Uses s k l := by rw [Uses, hl', ← he, ← hp]; rfl
      have hlive := live_of_imageField (s := s) (k := l) (by rw [hl']; simp)
      have hpos := users_pos (hs l hlive).2.1 huse
      omega
  · have hjk : j ≠ k := by
      intro he
      rw [he, hk] at hj
      exact absurd hj (by simp)
    rw [hc j hjk] at hj
    rw [users_congr hf, ← h.counted j hj, ht, serverDestroyResource, Wm.modify_other hjk]

theorem Refs.newWindow (h : Refs s) (hfree : (s.resources k).id = 0) (hk : k ≠ WM_NULL)
    (hlt : k < MAX_RESOURCES)
    (ht : t.resources =
      (s.modify k fun _ => ⟨k, WM_RESOURCE_WINDOW, 0, some (.window .fresh)⟩).resources) :
    Refs t := by
  have hnew : imageField t k = some (WM_NULL, none) := by
    rw [imageField_congr ht, imageField_modify, if_pos rfl]
    exact if_neg hk
  have hf : ∀ l, l ≠ k → imageField t l = imageField s l := by
    intro l hl
    rw [imageField_congr ht, imageField_modify, if_neg hl]
  have hc : ∀ l, imageCls t l = imageCls s l := by
    intro l
    rw [imageCls_congr ht, imageCls_modify]
    by_cases hl : l = k
    · rw [if_pos hl, hl, imageCls_free hfree]
      exact if_neg hk
    · rw [if_neg hl]
  have husers : ∀ j, users t j = users s j := by
    intro j
    have hs : ¬ Uses s j k := by simp [Uses, imageField_free hfree]
    have ht : ¬ Uses t j k := by simp [Uses, hnew]
    have hchange := users_change (j := j) hlt hf
    rw [if_neg hs, if_neg ht] at hchange
    omega
  refine ⟨fun l id p hl => ?_, fun j hj => ?_⟩
  · rw [hc]
    by_cases hlk : l = k
    · rw [hlk, hnew] at hl
      obtain ⟨rfl, rfl⟩ := Prod.mk.inj (Option.some.inj hl)
      exact .inl ⟨rfl, rfl⟩
    · exact h.image l id p ((hf l hlk).symm.trans hl)
  · have hjk : j ≠ k := by
      intro he
      rw [hc, he, imageCls_free hfree] at hj
      exact absurd hj (by simp)
    rw [hc] at hj
    rw [husers, ← h.counted j hj, ht, Wm.modify_other hjk]

/-- The count of a window's image goes down. -/
theorem refcnt_unref (hw : LiveWindow s k w) : ((s.unref w).resources j).refcnt =
    (s.resources j).refcnt - if Uses s j k then 1 else 0 := by
  have huse : Uses s j k ↔ w.image = some j := by rw [Uses, hw.imageField]; rfl
  unfold Wm.unref
  cases hi : w.image with
  | none => simp [huse, hi]
  | some i =>
      by_cases hj : j = i
      · rw [if_pos (huse.mpr (hi.trans (congrArg some hj.symm))), hj]
        simp [Wm.addRef, Int.sub_eq_add_neg]
      · rw [if_neg fun hu => hj (Option.some.inj (hi.symm.trans (huse.mp hu))).symm]
        simp [Wm.addRef, Wm.modify_other hj]

theorem imageField_addRef : imageField (s.addRef k d) l = imageField s l := by
  rw [Wm.addRef, imageField_modify]
  by_cases hl : l = k
  · rw [if_pos hl, hl]
    rfl
  · rw [if_neg hl]

theorem imageCls_addRef : imageCls (s.addRef k d) l = imageCls s l := by
  rw [Wm.addRef, imageCls_modify]
  by_cases hl : l = k
  · rw [if_pos hl, hl]
    rfl
  · rw [if_neg hl]

theorem imageField_unref : imageField (s.unref w) l = imageField s l := by
  unfold Wm.unref
  split
  · exact imageField_addRef
  · rfl

theorem imageCls_unref : imageCls (s.unref w) l = imageCls s l := by
  unfold Wm.unref
  split
  · exact imageCls_addRef
  · rfl

theorem Refs.freeWindow (hs : GoodTable s) (h : Refs s) (hw : LiveWindow s k w)
    (ht : t.resources = (serverDestroyResource (s.unref w) k).resources) : Refs t := by
  have hk : imageField t k = none := by
    rw [imageField_congr ht, serverDestroyResource, imageField_modify, if_pos rfl]
    rfl
  have hf : ∀ l, l ≠ k → imageField t l = imageField s l := by
    intro l hl
    rw [imageField_congr ht, serverDestroyResource, imageField_modify, if_neg hl, imageField_unref]
  have hc : ∀ l, imageCls t l = imageCls s l := by
    intro l
    rw [imageCls_congr ht, serverDestroyResource, imageCls_modify]
    by_cases hl : l = k
    · rw [if_pos hl, hl, hw.imageCls]
      rfl
    · rw [if_neg hl, imageCls_unref]
  refine ⟨fun l id p hl => ?_, fun j hj => ?_⟩
  · rw [hc]
    by_cases hlk : l = k
    · rw [hlk, hk] at hl
      exact absurd hl (by simp)
    · exact h.image l id p ((hf l hlk).symm.trans hl)
  · rw [hc] at hj
    have hjk : j ≠ k := by
      intro he
      rw [he, hw.imageCls] at hj
      exact absurd hj (by simp)
    have hchange := users_change (j := j) (hs k hw.1).2.1 hf
    rw [if_neg (show ¬ Uses t j k by simp [Uses, hk])] at hchange
    rw [ht, serverDestroyResource, Wm.modify_other hjk, refcnt_unref hw, h.counted j hj]
    split at hchange
    · next hu =>
        rw [if_pos hu]
        omega
    · next hu =>
        rw [if_neg hu]
        omega

/-- The window itself is changed, its image is not. -/
theorem Refs.window (h : Refs s) (hw : LiveWindow s k w)
    (hid : w'.attributes.image = w.attributes.image) (hp : w'.image = w.image)
    (ht : t.resources = (s.setWindow k w').resources) : Refs t := by
  refine h.congr (fun l => ?_) (fun l => ?_) fun l hl => ?_
  · rw [imageField_congr ht, Wm.setWindow, imageField_modify]
    by_cases hl : l = k
    · rw [if_pos hl, hl, hw.imageField, ← hid, ← hp]
      exact if_neg hw.1
    · rw [if_neg hl]
  · rw [imageCls_congr ht, Wm.setWindow, imageCls_modify]
    by_cases hl : l = k
    · rw [if_pos hl, hl, hw.imageCls, Resource.imageCls, if_neg hw.1]
    · rw [if_neg hl]
  · have hlk : l ≠ k := by
      intro he
      rw [he, hw.imageCls] at hl
      exact absurd hl (by simp)
    rw [ht, Wm.setWindow, Wm.modify_other hlk]

/-- The window gets another image. -/
theorem Refs.imaged {i : Nat} (hs : GoodTable s) (h : Refs s) (hw : LiveWindow s k w)
    (hi : imageCls s i = some WM_CLASS_WINDOW)
    (ht : t.resources = (s.imaged k w i).resources) : Refs t := by
  have hk : imageField t k = some (i, some i) := by
    rw [imageField_congr ht, Wm.imaged, imageField_addRef, Wm.setWindow, imageField_modify, if_pos rfl]
    exact if_neg hw.unref.1
  have hf : ∀ l, l ≠ k → imageField t l = imageField s l := by
    intro l hl
    rw [imageField_congr ht, Wm.imaged, imageField_addRef, Wm.setWindow, imageField_modify,
      if_neg hl, imageField_unref]
  have hc : ∀ l, imageCls t l = imageCls s l := by
    intro l
    rw [imageCls_congr ht, Wm.imaged, imageCls_addRef, Wm.setWindow, imageCls_modify]
    by_cases hl : l = k
    · rw [if_pos hl, hl, hw.imageCls, Resource.imageCls, if_neg hw.unref.1]
    · rw [if_neg hl, imageCls_unref]
  have huse : ∀ j, Uses t j k ↔ i = j := by
    intro j
    simp [Uses, hk]
  refine ⟨fun l id p hl => ?_, fun j hj => ?_⟩
  · rw [hc]
    by_cases hlk : l = k
    · rw [hlk, hk] at hl
      obtain ⟨rfl, rfl⟩ := Prod.mk.inj (Option.some.inj hl)
      exact .inr ⟨rfl, hi⟩
    · exact h.image l id p ((hf l hlk).symm.trans hl)
  · rw [hc] at hj
    have hjk : j ≠ k := by
      intro he
      rw [he, hw.imageCls] at hj
      exact absurd hj (by simp)
    have hchange := users_change (j := j) (hs k hw.1).2.1 hf
    have hcount : (t.resources j).refcnt =
        ((s.resources j).refcnt - if Uses s j k then 1 else 0) + if Uses t j k then 1 else 0 := by
      rw [ht, Wm.imaged, ← refcnt_unref hw]
      by_cases hij : j = i
      · rw [if_pos ((huse j).mpr hij.symm), Wm.addRef, hij, Wm.modify_same, Wm.setWindow,
          Wm.modify_other (hij ▸ hjk)]
      · rw [if_neg fun hu => hij ((huse j).mp hu).symm, Wm.addRef, Wm.modify_other hij, Wm.setWindow,
          Wm.modify_other hjk, Int.add_zero]
    rw [hcount, h.counted j hj]
    by_cases hu : Uses s j k <;> by_cases hu' : Uses t j k <;>
      simp only [hu, hu', if_true, if_false] at hchange ⊢ <;> omega

/-! ## requests are steps -/

theorem WindowStep.good (hs : GoodTable s) (h : WindowStep named s t) : GoodTable t := by
  cases h with
  | window k w w' hw hid hp h => exact (goodTable_congr h).mpr (hs.setWindow hw)
  | image k i w hw hi h => exact (goodTable_congr h).mpr (hs.imaged hw)

theorem WindowStep.refs (hs : GoodTable s) (hr : Refs s) (h : WindowStep True s t) : Refs t := by
  cases h with
  | window k w w' hw hid hp h => exact hr.window hw hid hp h
  | image k i w hw hi h => exact hr.imaged hs hw (hi trivial) h

/-- A live image stays one. -/
theorem WindowStep.live (h : WindowStep named s t) (hi : imageCls s j ≠ none) :
    imageCls t j ≠ none := by
  have hkeep : ∀ {u : Wm} {k w w'}, LiveWindow u k w → imageCls u j ≠ none →
      imageCls (u.setWindow k w') j ≠ none := by
    intro u k w w' hw hu
    rw [Wm.setWindow, imageCls_modify]
    by_cases hj : j = k
    · rw [hj, hw.imageCls] at hu
      contradiction
    · rwa [if_neg hj]
  cases h with
  | window k w w' hw hid hp h =>
      rw [imageCls_congr h]
      exact hkeep hw hi
  | image k i w hw hcls h =>
      rw [imageCls_congr h, Wm.imaged, imageCls_addRef]
      exact hkeep hw.unref (by rwa [imageCls_unref])

theorem WindowStep.sound {u : Wm} (h : Relation.ReflTransGen (WindowStep True) s u) (hs : GoodTable s)
    (hr : Refs s) : GoodTable u ∧ Refs u ∧ ∀ j, imageCls s j ≠ none → imageCls u j ≠ none := by
  induction h with
  | refl => exact ⟨hs, hr, fun _ hj => hj⟩
  | tail _ hstep ih =>
      obtain ⟨hgood, hrefs, hlive⟩ := ih
      exact ⟨hstep.good hgood, hstep.refs hgood hrefs, fun j hj => hstep.live (hlive j hj)⟩

/-- **One step**: the table stays good and the counts stay right, and an
image that is freed has no users. -/
theorem TableStep.sound (hs : GoodTable s) (hr : Refs s) (h : TableStep True fb s t) :
    GoodTable t ∧ Refs t ∧
      ∀ j, imageCls s j ≠ none → imageCls t j = none → users s j = 0 := by
  cases h with
  | newImage k cls image hfree hsize hk hlt h =>
      refine ⟨(goodTable_congr h).mpr (hs.withImage hlt), hr.newImage hfree h, fun j hj hnone => ?_⟩
      rw [imageCls_congr h, imageCls_modify] at hnone
      split at hnone
      · next hjk =>
          rw [hjk, imageCls_free hfree] at hj
          contradiction
      · exact absurd hnone hj
  | freeImage k cls image hi href h =>
      obtain ⟨hzero, hrefs⟩ := hr.freeImage hs hi href h
      refine ⟨(goodTable_congr h).mpr hs.destroy, hrefs, fun j hj hnone => ?_⟩
      rw [imageCls_congr h, serverDestroyResource, imageCls_modify] at hnone
      split at hnone
      · next hjk => rw [hjk, hzero]
      · exact absurd hnone hj
  | resizeImage k cls image image' hi hsize h =>
      have hc : ∀ l, imageCls t l = imageCls s l := by
        intro l
        rw [imageCls_congr h, imageCls_modify]
        by_cases hl : l = k
        · rw [if_pos hl, hl, hi.imageCls]
          exact if_neg hi.1
        · rw [if_neg hl]
      refine ⟨(goodTable_congr h).mpr (hs.setImage hi), hr.congr (fun l => ?_) hc fun l _ => ?_,
        fun j hj hnone => absurd ((hc j).symm.trans hnone) hj⟩
      · rw [imageField_congr h, imageField_modify]
        by_cases hl : l = k
        · rw [if_pos hl, hl, hi.imageField]
          exact if_neg hi.1
        · rw [if_neg hl]
      · rw [h]
        by_cases hl : l = k
        · rw [hl, Wm.modify_same]
        · rw [Wm.modify_other hl]
  | newWindow k hfree hk hlt h =>
      have hgood : GoodTable (s.withWindow k []) := hs.withWindow hlt
      refine ⟨(goodTable_congr h).mpr ((goodTable_congr rfl).mp hgood), hr.newWindow hfree hk hlt h,
        fun j hj hnone => ?_⟩
      rw [imageCls_congr h, imageCls_modify] at hnone
      split at hnone
      · next hjk =>
          rw [hjk, imageCls_free hfree] at hj
          contradiction
      · exact absurd hnone hj
  | freeWindow k w hw h =>
      refine ⟨(goodTable_congr h).mpr hs.unref.destroy, hr.freeWindow hs hw h, fun j hj hnone => ?_⟩
      rw [imageCls_congr h, serverDestroyResource, imageCls_modify] at hnone
      split at hnone
      · next hjk =>
          rw [hjk, hw.imageCls] at hj
          contradiction
      · rw [imageCls_unref] at hnone
        exact absurd hnone hj
  | windows u hu h =>
      obtain ⟨hgood, hrefs, hlive⟩ := WindowStep.sound hu hs hr
      refine ⟨(goodTable_congr h).mpr hgood, hrefs.congr (fun _ => imageField_congr h)
        (fun _ => imageCls_congr h) (fun _ _ => by rw [h]), fun j hj hnone => ?_⟩
      rw [imageCls_congr h] at hnone
      exact absurd hnone (hlive j hj)

theorem restack_resources {id stack : Nat} (h : restack s id stack = some t) :
    t.resources = s.resources := by
  unfold restack at h
  split at h
  · obtain ⟨ws, -, h⟩ := Option.bind_eq_some_iff.mp h
    obtain ⟨ws', -, rfl⟩ := Option.map_eq_some_iff.mp h
    rfl
  · split at h
    · obtain ⟨ws, -, h⟩ := Option.bind_eq_some_iff.mp h
      obtain ⟨ws', -, rfl⟩ := Option.map_eq_some_iff.mp h
      rfl
    · rw [Option.some.inj h]

theorem raise_resources {i : Nat} (h : raise s i = some t) : t.resources = s.resources := by
  obtain ⟨id, -, h⟩ := Option.bind_eq_some_iff.mp h
  split at h
  · obtain ⟨ws, -, h⟩ := Option.bind_eq_some_iff.mp h
    obtain ⟨ws', -, rfl⟩ := Option.map_eq_some_iff.mp h
    rfl
  · rw [Option.some.inj h]

/-- Only the place changes in the table. -/
theorem setStack_resources {on ok : Bool} {stack : Nat} (hw : s.window k = some w)
    (h : setStack s k on stack = some (t, ok)) : ∃ w', w'.attributes.image = w.attributes.image ∧
      w'.image = w.image ∧ t.resources = (s.setWindow k w').resources := by
  have hself : s.resources = (s.setWindow k w).resources := by rw [Wm.setWindow_self hw]
  cases on with
  | false =>
      obtain ⟨rfl, -⟩ := Prod.mk.inj (Option.some.inj h)
      exact ⟨w, rfl, rfl, hself⟩
  | true =>
      simp only [setStack, if_true, hw, Option.bind_some] at h
      split at h
      · obtain ⟨rfl, -⟩ := Prod.mk.inj (Option.some.inj h)
        exact ⟨w, rfl, rfl, hself⟩
      · obtain ⟨u, hu, h⟩ := Option.bind_eq_some_iff.mp h
        refine ⟨{ w with attributes := { w.attributes with stack := stack } }, rfl, rfl,
          Eq.trans ?_ (restack_resources hu)⟩
        split at h
        · obtain ⟨v, hv, h⟩ := Option.map_eq_some_iff.mp h
          obtain ⟨rfl, -⟩ := Prod.mk.inj h
          exact refocus_resources hv
        · obtain ⟨rfl, -⟩ := Prod.mk.inj (Option.some.inj h)
          rfl

/-- A request names a window where it should name an image, and its class
reads as that of windows. -/
def NamesWindow (s : Wm) (id : Nat) (mask : AttrMask) (a : WinAttrs) : Prop :=
  mask.image = true ∧ (mask.position = true ∨ mask.size = true → id = s.focus) ∧
    (stackOf s id).isSome = true ∧ (stackOf s a.image).isSome = true ∧
    clsAfter s id mask a = some WM_CLASS_WINDOW

/-- No window is named where an image is expected. -/
def NamesImages (s : Wm) : WmReq → Prop
  | .setWindowAttributes id mask a => ¬ NamesWindow s id mask a
  | _ => True

variable {mask : AttrMask} {a : WinAttrs}

theorem WindowStep.of_setStack {on ok : Bool} {stack : Nat} (hw : LiveWindow s k w)
    (h : setStack s k on stack = some (t, ok)) : WindowStep named s t := by
  obtain ⟨w', hid, hp, ht⟩ := setStack_resources hw.window h
  exact .window t k w w' hw hid hp ht

/-- What is no window and reads as an image of windows is one. -/
theorem imageCls_of_clsOf {id : Nat} (hs : GoodTable s) (hc : clsOf s id = some cls)
    (hn : ¬ (stackOf s id).isSome = true) : imageCls s id = some cls := by
  obtain ⟨i, hg, hcls⟩ := Option.bind_eq_some_iff.mp hc
  obtain ⟨rfl, hl⟩ := serverGetResource_some hg
  obtain ⟨-, -, ⟨-, cls', image, hd⟩ | ⟨-, w, hd⟩⟩ := hs i hl
  · rw [clsField, hd] at hcls
    obtain rfl := Option.some.inj hcls
    exact LiveImage.imageCls ⟨hl, hd⟩
  · exact absurd (by rw [LiveWindow.stack ⟨hl, hd⟩]; rfl) hn

theorem WindowStep.of_setAttributes {ok : Bool} (hs : GoodTable s) (hw : LiveWindow s k w)
    (hn : named → ¬ NamesWindow s k mask a)
    (h : windowResourceSetAttributes s k a mask = some (t, ok)) :
    Relation.ReflTransGen (WindowStep named) s t := by
  rw [windowResourceSetAttributes_eq hw.window] at h
  split at h
  · obtain ⟨rfl, -⟩ := Prod.mk.inj (Option.some.inj h)
    exact .refl
  · next hplace =>
      have hlive : LiveWindow (s.placed k w a mask) k _ := hw.setWindow
      have hgood : GoodTable (s.placed k w a mask) := hs.setWindow hw
      have hfirst : WindowStep named s (s.placed k w a mask) :=
        .window _ k w { w with attributes := w.attributes.placed a mask } hw rfl rfl rfl
      cases hm : mask.image with
      | false =>
          rw [hm] at h
          exact .tail (.single hfirst) (.of_setStack hlive h)
      | true =>
          rw [hm, setImage_eq hgood hlive.window, clsOf_placed hs hw] at h
          split at h
          · next hcls =>
              have hnot : named → ¬ (stackOf s a.image).isSome = true := by
                intro hnamed hwin
                refine hn hnamed ⟨hm, fun hp => ?_, by rw [hw.stack]; rfl, hwin, hcls⟩
                rw [← hs.id_eq hw.1]
                exact Decidable.byContradiction fun hne => hplace ⟨hp, hne⟩
              have hsame : SameStack s (s.placed k w a mask) := .setWindow hw rfl
              have himage : named →
                  imageCls (s.placed k w a mask) a.image = some WM_CLASS_WINDOW := by
                intro hnamed
                refine imageCls_of_clsOf hgood (by rw [clsOf_placed hs hw, hcls]) ?_
                rw [hsame.places]
                exact hnot hnamed
              obtain ⟨w', hlive', -⟩ := hlive.imaged a.image
              exact .tail (.tail (.single hfirst) (.image _ k a.image _ hlive himage rfl))
                (.of_setStack hlive' h)
          · obtain ⟨rfl, -⟩ := Prod.mk.inj (Option.some.inj h)
            exact .single hfirst

theorem modify_congr {u : Wm} (h : u.resources = s.resources) :
    (u.modify k f).resources = (s.modify k f).resources := by simp only [Wm.modify, h]

theorem unref_congr {u : Wm} (h : u.resources = s.resources) :
    (u.unref w).resources = (s.unref w).resources := by
  unfold Wm.unref
  split
  · exact modify_congr h
  · exact h

theorem TableStep.of_sendEvent {u : Wm} {wid : Nat} {ev : WmEvent} (hu : u.resources = s.resources)
    (h : sendEvent u wid ev = some t) : TableStep named fb s t := by
  unfold sendEvent at h
  cases hg : serverGetResource u wid with
  | none =>
      rw [hg] at h
      obtain rfl := Option.some.inj h
      exact .windows _ s .refl hu
  | some k =>
      obtain ⟨rfl, hl⟩ := serverGetResource_some hg
      rw [hg] at h
      obtain ⟨w, hw, rfl⟩ := Option.map_eq_some_iff.mp h
      have hw' : LiveWindow s k w := by
        rw [LiveWindow, ← hu]
        exact ⟨hl, Wm.window_eq_some.mp hw⟩
      refine .windows _ (s.setWindow k (pushEvent w ev)) (.single (.window _ k w (pushEvent w ev) hw'
        rfl rfl rfl)) ?_
      exact modify_congr hu

/-- **Requests are steps**; `named` is that no window is named for an image. -/
theorem wmNext_step (hs : GoodTable s) (he : named → NamesImages s e) (h : wmNext fb s e = some t) :
    TableStep named fb s t := by
  cases e with
  | createImage cls width height =>
      obtain rfl := Option.some.inj h
      obtain hsame | ⟨k, hfree, hnull, hlt, hnew⟩ := handleCreateImage_cases fb s cls width height
      · exact .windows _ s .refl (by rw [hsame])
      · exact .newImage _ k cls _ hfree (sized_imageInit ..) hnull hlt (by rw [hnew])
  | destroyImage id =>
      obtain rfl := Option.some.inj h
      obtain hsame | ⟨cls, image, hi, href, hd⟩ := handleDestroyImage_cases hs id
      · exact .windows _ s .refl (by rw [hsame])
      · exact .freeImage _ id cls image hi href (by rw [hd])
  | resizeImage id width height =>
      obtain ⟨r, hr, hcases⟩ := handleResizeImage_cases fb hs id width height
      rw [wmNext, hr] at h
      obtain rfl : r.1 = t := Option.some.inj h
      obtain hsame | ⟨cls, image, hi, hd⟩ := hcases
      · exact .windows _ s .refl (by rw [hsame])
      · exact .resizeImage _ id cls image _ hi (·.resize width height) (by rw [hd])
  | createWindow =>
      obtain ⟨r, hr, h⟩ := Option.map_eq_some_iff.mp h
      obtain ⟨p, hp, rfl⟩ := Option.map_eq_some_iff.mp hr
      have ht : t = p.1 := by
        rw [← h]
        split <;> rfl
      obtain hsame | ⟨k, -, hfree, hnull, hlt, heq⟩ := windowResourceNew_eq (s := s)
      · obtain rfl := Option.some.inj (hsame.symm.trans hp)
        exact .windows _ s .refl (by rw [ht])
      · rw [heq] at hp
        obtain ⟨ws, -, rfl⟩ := Option.map_eq_some_iff.mp hp
        exact .newWindow _ k hfree hnull hlt (by rw [ht]; rfl)
  | destroyWindow id =>
      obtain ⟨r, hr, rfl⟩ := Option.map_eq_some_iff.mp h
      unfold handleDestroyWindow at hr
      split at hr
      · obtain rfl := Option.some.inj hr
        exact .windows _ s .refl rfl
      · next k hg =>
          obtain ⟨rfl, hl⟩ := serverGetResource_some hg
          split at hr
          · obtain rfl := Option.some.inj hr
            exact .windows _ s .refl rfl
          · next htype =>
              obtain ⟨w, hw⟩ := hs.liveWindow hl (Decidable.not_not.mp htype)
              rw [windowResourceFree_eq hw.window, Option.map_map] at hr
              obtain ⟨u, hu, rfl⟩ := Option.map_eq_some_iff.mp hr
              exact .freeWindow _ k w hw (modify_congr (unref_congr (dropWindow_resources hu)))
  | setWindowAttributes id mask a =>
      obtain ⟨r, hr, rfl⟩ := Option.map_eq_some_iff.mp h
      unfold handleSetWindowAttributes at hr
      split at hr
      · obtain rfl := Option.some.inj hr
        exact .windows _ s .refl rfl
      · next k hg =>
          obtain ⟨rfl, hl⟩ := serverGetResource_some hg
          split at hr
          · obtain rfl := Option.some.inj hr
            exact .windows _ s .refl rfl
          · next htype =>
              obtain ⟨w, hw⟩ := hs.liveWindow hl (Decidable.not_not.mp htype)
              obtain ⟨⟨u, ok⟩, hu, rfl⟩ := Option.map_eq_some_iff.mp hr
              exact .windows _ u (WindowStep.of_setAttributes hs hw he hu) rfl
  | event ev =>
      cases ev with
      | key code action => exact .of_sendEvent rfl h
      | button code action px py =>
          rw [wmNext, windowProcessEvent] at h
          split at h
          · exact .of_sendEvent rfl h
          · obtain ⟨r, -, h⟩ := Option.bind_eq_some_iff.mp h
            cases r with
            | none => exact .of_sendEvent rfl h
            | some r =>
                obtain ⟨wid, -, h⟩ := Option.bind_eq_some_iff.mp h
                obtain ⟨u, hu, h⟩ := Option.bind_eq_some_iff.mp h
                exact .of_sendEvent (raise_resources hu) h
      | motion mx my px py =>
          rw [wmNext, windowProcessEvent] at h
          split at h
          · exact .of_sendEvent rfl h
          · obtain ⟨r, -, h⟩ := Option.bind_eq_some_iff.mp h
            cases r with
            | none => exact .of_sendEvent rfl h
            | some r =>
                obtain ⟨wid, -, h⟩ := Option.bind_eq_some_iff.mp h
                exact .of_sendEvent rfl h

theorem refs_init : Refs Wm.init where
  image _ _ _ h := absurd h (by simp [imageField, Wm.init, Resource.empty, Resource.imageField])
  counted _ h := absurd h (by simp [imageCls, Wm.init, Resource.empty, Resource.imageCls])

/-- **Window images**: in a run where no request names a window for an
image, every window's image is null or a live image of the class of
windows, such an image counts its users, and none is freed while it has any. -/
theorem refs_of_reachable (h : (wmSystem fb).Reachable NamesImages s) :
    Refs s ∧ ∀ e t, NamesImages s e → wmNext fb s e = some t →
      ∀ j, imageCls s j ≠ none → imageCls t j = none → users s j = 0 := by
  have hinv : GoodTable s ∧ Refs s := by
    refine h.invariant (I := fun s => GoodTable s ∧ Refs s) ?_ ?_
    · rintro s rfl
      exact ⟨goodTable_init, refs_init⟩
    · intro s e t hi he hstep
      obtain ⟨hgood, hrefs, -⟩ := (wmNext_step hi.1 (fun _ => he) hstep).sound hi.1 hi.2
      exact ⟨hgood, hrefs⟩
  exact ⟨hinv.2, fun e t he hstep => ((wmNext_step hinv.1 (fun _ => he) hstep).sound hinv.1 hinv.2).2.2⟩

instance (s : Wm) (id : Nat) (mask : AttrMask) (a : WinAttrs) : Decidable (NamesWindow s id mask a) := by
  unfold NamesWindow
  infer_instance

instance (s : Wm) (e : WmReq) : Decidable (NamesImages s e) :=
  match e with
  | .setWindowAttributes id mask a => inferInstanceAs (Decidable (¬ NamesWindow s id mask a))
  | .createImage .. | .destroyImage _ | .resizeImage .. | .createWindow | .destroyWindow _
  | .event _ => isTrue trivial

/-- A request for an image of a window. -/
def imageReq (id image : Nat) : WmReq :=
  .setWindowAttributes id ⟨false, false, false, true, false⟩ { image := image }

/-- A window with an image. -/
theorem refs_of_reachable_example : ∃ s, imageField s 2 = some (1, some 1) ∧
    Refs s ∧ ∀ e t, NamesImages s e → wmNext vesaDisplay s e = some t →
      ∀ j, imageCls s j ≠ none → imageCls t j = none → users s j = 0 := by
  have hrun : (System.run (fun s e => if decide (NamesImages s e) then wmNext vesaDisplay s e else none)
      Wm.init [.createImage WM_CLASS_WINDOW 8 8, .createWindow, imageReq 2 1]).map
        (imageField · 2) = some (some (1, some 1)) := by decide +kernel
  obtain ⟨s, hs, hf⟩ := Option.map_eq_some_iff.mp hrun
  exact ⟨s, hf, refs_of_reachable ⟨_, rfl, System.steps_of_run_if _ (by simp) hs⟩⟩

/-- A window at `x = 2` is taken for an image. -/
theorem not_refs_of_reachable :
    ¬ ∀ s, (wmSystem vesaDisplay).Reachable System.Any s → Refs s := by
  intro h
  have hrun : (System.run (wmNext vesaDisplay) Wm.init [.createWindow, .createWindow,
      .setWindowAttributes 2 ⟨true, false, false, false, false⟩ { x := 2 }, imageReq 1 2]).map
        (fun s => (imageField s 1, imageCls s 2)) = some (some (2, some 2), none) := by
    decide +kernel
  obtain ⟨s, hs, hf⟩ := Option.map_eq_some_iff.mp hrun
  obtain ⟨hfield, hcls⟩ := Prod.mk.inj hf
  obtain ⟨hnull, -⟩ | ⟨-, hclass⟩ := (h s ⟨_, rfl, System.steps_of_run hs⟩).image 1 2 _ hfield
  · exact absurd hnull (by decide)
  · rw [hcls] at hclass
    exact Option.some_ne_none _ hclass.symm

end Eclair
