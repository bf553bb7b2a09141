import Eclair.Wm.State

/-!
# Eclair.Wm.Table

The table of resources: every live slot holds what its type says
(`GoodTable`), and what the operations change in it.
-/

namespace Eclair

/-- What a slot `k` may hold. -/
def GoodSlot (k : Nat) (r : Resource) : Prop :=
  r.id ≠ 0 → r.id = k ∧ k < MAX_RESOURCES ∧
    (r.type = WM_RESOURCE_IMAGE ∧ (∃ cls image, r.data = some (.image cls image)) ∨
      r.type = WM_RESOURCE_WINDOW ∧ ∃ w, r.data = some (.window w))

/-- Every live slot has its own id and holds what its type says. -/
def GoodTable (s : Wm) : Prop := ∀ k, GoodSlot k (s.resources k)

/-- The slot `k` is a live window. -/
def LiveWindow (s : Wm) (k : Nat) (w : Window) : Prop :=
  (s.resources k).id ≠ 0 ∧ (s.resources k).data = some (.window w)

/-- The slot `k` is a live image. -/
def LiveImage (s : Wm) (k cls : Nat) (image : Image) : Prop :=
  (s.resources k).id ≠ 0 ∧ (s.resources k).data = some (.image cls image)

variable {s t : Wm} {k j : Nat} {w w' : Window} {f : Resource → Resource} {d : Int}
variable {a : WinAttrs} {mask : AttrMask}

namespace Wm

@[simp] theorem modify_same : (s.modify k f).resources k = f (s.resources k) := by simp [modify]

theorem modify_other (h : j ≠ k) : (s.modify k f).resources j = s.resources j := by
  simp [modify, h]

@[simp] theorem modify_windows : (s.modify k f).windows = s.windows := rfl
@[simp] theorem modify_nwindows : (s.modify k f).nwindows = s.nwindows := rfl
@[simp] theorem modify_focus : (s.modify k f).focus = s.focus := rfl
@[simp] theorem modify_firstcenter : (s.modify k f).firstcenter = s.firstcenter := rfl
@[simp] theorem modify_firstabove : (s.modify k f).firstabove = s.firstabove := rfl

theorem modify_id (h : f (s.resources k) = s.resources k) : s.modify k f = s := by
  have hr : (fun j => if j = k then f (s.resources k) else s.resources j) = s.resources := by
    funext j
    by_cases hj : j = k
    · rw [if_pos hj, h, hj]
    · rw [if_neg hj]
  rw [modify, hr]

theorem modify_modify {g : Resource → Resource} :
    (s.modify k f).modify k g = s.modify k fun r => g (f r) := by
  have hr : (fun j => if j = k then g ((s.modify k f).resources k) else (s.modify k f).resources j) =
      fun j => if j = k then g (f (s.resources k)) else s.resources j := by
    funext j
    by_cases hj : j = k
    · rw [if_pos hj, if_pos hj, modify_same]
    · rw [if_neg hj, if_neg hj, modify_other hj]
  simp only [modify] at hr ⊢
  rw [hr]

theorem setWindow_setWindow : (s.setWindow k w).setWindow k w' = s.setWindow k w' := by
  simp only [setWindow, modify_modify]

@[simp] theorem setWindow_windows : (s.setWindow k w).windows = s.windows := rfl
@[simp] theorem setWindow_nwindows : (s.setWindow k w).nwindows = s.nwindows := rfl
@[simp] theorem setWindow_focus : (s.setWindow k w).focus = s.focus := rfl
@[simp] theorem setWindow_firstcenter : (s.setWindow k w).firstcenter = s.firstcenter := rfl
@[simp] theorem setWindow_firstabove : (s.setWindow k w).firstabove = s.firstabove := rfl

@[simp] theorem setWindow_id : ((s.setWindow k w).resources j).id = (s.resources j).id := by
  by_cases hj : j = k
  · simp [setWindow, hj]
  · simp [setWindow, modify_other hj]

@[simp] theorem window_setWindow : (s.setWindow k w).window k = some w := by
  simp [window, setWindow]

end Wm

theorem GoodTable.modify (h : GoodTable s) (hf : GoodSlot k (f (s.resources k))) : GoodTable (s.modify k f) := by
  intro j
  by_cases hj : j = k
  · rw [hj, Wm.modify_same]
    exact hf
  · rw [Wm.modify_other hj]
    exact h j

theorem goodTable_congr (h : t.resources = s.resources) : GoodTable t ↔ GoodTable s := by simp only [GoodTable, h]

theorem Wm.window_eq_some : s.window k = some w ↔ (s.resources k).data = some (.window w) := by
  unfold Wm.window
  split
  · next h => simp [h]
  · next h =>
      simp only [reduceCtorEq, false_iff]
      exact h w

theorem LiveWindow.window (h : LiveWindow s k w) : s.window k = some w :=
  Wm.window_eq_some.mpr h.2

/-- A live resource of the type of windows is a window. -/
theorem GoodTable.liveWindow (h : GoodTable s) (hl : (s.resources k).id ≠ 0)
    (ht : (s.resources k).type = WM_RESOURCE_WINDOW) : ∃ w, LiveWindow s k w := by
  obtain ⟨-, -, htype | htype⟩ := h k hl
  · rw [htype.1] at ht
    contradiction
  · obtain ⟨w, hw⟩ := htype.2
    exact ⟨w, hl, hw⟩

theorem GoodTable.liveImage (h : GoodTable s) (hl : (s.resources k).id ≠ 0)
    (ht : (s.resources k).type = WM_RESOURCE_IMAGE) : ∃ cls image, LiveImage s k cls image := by
  obtain ⟨-, -, htype | htype⟩ := h k hl
  · obtain ⟨cls, image, hd⟩ := htype.2
    exact ⟨cls, image, hl, hd⟩
  · rw [htype.1] at ht
    contradiction

theorem GoodTable.window_type (h : GoodTable s) (hw : LiveWindow s k w) :
    (s.resources k).type = WM_RESOURCE_WINDOW := by
  obtain ⟨-, -, htype | htype⟩ := h k hw.1
  · obtain ⟨cls, image, hd⟩ := htype.2
    exact absurd (hd.symm.trans hw.2) (by simp)
  · exact htype.1

theorem GoodTable.id_eq (h : GoodTable s) (hl : (s.resources k).id ≠ 0) : (s.resources k).id = k :=
  (h k hl).1

theorem GoodTable.pos (h : GoodTable s) (hl : (s.resources k).id ≠ 0) : k ≠ WM_NULL := by
  have hid := h.id_eq hl
  rw [hid] at hl
  exact hl

/-- Only the id, the type and the data count. -/
theorem GoodSlot.congr {r r' : Resource} (h : GoodSlot k r) (hid : r'.id = r.id)
    (ht : r'.type = r.type) (hd : r'.data = r.data) : GoodSlot k r' := by
  intro hl
  rw [hid] at hl ⊢
  rw [ht, hd]
  exact h hl

theorem GoodTable.addRef (h : GoodTable s) : GoodTable (s.addRef k d) := h.modify ((h k).congr rfl rfl rfl)

theorem GoodTable.setWindow (h : GoodTable s) (hw : LiveWindow s k w) : GoodTable (s.setWindow k w') :=
  h.modify fun hl => ⟨(h k hl).1, (h k hl).2.1, .inr ⟨h.window_type hw, w', rfl⟩⟩

theorem GoodTable.destroy (h : GoodTable s) : GoodTable (serverDestroyResource s k) :=
  h.modify fun hl => absurd rfl hl

theorem serverGetResource_some {id : Nat} (h : serverGetResource s id = some k) :
    k = id ∧ (s.resources k).id ≠ 0 := by
  unfold serverGetResource at h
  split at h
  · next hc =>
      obtain rfl := Option.some.inj h
      exact ⟨rfl, hc.2⟩
  · contradiction

theorem GoodTable.getResource (h : GoodTable s) (hl : (s.resources k).id ≠ 0) :
    serverGetResource s k = some k := by
  rw [serverGetResource, if_pos ⟨(h k hl).2.1, hl⟩]

/-- The slot taken was free, and is not that of the null id. -/
theorem serverCreateResource_some {type : Nat} (h : serverCreateResource s type = some (t, k)) :
    (s.resources k).id = 0 ∧ k ≠ WM_NULL ∧ k < MAX_RESOURCES ∧
      t = s.modify k fun _ => ⟨k, type, 0, none⟩ := by
  obtain ⟨i, hi, hr⟩ := Option.map_eq_some_iff.mp h
  obtain ⟨rfl, rfl⟩ := Prod.mk.inj hr
  have hmem := List.mem_range'_1.mp (List.mem_of_find?_eq_some hi)
  have hfree := List.find?_some hi
  refine ⟨by simpa using hfree, ?_, ?_, rfl⟩
  · exact Nat.ne_of_gt hmem.1
  · exact Nat.lt_of_lt_of_eq hmem.2 (by decide)

/-! ## creation -/

/-- A window as it is made. -/
def Window.fresh : Window := ⟨{}, none, List.replicate WINDOW_RESOURCE_MAX_EVENTS default, 0, 0⟩

/-- The array with `id` put on top of the center section. -/
def insertWindow (s : Wm) (id : Nat) : Option (List Nat) :=
  (Slice.openUp (if s.nwindows ≠ 0 then (s.nwindows - s.firstabove).toNat else 0) (s.nwindows - 1)
    s.windows).bind fun ws => Slice.write ws s.firstabove id

/-- The state with a new window in the slot `k`. -/
def Wm.withWindow (s : Wm) (k : Nat) (ws : List Nat) : Wm :=
  { s.modify k fun _ => ⟨k, WM_RESOURCE_WINDOW, 0, some (.window .fresh)⟩ with
    windows := ws
    nwindows := s.nwindows + 1
    focus := k
    firstabove := s.firstabove + 1 }

/-- Without room nothing changes; else a free slot is taken. -/
theorem windowResourceNew_eq : windowResourceNew s = some (s, none) ∨
    ∃ k, s.nwindows < MAX_WINDOWS ∧ (s.resources k).id = 0 ∧ k ≠ WM_NULL ∧ k < MAX_RESOURCES ∧
      windowResourceNew s = (insertWindow s k).map fun ws => (s.withWindow k ws, some k) := by
  unfold windowResourceNew
  by_cases hfull : s.nwindows ≥ MAX_WINDOWS
  · rw [if_pos hfull]
    exact .inl rfl
  rw [if_neg hfull]
  cases hc : serverCreateResource s 0 with
  | none => exact .inl rfl
  | some r =>
      obtain ⟨t, k⟩ := r
      obtain ⟨hfree, hnull, hlt, rfl⟩ := serverCreateResource_some hc
      refine .inr ⟨k, Int.not_le.mp hfull, hfree, hnull, hlt, ?_⟩
      simp only [Wm.modify_windows, Wm.modify_nwindows, Wm.modify_firstabove, Wm.modify_same,
        Wm.modify_modify, insertWindow, Option.map_bind]
      rfl

/-- A new image takes a free slot. -/
theorem imageResourceNew_some {fb : Display} {cls width height : Nat}
    (h : imageResourceNew fb s cls width height = some (t, k)) :
    (s.resources k).id = 0 ∧ k ≠ WM_NULL ∧ k < MAX_RESOURCES ∧ t = s.modify k fun _ =>
      ⟨k, WM_RESOURCE_IMAGE, 0, some (.image cls (imageInit fb width height))⟩ := by
  obtain ⟨⟨u, i⟩, hc, hr⟩ := Option.map_eq_some_iff.mp h
  obtain ⟨hfree, hnull, hlt, rfl⟩ := serverCreateResource_some hc
  rw [Wm.modify_modify] at hr
  obtain ⟨rfl, rfl⟩ := Prod.mk.inj hr
  exact ⟨hfree, hnull, hlt, rfl⟩

/-- What `handle_create_image` does to the table. -/
theorem handleCreateImage_cases (fb : Display) (s : Wm) (cls width height : Nat) :
    (handleCreateImage fb s cls width height).1 = s ∨
    ∃ k, (s.resources k).id = 0 ∧ k ≠ WM_NULL ∧ k < MAX_RESOURCES ∧
      (handleCreateImage fb s cls width height).1 = s.modify k fun _ =>
        ⟨k, WM_RESOURCE_IMAGE, 0, some (.image cls (imageInit fb width height))⟩ := by
  unfold handleCreateImage
  cases hn : imageResourceNew fb s cls width height with
  | none => exact .inl rfl
  | some r =>
      obtain ⟨hfree, hnull, hlt, ht⟩ := imageResourceNew_some hn
      exact .inr ⟨r.2, hfree, hnull, hlt, ht⟩

/-- What `handle_destroy_image` does: the image has no references. -/
theorem handleDestroyImage_cases (hs : GoodTable s) (id : Nat) :
    (handleDestroyImage s id).1 = s ∨ ∃ cls image, LiveImage s id cls image ∧
      (s.resources id).refcnt = 0 ∧ (handleDestroyImage s id).1 = serverDestroyResource s id := by
  unfold handleDestroyImage
  cases hg : serverGetResource s id with
  | none => exact .inl rfl
  | some k =>
      obtain ⟨rfl, hl⟩ := serverGetResource_some hg
      dsimp only
      split
      · exact .inl rfl
      · next hc =>
          obtain ⟨htype, href⟩ := not_or.mp hc
          obtain ⟨cls, image, hi⟩ := hs.liveImage hl (Decidable.not_not.mp htype)
          exact .inr ⟨cls, image, hi, Decidable.not_not.mp href, rfl⟩

/-- What `handle_resize_image` does: the class of the image stays. -/
theorem handleResizeImage_cases (fb : Display) (hs : GoodTable s) (id width height : Nat) :
    ∃ r, handleResizeImage fb s id width height = some r ∧ (r.1 = s ∨ ∃ cls image,
      LiveImage s id cls image ∧ r.1 = s.modify id fun r =>
        { r with data := some (.image cls (imageResize fb image width height)) }) := by
  unfold handleResizeImage
  cases hg : serverGetResource s id with
  | none => exact ⟨_, rfl, .inl rfl⟩
  | some k =>
      obtain ⟨rfl, hl⟩ := serverGetResource_some hg
      dsimp only
      split
      · exact ⟨_, rfl, .inl rfl⟩
      · next htype =>
          obtain ⟨cls, image, hi⟩ := hs.liveImage hl (Decidable.not_not.mp htype)
          rw [imageResourceResize, hi.2]
          exact ⟨_, rfl, .inr ⟨cls, image, hi, rfl⟩⟩

theorem GoodTable.withImage {cls : Nat} {image : Image} (h : GoodTable s) (hk : k < MAX_RESOURCES) :
    GoodTable (s.modify k fun _ => ⟨k, WM_RESOURCE_IMAGE, 0, some (.image cls image)⟩) :=
  h.modify fun _ => ⟨rfl, hk, .inl ⟨rfl, _, _, rfl⟩⟩

/-- An image stays one. -/
theorem GoodTable.setImage {cls cls' : Nat} {image image' : Image} (h : GoodTable s)
    (hi : LiveImage s k cls image) :
    GoodTable (s.modify k fun r => { r with data := some (.image cls' image') }) := by
  refine h.modify fun hl => ⟨(h k hl).1, (h k hl).2.1, .inl ⟨?_, _, _, rfl⟩⟩
  obtain ⟨-, -, ⟨htype, -⟩ | ⟨-, w, hd⟩⟩ := h k hl
  · exact htype
  · exact absurd (hd.symm.trans hi.2) (by simp)

theorem GoodTable.withWindow {ws : List Nat} (h : GoodTable s) (hk : k < MAX_RESOURCES) :
    GoodTable (s.withWindow k ws) := by
  have hm : GoodTable (s.modify k fun _ => ⟨k, WM_RESOURCE_WINDOW, 0, some (.window .fresh)⟩) :=
    h.modify fun _ => ⟨rfl, hk, .inr ⟨rfl, _, rfl⟩⟩
  exact (goodTable_congr rfl).mpr hm

/-! ## destruction -/

/-- The count of the window's image goes down. -/
def Wm.unref (s : Wm) (w : Window) : Wm :=
  match w.image with
  | some j => s.addRef j (-1)
  | none => s

theorem GoodTable.unref (h : GoodTable s) : GoodTable (s.unref w) := by
  unfold Wm.unref
  split
  · exact h.addRef
  · exact h

theorem unstack_resources {id : Nat} (h : unstack s id = some t) : t.resources = s.resources := by
  obtain ⟨i, -, h⟩ := Option.bind_eq_some_iff.mp h
  split at h
  · obtain ⟨ws, -, rfl⟩ := Option.map_eq_some_iff.mp h
    rfl
  · rw [Option.some.inj h]

theorem refocus_resources {i : Int} (h : refocus s i = some t) : t.resources = s.resources := by
  unfold refocus at h
  split at h
  · obtain ⟨id, -, rfl⟩ := Option.map_eq_some_iff.mp h
    rfl
  · rw [← Option.some.inj h]

/-- The array and the focus without the window `k`. -/
def dropWindow (s : Wm) (k : Nat) : Option Wm :=
  (unstack s (s.resources k).id).bind fun t =>
    if (s.resources k).id = t.focus then refocus t (t.firstabove - 1) else some t

theorem dropWindow_resources (h : dropWindow s k = some t) : t.resources = s.resources := by
  obtain ⟨u, hu, h⟩ := Option.bind_eq_some_iff.mp h
  split at h
  · rw [refocus_resources h, unstack_resources hu]
  · rw [← Option.some.inj h, unstack_resources hu]

/-- First the array, then the table. -/
theorem windowResourceFree_eq (hw : s.window k = some w) : windowResourceFree s k =
    (dropWindow s k).map fun t => serverDestroyResource (t.unref w) k := by
  have hfree : windowResourceFree s k = (dropWindow s k).bind fun t => (t.window k).map fun w =>
      serverDestroyResource (t.unref w) k := by
    rw [windowResourceFree, dropWindow, Option.bind_assoc]
    rfl
  rw [hfree]
  cases hd : dropWindow s k with
  | none => rfl
  | some t =>
      have ht : t.window k = some w := by
        rw [Wm.window, dropWindow_resources hd]
        exact hw
      rw [Option.bind_some, ht]
      rfl

/-! ## attributes -/

/-- The attributes with the position, the size and the events that the mask asks for. -/
def WinAttrs.placed (b a : WinAttrs) (mask : AttrMask) : WinAttrs where
  x := if mask.position then a.x else b.x
  y := if mask.position then a.y else b.y
  width := if mask.size then a.width else b.width
  height := if mask.size then a.height else b.height
  events := if mask.events then a.events else b.events
  image := b.image
  stack := b.stack

/-- The state with these set. -/
def Wm.placed (s : Wm) (k : Nat) (w : Window) (a : WinAttrs) (mask : AttrMask) : Wm :=
  s.setWindow k { w with attributes := w.attributes.placed a mask }

theorem Wm.setWindow_self (hw : s.window k = some w) : s.setWindow k w = s := by
  refine modify_id ?_
  rw [← Wm.window_eq_some.mp hw]

theorem setPlace_eq {on : Bool} {f : WinAttrs → WinAttrs} (hw : s.window k = some w) :
    setPlace s k on f =
      if on = true ∧ (s.resources k).id ≠ s.focus then some (s, false)
      else some (s.setWindow k
        { w with attributes := if on then f w.attributes else w.attributes }, true) := by
  cases on with
  | true => simp [setPlace, hw]
  | false => simp [setPlace, Wm.setWindow_self hw]

theorem setEvents_eq {on : Bool} {events : Nat} (hw : s.window k = some w) :
    setEvents s k on events = some (s.setWindow k
      { w with attributes := { w.attributes with
        events := if on then events else w.attributes.events } }, true) := by
  cases on with
  | true => simp [setEvents, hw]
  | false => simp [setEvents, Wm.setWindow_self hw]

@[simp] theorem AttrStep.andThen_true {f : Wm → AttrStep} :
    AttrStep.andThen (some (s, true)) f = f s := rfl

@[simp] theorem AttrStep.andThen_false {f : Wm → AttrStep} :
    AttrStep.andThen (some (s, false)) f = some (s, false) := rfl

/-- A position or a size is only taken by the window in focus; apart from
this the first parts always succeed. -/
theorem windowResourceSetAttributes_eq (hw : s.window k = some w) :
    windowResourceSetAttributes s k a mask =
      if (mask.position = true ∨ mask.size = true) ∧ (s.resources k).id ≠ s.focus then some (s, false)
      else AttrStep.andThen (setImage (s.placed k w a mask) k mask.image a.image) fun s =>
        setStack s k mask.stack a.stack := by
  by_cases hf : (s.resources k).id = s.focus
  · simp only [windowResourceSetAttributes, setPlace_eq hw, hf, ne_eq, not_true_eq_false, and_false,
      if_false, AttrStep.andThen_true, setPlace_eq Wm.window_setWindow, Wm.setWindow_id,
      Wm.setWindow_focus, setEvents_eq Wm.window_setWindow, Wm.setWindow_setWindow, Wm.placed]
    congr 2
    obtain ⟨p, z, e, i, st⟩ := mask
    cases p <;> cases z <;> rfl
  · obtain ⟨p, z, e, i, st⟩ := mask
    cases p with
    | true => simp [windowResourceSetAttributes, setPlace_eq hw, hf]
    | false =>
        cases z with
        | true =>
            simp [windowResourceSetAttributes, setPlace_eq hw, hf, Wm.setWindow_self hw]
        | false =>
            simp [windowResourceSetAttributes, setPlace_eq hw, setPlace_eq Wm.window_setWindow,
              setEvents_eq Wm.window_setWindow, Wm.setWindow_setWindow, Wm.placed, WinAttrs.placed]

/-- The class that is read of the resource `id`. -/
def clsOf (s : Wm) (id : Nat) : Option Nat := (serverGetResource s id).bind (clsField s)

/-- The state with `image` as the image of the window `k`. -/
def Wm.imaged (s : Wm) (k : Nat) (w : Window) (image : Nat) : Wm :=
  ((s.unref w).setWindow k
    { w with attributes := { w.attributes with image := image }, image := some image }).addRef image 1

/-- An image is taken as soon as its class reads as that of windows. -/
theorem setImage_eq {image : Nat} (hs : GoodTable s) (hw : s.window k = some w) :
    setImage s k true image =
      some (if clsOf s image = some WM_CLASS_WINDOW then (s.imaged k w image, true) else (s, false)) := by
  cases hg : serverGetResource s image with
  | none => simp [setImage, clsOf, hg]
  | some i =>
      obtain ⟨rfl, hl⟩ := serverGetResource_some hg
      simp only [setImage, if_true, clsOf, hg, Option.bind_some]
      cases hc : clsField s i with
      | none =>
          simp only [clsField, Option.map_eq_none_iff] at hc
          obtain ⟨-, -, ⟨-, cls, image, hd⟩ | ⟨-, w, hd⟩⟩ := hs i hl
          · rw [hc] at hd
            contradiction
          · rw [hc] at hd
            contradiction
      | some cls =>
          rw [Option.bind_some]
          by_cases hcls : cls = WM_CLASS_WINDOW
          · simp only [hcls, ne_eq, not_true_eq_false, if_false, hw, Option.map_some, if_true]
            rfl
          · simp [hcls]

/-- The class that is read of the request's image, once the request's own
position is set. -/
def clsAfter (s : Wm) (id : Nat) (mask : AttrMask) (a : WinAttrs) : Option Nat :=
  if mask.position = true ∧ a.image = id then some a.x else clsOf s a.image

theorem serverGetResource_setWindow {id : Nat} :
    serverGetResource (s.setWindow k w') id = serverGetResource s id := by
  simp [serverGetResource]

theorem clsOf_placed (hs : GoodTable s) (hw : LiveWindow s k w) :
    clsOf (s.placed k w a mask) a.image = clsAfter s k mask a := by
  rw [clsOf, Wm.placed, serverGetResource_setWindow, clsAfter, clsOf]
  by_cases hi : a.image = k
  · rw [hi, hs.getResource hw.1, Option.bind_some, Option.bind_some]
    cases hp : mask.position <;> simp [clsField, Wm.setWindow, hw.2, WinAttrs.placed, hp]
  · rw [if_neg (fun h => hi h.2)]
    cases hg : serverGetResource s a.image with
    | none => rfl
    | some i =>
        obtain ⟨rfl, -⟩ := serverGetResource_some hg
        simp [clsField, Wm.setWindow, Wm.modify_other hi]

theorem LiveWindow.setWindow (h : LiveWindow s k w) : LiveWindow (s.setWindow k w') k w' := by
  refine ⟨?_, Wm.window_eq_some.mp Wm.window_setWindow⟩
  rw [Wm.setWindow_id]
  exact h.1

theorem LiveWindow.addRef (h : LiveWindow s k w) : LiveWindow (s.addRef j d) k w := by
  unfold LiveWindow Wm.addRef
  by_cases hj : k = j
  · simpa [hj] using hj ▸ h
  · rw [Wm.modify_other hj]
    exact h

theorem LiveWindow.unref (h : LiveWindow s k w) : LiveWindow (s.unref w') k w := by
  unfold Wm.unref
  split
  · exact h.addRef
  · exact h

theorem LiveWindow.imaged (h : LiveWindow s k w) (image : Nat) :
    ∃ w', LiveWindow (s.imaged k w image) k w' ∧ w'.attributes.stack = w.attributes.stack :=
  ⟨_, h.unref.setWindow.addRef, rfl⟩

theorem GoodTable.imaged {image : Nat} (h : GoodTable s) (hw : LiveWindow s k w) :
    GoodTable (s.imaged k w image) := (h.unref.setWindow hw.unref).addRef

end Eclair
