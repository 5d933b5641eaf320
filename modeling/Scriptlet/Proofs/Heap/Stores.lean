import Scriptlet.Proofs.Heap.Slots

/-!
# Stores that fail

A store moves one count from the old value of a place to the new one, and either of them may be a
stale handle. `Heap.replace` counts the new value before it changes the place; `Heap.setElement`
changes the element before it counts. Both find a stale old value only when the new one is in place.

Main statement: `Heap.failed_store_unchanged_iff`, which says exactly when a store that fails leaves
everything as it was.
-/

namespace Scriptlet.Heap

/-- The value is a handle, and the object it was issued for is gone. -/
def isStale (h : Heap) (v : Value) : Bool := v.handle?.any fun x => !h.contains x

/-- The value in a numbered place of an object. -/
def element? (h : Heap) (x : Handle) (i : Nat) : Option Value := do
  let o ← h.object? x
  let vs ← o.elements?
  vs[i]?

/-- Puts a value in a numbered place of an object, and counts nothing. -/
def putElement (h : Heap) (x : Handle) (i : Nat) (v : Value) : Heap :=
  h.changeObject x (Object.mapElements fun vs => vs.setIfInBounds i v)

/-- Every object is there as before, with its count, and so are the counters of the heap. -/
structure Unchanged (h h' : Heap) : Prop where
  find? : ∀ x, h'.find? x = h.find? x
  stats : h'.stats = h.stats

variable {h h' : Heap} {x : Handle} {i : Nat} {v old : Value} {e : Fault}

theorem Unchanged.refl (h : Heap) : h.Unchanged h := ⟨fun _ => rfl, rfl⟩

theorem Unchanged.element? (hu : h.Unchanged h') (x : Handle) (i : Nat) :
    h'.element? x i = h.element? x i := by
  simp only [Heap.element?, object?, hu.find? x]

/-! ## Counting a value that may be stale -/

theorem isStale_iff : h.isStale v = true ↔ ∃ x, v = .object x ∧ h.contains x = false := by
  cases v <;> simp [isStale, Value.handle?]

theorem isStale_changeObject (h : Heap) (x : Handle) (g : Object → Object) (v : Value) :
    (h.changeObject x g).isStale v = h.isStale v := by
  have hc : (h.changeObject x g).contains = h.contains := funext fun y => contains_modifyCell h x y _
  rw [isStale, isStale, hc]

theorem Recounts.isStale (hr : h.Recounts h') (v : Value) : h'.isStale v = h.isStale v := by
  rw [Heap.isStale, Heap.isStale, funext hr.contains]

theorem contains_of_not_isStale (hv : ¬ h.isStale v = true) (x : Handle) (hx : v = .object x) :
    h.contains x = true := by
  by_contra hc
  exact hv (isStale_iff.2 ⟨x, hx, Bool.eq_false_iff.2 hc⟩)

theorem retain_of_isStale (hv : h.isStale v = true) : retain v h = .error .staleHandle h := by
  obtain ⟨x, rfl, hx⟩ := isStale_iff.1 hv
  simp [retain, hx]

theorem release_of_isStale (hv : h.isStale v = true) : release v h = .error .staleHandle h := by
  obtain ⟨x, rfl, hx⟩ := isStale_iff.1 hv
  simp [release, hx]

/-- The counting part of a store fails on a stale new value before it has changed anything, and on
a stale old value after the new one is counted. -/
theorem error_of_recount (hr : (do retain v; release old : Action Unit) h = .error e h') :
    h.isStale v = true ∧ h' = h ∨
      ¬ h.isStale v = true ∧ h.isStale old = true ∧ retain v h = .ok () h' := by
  by_cases hv : h.isStale v = true
  · simp only [bind, EStateM.bind, retain_of_isStale hv] at hr
    cases hr
    exact .inl ⟨hv, rfl⟩
  · obtain ⟨h₁, hr₁, hc₁⟩ := recounts_retain (contains_of_not_isStale hv)
    simp only [bind, EStateM.bind, hr₁] at hr
    by_cases hold : h.isStale old = true
    · rw [release_of_isStale (by rw [hc₁.isStale, hold])] at hr
      cases hr
      exact .inr ⟨hv, hold, hr₁⟩
    · rw [← hc₁.isStale] at hold
      obtain ⟨h₂, hr₂, -⟩ := recounts_release (contains_of_not_isStale hold)
      rw [hr₂] at hr
      cases hr

/-! ## Elements -/

theorem exists_of_element? (he : h.element? x i = some old) :
    ∃ o vs, h.object? x = some o ∧ o.elements? = some vs ∧ vs[i]? = some old := by
  simp only [element?, Option.bind_eq_bind, Option.bind_eq_some_iff] at he
  obtain ⟨o, ho, vs, hvs, hi⟩ := he
  exact ⟨o, vs, ho, hvs, hi⟩

theorem element?_putElement (he : h.element? x i = some old) (v : Value) :
    (h.putElement x i v).element? x i = some v := by
  obtain ⟨o, vs, ho, hvs, hi⟩ := exists_of_element? he
  have hlt : i < vs.size := (Array.getElem?_eq_some_iff.1 hi).1
  rw [element?, putElement, object?_changeObject ho, if_pos rfl]
  simp [Object.elements?_mapElements hvs, hlt]

/-- Putting the value that is there changes nothing. -/
theorem unchanged_putElement (he : h.element? x i = some v) : h.Unchanged (h.putElement x i v) := by
  obtain ⟨o, vs, ho, hvs, hi⟩ := exists_of_element? he
  obtain ⟨n, hn⟩ := object?_eq_some_iff.1 ho
  have hset : vs.setIfInBounds i v = vs := by
    obtain ⟨hlt, rfl⟩ := Array.getElem?_eq_some_iff.1 hi
    simp [Array.setIfInBounds, hlt]
  have hmap : o.mapElements (fun vs => vs.setIfInBounds i v) = o := by
    cases o <;> simp_all [Object.elements?, Object.mapElements]
  refine ⟨fun y => ?_, rfl⟩
  rw [putElement, changeObject, find?_modifyCell_of_find? hn, hmap]
  split
  · next hyx => rw [hyx, hn]
  · rfl

/-- A store into a place that does not exist fails at once. -/
theorem setElement_of_none (he : h.element? x i = none) :
    ∃ e, setElement x i v h = .error e h := by
  unfold setElement
  unfold element? at he
  cases ho : h.object? x with
  | none => exact ⟨_, rfl⟩
  | some o =>
    cases hvs : o.elements? with
    | none => exact ⟨_, by simp only [hvs]; rfl⟩
    | some vs =>
      have hi : vs[i]? = none := by simpa [ho, hvs] using he
      exact ⟨_, by simp only [hvs, hi]; rfl⟩

/-- A store into a place that exists puts the value there, and then counts. -/
theorem setElement_of_some (he : h.element? x i = some old) :
    setElement x i v h = (do retain v; release old : Action Unit) (h.putElement x i v) := by
  obtain ⟨o, vs, ho, hvs, hi⟩ := exists_of_element? he
  simp only [setElement, ho, hvs, hi]
  rfl

/-- A store goes through where there is such an element, and neither value is stale. -/
theorem setElement_of_live (he : h.element? x i = some old)
    (hv : ∀ y, v = .object y → h.contains y = true)
    (hold : ∀ y, old = .object y → h.contains y = true) :
    ∃ h', setElement x i v h = .ok () h' ∧ (h.putElement x i v).Recounts h' := by
  have hput : ∀ y, (h.putElement x i v).contains y = h.contains y := fun y => contains_modifyCell h x y _
  obtain ⟨h₁, hr₁, hc₁⟩ := recounts_retain (h := h.putElement x i v) fun y hy => by
    rw [hput, hv y hy]
  obtain ⟨h₂, hr₂, hc₂⟩ := recounts_release (h := h₁) (v := old) fun y hy => by
    rw [hc₁.contains, hput, hold y hy]
  refine ⟨h₂, ?_, hc₁.trans hc₂⟩
  rw [setElement_of_some he]
  simp only [bind, EStateM.bind, hr₁, hr₂]

/-- A store into an element that fails changes nothing only where there is no such element, or where
the stale value that it meets is there already. -/
theorem unchanged_setElement_iff (hr : setElement x i v h = .error e h') :
    h.Unchanged h' ↔ h.element? x i = none ∨ h.element? x i = some v ∧ h.isStale v = true := by
  cases he : h.element? x i with
  | none =>
    obtain ⟨e', hr'⟩ := setElement_of_none he
    rw [hr'] at hr
    cases hr
    exact ⟨fun _ => .inl rfl, fun _ => .refl h⟩
  | some old =>
    rw [setElement_of_some he] at hr
    have hput := element?_putElement he v
    have hstale : ∀ w, (h.putElement x i v).isStale w = h.isStale w := isStale_changeObject h x _
    rcases error_of_recount hr with ⟨hv, rfl⟩ | ⟨hv, hold, hr₁⟩
    · rw [hstale] at hv
      constructor
      · intro hu
        have hel := hu.element? x i
        rw [hput, he] at hel
        exact .inr ⟨hel.symm, hv⟩
      · rintro (hnone | ⟨hsame, -⟩)
        · cases hnone
        · exact unchanged_putElement (he.trans hsame)
    · rw [hstale] at hv hold
      constructor
      · intro hu
        have hel := hu.element? x i
        rw [element?, object?_retain hr₁ x, ← element?, hput, he] at hel
        cases hel
        exact absurd hold hv
      · rintro (hnone | ⟨-, hv'⟩)
        · cases hnone
        · exact absurd hv' hv

/-! ## Places outside of the heap -/

theorem replace_of_isStale {place new : Value} (hn : h.isStale new = true) :
    h.replace place new = ⟨.error .staleHandle, place, h⟩ := by
  simp only [replace, retain_of_isStale hn]

/-- A store into a place outside of the heap that fails changes nothing exactly when it is the new
value that is stale. -/
theorem unchanged_replace_iff {place new : Value} (hr : (h.replace place new).outcome = .error e) :
    (h.replace place new).place = place ∧ h.Unchanged (h.replace place new).heap ↔
      h.isStale new = true := by
  by_cases hn : h.isStale new = true
  · rw [replace_of_isStale hn]
    exact ⟨fun _ => hn, fun _ => ⟨rfl, .refl h⟩⟩
  · obtain ⟨h₁, hr₁, hc₁⟩ := recounts_retain (contains_of_not_isStale hn)
    -- the new value is counted, so what fails is the release of the old one
    have hplace : (h.replace place new).place = new := by
      simp only [replace, hr₁]
      split <;> rfl
    rw [hplace]
    refine ⟨fun ⟨hsame, _⟩ => ?_, fun hn' => absurd hn' hn⟩
    subst hsame
    rw [← hc₁.isStale] at hn
    obtain ⟨h₂, hr₂, -⟩ := recounts_release (contains_of_not_isStale hn)
    simp only [replace, hr₁, hr₂] at hr
    cases hr

/-- When a store that fails leaves everything as it was: one into an element, if there is no such
element or the stale value is there already; one into a place outside of the heap, if the new value
is the stale one. -/
theorem failed_store_unchanged_iff (h : Heap) :
    (∀ x i v e h', setElement x i v h = .error e h' →
      (h.Unchanged h' ↔
        h.element? x i = none ∨ h.element? x i = some v ∧ h.isStale v = true)) ∧
    (∀ place new e, (h.replace place new).outcome = .error e →
      ((h.replace place new).place = place ∧ h.Unchanged (h.replace place new).heap ↔
        h.isStale new = true)) :=
  ⟨fun _ _ _ _ _ hr => unchanged_setElement_iff hr, fun _ _ _ hr => unchanged_replace_iff hr⟩

/-- An array with one element, and the slot of a string that a sweep has freed. -/
def besideFreed : Heap :=
  let h := (empty.allocate (.array #[.null])).2
  ((h.allocate (.string "s")).2.sweep fun x => x = ⟨0, 0⟩).2

theorem failed_store_unchanged_besideFreed :
    (∃ h', setElement ⟨0, 0⟩ 1 .null besideFreed = .error (.indexOutOfBounds 1 1) h' ∧
      besideFreed.Unchanged h') ∧
    (besideFreed.replace .null (.object ⟨1, 0⟩)).outcome = .error .staleHandle ∧
      (besideFreed.replace .null (.object ⟨1, 0⟩)).place = .null ∧
      besideFreed.Unchanged (besideFreed.replace .null (.object ⟨1, 0⟩)).heap := by
  obtain ⟨hset, hreplace⟩ := failed_store_unchanged_iff besideFreed
  refine ⟨⟨besideFreed, rfl, ?_⟩, rfl, ?_⟩
  · exact (hset ⟨0, 0⟩ 1 .null (.indexOutOfBounds 1 1) _ rfl).2 (by decide)
  · exact (hreplace .null (.object ⟨1, 0⟩) .staleHandle rfl).2 (by decide)

/-- A handle to the freed string is refused, and yet it stands in the array afterwards. -/
theorem failed_store_leaves_stale_element :
    ∃ h', setElement ⟨0, 0⟩ 0 (.object ⟨1, 0⟩) besideFreed = .error .staleHandle h' ∧
      besideFreed.element? ⟨0, 0⟩ 0 = some .null ∧
      h'.element? ⟨0, 0⟩ 0 = some (.object ⟨1, 0⟩) ∧ ¬ besideFreed.Unchanged h' := by
  refine ⟨besideFreed.putElement ⟨0, 0⟩ 0 (.object ⟨1, 0⟩), rfl, by decide, by decide, fun hu => ?_⟩
  exact absurd (hu.element? ⟨0, 0⟩ 0) (by decide)

end Scriptlet.Heap
