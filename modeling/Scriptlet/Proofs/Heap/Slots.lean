import Mathlib.Algebra.Ring.Nat
import Mathlib.Data.List.Perm.Basic
import Scriptlet.Heap.Sweep

/-!
# Slots and objects

What the operations of the heap do to its slots: `find?_modifyCell` for a change of one object,
`find?_allocate_eq` for a new one. `Heap.inner` lists the handles inside of live objects and
`Heap.total` adds up their counts; both are sums over slots, so a change of one slot changes them
by its own share (`count_inner_modifyCell`, `total_modifyCell`, `count_inner_allocate`).
-/

namespace Scriptlet

/-- The handles among some values, one for each occurrence. -/
def Value.handles (vs : List Value) : List Handle := vs.filterMap Value.handle?

@[simp] theorem Value.handles_nil : Value.handles [] = [] := rfl

theorem Value.handles_cons (v : Value) (vs : List Value) :
    Value.handles (v :: vs) = Value.handles [v] ++ Value.handles vs := by
  simp only [handles, List.filterMap_cons, List.filterMap_nil]
  cases v.handle? <;> rfl

theorem Value.handles_append (vs ws : List Value) :
    Value.handles (vs ++ ws) = Value.handles vs ++ Value.handles ws :=
  List.filterMap_append

theorem Value.handles_perm {vs ws : List Value} (h : vs.Perm ws) :
    (Value.handles vs).Perm (Value.handles ws) :=
  h.filterMap _

theorem Value.mem_handles {vs : List Value} {x : Handle} :
    x ∈ Value.handles vs ↔ Value.object x ∈ vs := by
  simp only [handles, List.mem_filterMap]
  constructor
  · rintro ⟨v, hv, hx⟩
    cases v <;> simp_all [handle?]
  · exact fun h => ⟨_, h, rfl⟩

theorem Value.count_handles (v : Value) (x : Handle) :
    (Value.handles [v]).count x = if v = .object x then 1 else 0 := by
  cases v <;> simp [handles, handle?, List.filterMap_cons, List.count_cons]

/-- The handles that the object of a slot counts on. -/
def Slot.children (s : Slot) : List Handle := s.cell.elim [] fun c => c.object.children

/-- The count of the object of a slot. -/
def Slot.count (s : Slot) : Nat := s.cell.elim 0 Cell.count

namespace Heap

/-- The handles that live objects count on, one for each occurrence. -/
def inner (h : Heap) : List Handle := h.slots.toList.flatMap Slot.children

/-- The sum of the counts of all live objects. -/
def total (h : Heap) : Nat := (h.slots.toList.map Slot.count).sum

/-- The number of releases so far that found a count of zero: a retain adds one to `total`, any
other release takes one from it. -/
def lost (h : Heap) : Int := h.total + h.stats.releases - h.stats.retains

/-- The slots of the free list are empty, and listed once. -/
structure WellFormed (h : Heap) : Prop where
  nodup : h.free.Nodup
  empty : ∀ i ∈ h.free, ∃ g, h.slots[i.toNat]? = some ⟨g, none⟩

/-- What is live in the first heap is live in the second. -/
def Keeps (h h' : Heap) : Prop := ∀ x, h.contains x = true → h'.contains x = true

/-! ## Looking up -/

theorem find?_eq_some_iff {h : Heap} {x : Handle} {c : Cell} :
    h.find? x = some c ↔ h.slots[x.index.toNat]? = some ⟨x.generation, some c⟩ := by
  unfold find?
  cases hs : h.slots[x.index.toNat]? with
  | none => simp
  | some s =>
    obtain ⟨g, cell⟩ := s
    by_cases hg : g = x.generation <;> simp [hg]

theorem contains_iff {h : Heap} {x : Handle} :
    h.contains x = true ↔ ∃ c, h.find? x = some c := by
  simp [contains, Option.isSome_iff_exists]

theorem object?_eq_some_iff {h : Heap} {x : Handle} {o : Object} :
    h.object? x = some o ↔ ∃ n, h.find? x = some ⟨n, o⟩ := by
  rw [object?, Option.map_eq_some_iff]
  constructor
  · rintro ⟨⟨n, o'⟩, hc, rfl⟩; exact ⟨n, hc⟩
  · rintro ⟨n, hc⟩; exact ⟨_, hc, rfl⟩

theorem contains_of_object? {h : Heap} {x : Handle} {o : Object} (ho : h.object? x = some o) :
    h.contains x = true := by
  obtain ⟨n, hn⟩ := object?_eq_some_iff.1 ho
  exact contains_iff.2 ⟨_, hn⟩

theorem exists_object?_of_contains {h : Heap} {x : Handle} (hx : h.contains x = true) :
    ∃ o, h.object? x = some o := by
  obtain ⟨c, hc⟩ := contains_iff.1 hx
  exact ⟨c.object, by rw [object?, hc]; rfl⟩

/-- A slot holds at most one live object, so live handles to one slot are equal. -/
theorem eq_of_index_eq {h : Heap} {x y : Handle} {c d : Cell} (hx : h.find? x = some c)
    (hy : h.find? y = some d) (hi : x.index = y.index) : x = y := by
  rw [find?_eq_some_iff] at hx hy
  rw [hi, hy] at hx
  obtain ⟨xi, xg⟩ := x
  obtain ⟨yi, yg⟩ := y
  simp only [Option.some.injEq, Slot.mk.injEq] at hx
  simp_all

/-! ## Sums over slots -/

theorem sum_map_modify {α : Type} (g : α → Nat) (f : α → α) :
    ∀ (l : List α) (i : Nat) (a : α), l[i]? = some a →
      ((l.modify i f).map g).sum + g a = (l.map g).sum + g (f a)
  | [], i, a, h => by simp at h
  | b :: l, 0, a, h => by
    simp only [List.getElem?_cons_zero, Option.some.injEq] at h
    subst h
    simp only [List.modify_zero_cons, List.map_cons, List.sum_cons]
    omega
  | b :: l, i + 1, a, h => by
    have := sum_map_modify g f l i a (by simpa using h)
    simp only [List.modify_succ_cons, List.map_cons, List.sum_cons]
    omega

theorem count_inner (h : Heap) (x : Handle) :
    h.inner.count x = (h.slots.toList.map fun s => s.children.count x).sum := by
  rw [inner, List.count_flatMap]; rfl

/-- The children of a live object are among those of the heap. -/
theorem mem_inner_of_find? {h : Heap} {x y : Handle} {c : Cell} (hx : h.find? x = some c)
    (hy : y ∈ c.object.children) : y ∈ h.inner := by
  rw [find?_eq_some_iff] at hx
  refine List.mem_flatMap.2 ⟨_, ?_, show y ∈ Slot.children ⟨x.generation, some c⟩ from hy⟩
  rw [← Array.getElem?_toList] at hx
  exact List.mem_of_getElem? hx

/-! ## Changing one object -/

theorem find?_modifyCell (h : Heap) (x y : Handle) (f : Cell → Cell) :
    (h.modifyCell x f).find? y =
      if y.index = x.index then (h.find? y).map f else h.find? y := by
  unfold find? modifyCell
  simp only [Array.getElem?_modify]
  by_cases hi : y.index = x.index
  · rw [if_pos hi, if_pos (by rw [hi])]
    cases hs : h.slots[y.index.toNat]? with
    | none => simp
    | some s =>
      simp only [Option.map_some]
      split <;> rfl
  · have hn : x.index.toNat ≠ y.index.toNat := fun hn => hi (UInt32.toNat.inj hn.symm)
    rw [if_neg hi, if_neg hn]

theorem find?_modifyCell_of_find? {h : Heap} {x y : Handle} {c : Cell} {f : Cell → Cell}
    (hx : h.find? x = some c) :
    (h.modifyCell x f).find? y = if y = x then some (f c) else h.find? y := by
  rw [find?_modifyCell]
  by_cases hyx : y = x
  · subst hyx; simp [hx]
  · rw [if_neg hyx]
    by_cases hi : y.index = x.index
    · rw [if_pos hi]
      cases hy : h.find? y with
      | none => rfl
      | some d => exact absurd (eq_of_index_eq hy hx hi) hyx
    · rw [if_neg hi]

theorem contains_modifyCell (h : Heap) (x y : Handle) (f : Cell → Cell) :
    (h.modifyCell x f).contains y = h.contains y := by
  unfold contains
  rw [find?_modifyCell]
  split <;> simp

@[simp] theorem size_modifyCell (h : Heap) (x : Handle) (f : Cell → Cell) :
    (h.modifyCell x f).slots.size = h.slots.size := by
  simp [modifyCell]

@[simp] theorem stats_modifyCell (h : Heap) (x : Handle) (f : Cell → Cell) :
    (h.modifyCell x f).stats = h.stats := rfl

theorem count_inner_modifyCell {h : Heap} {x : Handle} {c : Cell} (f : Cell → Cell)
    (hx : h.find? x = some c) (y : Handle) :
    (h.modifyCell x f).inner.count y + c.object.children.count y =
      h.inner.count y + (f c).object.children.count y := by
  rw [find?_eq_some_iff, ← Array.getElem?_toList] at hx
  rw [count_inner, count_inner, modifyCell, Array.toList_modify]
  exact sum_map_modify (fun s => s.children.count y) _ _ _ _ hx

theorem total_modifyCell {h : Heap} {x : Handle} {c : Cell} (f : Cell → Cell)
    (hx : h.find? x = some c) :
    (h.modifyCell x f).total + c.count = h.total + (f c).count := by
  rw [find?_eq_some_iff, ← Array.getElem?_toList] at hx
  rw [total, total, modifyCell, Array.toList_modify]
  exact sum_map_modify Slot.count _ _ _ _ hx

theorem WellFormed.modifyCell {h : Heap} (hw : h.WellFormed) (x : Handle) (f : Cell → Cell) :
    (h.modifyCell x f).WellFormed := by
  refine ⟨hw.nodup, fun i hi => ?_⟩
  obtain ⟨g, hg⟩ := hw.empty i hi
  refine ⟨g, ?_⟩
  simp only [Heap.modifyCell, Array.getElem?_modify]
  split
  · rw [hg]; rfl
  · exact hg

/-- A heap that differs in its counters only. -/
theorem WellFormed.congr {h h' : Heap} (hw : h.WellFormed) (hs : h'.slots = h.slots)
    (hf : h'.free = h.free) : h'.WellFormed :=
  ⟨hf ▸ hw.nodup, fun i hi => by rw [hs]; exact hw.empty i (hf ▸ hi)⟩

/-! ## New objects -/

/-- What allocation does to the slots: one that was empty, or that did not exist, holds the new
object. -/
theorem allocate_cases {h : Heap} (hw : h.WellFormed) (hs : h.slots.size < 2 ^ 32) (o : Object) :
    (∃ i g free, h.free = i :: free ∧ h.slots[i.toNat]? = some ⟨g, none⟩ ∧
      (h.allocate o).1 = ⟨i, g⟩ ∧ (h.allocate o).2.free = free ∧
      (h.allocate o).2.slots = h.slots.modify i.toNat fun s => { s with cell := some ⟨0, o⟩ }) ∨
    (h.free = [] ∧ (h.allocate o).1 = ⟨UInt32.ofNat h.slots.size, 0⟩ ∧
      (UInt32.ofNat h.slots.size).toNat = h.slots.size ∧ (h.allocate o).2.free = [] ∧
      (h.allocate o).2.slots = h.slots.push ⟨0, some ⟨0, o⟩⟩) := by
  unfold allocate
  split
  · next i free hf =>
    obtain ⟨g, hg⟩ := hw.empty i (by simp [hf])
    exact .inl ⟨i, g, free, hf, hg, by simp [hg], rfl, rfl⟩
  · next hf =>
    refine .inr ⟨hf, rfl, ?_, rfl, rfl⟩
    rw [UInt32.toNat_ofNat', Nat.mod_eq_of_lt hs]

@[simp] theorem stats_allocate (h : Heap) (o : Object) :
    (h.allocate o).2.stats = { h.stats with allocations := h.stats.allocations + 1 } := by
  unfold allocate
  split <;> rfl

theorem size_le_allocate (h : Heap) (o : Object) :
    h.slots.size ≤ (h.allocate o).2.slots.size := by
  unfold allocate
  split <;> simp

theorem size_allocate_le (h : Heap) (o : Object) :
    (h.allocate o).2.slots.size ≤ h.slots.size + 1 := by
  unfold allocate
  split <;> simp

theorem WellFormed.allocate {h : Heap} (hw : h.WellFormed) (hs : h.slots.size < 2 ^ 32)
    (o : Object) : (h.allocate o).2.WellFormed := by
  obtain ⟨i, g, free, hf, hg, -, hfree, hslots⟩ | ⟨hf, -, -, hfree, hslots⟩ := allocate_cases hw hs o
  · have hn := hw.nodup
    rw [hf, List.nodup_cons] at hn
    refine ⟨hfree ▸ hn.2, fun j hj => ?_⟩
    rw [hfree] at hj
    obtain ⟨g', hg'⟩ := hw.empty j (by rw [hf]; exact List.mem_cons_of_mem _ hj)
    have hij : i.toNat ≠ j.toNat := fun hij => hn.1 (UInt32.toNat.inj hij ▸ hj)
    exact ⟨g', by rw [hslots, Array.getElem?_modify, if_neg hij, hg']⟩
  · exact ⟨by rw [hfree]; exact List.nodup_nil, fun j hj => by rw [hfree] at hj; cases hj⟩

/-- The new handle was not in use. -/
theorem find?_new {h : Heap} (hw : h.WellFormed) (hs : h.slots.size < 2 ^ 32) (o : Object) :
    h.find? (h.allocate o).1 = none := by
  obtain ⟨i, g, free, -, hg, hx, -, -⟩ | ⟨-, hx, hi, -, -⟩ := allocate_cases hw hs o
  · rw [hx, find?]
    simp only [hg]
    simp
  · rw [hx, find?]
    simp only [hi]
    simp

/-- Allocation adds the new object, and changes nothing else. -/
theorem find?_allocate_eq {h : Heap} (hw : h.WellFormed) (hs : h.slots.size < 2 ^ 32) (o : Object)
    (y : Handle) :
    (h.allocate o).2.find? y = if y = (h.allocate o).1 then some ⟨0, o⟩ else h.find? y := by
  by_cases hy : y = (h.allocate o).1
  · rw [if_pos hy, hy]
    refine find?_allocate h o hs fun i hi => ?_
    obtain ⟨g, hg⟩ := hw.empty i hi
    exact (Array.getElem?_eq_some_iff.1 hg).1
  rw [if_neg hy]
  obtain ⟨i, g, free, -, hg, hx, -, hslots⟩ | ⟨-, hx, hi, -, hslots⟩ := allocate_cases hw hs o
  · rw [find?, find?, hslots, Array.getElem?_modify]
    by_cases hiy : i.toNat = y.index.toNat
    · have hgy : g ≠ y.generation := fun hgy => hy (by rw [hx, hgy, UInt32.toNat.inj hiy])
      rw [if_pos hiy, ← hiy, hg]
      simp [hgy]
    · rw [if_neg hiy]
  · rw [find?, find?, hslots, Array.getElem?_push]
    by_cases hsy : y.index.toNat = h.slots.size
    · have hgy : (0 : UInt32) ≠ y.generation := fun hgy =>
        hy (by rw [hx, hgy, ← UInt32.toNat.inj (hsy.trans hi.symm)])
      rw [if_pos hsy, hsy]
      simp [hgy]
    · rw [if_neg hsy]

theorem count_inner_allocate {h : Heap} (hw : h.WellFormed) (hs : h.slots.size < 2 ^ 32)
    (o : Object) (y : Handle) :
    (h.allocate o).2.inner.count y = h.inner.count y + o.children.count y := by
  obtain ⟨i, g, free, -, hg, -, -, hslots⟩ | ⟨-, -, -, -, hslots⟩ := allocate_cases hw hs o
  · rw [count_inner, count_inner, hslots, Array.toList_modify]
    rw [← Array.getElem?_toList] at hg
    have := sum_map_modify (fun s => s.children.count y)
      (fun s => { s with cell := some ⟨0, o⟩ }) _ _ _ hg
    simpa [Slot.children] using this
  · rw [count_inner, count_inner, hslots]
    simp [Slot.children]

theorem total_allocate {h : Heap} (hw : h.WellFormed) (hs : h.slots.size < 2 ^ 32) (o : Object) :
    (h.allocate o).2.total = h.total := by
  obtain ⟨i, g, free, -, hg, -, -, hslots⟩ | ⟨-, -, -, -, hslots⟩ := allocate_cases hw hs o
  · rw [total, total, hslots, Array.toList_modify]
    rw [← Array.getElem?_toList] at hg
    have := sum_map_modify Slot.count (fun s => { s with cell := some ⟨0, o⟩ }) _ _ _ hg
    simpa [Slot.count] using this
  · rw [total, total, hslots]
    simp [Slot.count]

/-- Changes the contents of the object of a handle. -/
def changeObject (h : Heap) (x : Handle) (g : Object → Object) : Heap :=
  h.modifyCell x fun c => { c with object := g c.object }

/-- A change of counts leaves the contents of objects alone. -/
theorem object?_modifyCell (h : Heap) (x y : Handle) {f : Cell → Cell}
    (hf : ∀ c, (f c).object = c.object) : (h.modifyCell x f).object? y = h.object? y := by
  unfold object?
  rw [find?_modifyCell]
  split
  · cases h.find? y <;> simp [hf]
  · rfl

theorem object?_retain {h h' : Heap} {v : Value} (hr : Heap.retain v h = .ok () h') (y : Handle) :
    h'.object? y = h.object? y := by
  cases v with
  | object x =>
    simp only [Heap.retain] at hr
    split at hr
    · cases hr; exact object?_modifyCell h x y fun _ => rfl
    · cases hr
  | _ => cases hr; rfl

theorem object?_release {h h' : Heap} {v : Value} (hr : Heap.release v h = .ok () h')
    (y : Handle) : h'.object? y = h.object? y := by
  cases v with
  | object x =>
    simp only [Heap.release] at hr
    split at hr
    · cases hr; exact object?_modifyCell h x y fun _ => rfl
    · cases hr
  | _ => cases hr; rfl

theorem count?_modifyCell {h : Heap} {y : Handle} (hy : h.contains y = true) (g : Nat → Nat)
    (x : Handle) : (h.modifyCell y fun c => { c with count := g c.count }).count? x =
      (h.count? x).map fun n => if x = y then g n else n := by
  obtain ⟨c, hc⟩ := contains_iff.1 hy
  rw [count?, count?, find?_modifyCell_of_find? hc]
  by_cases hxy : x = y
  · rw [if_pos hxy, hxy, hc]
    simp
  · simp only [hxy, if_false, Option.map_id']

theorem count?_retain {h h' : Heap} {v : Value} (hr : Heap.retain v h = .ok () h') (x : Handle) :
    h'.count? x = (h.count? x).map (· + (Value.handles [v]).count x) := by
  cases v with
  | object y =>
    simp only [Heap.retain] at hr
    split at hr
    · next hy =>
      cases hr
      refine (count?_modifyCell hy (· + 1) x).trans ?_
      simp only [Value.count_handles, Value.object.injEq, eq_comm (a := y)]
      split <;> rfl
    · cases hr
  | _ => cases hr; simp [Value.count_handles]

theorem count?_release {h h' : Heap} {v : Value} (hr : Heap.release v h = .ok () h')
    (x : Handle) : h'.count? x = (h.count? x).map (· - (Value.handles [v]).count x) := by
  cases v with
  | object y =>
    simp only [Heap.release] at hr
    split at hr
    · next hy =>
      cases hr
      refine (count?_modifyCell hy (· - 1) x).trans ?_
      simp only [Value.count_handles, Value.object.injEq, eq_comm (a := y)]
      split <;> rfl
    · cases hr
  | _ => cases hr; simp [Value.count_handles]

/-- Counting a value moves the sum of the counts along with the number of retains. -/
theorem lost_retain {h h' : Heap} {v : Value} (hr : Heap.retain v h = .ok () h') :
    h'.lost = h.lost := by
  cases v with
  | object x =>
    simp only [Heap.retain] at hr
    split at hr
    · next hx =>
      obtain ⟨c, hc⟩ := contains_iff.1 hx
      have ht := total_modifyCell (fun c => { c with count := c.count + 1 }) hc
      cases hr
      simp only [lost, stats_modifyCell]
      simp only [total] at ht ⊢
      omega
    · cases hr
  | _ => cases hr; rfl

/-- A release is lost when it finds a count of zero, and only then. -/
theorem lost_release {h h' : Heap} {v : Value} (hr : Heap.release v h = .ok () h') :
    h'.lost = h.lost + if v.handle?.bind h.count? = some 0 then 1 else 0 := by
  cases v with
  | object x =>
    simp only [Heap.release] at hr
    split at hr
    · next hx =>
      obtain ⟨c, hc⟩ := contains_iff.1 hx
      have ht := total_modifyCell (fun c => { c with count := c.count - 1 }) hc
      have hn : (Value.object x).handle?.bind h.count? = some c.count := by
        simp [Value.handle?, count?, hc]
      cases hr
      rw [hn]
      simp only [lost, stats_modifyCell, Option.some.injEq]
      simp only [total] at ht ⊢
      split <;> omega
    · cases hr
  | _ => cases hr; simp [Value.handle?]

theorem object?_changeObject {h : Heap} {x : Handle} {o : Object} (hx : h.object? x = some o)
    (g : Object → Object) (y : Handle) :
    (h.changeObject x g).object? y = if y = x then some (g o) else h.object? y := by
  obtain ⟨n, hn⟩ := object?_eq_some_iff.1 hx
  rw [object?, changeObject, find?_modifyCell_of_find? hn]
  split <;> rfl

/-- Changes that only count: objects and slots stay as they are. -/
structure Recounts (h h' : Heap) : Prop where
  wellFormed : h.WellFormed → h'.WellFormed
  object? : ∀ y, h'.object? y = h.object? y
  slots : h'.slots.size = h.slots.size

theorem Recounts.refl (h : Heap) : h.Recounts h := ⟨id, fun _ => rfl, rfl⟩

theorem Recounts.trans {h₁ h₂ h₃ : Heap} (h₁₂ : h₁.Recounts h₂) (h₂₃ : h₂.Recounts h₃) :
    h₁.Recounts h₃ :=
  ⟨fun hw => h₂₃.wellFormed (h₁₂.wellFormed hw), fun y => (h₂₃.object? y).trans (h₁₂.object? y),
    h₂₃.slots.trans h₁₂.slots⟩

theorem Recounts.contains {h h' : Heap} (hr : h.Recounts h') (y : Handle) :
    h'.contains y = h.contains y := by
  have := hr.object? y
  unfold Heap.object? at this
  unfold Heap.contains
  rw [← Option.isSome_map, this, Option.isSome_map]

theorem recounts_retain {h : Heap} {v : Value} (hv : ∀ x, v = .object x → h.contains x = true) :
    ∃ h', Heap.retain v h = .ok () h' ∧ h.Recounts h' := by
  cases v with
  | object x =>
    refine ⟨_, by simp only [Heap.retain, hv x rfl]; rfl, fun hw => ?_, fun y => ?_, ?_⟩
    · exact (hw.modifyCell x _).congr rfl rfl
    · exact object?_modifyCell h x y fun _ => rfl
    · exact size_modifyCell h x _
  | _ => exact ⟨h, rfl, .refl h⟩

theorem recounts_release {h : Heap} {v : Value} (hv : ∀ x, v = .object x → h.contains x = true) :
    ∃ h', Heap.release v h = .ok () h' ∧ h.Recounts h' := by
  cases v with
  | object x =>
    refine ⟨_, by simp only [Heap.release, hv x rfl]; rfl, fun hw => ?_, fun y => ?_, ?_⟩
    · exact (hw.modifyCell x _).congr rfl rfl
    · exact object?_modifyCell h x y fun _ => rfl
    · exact size_modifyCell h x _
  | _ => exact ⟨h, rfl, .refl h⟩

theorem recounts_retainAll : ∀ {vs : List Value} {h : Heap},
    (∀ x, Value.object x ∈ vs → h.contains x = true) →
    ∃ h', Heap.retainAll vs h = .ok () h' ∧ h.Recounts h'
  | [], h, _ => ⟨h, rfl, .refl h⟩
  | v :: vs, h, hv => by
    obtain ⟨h₁, hr₁, hc₁⟩ := recounts_retain (v := v) fun x hx => hv x (by simp [hx])
    obtain ⟨h₂, hr₂, hc₂⟩ := recounts_retainAll fun x hx => by
      rw [hc₁.contains]
      exact hv x (List.mem_cons_of_mem v hx)
    exact ⟨h₂, by simp only [Heap.retainAll, bind, EStateM.bind, hr₁, hr₂], hc₁.trans hc₂⟩

theorem recounts_releaseAll : ∀ {vs : List Value} {h : Heap},
    (∀ x, Value.object x ∈ vs → h.contains x = true) →
    ∃ h', Heap.releaseAll vs h = .ok () h' ∧ h.Recounts h'
  | [], h, _ => ⟨h, rfl, .refl h⟩
  | v :: vs, h, hv => by
    obtain ⟨h₁, hr₁, hc₁⟩ := recounts_release (v := v) fun x hx => hv x (by simp [hx])
    obtain ⟨h₂, hr₂, hc₂⟩ := recounts_releaseAll fun x hx => by
      rw [hc₁.contains]
      exact hv x (List.mem_cons_of_mem v hx)
    exact ⟨h₂, by simp only [Heap.releaseAll, bind, EStateM.bind, hr₁, hr₂], hc₁.trans hc₂⟩

/-- The action never takes slots away, also when it fails. -/
def Grows {α : Type} (act : Action α) : Prop :=
  ∀ h, match act h with
    | .ok _ h' => h.slots.size ≤ h'.slots.size
    | .error _ h' => h.slots.size ≤ h'.slots.size

theorem Grows.bind {α β : Type} {act : Action α} {k : α → Action β} (ha : Grows act)
    (hk : ∀ a, Grows (k a)) : Grows (act >>= k) := fun h => by
  have h₁ := ha h
  simp only [Bind.bind, EStateM.bind]
  cases hr : act h with
  | ok a h' =>
    rw [hr] at h₁
    have h₂ := hk a h'
    dsimp only
    cases hr' : k a h' <;> rw [hr'] at h₂ <;> exact Nat.le_trans h₁ h₂
  | error f h' => rw [hr] at h₁; exact h₁

theorem grows_retain (v : Value) : Grows (retain v) := fun h => by
  cases v with
  | object x =>
    unfold Heap.retain
    by_cases hx : h.contains x = true <;> simp [hx]
  | _ => exact Nat.le_refl _

theorem grows_release (v : Value) : Grows (release v) := fun h => by
  cases v with
  | object x =>
    unfold Heap.release
    by_cases hx : h.contains x = true <;> simp [hx]
  | _ => exact Nat.le_refl _

theorem grows_changeObject (x : Handle) (g : Object → Object) :
    Grows (modify fun h => h.changeObject x g) := fun h =>
  Nat.le_of_eq (size_modifyCell h x _).symm

theorem grows_retainAll : ∀ vs : List Value, Grows (retainAll vs)
  | [] => fun _ => Nat.le_refl _
  | v :: vs => (grows_retain v).bind fun _ => grows_retainAll vs

theorem grows_releaseAll : ∀ vs : List Value, Grows (releaseAll vs)
  | [] => fun _ => Nat.le_refl _
  | v :: vs => (grows_release v).bind fun _ => grows_releaseAll vs

theorem grows_allocateM (o : Object) : Grows (allocateM o) := fun h => size_le_allocate h o

theorem grows_setElement (x : Handle) (i : Nat) (v : Value) : Grows (setElement x i v) := fun h => by
  unfold Heap.setElement
  cases h.object? x with
  | none => exact Nat.le_refl _
  | some o =>
    dsimp only
    cases o.elements? with
    | none => exact Nat.le_refl _
    | some vs =>
      dsimp only
      cases vs[i]? with
      | none => exact Nat.le_refl _
      | some old =>
        have hg := ((grows_retain v).bind fun _ => grows_release old)
          (h.modifyCell x fun c =>
            { c with object := c.object.mapElements fun vs => vs.setIfInBounds i v })
        rw [size_modifyCell] at hg
        exact hg

theorem modifyCell_comm (h : Heap) (x y : Handle) {f g : Cell → Cell} (hfg : ∀ c, g (f c) = f (g c)) :
    (h.modifyCell x f).modifyCell y g = (h.modifyCell y g).modifyCell x f := by
  unfold modifyCell
  congr 1
  apply Array.ext_getElem?
  intro i
  simp only [Array.getElem?_modify]
  by_cases hx : x.index.toNat = i <;> by_cases hy : y.index.toNat = i <;>
    cases h.slots[i]? <;> simp [hx, hy, Function.comp_def, hfg]

/-- Counting a value and changing an object can be done in either order. -/
theorem retain_changeObject (h : Heap) (x : Handle) (g : Object → Object) (v : Value) {h' : Heap}
    (hr : Heap.retain v h = .ok () h') :
    Heap.retain v (h.changeObject x g) = .ok () (h'.changeObject x g) := by
  cases v with
  | object y =>
    have hc : (h.changeObject x g).contains y = h.contains y := contains_modifyCell h x y _
    simp only [Heap.retain] at hr ⊢
    rw [hc]
    split at hr
    · next hy =>
      rw [if_pos hy]
      cases hr
      have hcomm := modifyCell_comm h x y (f := fun c => { c with object := g c.object })
        (g := fun c => { c with count := c.count + 1 }) fun _ => rfl
      simp only [changeObject] at hcomm ⊢
      rw [hcomm]
      rfl
    · cases hr
  | _ =>
    simp only [Heap.retain, EStateM.Result.ok.injEq, true_and] at hr ⊢
    rw [hr]

end Heap

/-! ## Elements of objects -/

namespace Object

theorem children_of_elements? {o : Object} {vs : Array Value} (h : o.elements? = some vs) :
    o.children = Value.handles vs.toList := by
  cases o <;> simp_all [elements?, children, Value.handles]

theorem elements?_mapElements {o : Object} {vs : Array Value} (h : o.elements? = some vs)
    (f : Array Value → Array Value) : (o.mapElements f).elements? = some (f vs) := by
  cases o <;> simp_all [elements?, mapElements]

theorem perm_set {α : Type} : ∀ {l : List α} {i : Nat} {a : α} (b : α), l[i]? = some a →
    (l ++ [b]).Perm (l.set i b ++ [a])
  | [], i, a, b, h => by simp at h
  | c :: l, 0, a, b, h => by
    simp only [List.getElem?_cons_zero, Option.some.injEq] at h
    subst h
    refine (List.perm_append_singleton b (c :: l)).trans ?_
    exact (List.perm_append_singleton c l).symm.cons b
  | c :: l, i + 1, a, b, h => (perm_set b (by simpa using h)).cons c

/-- Storing an element takes the new value as a child, and gives up the old one. -/
theorem children_set {o : Object} {vs : Array Value} {i : Nat} {old : Value}
    (ho : o.elements? = some vs) (hi : vs[i]? = some old) (v : Value) :
    (o.children ++ Value.handles [v]).Perm
      ((o.mapElements fun vs => vs.setIfInBounds i v).children ++ Value.handles [old]) := by
  rw [children_of_elements? ho, children_of_elements? (elements?_mapElements ho _),
    ← Value.handles_append, ← Value.handles_append, Array.toList_setIfInBounds]
  rw [← Array.getElem?_toList] at hi
  exact Value.handles_perm (perm_set v hi)

end Object

end Scriptlet
