import Scriptlet.Proofs.Heap.Arena
import Scriptlet.Proofs.Heap.Stores
import Scriptlet.Proofs.Machine.Places

/-!
# Stores that go through

A place is overwritten in four ways: `Heap.replace` for a place outside of the heap,
`Heap.setElement` for an element, and the actions of the machine for local slots and for globals.
They write, count and release in different orders, and one of them makes slots on the way. Where a
store goes through, each comes down to one `Heap.recount` of what the place held before and what it
holds now, beside the change of the place. A recount moves one count (`Heap.CountMoves`), also where
the old object and the new one are the same, or are the container itself.

Main statement: `Machine.stores_move_one_count`.
-/

namespace Scriptlet

namespace Heap

/-- The count of an object after one count has moved from an old value to a new one. A count of zero
stays zero. -/
def countMoved (old new : Value) (x : Handle) (n : Nat) : Nat :=
  if old = new then n
  else if new = .object x then n + 1
  else if old = .object x then n - 1
  else n

/-- One count has moved from an old value to a new one; each of them was a live object or no handle.
Besides counts and traffic, only the contents of objects may differ. -/
structure CountMoves (old new : Value) (h h' : Heap) : Prop where
  old_live : h.isStale old = false
  new_live : h.isStale new = false
  count? : ∀ x, h'.count? x = (h.count? x).map (countMoved old new x)
  outline : h'.slots.map Slot.outline = h.slots.map Slot.outline
  rest : h' = { h with
    slots := h'.slots
    stats := { h.stats with
      retains := h.stats.retains + if new.handle?.isSome then 1 else 0
      releases := h.stats.releases + if old.handle?.isSome then 1 else 0 } }

/-- Element `i` of `x` has changed from one value to another, and nothing else in any object has. -/
structure ElementStored (x : Handle) (i : Nat) (old v : Value) (h h' : Heap) : Prop where
  held : h.element? x i = some old
  holds : h'.element? x i = some v
  elsewhere : ∀ y j, (y, j) ≠ (x, i) → h'.element? y j = h.element? y j
  others : ∀ y, y ≠ x → h'.object? y = h.object? y
  container : h'.object? x =
    (h.object? x).map (Object.mapElements fun vs => vs.setIfInBounds i v)

/-- Counts a new value, and then one place less for an old one. -/
def recount (old new : Value) : Action Unit := do
  retain new
  release old

variable {h h' : Heap} {x y : Handle} {i j : Nat} {v old new place : Value}

/-! ## One count -/

theorem not_isStale_of_retain (hr : retain v h = .ok () h') : h.isStale v = false := by
  cases hv : h.isStale v with
  | false => rfl
  | true => rw [retain_of_isStale hv] at hr; cases hr

theorem not_isStale_of_release (hr : release v h = .ok () h') : h.isStale v = false := by
  cases hv : h.isStale v with
  | false => rfl
  | true => rw [release_of_isStale hv] at hr; cases hr

theorem rest_of_retain (hr : retain v h = .ok () h') : h' = { h with
    slots := h'.slots
    stats := { h.stats with
      retains := h.stats.retains + if v.handle?.isSome then 1 else 0 } } := by
  cases v with
  | object x =>
    simp only [retain] at hr
    split at hr
    · cases hr; rfl
    · cases hr
  | _ => cases hr; rfl

theorem rest_of_release (hr : release v h = .ok () h') : h' = { h with
    slots := h'.slots
    stats := { h.stats with
      releases := h.stats.releases + if v.handle?.isSome then 1 else 0 } } := by
  cases v with
  | object x =>
    simp only [release] at hr
    split at hr
    · cases hr; rfl
    · cases hr
  | _ => cases hr; rfl

/-- A retain and a release of the same object cancel out; those of different objects do not meet. -/
theorem countMoved_eq (old new : Value) (x : Handle) (n : Nat) : countMoved old new x n =
    n + (Value.handles [new]).count x - (Value.handles [old]).count x := by
  rw [Value.count_handles, Value.count_handles, countMoved]
  by_cases hsame : old = new
  · rw [if_pos hsame, hsame, Nat.add_sub_cancel]
  · rw [if_neg hsame]
    by_cases hnew : new = .object x
    · -- the old value is another object, so there is nothing to take back
      have hold : old ≠ .object x := fun hold => hsame (hold.trans hnew.symm)
      rw [if_pos hnew, if_pos hnew, if_neg hold, Nat.sub_zero]
    · rw [if_neg hnew, if_neg hnew, Nat.add_zero]
      split <;> rfl

theorem exists_of_recount (hr : recount old new h = .ok () h') :
    ∃ h₁, retain new h = .ok () h₁ ∧ release old h₁ = .ok () h' := by
  simp only [recount, bind, EStateM.bind] at hr
  cases hr₁ : retain new h with
  | ok u h₁ => rw [hr₁] at hr; exact ⟨h₁, rfl, hr⟩
  | error e h₁ => rw [hr₁] at hr; cases hr

theorem object?_recount (hr : recount old new h = .ok () h') (y : Handle) :
    h'.object? y = h.object? y := by
  obtain ⟨h₁, hr₁, hr₂⟩ := exists_of_recount hr
  rw [object?_release hr₂, object?_retain hr₁]

theorem Like.isStale (hl : h.Like h') (v : Value) : h'.isStale v = h.isStale v := by
  have hc : h'.contains = h.contains := funext fun x => Bool.eq_iff_iff.2 (hl.contains_iff x)
  rw [Heap.isStale, Heap.isStale, hc]

theorem countMoves_of_recount (hr : recount old new h = .ok () h') : h.CountMoves old new h' := by
  obtain ⟨h₁, hr₁, hr₂⟩ := exists_of_recount hr
  have hlike₁ : h.Like h₁ := by simpa only [Action.final, hr₁] using alike_retain new h
  have hlike₂ : h₁.Like h' := by simpa only [Action.final, hr₂] using alike_release old h₁
  constructor
  · rw [← hlike₁.isStale]
    exact not_isStale_of_release hr₂
  · exact not_isStale_of_retain hr₁
  · intro x
    rw [count?_release hr₂, count?_retain hr₁, Option.map_map]
    exact congrArg (Option.map · (h.count? x)) (funext fun n => (countMoved_eq old new x n).symm)
  · exact (hlike₁.trans hlike₂).slots
  · rw [rest_of_release hr₂, rest_of_retain hr₁]

/-! ## Elements -/

theorem count?_putElement (h : Heap) (x : Handle) (i : Nat) (v : Value) (y : Handle) :
    (h.putElement x i v).count? y = h.count? y := by
  rw [count?, count?, putElement, changeObject, find?_modifyCell]
  split
  · rw [Option.map_map]
    rfl
  · rfl

/-- Putting a value into an element before counting makes no difference to what is counted. -/
theorem CountMoves.of_putElement (hm : (h.putElement x i v).CountMoves old new h') :
    h.CountMoves old new h' where
  old_live := by rw [← hm.old_live, putElement, isStale_changeObject]
  new_live := by rw [← hm.new_live, putElement, isStale_changeObject]
  count? y := by rw [hm.count? y, count?_putElement]
  outline := hm.outline.trans (like_modifyCell h x _).slots
  rest := hm.rest

theorem object?_putElement (he : h.element? x i = some old) (v : Value) (y : Handle) :
    (h.putElement x i v).object? y =
      if y = x then (h.object? x).map (Object.mapElements fun vs => vs.setIfInBounds i v)
      else h.object? y := by
  obtain ⟨o, vs, ho, -, -⟩ := exists_of_element? he
  rw [putElement, object?_changeObject ho, ho]
  rfl

theorem element?_putElement_of_ne (he : h.element? x i = some old) (v : Value)
    (hne : (y, j) ≠ (x, i)) : (h.putElement x i v).element? y j = h.element? y j := by
  obtain ⟨o, vs, ho, hvs, -⟩ := exists_of_element? he
  rw [element?, element?, object?_putElement he]
  by_cases hyx : y = x
  · have hij : i ≠ j := fun hij => hne (by rw [hyx, hij])
    rw [if_pos hyx, hyx, ho]
    simp [Object.elements?_mapElements hvs, hvs, hij]
  · rw [if_neg hyx]

theorem elementStored_of_recount (he : h.element? x i = some old)
    (hr : recount old v (h.putElement x i v) = .ok () h') : h.ElementStored x i old v h' := by
  have hobject := object?_recount hr
  have helement : ∀ y j, h'.element? y j = (h.putElement x i v).element? y j := fun y j => by
    rw [element?, element?, hobject y]
  constructor
  · exact he
  · rw [helement, element?_putElement he]
  · exact fun y j hne => by rw [helement, element?_putElement_of_ne he v hne]
  · exact fun y hy => by rw [hobject, object?_putElement he, if_neg hy]
  · rw [hobject, object?_putElement he, if_pos rfl]

/-! ## Stores into a heap and beside it -/

theorem exists_of_setElement (hr : setElement x i v h = .ok () h') :
    ∃ old, h.element? x i = some old ∧ recount old v (h.putElement x i v) = .ok () h' := by
  cases he : h.element? x i with
  | none =>
    obtain ⟨e, hr'⟩ := setElement_of_none (v := v) he
    rw [hr'] at hr
    cases hr
  | some old =>
    rw [setElement_of_some he] at hr
    exact ⟨old, rfl, hr⟩

theorem recount_of_replace (hr : (h.replace place new).outcome = .ok ()) :
    (h.replace place new).place = new ∧
      recount place new h = .ok () (h.replace place new).heap := by
  simp only [replace, recount, bind, EStateM.bind] at hr ⊢
  cases hr₁ : retain new h with
  | error e h₁ => simp only [hr₁] at hr; cases hr
  | ok u h₁ =>
    simp only [hr₁] at hr ⊢
    cases hr₂ : release place h₁ with
    | error e h₂ => simp only [hr₂] at hr; cases hr
    | ok u h₂ => exact ⟨rfl, rfl⟩

end Heap

/-! ## Variables -/

namespace Exec

variable {m m' : Machine} {v : Value}

/-- A local slot that does not exist yet is stored as if it held null. -/
theorem recount_of_setLocal {slot : UInt8} (hr : setLocal slot v m = .ok () m') :
    Heap.recount (m.frame.locals[slot.toNat]?.getD .null) v m.heap = .ok () m'.heap ∧
      m' = { m with heap := m'.heap, frame := storeLocal slot.toNat v m.frame } := by
  rw [setLocal_eq, run_get_bind] at hr
  simp only [Heap.recount, bind, EStateM.bind]
  cases hold : m.frame.locals[slot.toNat]? with
  | some old =>
    simp only [hold] at hr
    obtain ⟨_, _, hretain, hr⟩ := exists_of_bind hr
    obtain ⟨h₁, hr₁, rfl⟩ := exists_of_onHeap hretain
    obtain ⟨_, _, hstore, hr⟩ := exists_of_bind hr
    cases hstore
    obtain ⟨h₂, hr₂, rfl⟩ := exists_of_onHeap hr
    rw [hr₁]
    exact ⟨hr₂, rfl⟩
  | none =>
    -- the slot is filled before its value is counted, and the release of null does nothing
    simp only [hold] at hr
    obtain ⟨_, _, hstore, hr⟩ := exists_of_bind hr
    cases hstore
    obtain ⟨h₁, hr₁, rfl⟩ := exists_of_onHeap hr
    rw [show Heap.retain v m.heap = _ from hr₁]
    exact ⟨rfl, rfl⟩

/-- A global that is not bound yet is bound as if it held null. -/
theorem recount_of_setGlobal {name : String} (hr : setGlobal name v m = .ok () m') :
    Heap.recount ((m.globals.find? name).getD .null) v m.heap = .ok () m'.heap ∧
      m' = { m with heap := m'.heap, globals := m.globals.insert name v } := by
  simp only [Heap.recount, bind, EStateM.bind]
  rw [setGlobal] at hr
  obtain ⟨_, _, hretain, hr⟩ := exists_of_bind hr
  obtain ⟨h₁, hr₁, rfl⟩ := exists_of_onHeap hretain
  rw [run_get_bind] at hr
  obtain ⟨_, _, hinsert, hr⟩ := exists_of_bind hr
  cases hinsert
  rw [hr₁]
  cases hold : m.globals.find? name with
  | some old =>
    simp only [hold] at hr
    obtain ⟨h₂, hr₂, rfl⟩ := exists_of_onHeap hr
    exact ⟨hr₂, rfl⟩
  | none =>
    simp only [hold] at hr
    cases hr
    exact ⟨rfl, rfl⟩

end Exec

namespace Machine

/-- A local slot of the innermost call has come to hold a value from the operand stack. The slots below
it that were not there hold null, and no other place of the machine has changed. -/
structure LocalStored (slot : Nat) (v : Value) (m m' : Machine) : Prop where
  operands : m.frame.operands = v :: m'.frame.operands
  locals : ∀ j, m'.frame.locals[j]? =
    if j = slot then some v
    else if m.frame.locals.size ≤ j ∧ j < slot then some .null
    else m.frame.locals[j]?
  objects : ∀ x, m'.heap.object? x = m.heap.object? x
  rest : m' = { m with heap := m'.heap, frame := m'.frame }

/-- A global has come to hold a value, and no other place of the machine has changed. -/
structure GlobalStored (name : String) (v : Value) (m m' : Machine) : Prop where
  holds : m'.globals.find? name = some v
  elsewhere : ∀ other, other ≠ name → m'.globals.find? other = m.globals.find? other
  objects : ∀ x, m'.heap.object? x = m.heap.object? x
  rest : m' = { m with heap := m'.heap, globals := m.globals.insert name v }

variable {m m' : Machine} {v : Value}

theorem localStored_of_setLocal {slot : UInt8} (hr : Exec.execute (.setLocal slot) m = .ok () m') :
    ∃ v, m.LocalStored slot.toNat v m' ∧
      m.heap.CountMoves (m.frame.locals[slot.toNat]?.getD .null) v m'.heap := by
  rw [Exec.execute] at hr
  obtain ⟨v, popped, hpop, hr⟩ := Exec.exists_of_bind hr
  cases hops : m.frame.operands with
  | nil => rw [Exec.pop, hops] at hpop; cases hpop
  | cons w ws =>
    rw [Exec.pop, hops] at hpop
    cases hpop
    obtain ⟨hrecount, hm'⟩ := Exec.recount_of_setLocal hr
    refine ⟨v, ⟨?_, fun j => ?_, Heap.object?_recount hrecount, ?_⟩,
      Heap.countMoves_of_recount hrecount⟩
    · rw [hm', hops]
      rfl
    · rw [hm']
      exact Exec.getElem?_storeLocal ..
    · rw [hm']

theorem globalStored_of_setGlobal {name : String} (hr : Exec.setGlobal name v m = .ok () m') :
    m.GlobalStored name v m' := by
  obtain ⟨hrecount, hm'⟩ := Exec.recount_of_setGlobal hr
  refine ⟨?_, fun other hother => ?_, Heap.object?_recount hrecount, hm'⟩
  · rw [hm']
    exact Bindings.find?_insert_self _ _ _
  · rw [hm']
    exact Bindings.find?_insert_of_ne _ _ hother

/-- In whichever way a place is overwritten, if the store goes through then the place holds the new
value, one count has moved to it from what the place held before (null for a variable that was not
there), and no other place has changed. -/
theorem stores_move_one_count :
    (∀ (h : Heap) (place new : Value), (h.replace place new).outcome = .ok () →
      (h.replace place new).place = new ∧ h.CountMoves place new (h.replace place new).heap ∧
        ∀ x, (h.replace place new).heap.object? x = h.object? x) ∧
    (∀ (h h' : Heap) (x : Handle) (i : Nat) (v : Value), Heap.setElement x i v h = .ok () h' →
      ∃ old, h.ElementStored x i old v h' ∧ h.CountMoves old v h') ∧
    (∀ (m m' : Machine) (slot : UInt8), Exec.execute (.setLocal slot) m = .ok () m' →
      ∃ v, m.LocalStored slot.toNat v m' ∧
        m.heap.CountMoves (m.frame.locals[slot.toNat]?.getD .null) v m'.heap) ∧
    (∀ (m m' : Machine) (name : String) (v : Value), Exec.setGlobal name v m = .ok () m' →
      m.GlobalStored name v m' ∧
        m.heap.CountMoves ((m.globals.find? name).getD .null) v m'.heap) := by
  refine ⟨fun h place new hr => ?_, fun h h' x i v hr => ?_, fun m m' slot => localStored_of_setLocal,
    fun m m' name v hr => ?_⟩
  · obtain ⟨hplace, hrecount⟩ := Heap.recount_of_replace hr
    exact ⟨hplace, Heap.countMoves_of_recount hrecount, Heap.object?_recount hrecount⟩
  · obtain ⟨old, hheld, hrecount⟩ := Heap.exists_of_setElement hr
    exact ⟨old, Heap.elementStored_of_recount hheld hrecount,
      (Heap.countMoves_of_recount hrecount).of_putElement⟩
  · exact ⟨globalStored_of_setGlobal hr,
      Heap.countMoves_of_recount (Exec.recount_of_setGlobal hr).1⟩

/-- An array that holds itself and is the global `a`, and a string on the operand stack. -/
def selfHolding : Machine :=
  let h := (Heap.empty.allocate (.array #[.object ⟨0, 0⟩])).2
  { bytecode := {}, config := {}
    heap := (h.modifyCell ⟨0, 0⟩ fun c => { c with count := 2 }).allocate (.string "s") |>.2
    frame := { operands := [.object ⟨1, 0⟩] }
    globals := .insert .empty "a" (.object ⟨0, 0⟩) }

theorem stores_move_one_count_selfHolding :
    let m := selfHolding
    let array : Value := .object ⟨0, 0⟩
    let string : Value := .object ⟨1, 0⟩
    ((m.heap.replace string string).outcome = .ok () ∧
      m.heap.CountMoves string string (m.heap.replace string string).heap) ∧
    (∃ h, Heap.setElement ⟨0, 0⟩ 0 string m.heap = .ok () h ∧
      m.heap.ElementStored ⟨0, 0⟩ 0 array string h ∧ m.heap.CountMoves array string h) ∧
    (∃ m', Exec.execute (.setLocal 2) m = .ok () m' ∧ m.LocalStored 2 string m' ∧
      m.heap.CountMoves .null string m'.heap) ∧
    ∃ m', Exec.setGlobal "a" array m = .ok () m' ∧ m.GlobalStored "a" array m' ∧
      m.heap.CountMoves array array m'.heap := by
  intro m array string
  obtain ⟨hreplace, helement, hlocal, hglobal⟩ := stores_move_one_count
  refine ⟨⟨rfl, (hreplace m.heap string string rfl).2.1⟩, ⟨_, rfl, ?_⟩, ⟨_, rfl, ?_⟩,
    ⟨_, rfl, hglobal m _ "a" array rfl⟩⟩
  · obtain ⟨old, hstored, hmoves⟩ := helement m.heap _ ⟨0, 0⟩ 0 string rfl
    have hold : some old = some array := hstored.held.symm.trans (by decide)
    cases hold
    exact ⟨hstored, hmoves⟩
  · obtain ⟨v, hstored, hmoves⟩ := hlocal m _ 2 rfl
    cases hstored.operands
    exact ⟨hstored, hmoves⟩

end Machine

end Scriptlet
