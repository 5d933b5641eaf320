import Scriptlet.Proofs.Heap.Unheld
import Scriptlet.Proofs.Machine.Backed
import Scriptlet.Proofs.Machine.ExactCounts

/-!
# Garbage stays garbage

`Machine.Garbage x m`: the object of `x` is live and counted for nothing, and the machine holds it
nowhere, neither on an operand stack nor in a variable, as a constant or inside of an object. An
instruction works with what the machine holds and with new objects, so it does not come across `x`
again (`Exec.spares_execute`), and `x` is garbage until a sweep frees it
(`Machine.Garbage.after`, `Machine.Garbage.contains_sweep`).

`Machine.Spared x temps m` adds that `x` is not among what an action has in its hands. It is stated for
machines with fewer than 2 ^ 32 slots, beyond which a new object may get the handle `x`.
-/

namespace Scriptlet

namespace Machine

/-- The handles that a machine holds: on operand stacks, in variables, as constants, and inside of
objects. -/
def held (m : Machine) : List Handle := m.pinned ++ (m.owners ++ m.heap.inner)

/-- The object of a handle is live, counted for nothing, and held nowhere. -/
structure Garbage (x : Handle) (m : Machine) : Prop where
  heap : m.heap.Unheld x
  operands : x ∉ m.pinned
  owners : x ∉ m.owners

/-- A handle is garbage, and not in the hands of an action (module doc). -/
def Spared (x : Handle) (temps : List Handle) (m : Machine) : Prop :=
  m.heap.slots.size < 2 ^ 32 → m.Garbage x ∧ x ∉ temps

variable {x : Handle} {temps temps' : List Handle} {m m' : Machine}

theorem Garbage.not_held (hg : m.Garbage x) : x ∉ m.held := by
  rw [held, List.mem_append, List.mem_append, not_or, not_or]
  exact ⟨hg.operands, hg.owners, hg.heap.inner⟩

/-- A sweep frees garbage, whatever else it has to keep. -/
theorem Garbage.contains_sweep (hg : m.Garbage x) {pinned : Handle → Bool} (hp : pinned x = false) :
    (m.heap.sweep pinned).2.contains x = false :=
  hg.heap.contains_sweep hp

namespace Spared

theorem mono (hm : m.Spared x temps) (hsub : ∀ y ∈ temps', y ∈ temps) : m.Spared x temps' :=
  fun hs => ⟨(hm hs).1, fun hx => (hm hs).2 (hsub x hx)⟩

theorem drop (hm : m.Spared x temps) : m.Spared x [] :=
  hm.mono fun _ hy => by cases hy

/-- Whatever the machine holds can be taken in hands. -/
theorem add (hm : m.Spared x temps) (hadd : m.Garbage x → x ∉ temps') :
    m.Spared x (temps' ++ temps) := fun hs => by
  obtain ⟨hg, ht⟩ := hm hs
  refine ⟨hg, fun hx => ?_⟩
  rcases List.mem_append.1 hx with hx | hx
  · exact hadd hg hx
  · exact ht hx

theorem addScalar (hm : m.Spared x temps) {v : Value} (hv : v.handle? = none) :
    m.Spared x (Value.handles [v] ++ temps) :=
  hm.add fun _ hx => by
    rw [Value.mem_handles, List.mem_singleton] at hx
    rw [← hx] at hv
    cases hv

/-- Handles that change their places on the same heap. -/
theorem reown (hm : m.Spared x temps) (hheap : m'.heap = m.heap)
    (hsub : ∀ y, y ∈ temps' ∨ y ∈ m'.pinned ∨ y ∈ m'.owners →
      y ∈ temps ∨ y ∈ m.pinned ∨ y ∈ m.owners) : m'.Spared x temps' := fun hs => by
  rw [hheap] at hs
  obtain ⟨hg, ht⟩ := hm hs
  have hnot : ¬ (x ∈ temps' ∨ x ∈ m'.pinned ∨ x ∈ m'.owners) := fun hx => by
    rcases hsub x hx with hx | hx | hx
    · exact ht hx
    · exact hg.operands hx
    · exact hg.owners hx
  rw [not_or, not_or] at hnot
  exact ⟨⟨hheap ▸ hg.heap, hnot.2.1, hnot.2.2⟩, hnot.1⟩

/-- The same places with other operands in the innermost call. -/
theorem reframe (hm : m.Spared x temps) {vs : List Value}
    (hsub : ∀ y, y ∈ temps' ∨ y ∈ Value.handles vs → y ∈ temps ∨ y ∈ Value.handles m.frame.operands) :
    ({ m with frame := { m.frame with operands := vs } } : Machine).Spared x temps' := by
  refine hm.reown rfl fun y hy => ?_
  rw [Exec.pinned_push, List.mem_append] at hy
  rw [Exec.pinned_eq, List.mem_append]
  have := hsub y
  rcases hy with hy | (hy | hy) | hy
  · exact (this (.inl hy)).imp_right fun hy => .inl (.inl hy)
  · exact (this (.inr hy)).imp_right fun hy => .inl (.inl hy)
  · exact .inr (.inl (.inr hy))
  · exact .inr (.inr hy)

/-- What no place is changed by. -/
theorem congr (hm : m.Spared x temps) (hheap : m'.heap = m.heap) (hpinned : m'.pinned = m.pinned)
    (howners : m'.owners = m.owners) : m'.Spared x temps :=
  hm.reown hheap fun y hy => by rwa [hpinned, howners] at hy

theorem withHeap (hm : m.Spared x temps) {h : Heap} (hs : m.heap.slots.size ≤ h.slots.size)
    (hu : m.heap.slots.size < 2 ^ 32 → m.heap.Unheld x → x ∉ temps → h.Unheld x) :
    ({ m with heap := h } : Machine).Spared x temps := fun hs' => by
  have hlt := Nat.lt_of_le_of_lt hs hs'
  obtain ⟨hg, ht⟩ := hm hlt
  exact ⟨⟨hu hlt hg.heap ht, hg.operands, hg.owners⟩, ht⟩

end Spared

end Machine

open Machine (Spared)

namespace Exec

variable {α β : Type} {x : Handle} {temps : List Handle} {m : Machine}

/-- From a machine the action ends with `Q`, or it faults and leaves the handle as garbage. -/
def Spares (x : Handle) (m : Machine) (act : Exec α) (Q : α → Machine → Prop) : Prop :=
  match act m with
  | .ok a m' => Q a m'
  | .error _ m' => m'.Spared x []

namespace Spares

variable {Q : α → Machine → Prop} {R : β → Machine → Prop}

theorem of_ok {act : Exec α} {a : α} {m' : Machine} (hr : act m = .ok a m') (h : Q a m') :
    Spares x m act Q := by
  rw [Spares, hr]
  exact h

theorem of_error {act : Exec α} {f : Fault} {m' : Machine} (hr : act m = .error f m')
    (h : m'.Spared x []) : Spares x m act Q := by
  rw [Spares, hr]
  exact h

theorem bind {act : Exec α} {k : α → Exec β} (ha : Spares x m act Q)
    (hk : ∀ a m', Q a m' → Spares x m' (k a) R) : Spares x m (act >>= k) R := by
  unfold Spares at ha ⊢
  rw [run_bind]
  revert ha
  cases act m with
  | ok a m' => exact fun ha => hk a m' ha
  | error f m' => exact fun ha => ha

theorem post {act : Exec α} {S : α → Machine → Prop} (ha : Spares x m act Q)
    (h : ∀ a m', Q a m' → S a m') : Spares x m act S := by
  unfold Spares at ha ⊢
  revert ha
  cases act m with
  | ok a m' => exact h a m'
  | error f m' => exact fun ha => ha

theorem get_bind {k : Machine → Exec β} (hk : Spares x m (k m) R) : Spares x m (get >>= k) R := hk

theorem pure {a : α} (h : Q a m) : Spares x m (pure a) Q := h

theorem fault {f : Fault} (hm : m.Spared x temps) : Spares x m (fault f) Q := hm.drop

theorem modify {f : Machine → Machine} {S : Unit → Machine → Prop} (h : S () (f m)) :
    Spares x m (modify f) S := h

/-- An operation on the heap that spares the object. -/
theorem onHeap {act : Heap.Action α} (hm : m.Spared x temps) (hg : Heap.Grows act)
    (hsp : x ∉ temps → Heap.Spares x act) : Spares x m (onHeap act) fun _ => Spared x temps := by
  have hgrows := hg m.heap
  have hunheld : x ∉ temps → m.heap.Unheld x → (act.final m.heap).Unheld x := fun ht hu =>
    hsp ht m.heap hu
  unfold Spares Heap.Action.final at *
  rw [run_onHeap]
  cases hr : act m.heap with
  | ok a h =>
    rw [hr] at hgrows hunheld
    exact hm.withHeap hgrows fun _ hu ht => hunheld ht hu
  | error f h =>
    rw [hr] at hgrows hunheld
    exact (hm.withHeap hgrows fun _ hu ht => hunheld ht hu).drop

theorem look {f : Machine → Except Fault α} (hm : m.Spared x temps)
    (h : ∀ a, f m = .ok a → Q a m) : Spares x m (look f) Q := by
  cases hf : f m with
  | ok a =>
    have hr : Exec.look f m = .ok a m := by simp only [Exec.look, hf]
    exact .of_ok hr (h a hf)
  | error e =>
    have hr : Exec.look f m = .error e m := by simp only [Exec.look, hf]
    exact .of_error hr hm.drop

end Spares

/-! ## Operands -/

theorem spares_push {v : Value} (hm : m.Spared x (Value.handles [v] ++ temps)) :
    Spares x m (push v) fun _ => Spared x temps := by
  refine .modify (hm.reframe fun y hy => ?_)
  rw [Value.handles_cons] at hy
  simp only [List.mem_append] at hy ⊢
  tauto

theorem spares_pushScalar {v : Value} (hm : m.Spared x temps) (hv : v.handle? = none) :
    Spares x m (push v) fun _ => Spared x temps :=
  spares_push (hm.addScalar hv)

theorem spares_pop (hm : m.Spared x temps) :
    Spares x m pop fun v => Spared x (Value.handles [v] ++ temps) := by
  cases hv : m.frame.operands with
  | nil => exact .of_error (run_pop_nil hv) hm.drop
  | cons v vs =>
    refine .of_ok (run_pop_cons hv) (hm.reframe fun y hy => ?_)
    rw [hv, Value.handles_cons]
    simp only [List.mem_append] at hy ⊢
    tauto

theorem spares_popN (hm : m.Spared x temps) (count : Nat) :
    Spares x m (popN count) fun vs => Spared x (Value.handles vs ++ temps) := by
  by_cases hl : m.frame.operands.length < count
  · exact .of_error (run_popN_of_lt hl) hm.drop
  · refine .of_ok (run_popN_of_not_lt hl) (hm.reframe fun y hy => ?_)
    simp only [List.mem_append, Value.mem_handles, List.mem_reverse] at hy ⊢
    rcases hy with (hy | hy) | hy
    · exact .inr (List.mem_of_mem_take hy)
    · exact .inl hy
    · exact .inr (List.mem_of_mem_drop hy)

theorem spares_operandCount (hm : m.Spared x temps) :
    Spares x m operandCount fun _ => Spared x temps :=
  .of_ok rfl hm

/-! ## The heap -/

theorem spares_retain {v : Value} (hm : m.Spared x temps) (hv : ∀ y ∈ Value.handles [v], y ∈ temps) :
    Spares x m (onHeap (Heap.retain v)) fun _ => Spared x temps := by
  refine .onHeap hm (Heap.grows_retain v) fun ht => Heap.spares_retain fun hvx => ht (hv x ?_)
  rw [Value.mem_handles, hvx]
  exact List.mem_singleton_self _

theorem spares_release (hm : m.Spared x temps) (v : Value) :
    Spares x m (onHeap (Heap.release v)) fun _ => Spared x temps :=
  .onHeap hm (Heap.grows_release v) fun _ => Heap.spares_release v

theorem spares_retainAll {vs : List Value} (hm : m.Spared x (Value.handles vs ++ temps)) :
    Spares x m (onHeap (Heap.retainAll vs)) fun _ => Spared x (Value.handles vs ++ temps) :=
  .onHeap hm (Heap.grows_retainAll vs) fun ht => Heap.spares_retainAll fun hx =>
    ht (List.mem_append_left _ (Value.mem_handles.2 hx))

theorem spares_releaseAll (hm : m.Spared x temps) (vs : List Value) :
    Spares x m (onHeap (Heap.releaseAll vs)) fun _ => Spared x temps :=
  .onHeap hm (Heap.grows_releaseAll vs) fun _ => Heap.spares_releaseAll vs

/-- A new object is not the one that is garbage. -/
theorem spares_allocate {o : Object} (hm : m.Spared x (o.children ++ temps)) :
    Spares x m (onHeap (Heap.allocateM o)) fun y => Spared x (y :: temps) := by
  refine .of_ok (run_allocate o m) fun hs => ?_
  have hlt := Nat.lt_of_le_of_lt (Heap.size_le_allocate m.heap o) hs
  obtain ⟨hg, ht⟩ := hm hlt
  rw [List.mem_append, not_or] at ht
  obtain ⟨hne, hu⟩ := hg.heap.allocate hlt ht.1
  refine ⟨⟨hu, hg.operands, hg.owners⟩, ?_⟩
  rw [List.mem_cons, not_or]
  exact ⟨Ne.symm hne, ht.2⟩

theorem spares_pushNew {o : Object} (hm : m.Spared x (o.children ++ temps)) :
    Spares x m (pushNew o) fun _ => Spared x temps :=
  .bind (spares_allocate hm) fun _ _ hm => spares_push hm

theorem spares_storeElement {v : Value} (hm : m.Spared x temps)
    (hv : ∀ y ∈ Value.handles [v], y ∈ temps) (y : Handle) (i : Nat) :
    Spares x m (onHeap (Heap.setElement y i v)) fun _ => Spared x temps := by
  refine .onHeap hm (Heap.grows_setElement y i v) fun ht =>
    Heap.spares_setElement (fun hvx => ht (hv x ?_)) y i
  rw [Value.mem_handles, hvx]
  exact List.mem_singleton_self _

/-! ## What places hold -/

end Exec

namespace Machine.Garbage

variable {x : Handle} {m : Machine} (hg : m.Garbage x)
include hg

theorem not_element {y : Handle} {o : Object} {vs : Array Value} {i : Nat} {v : Value}
    (ho : m.heap.object? y = some o) (hvs : o.elements? = some vs) (hv : vs[i]? = some v) :
    x ∉ Value.handles [v] := fun hx => by
  rw [Value.mem_handles, List.mem_singleton] at hx
  refine hg.heap.not_child ho ?_
  rw [Object.children_of_elements? hvs, Value.mem_handles, hx]
  rw [← Array.getElem?_toList] at hv
  exact List.mem_of_getElem? hv

theorem not_elementAt {target index v : Value} (hv : m.elementAt target index = .ok v) :
    x ∉ Value.handles [v] := by
  unfold elementAt at hv
  cases hx : target.handle? with
  | none => simp [hx] at hv
  | some y =>
    simp only [hx] at hv
    cases ho : m.heap.object? y with
    | none => simp [ho] at hv
    | some o =>
      simp only [ho] at hv
      split at hv
      · next i length _ hlength =>
        split at hv
        · cases hv
        · cases he : element? o i.toNat with
          | none => simp [he] at hv
          | some w =>
            simp only [he, Option.elim_some, Except.ok.injEq] at hv
            subst hv
            cases o with
            | array items => exact hg.not_element ho rfl he
            | string text =>
              obtain ⟨c, -, rfl⟩ := Option.map_eq_some_iff.1 he
              exact List.not_mem_nil
            | _ => cases he
      · cases hv

theorem not_fieldValue {target v : Value} {name : Symbol} (hv : m.fieldValue target name = .ok v) :
    x ∉ Value.handles [v] := by
  unfold fieldValue at hv
  split at hv
  · cases hv
  · next y i _ =>
    cases ho : m.heap.object? y with
    | none => simp [ho] at hv
    | some o =>
      cases hvs : o.elements? with
      | none => simp [ho, hvs] at hv
      | some vs =>
        simp only [ho, hvs, Option.bind_some] at hv
        cases he : vs[i]? with
        | none => simp [he] at hv
        | some w =>
          simp only [he, Option.elim_some, Except.ok.injEq] at hv
          subst hv
          exact hg.not_element ho hvs he

end Machine.Garbage

namespace Exec

variable {α β : Type} {x : Handle} {temps : List Handle} {m : Machine}

/-! ## Variables and constants -/

theorem spares_getLocal (hm : m.Spared x []) (slot : UInt8) :
    Spares x m (getLocal slot) fun _ => Spared x [] := by
  refine .get_bind ?_
  cases hv : m.frame.locals[slot.toNat]? with
  | none => exact .fault hm
  | some v =>
    exact spares_push (hm.add fun hg hx => hg.owners (Machine.mem_owners_of_local hv hx))

theorem mem_owners_storeLocal {v : Value} {slot : Nat} {y : Handle}
    (hy : y ∈ ({ m with frame := storeLocal slot v m.frame } : Machine).owners) :
    y ∈ Value.handles [v] ∨ y ∈ m.owners := by
  have hp := owners_storeLocal m slot v
  rw [← List.mem_append]
  exact hp.mem_iff.2 (List.mem_append_right _ hy)

theorem spares_storeLocal {v : Value} (hm : m.Spared x (Value.handles [v])) (slot : Nat) :
    Spares x m (modify fun m => { m with frame := storeLocal slot v m.frame }) fun _ =>
      Spared x (Value.handles [v]) := by
  refine .modify (hm.reown rfl fun y hy => ?_)
  rw [pinned_storeLocal] at hy
  rcases hy with hy | hy | hy
  · exact .inl hy
  · exact .inr (.inl hy)
  · rcases mem_owners_storeLocal hy with hy | hy
    · exact .inl hy
    · exact .inr (.inr hy)

theorem spares_setLocal {v : Value} (hm : m.Spared x (Value.handles [v])) (slot : UInt8) :
    Spares x m (setLocal slot v) fun _ => Spared x [] := by
  rw [setLocal_eq]
  refine .get_bind ?_
  cases m.frame.locals[slot.toNat]? with
  | some old =>
    refine .bind (spares_retain hm fun _ hy => hy) fun _ _ hm => ?_
    refine .bind (spares_storeLocal hm slot.toNat) fun _ _ hm => ?_
    exact spares_release hm.drop old
  | none =>
    refine .bind (spares_storeLocal hm slot.toNat) fun _ _ hm => ?_
    exact (spares_retain hm fun _ hy => hy).post fun _ _ hm => hm.drop

theorem spares_dropLocal (hm : m.Spared x temps) :
    Spares x m dropLocal fun _ => Spared x temps := by
  unfold Spares dropLocal
  cases hv : m.frame.locals.back? with
  | none => exact hm.drop
  | some v =>
    refine hm.reown rfl fun y hy => ?_
    rcases hy with hy | hy | hy
    · exact .inl hy
    · exact .inr (.inl hy)
    · exact .inr (.inr ((owners_dropLocal hv).mem_iff.2 (List.mem_append_right _ hy)))

theorem spares_shrinkLocals : ∀ {m : Machine} (n : Nat), m.Spared x [] →
    Spares x m (shrinkLocals n) fun _ => Spared x []
  | _, 0, hm => .pure hm
  | _, n + 1, hm => .bind (spares_dropLocal hm) fun v _ hm =>
      .bind (spares_release hm v) fun _ _ hm => spares_shrinkLocals n hm

theorem spares_popString (hm : m.Spared x temps) : Spares x m popString fun _ => Spared x temps := by
  refine .bind (spares_pop hm) fun v m' hm' => .get_bind ?_
  cases m'.heap.string? v with
  | some text => exact .pure (hm'.mono fun _ hy => List.mem_append_right _ hy)
  | none => exact .fault hm'

theorem spares_getGlobal (hm : m.Spared x []) : Spares x m getGlobal fun _ => Spared x [] := by
  refine .bind (spares_popString hm) fun name m' hm' => .get_bind ?_
  cases hv : m'.globals.find? name with
  | none => exact .fault hm'
  | some v =>
    exact spares_push (hm'.add fun hg hx => hg.owners (Machine.mem_owners_of_global hv hx))

theorem spares_setGlobal {v : Value} (hm : m.Spared x (Value.handles [v])) (name : String) :
    Spares x m (setGlobal name v) fun _ => Spared x [] := by
  refine .bind (spares_retain hm fun _ hy => hy) fun _ m₁ hm₁ => .get_bind ?_
  refine .bind (Q := fun _ => Spared x []) (.modify (hm₁.reown rfl fun y hy => ?_)) fun _ _ hm => ?_
  · rcases hy with hy | hy | hy
    · cases hy
    · exact .inr (.inl hy)
    · have hmem := (owners_insert m₁ name v).mem_iff.2 (List.mem_append_right _ hy)
      rcases List.mem_append.1 hmem with hy | hy
      · exact .inl hy
      · exact .inr (.inr hy)
  · cases m₁.globals.find? name with
    | some old => exact spares_release hm old
    | none => exact .pure hm

theorem spares_constant (hm : m.Spared x []) (s : Symbol) :
    Spares x m (constant s) fun y => Spared x [y] := by
  refine .get_bind ?_
  cases hy : m.constants.lookup s with
  | some y =>
    refine .pure (show m.Spared x ([y] ++ []) from hm.add fun hg hx => hg.owners ?_)
    obtain ⟨l₁, l₂, hl, -⟩ := List.lookup_eq_some_iff.1 hy
    cases List.mem_singleton.1 hx
    rw [Machine.owners, hl]
    simp
  | none =>
    refine .get_bind (.bind (spares_allocate hm) fun y m₁ hm₁ => ?_)
    refine .bind (spares_retain hm₁ fun _ hz => hz) fun _ m₂ hm₂ => ?_
    refine .bind (Q := fun _ => Spared x [y]) (.modify (hm₂.reown rfl fun z hz => ?_)) fun _ _ hm =>
      .pure hm
    rcases hz with hz | hz | hz
    · exact .inl hz
    · exact .inr (.inl hz)
    · rcases List.mem_cons.1 ((owners_constant m₂ s y).mem_iff.2 hz) with hz | hz
      · exact .inl (List.mem_singleton.2 hz)
      · exact .inr (.inr hz)

/-! ## Elements, fields and new objects -/

theorem spares_getElement (hm : m.Spared x []) : Spares x m getElement fun _ => Spared x [] := by
  refine .bind (spares_pop hm) fun index _ hm => .bind (spares_pop hm) fun target _ hm => ?_
  refine .bind (.look hm fun v hv => ?_) fun v _ hm => spares_push hm
  exact hm.drop.add fun hg => hg.not_elementAt hv

theorem spares_setElement (hm : m.Spared x []) : Spares x m setElement fun _ => Spared x [] := by
  refine .bind (spares_pop hm) fun index _ hm => .bind (spares_pop hm) fun target _ hm => ?_
  refine .bind (spares_pop hm) fun v _ hm => .bind (.look hm fun p _ => hm) fun p _ hm => ?_
  refine (spares_storeElement hm (fun _ hy => ?_) p.1 p.2).post fun _ _ hm => hm.drop
  exact List.mem_append_left _ hy

theorem spares_setField (hm : m.Spared x []) (name : Symbol) :
    Spares x m (setField name) fun _ => Spared x [] := by
  refine .bind (spares_pop hm) fun target _ hm => .bind (spares_pop hm) fun v _ hm => ?_
  refine .bind (.look hm fun p _ => hm) fun p _ hm => ?_
  refine (spares_storeElement hm (fun _ hy => ?_) p.1 p.2).post fun _ _ hm => hm.drop
  exact List.mem_append_left _ hy

theorem spares_getField (hm : m.Spared x []) (name : Symbol) :
    Spares x m (getField name) fun _ => Spared x [] := by
  refine .bind (spares_pop hm) fun target m₁ hm₁ => ?_
  refine .bind (Q := fun v => Spared x (Value.handles [v])) (.get_bind ?_) fun v _ hm => ?_
  · cases m₁.nativeMethod? target (m₁.bytecode.text name) with
    | some method =>
      refine .bind (spares_retain hm₁ fun _ hy => List.mem_append_left _ hy) fun _ _ hm => ?_
      refine .bind (Q := fun y => Spared x [y]) (spares_allocate ?_) fun y _ hm => .pure hm
      rw [children_method]
      exact hm
    | none =>
      refine .look hm₁ fun v hv => ?_
      have := hm₁.drop.add fun hg => hg.not_fieldValue hv
      rwa [List.append_nil] at this
  · refine spares_push ?_
    rw [List.append_nil]
    exact hm

theorem spares_createArray (hm : m.Spared x []) (count : Nat) :
    Spares x m (createArray count) fun _ => Spared x [] :=
  .bind (spares_popN hm count) fun _ _ hm => .bind (spares_retainAll hm) fun _ _ hm =>
    spares_pushNew hm

theorem spares_construct (hm : m.Spared x []) (type : UInt32) (args : Nat) :
    Spares x m (construct type args) fun _ => Spared x [] := by
  refine .get_bind ?_
  cases m.bytecode.struct? type with
  | none => exact .fault hm
  | some entry =>
    dsimp only
    split
    · exact .fault hm
    · refine .bind (spares_popN hm args) fun given _ hm => .bind (spares_retainAll hm) fun _ _ hm =>
        spares_pushNew ?_
      rw [children_instance]
      exact hm

/-! ## Operators -/

theorem spares_ofExcept (hm : m.Spared x temps) {r : Except Fault α} :
    Spares x m (ofExcept r) fun a m' => m' = m ∧ r = .ok a := by
  cases r with
  | ok a => exact .pure ⟨rfl, rfl⟩
  | error f => exact .fault hm

theorem spares_numeric (hm : m.Spared x temps) (op : BinaryOp) (a b : Value) :
    Spares x m (ofExcept (m.numeric op a b)) fun v => Spared x (Value.handles [v]) := by
  refine (spares_ofExcept hm).post fun v m' ⟨hm', hv⟩ => ?_
  subst hm'
  have hyields := m'.numeric_yields op a b
  rw [hv] at hyields
  obtain ⟨n, rfl⟩ := hyields
  have := hm.drop.addScalar (Number.handle?_toValue n)
  rwa [List.append_nil] at this

theorem spares_binaryResult (hm : m.Spared x temps) (op : BinaryOp) (a b : Value) :
    Spares x m (binaryResult op a b) fun v => Spared x (Value.handles [v]) := by
  have hbool : ∀ c : Bool, m.Spared x (Value.handles [.bool c]) := fun _ => hm.drop
  have hcompare : ∀ op, Spares x m
      (do let order ← ofExcept ((← get).order op a b); return Value.bool (Machine.holds op order))
      fun v => Spared x (Value.handles [v]) := fun op =>
    .get_bind (.bind (spares_ofExcept hm) fun o m' ⟨hm', _⟩ => .pure (hm' ▸ hbool _))
  cases op with
  | and => exact .pure (hbool _)
  | or => exact .pure (hbool _)
  | equal => exact .get_bind (.pure (hbool _))
  | notEqual => exact .get_bind (.pure (hbool _))
  | less => exact hcompare .less
  | greater => exact hcompare .greater
  | lessEqual => exact hcompare .lessEqual
  | greaterEqual => exact hcompare .greaterEqual
  | add =>
    refine .get_bind ?_
    dsimp only
    split
    · exact .bind (spares_allocate hm.drop) fun _ _ hm => .pure hm
    · exact spares_numeric hm .add a b
  | _ => exact .get_bind (spares_numeric hm _ a b)

theorem spares_pushResult {v : Value} (hm : m.Spared x (Value.handles [v])) :
    Spares x m (push v) fun _ => Spared x [] :=
  spares_push (by rw [List.append_nil]; exact hm)

theorem spares_binary (hm : m.Spared x []) (op : BinaryOp) :
    Spares x m (binary op) fun _ => Spared x [] :=
  .bind (spares_pop hm) fun b _ hm => .bind (spares_pop hm) fun a _ hm =>
    .bind (spares_binaryResult hm op a b) fun _ _ hm => spares_pushResult hm

theorem spares_unaryResult (hm : m.Spared x temps) (op : UnaryOp) (v : Value) :
    Spares x m (unaryResult op v) fun w => Spared x (Value.handles [w]) := by
  unfold unaryResult
  split
  · exact .pure hm.drop
  · exact .pure hm.drop
  · exact .pure hm.drop
  · exact .pure hm.drop
  · exact .pure hm.drop
  · exact .pure hm.drop
  · exact .pure hm.drop
  · exact .get_bind (.fault hm)

theorem spares_unary (hm : m.Spared x []) (op : UnaryOp) :
    Spares x m (unary op) fun _ => Spared x [] :=
  .bind (spares_pop hm) fun v _ hm =>
    .bind (spares_unaryResult hm op v) fun _ _ hm => spares_pushResult hm

/-! ## Native functions -/

theorem spares_arguments (hm : m.Spared x temps) (expected args : Nat) :
    Spares x m (arguments expected args) fun vs => Spared x (Value.handles vs ++ temps) := by
  refine .bind (spares_popN hm args) fun vs _ hm => ?_
  split
  · exact .pure hm
  · exact .fault hm

theorem spares_argument (hm : m.Spared x temps) (args : Nat) :
    Spares x m (argument args) fun v => Spared x (Value.handles [v] ++ temps) := by
  refine .bind (spares_arguments hm 1 args) fun vs _ hm => ?_
  split
  · exact .pure hm
  · exact .fault hm

theorem spares_twoArguments (hm : m.Spared x temps) (args : Nat) :
    Spares x m (twoArguments args) fun p => Spared x (Value.handles [p.1, p.2] ++ temps) := by
  refine .bind (spares_arguments hm 2 args) fun vs _ hm => ?_
  split
  · exact .pure hm
  · exact .fault hm

theorem spares_refuseArgument {Q : α → Machine → Prop} (hm : m.Spared x temps)
    (native expected : String) (v : Value) : Spares x m (refuseArgument native expected v) Q :=
  .get_bind (.fault hm)

/-- The receiver of a list method is an instance of a native structure. -/
theorem spares_listHandle (hm : m.Spared x temps) (native : String) (receiver : Value) :
    Spares x m (listHandle native receiver) fun y m' =>
      Spared x temps m' ∧ ∃ kind vs, m'.heap.object? y = some (.nativeRecord kind vs) := by
  unfold listHandle
  split
  · refine .get_bind ?_
    split
    · next kind vs ho => exact .pure ⟨hm, kind, vs, ho⟩
    · exact .fault hm
    · exact .fault hm
  · exact .fault hm

/-- The storage of an instance is changed to something that does not hold the handle. -/
theorem spares_modifyStorage (hm : m.Spared x temps) {y : Handle} {kind : Nat} {vs : Array Value}
    (ho : m.heap.object? y = some (.nativeRecord kind vs)) {f : Array Value → Array Value}
    (hf : ∀ z ∈ Value.handles (f vs).toList, z ∈ Value.handles vs.toList ∨ z ∈ temps) :
    Spares x m (modifyStorage y f) fun _ => Spared x temps := by
  refine .of_ok (run_modifyStorage y f m) (hm.withHeap ?_ fun _ hu ht => ?_)
  · exact Nat.le_of_eq (Heap.size_modifyCell m.heap y _).symm
  · refine hu.changeObject ho fun hx => ?_
    rcases hf x hx with hx | hx
    · exact hu.not_child ho hx
    · exact ht hx

theorem spares_listPush (hm : m.Spared x []) (args : Nat) :
    Spares x m (listPush args) fun _ => Spared x [] := by
  refine .bind (spares_twoArguments hm args) fun p _ hm => ?_
  refine .bind (spares_listHandle hm "push" p.1) fun y _ ⟨hm, kind, vs, ho⟩ => ?_
  have hv : ∀ z ∈ Value.handles [p.2], z ∈ Value.handles [p.1, p.2] ++ [] := fun z hz => by
    rw [Value.handles_cons]
    exact List.mem_append_left _ (List.mem_append_right _ hz)
  refine .bind (spares_modifyStorage hm ho fun z hz => ?_) fun _ _ hm =>
    (spares_retain hm hv).post fun _ _ hm => hm.drop
  rw [Array.toList_push, Value.handles_append, List.mem_append] at hz
  exact hz.imp_right (hv z)

theorem spares_listPop (hm : m.Spared x []) (args : Nat) :
    Spares x m (listPop args) fun _ => Spared x [] := by
  refine .bind (spares_argument hm args) fun receiver _ hm => ?_
  refine .bind (spares_listHandle hm "pop" receiver) fun y m₁ ⟨hm₁, kind, vs, ho⟩ => ?_
  have hstorage : storage y m₁ = .ok vs m₁ := by
    have hr : storage y m₁ = .ok (((m₁.heap.object? y).bind Object.elements?).getD #[]) m₁ := rfl
    rw [hr, ho]
    rfl
  refine .bind (Q := fun us m' => us = vs ∧ m' = m₁) (.of_ok hstorage ⟨rfl, rfl⟩) ?_
  rintro us m' ⟨rfl, rfl⟩
  -- what is taken from the list was held by it
  have hback : m'.Spared x (Value.handles [us.back?.getD .null] ++ []) := hm₁.drop.add fun hg hx =>
    hg.heap.not_child ho ((handles_pop us).mem_iff.2 (List.mem_append_right _ hx))
  rw [List.append_nil] at hback
  refine .bind (spares_modifyStorage hback ho fun z hz => ?_) fun _ _ hm =>
    .bind (spares_release hm _) fun _ _ hm => spares_pushResult hm
  exact .inl ((handles_pop us).mem_iff.2 (List.mem_append_left _ hz))

theorem spares_listGet (hm : m.Spared x []) (args : Nat) :
    Spares x m (listGet args) fun _ => Spared x [] := by
  refine .bind (spares_twoArguments hm args) fun p _ hm => ?_
  dsimp only
  split
  · exact spares_refuseArgument hm _ _ _
  · refine .bind (spares_listHandle hm "get" p.1) fun y m₁ ⟨hm₁, kind, vs, ho⟩ => ?_
    refine .bind (Q := fun us m' => us = ((m₁.heap.object? y).bind Object.elements?).getD #[] ∧ m' = m₁)
      (.of_ok rfl ⟨rfl, rfl⟩) ?_
    rintro us m' ⟨hus, rfl⟩
    rw [ho] at hus
    change us = vs at hus
    subst hus
    split
    · exact .fault hm₁
    · split
      · next v hv => exact spares_push (hm₁.drop.add fun hg => hg.not_element ho rfl hv)
      · exact .fault hm₁

theorem spares_listLen (hm : m.Spared x []) (args : Nat) :
    Spares x m (listLen args) fun _ => Spared x [] :=
  .bind (spares_argument hm args) fun receiver _ hm =>
    .bind (spares_listHandle hm "len" receiver) fun _ _ h =>
    .bind (Q := fun _ => Spared x []) (.of_ok rfl h.1.drop) fun _ _ hm => spares_pushScalar hm rfl

theorem spares_routine (hm : m.Spared x []) {r : Routine} (hr : r ≠ .gc) (args : Nat) :
    Spares x m (routine r args) fun _ => Spared x [] := by
  cases r with
  | print =>
    refine .bind (spares_popN hm args) fun _ _ hm => .get_bind (.modify ?_)
    exact hm.drop.congr rfl rfl rfl
  | len =>
    refine .bind (spares_argument hm args) fun v _ hm => .get_bind ?_
    split
    · exact spares_pushScalar hm.drop rfl
    · exact spares_pushScalar hm.drop rfl
    · exact spares_pushScalar hm.drop rfl
    · exact spares_refuseArgument hm _ _ v
  | str =>
    exact .bind (spares_argument hm args) fun _ _ hm => .get_bind (spares_pushNew hm.drop)
  | array =>
    refine .bind (spares_argument hm args) fun size _ hm => ?_
    split
    · next n _ =>
      refine spares_pushNew ?_
      have hch : (Object.array (Array.replicate n .null)).children = [] := by
        simp [Object.children, List.filterMap_replicate, Value.handle?]
      rw [hch]
      exact hm.drop
    · exact spares_refuseArgument hm _ _ size
  | gc => exact absurd rfl hr
  | listNew =>
    refine .bind (spares_arguments hm 0 args) fun _ _ hm => .bind (.get_bind ?_) fun y _ hm =>
      spares_push hm
    split
    · exact spares_allocate hm.drop
    · exact .fault hm
  | listPush => exact spares_listPush hm args
  | listPop => exact spares_listPop hm args
  | listGet => exact spares_listGet hm args
  | listLen => exact spares_listLen hm args
  | discard => exact .bind (spares_popN hm args) fun _ _ hm => .pure hm.drop
  | leave => exact .pure hm

/-! ## Calls -/

theorem spares_callAction (hm : m.Spared x []) (name : String) {action : Nat → Exec Unit} {args : Nat}
    (h : ¬ m.frame.operands.length < args → ∀ events,
      Spares x { m with events } (action args) fun _ => Spared x []) :
    Spares x m (callAction name action args) fun _ => Spared x [] := by
  refine .bind (Q := fun n m' => n = m.frame.operands.length ∧ m' = m) (.of_ok rfl ⟨rfl, rfl⟩) ?_
  rintro count m' ⟨rfl, rfl⟩
  split
  · exact .fault hm
  · next hcount =>
    refine .bind (Q := fun _ k => ∃ events, k = { m' with events })
      (.of_ok rfl ⟨_, m'.note_eq _⟩) ?_
    rintro _ _ ⟨events, rfl⟩
    refine .bind (h hcount events) fun _ _ hm => .bind (spares_operandCount hm) fun _ _ hm => ?_
    split
    · exact spares_pushScalar hm rfl
    · exact .pure hm

theorem spares_callNative (hm : m.Spared x []) {f : Native} {args : Nat}
    (hf : ¬ m.frame.operands.length < args → f.routine ≠ .gc) :
    Spares x m (callNative f args) fun _ => Spared x [] :=
  spares_callAction hm f.name fun hcount events =>
    spares_routine (m := { m with events }) (hm.congr rfl rfl rfl) (hf hcount) args

theorem spares_callDeclared (hm : m.Spared x []) (id : UInt32) (args : Nat) :
    Spares x m (callDeclared id args) fun _ => Spared x [] := by
  refine .get_bind ?_
  split
  · exact .fault hm
  · split
    · exact .fault hm
    · split
      · exact .fault hm
      · refine .bind (spares_popN hm args) fun vs _ hm => .bind (spares_retainAll hm) fun _ m₁ hm₁ => ?_
        refine .modify (hm₁.reown rfl fun y hy => ?_)
        rw [← owners_enter] at hy
        rcases hy with hy | hy | hy
        · cases hy
        · exact .inr (.inl hy)
        · rcases List.mem_append.1 hy with hy | hy
          · exact .inl (List.mem_append_left _ hy)
          · exact .inr (.inr hy)

theorem spares_callFunction (hm : m.Spared x []) (id : UInt32) :
    Spares x m (callFunction id) fun _ => Spared x [] := by
  refine .get_bind ?_
  split
  · exact .fault hm
  · exact spares_callDeclared hm id _

theorem spares_callCallee (hm : m.Spared x []) {callee : Callee} {args : Nat}
    (hf : ∀ f, callee = .native f → ¬ m.frame.operands.length < args → f.routine ≠ .gc) :
    Spares x m (callCallee callee args) fun _ => Spared x [] := by
  cases callee with
  | declared id => exact spares_callDeclared hm id args
  | native f => exact spares_callNative hm (hf f rfl)

/-- A call of a value, unless it goes to the native function that collects garbage. -/
theorem spares_callValue (hm : m.Spared x []) {v : Value} {args : Nat}
    (hgc : ∀ f, m.nativeOf? v m.frame.operands.length args = some f → f.routine ≠ .gc) :
    Spares x m (callValue v args) fun _ => Spared x [] := by
  unfold callValue
  split
  · next f =>
    exact spares_callNative hm fun hlt => hgc f (by simp only [Machine.nativeOf?, if_neg hlt])
  · next y =>
    refine .get_bind ?_
    split
    · next callee ho =>
      refine spares_callCallee hm fun f hf hlt => hgc f ?_
      subst hf
      simp only [Machine.nativeOf?, if_neg hlt, ho]
    · next callee receiver ho =>
      by_cases hlt : m.frame.operands.length < args
      · have hr : insertBelow args (.object receiver) m = .error .stackUnderflow m := by
          simp only [insertBelow, if_pos hlt]
        exact .bind (Q := fun _ _ => False) (.of_error hr hm) fun _ _ h => h.elim
      · refine .bind (Q := fun _ m' => m'.Spared x [] ∧ m'.frame.operands.length =
            m.frame.operands.length + 1) ?_ fun _ m' h => ?_
        · have hr : insertBelow args (.object receiver) m = .ok () { m with frame := { m.frame with
              operands := m.frame.operands.take args ++
                .object receiver :: m.frame.operands.drop args } } := by
            simp only [insertBelow, if_neg hlt]
          refine .of_ok hr ⟨?_, ?_⟩
          · -- the receiver was held by the function reference
            have hadd : m.Spared x ([receiver] ++ []) := hm.add fun hg hx =>
              hg.heap.not_child ho (by rw [List.mem_singleton.1 hx]; simp [Object.children])
            refine hadd.reframe fun z hz => ?_
            simp only [List.append_nil, Value.mem_handles, List.mem_append, List.mem_cons,
              Value.object.injEq, List.not_mem_nil, false_or, or_false] at hz ⊢
            rcases hz with hz | hz | hz
            · exact .inr (List.mem_of_mem_take hz)
            · exact .inl hz
            · exact .inr (List.mem_of_mem_drop hz)
          · simp
            omega
        · refine spares_callCallee h.1 fun f hf _ => hgc f ?_
          subst hf
          simp only [Machine.nativeOf?, if_neg hlt, ho]
    · exact .fault hm
    · exact .fault hm
  · exact .fault hm

theorem spares_callMethod (hm : m.Spared x []) {name : Symbol} {args : Nat}
    (hgc : ∀ receiver, m.frame.operands[args]? = some receiver →
      (∀ f, m.nativeMethod? receiver (m.bytecode.text name) = some f → f.routine ≠ .gc) ∧
      (m.nativeMethod? receiver (m.bytecode.text name) = none →
        ∀ callee, m.fieldValue receiver name = .ok callee →
          ∀ f, m.nativeOf? callee args args = some f → f.routine ≠ .gc)) :
    Spares x m (callMethod name args) fun _ => Spared x [] := by
  refine .get_bind ?_
  split
  · exact .fault hm
  · next receiver hrec =>
    obtain ⟨hmethod, hfield⟩ := hgc receiver hrec
    split
    · next method hme => exact spares_callNative hm fun _ => hmethod method hme
    · next hnone =>
      split
      · next callee hcallee =>
        split
        · have hlt := (List.getElem?_eq_some_iff.1 hrec).1
          refine .bind (Q := fun _ m' => m' = { m with frame := { m.frame with
            operands := m.frame.operands.eraseIdx args } }) (.modify rfl) fun _ m' h => ?_
          subst h
          refine spares_callValue (hm.reframe fun y hy => ?_) fun f hf => ?_
          · simp only [List.not_mem_nil, false_or, Value.mem_handles] at hy ⊢
            exact (List.eraseIdx_sublist m.frame.operands args).subset hy
          · refine hfield hnone callee hcallee f ?_
            have hlen : ¬ (m.frame.operands.eraseIdx args).length < args := by
              rw [List.length_eraseIdx_of_lt hlt]
              omega
            rw [← hf]
            simp only [Machine.nativeOf?, if_neg hlen, Nat.lt_irrefl, if_false]
        · exact .fault hm
      · exact .fault hm

theorem spares_returnValue {v : Value} (hm : m.Spared x (Value.handles [v])) :
    Spares x m (returnValue v) fun _ => Spared x [] := by
  cases hcs : m.callers with
  | nil =>
    exact .of_ok (run_returnValue_nil hcs v) (hm.drop.congr rfl rfl rfl)
  | cons caller callers =>
    have hback : ({ m with frame := caller.frame, callers } : Machine).Spared x (Value.handles [v]) := by
      refine hm.reown rfl fun y hy => ?_
      rw [owners_return hcs, pinned_eq, hcs]
      rw [pinned_eq] at hy
      simp only [List.map_cons, List.flatMap_cons, List.mem_append] at hy ⊢
      tauto
    have hgive : Spares x { m with frame := caller.frame, callers }
        (giveBack m.frame.locals.toList caller.returnTo v) fun _ => Spared x [] :=
      .bind (spares_releaseAll hback _) fun _ _ hm =>
        .bind (Q := fun _ => Spared x (Value.handles [v])) (.modify (hm.congr rfl rfl rfl)) fun _ _ hm =>
        spares_pushResult hm
    unfold Spares at hgive ⊢
    rw [run_returnValue_cons hcs v]
    exact hgive

/-! ## Instructions -/

/-- No instruction comes across garbage, unless it sweeps. -/
theorem spares_execute (hm : m.Spared x []) {i : Instruction} (hready : m.status = .ready)
    (hd : Instruction.decode m.bytecode.code m.pc = .instruction i) (hgc : ¬ m.CallsGc)
    (pc : Nat) (events : Array Event) :
    Spares x { m with pc, events } (execute i) fun _ => Spared x [] := by
  have hm' : ({ m with pc, events } : Machine).Spared x [] := hm.congr rfl rfl rfl
  have hnot : ∀ f, m.nextNative? = some f → f.routine ≠ .gc := fun f hf hr => hgc ⟨f, hf, hr⟩
  cases i with
  | pushNull => exact spares_pushScalar hm' rfl
  | pushTrue => exact spares_pushScalar hm' rfl
  | pushFalse => exact spares_pushScalar hm' rfl
  | pushInt n => exact spares_pushScalar hm' rfl
  | pushUInt n => exact spares_pushScalar hm' rfl
  | pushFloat r => exact spares_pushScalar hm' rfl
  | pushChar c => exact spares_pushScalar hm' rfl
  | pushString s => exact .bind (spares_constant hm' s) fun _ _ hm => spares_push hm
  | pushFunction id => exact spares_pushNew hm'
  | binary op => exact spares_binary hm' op
  | unary op => exact spares_unary hm' op
  | getLocal slot => exact spares_getLocal hm' slot
  | setLocal slot =>
    refine .bind (spares_pop hm') fun v _ hm => spares_setLocal ?_ slot
    rwa [List.append_nil] at hm
  | shrinkLocals count => exact spares_shrinkLocals count.toNat hm'
  | getGlobal => exact spares_getGlobal hm'
  | setGlobal =>
    refine .bind (spares_popString hm') fun name _ hm => .bind (spares_pop hm) fun v _ hm =>
      spares_setGlobal ?_ name
    rwa [List.append_nil] at hm
  | getElement => exact spares_getElement hm'
  | setElement => exact spares_setElement hm'
  | getField name => exact spares_getField hm' name
  | setField name => exact spares_setField hm' name
  | createArray count => exact spares_createArray hm' count.toNat
  | construct type args => exact spares_construct hm' type args.toNat
  | callMethod name args =>
    refine spares_callMethod hm' fun receiver hrec => ?_
    change m.frame.operands[args.toNat]? = some receiver at hrec
    refine ⟨fun f hf => hnot f ?_, fun hnone callee hcallee f hf => hnot f ?_⟩
    · change m.nativeMethod? receiver (m.bytecode.text name) = some f at hf
      simp only [Machine.nextNative?, hready, hd, hrec, hf]
    · change m.nativeMethod? receiver (m.bytecode.text name) = none at hnone
      change m.fieldValue receiver name = .ok callee at hcallee
      simp only [Machine.nextNative?, hready, hd, hrec, hnone, hcallee]
      exact hf
  | call args =>
    cases hops : m.frame.operands with
    | nil =>
      have hr := run_pop_nil (m := { m with pc, events }) hops
      exact .bind (Q := fun _ _ => False) (.of_error hr hm'.drop) fun _ _ h => h.elim
    | cons v vs =>
      have hr := run_pop_cons (m := { m with pc, events }) hops
      refine .bind (Q := fun u m' => u = v ∧ m' = { m with
        pc, events, frame := { m.frame with operands := vs } }) (.of_ok hr ⟨rfl, rfl⟩) ?_
      rintro _ _ ⟨rfl, rfl⟩
      refine spares_callValue (hm'.reframe fun y hy => ?_) fun f hf => hnot f ?_
      · change y ∈ [] ∨ y ∈ Value.handles m.frame.operands
        rw [hops, Value.handles_cons]
        exact hy.imp_right (List.mem_append_right _)
      · simp only [Machine.nextNative?, hready, hd, hops]
        exact hf
  | callFunction id => exact spares_callFunction hm' id
  | ret => exact spares_returnValue hm'
  | retValue =>
    refine .bind (spares_pop hm') fun v _ hm => spares_returnValue ?_
    rwa [List.append_nil] at hm
  | jump target => exact .modify (hm'.congr rfl rfl rfl)
  | jumpIfFalse target =>
    refine .bind (spares_pop hm') fun v _ hm => ?_
    split
    · exact .pure hm.drop
    · exact .modify (hm.drop.congr rfl rfl rfl)
  | drop => exact .bind (spares_pop hm') fun _ _ hm => .pure hm.drop
  | halt => exact .modify (hm'.congr rfl rfl rfl)

end Exec

/-! ## Steps -/

namespace Machine

variable {x : Handle} {m : Machine}

/-- The next step sweeps the heap, because that is due or because it calls the native function for
it. -/
def Collects (m : Machine) : Prop :=
  m.status = .ready ∧ m.pc < m.bytecode.size ∧
    (m.config.gcThreshold ≤ m.heap.sinceSweep ∨ m.CallsGc)

theorem Garbage.spared (hg : m.Garbage x) : m.Spared x [] := fun _ => ⟨hg, List.not_mem_nil⟩

theorem Garbage.next (hg : m.Garbage x) (hno : ¬ m.Collects)
    (hs : m.next.heap.slots.size < 2 ^ 32) : m.next.Garbage x := by
  have hsame : ∀ {status}, ({ m with status } : Machine).Garbage x :=
    ⟨hg.heap, hg.operands, hg.owners⟩
  unfold Machine.next at hs ⊢
  obtain ⟨h, -⟩ | ⟨h, -⟩ | ⟨h, hready, hpc⟩ := m.step_cases
  · rw [h]
    exact hg
  · rw [h]
    exact hsame
  · have hnot : ¬ (m.config.gcThreshold ≤ m.heap.sinceSweep ∨ m.CallsGc) := fun hc =>
      hno ⟨hready, Nat.lt_of_not_le hpc, hc⟩
    rw [not_or] at hnot
    rw [collectIfDue, if_neg hnot.1] at h
    rw [h] at hs ⊢
    obtain ⟨f, he, -⟩ | ⟨i, events, hd, he⟩ := m.executeNext_cases
    · rw [he]
      exact hsame
    · have hspares := Exec.spares_execute hg.spared hready hd hnot.2 (m.pc + i.width) events
      rw [he] at hs ⊢
      unfold Exec.Spares at hspares
      revert hs hspares
      cases Exec.execute i { m with pc := m.pc + i.width, events } with
      | ok _ m' => exact fun hs hm' => (hm' hs).1
      | error f m' =>
        intro hs hm'
        obtain ⟨hheap, hoperands, howners⟩ := (hm' hs).1
        exact ⟨hheap, hoperands, howners⟩

/-- Garbage stays garbage until the next sweep. -/
theorem Garbage.after (hg : m.Garbage x) : ∀ n : Nat, (∀ k < n, ¬ (m.after k).Collects) →
    (m.after n).heap.slots.size < 2 ^ 32 → (m.after n).Garbage x
  | 0, _, _ => hg
  | n + 1, hno, hs => by
    have hs' := Nat.lt_of_le_of_lt (m.after n).extends_next.slots hs
    have hg' := hg.after n (fun k hk => hno k (by omega)) hs'
    exact hg'.next (hno n (by omega)) hs

end Machine

end Scriptlet
