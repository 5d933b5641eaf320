import Scriptlet.Proofs.Machine.DirectCalls
import Scriptlet.Proofs.Machine.Receivers

/-!
# Method calls and calls of fields

A method is called in one instruction, or its field is read first and what is found there is called.
Reading a method of a native structure makes a function reference that is bound to the receiver,
which the second way takes from the operands again: it is one object more (`Heap.Besides`), and the
receiver, which it holds, is back below the arguments (`Exec.run_call_bound`). What is read from the
field of a structure is no new object, and the receiver is not passed (`Exec.run_callMethod_field`).

From there on both ways make the same call, on machines that are twins (`Machine.Twins`). All this
holds for any functions of a host that do not come across an object that nothing holds
(`Natives.Oblivious`), and the library's own are such functions.

Main statements: `Machine.method_call_agrees`, and `Machine.host_method_call_agrees` for functions of
any host.
-/

namespace Scriptlet

open Heap (Besides)
open Machine (Twins Receiving)

namespace Machine

/-- A method call by `m`, and a read of the field with a call of what is found by `m'`, fault alike
or go on alike. A native method leaves a reference behind that is bound to the receiver, any other
the same heap. -/
def MethodCallsAgree (m m' : Machine) (receiver : Value) (name : Symbol) : Prop :=
  (∃ f₁ f₂ k₁ k₂, step m = .error f₁ k₁ ∧ stepTimes 2 m' = .error f₂ k₂ ∧ f₁.fault = f₂.fault) ∨
  ∃ k₁ k₂, ∃ e : Equiv.Perm Handle, step m = .ok .ready k₁ ∧ stepTimes 2 m' = .ok .ready k₂ ∧
    GoesOnAs e m.callers (m.pc + 6) (m'.pc + 7) k₁ k₂ ∧
    match m.nativeMethod? receiver (m.bytecode.text name) with
    | some f => HasOneMore e (.function (.native f) receiver.handle?) k₁ k₂
    | none => e = Equiv.refl Handle ∧ k₂.heap = k₁.heap

/-- Two steps where native functions do what `ρ` says. -/
def twiceBy (ρ : Natives) : Run Status := do
  let _ ← stepBy ρ
  stepBy ρ

/-- The same where native functions do what `ρ` says. -/
def MethodCallsAgreeBy (ρ : Natives) (m m' : Machine) (receiver : Value) (name : Symbol) : Prop :=
  (∃ f₁ f₂ k₁ k₂, stepBy ρ m = .error f₁ k₁ ∧ twiceBy ρ m' = .error f₂ k₂ ∧ f₁.fault = f₂.fault) ∨
  ∃ k₁ k₂, ∃ e : Equiv.Perm Handle, stepBy ρ m = .ok .ready k₁ ∧ twiceBy ρ m' = .ok .ready k₂ ∧
    GoesOnAs e m.callers (m.pc + 6) (m'.pc + 7) k₁ k₂ ∧
    match m.nativeMethod? receiver (m.bytecode.text name) with
    | some f => HasOneMore e (.function (.native f) receiver.handle?) k₁ k₂
    | none => e = Equiv.refl Handle ∧ k₂.heap = k₁.heap

/-- Reading a field of a value gives something that can be called. -/
def FieldCallable (m : Machine) (target : Value) (name : Symbol) : Prop :=
  ∃ v m', Exec.fieldValue target name m = .ok v m' ∧ m'.isCallable v = true

end Machine

namespace Exec

variable {m : Machine} {x : Handle} {ρ : Natives}

/-! ## The instructions -/

variable {name : Symbol} {us rest : List Value} {r v : Value} {y : Handle} {f : Native} {n : UInt8}

/-- Reading a native method binds it to its receiver. -/
theorem run_getField_native {h : Heap} (hops : m.frame.operands = .object y :: rest)
    (hmethod : m.nativeMethod? (.object y) (m.bytecode.text name) = some f)
    (hr : Heap.retain (.object y) m.heap = .ok () h) :
    let o : Object := .function (.native f) (some y)
    execute (.getField name) m = .ok () { m with
      frame := { m.frame with operands := .object (h.allocate o).1 :: rest }
      heap := (h.allocate o).2 } := by
  intro o
  let popped : Machine := { m with frame := { m.frame with operands := rest } }
  have hmethod' : popped.nativeMethod? (.object y) (popped.bytecode.text name) = some f := hmethod
  have hvalue : fieldValue (.object y) name popped =
      .ok (.object (h.allocate o).1) { popped with heap := (h.allocate o).2 } := by
    rw [fieldValue, run_get_bind, hmethod']
    dsimp only
    rw [run_bind_ok (run_onHeap_ok (m := popped) hr), run_bind_ok (run_allocate _ _)]
    rfl
  rw [execute, getField, run_bind_ok (run_pop_cons hops), run_bind_ok hvalue]
  rfl

theorem run_getField_field (hops : m.frame.operands = r :: rest)
    (hmethod : m.nativeMethod? r (m.bytecode.text name) = none)
    (hv : m.fieldValue r name = .ok v) :
    execute (.getField name) m =
      .ok () { m with frame := { m.frame with operands := v :: rest } } := by
  let popped : Machine := { m with frame := { m.frame with operands := rest } }
  have hmethod' : popped.nativeMethod? r (popped.bytecode.text name) = none := hmethod
  have hv' : popped.fieldValue r name = .ok v := hv
  have hvalue : fieldValue r name popped = .ok v popped := by
    rw [fieldValue, run_get_bind, hmethod']
    simp only [look, hv']
  rw [execute, getField, run_bind_ok (run_pop_cons hops), run_bind_ok hvalue]
  rfl

/-- Calling a bound method puts its receiver below the arguments. -/
theorem run_call_bound (hops : m.frame.operands = .object x :: (us ++ rest))
    (hlen : us.length = n.toNat)
    (hx : m.heap.object? x = some (.function (.native f) (some y))) :
    executeBy ρ (.call n) m = callAction f.name (ρ f) (us.length + 1)
      { m with frame := { m.frame with operands := us ++ .object y :: rest } } := by
  have hcount : ¬ (us ++ rest).length < us.length := by
    rw [Nat.not_lt, List.length_append]
    omega
  have hcall : m.callIn? (.call n) = some ⟨f, .object y :: us.reverse, rest⟩ := by
    simp only [Machine.callIn?, hops, Machine.callOf?, ← hlen, if_neg hcount, hx, List.take_left,
      List.drop_left, Option.map_some, Option.toList_some, List.singleton_append]
  rw [executeBy, hcall, callBy]
  simp only [List.length_cons, List.length_reverse, List.reverse_cons, List.reverse_reverse,
    List.append_assoc, List.singleton_append]
  rfl

theorem run_call_value (hops : m.frame.operands = v :: rest) :
    executeBy ρ (.call n) m =
      callValueBy ρ v n.toNat { m with frame := { m.frame with operands := rest } } := by
  have hrun : execute (.call n) m =
      callValue v n.toNat { m with frame := { m.frame with operands := rest } } := by
    rw [execute, run_bind_ok (run_pop_cons hops)]
  rw [executeBy, callValueBy]
  simp only [Machine.callIn?, hops]
  exact callBy_congr hrun _

/-- A native method is called with its receiver below the arguments. -/
theorem run_callMethod_native (hops : m.frame.operands = us ++ r :: rest)
    (hlen : us.length = n.toNat)
    (hmethod : m.nativeMethod? r (m.bytecode.text name) = some f) :
    executeBy ρ (.callMethod name n) m = callAction f.name (ρ f) (us.length + 1) m := by
  have hreceiver : m.frame.operands[us.length]? = some r := by
    rw [hops, List.getElem?_append_right (Nat.le_refl _), Nat.sub_self]
    rfl
  have hcount : (m.frame.operands.take (us.length + 1)).length = us.length + 1 := by
    rw [List.length_take, hops, List.length_append, List.length_cons]
    omega
  have hcall : m.callIn? (.callMethod name n) = some ⟨f, (m.frame.operands.take
      (us.length + 1)).reverse, m.frame.operands.drop (us.length + 1)⟩ := by
    simp only [Machine.callIn?, ← hlen, hreceiver, hmethod]
  rw [executeBy, hcall, callBy]
  dsimp only
  rw [List.length_reverse, hcount, List.reverse_reverse, List.take_append_drop]
  rfl

/-- What is found in a field is called without the receiver. -/
theorem run_callMethod_field (hops : m.frame.operands = us ++ r :: rest)
    (hlen : us.length = n.toNat)
    (hmethod : m.nativeMethod? r (m.bytecode.text name) = none)
    (hv : m.fieldValue r name = .ok v) (hcallable : m.isCallable v = true) :
    executeBy ρ (.callMethod name n) m = callValueBy ρ v n.toNat
      { m with frame := { m.frame with operands := us ++ rest } } := by
  have hreceiver : m.frame.operands[us.length]? = some r := by
    rw [hops, List.getElem?_append_right (Nat.le_refl _), Nat.sub_self]
    rfl
  have hremove : m.frame.operands.eraseIdx us.length = us ++ rest := by
    rw [hops, List.eraseIdx_append_of_length_le (Nat.le_refl _), Nat.sub_self]
    rfl
  have hrun : execute (.callMethod name n) m = callValue v n.toNat
      { m with frame := { m.frame with operands := us ++ rest } } := by
    rw [execute, ← hlen]
    simp only [callMethod, run_get_bind, hreceiver, hmethod, hv, hcallable, if_true]
    have hremoved : removeBelow us.length m = .ok ()
        { m with frame := { m.frame with operands := m.frame.operands.eraseIdx us.length } } := rfl
    rw [run_bind_ok hremoved, hremove]
  rw [executeBy, callValueBy]
  simp only [Machine.callIn?, ← hlen, hreceiver, hmethod, hv, hcallable, if_true, hremove]
  rw [hlen]
  exact callBy_congr hrun _

end Exec

/-! ## Both ways -/

namespace Machine

variable {m : Machine} {q : Nat} {x : Handle} {o : Object} {e : Equiv.Perm Handle} {ρ : Natives}

/-- The machine that is to read the field first: the receiver is the topmost operand. -/
def toRead (m : Machine) (q : Nat) (receiver : Value) (operands : List Value) : Machine :=
  { m with pc := q, frame := { m.frame with operands := receiver :: operands } }

theorem exists_of_nativeMethod? {receiver : Value} {name : String} {f : Native}
    (h : m.nativeMethod? receiver name = some f) :
    ∃ y kind vs, receiver = .object y ∧ m.heap.object? y = some (.nativeRecord kind vs) := by
  unfold nativeMethod? at h
  split at h
  · next kind vs ho =>
    obtain ⟨y, hy, ho⟩ := Option.bind_eq_some_iff.1 ho
    cases receiver with
    | object z =>
      cases hy
      exact ⟨y, kind, vs, rfl, ho⟩
    | _ => cases hy
  · cases h

theorem FieldCallable.exists_value {receiver : Value} {name : Symbol}
    (h : m.FieldCallable receiver name)
    (hmethod : m.nativeMethod? receiver (m.bytecode.text name) = none) :
    ∃ v, m.fieldValue receiver name = .ok v ∧ m.isCallable v = true := by
  obtain ⟨v, m', hv, hcallable⟩ := h
  rw [Exec.fieldValue, Exec.run_get_bind, hmethod] at hv
  simp only [Exec.look] at hv
  split at hv
  · next w hw =>
    cases hv
    exact ⟨v, hw, hcallable⟩
  · cases hv

/-- Exact counts are tallied. -/
theorem CountsExact.tallied (hc : m.CountsExact) (hs : m.heap.slots.size ≤ 2 ^ 32) :
    m.heap.Tallied m.owners.count := by
  constructor
  · rintro x y ⟨o, ho, hy⟩
    obtain ⟨n, hn⟩ := Heap.object?_eq_some_iff.1 ho
    have hinner := Heap.mem_inner_of_find? hn hy
    exact hc.live y (List.mem_append_right _ (List.mem_append_right _ hinner))
  · intro x c hx
    rw [hc.count x c hx, List.count_append, Heap.holders_eq_count_inner hs]

/-! ### One object more -/

/-- A machine has a twin with one object more, which it does not hold. -/
theorem twins_besides {h : Heap} (hb : Besides (Equiv.refl Handle) x o m.heap h)
    (ht : m.heap.Tallied m.owners.count) (hx : x ∉ m.pinned) (events : Array Event) :
    Twins m q (some (x, o)) [] m { m with pc := q, heap := h, events } where
  base := ⟨m.frame.operands, m.heap, m.output, m.events, rfl⟩
  twin := ⟨h, events, rfl⟩
  same he := by cases he
  more z p he := by
    cases he
    exact ⟨hb, ht⟩
  avoids v hv := by
    rintro _ ⟨⟩ rfl
    refine hx ?_
    rw [Exec.pinned_eq]
    exact List.mem_append_left _ (Value.mem_handles.2 hv)

/-- The object more is garbage, if no place of the machine refers to it: it is new, so it is counted
for nothing, and no older object can hold it. -/
theorem garbage_of_besides {h : Heap} {ext : Handle → Nat} (hb : Besides e x o h m.heap)
    (ht : h.Tallied ext) (hw : m.heap.WellFormed) (hs : m.heap.slots.size < 2 ^ 32)
    (hpinned : x ∉ m.pinned) (howners : x ∉ m.owners) : m.Garbage x := by
  refine ⟨⟨hw, ?_, ?_⟩, hpinned, howners⟩
  · rw [Heap.count?, hb.object]
    rfl
  · have hinner := Heap.holders_eq_count_inner (Nat.le_of_lt hs) x
    rw [hb.holders_self ht] at hinner
    exact List.count_eq_zero.1 hinner.symm

/-- The twin with one object more is called as the machine is, if all that the machine refers to is
live: the object more is none of it. -/
theorem receiving_besides {h : Heap} {us rest : List Value} {y : Handle}
    (hb : Besides (Equiv.refl Handle) x o m.heap h) (ht : m.heap.Tallied m.owners.count)
    (hlive : ∀ z ∈ m.held, m.heap.contains z = true)
    (hops : m.frame.operands = us ++ .object y :: rest) (hw : m.heap.WellFormed)
    (hs : m.heap.slots.size < 2 ^ 32) (hw' : h.WellFormed) (hs' : h.slots.size < 2 ^ 32)
    (events : Array Event) :
    Receiving m q x o us y m { m with pc := q, heap := h, events } := by
  have hfresh : x ∉ m.held := fun hx => hb.ne_of_contains (hlive x hx) rfl
  have hpinned : x ∉ m.pinned := fun hx => hfresh (List.mem_append_left _ hx)
  have howners : x ∉ m.owners := fun hx =>
    hfresh (List.mem_append_right _ (List.mem_append_left _ hx))
  exact
    { twins := twins_besides hb ht hpinned events
      garbage := garbage_of_besides hb ht hw' hs' hpinned howners
      operands := ⟨rest, hops⟩
      wellFormed := hw
      slots := hs
      slots' := hs'
      live := fun z hz => hlive z (by
        rw [held, ← List.append_assoc]
        exact List.mem_append_left _ hz) }

/-! ### Steps that end in an action -/

/-- A step is its instruction, if no collection is due. -/
theorem stepBy_eq_outcome {i : Instruction} (hready : m.status = .ready)
    (hd : Instruction.decode m.bytecode.code m.pc = .instruction i)
    (hgc : m.heap.sinceSweep < m.config.gcThreshold) : ∃ events,
      stepBy ρ m = outcome (Exec.executeBy ρ i) m.pc { m with pc := m.pc + i.width, events } := by
  refine ⟨(m.note (.executed m.pc i)).events, ?_⟩
  have hstep : stepBy ρ m = outcome (Exec.executeBy ρ i) m.pc
      { m.collectIfDue.note (.executed m.pc i) with pc := m.pc + i.width } := by
    simp only [stepBy, hready, hd]
  rw [hstep, collectIfDue_of_lt hgc, note_eq]

theorem twiceBy_of_ok {m' : Machine} (h : stepBy ρ m = .ok .ready m') :
    twiceBy ρ m = stepBy ρ m' ∧ m.afterBy ρ 1 = m' := by
  refine ⟨?_, by rw [afterBy, afterBy, nextBy, h]⟩
  simp only [twiceBy, bind, EStateM.bind, h]

theorem twiceBy_own (m : Machine) : twiceBy .own m = stepTimes 2 m := by
  rw [stepTimes_two, twiceBy, stepBy_own]
  simp only [bind, EStateM.bind]
  cases step m <;> rfl

/-- Two machines whose steps end in an action that is alike. -/
theorem outcomes_alike {act : Exec Unit} {k k' : Machine} {p q : Nat} {R : Machine → Machine → Prop}
    (h : Exec.Alike k k' act fun _ => R)
    (hstatus : ∀ j j', R j j' → j.status = .ready ∧ j'.status = .ready) :
    (∃ f₁ f₂ j j', outcome act p k = .error f₁ j ∧ outcome act q k' = .error f₂ j' ∧
      f₁.fault = f₂.fault) ∨
    ∃ j j', outcome act p k = .ok .ready j ∧ outcome act q k' = .ok .ready j' ∧ R j j' := by
  unfold outcome
  obtain ⟨f, j, j', hr, hr'⟩ | ⟨_, j, j', hr, hr', hR⟩ := h
  · rw [hr, hr']
    exact .inl ⟨_, _, _, _, rfl, rfl, rfl⟩
  · obtain ⟨hj, hj'⟩ := hstatus j j' hR
    rw [hr, hr']
    dsimp only
    rw [hj, hj']
    exact .inr ⟨j, j', rfl, rfl, hR⟩

/-! ### Both ways -/

section both

variable {receiver : Value} {us rest : List Value} {name : Symbol} {n : UInt8} {q : Nat}
  (hready : m.status = .ready) (hops : m.frame.operands = us ++ receiver :: rest)
  (hlen : us.length = n.toNat)
  (hp : Instruction.decode m.bytecode.code m.pc = .instruction (.callMethod name n))
  (hq : Instruction.decode m.bytecode.code q = .instruction (.getField name))
  (hcall : Instruction.decode m.bytecode.code (q + 5) = .instruction (.call n))
  (hgc : m.heap.sinceSweep < m.config.gcThreshold)
include hready hops hlen hp hq hcall hgc

/-- What is in a field is called without the receiver both times, with the same heap. -/
theorem field_call_agrees (hρ : ρ.Oblivious)
    (hmethod : m.nativeMethod? receiver (m.bytecode.text name) = none)
    {v : Value} (hv : m.fieldValue receiver name = .ok v) (hcallable : m.isCallable v = true) :
    MethodCallsAgreeBy ρ m (m.toRead q receiver (us ++ rest)) receiver name := by
  -- the method call
  obtain ⟨events₁, h₁⟩ := stepBy_eq_outcome (ρ := ρ) hready hp hgc
  let called : Machine := { m with
    pc := m.pc + 6, events := events₁, frame := { m.frame with operands := us ++ rest } }
  have hrun₁ := Exec.run_callMethod_field (ρ := ρ) (m := { m with pc := m.pc + 6, events := events₁ })
    (n := n) hops hlen hmethod hv hcallable
  replace h₁ := h₁.trans (outcome_congr hrun₁ m.pc)
  -- the field, which is called in the next step
  obtain ⟨events, hread⟩ :=
    stepBy_eq_outcome (ρ := ρ) (m := m.toRead q receiver (us ++ rest)) hready hq hgc
  let pushed : Machine := { m with
    pc := q + 5, events, frame := { m.frame with operands := v :: (us ++ rest) } }
  have hpush : stepBy ρ (m.toRead q receiver (us ++ rest)) = .ok .ready pushed :=
    hread.trans (outcome_ok (Exec.run_getField_field
      (m := { m.toRead q receiver (us ++ rest) with pc := q + 5, events }) rfl hmethod hv) hready q)
  obtain ⟨htwice, -⟩ := twiceBy_of_ok hpush
  obtain ⟨events₂, h₂⟩ := stepBy_eq_outcome (ρ := ρ) (m := pushed) hready hcall hgc
  have hrun₂ := Exec.run_call_value (ρ := ρ) (m := { pushed with pc := q + 7, events := events₂ })
    (n := n) rfl
  replace h₂ := htwice.trans (h₂.trans (outcome_congr hrun₂ pushed.pc))
  have htwins : Twins called (q + 7) none [] called { called with pc := q + 7, events := events₂ } :=
    ⟨⟨us ++ rest, m.heap, m.output, events₁, rfl⟩, ⟨m.heap, events₂, rfl⟩, fun _ => rfl,
      fun _ _ h => (by cases h), fun _ _ _ h => (by cases h)⟩
  have hends : ∀ k k', Twins called (q + 7) none [] k k' ∨ called.Entered (q + 7) k k' →
      (GoesOnAs (Equiv.refl Handle) called.callers called.pc (q + 7) k k' ∧
        k.status = called.status ∧ k'.status = called.status) ∧ k'.heap = k.heap := by
    rintro k k' (hk | hk)
    · exact ⟨hk.goesOn, hk.same rfl⟩
    · refine ⟨hk.goesOn, ?_⟩
      obtain ⟨-, frame, events, -, rfl⟩ := hk
      rfl
  rw [MethodCallsAgreeBy, h₁, h₂, hmethod]
  refine (outcomes_alike (Exec.alike_callValueBy hρ htwins v n.toNat) fun k k' hk => ?_).imp_right ?_
  · obtain ⟨⟨-, hstatus, hstatus'⟩, -⟩ := hends k k' hk
    exact ⟨hstatus.trans hready, hstatus'.trans hready⟩
  · rintro ⟨k, k', hk, hk', h⟩
    obtain ⟨⟨hgoesOn, -⟩, hheap⟩ := hends k k' h
    exact ⟨k, k', Equiv.refl Handle, hk, hk', hgoesOn, rfl, hheap⟩

/-- A native method gets its receiver as first argument both times. -/
theorem native_method_agrees (hρ : ρ.Oblivious) {f : Native}
    (hmethod : m.nativeMethod? receiver (m.bytecode.text name) = some f) (hc : m.CountsExact)
    (hw : m.heap.WellFormed)
    (hgc' : ((m.toRead q receiver (us ++ rest)).afterBy ρ 1).heap.sinceSweep < m.config.gcThreshold)
    (hs : ((m.toRead q receiver (us ++ rest)).afterBy ρ 2).heap.slots.size < 2 ^ 32) :
    MethodCallsAgreeBy ρ m (m.toRead q receiver (us ++ rest)) receiver name := by
  obtain ⟨y, kind, vs, rfl, hy⟩ := exists_of_nativeMethod? hmethod
  have hs₁ : ((m.toRead q (.object y) (us ++ rest)).afterBy ρ 1).heap.slots.size < 2 ^ 32 :=
    Nat.lt_of_le_of_lt (extends_nextBy hρ.keepCounts _).slots hs
  have hs₀ : m.heap.slots.size < 2 ^ 32 :=
    Nat.lt_of_le_of_lt (extends_nextBy hρ.keepCounts (m.toRead q (.object y) (us ++ rest))).slots hs₁
  let o : Object := .function (.native f) (some y)
  obtain ⟨h, hretain, hsize, hwh, hb⟩ :=
    Heap.exists_besides hw hs₀ (Heap.contains_of_object? hy) (o := o) rfl
  let x := (h.allocate o).1
  -- the method call
  obtain ⟨events₁, h₁⟩ := stepBy_eq_outcome (ρ := ρ) hready hp hgc
  let called : Machine := { m with pc := m.pc + 6, events := events₁ }
  have hrun₁ := Exec.run_callMethod_native (ρ := ρ) (m := called) (n := n) hops hlen hmethod
  replace h₁ := h₁.trans (outcome_congr hrun₁ m.pc)
  -- the bound method, which is called in the next step
  obtain ⟨events, hread⟩ :=
    stepBy_eq_outcome (ρ := ρ) (m := m.toRead q (.object y) (us ++ rest)) hready hq hgc
  let pushed : Machine := { m with
    pc := q + 5, events, heap := (h.allocate o).2
    frame := { m.frame with operands := .object x :: (us ++ rest) } }
  have hpush : stepBy ρ (m.toRead q (.object y) (us ++ rest)) = .ok .ready pushed :=
    hread.trans (outcome_ok (Exec.run_getField_native
      (m := { m.toRead q (.object y) (us ++ rest) with pc := q + 5, events }) rfl hmethod hretain)
      hready q)
  obtain ⟨htwice, hafter⟩ := twiceBy_of_ok hpush
  rw [hafter] at hgc' hs₁
  obtain ⟨events₂, h₂⟩ := stepBy_eq_outcome (ρ := ρ) (m := pushed) hready hcall hgc'
  let twin : Machine := { called with pc := q + 7, events := events₂, heap := (h.allocate o).2 }
  have hobject : (h.allocate o).2.object? x = some o := by
    rw [Heap.object?, hb.object]
    rfl
  have hrun₂ : Exec.executeBy ρ (.call n) { pushed with pc := q + 7, events := events₂ } =
      Exec.callAction f.name (ρ f) (us.length + 1) twin := by
    rw [Exec.run_call_bound rfl hlen hobject, ← hops]
  replace h₂ := htwice.trans (h₂.trans (outcome_congr hrun₂ pushed.pc))
  have hreceiving : Receiving called (q + 7) x o us y called twin :=
    receiving_besides (m := called) hb (hc.tallied (Nat.le_of_lt hs₀)) hc.live hops hw hs₀
      (hwh.allocate (by rwa [hsize]) o) hs₁ events₂
  rw [MethodCallsAgreeBy, h₁, h₂, hmethod]
  refine (outcomes_alike (Exec.alike_callAction_receiver hρ hreceiving f)
    fun k k' hk => ?_).imp_right ?_
  · obtain ⟨-, e, hk⟩ := hk
    exact ⟨hk.status.1.trans hready, hk.status.2.trans hready⟩
  · rintro ⟨k, k', hk, hk', hspared, e, hfollows⟩
    refine ⟨k, k', e, hk, hk', hfollows.goesOn, hfollows.hasOneMore (hspared ?_).1.not_held⟩
    -- the second machine is behind its call
    have htwo : (m.toRead q (.object y) (us ++ rest)).afterBy ρ 2 = pushed.nextBy ρ := by
      rw [afterBy, hafter]
    rwa [htwo, nextBy, ← htwice, h₂, hk'] at hs

end both

/-- For every machine that counts exactly, and native functions that do not come across an object
that nothing holds: a method call with up to 255 arguments, and reading the field and calling what is
found with them, agree, if reading the field gives something that can be called and no collection is
due in between. -/
theorem host_method_call_agrees (hρ : ρ.Oblivious) {receiver : Value} {args rest : List Value}
    {name : Symbol} {n : UInt8} {q : Nat} (hready : m.status = .ready)
    (hops : m.frame.operands = args.reverse ++ receiver :: rest) (hlen : args.length = n.toNat)
    (hp : Instruction.decode m.bytecode.code m.pc = .instruction (.callMethod name n))
    (hq : Instruction.decode m.bytecode.code q = .instruction (.getField name))
    (hcall : Instruction.decode m.bytecode.code (q + 5) = .instruction (.call n))
    (hcallable : m.FieldCallable receiver name) (hc : m.CountsExact) (hw : m.heap.WellFormed)
    (hgc : m.heap.sinceSweep < m.config.gcThreshold)
    (hgc' : ((m.toRead q receiver (args.reverse ++ rest)).afterBy ρ 1).heap.sinceSweep <
      m.config.gcThreshold)
    (hs : ((m.toRead q receiver (args.reverse ++ rest)).afterBy ρ 2).heap.slots.size < 2 ^ 32) :
    MethodCallsAgreeBy ρ m (m.toRead q receiver (args.reverse ++ rest)) receiver name := by
  have hlen' : args.reverse.length = n.toNat := by rw [List.length_reverse, hlen]
  cases hmethod : m.nativeMethod? receiver (m.bytecode.text name) with
  | none =>
    obtain ⟨v, hv, hv'⟩ := hcallable.exists_value hmethod
    exact field_call_agrees hready hops hlen' hp hq hcall hgc hρ hmethod hv hv'
  | some f =>
    exact native_method_agrees hready hops hlen' hp hq hcall hgc hρ hmethod hc hw hgc' hs

/-- A program that makes a list, and goes on to ask it for itself in both ways. -/
def bothAsk : Bytecode where
  strings := { entries := #["List", "itself"] }
  code := (Instruction.encodeAll [.pushString 0, .getGlobal, .call 0,
    .callMethod 1 0, .getField 1, .call 0, .ret]).toArray

theorem host_method_call_agrees_itself :
    let ρ := Natives.own.define "itself" Exec.itself
    let m := ((new bothAsk {}).registerStructure "List" [("itself", .leave)]).after 3
    let list : Value := .object ⟨1, 0⟩
    m.frame.operands = [list] ∧ m.nativeMethod? list "itself" = some ⟨"itself", .leave⟩ ∧
      MethodCallsAgreeBy ρ m (m.toRead 14 list []) list 1 := by
  intro ρ m list
  have hc₀ : ((new bothAsk {}).registerStructure "List" [("itself", .leave)]).Counted [] [] :=
    counted_of_empty rfl rfl rfl
  obtain ⟨hc, -⟩ := hc₀.after 3 (by decide +kernel)
  have hops : m.frame.operands = [].reverse ++ [list] := by decide +kernel
  have hcallable : m.FieldCallable list 1 := ⟨_, _, rfl, by decide +kernel⟩
  have hρ : ρ.Oblivious := Natives.oblivious_own.define "itself" Exec.oblivious_itself
  refine ⟨hops, by decide +kernel, ?_⟩
  have hagree := host_method_call_agrees hρ (n := 0) (q := 14) (by decide +kernel) hops rfl
    (by decide +kernel) (by decide +kernel) (by decide +kernel) hcallable hc.countsExact
    hc.exact.wellFormed (by decide +kernel) (by decide +kernel) (by decide +kernel)
  exact hagree

/-- For every machine that counts exactly: a method call with up to 255 arguments, and reading the
field and calling what is found with them, agree, if reading the field gives something that can be
called and no collection is due in between. -/
theorem method_call_agrees {receiver : Value} {args rest : List Value} {name : Symbol} {n : UInt8}
    {q : Nat} (hready : m.status = .ready)
    (hops : m.frame.operands = args.reverse ++ receiver :: rest) (hlen : args.length = n.toNat)
    (hp : Instruction.decode m.bytecode.code m.pc = .instruction (.callMethod name n))
    (hq : Instruction.decode m.bytecode.code q = .instruction (.getField name))
    (hcall : Instruction.decode m.bytecode.code (q + 5) = .instruction (.call n))
    (hcallable : m.FieldCallable receiver name) (hc : m.CountsExact) (hw : m.heap.WellFormed)
    (hgc : m.heap.sinceSweep < m.config.gcThreshold)
    (hgc' : ((m.toRead q receiver (args.reverse ++ rest)).after 1).heap.sinceSweep <
      m.config.gcThreshold)
    (hs : ((m.toRead q receiver (args.reverse ++ rest)).after 2).heap.slots.size < 2 ^ 32) :
    MethodCallsAgree m (m.toRead q receiver (args.reverse ++ rest)) receiver name := by
  rw [← afterBy_own] at hgc' hs
  have hagree := host_method_call_agrees Natives.oblivious_own hready hops hlen hp hq hcall hcallable
    hc hw hgc hgc' hs
  rw [MethodCallsAgreeBy, stepBy_own, twiceBy_own] at hagree
  exact hagree

/-- A program that makes a list and a string, and goes on to put the string in the list in both
ways. -/
def bothPushes : Bytecode where
  strings := { entries := #["List", "push"] }
  code := (Instruction.encodeAll [.pushString 0, .getGlobal, .call 0, .pushString 1,
    .callMethod 1 1, .getField 1, .call 1, .ret]).toArray

theorem method_call_agrees_push :
    let m := (new bothPushes {}).after 4
    let list : Value := .object ⟨1, 0⟩
    m.frame.operands = [.object ⟨2, 0⟩, list] ∧
      m.nativeMethod? list "push" = some ⟨"push", .listPush⟩ ∧
      MethodCallsAgree m (m.toRead 19 list [.object ⟨2, 0⟩]) list 1 := by
  intro m list
  have hs : m.heap.slots.size < 2 ^ 32 := by decide +kernel
  obtain ⟨hc, -⟩ := (counted_new bothPushes {}).after 4 hs
  have hops : m.frame.operands = [Value.object ⟨2, 0⟩].reverse ++ [list] := by decide +kernel
  have hcallable : m.FieldCallable list 1 := ⟨_, _, rfl, by decide +kernel⟩
  refine ⟨hops, by decide +kernel, ?_⟩
  have hagree := method_call_agrees (n := 1) (q := 19) (by decide +kernel) hops rfl
    (by decide +kernel) (by decide +kernel) (by decide +kernel) hcallable hc.countsExact
    hc.exact.wellFormed (by decide +kernel) (by decide +kernel) (by decide +kernel)
  exact hagree

end Machine

end Scriptlet
