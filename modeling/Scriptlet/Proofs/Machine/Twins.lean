import Scriptlet.Proofs.Heap.Besides
import Scriptlet.Proofs.Ideal.Calls
import Scriptlet.Proofs.Machine.Display
import Scriptlet.Proofs.Machine.Isolation

/-!
# Calls on two machines side by side

`Machine.Twins b q extra temps m m'`: the machines `m` and `m'` have both come from `b` without a
call or a return. They differ in their program counters and in the events that they recorded, and
maybe the heap of the second has one object more, `extra`, that neither holds on its operand stack.
`Exec.Alike m m' act Q`: an action faults alike on both machines, or ends on both with the same
result and `Q`.

A native function does not come across the extra object, so it is alike on twins
(`Exec.alike_routine`), unless it allocates: then the new objects get different handles. On twins with
the same heap every call is alike (`Exec.alike_callValue`).
-/

namespace Scriptlet

open Heap (Besides)

namespace Machine

/-- The value is not a reference to the extra object. -/
def Avoids (extra : Option (Handle × Object)) (v : Value) : Prop := ∀ p ∈ extra, v ≠ .object p.1

/-- Two machines in the middle of the same call (module doc). -/
structure Twins (b : Machine) (q : Nat) (extra : Option (Handle × Object)) (temps : List Value)
    (m m' : Machine) : Prop where
  base : ∃ operands heap output events,
    m = { b with frame := { b.frame with operands }, heap, output, events }
  twin : ∃ heap events, m' = { m with pc := q, heap, events }
  same : extra = none → m'.heap = m.heap
  more : ∀ x o, extra = some (x, o) →
    Besides (Equiv.refl Handle) x o m.heap m'.heap ∧ m.heap.Tallied b.owners.count
  avoids : ∀ v ∈ temps ++ m.frame.operands, Avoids extra v

/-- Two machines that have entered the same function; they differ in where it returns to. -/
def Entered (b : Machine) (q : Nat) (m m' : Machine) : Prop :=
  m.status = b.status ∧ ∃ frame events, m.callers = ⟨frame, b.pc⟩ :: b.callers ∧
    m' = { m with callers := ⟨frame, q⟩ :: b.callers, events }

variable {b m m' : Machine} {q : Nat} {extra : Option (Handle × Object)} {temps temps' : List Value}

theorem avoids_of_handle? {v : Value} (hv : v.handle? = none) : Avoids extra v := by
  rintro p - rfl
  cases hv

namespace Twins

theorem frame_eq (hm : Twins b q extra temps m m') : m'.frame = m.frame := by
  obtain ⟨heap, events, rfl⟩ := hm.twin
  rfl

/-- Operands change places, and others come from what an action has in its hands. -/
theorem reframe (hm : Twins b q extra temps m m') (temps' vs : List Value)
    (hsub : ∀ v ∈ temps' ++ vs, v ∈ temps ++ m.frame.operands) :
    Twins b q extra temps' { m with frame := { m.frame with operands := vs } }
      { m' with frame := { m'.frame with operands := vs } } := by
  obtain ⟨⟨operands, heap, output, events, rfl⟩, ⟨heap', events', rfl⟩, hsame, hmore, havoids⟩ := hm
  exact ⟨⟨vs, heap, output, events, rfl⟩, ⟨heap', events', rfl⟩, hsame, hmore,
    fun v hv => havoids v (hsub v hv)⟩

theorem mono (hm : Twins b q extra temps m m') (hsub : ∀ v ∈ temps', v ∈ temps) :
    Twins b q extra temps' m m' :=
  ⟨hm.base, hm.twin, hm.same, hm.more, fun v hv => hm.avoids v (by
    rw [List.mem_append] at hv ⊢
    exact hv.imp_left (hsub v))⟩

theorem drop (hm : Twins b q extra temps m m') : Twins b q extra [] m m' :=
  hm.mono fun _ hv => by cases hv

theorem add (hm : Twins b q extra temps m m') {v : Value} (hv : Avoids extra v) :
    Twins b q extra (v :: temps) m m' := by
  refine ⟨hm.base, hm.twin, hm.same, hm.more, fun w hw => ?_⟩
  rcases List.mem_cons.1 hw with rfl | hw
  · exact hv
  · exact hm.avoids w hw

/-- The heap changes, where there is an extra object. -/
theorem withHeap {x : Handle} {o : Object} (hm : Twins b q (some (x, o)) temps m m') {h h' : Heap}
    (hb : Besides (Equiv.refl Handle) x o h h') (ht : h.Tallied b.owners.count) :
    Twins b q (some (x, o)) temps { m with heap := h } { m' with heap := h' } := by
  obtain ⟨⟨operands, heap, output, events, rfl⟩, ⟨heap', events', rfl⟩, -, -, havoids⟩ := hm
  refine ⟨⟨operands, h, output, events, rfl⟩, ⟨h', events', rfl⟩, fun he => (by cases he),
    fun y p he => ?_, havoids⟩
  cases he
  exact ⟨hb, ht⟩

/-- The heap changes, where it is the same. -/
theorem withSameHeap (hm : Twins b q none temps m m') (h : Heap) :
    Twins b q none temps { m with heap := h } { m' with heap := h } := by
  obtain ⟨⟨operands, heap, output, events, rfl⟩, ⟨heap', events', rfl⟩, -, -, havoids⟩ := hm
  exact ⟨⟨operands, h, output, events, rfl⟩, ⟨h, events', rfl⟩, fun _ => rfl,
    fun y p he => (by cases he), havoids⟩

theorem withEvents (hm : Twins b q extra temps m m') (es es' : Array Event) :
    Twins b q extra temps { m with events := es } { m' with events := es' } := by
  obtain ⟨⟨operands, heap, output, events, rfl⟩, ⟨heap', events', rfl⟩, hsame, hmore, havoids⟩ := hm
  exact ⟨⟨operands, heap, output, es, rfl⟩, ⟨heap', es', rfl⟩, hsame, hmore, havoids⟩

/-- Where there is no extra object, operands are whatever they are. -/
theorem withOperands (hm : Twins b q none [] m m') (vs : List Value) :
    Twins b q none [] (m.withOperands vs) (m'.withOperands vs) := by
  obtain ⟨⟨operands, heap, output, events, rfl⟩, ⟨heap', events', rfl⟩, hsame, -, -⟩ := hm
  exact ⟨⟨vs, heap, output, events, rfl⟩, ⟨heap', events', rfl⟩, hsame,
    fun _ _ h => (by cases h), fun _ _ _ h => (by cases h)⟩

theorem pushNull (hm : Twins b q extra temps m m') :
    Twins b q extra temps
      { m with frame := { m.frame with operands := .null :: m.frame.operands } }
      { m' with frame := { m'.frame with operands := .null :: m'.frame.operands } } := by
  have hnull := (hm.add (avoids_of_handle? (v := .null) rfl)).reframe temps
    (.null :: m.frame.operands) fun w hw => by
      simp only [List.mem_append, List.mem_cons] at hw ⊢
      tauto
  rw [hm.frame_eq] at hnull ⊢
  exact hnull

/-! ### What both find -/

theorem object?_eq (hm : Twins b q extra temps m m') {y : Handle} (hy : Avoids extra (.object y)) :
    m'.heap.object? y = m.heap.object? y := by
  cases extra with
  | none => rw [hm.same rfl]
  | some p =>
    obtain ⟨x, o⟩ := p
    refine (hm.more x o rfl).1.object?_refl fun hyx => ?_
    exact hy (x, o) rfl (congrArg Value.object hyx)

theorem lookup_eq (hm : Twins b q extra temps m m') {v : Value} (hv : Avoids extra v) :
    v.handle?.bind m'.heap.object? = v.handle?.bind m.heap.object? := by
  cases v with
  | object y => exact hm.object?_eq hv
  | _ => rfl

/-- No object holds the extra one. -/
theorem avoids_element (hm : Twins b q extra temps m m') {y : Handle} {p : Object} {vs : Array Value}
    (hy : m.heap.object? y = some p) (hvs : p.elements? = some vs) {v : Value} (hv : v ∈ vs) :
    Avoids extra v := by
  rintro ⟨x, o⟩ hx rfl
  obtain ⟨hb, ht⟩ := hm.more x o hx
  have hchild : x ∈ p.children := by
    rw [Object.children_of_elements? hvs, Value.mem_handles]
    exact Array.mem_toList_iff.2 hv
  exact hb.ne_of_contains (ht.live y x ⟨p, hy, hchild⟩) rfl

theorem kindName_eq (hm : Twins b q extra temps m m') {v : Value} (hv : Avoids extra v) :
    m'.heap.kindName v = m.heap.kindName v := by
  cases v with
  | object y => exact congrArg (Option.elim · "collected object" Object.typeName) (hm.object?_eq hv)
  | _ => rfl

end Twins

/-- Both machines show a value in the same way. -/
theorem Twins.displayTo_eq (hm : Twins b q extra temps m m') (n : Nat) (v : Value)
    (hv : Avoids extra v) : m'.displayTo n v = m.displayTo n v := by
  have htables : m.bytecode.SameTables m'.bytecode ∧ m'.structures = m.structures := by
    obtain ⟨heap, events, rfl⟩ := hm.twin
    exact ⟨⟨rfl, rfl, rfl⟩, rfl⟩
  refine displayTo_congr (P := fun _ => Avoids extra) htables.1 htables.2
    (fun _ _ hv => hm.lookup_eq hv) ?_ n v hv
  intro _ _ o vs _ ho hvs w hw
  obtain ⟨y, -, hy⟩ := Option.bind_eq_some_iff.1 ho
  exact hm.avoids_element hy hvs hw

theorem Twins.display_eq (hm : Twins b q extra temps m m') {v : Value} (hv : Avoids extra v) :
    m'.display v = m.display v :=
  hm.displayTo_eq _ v hv

end Machine

open Machine (Twins Avoids)

namespace Exec

variable {α β : Type} {b m m' : Machine} {q : Nat} {extra : Option (Handle × Object)}
  {temps : List Value}

/-- The action does the same on both machines (module doc). -/
def Alike (m m' : Machine) (act : Exec α) (Q : α → Machine → Machine → Prop) : Prop :=
  (∃ f k k', act m = .error f k ∧ act m' = .error f k') ∨
  ∃ a k k', act m = .ok a k ∧ act m' = .ok a k' ∧ Q a k k'

namespace Alike

variable {Q : α → Machine → Machine → Prop} {R : β → Machine → Machine → Prop}

theorem of_error {act : Exec α} {f : Fault} {k k' : Machine} (h : act m = .error f k)
    (h' : act m' = .error f k') : Alike m m' act Q :=
  .inl ⟨f, k, k', h, h'⟩

theorem of_ok {act : Exec α} {a : α} {k k' : Machine} (h : act m = .ok a k)
    (h' : act m' = .ok a k') (hQ : Q a k k') : Alike m m' act Q :=
  .inr ⟨a, k, k', h, h', hQ⟩

theorem fault {f : Fault} : Alike m m' (fault f) Q := of_error rfl rfl

theorem pure {a : α} (h : Q a m m') : Alike m m' (pure a) Q := of_ok rfl rfl h

theorem bind {act : Exec α} {next : α → Exec β} (h : Alike m m' act Q)
    (hnext : ∀ a k k', Q a k k' → Alike k k' (next a) R) : Alike m m' (act >>= next) R := by
  obtain ⟨f, k, k', hr, hr'⟩ | ⟨a, k, k', hr, hr', hQ⟩ := h
  · exact of_error (run_bind_error hr next) (run_bind_error hr' next)
  · unfold Alike
    rw [run_bind_ok hr, run_bind_ok hr']
    exact hnext a k k' hQ

theorem of_run {act act' : Exec α} {k k' : Machine} (h : act m = act' k) (h' : act m' = act' k')
    (hQ : Alike k k' act' Q) : Alike m m' act Q := by
  unfold Alike at hQ ⊢
  rw [h, h']
  exact hQ

/-- Both machines look the same to what follows. -/
theorem get_bind {next : Machine → Exec β} (hsame : next m' = next m)
    (h : Alike m m' (next m) R) : Alike m m' (get >>= next) R :=
  of_run (run_get_bind next m) ((run_get_bind next m').trans (congrFun hsame m')) h

/-- The first two of three actions are taken together. -/
theorem bind_bind {γ : Type} {act : Exec γ} {mid : γ → Exec α} {next : α → Exec β}
    (h : Alike m m' (act >>= mid) Q) (hnext : ∀ a k k', Q a k k' → Alike k k' (next a) R) :
    Alike m m' (act >>= fun c => mid c >>= next) R := by
  rw [← bind_assoc]
  exact h.bind hnext

/-- What is known of the second run alone is known as well. -/
theorem post_of_ok {act : Exec α} {S : α → Machine → Machine → Prop} (h : Alike m m' act Q)
    (hQ : ∀ a k k', act m' = .ok a k' → Q a k k' → S a k k') : Alike m m' act S := by
  obtain h | ⟨a, k, k', hr, hr', h⟩ := h
  · exact .inl h
  · exact of_ok hr hr' (hQ a k k' hr' h)

theorem post {act : Exec α} {S : α → Machine → Machine → Prop} (h : Alike m m' act Q)
    (hQ : ∀ a k k', Q a k k' → S a k k') : Alike m m' act S :=
  h.post_of_ok fun a k k' _ => hQ a k k'

end Alike

/-! ## Operands -/

theorem alike_push (hm : Twins b q extra temps m m') {v : Value} (hv : Avoids extra v) :
    Alike m m' (push v) fun _ => Twins b q extra temps := by
  have hm' := (hm.add hv).reframe temps (v :: m.frame.operands) fun w hw => by
    simp only [List.mem_append, List.mem_cons] at hw ⊢
    tauto
  have hr' : push v m' =
      .ok () { m' with frame := { m'.frame with operands := v :: m.frame.operands } } := by
    rw [← hm.frame_eq]
    rfl
  exact .of_ok rfl hr' hm'

theorem alike_popN (hm : Twins b q extra temps m m') (count : Nat) :
    Alike m m' (popN count) fun vs => Twins b q extra (vs ++ temps) := by
  by_cases hl : m.frame.operands.length < count
  · exact .of_error (run_popN_of_lt hl) (run_popN_of_lt (by rwa [hm.frame_eq]))
  · have hl' : ¬ m'.frame.operands.length < count := by rwa [hm.frame_eq]
    have hr' := run_popN_of_not_lt hl'
    rw [hm.frame_eq] at hr'
    refine .of_ok (run_popN_of_not_lt hl) hr' ?_
    have hm' := hm.reframe ((m.frame.operands.take count).reverse ++ temps)
      (m.frame.operands.drop count) fun v hv => by
        simp only [List.mem_append, List.mem_reverse] at hv ⊢
        rcases hv with (hv | hv) | hv
        · exact .inr (List.mem_of_mem_take hv)
        · exact .inl hv
        · exact .inr (List.mem_of_mem_drop hv)
    rw [hm.frame_eq] at hm'
    exact hm'

/-! ## Arguments -/

theorem alike_arguments (hm : Twins b q extra temps m m') (expected args : Nat) :
    Alike m m' (arguments expected args) fun vs => Twins b q extra (vs ++ temps) := by
  refine .bind (alike_popN hm args) fun vs k k' hk => ?_
  split
  · exact .pure hk
  · exact .fault

/-- A native that wants another number of arguments faults. -/
theorem alike_arguments_of_ne {Q : List Value → Machine → Machine → Prop}
    (hm : Twins b q extra temps m m') {expected args : Nat} (hne : args ≠ expected) :
    Alike m m' (arguments expected args) Q := by
  by_cases hl : m.frame.operands.length < args
  · exact .of_error (run_bind_error (run_popN_of_lt hl) _)
      (run_bind_error (run_popN_of_lt (by rwa [hm.frame_eq])) _)
  · have hl' : ¬ m'.frame.operands.length < args := by rwa [hm.frame_eq]
    have hlength : (m.frame.operands.take args).reverse.length ≠ expected := by
      rw [List.length_reverse, List.length_take, Nat.min_eq_left (Nat.le_of_not_lt hl)]
      exact hne
    have hr' := run_popN_of_not_lt hl'
    rw [hm.frame_eq] at hr'
    refine .of_run (run_bind_ok (run_popN_of_not_lt hl) _) (run_bind_ok hr' _) ?_
    rw [if_neg hlength]
    exact .fault

theorem alike_argument (hm : Twins b q extra temps m m') (args : Nat) :
    Alike m m' (argument args) fun v => Twins b q extra (v :: temps) := by
  refine .bind (alike_arguments hm 1 args) fun vs k k' hk => ?_
  split
  · exact .pure hk
  · exact .fault

theorem alike_twoArguments (hm : Twins b q extra temps m m') (args : Nat) :
    Alike m m' (twoArguments args) fun p => Twins b q extra (p.1 :: p.2 :: temps) := by
  refine .bind (alike_arguments hm 2 args) fun vs k k' hk => ?_
  split
  · exact .pure hk
  · exact .fault

theorem alike_refuseArgument {Q : α → Machine → Machine → Prop} (hm : Twins b q extra temps m m')
    (native expected : String) {v : Value} (hv : Avoids extra v) :
    Alike m m' (refuseArgument native expected v) Q := by
  refine .bind (Q := fun _ _ _ => True) ?_ fun _ _ _ _ => .fault
  exact .get_bind (by rw [hm.kindName_eq hv]) (.pure trivial)

/-! ## Natives -/

theorem alike_print (hm : Twins b q extra [] m m') (args : Nat) :
    Alike m m' (print args) fun _ => Twins b q extra [] := by
  refine .bind (alike_popN hm args) fun vs k k' hk => ?_
  have htexts : vs.map k'.display = vs.map k.display := by
    refine List.map_congr_left fun v hv => hk.display_eq (hk.avoids v ?_)
    exact List.mem_append_left _ (List.mem_append_left _ hv)
  refine .get_bind (by rw [htexts]) (.of_ok rfl rfl ?_)
  obtain ⟨⟨operands, heap, output, events, rfl⟩, ⟨heap', events', rfl⟩, hsame, hmore, havoids⟩ := hk
  refine ⟨⟨operands, heap, _, events, rfl⟩, ⟨heap', events', rfl⟩, hsame, hmore, fun v hv => ?_⟩
  exact havoids v (List.mem_append_right _ hv)

theorem alike_len (hm : Twins b q extra [] m m') (args : Nat) :
    Alike m m' (len args) fun _ => Twins b q extra [] := by
  refine .bind (alike_argument hm args) fun v k k' hk => ?_
  have hv : Avoids extra v := hk.avoids v List.mem_cons_self
  refine .get_bind (by rw [hk.lookup_eq hv]) ?_
  split
  · exact alike_push hk.drop (Machine.avoids_of_handle? rfl)
  · exact alike_push hk.drop (Machine.avoids_of_handle? rfl)
  · exact alike_push hk.drop (Machine.avoids_of_handle? rfl)
  · exact alike_refuseArgument hk _ _ hv

/-- The receiver of a list method is an instance of a native structure. -/
theorem alike_listHandle (hm : Twins b q extra temps m m') (native : String) {receiver : Value}
    (hv : Avoids extra receiver) :
    Alike m m' (listHandle native receiver) fun y k k' => Twins b q extra temps k k' ∧
      Avoids extra (.object y) ∧ ∃ kind vs, k.heap.object? y = some (.nativeRecord kind vs) := by
  unfold listHandle
  split
  · next y =>
    refine .get_bind (by rw [hm.object?_eq hv]) ?_
    split
    · next kind vs ho => exact .pure ⟨hm, hv, kind, vs, ho⟩
    · exact .fault
    · exact .fault
  · exact .fault

theorem alike_storage (hm : Twins b q extra temps m m') {y : Handle} {kind : Nat} {vs : Array Value}
    (hy : Avoids extra (.object y)) (ho : m.heap.object? y = some (.nativeRecord kind vs)) :
    Alike m m' (storage y) fun us k k' => us = vs ∧ k = m ∧ k' = m' :=
  .of_ok (Ideal.run_storage ho) (Ideal.run_storage ((hm.object?_eq hy).trans ho)) ⟨rfl, rfl, rfl⟩

theorem run_onHeap_error {act : Heap.Action α} {f : Fault} {h : Heap}
    (hr : act m.heap = .error f h) : onHeap act m = .error f { m with heap := h } := by
  rw [run_onHeap, hr]

theorem alike_onHeap (hm : Twins b q none temps m m') (act : Heap.Action α) :
    Alike m m' (onHeap act) fun _ => Twins b q none temps := by
  have hheap := hm.same rfl
  cases hr : act m.heap with
  | ok a h =>
    have hr' : act m'.heap = .ok a h := by rw [hheap, hr]
    exact .of_ok (run_onHeap_ok hr) (run_onHeap_ok hr') (hm.withSameHeap h)
  | error f h =>
    have hr' : act m'.heap = .error f h := by rw [hheap, hr]
    exact .of_error (run_onHeap_error hr) (run_onHeap_error hr')

/-- A value is put in a list, and counted there. -/
theorem alike_pushStorage (hm : Twins b q extra temps m m') {y : Handle} {kind : Nat}
    {vs : Array Value} (ho : m.heap.object? y = some (.nativeRecord kind vs)) {v : Value}
    (hv : Avoids extra v) :
    Alike m m' (do modifyStorage y fun vs => vs.push v; onHeap (Heap.retain v)) fun _ =>
      Twins b q extra temps := by
  cases extra with
  | none => exact .bind (alike_onHeap hm _) fun _ _ _ hk => alike_onHeap hk _
  | some p =>
    obtain ⟨x, o⟩ := p
    obtain ⟨hb, ht⟩ := hm.more x o rfl
    let g := Object.mapElements fun vs => vs.push v
    refine .of_run (run_bind_ok (run_modifyStorage y _ m) _)
      (run_bind_ok (run_modifyStorage y _ m') _) ?_
    obtain ⟨f, h, h', hr, hr'⟩ | ⟨h, h', hr, hr', hb'⟩ :=
      (hb.changeObject ho g).retain (hv (x, o) rfl)
    · exact .of_error (run_onHeap_error (m := { m with heap := _ }) hr)
        (run_onHeap_error (m := { m' with heap := _ }) hr')
    · refine .of_ok (run_onHeap_ok (m := { m with heap := _ }) hr)
        (run_onHeap_ok (m := { m' with heap := _ }) hr') (hm.withHeap hb' ?_)
      -- counting it first makes it a holder from outside, whose part the list takes over
      obtain ⟨h₀, hr₀, rfl⟩ := Heap.exists_retain_of_changeObject hr
      have ht₀ := ht.retain hr₀
      have ho₀ := (Heap.object?_retain hr₀ y).trans ho
      have hchildren : (g (.nativeRecord kind vs)).children =
          (Object.nativeRecord kind vs).children ++ Value.handles [v] := by
        change Value.handles (vs.push v).toList = _
        rw [Array.toList_push, Value.handles_append]
        rfl
      refine ht₀.changeObject ho₀ g (fun z hz => ?_) fun z => ?_
      · rw [hchildren, List.mem_append] at hz
        rcases hz with hz | hz
        · exact ht₀.live y z ⟨_, ho₀, hz⟩
        · rw [Value.mem_handles, List.mem_singleton] at hz
          subst hz
          exact Heap.contains_of_retain hr₀
      · rw [hchildren, List.count_append]
        omega

/-- The last value of a list is taken from it, and counted there no more. -/
theorem alike_popStorage (hm : Twins b q extra temps m m') {y : Handle} {kind : Nat}
    {vs : Array Value} (ho : m.heap.object? y = some (.nativeRecord kind vs)) :
    Alike m m' (do modifyStorage y Array.pop; onHeap (Heap.release (vs.back?.getD .null))) fun _ =>
      Twins b q extra temps := by
  cases extra with
  | none => exact .bind (alike_onHeap hm _) fun _ _ _ hk => alike_onHeap hk _
  | some p =>
    obtain ⟨x, o⟩ := p
    obtain ⟨hb, ht⟩ := hm.more x o rfl
    have hchildren : (Object.nativeRecord kind vs).children.Perm
        (Value.handles vs.pop.toList ++ Value.handles [vs.back?.getD .null]) := handles_pop vs
    have hlive : ∀ z ∈ (Object.nativeRecord kind vs).children, m.heap.contains z = true :=
      fun z hz => ht.live y z ⟨_, ho, hz⟩
    -- what the list gives up is held from outside until it is released
    have ht' : (m.heap.changeObject y (Object.mapElements Array.pop)).Tallied fun z =>
        b.owners.count z + (Value.handles [vs.back?.getD .null]).count z := by
      refine ht.changeObject ho _ (fun z hz => hlive z ?_) fun z => ?_
      · exact hchildren.mem_iff.2 (List.mem_append_left _ hz)
      · rw [hchildren.count_eq z, List.count_append]
        change _ + (Value.handles vs.pop.toList).count z = _
        omega
    have hheld : ∀ z, vs.back?.getD .null = .object z →
        ∃ c, (m.heap.changeObject y (Object.mapElements Array.pop)).find? z = some c ∧
          0 < c.count := by
      intro z hz
      have hmem : z ∈ Value.handles [vs.back?.getD .null] := by
        rw [Value.mem_handles, hz]
        exact List.mem_singleton_self _
      have hz' := hlive z (hchildren.mem_iff.2 (List.mem_append_right _ hmem))
      rw [← m.heap.contains_changeObject y z (Object.mapElements Array.pop)] at hz'
      obtain ⟨c, hc⟩ := Heap.contains_iff.1 hz'
      refine ⟨c, hc, ?_⟩
      have hcount := ht'.count z c hc
      have hpos := List.count_pos_iff.2 hmem
      omega
    refine .of_run (run_bind_ok (run_modifyStorage y _ m) _)
      (run_bind_ok (run_modifyStorage y _ m') _) ?_
    obtain ⟨h, h', hr, hr', hb'⟩ := (hb.changeObject ho (Object.mapElements Array.pop)).release hheld
    exact .of_ok (run_onHeap_ok (m := { m with heap := _ }) hr)
      (run_onHeap_ok (m := { m' with heap := _ }) hr') (hm.withHeap hb' (ht'.released hr))

theorem alike_listPush (hm : Twins b q extra [] m m') (args : Nat) :
    Alike m m' (listPush args) fun _ => Twins b q extra [] := by
  refine .bind (alike_twoArguments hm args) fun p k k' hk => ?_
  refine .bind (alike_listHandle hk "push" (hk.avoids p.1 (by simp))) fun y j j' h => ?_
  obtain ⟨hj, -, kind, vs, ho⟩ := h
  exact (alike_pushStorage hj ho (hj.avoids p.2 (by simp))).post fun _ _ _ hk => hk.drop

theorem alike_listPop (hm : Twins b q extra [] m m') (args : Nat) :
    Alike m m' (listPop args) fun _ => Twins b q extra [] := by
  refine .bind (alike_argument hm args) fun receiver k k' hk => ?_
  refine .bind (alike_listHandle hk "pop" (hk.avoids receiver (by simp))) fun y j j' h => ?_
  obtain ⟨hj, hy, kind, vs, ho⟩ := h
  refine .bind (alike_storage hj hy ho) ?_
  rintro us _ _ ⟨rfl, rfl, rfl⟩
  have hback : Avoids extra (us.back?.getD .null) := by
    cases hu : us.back? with
    | none => exact Machine.avoids_of_handle? rfl
    | some v => exact hj.avoids_element ho rfl (Array.mem_of_back? hu)
  exact .bind_bind (alike_popStorage hj ho) fun _ _ _ hk => alike_push hk.drop hback

theorem alike_listGet (hm : Twins b q extra [] m m') (args : Nat) :
    Alike m m' (listGet args) fun _ => Twins b q extra [] := by
  refine .bind (alike_twoArguments hm args) fun p k k' hk => ?_
  dsimp only
  split
  · exact alike_refuseArgument hk _ _ (hk.avoids p.2 (by simp))
  · refine .bind (alike_listHandle hk "get" (hk.avoids p.1 (by simp))) fun y j j' h => ?_
    obtain ⟨hj, hy, kind, vs, ho⟩ := h
    refine .bind (alike_storage hj hy ho) ?_
    rintro us _ _ ⟨rfl, rfl, rfl⟩
    split
    · exact .fault
    · split
      · next v hv => exact alike_push hj.drop (hj.avoids_element ho rfl (Array.mem_of_getElem? hv))
      · exact .fault

theorem alike_listLen (hm : Twins b q extra [] m m') (args : Nat) :
    Alike m m' (listLen args) fun _ => Twins b q extra [] := by
  refine .bind (alike_argument hm args) fun receiver k k' hk => ?_
  refine .bind (alike_listHandle hk "len" (hk.avoids receiver (by simp))) fun y j j' h => ?_
  obtain ⟨hj, hy, kind, vs, ho⟩ := h
  refine .bind (alike_storage hj hy ho) ?_
  rintro us _ _ ⟨rfl, rfl, rfl⟩
  exact alike_push hj.drop (Machine.avoids_of_handle? rfl)

/-! ### Natives that allocate or collect -/

theorem alike_pushNew (hm : Twins b q none temps m m') (o : Object) :
    Alike m m' (pushNew o) fun _ => Twins b q none temps :=
  .bind (alike_onHeap hm _) fun _ _ _ hk => alike_push hk fun p hp => by cases hp

theorem alike_str (hm : Twins b q none [] m m') (args : Nat) :
    Alike m m' (str args) fun _ => Twins b q none [] := by
  refine .bind (alike_argument hm args) fun v k k' hk => ?_
  refine .get_bind ?_ (alike_pushNew hk.drop _)
  rw [hk.display_eq fun p hp => by cases hp]

theorem alike_array (hm : Twins b q none [] m m') (args : Nat) :
    Alike m m' (array args) fun _ => Twins b q none [] := by
  refine .bind (alike_argument hm args) fun size k k' hk => ?_
  split
  · exact alike_pushNew hk.drop _
  · exact alike_refuseArgument hk _ _ fun p hp => by cases hp

theorem alike_collectGarbage (hm : Twins b q none temps m m') :
    Alike m m' collectGarbage fun _ => Twins b q none temps := by
  obtain ⟨events, he⟩ := m.collectGarbage_eq
  obtain ⟨events', he'⟩ := m'.collectGarbage_eq
  have hpinned : m'.pinned = m.pinned := by
    obtain ⟨heap, _, rfl⟩ := hm.twin
    rfl
  rw [hm.same rfl, hpinned] at he'
  have hr : collectGarbage m = .ok (m.heap.sweep m.pinned.contains).1.length
      { m with heap := (m.heap.sweep m.pinned.contains).2, events } := by
    simp only [collectGarbage, he]
  have hr' : collectGarbage m' = .ok (m.heap.sweep m.pinned.contains).1.length
      { m' with heap := (m.heap.sweep m.pinned.contains).2, events := events' } := by
    simp only [collectGarbage, he']
  exact .of_ok hr hr' ((hm.withSameHeap (m.heap.sweep m.pinned.contains).2).withEvents events events')

theorem alike_gc (hm : Twins b q none [] m m') (args : Nat) :
    Alike m m' (gc args) fun _ => Twins b q none [] :=
  .bind (alike_arguments hm 0 args) fun _ _ _ hk => .bind (alike_collectGarbage hk.drop)
    fun _ _ _ hk => alike_push hk (Machine.avoids_of_handle? rfl)

theorem alike_listNew (hm : Twins b q none [] m m') (args : Nat) :
    Alike m m' (listNew args) fun _ => Twins b q none [] := by
  refine .bind (alike_arguments hm 0 args) fun _ k k' hk => .bind (Q := fun _ => Twins b q none []) ?_
    fun y _ _ hk => alike_push hk fun p hp => by cases hp
  refine .get_bind ?_ ?_
  · obtain ⟨heap, events, rfl⟩ := hk.twin
    rfl
  · split
    · exact alike_onHeap hk.drop _
    · exact .fault

/-- The routine makes no new objects and collects none. -/
def Quiet : Routine → Bool
  | .str | .array | .gc | .listNew => false
  | _ => true

/-- What a native does, it does alike on twins with the same heap; otherwise, if it makes no new
objects and collects none. -/
theorem alike_routine (hm : Twins b q extra [] m m') {r : Routine}
    (hr : extra = none ∨ Quiet r = true) (args : Nat) :
    Alike m m' (routine r args) fun _ => Twins b q extra [] := by
  have hsame : Quiet r = false → extra = none := by
    intro hloud
    rcases hr with hr | hr
    · exact hr
    · rw [hr] at hloud
      cases hloud
  cases r with
  | print => exact alike_print hm args
  | len => exact alike_len hm args
  | str =>
    obtain rfl := hsame rfl
    exact alike_str hm args
  | array =>
    obtain rfl := hsame rfl
    exact alike_array hm args
  | gc =>
    obtain rfl := hsame rfl
    exact alike_gc hm args
  | listNew =>
    obtain rfl := hsame rfl
    exact alike_listNew hm args
  | listPush => exact alike_listPush hm args
  | listPop => exact alike_listPop hm args
  | listGet => exact alike_listGet hm args
  | listLen => exact alike_listLen hm args
  | discard => exact .bind (alike_popN hm args) fun _ _ _ hk => .pure hk.drop
  | leave => exact .pure hm

/-- A call of a native is alike if what it does is, as long as nothing that has to hold behind it
counts events or depends on another null. -/
theorem alike_callAction {R : Machine → Machine → Prop} (hm : Twins b q extra [] m m') (name : String)
    {action : Nat → Exec Unit} {args : Nat}
    (hf : ∀ es es', Alike { m with events := es } { m' with events := es' } (action args) fun _ => R)
    (hcount : ∀ k k', R k k' → k'.frame.operands.length = k.frame.operands.length)
    (hnull : ∀ k k', R k k' →
      R { k with frame := { k.frame with operands := .null :: k.frame.operands } }
        { k' with frame := { k'.frame with operands := .null :: k'.frame.operands } }) :
    Alike m m' (callAction name action args) fun _ => R := by
  have hbehind : ∀ (n : Nat) k k', R k k' →
      Alike k k' (do if (← operandCount) = n then push .null) fun _ => R := by
    intro n k k' hk
    refine .bind (Q := fun _ j j' => j = k ∧ j' = k') (.get_bind ?_ (.pure ⟨rfl, rfl⟩)) ?_
    · rw [hcount k k' hk]
    · rintro count _ _ ⟨rfl, rfl⟩
      split
      · exact .of_ok rfl rfl (hnull _ _ hk)
      · exact .pure hk
  refine .bind (Q := fun _ k k' => m = k ∧ m' = k') (.get_bind ?_ (.pure ⟨rfl, rfl⟩)) ?_
  · rw [hm.frame_eq]
  · rintro count _ _ ⟨rfl, rfl⟩
    split
    · exact .fault
    · refine .bind (Q := fun _ k k' => ∃ es es', k = { m with events := es } ∧
        k' = { m' with events := es' }) ?_ ?_
      · exact .of_ok rfl rfl ⟨_, _, m.note_eq _, m'.note_eq _⟩
      · rintro _ _ _ ⟨es, es', rfl, rfl⟩
        exact .bind (hf es es') fun _ k k' hk => hbehind _ k k' hk

/-! ## Calls with the same heap -/

theorem alike_insertBelow (hm : Twins b q extra [] m m') (count : Nat) {v : Value}
    (hv : Avoids extra v) : Alike m m' (insertBelow count v) fun _ => Twins b q extra [] := by
  by_cases hl : m.frame.operands.length < count
  · exact .of_error (run_insertBelow_of_lt hl) (run_insertBelow_of_lt (by rwa [hm.frame_eq]))
  · have hl' : ¬ m'.frame.operands.length < count := by rwa [hm.frame_eq]
    have hr' := run_insertBelow_of_not_lt (v := v) hl'
    rw [hm.frame_eq] at hr'
    have hm' := (hm.add hv).reframe []
      (m.frame.operands.take count ++ v :: m.frame.operands.drop count) fun w hw => by
        simp only [List.nil_append, List.mem_append, List.mem_cons] at hw ⊢
        rcases hw with hw | hw | hw
        · exact .inr (List.mem_of_mem_take hw)
        · exact .inl (.inl hw)
        · exact .inr (List.mem_of_mem_drop hw)
    rw [hm.frame_eq] at hm'
    exact .of_ok (run_insertBelow_of_not_lt hl) hr' hm'

theorem alike_callDeclared (hm : Twins b q none [] m m') (id : UInt32) (args : Nat) :
    Alike m m' (callDeclared id args) fun _ => b.Entered q := by
  refine .get_bind ?_ ?_
  · obtain ⟨heap, events, rfl⟩ := hm.twin
    rfl
  · split
    · exact .fault
    · split
      · exact .fault
      · split
        · exact .fault
        · refine .bind (alike_popN hm args) fun vs _ _ hk => .bind (alike_onHeap hk _) fun _ k k' hk => ?_
          obtain ⟨⟨operands, heap, output, events, rfl⟩, ⟨heap', events', rfl⟩, hsame, -, -⟩ := hk
          obtain rfl : heap' = heap := hsame rfl
          exact .of_ok rfl rfl ⟨rfl, _, events', rfl, rfl⟩

/-- A call of a value ends alike on twins with the same heap: they are twins still, or have entered
the same function. -/
theorem alike_callValue (hm : Twins b q none [] m m') (v : Value) (args : Nat) :
    Alike m m' (callValue v args) fun _ k k' => Twins b q none [] k k' ∨ b.Entered q k k' := by
  have hnative : ∀ {k k'} (f : Native) (n : Nat), Twins b q none [] k k' →
      Alike k k' (callNative f n) fun _ k k' => Twins b q none [] k k' ∨ b.Entered q k k' :=
    fun f n hk => (alike_callAction hk f.name
      (fun es es' => alike_routine (hk.withEvents es es') (.inl rfl) n)
      (fun _ _ hj => congrArg (List.length ∘ Frame.operands) hj.frame_eq)
      fun _ _ hj => hj.pushNull).post fun _ _ _ h => .inl h
  have hcallee : ∀ {k k'} (callee : Callee) (n : Nat), Twins b q none [] k k' →
      Alike k k' (callCallee callee n) fun _ k k' => Twins b q none [] k k' ∨ b.Entered q k k' := by
    intro k k' callee n hk
    cases callee with
    | declared id => exact (alike_callDeclared hk id n).post fun _ _ _ h => .inr h
    | native f => exact hnative f n hk
  cases v with
  | native f => exact hnative f args hm
  | object x =>
    refine .get_bind (by rw [hm.same rfl]) ?_
    split
    · exact hcallee _ args hm
    · exact .bind (alike_insertBelow hm args fun p hp => by cases hp) fun _ _ _ hk =>
        hcallee _ (args + 1) hk
    · exact .fault
    · exact .fault
  | _ => exact .fault

end Exec

end Scriptlet
