import Scriptlet.Machine.Host

/-!
# Actions of the machine

How actions compose, and what no action changes: the program, the limits and the registry of a
machine stay, and slots of its heap are never taken away (`Machine.Extends`). `Machine.after` is
the machine after a number of steps, whether one of them faulted or not, and
`Machine.faultWithin` the fault among them.
-/

namespace Scriptlet

namespace Exec

variable {α β : Type}

/-- The machine that an action leaves behind, also when it faults. -/
def final (act : Exec α) (m : Machine) : Machine :=
  match act m with
  | .ok _ m' => m'
  | .error _ m' => m'

theorem final_ok {act : Exec α} {m m' : Machine} {a : α} (h : act m = .ok a m') :
    act.final m = m' := by
  rw [final, h]

theorem final_error {act : Exec α} {m m' : Machine} {f : Fault} (h : act m = .error f m') :
    act.final m = m' := by
  rw [final, h]

@[simp] theorem run_pure (a : α) (m : Machine) : (pure a : Exec α) m = .ok a m := rfl

@[simp] theorem run_fault (f : Fault) (m : Machine) : (fault f : Exec α) m = .error f m := rfl

@[simp] theorem run_throw (f : Fault) (m : Machine) : (throw f : Exec α) m = .error f m := rfl

@[simp] theorem run_get (m : Machine) : (get : Exec Machine) m = .ok m m := rfl

@[simp] theorem run_modify (f : Machine → Machine) (m : Machine) :
    (modify f : Exec Unit) m = .ok () (f m) := rfl

theorem run_bind (act : Exec α) (k : α → Exec β) (m : Machine) :
    (act >>= k) m = match act m with
      | .ok a m' => k a m'
      | .error f m' => .error f m' := by
  simp only [bind, EStateM.bind]
  cases act m <;> rfl

theorem run_bind_ok {act : Exec α} {m m' : Machine} {a : α} (h : act m = .ok a m')
    (k : α → Exec β) : (act >>= k) m = k a m' := by
  rw [run_bind, h]

theorem run_bind_error {act : Exec α} {m m' : Machine} {f : Fault} (h : act m = .error f m')
    (k : α → Exec β) : (act >>= k) m = .error f m' := by
  rw [run_bind, h]

theorem run_get_bind (k : Machine → Exec α) (m : Machine) : (get >>= k) m = k m m := rfl

theorem run_onHeap (act : Heap.Action α) (m : Machine) :
    onHeap act m = match act m.heap with
      | .ok a heap => .ok a { m with heap }
      | .error f heap => .error f { m with heap } := rfl

theorem run_onHeap_ok {act : Heap.Action α} {m : Machine} {a : α} {h : Heap}
    (hr : act m.heap = .ok a h) : onHeap act m = .ok a { m with heap := h } := by
  rw [run_onHeap, hr]

/-- What goes through, goes through part by part. -/
theorem exists_of_bind {act : Exec α} {k : α → Exec β} {m m' : Machine} {b : β}
    (h : (act >>= k) m = .ok b m') : ∃ a m₁, act m = .ok a m₁ ∧ k a m₁ = .ok b m' := by
  rw [run_bind] at h
  cases hr : act m with
  | ok a m₁ => exact ⟨a, m₁, rfl, by rw [hr] at h; exact h⟩
  | error f m₁ => rw [hr] at h; cases h

theorem exists_of_onHeap {act : Heap.Action α} {m m' : Machine} {a : α}
    (h : onHeap act m = .ok a m') : ∃ heap, act m.heap = .ok a heap ∧ m' = { m with heap } := by
  rw [run_onHeap] at h
  cases hr : act m.heap with
  | ok b heap => rw [hr] at h; cases h; exact ⟨heap, rfl, rfl⟩
  | error f heap => rw [hr] at h; cases h

theorem run_allocate (o : Object) (m : Machine) :
    onHeap (Heap.allocateM o) m =
      .ok (m.heap.allocate o).1 { m with heap := (m.heap.allocate o).2 } := rfl

end Exec

/-! ## What actions leave alone -/

namespace Machine

/-- What stays from one machine to a later one. -/
structure Extends (m m' : Machine) : Prop where
  bytecode : m'.bytecode = m.bytecode
  config : m'.config = m.config
  structures : m'.structures = m.structures
  slots : m.heap.slots.size ≤ m'.heap.slots.size

theorem Extends.refl (m : Machine) : m.Extends m := ⟨rfl, rfl, rfl, Nat.le_refl _⟩

theorem Extends.trans {m₁ m₂ m₃ : Machine} (h₁₂ : m₁.Extends m₂) (h₂₃ : m₂.Extends m₃) :
    m₁.Extends m₃ :=
  ⟨h₂₃.bytecode.trans h₁₂.bytecode, h₂₃.config.trans h₁₂.config,
    h₂₃.structures.trans h₁₂.structures, Nat.le_trans h₁₂.slots h₂₃.slots⟩

/-- The next machine has at least the slots of this one. -/
theorem Extends.ofHeap (m : Machine) {h : Heap} (hs : m.heap.slots.size ≤ h.slots.size) :
    m.Extends { m with heap := h } :=
  ⟨rfl, rfl, rfl, hs⟩

/-! ## Events -/

/-- Recording an event changes the record of events only. -/
theorem note_eq (m : Machine) (e : Event) : m.note e = { m with events := (m.note e).events } := by
  unfold note
  split <;> rfl

theorem foldl_note_eq {α : Type} (g : α → Event) : ∀ (es : List α) (m : Machine),
    ∃ events, es.foldl (fun m a => m.note (g a)) m = { m with events }
  | [], m => ⟨m.events, rfl⟩
  | a :: es, m => by
    obtain ⟨events, h⟩ := foldl_note_eq g es (m.note (g a))
    refine ⟨events, ?_⟩
    rw [List.foldl_cons, h, note_eq]

/-- A collection replaces the heap by the swept one, and records events. -/
theorem collectGarbage_eq (m : Machine) : ∃ events, m.collectGarbage =
    ((m.heap.sweep m.pinned.contains).1.length,
      { m with heap := (m.heap.sweep m.pinned.contains).2, events }) := by
  unfold collectGarbage
  obtain ⟨events, h⟩ := foldl_note_eq
    (fun f : Heap.Freed => Event.freed f.object.typeName f.index.toNat)
    (m.heap.sweep m.pinned.contains).1
    { m with heap := (m.heap.sweep m.pinned.contains).2 }
  dsimp only at h ⊢
  rw [h]
  split
  · exact ⟨_, by rw [note_eq]⟩
  · exact ⟨events, rfl⟩

/-- The machine with other operands in its innermost call. -/
def withOperands (m : Machine) (vs : List Value) : Machine :=
  { m with frame := { m.frame with operands := vs } }

/-! ## What is called -/

/-- The native function that a call of a value with some arguments goes to, if there are as many
operands. -/
def nativeOf? (m : Machine) (v : Value) (operands args : Nat) : Option Native :=
  if operands < args then none
  else
    match v with
    | .native f => some f
    | .object x =>
      match m.heap.object? x with
      | some (.function (.native f) _) => some f
      | _ => none
    | _ => none

/-- The native function that the next step calls. -/
def nextNative? (m : Machine) : Option Native :=
  match m.status, Instruction.decode m.bytecode.code m.pc with
  | .ready, .instruction (.call args) =>
    match m.frame.operands with
    | [] => none
    | v :: vs => m.nativeOf? v vs.length args.toNat
  | .ready, .instruction (.callMethod name args) =>
    match m.frame.operands[args.toNat]? with
    | none => none
    | some receiver =>
      match m.nativeMethod? receiver (m.bytecode.text name) with
      | some method => some method
      | none =>
        match m.fieldValue receiver name with
        | .ok callee => m.nativeOf? callee args.toNat args.toNat
        | .error _ => none
  | _, _ => none

/-- The next step calls the native function that collects garbage. -/
def CallsGc (m : Machine) : Prop := ∃ f, m.nextNative? = some f ∧ f.routine = .gc

instance (m : Machine) : Decidable m.CallsGc :=
  decidable_of_iff (m.nextNative?.any fun f => f.routine = .gc) (by simp [CallsGc, Option.any_eq_true])

/-! ## Steps -/

/-- The machine after one step, also when the step faults. -/
def next (m : Machine) : Machine :=
  match step m with
  | .ok _ m' => m'
  | .error _ m' => m'

/-- The machine after a number of steps. -/
def after (m : Machine) : Nat → Machine
  | 0 => m
  | n + 1 => (m.after n).next

/-- The fault of the next step, if it faults. -/
def nextFault? (m : Machine) : Option RuntimeFault :=
  match step m with
  | .ok _ _ => none
  | .error f _ => some f

/-- The fault that one of the first steps ended in, if one did. -/
def faultWithin? (m : Machine) : Nat → Option RuntimeFault
  | 0 => none
  | n + 1 => (m.faultWithin? n).or (m.after n).nextFault?

end Machine

end Scriptlet
