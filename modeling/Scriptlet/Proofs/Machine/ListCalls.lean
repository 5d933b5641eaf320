import Scriptlet.Proofs.Machine.NativeCalls

/-!
# What the natives of lists do

The arguments of a native call lie on top of the operands, the last one first. For each native that
makes or changes a list, or reads one, it is said what it does with any arguments: it does its work on
the list that is the first argument, or it faults and leaves the heap alone
(`Exec.listPush_cases` and the like). So a native call that does not collect garbage makes one
object at most, and changes at most the list that `NativeCall.changed?` names
(`Exec.onward_callNative`).
-/

namespace Scriptlet

/-- The list that a native call makes or changes, on a given heap. -/
def NativeCall.changed? (c : NativeCall) (h : Heap) : Option Handle :=
  match c.callee.routine, c.args with
  | .listNew, _ => some (h.allocate default).1
  | .listPush, .object x :: _ => some x
  | .listPop, .object x :: _ => some x
  | _, _ => none

/-- The handle of a new object does not depend on the object. -/
theorem Heap.allocate_fst (h : Heap) (o o' : Object) : (h.allocate o).1 = (h.allocate o').1 := by
  unfold allocate
  split <;> rfl

namespace Exec

variable {m : Machine} {args below : List Value}

theorem final_congr {α : Type} {act act' : Exec α} {m m' : Machine} (h : act m = act' m') :
    act.final m = act'.final m' := by
  unfold final
  rw [h]

/-- An action goes on from where a list was changed. -/
theorem Adding.onward {α : Type} {act : Exec α} {k : Nat} (ha : Adding k act) {h : Heap}
    {changed : Option Handle} (ho : Heap.Onward 0 changed h m.heap) :
    Heap.Onward k changed h (act.final m).heap := by
  have hboth := ho.trans (ha m).spare
  rwa [Nat.zero_add] at hboth

/-! ## Arguments -/

theorem run_popN_append (hops : m.frame.operands = args.reverse ++ below) :
    popN args.length m = .ok args (m.withOperands below) := by
  have hlen : args.reverse.length = args.length := List.length_reverse
  have hnot : ¬ m.frame.operands.length < args.length := by
    rw [hops, List.length_append, hlen]
    omega
  rw [run_popN_of_not_lt hnot, hops, ← hlen, List.take_left, List.drop_left, List.reverse_reverse]
  rfl

theorem run_arguments (hops : m.frame.operands = args.reverse ++ below) (expected : Nat) :
    arguments expected args.length m =
      if args.length = expected then .ok args (m.withOperands below)
      else .error (.wrongArity expected args.length) (m.withOperands below) := by
  rw [arguments, run_bind_ok (run_popN_append hops)]
  split <;> rfl

theorem argument_cases (hops : m.frame.operands = args.reverse ++ below) :
    (∃ v, args = [v] ∧ argument args.length m = .ok v (m.withOperands below)) ∨
      (∀ v, args ≠ [v]) ∧ ∃ e, argument args.length m = .error e (m.withOperands below) := by
  have hrun := run_arguments hops 1
  by_cases hlen : args.length = 1
  · obtain ⟨v, rfl⟩ := List.length_eq_one_iff.1 hlen
    refine .inl ⟨v, rfl, ?_⟩
    rw [argument, run_bind_ok hrun]
    rfl
  · rw [if_neg hlen] at hrun
    exact .inr ⟨fun v hv => hlen (by rw [hv]; rfl), _, run_bind_error hrun _⟩

theorem twoArguments_cases (hops : m.frame.operands = args.reverse ++ below) :
    (∃ v w, args = [v, w] ∧ twoArguments args.length m = .ok (v, w) (m.withOperands below)) ∨
      (∀ v w, args ≠ [v, w]) ∧ ∃ e, twoArguments args.length m = .error e (m.withOperands below) := by
  have hrun := run_arguments hops 2
  by_cases hlen : args.length = 2
  · obtain ⟨v, w, rfl⟩ := List.length_eq_two.1 hlen
    refine .inl ⟨v, w, rfl, ?_⟩
    rw [twoArguments, run_bind_ok hrun]
    rfl
  · rw [if_neg hlen] at hrun
    exact .inr ⟨fun v w hv => hlen (by rw [hv]; rfl), _, run_bind_error hrun _⟩

/-- The receiver of a list method is a list, or the method faults. -/
theorem listHandle_cases (native : String) (receiver : Value) (m : Machine) :
    (∃ x kind vs, receiver = .object x ∧ m.heap.object? x = some (.nativeRecord kind vs) ∧
      listHandle native receiver m = .ok x m) ∨
      (∀ x, receiver = .object x → m.heap.list? x = none) ∧
        ∃ e, listHandle native receiver m = .error e m := by
  cases receiver with
  | object x =>
    have hrun : listHandle native (.object x) m = _ := run_get_bind _ m
    rw [hrun]
    cases ho : m.heap.object? x with
    | none =>
      refine .inr ⟨?_, _, rfl⟩
      rintro _ ⟨⟩
      rw [Heap.list?, ho]
    | some o =>
      cases o with
      | nativeRecord kind vs => exact .inl ⟨x, kind, vs, rfl, ho, rfl⟩
      | _ =>
        refine .inr ⟨?_, _, rfl⟩
        rintro _ ⟨⟩
        rw [Heap.list?, ho]
  | _ => exact .inr ⟨fun x hx => (by cases hx), _, rfl⟩

theorem run_listHandle {x : Handle} {kind : Nat} {vs : Array Value}
    (ho : m.heap.object? x = some (.nativeRecord kind vs)) (native : String) :
    listHandle native (.object x) m = .ok x m := by
  rw [listHandle, run_get_bind, ho]
  rfl

theorem run_storage {x : Handle} {kind : Nat} {vs : Array Value}
    (ho : m.heap.object? x = some (.nativeRecord kind vs)) : storage x m = .ok vs m := by
  rw [storage, run_get_bind, ho]
  rfl

/-! ## The natives -/

/-- A new list is made without arguments. -/
theorem listNew_cases (hops : m.frame.operands = args.reverse ++ below) :
    (∃ kind, args = [] ∧ m.structures.index? "List" = some kind ∧
      listNew args.length m = .ok () { m with
        frame := { m.frame with
          operands := .object (m.heap.allocate (.nativeRecord kind #[])).1 :: below }
        heap := (m.heap.allocate (.nativeRecord kind #[])).2 }) ∨
      (args = [] → m.structures.index? "List" = none) ∧
        ∃ e, listNew args.length m = .error e (m.withOperands below) := by
  have hrun := run_arguments hops 0
  by_cases hargs : args = []
  · subst hargs
    have hinst : instantiate "List" (m.withOperands below) = _ :=
      run_get_bind _ (m.withOperands below)
    rw [listNew, run_bind_ok hrun]
    cases hk : m.structures.index? "List" with
    | none =>
      have hk' : (m.withOperands below).structures.index? "List" = none := hk
      rw [hk'] at hinst
      exact .inr ⟨fun _ => rfl, _, run_bind_error hinst _⟩
    | some kind =>
      have hk' : (m.withOperands below).structures.index? "List" = some kind := hk
      rw [hk'] at hinst
      exact .inl ⟨kind, rfl, rfl, by rw [run_bind_ok (hinst.trans (run_allocate _ _))]; rfl⟩
  · rw [if_neg fun h => hargs (List.length_eq_zero_iff.1 h)] at hrun
    exact .inr ⟨fun h => absurd h hargs, _, run_bind_error hrun _⟩

/-- A value is put at the end of a list before it is counted. -/
theorem listPush_cases (hops : m.frame.operands = args.reverse ++ below) :
    (∃ x kind vs v, args = [.object x, v] ∧ m.heap.object? x = some (.nativeRecord kind vs) ∧
      listPush args.length m = onHeap (Heap.retain v) { m with
        frame := { m.frame with operands := below }
        heap := m.heap.changeObject x (Object.mapElements fun vs => vs.push v) }) ∨
      (∀ x v, args = [.object x, v] → m.heap.list? x = none) ∧
        ∃ e, listPush args.length m = .error e (m.withOperands below) := by
  rcases twoArguments_cases hops with ⟨receiver, v, rfl, hrun⟩ | ⟨hargs, e, hrun⟩
  · rw [listPush, run_bind_ok hrun]
    rcases listHandle_cases "push" receiver (m.withOperands below) with
      ⟨x, kind, vs, rfl, ho, hrun'⟩ | ⟨hno, e, hrun'⟩
    · refine .inl ⟨x, kind, vs, v, rfl, ho, ?_⟩
      dsimp only
      rw [run_bind_ok hrun', run_bind_ok (run_modifyStorage x _ _)]
      rfl
    · refine .inr ⟨?_, e, run_bind_error hrun' _⟩
      rintro x w ⟨⟩
      exact hno x rfl
  · exact .inr ⟨fun x v h => absurd h (hargs _ _), e, run_bind_error hrun _⟩

/-- The last value of a list is taken off before it is released. -/
theorem listPop_cases (hops : m.frame.operands = args.reverse ++ below) :
    (∃ x kind vs, args = [.object x] ∧ m.heap.object? x = some (.nativeRecord kind vs) ∧
      listPop args.length m = (do
        onHeap (Heap.release (vs.back?.getD .null))
        push (vs.back?.getD .null) : Exec Unit) { m with
          frame := { m.frame with operands := below }
          heap := m.heap.changeObject x (Object.mapElements Array.pop) }) ∨
      (∀ x, args = [.object x] → m.heap.list? x = none) ∧
        ∃ e, listPop args.length m = .error e (m.withOperands below) := by
  rcases argument_cases hops with ⟨receiver, rfl, hrun⟩ | ⟨hargs, e, hrun⟩
  · rw [listPop, run_bind_ok hrun]
    rcases listHandle_cases "pop" receiver (m.withOperands below) with
      ⟨x, kind, vs, rfl, ho, hrun'⟩ | ⟨hno, e, hrun'⟩
    · refine .inl ⟨x, kind, vs, rfl, ho, ?_⟩
      rw [run_bind_ok hrun', run_bind_ok (run_storage ho)]
      dsimp only
      rw [run_bind_ok (run_modifyStorage x _ _)]
      rfl
    · refine .inr ⟨?_, e, run_bind_error hrun' _⟩
      rintro x ⟨⟩
      exact hno x rfl
  · exact .inr ⟨fun x h => absurd h (hargs _), e, run_bind_error hrun _⟩

/-- An element of a list is read in its bounds. -/
theorem run_listGet {x : Handle} {index : Value} {i : Int} {kind : Nat} {vs : Array Value}
    (hops : m.frame.operands = [.object x, index].reverse ++ below) (hi : index.index? = some i)
    (ho : m.heap.object? x = some (.nativeRecord kind vs)) :
    listGet 2 m =
      if i < 0 then .error (.indexOutOfBounds i vs.size) (m.withOperands below)
      else match vs[i.toNat]? with
        | some v => .ok () (m.withOperands (v :: below))
        | none => .error (.indexOutOfBounds i vs.size) (m.withOperands below) := by
  have hargs : twoArguments 2 m = .ok (.object x, index) (m.withOperands below) := by
    rcases twoArguments_cases hops with ⟨v, w, hvw, hrun⟩ | ⟨hne, -⟩
    · cases hvw
      exact hrun
    · exact absurd rfl (hne _ _)
  have ho' : (m.withOperands below).heap.object? x = some (.nativeRecord kind vs) := ho
  rw [listGet, run_bind_ok hargs]
  dsimp only
  rw [hi]
  dsimp only
  rw [run_bind_ok (run_listHandle ho' "get"), run_bind_ok (run_storage ho')]
  split
  · rfl
  · cases vs[i.toNat]? <;> rfl

/-- The length of a list is read by a method and by a function. -/
theorem run_listLen {x : Handle} {r : Routine} {kind : Nat} {vs : Array Value}
    (hr : r = .listLen ∨ r = .len) (hops : m.frame.operands = .object x :: below)
    (ho : m.heap.object? x = some (.nativeRecord kind vs)) :
    routine r 1 m = .ok () (m.withOperands (.int (Int32.ofNat vs.size) :: below)) := by
  have hargs : argument 1 m = .ok (.object x) (m.withOperands below) := by
    have hops' : m.frame.operands = [Value.object x].reverse ++ below := hops
    rcases argument_cases hops' with ⟨v, hv, hrun⟩ | ⟨hne, -⟩
    · cases hv
      exact hrun
    · exact absurd rfl (hne _)
  have ho' : (m.withOperands below).heap.object? x = some (.nativeRecord kind vs) := ho
  rcases hr with rfl | rfl
  · rw [routine, listLen, run_bind_ok hargs, run_bind_ok (run_listHandle ho' "len"),
      run_bind_ok (run_storage ho')]
    rfl
  · rw [routine, len, run_bind_ok hargs, run_get_bind, Value.handle?, Option.bind_some, ho']
    rfl

/-! ## What a native call changes -/

/-- A native call notes itself, runs its routine, and pushes null if there is no result. -/
theorem run_callNative {f : Native} (hops : m.frame.operands = args.reverse ++ below) :
    ∃ events, callNative f args.length m =
      match routine f.routine args.length { m with events } with
      | .ok _ m' => .ok () (if m'.frame.operands.length = below.length then
          m'.withOperands (.null :: m'.frame.operands) else m')
      | .error e m' => .error e m' := by
  refine ⟨(m.note (.nativeCall f.name args.length)).events, ?_⟩
  have hcount : operandCount m = .ok (args.length + below.length) m := by
    rw [operandCount, run_get_bind, hops, List.length_append, List.length_reverse]
    rfl
  have hnote : note (.nativeCall f.name args.length) m =
      .ok () { m with events := (m.note (.nativeCall f.name args.length)).events } := by
    rw [note, run_modify, ← Machine.note_eq]
  rw [callNative, callAction, run_bind_ok hcount, if_neg (by omega), run_bind_ok hnote, run_bind]
  cases routine f.routine args.length
    { m with events := (m.note (.nativeCall f.name args.length)).events } with
  | error e m' => rfl
  | ok _ m' =>
    have hcount' : operandCount m' = .ok m'.frame.operands.length m' := rfl
    dsimp only
    rw [run_bind_ok hcount', Nat.add_sub_cancel_left]
    split <;> rfl

/-- A native call leaves the heap that its routine leaves, and the result of the routine if there is
one. -/
theorem final_callNative {f : Native} (hops : m.frame.operands = args.reverse ++ below) :
    ∃ events, ((callNative f args.length).final m).heap =
        ((routine f.routine args.length).final { m with events }).heap ∧
      ∀ m', routine f.routine args.length { m with events } = .ok () m' →
        m'.frame.operands.length ≠ below.length → (callNative f args.length).final m = m' := by
  obtain ⟨events, hrun⟩ := run_callNative (f := f) hops
  refine ⟨events, ?_, fun m' hok hne => ?_⟩
  · unfold final
    rw [hrun]
    cases routine f.routine args.length { m with events } with
    | error e m' => rfl
    | ok _ m' =>
      dsimp only
      split <;> rfl
  · rw [hok] at hrun
    rw [final_ok hrun, if_neg hne]

/-- A native call that does not collect garbage makes one object at most, and changes at most one
list. -/
theorem onward_callNative {c : NativeCall} (hops : m.frame.operands = c.args.reverse ++ c.below)
    (hgc : c.callee.routine = .gc → c.args ≠ []) :
    Heap.Onward 1 (c.changed? m.heap) m.heap ((callNative c.callee c.args.length).final m).heap := by
  obtain ⟨f, args, below⟩ := c
  dsimp only at hops hgc ⊢
  obtain ⟨events, hheap, -⟩ := final_callNative (f := f) hops
  have hops' : ({ m with events } : Machine).frame.operands = args.reverse ++ below := hops
  have hstill : ∀ {e} {changed : Option Handle}, routine f.routine args.length { m with events } =
      .error e (({ m with events } : Machine).withOperands below) → Heap.Onward 1 changed m.heap
        ((routine f.routine args.length).final { m with events }).heap := fun hrun => by
    rw [final_error hrun]
    exact (Heap.Onward.refl _).spare.mono (Nat.zero_le 1)
  rw [hheap]
  unfold NativeCall.changed?
  cases hr : f.routine with
  | gc =>
    have hne : args ≠ [] := hgc hr
    have hrun := run_arguments hops' 0
    rw [if_neg fun h => hne (List.length_eq_zero_iff.1 h)] at hrun
    rw [hr] at hstill
    exact hstill (run_bind_error hrun _)
  | listNew =>
    rw [hr] at hstill
    rcases listNew_cases hops' with ⟨kind, rfl, -, hrun⟩ | ⟨-, e, hrun⟩
    · have hrun' : routine .listNew ([] : List Value).length { m with events } = _ := hrun
      rw [final_ok hrun']
      dsimp only
      rw [Heap.allocate_fst m.heap default (.nativeRecord kind #[])]
      exact .allocate m.heap _
    · exact hstill hrun
  | listPush =>
    rw [hr] at hstill
    rcases listPush_cases hops' with ⟨x, kind, vs, v, rfl, ho, hrun⟩ | ⟨-, e, hrun⟩
    · have hrun' : routine .listPush [.object x, v].length { m with events } = _ := hrun
      rw [final_congr hrun']
      have hchange := Heap.Onward.changeList (Heap.contains_of_object? ho)
        (Object.mapElements fun vs => vs.push v)
      exact Heap.Onward.mono ((adding_retain v).onward hchange) (Nat.zero_le 1)
    · exact hstill hrun
  | listPop =>
    rw [hr] at hstill
    rcases listPop_cases hops' with ⟨x, kind, vs, rfl, ho, hrun⟩ | ⟨-, e, hrun⟩
    · have hrun' : routine .listPop [Value.object x].length { m with events } = _ := hrun
      rw [final_congr hrun']
      have hchange := Heap.Onward.changeList (Heap.contains_of_object? ho)
        (Object.mapElements Array.pop)
      have hrest := (adding_release (vs.back?.getD .null)).bind fun _ =>
        adding_push (k := 0) (vs.back?.getD .null)
      exact Heap.Onward.mono (hrest.onward hchange) (Nat.zero_le 1)
    · exact hstill hrun
  | _ =>
    refine Adding.onward (adding_routine ?_ ?_ ?_ ?_ args.length) (Heap.Onward.refl m.heap)
    all_goals decide

end Exec

end Scriptlet
