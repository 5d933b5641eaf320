import Scriptlet.Proofs.Machine.Places
import Scriptlet.Proofs.Number

/-!
# Instructions keep counts exact

Triples (`Exec.Triple`) for operators, native functions and calls, and with them for every
instruction (`Exec.triple_execute`).
-/

namespace Scriptlet

open Machine (Counted)

theorem Machine.numeric_yields (m : Machine) (op : BinaryOp) (a b : Value) :
    Number.Yields (.binary op) (m.numeric op a b) := by
  unfold Machine.numeric
  split
  · split
    · exact Number.bitwise_yields _ _ _
    · exact Number.bitwise_yields _ _ _
    · exact Number.bitwise_yields _ _ _
    · exact Number.bitwise_yields _ _ _
    · exact Number.bitwise_yields _ _ _
    · exact Number.arithmetic_yields _ _ _
  · exact .inr ⟨_, _, rfl⟩

theorem Machine.order_yields (m : Machine) (op : BinaryOp) (a b : Value) :
    (∃ o, m.order op a b = .ok o) ∨
      ∃ left right, m.order op a b = .error (.typeMismatch (Opcode.binary op).symbol left right) := by
  unfold Machine.order
  split
  · exact .inl ⟨_, rfl⟩
  · split
    · exact .inl ⟨_, rfl⟩
    · exact .inr ⟨_, _, rfl⟩

/-! ## Collection -/

theorem Machine.extends_collectGarbage (m : Machine) : m.Extends m.collectGarbage.2 := by
  obtain ⟨events, he⟩ := m.collectGarbage_eq
  rw [he]
  exact ⟨rfl, rfl, rfl, Nat.le_of_eq (Heap.size_sweep m.heap _).symm⟩

/-- A collection frees nothing that is held or on an operand stack. -/
theorem Machine.Counted.collectGarbage {m : Machine} (hc : m.Counted [] []) :
    m.collectGarbage.2.Counted [] [] := by
  obtain ⟨events, he⟩ := m.collectGarbage_eq
  rw [he]
  obtain ⟨hex, hsw⟩ := hc.exact.sweep m.pinned.contains
  exact ⟨hex, fun x hx => hsw.pinned x (List.contains_iff_mem.2 hx) (hc.operands x hx)⟩

namespace Exec

variable {extra temps : List Handle}

/-! ## Operators -/

/-- A value that is not in the heap can be pushed at any time. -/
theorem triple_pushScalar {v : Value} (hv : v.handle? = none) :
    Triple (Counted extra temps) (push v) fun _ => Counted extra temps :=
  (triple_push v).weaken fun m h => by
    rw [Value.handles, List.filterMap_cons, hv]
    exact h

theorem counted_scalar {v : Value} (hv : v.handle? = none) {m : Machine}
    (hc : m.Counted extra temps) : m.Counted extra (Value.handles [v] ++ temps) := by
  rw [Value.handles, List.filterMap_cons, hv]
  exact hc

theorem triple_ofExcept {r : Except Fault Value} {op : Opcode} (hr : Number.Yields op r) :
    Triple (Counted [] temps) (ofExcept r) fun v => Counted [] (Value.handles [v] ++ temps) := by
  cases r with
  | ok v =>
    obtain ⟨n, rfl⟩ := hr
    exact .pure fun m h => counted_scalar (Number.handle?_toValue n) h
  | error f =>
    refine .fault ?_ fun m h => h.drop_temps
    obtain rfl | ⟨_, _, rfl⟩ := hr <;> simp

theorem triple_comparison (op : BinaryOp) (a b : Value) :
    Triple (Counted [] temps)
      (do let order ← ofExcept ((← get).order op a b); return .bool (Machine.holds op order))
      fun v => Counted [] (Value.handles [v] ++ temps) := by
  refine .get_bind fun m => ?_
  obtain ⟨o, ho⟩ | ⟨left, right, hf⟩ := Machine.order_yields m op a b
  · rw [ho]
    exact .pure fun m' h => h.1 ▸ counted_scalar rfl h.2
  · rw [hf]
    exact .fault (by simp) fun m' h => h.1 ▸ h.2.drop_temps

theorem triple_numeric (op : BinaryOp) (a b : Value) :
    Triple (Counted [] temps) (do ofExcept ((← get).numeric op a b)) fun v =>
      Counted [] (Value.handles [v] ++ temps) :=
  .get_bind fun m => (triple_ofExcept (Machine.numeric_yields m op a b)).weaken
    fun _ h => h.1 ▸ h.2

theorem triple_binaryResult (op : BinaryOp) (a b : Value) :
    Triple (Counted [] temps) (binaryResult op a b) fun v =>
      Counted [] (Value.handles [v] ++ temps) := by
  have hbool : ∀ (c : Bool) (m : Machine), m.Counted [] temps →
      m.Counted [] (Value.handles [.bool c] ++ temps) := fun c m h => counted_scalar rfl h
  cases op with
  | and => exact .pure (hbool _)
  | or => exact .pure (hbool _)
  | equal => exact .get_bind fun m => .pure fun m' h => hbool _ m' (h.1 ▸ h.2)
  | notEqual => exact .get_bind fun m => .pure fun m' h => hbool _ m' (h.1 ▸ h.2)
  | less => exact triple_comparison .less a b
  | greater => exact triple_comparison .greater a b
  | lessEqual => exact triple_comparison .lessEqual a b
  | greaterEqual => exact triple_comparison .greaterEqual a b
  | add =>
    refine .get_bind fun m => ?_
    split
    · refine .bind ((triple_allocate _).weaken fun m' h => ?_) fun x => .pure fun m' h => h
      exact h.1 ▸ h.2
    · exact (triple_ofExcept (Machine.numeric_yields m .add a b)).weaken fun m' h => h.1 ▸ h.2
  | _ => exact triple_numeric _ a b

theorem triple_binary (op : BinaryOp) :
    Triple (Counted [] []) (binary op) fun _ => Counted [] [] :=
  .bind triple_pop fun b => .bind triple_pop fun a =>
    .bind (triple_binaryResult op a b) fun v => (triple_push v).post fun _ _ h => h.drop_temps

theorem triple_kindName (v : Value) :
    Triple (Counted extra temps) (kindName v) fun _ => Counted extra temps :=
  .get_bind fun _ => .pure fun _ h => h.1 ▸ h.2

theorem triple_unaryResult (op : UnaryOp) (v : Value) :
    Triple (Counted [] temps) (unaryResult op v) fun w =>
      Counted [] (Value.handles [w] ++ temps) := by
  unfold unaryResult
  split
  · exact .pure fun m h => counted_scalar rfl h
  · exact .pure fun m h => counted_scalar rfl h
  · exact .pure fun m h => counted_scalar rfl h
  · exact .pure fun m h => counted_scalar rfl h
  · exact .pure fun m h => counted_scalar rfl h
  · exact .pure fun m h => counted_scalar rfl h
  · exact .pure fun m h => counted_scalar rfl h
  · exact .bind (triple_kindName _) fun _ => .fault (by simp) fun _ h => h.drop_temps

theorem triple_unary (op : UnaryOp) :
    Triple (Counted [] []) (unary op) fun _ => Counted [] [] :=
  .bind triple_pop fun v => .bind (triple_unaryResult op v) fun w =>
    (triple_push w).post fun _ _ h => h.drop_temps

/-! ## Native functions -/

theorem triple_arguments (expected args : Nat) :
    Triple (Counted [] temps) (arguments expected args) fun vs =>
      Counted [] (Value.handles vs ++ temps) := by
  refine .bind (triple_popN args) fun vs => ?_
  split
  · exact .pure fun _ h => h
  · exact .fault (by simp) fun _ h => h.drop_temps

theorem triple_argument (args : Nat) :
    Triple (Counted [] temps) (argument args) fun v =>
      Counted [] (Value.handles [v] ++ temps) := by
  refine .bind (triple_arguments 1 args) fun vs => ?_
  split
  · exact .pure fun _ h => h
  · exact .fault (by simp) fun _ h => h.drop_temps

theorem triple_twoArguments (args : Nat) :
    Triple (Counted [] temps) (twoArguments args) fun p =>
      Counted [] (Value.handles [p.1, p.2] ++ temps) := by
  refine .bind (triple_arguments 2 args) fun vs => ?_
  split
  · exact .pure fun _ h => h
  · exact .fault (by simp) fun _ h => h.drop_temps

theorem triple_refuseArgument {α : Type} (native expected : String) (v : Value)
    {Q : α → Machine → Prop} :
    Triple (Counted [] temps) (refuseArgument native expected v) Q :=
  .bind (triple_kindName v) fun _ => .fault (by simp) fun _ h => h.drop_temps

theorem triple_print (args : Nat) :
    Triple (Counted [] []) (print args) fun _ => Counted [] [] :=
  .bind (triple_popN args) fun _ => .get_bind fun _ =>
    .modify (fun _ => ⟨rfl, rfl, rfl, Nat.le_refl _⟩) fun m h => by
      have hc : m.Counted [] [] := h.1 ▸ h.2.drop_temps
      exact hc.reframe rfl rfl fun _ hx => hx

theorem triple_len (args : Nat) :
    Triple (Counted [] []) (len args) fun _ => Counted [] [] := by
  refine .bind (triple_argument args) fun v => .get_bind fun m => ?_
  have hc : ∀ m', m' = m ∧ Counted [] (Value.handles [v] ++ []) m → Counted [] [] m' :=
    fun m' h => h.1 ▸ h.2.drop_temps
  split
  · exact (triple_pushScalar rfl).weaken hc
  · exact (triple_pushScalar rfl).weaken hc
  · exact (triple_pushScalar rfl).weaken hc
  · exact (triple_refuseArgument _ _ v).weaken hc

theorem triple_str (args : Nat) :
    Triple (Counted [] []) (str args) fun _ => Counted [] [] :=
  .bind (triple_argument args) fun _ => .get_bind fun _ =>
    (triple_pushNew (.string _)).weaken fun _ h => h.1 ▸ h.2.drop_temps

theorem triple_array (args : Nat) :
    Triple (Counted [] []) (array args) fun _ => Counted [] [] := by
  refine .bind (triple_argument args) fun size => ?_
  split
  · next n _ =>
    refine (triple_pushNew (.array (Array.replicate n .null))).weaken fun m h => ?_
    have hch : (Object.array (Array.replicate n .null)).children = [] := by
      simp [Object.children, List.filterMap_replicate, Value.handle?]
    rw [hch]
    exact h.drop_temps
  · exact (triple_refuseArgument _ _ size).weaken fun _ h => h.drop_temps

theorem triple_collectGarbage :
    Triple (Counted [] []) collectGarbage fun _ => Counted [] [] :=
  ⟨fun m => m.extends_collectGarbage, fun _ hc _ => hc.collectGarbage⟩

theorem triple_gc (args : Nat) :
    Triple (Counted [] []) (gc args) fun _ => Counted [] [] :=
  .bind (triple_arguments 0 args) fun _ =>
    .bind (triple_collectGarbage.weaken fun _ h => h.drop_temps) fun _ => triple_pushScalar rfl

/-! ### Lists -/

theorem run_modifyStorage (x : Handle) (f : Array Value → Array Value) (m : Machine) :
    modifyStorage x f m =
      .ok () { m with heap := m.heap.changeObject x (Object.mapElements f) } := rfl

theorem triple_instantiate (name : String) :
    Triple (Counted [] []) (instantiate name) fun x => Counted [] [x] := by
  refine .get_bind fun m => ?_
  split
  · exact (triple_allocate _).weaken fun _ h => h.1 ▸ h.2
  · exact .fault (by simp) fun _ h => h.1 ▸ h.2

theorem triple_listNew (args : Nat) :
    Triple (Counted [] []) (listNew args) fun _ => Counted [] [] :=
  .bind (triple_arguments 0 args) fun _ =>
    .bind ((triple_instantiate "List").weaken fun _ h => h.drop_temps) fun x =>
      triple_push (.object x)

/-- The receiver of a list method is an instance of a native structure. -/
theorem triple_listHandle (native : String) (receiver : Value)
    (hr : ∀ y ∈ Value.handles [receiver], y ∈ temps) :
    Triple (Counted [] temps) (listHandle native receiver) fun x m =>
      Counted [] temps m ∧ ∃ kind vs, m.heap.object? x = some (.nativeRecord kind vs) := by
  unfold listHandle
  split
  · next x =>
    refine .get_bind fun m => ?_
    split
    · next kind vs ho => exact .pure fun m' h => h.1 ▸ ⟨h.2, kind, vs, ho⟩
    · exact .fault (by simp) fun _ h => h.1 ▸ h.2.drop_temps
    · next ho =>
      refine .absurd (fun m => .refl m) fun m' h => ?_
      obtain ⟨o, ho'⟩ := h.2.exists_object? hr rfl
      rw [ho] at ho'
      cases ho'
  · exact .fault (by simp) fun _ h => h.drop_temps

theorem triple_listPush (args : Nat) :
    Triple (Counted [] []) (listPush args) fun _ => Counted [] [] := by
  refine .bind (triple_twoArguments args) fun p => ?_
  obtain ⟨receiver, v⟩ := p
  refine .bind (triple_listHandle "push" receiver fun y hy => ?_) fun x => ?_
  · rw [Value.handles_cons]
    exact List.mem_append_left _ (List.mem_append_left _ hy)
  -- the list takes its element before that is counted, so both are one step
  refine ⟨.bind (.onHeap (Heap.grows_changeObject x _)) fun _ => .onHeap (Heap.grows_retain v),
    fun m hm _ => ?_⟩
  obtain ⟨hc, kind, vs, ho⟩ := hm
  have hv : ∀ y ∈ Value.handles [v], m.heap.contains y = true := fun y hy =>
    hc.contains_temp (by
      rw [Value.handles_cons]
      exact List.mem_append_left _ (List.mem_append_right _ hy))
  obtain ⟨h₁, hr, he, hk, -⟩ := hc.exact.retain hv
  have he' : (h₁.changeObject x (Object.mapElements fun vs => vs.push v)).Exact m.owners :=
    he.changeObject _ ((Heap.object?_retain hr x).trans ho) (by
      simp only [Object.mapElements, Object.children, Array.toList_push, List.filterMap_append,
        List.append_assoc]
      exact .refl _)
  rw [run_bind_ok (run_modifyStorage x _ m), run_onHeap]
  dsimp only
  rw [Heap.retain_changeObject m.heap x _ v hr]
  exact ⟨he', fun y hy => (Heap.contains_modifyCell h₁ x y _).trans (hk y
    (hc.operands y (List.mem_append_right _ hy)))⟩

theorem triple_storage (x : Handle) :
    Triple (fun m => Counted [] temps m ∧ ∃ kind vs, m.heap.object? x = some (.nativeRecord kind vs))
      (storage x) fun vs m =>
        Counted [] temps m ∧ ∃ kind, m.heap.object? x = some (.nativeRecord kind vs) := by
  refine .get_bind fun m => .pure fun m' h => ?_
  obtain ⟨rfl, hc, kind, vs, ho⟩ := h
  refine ⟨hc, kind, ?_⟩
  rw [ho]
  rfl

theorem handles_pop (vs : Array Value) : (Value.handles vs.toList).Perm
    (Value.handles vs.pop.toList ++ Value.handles [vs.back?.getD .null]) := by
  rw [← Value.handles_append]
  cases hv : vs.back? with
  | none => simp_all [Value.handles, Value.handle?]
  | some v => rw [Option.getD_some, ← toList_of_back? hv]

/-- What is taken from a list is not counted for the list any more. -/
theorem triple_popStorage (x : Handle) (vs : Array Value) :
    Triple (fun m => Counted [] temps m ∧ ∃ kind, m.heap.object? x = some (.nativeRecord kind vs))
      (modifyStorage x Array.pop) fun _ => Counted (Value.handles [vs.back?.getD .null])
        (Value.handles [vs.back?.getD .null] ++ temps) := by
  refine ⟨.onHeap (Heap.grows_changeObject x _), fun m hm _ => ?_⟩
  obtain ⟨hc, kind, ho⟩ := hm
  rw [run_modifyStorage]
  have hc' : Counted (Value.handles [vs.back?.getD .null]) temps
      { m with heap := m.heap.changeObject x (Object.mapElements Array.pop) } := by
    refine hc.withHeap (hc.exact.changeObject _ ho ?_) fun y hy =>
      (Heap.contains_modifyCell m.heap x y _).trans hy
    rw [List.nil_append, ← List.append_assoc]
    exact (handles_pop vs).append_right m.owners
  exact hc'.add_temps fun y hy => hc'.exact.contains_owner (List.mem_append_left _ hy)

theorem triple_listPop (args : Nat) :
    Triple (Counted [] []) (listPop args) fun _ => Counted [] [] := by
  refine .bind (triple_argument args) fun receiver =>
    .bind (triple_listHandle "pop" receiver fun y => List.mem_append_left _) fun x =>
    .bind (triple_storage x) fun vs => .bind (triple_popStorage x vs) fun _ =>
    .bind ((triple_release _).weaken fun m h => ?_) fun _ => triple_push _
  rw [List.append_nil]
  exact h.temps_subset fun y hy => List.mem_append_left _ hy

theorem triple_listGet (args : Nat) :
    Triple (Counted [] []) (listGet args) fun _ => Counted [] [] := by
  refine .bind (triple_twoArguments args) fun p => ?_
  obtain ⟨receiver, index⟩ := p
  dsimp only
  split
  · exact (triple_refuseArgument _ _ index)
  · next i _ =>
    refine .bind (triple_listHandle "get" receiver fun y hy => ?_) fun x =>
      .bind (triple_storage x) fun vs => ?_
    · rw [Value.handles_cons]
      exact List.mem_append_left _ (List.mem_append_left _ hy)
    split
    · exact .fault (by simp) fun _ h => h.1.drop_temps
    · split
      · next v hv =>
        refine (triple_push v).weaken fun m h => ?_
        obtain ⟨hc, kind, ho⟩ := h
        exact hc.drop_temps.add_temps (hc.contains_element ho rfl hv)
      · exact .fault (by simp) fun _ h => h.1.drop_temps

theorem triple_listLen (args : Nat) :
    Triple (Counted [] []) (listLen args) fun _ => Counted [] [] :=
  .bind (triple_argument args) fun receiver =>
    .bind (triple_listHandle "len" receiver fun _ => List.mem_append_left _) fun x =>
    .bind (triple_storage x) fun _ => (triple_pushScalar rfl).weaken fun _ h => h.1.drop_temps

theorem triple_routine (r : Routine) (args : Nat) :
    Triple (Counted [] []) (routine r args) fun _ => Counted [] [] := by
  cases r with
  | print => exact triple_print args
  | len => exact triple_len args
  | str => exact triple_str args
  | array => exact triple_array args
  | gc => exact triple_gc args
  | listNew => exact triple_listNew args
  | listPush => exact triple_listPush args
  | listPop => exact triple_listPop args
  | listGet => exact triple_listGet args
  | listLen => exact triple_listLen args
  | discard => exact .bind (triple_popN args) fun _ => .pure fun _ h => h.drop_temps
  | leave => exact .pure fun _ h => h

/-! ## Calls -/

theorem triple_operandCount :
    Triple (Counted extra temps) operandCount fun _ => Counted extra temps :=
  .get_bind fun _ => .pure fun _ h => h.1 ▸ h.2

theorem triple_note (e : Event) :
    Triple (Counted extra temps) (note e) fun _ => Counted extra temps := by
  refine .modify (fun m => ?_) fun m hc => ?_
  · rw [m.note_eq e]
    exact ⟨rfl, rfl, rfl, Nat.le_refl _⟩
  · rw [m.note_eq e]
    exact hc.reframe rfl rfl fun _ hx => hx

theorem triple_callAction (name : String) {action : Nat → Exec Unit} {args : Nat}
    (h : Triple (Counted [] []) (action args) fun _ => Counted [] []) :
    Triple (Counted [] []) (callAction name action args) fun _ => Counted [] [] := by
  refine .bind triple_operandCount fun count => ?_
  split
  · exact .fault (by simp) fun _ h => h
  · refine .bind (triple_note _) fun _ => .bind h fun _ => .bind triple_operandCount fun _ => ?_
    split
    · exact triple_pushScalar rfl
    · exact .pure fun _ h => h

theorem triple_callNative (f : Native) (args : Nat) :
    Triple (Counted [] []) (callNative f args) fun _ => Counted [] [] :=
  triple_callAction f.name (triple_routine f.routine args)

/-- The arguments of a call become its locals. -/
theorem owners_enter (m : Machine) (offset : Nat) (vs : List Value) :
    Value.handles vs ++ m.owners = ({ m with
      frame := { operands := [], locals := vs.toArray }
      callers := ⟨m.frame, m.pc⟩ :: m.callers
      pc := offset } : Machine).owners := by
  simp only [Machine.owners, Machine.frames, List.map_cons, List.flatMap_cons, List.append_assoc]

/-- The locals of a call that returns are not held by it any more. -/
theorem owners_return {m : Machine} {caller : Caller} {callers : List Caller}
    (h : m.callers = caller :: callers) : m.owners = Value.handles m.frame.locals.toList ++
      ({ m with frame := caller.frame, callers } : Machine).owners := by
  simp only [Machine.owners, Machine.frames, h, List.map_cons, List.flatMap_cons, List.append_assoc]

/-- The arguments of a call, which were counted, become its locals. -/
theorem triple_enter (offset : Nat) (vs : List Value) :
    Triple (Counted (Value.handles vs) temps) (enter offset vs) fun _ => Counted [] temps := by
  refine .modify (fun m => ⟨rfl, rfl, rfl, Nat.le_refl _⟩) fun m hc => ?_
  exact hc.reown rfl (.of_eq (owners_enter m offset vs)) fun x hx => hx

theorem triple_callDeclared (id : UInt32) (args : Nat) :
    Triple (Counted [] []) (callDeclared id args) fun _ => Counted [] [] := by
  refine .get_bind fun m => ?_
  split
  · exact .fault (by simp) fun _ h => h.1 ▸ h.2
  · split
    · exact .fault (by simp) fun _ h => h.1 ▸ h.2
    · split
      · exact .fault (by simp) fun _ h => h.1 ▸ h.2
      · refine .bind ((triple_popN args).weaken fun _ h => h.1 ▸ h.2) fun vs =>
          .bind (triple_retainAll fun x => List.mem_append_left _) fun _ =>
          (triple_enter _ vs).weaken fun m h => ?_
        rw [List.append_nil] at h
        exact h.drop_temps

theorem triple_callFunction (id : UInt32) :
    Triple (Counted [] []) (callFunction id) fun _ => Counted [] [] := by
  refine .get_bind fun m => ?_
  split
  · exact .fault (by simp) fun _ h => h.1 ▸ h.2
  · exact (triple_callDeclared id _).weaken fun _ h => h.1 ▸ h.2

theorem triple_callCallee (callee : Callee) (args : Nat) :
    Triple (Counted [] []) (callCallee callee args) fun _ => Counted [] [] := by
  cases callee with
  | declared id => exact triple_callDeclared id args
  | native f => exact triple_callNative f args

theorem triple_insertBelow (count : Nat) (v : Value) :
    Triple (Counted [] (Value.handles [v])) (insertBelow count v) fun _ => Counted [] [] := by
  constructor
  · intro m
    unfold final insertBelow
    dsimp only
    by_cases hl : m.frame.operands.length < count
    · rw [if_pos hl]; exact .refl m
    · rw [if_neg hl]; exact ⟨rfl, rfl, rfl, Nat.le_refl _⟩
  · intro m hc _
    unfold insertBelow
    dsimp only
    by_cases hl : m.frame.operands.length < count
    · rw [if_pos hl]; exact ⟨by simp, hc.drop_temps⟩
    · rw [if_neg hl]
      refine hc.reframe rfl rfl fun x hx => ?_
      have hp : (m.frame.operands.take count ++ v :: m.frame.operands.drop count).Perm
          (v :: m.frame.operands) := by
        refine List.perm_middle.trans ?_
        rw [List.take_append_drop]
      have hm := (Value.handles_perm hp).mem_iff (a := x)
      rw [Value.handles_cons v m.frame.operands] at hm
      rw [pinned_push] at hx
      rw [pinned_eq]
      simp only [List.mem_append, List.nil_append] at hx hm ⊢
      tauto

theorem triple_callValue (v : Value) (args : Nat) (hv : ∀ y ∈ Value.handles [v], y ∈ temps) :
    Triple (Counted [] temps) (callValue v args) fun _ => Counted [] [] := by
  unfold callValue
  split
  · exact (triple_callNative _ args).weaken fun _ h => h.drop_temps
  · next x =>
    refine .get_bind fun m => ?_
    split
    · exact (triple_callCallee _ args).weaken fun _ h => h.1 ▸ h.2.drop_temps
    · next callee receiver ho =>
      refine .bind ((triple_insertBelow args (.object receiver)).weaken fun m' h => ?_) fun _ =>
        triple_callCallee callee (args + 1)
      rw [h.1]
      exact h.2.drop_temps.add_temp (h.2.exact.contains_child ho (by simp [Object.children]))
    · exact .fault (by simp) fun _ h => h.1 ▸ h.2.drop_temps
    · next ho =>
      refine .absurd (fun m => .refl m) fun m' h => ?_
      obtain ⟨o, ho'⟩ := h.2.exists_object? hv rfl
      rw [ho] at ho'
      cases ho'
  · exact .fault (by simp) fun _ h => h.drop_temps

theorem triple_removeBelow (count : Nat) :
    Triple (Counted extra temps) (removeBelow count) fun _ => Counted extra temps := by
  refine .modify (fun m => ⟨rfl, rfl, rfl, Nat.le_refl _⟩) fun m hc => ?_
  refine hc.reframe rfl rfl fun x hx => ?_
  rw [pinned_push] at hx
  rw [pinned_eq]
  simp only [List.mem_append, Value.mem_handles] at hx ⊢
  have := (List.eraseIdx_sublist m.frame.operands count).subset (a := .object x)
  tauto

theorem triple_callMethod (name : Symbol) (args : Nat) :
    Triple (Counted [] []) (callMethod name args) fun _ => Counted [] [] := by
  refine .get_bind fun m => ?_
  split
  · exact .fault (by simp) fun _ h => h.1 ▸ h.2
  · next receiver hrec =>
    split
    · exact (triple_callNative _ _).weaken fun _ h => h.1 ▸ h.2
    · split
      · next callee hcallee =>
        split
        · refine .bind ((triple_removeBelow args).weaken fun m' h => ?_) fun _ =>
            triple_callValue callee args fun y hy => hy
          obtain ⟨rfl, hc⟩ := h
          have hrl : ∀ y ∈ Value.handles [receiver], m'.heap.contains y = true := fun y hy => by
            refine hc.operands y (List.mem_append_right _ ?_)
            rw [Value.mem_handles, List.mem_singleton] at hy
            rw [pinned_eq, List.mem_append, Value.mem_handles, hy]
            exact .inl (List.mem_of_getElem? hrec)
          have hcl := Machine.fieldValue_live (hc.add_temps hrl) receiver
            (fun y hy => List.mem_append_left _ hy) name
          rw [hcallee] at hcl
          have := hc.add_temps hcl
          rw [List.append_nil] at this
          exact this
        · exact .fault (by simp) fun _ h => h.1 ▸ h.2
      · exact .fault (by simp) fun _ h => h.1 ▸ h.2

theorem triple_setPc (pc : Nat) :
    Triple (Counted extra temps) (modify fun m => { m with pc }) fun _ => Counted extra temps :=
  .modify (fun _ => ⟨rfl, rfl, rfl, Nat.le_refl _⟩) fun _ hc => hc.reframe rfl rfl fun _ hx => hx

/-- The way back from a call, once the caller's frame is in place. -/
def giveBack (locals : List Value) (pc : Nat) (v : Value) : Exec Unit := do
  onHeap (Heap.releaseAll locals)
  modify fun m => { m with pc }
  push v

theorem run_returnValue_nil {m : Machine} (h : m.callers = []) (v : Value) :
    returnValue v m = .ok () { m with status := .halted } := by
  simp only [returnValue, h]

theorem run_returnValue_cons {m : Machine} {caller : Caller} {callers : List Caller}
    (h : m.callers = caller :: callers) (v : Value) :
    returnValue v m = giveBack m.frame.locals.toList caller.returnTo v
      { m with frame := caller.frame, callers } := by
  simp only [returnValue, h, giveBack]

theorem triple_giveBack (locals : List Value) (pc : Nat) (v : Value) :
    Triple (Counted (Value.handles locals) (Value.handles [v])) (giveBack locals pc v)
      fun _ => Counted [] [] := by
  refine .bind ((triple_releaseAll locals).weaken fun m h => ?_) fun _ =>
    .bind (triple_setPc pc) fun _ => triple_push v
  rw [List.append_nil, List.append_nil]
  exact h

theorem triple_returnValue (v : Value) :
    Triple (Counted [] (Value.handles [v])) (returnValue v) fun _ => Counted [] [] := by
  have hcases : ∀ m : Machine, m.callers = [] ∨ ∃ caller callers, m.callers = caller :: callers :=
    fun m => by cases m.callers <;> simp
  constructor
  · intro m
    obtain hcs | ⟨caller, callers, hcs⟩ := hcases m
    · rw [final_ok (run_returnValue_nil hcs v)]
      exact ⟨rfl, rfl, rfl, Nat.le_refl _⟩
    · have := (triple_giveBack m.frame.locals.toList caller.returnTo v).ext
        { m with frame := caller.frame, callers }
      rw [final, run_returnValue_cons hcs v]
      exact ⟨this.bytecode, this.config, this.structures, this.slots⟩
  · intro m hc hs
    obtain hcs | ⟨caller, callers, hcs⟩ := hcases m
    · rw [run_returnValue_nil hcs v]
      exact hc.reframe rfl rfl fun x hx => List.mem_append_right _ hx
    · rw [final, run_returnValue_cons hcs v] at hs
      rw [run_returnValue_cons hcs v]
      refine (triple_giveBack _ _ v).run _ (hc.reown rfl (.of_eq (owners_return hcs)) fun x hx => ?_) hs
      rw [pinned_eq] at hx
      rw [pinned_eq, hcs]
      simp only [List.map_cons, List.flatMap_cons, List.mem_append] at hx ⊢
      tauto

/-! ## Instructions -/

/-- Every instruction keeps counts exact, also when it faults, and none finds a stale handle. -/
theorem triple_execute (i : Instruction) :
    Triple (Counted [] []) (execute i) fun _ => Counted [] [] := by
  cases i with
  | pushNull => exact triple_pushScalar rfl
  | pushTrue => exact triple_pushScalar rfl
  | pushFalse => exact triple_pushScalar rfl
  | pushInt n => exact triple_pushScalar rfl
  | pushUInt n => exact triple_pushScalar rfl
  | pushFloat x => exact triple_pushScalar rfl
  | pushChar c => exact triple_pushScalar rfl
  | pushString s => exact .bind (triple_constant s) fun x => triple_push (.object x)
  | pushFunction id => exact triple_pushNew (.function (.declared id) none)
  | binary op => exact triple_binary op
  | unary op => exact triple_unary op
  | getLocal slot => exact triple_getLocal slot
  | setLocal slot => exact .bind triple_pop fun v => triple_setLocal slot v
  | shrinkLocals count => exact triple_shrinkLocals count.toNat
  | getGlobal => exact triple_getGlobal
  | setGlobal =>
    exact .bind triple_popString fun name => .bind triple_pop fun v => triple_setGlobal name v
  | getElement => exact triple_getElement
  | setElement => exact triple_setElement
  | getField name => exact triple_getField name
  | setField name => exact triple_setField name
  | createArray count => exact triple_createArray count.toNat
  | construct type args => exact triple_construct type args.toNat
  | callMethod name args => exact triple_callMethod name args.toNat
  | call args =>
    exact .bind triple_pop fun v => triple_callValue v args.toNat fun _ => List.mem_append_left _
  | callFunction id => exact triple_callFunction id
  | ret => exact (triple_returnValue .null).weaken fun _ h => h
  | retValue =>
    exact .bind triple_pop fun v => (triple_returnValue v).weaken fun _ h => by
      rw [List.append_nil] at h
      exact h
  | jump target => exact triple_setPc target.toNat
  | jumpIfFalse target =>
    refine .bind triple_pop fun v => ?_
    split
    · exact .pure fun _ h => h.drop_temps
    · exact (triple_setPc target.toNat).weaken fun _ h => h.drop_temps
  | drop => exact .bind triple_pop fun _ => .pure fun _ h => h.drop_temps
  | halt =>
    exact .modify (fun _ => ⟨rfl, rfl, rfl, Nat.le_refl _⟩) fun _ hc =>
      hc.reframe rfl rfl fun _ hx => hx

end Exec

end Scriptlet
