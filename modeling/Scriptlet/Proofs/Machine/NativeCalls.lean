import Scriptlet.Proofs.Heap.Onward
import Scriptlet.Proofs.Machine.Isolation

/-!
# Calls of native functions

Native functions are called by the two call instructions only. `Machine.callIn?` reads the call off
the operands: the function, its arguments with a bound receiver in front, and the operands below
them; `Exec.execute_of_call` says that this is what the instruction does. An instruction that calls
no native function makes one object at most and leaves lists alone (`Exec.onward_of_no_call`), and
the same holds for all native functions but those that collect garbage, and make or change a list
(`Exec.adding_routine`).
-/

namespace Scriptlet

/-- A call of a native function: its arguments from left to right, and the operands below them. -/
structure NativeCall where
  callee : Native
  args : List Value
  below : List Value
deriving DecidableEq, Repr

namespace Machine

/-- The call of a native function that calling a value with the topmost operands comes to. A bound
receiver is the first argument. -/
def callOf? (m : Machine) (v : Value) (operands : List Value) (args : Nat) : Option NativeCall :=
  if operands.length < args then none
  else
    match v with
    | .native f => some ⟨f, (operands.take args).reverse, operands.drop args⟩
    | .object x =>
      match m.heap.object? x with
      | some (.function (.native f) receiver) =>
        some ⟨f, (receiver.map Value.object).toList ++ (operands.take args).reverse,
          operands.drop args⟩
      | _ => none
    | _ => none

/-- The call of a native function that an instruction makes. -/
def callIn? (m : Machine) : Instruction → Option NativeCall
  | .call args =>
    match m.frame.operands with
    | [] => none
    | v :: vs => m.callOf? v vs args.toNat
  | .callMethod name args =>
    match m.frame.operands[args.toNat]? with
    | none => none
    | some receiver =>
      match m.nativeMethod? receiver (m.bytecode.text name) with
      | some method =>
        some ⟨method, (m.frame.operands.take (args.toNat + 1)).reverse,
          m.frame.operands.drop (args.toNat + 1)⟩
      | none =>
        match m.fieldValue receiver name with
        | .ok callee =>
          if m.isCallable callee then
            m.callOf? callee (m.frame.operands.eraseIdx args.toNat) args.toNat
          else none
        | .error _ => none
  | _ => none

/-- The call of a native function that the next step makes, after a collection that may be due. -/
def call? (m : Machine) : Option NativeCall :=
  match m.status, Instruction.decode m.bytecode.code m.pc with
  | .ready, .instruction i => m.collectIfDue.callIn? i
  | _, _ => none

end Machine

namespace Exec

variable {α β : Type} {k l : Nat} {m : Machine}

theorem heap_onHeap (act : Heap.Action α) (m : Machine) :
    ((onHeap act).final m).heap = act.final m.heap := by
  unfold final Heap.Action.final
  rw [run_onHeap]
  cases act m.heap <;> rfl

/-! ## Actions that make objects -/

/-- The action makes at most `k` objects and leaves lists alone, also when it faults. -/
def Adding (k : Nat) (act : Exec α) : Prop :=
  ∀ m : Machine, Heap.Onward k none m.heap (act.final m).heap

namespace Adding

theorem still {act : Exec α} (h : ∀ m, (act.final m).heap = m.heap) : Adding k act := fun m => by
  rw [h]
  exact (Heap.Onward.refl _).mono (Nat.zero_le k)

theorem bind {act : Exec α} {f : α → Exec β} (ha : Adding 0 act) (hf : ∀ a, Adding k (f a)) :
    Adding k (act >>= f) := fun m => by
  have h₁ := ha m
  cases hr : act m with
  | ok a m' =>
    rw [final_ok hr] at h₁
    rw [final, run_bind_ok hr, ← Nat.zero_add k]
    exact h₁.trans (hf a m')
  | error e m' =>
    rw [final_error hr] at h₁
    rw [final_error (run_bind_error hr f)]
    exact h₁.mono (Nat.zero_le k)

/-- After its only allocation an action goes on without another. -/
theorem bindNew {act : Exec α} {f : α → Exec β} (ha : Adding k act) (hf : ∀ a, Adding 0 (f a)) :
    Adding k (act >>= f) := fun m => by
  have h₁ := ha m
  cases hr : act m with
  | ok a m' =>
    rw [final_ok hr] at h₁
    rw [final, run_bind_ok hr]
    exact h₁.trans (hf a m')
  | error e m' =>
    rw [final_error hr] at h₁
    rw [final_error (run_bind_error hr f)]
    exact h₁

theorem get_bind {f : Machine → Exec β} (hf : ∀ m, Adding k (f m)) : Adding k (get >>= f) :=
  fun m => hf m m

theorem mono {act : Exec α} (ha : Adding k act) (hk : k ≤ l) : Adding l act :=
  fun m => (ha m).mono hk

theorem pure (a : α) : Adding k (pure a : Exec α) := still fun _ => rfl

theorem fault (f : Fault) : Adding k (fault f : Exec α) := still fun _ => rfl

theorem modify {f : Machine → Machine} (h : ∀ m, (f m).heap = m.heap) :
    Adding k (modify f : Exec Unit) := still h

theorem look (f : Machine → Except Fault α) : Adding k (look f) := still fun m => by
  unfold final Exec.look
  cases f m <;> rfl

theorem onHeap {act : Heap.Action α} (ha : Heap.Adding k act) : Adding k (onHeap act) := fun m => by
  rw [heap_onHeap]
  exact ha m.heap

end Adding

theorem adding_push (v : Value) : Adding k (push v) := .modify fun _ => rfl

theorem adding_pop : Adding k pop := .still fun m => by
  unfold final
  cases hv : m.frame.operands with
  | nil => rw [run_pop_nil hv]
  | cons v vs => rw [run_pop_cons hv]

theorem adding_popN (count : Nat) : Adding k (popN count) := .still fun m => by
  unfold final
  by_cases hl : m.frame.operands.length < count
  · rw [run_popN_of_lt hl]
  · rw [run_popN_of_not_lt hl]

theorem adding_retain (v : Value) : Adding 0 (onHeap (Heap.retain v)) :=
  .onHeap (Heap.adding_retain v)

theorem adding_release (v : Value) : Adding 0 (onHeap (Heap.release v)) :=
  .onHeap (Heap.adding_release v)

theorem adding_retainAll (vs : List Value) : Adding 0 (onHeap (Heap.retainAll vs)) :=
  .onHeap (Heap.adding_retainAll vs)

theorem adding_allocate {o : Object} (ho : ∀ kind vs, o ≠ .nativeRecord kind vs) :
    Adding 1 (onHeap (Heap.allocateM o)) :=
  .onHeap fun h => .allocate_other h ho

theorem adding_pushNew {o : Object} (ho : ∀ kind vs, o ≠ .nativeRecord kind vs) :
    Adding 1 (pushNew o) :=
  .bindNew (adding_allocate ho) fun _ => adding_push _

/-! ## Variables, elements and fields -/

theorem adding_getLocal (slot : UInt8) : Adding k (getLocal slot) := by
  refine .get_bind fun m => ?_
  split
  · exact adding_push _
  · exact .fault _

theorem adding_setLocal (slot : UInt8) (v : Value) : Adding 0 (setLocal slot v) := by
  rw [setLocal_eq]
  refine .get_bind fun m => ?_
  split
  · exact .bind (adding_retain v) fun _ => .bind (.modify fun _ => rfl) fun _ => adding_release _
  · exact .bind (.modify fun _ => rfl) fun _ => adding_retain v

theorem adding_dropLocal : Adding k dropLocal := .still fun m => by
  unfold final dropLocal
  cases m.frame.locals.back? <;> rfl

theorem adding_shrinkLocals : ∀ n : Nat, Adding 0 (shrinkLocals n)
  | 0 => .pure ()
  | n + 1 => .bind adding_dropLocal fun v => .bind (adding_release v) fun _ => adding_shrinkLocals n

theorem adding_popString : Adding k popString := by
  refine .bind adding_pop fun v => .get_bind fun m => ?_
  split
  · exact .pure _
  · exact .fault _

theorem adding_getGlobal : Adding k getGlobal := by
  refine .bind adding_popString fun name => .get_bind fun m => ?_
  split
  · exact adding_push _
  · exact .fault _

theorem adding_setGlobal (name : String) (v : Value) : Adding 0 (setGlobal name v) := by
  refine .bind (adding_retain v) fun _ => .get_bind fun m => .bind (.modify fun _ => rfl) fun _ => ?_
  split
  · exact adding_release _
  · exact .pure ()

theorem adding_constant (s : Symbol) : Adding 1 (constant s) := by
  refine .get_bind fun m => ?_
  split
  · exact .pure _
  · exact .get_bind fun m => .bindNew (adding_allocate nofun) fun x =>
      .bind (adding_retain _) fun _ => .bind (.modify fun _ => rfl) fun _ => .pure x

theorem adding_getElement : Adding k getElement :=
  .bind adding_pop fun _ => .bind adding_pop fun _ => .bind (.look _) fun _ => adding_push _

/-- A store to the place that a look at the machine gives, which is in no list. -/
theorem adding_storeAt {place : Machine → Except Fault (Handle × Nat)} (v : Value)
    (hplace : ∀ m x i, place m = .ok (x, i) →
      ∃ o, m.heap.object? x = some o ∧ ∀ kind vs, o ≠ .nativeRecord kind vs) :
    Adding 0 (do let (x, i) ← look place; onHeap (Heap.setElement x i v)) := fun m => by
  cases hp : place m with
  | error e =>
    have hr : look place m = .error e m := by simp only [look, hp]
    rw [final_error (run_bind_error hr _)]
    exact .refl _
  | ok p =>
    obtain ⟨x, i⟩ := p
    obtain ⟨o, ho, hother⟩ := hplace m x i hp
    have hr : look place m = .ok (x, i) m := by simp only [look, hp]
    have hstore := run_bind_ok hr fun p => Exec.onHeap (Heap.setElement p.1 p.2 v)
    have hfinal := heap_onHeap (Heap.setElement x i v) m
    unfold final at hfinal ⊢
    rw [hstore, hfinal]
    exact .setElement ho hother i v

theorem exists_of_elementPlace {target index : Value} {x : Handle} {i : Nat}
    (h : m.elementPlace target index = .ok (x, i)) :
    ∃ o, m.heap.object? x = some o ∧ ∀ kind vs, o ≠ .nativeRecord kind vs := by
  unfold Machine.elementPlace at h
  split at h
  · next y n _ _ =>
    split at h
    · cases h
    · next items ho =>
      split at h
      · cases h
      · cases h
        exact ⟨_, ho, nofun⟩
    · cases h
  · cases h

theorem exists_of_fieldPlace {target : Value} {name : Symbol} {x : Handle} {i : Nat}
    (h : m.fieldPlace target name = .ok (x, i)) :
    ∃ o, m.heap.object? x = some o ∧ ∀ kind vs, o ≠ .nativeRecord kind vs := by
  unfold Machine.fieldPlace at h
  dsimp only at h
  split at h
  · cases h
  · split at h
    · cases h
    · next type fields ho =>
      split at h
      · cases h
        exact ⟨_, ho, nofun⟩
      · cases h
    · cases h

theorem adding_setElement : Adding 0 setElement :=
  .bind adding_pop fun _ => .bind adding_pop fun _ => .bind adding_pop fun v =>
    adding_storeAt v fun _ _ _ h => exists_of_elementPlace h

theorem adding_setField (name : Symbol) : Adding 0 (setField name) :=
  .bind adding_pop fun _ => .bind adding_pop fun v =>
    adding_storeAt v fun _ _ _ h => exists_of_fieldPlace h

theorem adding_getField (name : Symbol) : Adding 1 (getField name) := by
  refine .bind adding_pop fun target => .bindNew (.get_bind fun m => ?_) fun _ => adding_push _
  split
  · exact .bind (adding_retain _) fun _ => .bindNew (adding_allocate nofun) fun _ => .pure _
  · exact .look _

theorem adding_createArray (count : Nat) : Adding 1 (createArray count) :=
  .bind (adding_popN count) fun vs => .bind (adding_retainAll vs) fun _ => adding_pushNew nofun

theorem adding_construct (type : UInt32) (args : Nat) : Adding 1 (construct type args) := by
  refine .get_bind fun m => ?_
  split
  · exact .fault _
  · dsimp only
    split
    · exact .fault _
    · exact .bind (adding_popN args) fun vs => .bind (adding_retainAll vs) fun _ =>
        adding_pushNew nofun

/-! ## Operators -/

theorem adding_ofExcept (r : Except Fault α) : Adding k (ofExcept r) := by
  cases r with
  | ok a => exact .pure a
  | error f => exact .fault f

theorem adding_binaryResult (op : BinaryOp) (a b : Value) : Adding 1 (binaryResult op a b) := by
  have hcompare : ∀ op : BinaryOp, Adding 1
      (do let order ← ofExcept ((← get).order op a b); return .bool (Machine.holds op order) :
        Exec Value) :=
    fun op => .get_bind fun m => .bind (adding_ofExcept _) fun _ => .pure _
  have hnumeric : ∀ op : BinaryOp, Adding 1 (do ofExcept ((← get).numeric op a b)) :=
    fun op => .get_bind fun m => adding_ofExcept _
  cases op with
  | and => exact .pure _
  | or => exact .pure _
  | equal => exact .get_bind fun m => .pure _
  | notEqual => exact .get_bind fun m => .pure _
  | less => exact hcompare .less
  | greater => exact hcompare .greater
  | lessEqual => exact hcompare .lessEqual
  | greaterEqual => exact hcompare .greaterEqual
  | add =>
    refine .get_bind fun m => ?_
    split
    · exact .bindNew (adding_allocate nofun) fun _ => .pure _
    · exact adding_ofExcept _
  | _ => exact hnumeric _

theorem adding_binary (op : BinaryOp) : Adding 1 (binary op) :=
  .bind adding_pop fun b => .bind adding_pop fun a =>
    .bindNew (adding_binaryResult op a b) fun _ => adding_push _

theorem adding_kindName (v : Value) : Adding k (kindName v) := .get_bind fun _ => .pure _

theorem adding_unary (op : UnaryOp) : Adding k (unary op) := by
  refine .bind adding_pop fun v => .bind ?_ fun _ => adding_push _
  unfold unaryResult
  split
  · exact .pure _
  · exact .pure _
  · exact .pure _
  · exact .pure _
  · exact .pure _
  · exact .pure _
  · exact .pure _
  · exact .bind (adding_kindName _) fun _ => .fault _

/-! ## Native functions -/

theorem adding_arguments (expected args : Nat) : Adding k (arguments expected args) := by
  refine .bind (adding_popN args) fun vs => ?_
  split
  · exact .pure _
  · exact .fault _

theorem adding_argument (args : Nat) : Adding k (argument args) := by
  refine .bind (adding_arguments 1 args) fun vs => ?_
  split
  · exact .pure _
  · exact .fault _

theorem adding_twoArguments (args : Nat) : Adding k (twoArguments args) := by
  refine .bind (adding_arguments 2 args) fun vs => ?_
  split
  · exact .pure _
  · exact .fault _

theorem adding_refuseArgument (native expected : String) (v : Value) :
    Adding k (refuseArgument native expected v : Exec α) :=
  .bind (adding_kindName v) fun _ => .fault _

theorem adding_listHandle (native : String) (receiver : Value) :
    Adding k (listHandle native receiver) := by
  unfold listHandle
  split
  · refine .get_bind fun m => ?_
    split
    · exact .pure _
    · exact .fault _
    · exact .fault _
  · exact .fault _

theorem adding_storage (x : Handle) : Adding k (storage x) := .get_bind fun _ => .pure _

theorem adding_listGet (args : Nat) : Adding k (listGet args) := by
  refine .bind (adding_twoArguments args) fun p => ?_
  obtain ⟨receiver, index⟩ := p
  dsimp only
  split
  · exact adding_refuseArgument _ _ _
  · refine .bind (adding_listHandle _ _) fun x => .bind (adding_storage x) fun vs => ?_
    split
    · exact .fault _
    · split
      · exact adding_push _
      · exact .fault _

/-- What native functions do that collect no garbage, and make or change no list. -/
theorem adding_routine {r : Routine} (hgc : r ≠ .gc) (hnew : r ≠ .listNew) (hpush : r ≠ .listPush)
    (hpop : r ≠ .listPop) (args : Nat) : Adding 1 (routine r args) := by
  cases r with
  | print => exact .bind (adding_popN args) fun _ => .get_bind fun _ => .modify fun _ => rfl
  | len =>
    refine .bind (adding_argument args) fun v => .get_bind fun m => ?_
    split
    · exact adding_push _
    · exact adding_push _
    · exact adding_push _
    · exact adding_refuseArgument _ _ _
  | str =>
    exact .bind (adding_argument args) fun _ => .get_bind fun _ => adding_pushNew nofun
  | array =>
    refine .bind (adding_argument args) fun size => ?_
    split
    · exact adding_pushNew nofun
    · exact adding_refuseArgument _ _ _
  | listGet => exact adding_listGet args
  | listLen =>
    exact .bind (adding_argument args) fun _ => .bind (adding_listHandle _ _) fun x =>
      .bind (adding_storage x) fun _ => adding_push _
  | discard => exact .bind (adding_popN args) fun _ => .pure _
  | leave => exact .pure _
  | gc => exact absurd rfl hgc
  | listNew => exact absurd rfl hnew
  | listPush => exact absurd rfl hpush
  | listPop => exact absurd rfl hpop

/-! ## Calls -/

theorem adding_callDeclared (id : UInt32) (args : Nat) : Adding 0 (callDeclared id args) := by
  refine .get_bind fun m => ?_
  split
  · exact .fault _
  · split
    · exact .fault _
    · split
      · exact .fault _
      · exact .bind (adding_popN args) fun vs => .bind (adding_retainAll vs) fun _ =>
          .modify fun _ => rfl

theorem adding_callFunction (id : UInt32) : Adding 0 (callFunction id) := by
  refine .get_bind fun m => ?_
  split
  · exact .fault _
  · exact adding_callDeclared id _

theorem adding_insertBelow (count : Nat) (v : Value) : Adding k (insertBelow count v) :=
  .still fun m => by
    unfold final insertBelow
    dsimp only
    by_cases hl : m.frame.operands.length < count
    · rw [if_pos hl]
    · rw [if_neg hl]

/-- Too few operands are found out before a native function is called. -/
theorem run_callNative_of_lt {f : Native} {args : Nat} (hl : m.frame.operands.length < args) :
    callNative f args m = .error .stackUnderflow m := by
  have hcount : operandCount m = .ok m.frame.operands.length m := rfl
  rw [callNative, callAction, run_bind_ok hcount, if_pos hl]
  rfl

/-- Calling a value is calling the native function that it comes to. -/
theorem run_callValue_of_call {v : Value} {args : Nat} {c : NativeCall}
    (h : m.callOf? v m.frame.operands args = some c) :
    callValue v args m =
      callNative c.callee c.args.length (m.withOperands (c.args.reverse ++ c.below)) := by
  unfold Machine.callOf? at h
  by_cases hl : m.frame.operands.length < args
  · rw [if_pos hl] at h
    cases h
  rw [if_neg hl] at h
  have hlength : (m.frame.operands.take args).length = args := by
    rw [List.length_take]
    omega
  have hsame : m.withOperands (m.frame.operands.take args ++ m.frame.operands.drop args) = m := by
    rw [List.take_append_drop]
    rfl
  cases v with
  | native f =>
    cases h
    dsimp only
    rw [List.reverse_reverse, List.length_reverse, hlength, hsame]
    rfl
  | object x =>
    dsimp only at h
    split at h
    · next f receiver ho =>
      cases h
      rw [callValue, run_get_bind, ho]
      cases receiver with
      | none =>
        dsimp only [Option.map_none, Option.toList_none, List.nil_append]
        rw [List.reverse_reverse, List.length_reverse, hlength, hsame]
        rfl
      | some r =>
        dsimp only [Option.map_some, Option.toList_some]
        rw [run_bind_ok (run_insertBelow_of_not_lt hl), List.singleton_append, List.length_cons,
          List.length_reverse, hlength, List.reverse_cons, List.reverse_reverse, List.append_assoc,
          List.singleton_append]
        rfl
    · cases h
  | _ => cases h

/-- Calling a value that comes to no native function makes no object. -/
theorem onward_callValue_of_no_call {v : Value} {args : Nat}
    (h : m.callOf? v m.frame.operands args = none) :
    Heap.Onward 0 none m.heap ((callValue v args).final m).heap := by
  have hnative : ∀ f : Native, m.frame.operands.length < args →
      Heap.Onward 0 none m.heap ((callNative f args).final m).heap := fun f hl => by
    rw [final_error (run_callNative_of_lt hl)]
    exact .refl _
  unfold Machine.callOf? at h
  cases v with
  | native f =>
    by_cases hl : m.frame.operands.length < args
    · exact hnative f hl
    · rw [if_neg hl] at h
      cases h
  | object x =>
    have hrun : callValue (.object x) args m = _ := run_get_bind _ m
    unfold final
    rw [hrun]
    cases ho : m.heap.object? x with
    | none => exact .refl _
    | some o =>
      cases o with
      | function callee receiver =>
        cases callee with
        | declared id =>
          cases receiver with
          | none => exact adding_callDeclared id args m
          | some r =>
            exact Adding.bind (adding_insertBelow args (.object r))
              (fun _ => adding_callDeclared id (args + 1)) m
        | native f =>
          dsimp only at h
          rw [ho] at h
          have hl : m.frame.operands.length < args := by
            by_contra hl
            rw [if_neg hl] at h
            cases h
          cases receiver with
          | none => exact hnative f hl
          | some r =>
            dsimp only
            rw [run_bind_error (run_insertBelow_of_lt hl)]
            exact .refl _
      | _ => exact .refl _
  | _ => exact .refl _

theorem adding_giveBack (locals : List Value) (pc : Nat) (v : Value) :
    Adding 0 (giveBack locals pc v) :=
  .bind (.onHeap (Heap.adding_releaseAll locals)) fun _ =>
    .bind (.modify fun _ => rfl) fun _ => adding_push v

theorem adding_returnValue (v : Value) : Adding 0 (returnValue v) := fun m => by
  unfold final
  cases hc : m.callers with
  | nil =>
    rw [run_returnValue_nil hc]
    exact .refl _
  | cons caller callers =>
    rw [run_returnValue_cons hc]
    exact adding_giveBack _ _ v { m with frame := caller.frame, callers }

/-- An instruction that calls a native function does nothing else. -/
theorem execute_of_call {i : Instruction} {c : NativeCall} (h : m.callIn? i = some c) :
    execute i m = callNative c.callee c.args.length (m.withOperands (c.args.reverse ++ c.below)) := by
  cases i with
  | call args =>
    dsimp only [Machine.callIn?] at h
    cases hv : m.frame.operands with
    | nil =>
      rw [hv] at h
      cases h
    | cons v vs =>
      rw [hv] at h
      rw [execute, run_bind_ok (run_pop_cons hv)]
      exact run_callValue_of_call (m := m.withOperands vs) h
  | callMethod name args =>
    dsimp only [Machine.callIn?] at h
    rw [execute, callMethod, run_get_bind]
    cases hr : m.frame.operands[args.toNat]? with
    | none =>
      rw [hr] at h
      cases h
    | some receiver =>
      rw [hr] at h
      dsimp only at h ⊢
      cases hm : m.nativeMethod? receiver (m.bytecode.text name) with
      | some method =>
        rw [hm] at h
        cases h
        have hlength : (m.frame.operands.take (args.toNat + 1)).length = args.toNat + 1 := by
          have := (List.getElem?_eq_some_iff.1 hr).1
          rw [List.length_take]
          omega
        dsimp only
        rw [List.reverse_reverse, List.length_reverse, hlength, List.take_append_drop]
        rfl
      | none =>
        rw [hm] at h
        dsimp only at h ⊢
        cases hf : m.fieldValue receiver name with
        | error e =>
          rw [hf] at h
          cases h
        | ok callee =>
          rw [hf] at h
          dsimp only at h ⊢
          by_cases hcall : m.isCallable callee = true
          · rw [if_pos hcall] at h ⊢
            exact run_callValue_of_call
              (m := m.withOperands (m.frame.operands.eraseIdx args.toNat)) h
          · rw [if_neg hcall] at h
            cases h
  | _ => cases h

theorem onward_callMethod_of_no_call {name : Symbol} {args : UInt8}
    (h : m.callIn? (.callMethod name args) = none) :
    Heap.Onward 0 none m.heap ((execute (.callMethod name args)).final m).heap := by
  dsimp only [Machine.callIn?] at h
  have hrun : execute (.callMethod name args) m = _ := run_get_bind _ m
  unfold final
  rw [hrun]
  cases hr : m.frame.operands[args.toNat]? with
  | none => exact .refl _
  | some receiver =>
    rw [hr] at h
    dsimp only at h ⊢
    cases hm : m.nativeMethod? receiver (m.bytecode.text name) with
    | some method =>
      rw [hm] at h
      cases h
    | none =>
      -- not a native method, so what the field holds is called, like any other value
      rw [hm] at h
      dsimp only at h ⊢
      cases hf : m.fieldValue receiver name with
      | error e => exact .refl _
      | ok callee =>
        rw [hf] at h
        dsimp only at h ⊢
        by_cases hcall : m.isCallable callee = true
        · rw [if_pos hcall] at h ⊢
          exact onward_callValue_of_no_call
            (m := m.withOperands (m.frame.operands.eraseIdx args.toNat)) h
        · rw [if_neg hcall]
          exact .refl _

/-- An instruction that calls no native function makes at most one object, and leaves lists alone. -/
theorem onward_of_no_call {i : Instruction} (h : m.callIn? i = none) :
    Heap.Onward 1 none m.heap ((execute i).final m).heap := by
  have hnone : ∀ {act : Exec Unit}, Adding 0 act →
      Heap.Onward 1 none m.heap (act.final m).heap := fun ha => (ha m).mono (Nat.zero_le 1)
  cases i with
  | pushNull => exact adding_push _ m
  | pushTrue => exact adding_push _ m
  | pushFalse => exact adding_push _ m
  | pushInt n => exact adding_push _ m
  | pushUInt n => exact adding_push _ m
  | pushFloat x => exact adding_push _ m
  | pushChar c => exact adding_push _ m
  | pushString s => exact Adding.bindNew (adding_constant s) (fun _ => adding_push _) m
  | pushFunction id => exact adding_pushNew (fun _ _ h => by cases h) m
  | binary op => exact adding_binary op m
  | unary op => exact adding_unary op m
  | getLocal slot => exact adding_getLocal slot m
  | setLocal slot => exact hnone (.bind adding_pop fun v => adding_setLocal slot v)
  | shrinkLocals count => exact hnone (adding_shrinkLocals count.toNat)
  | getGlobal => exact adding_getGlobal m
  | setGlobal =>
    exact hnone (.bind adding_popString fun name => .bind adding_pop fun v =>
      adding_setGlobal name v)
  | getElement => exact adding_getElement m
  | setElement => exact hnone adding_setElement
  | getField name => exact adding_getField name m
  | setField name => exact hnone (adding_setField name)
  | createArray count => exact adding_createArray count.toNat m
  | construct type args => exact adding_construct type args.toNat m
  | callMethod name args => exact (onward_callMethod_of_no_call h).mono (Nat.zero_le 1)
  | call args =>
    refine Heap.Onward.mono ?_ (Nat.zero_le 1)
    dsimp only [Machine.callIn?] at h
    unfold final
    cases hv : m.frame.operands with
    | nil =>
      rw [execute, run_bind_error (run_pop_nil hv)]
      exact .refl _
    | cons v vs =>
      rw [hv] at h
      rw [execute, run_bind_ok (run_pop_cons hv)]
      exact onward_callValue_of_no_call (m := m.withOperands vs) h
  | callFunction id => exact hnone (adding_callFunction id)
  | ret => exact hnone (adding_returnValue .null)
  | retValue => exact hnone (.bind adding_pop fun v => adding_returnValue v)
  | jump target => exact Adding.modify (fun _ => rfl) m
  | jumpIfFalse target =>
    refine hnone (.bind adding_pop fun v => ?_)
    split
    · exact .pure ()
    · exact .modify fun _ => rfl
  | drop => exact hnone (.bind adding_pop fun _ => .pure ())
  | halt => exact Adding.modify (fun _ => rfl) m

end Exec

/-! ## What is passed -/

namespace Machine

variable {m : Machine} {c : NativeCall}

theorem mem_of_callOf? {v : Value} {operands : List Value} {n : Nat}
    (hcall : m.callOf? v operands n = some c) {w : Value} (hw : w ∈ c.args.reverse ++ c.below) :
    w ∈ operands ∨ ∃ y o, m.heap.object? y = some o ∧ ∃ z ∈ o.children, w = .object z := by
  unfold callOf? at hcall
  split at hcall
  · cases hcall
  · split at hcall
    · cases hcall
      rw [List.reverse_reverse, List.take_append_drop] at hw
      exact .inl hw
    · next y =>
      split at hcall
      · next f receiver ho =>
        cases hcall
        rw [List.reverse_append, List.reverse_reverse, List.append_assoc, List.mem_append] at hw
        obtain hw | hr | hw := hw.imp_right List.mem_append.1
        · exact .inl (List.mem_of_mem_take hw)
        · rw [List.mem_reverse, Option.mem_toList, Option.map_eq_some_iff] at hr
          obtain ⟨z, hz, rfl⟩ := hr
          exact .inr ⟨y, _, ho, z, Option.mem_toList.2 hz, rfl⟩
        · exact .inl (List.mem_of_mem_drop hw)
      · cases hcall
    · cases hcall

/-- The arguments of a call, and what is below them, are operands, or the receiver that a reference
is bound to. -/
theorem mem_of_callIn? {i : Instruction} (hcall : m.callIn? i = some c) {w : Value}
    (hw : w ∈ c.args.reverse ++ c.below) : w ∈ m.frame.operands ∨
      ∃ y o, m.heap.object? y = some o ∧ ∃ z ∈ o.children, w = .object z := by
  cases i with
  | call args =>
    dsimp only [callIn?] at hcall
    split at hcall
    · cases hcall
    · next v vs hops =>
      rw [hops]
      exact (mem_of_callOf? hcall hw).imp_left (List.mem_cons_of_mem v)
  | callMethod name args =>
    dsimp only [callIn?] at hcall
    split at hcall
    · cases hcall
    · split at hcall
      · cases hcall
        rw [List.reverse_reverse, List.take_append_drop] at hw
        exact .inl hw
      · split at hcall
        · split at hcall
          · exact (mem_of_callOf? hcall hw).imp_left List.mem_of_mem_eraseIdx
          · cases hcall
        · cases hcall
  | _ => cases hcall

/-! ## Steps -/

/-- What an instruction calls depends neither on the program counter nor on the record of events. -/
theorem callIn?_behind (m : Machine) (i : Instruction) (pc : Nat) (events : Array Event) :
    ({ m with pc, events } : Machine).callIn? i = m.callIn? i := by
  cases i <;> rfl

theorem callIn?_collectIfDue (m : Machine) (i : Instruction) (pc : Nat) (events : Array Event) :
    ({ m with heap := m.collectIfDue.heap, pc, events } : Machine).callIn? i =
      m.collectIfDue.callIn? i := by
  obtain ⟨events', he⟩ := m.collectIfDue_eq
  rw [he]
  exact (callIn?_behind { m with heap := m.collectIfDue.heap } i pc events).trans
    (callIn?_behind { m with heap := m.collectIfDue.heap } i m.pc events').symm

theorem exists_of_call (hcall : m.call? = some c) : m.status = .ready ∧
    ∃ i, Instruction.decode m.bytecode.code m.pc = .instruction i ∧
      m.collectIfDue.callIn? i = some c := by
  unfold call? at hcall
  split at hcall
  · next i hready hd => exact ⟨hready, i, hd, hcall⟩
  · cases hcall

/-- A step that calls a native function: a collection that may be due, then the call. -/
theorem step_of_call (hcall : m.call? = some c) : ∃ pc events, ∀ m₀ : Machine,
    m₀ = { m with
      heap := m.collectIfDue.heap
      pc
      frame := { m.frame with operands := c.args.reverse ++ c.below }
      events } →
    (∀ m', Exec.callNative c.callee c.args.length m₀ = .ok () m' → step m = .ok m'.status m') ∧
    ∀ f m', Exec.callNative c.callee c.args.length m₀ = .error f m' → step m = m'.stop f m.pc := by
  obtain ⟨hready, i, hd, hcallIn⟩ := exists_of_call hcall
  obtain ⟨events, hstep⟩ := step_of_decode hready hd
  refine ⟨m.pc + i.width, events, fun m₀ hm₀ => ?_⟩
  have hrun := Exec.execute_of_call ((m.callIn?_collectIfDue i (m.pc + i.width) events).trans hcallIn)
  subst hm₀
  obtain ⟨hok, herror⟩ := hstep _ rfl
  exact ⟨fun m' h => hok m' (hrun.trans h), fun f m' h => herror f m' (hrun.trans h)⟩

/-- A step that calls a native function leaves the heap and the operands that the call leaves. -/
theorem next_of_call (hcall : m.call? = some c) : ∃ m₀ : Machine,
    m₀.heap = m.collectIfDue.heap ∧ m₀.frame.operands = c.args.reverse ++ c.below ∧
    m₀.callers = m.callers ∧ m₀.structures = m.structures ∧
    m.next.heap = ((Exec.callNative c.callee c.args.length).final m₀).heap ∧
    m.next.frame = ((Exec.callNative c.callee c.args.length).final m₀).frame := by
  obtain ⟨pc, events, hstep⟩ := step_of_call hcall
  obtain ⟨hok, herror⟩ := hstep _ rfl
  let m₀ : Machine := { m with
    heap := m.collectIfDue.heap
    pc
    frame := { m.frame with operands := c.args.reverse ++ c.below }
    events }
  refine ⟨m₀, rfl, rfl, rfl, rfl, ?_⟩
  unfold next
  cases hrun : Exec.callNative c.callee c.args.length m₀ with
  | ok _ m' =>
    rw [hok m' hrun, Exec.final_ok hrun]
    exact ⟨rfl, rfl⟩
  | error f m' =>
    rw [herror f m' hrun, Exec.final_error hrun]
    exact ⟨rfl, rfl⟩

/-- A step that calls no native function makes at most one object behind a collection that may be
due, and leaves lists alone. -/
theorem onward_next_of_no_call (hready : m.status = .ready) (hpc : m.pc < m.bytecode.size)
    (hcall : m.call? = none) : Heap.Onward 1 none m.collectIfDue.heap m.next.heap := by
  cases hd : Instruction.decode m.bytecode.code m.pc with
  | instruction i =>
    have hcallIn : m.collectIfDue.callIn? i = none := by
      rw [call?, hready, hd] at hcall
      exact hcall
    obtain ⟨events, hstep⟩ := step_of_decode hready hd
    obtain ⟨hok, herror⟩ := hstep _ rfl
    have hon := Exec.onward_of_no_call
      ((m.callIn?_collectIfDue i (m.pc + i.width) events).trans hcallIn)
    unfold Exec.final at hon
    unfold next
    split at hon
    · next _ m' hrun =>
      rw [hok m' hrun]
      exact hon
    · next f m' hrun =>
      rw [herror f m' hrun]
      exact hon
  | _ =>
    obtain ⟨f, hf⟩ : ∃ f, m.collectIfDue.executeNext =
        m.collectIfDue.stop f m.collectIfDue.pc := by
      obtain ⟨f, hf, -⟩ | ⟨i, -, hd', -⟩ := m.collectIfDue.executeNext_cases
      · exact ⟨f, hf⟩
      · obtain ⟨events, he⟩ := m.collectIfDue_eq
        rw [he, hd] at hd'
        cases hd'
    have hstep : step m = m.collectIfDue.executeNext := by
      simp only [step, hready, if_neg (Nat.not_le.2 hpc)]
    unfold next
    rw [hstep, hf]
    exact (Heap.Onward.refl _).mono (Nat.zero_le 1)

end Machine

end Scriptlet
