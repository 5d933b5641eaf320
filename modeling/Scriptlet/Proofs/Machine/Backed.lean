import Scriptlet.Proofs.Heap.Backing
import Scriptlet.Proofs.Machine.Instructions

/-!
# What an instruction leaves alone

`Machine.Backed extra m`: the counts of the heap are high enough (`Heap.Backs`) for the owners of the
machine and for `extra`, which an action has counted but not stored yet. Operands are not looked at.

`Exec.Stays m act Q`: from `m` the action leaves the callers alone, also when it faults, and ends with
`Q` if it does not. This module has it for all actions except calls of declared functions and returns,
however many slots the heap has.
-/

namespace Scriptlet

/-- Counts are high enough, also for what an action holds in its hands (module doc). -/
def Machine.Backed (extra : List Handle) (m : Machine) : Prop := m.heap.Backs (extra ++ m.owners)

open Machine (Backed)

namespace Machine.Backed

variable {extra extra' : List Handle} {m m' : Machine}

theorem assoc {xs : List Handle} (hm : m.Backed (xs ++ extra)) :
    m.heap.Backs (xs ++ (extra ++ m.owners)) := by
  rw [← List.append_assoc]
  exact hm

/-- Handles that change their places on the same heap. -/
theorem reown (hm : m.Backed extra) (hheap : m'.heap = m.heap)
    (hp : (extra ++ m.owners).Perm (extra' ++ m'.owners)) : m'.Backed extra' := by
  rw [Backed, hheap]
  exact hm.perm hp

theorem congr (hm : m.Backed extra) (hheap : m'.heap = m.heap) (howners : m'.owners = m.owners) :
    m'.Backed extra :=
  hm.reown hheap (by rw [howners])

theorem withOperands (hm : m.Backed extra) (vs : List Value) :
    ({ m with frame := { m.frame with operands := vs } } : Machine).Backed extra :=
  hm.congr rfl rfl

theorem withHeap {h : Heap} (hb : h.Backs (extra ++ m.owners)) :
    ({ m with heap := h } : Machine).Backed extra :=
  hb

theorem collectGarbage (hm : m.Backed []) : m.collectGarbage.2.Backed [] := by
  obtain ⟨events, he⟩ := m.collectGarbage_eq
  rw [he]
  exact hm.sweep m.pinned.contains

end Machine.Backed

namespace Exec

variable {α β : Type} {extra : List Handle} {m : Machine}

/-- What an action does from a machine, with its callers left alone (module doc). -/
structure Stays (m : Machine) (act : Exec α) (Q : α → Machine → Prop) : Prop where
  callers : (act.final m).callers = m.callers
  run : ∀ a m', act m = .ok a m' → Q a m'

namespace Stays

variable {Q : α → Machine → Prop} {R : β → Machine → Prop}

theorem bind {act : Exec α} {k : α → Exec β} (ha : Stays m act Q)
    (hk : ∀ a m', Q a m' → Stays m' (k a) R) : Stays m (act >>= k) R := by
  cases hr : act m with
  | ok a m' =>
    have hcallers := ha.callers
    rw [final_ok hr] at hcallers
    have hnext := hk a m' (ha.run a m' hr)
    refine ⟨?_, fun b m'' h => hnext.run b m'' (by rwa [run_bind_ok hr] at h)⟩
    rw [final, run_bind_ok hr]
    exact hnext.callers.trans hcallers
  | error f m' =>
    have hcallers := ha.callers
    rw [final_error hr] at hcallers
    refine ⟨by rw [final_error (run_bind_error hr k), hcallers], fun b m'' h => ?_⟩
    rw [run_bind_error hr] at h
    cases h

theorem of_ok {act : Exec α} {a : α} {m' : Machine} (hr : act m = .ok a m')
    (hc : m'.callers = m.callers) (h : Q a m') : Stays m act Q :=
  ⟨by rw [final_ok hr, hc], fun b m'' hr' => by
    rw [hr] at hr'
    cases hr'
    exact h⟩

theorem of_error {act : Exec α} {f : Fault} {m' : Machine} (hr : act m = .error f m')
    (hc : m'.callers = m.callers) : Stays m act Q :=
  ⟨by rw [final_error hr, hc], fun b m'' hr' => by
    rw [hr] at hr'
    cases hr'⟩

theorem get_bind {k : Machine → Exec β} (hk : Stays m (k m) R) : Stays m (get >>= k) R :=
  ⟨hk.callers, hk.run⟩

theorem pure {a : α} (h : Q a m) : Stays m (pure a) Q := .of_ok rfl rfl h

theorem fault {f : Fault} : Stays m (fault f) Q := .of_error rfl rfl

/-- A change of the machine that cannot fail. -/
theorem modify {f : Machine → Machine} {S : Unit → Machine → Prop} (hf : (f m).callers = m.callers)
    (h : S () (f m)) : Stays m (modify f) S :=
  .of_ok rfl hf h

theorem onHeap {act : Heap.Action α} (h : ∀ a h', act m.heap = .ok a h' → Q a { m with heap := h' }) :
    Stays m (onHeap act) Q := by
  have hrun := run_onHeap act m
  cases hr : act m.heap with
  | ok a h' =>
    rw [hr] at hrun
    exact .of_ok hrun rfl (h a h' hr)
  | error f h' =>
    rw [hr] at hrun
    exact .of_error hrun rfl

theorem look {f : Machine → Except Fault α} (h : ∀ a, f m = .ok a → Q a m) : Stays m (look f) Q := by
  cases hf : f m with
  | ok a =>
    have hr : Exec.look f m = .ok a m := by simp only [Exec.look, hf]
    exact .of_ok hr rfl (h a hf)
  | error e =>
    have hr : Exec.look f m = .error e m := by simp only [Exec.look, hf]
    exact .of_error hr rfl

end Stays

/-! ## Operands -/

theorem stays_push (hm : m.Backed extra) (v : Value) : Stays m (push v) fun _ => Backed extra :=
  .modify rfl (hm.withOperands _)

theorem run_pop_nil (h : m.frame.operands = []) : pop m = .error .stackUnderflow m := by
  simp only [pop, h]

theorem run_pop_cons {v : Value} {vs : List Value} (h : m.frame.operands = v :: vs) :
    pop m = .ok v { m with frame := { m.frame with operands := vs } } := by
  simp only [pop, h]

theorem stays_pop (hm : m.Backed extra) : Stays m pop fun _ => Backed extra := by
  cases hv : m.frame.operands with
  | nil => exact .of_error (run_pop_nil hv) rfl
  | cons v vs => exact .of_ok (run_pop_cons hv) rfl (hm.withOperands vs)

theorem run_popN_of_lt {count : Nat} (h : m.frame.operands.length < count) :
    popN count m = .error .stackUnderflow m := by
  simp only [popN, if_pos h]

theorem run_popN_of_not_lt {count : Nat} (h : ¬ m.frame.operands.length < count) :
    popN count m = .ok (m.frame.operands.take count).reverse
      { m with frame := { m.frame with operands := m.frame.operands.drop count } } := by
  simp only [popN, if_neg h]

theorem stays_popN (hm : m.Backed extra) (count : Nat) : Stays m (popN count) fun _ => Backed extra := by
  by_cases hl : m.frame.operands.length < count
  · exact .of_error (run_popN_of_lt hl) rfl
  · exact .of_ok (run_popN_of_not_lt hl) rfl (hm.withOperands _)

theorem stays_operandCount (hm : m.Backed extra) : Stays m operandCount fun _ => Backed extra :=
  .of_ok rfl rfl hm

/-! ## The heap -/

theorem stays_retain (hm : m.Backed extra) (v : Value) :
    Stays m (onHeap (Heap.retain v)) fun _ => Backed (Value.handles [v] ++ extra) :=
  .onHeap fun _ h' hr => .withHeap (by rw [List.append_assoc]; exact Heap.Backs.retain hm hr)

theorem stays_retainAll (hm : m.Backed extra) (vs : List Value) :
    Stays m (onHeap (Heap.retainAll vs)) fun _ => Backed (Value.handles vs ++ extra) :=
  .onHeap fun _ h' hr => .withHeap (by rw [List.append_assoc]; exact Heap.Backs.retainAll hm hr)

theorem stays_release {v : Value} (hm : m.Backed (Value.handles [v] ++ extra)) :
    Stays m (onHeap (Heap.release v)) fun _ => Backed extra :=
  .onHeap fun _ h' hr => by
    obtain ⟨h₁, hr₁, hb⟩ := hm.assoc.release
    rw [hr₁] at hr
    cases hr
    exact .withHeap hb

theorem stays_allocate {o : Object} (extra : List Handle) (hm : m.Backed (o.children ++ extra)) :
    Stays m (onHeap (Heap.allocateM o)) fun _ => Backed extra :=
  .onHeap fun _ h' hr => by
    cases hr
    exact .withHeap hm.assoc.allocate

theorem stays_pushNew {o : Object} (hm : m.Backed (o.children ++ extra)) :
    Stays m (pushNew o) fun _ => Backed extra :=
  .bind (stays_allocate extra hm) fun x _ hm => stays_push hm (.object x)

theorem stays_storeElement (hm : m.Backed []) (x : Handle) (i : Nat) (v : Value) :
    Stays m (onHeap (Heap.setElement x i v)) fun _ => Backed [] :=
  .onHeap fun _ _ hr => .withHeap (Heap.Backs.setElement hm hr)

/-! ## Places -/

theorem stays_getLocal (hm : m.Backed []) (slot : UInt8) :
    Stays m (getLocal slot) fun _ => Backed [] := by
  refine .get_bind ?_
  split
  · exact stays_push hm _
  · exact .fault

theorem stays_setLocal (hm : m.Backed []) (slot : UInt8) (v : Value) :
    Stays m (setLocal slot v) fun _ => Backed [] := by
  rw [setLocal_eq]
  refine .get_bind ?_
  cases hold : m.frame.locals[slot.toNat]? with
  | some old =>
    refine .bind (Q := fun _ m' => Backed (Value.handles [v]) m' ∧ m'.frame = m.frame)
      (.onHeap fun _ h' hr => ⟨Heap.Backs.retain hm hr, rfl⟩) fun _ m₁ h₁ => ?_
    refine .bind (Q := fun _ => Backed (Value.handles [old] ++ [])) (.modify rfl ?_) fun _ m₂ hm₂ =>
      stays_release hm₂
    refine h₁.1.reown rfl ?_
    have hown := owners_storeLocal m₁ slot.toNat v
    rw [h₁.2, hold] at hown
    rw [h₁.2, List.append_nil]
    exact hown
  | none =>
    -- the slot is filled before its value is counted
    refine .bind (Q := fun _ m' => m' = { m with frame := storeLocal slot.toNat v m.frame })
      (.modify rfl rfl) fun _ m₁ h₁ => .onHeap fun _ h' hr => ?_
    subst h₁
    have hown := owners_storeLocal m slot.toNat v
    rw [hold] at hown
    exact (Heap.Backs.retain hm hr).perm hown

theorem stays_shrinkLocals : ∀ {m : Machine} (n : Nat), m.Backed [] →
    Stays m (shrinkLocals n) fun _ => Backed []
  | m, 0, hm => .pure hm
  | m, n + 1, hm => by
    refine .bind (Q := fun v => Backed (Value.handles [v] ++ [])) ?_ fun v m' hm' =>
      .bind (stays_release hm') fun _ _ hm => stays_shrinkLocals n hm
    cases hv : m.frame.locals.back? with
    | none =>
      have hr : dropLocal m = .error .stackUnderflow m := by simp only [dropLocal, hv]
      exact .of_error hr rfl
    | some v =>
      have hr : dropLocal m =
          .ok v { m with frame := { m.frame with locals := m.frame.locals.pop } } := by
        simp only [dropLocal, hv]
      refine .of_ok hr rfl (hm.reown rfl ?_)
      rw [List.append_nil]
      exact owners_dropLocal hv

theorem stays_popString (hm : m.Backed []) : Stays m popString fun _ => Backed [] := by
  refine .bind (stays_pop hm) fun v m' hm' => .get_bind ?_
  split
  · exact .pure hm'
  · exact .fault

theorem stays_getGlobal (hm : m.Backed []) : Stays m getGlobal fun _ => Backed [] := by
  refine .bind (stays_popString hm) fun name m' hm' => .get_bind ?_
  split
  · exact stays_push hm' _
  · exact .fault

theorem stays_setGlobal (hm : m.Backed []) (name : String) (v : Value) :
    Stays m (setGlobal name v) fun _ => Backed [] := by
  refine .bind (stays_retain hm v) fun _ m₁ hm₁ => .get_bind ?_
  refine .bind (Q := fun _ => Backed (Value.handles (m₁.globals.find? name).toList ++ [])) ?_
    fun _ m₂ hm₂ => ?_
  · refine .modify rfl (hm₁.reown rfl ?_)
    rw [List.append_nil, List.append_nil]
    exact owners_insert m₁ name v
  · cases hold : m₁.globals.find? name with
    | some old =>
      rw [hold] at hm₂
      exact stays_release hm₂
    | none =>
      rw [hold] at hm₂
      exact .pure hm₂

theorem stays_constant (hm : m.Backed []) (s : Symbol) : Stays m (constant s) fun _ => Backed [] := by
  refine .get_bind ?_
  split
  · exact .pure hm
  · refine .get_bind (.bind (stays_allocate [] hm) fun x m₁ hm₁ =>
      .bind (stays_retain hm₁ (.object x)) fun _ m₂ hm₂ => .bind (.modify rfl ?_) fun _ _ h => .pure h)
    exact hm₂.reown rfl (owners_constant m₂ s x)

theorem stays_getElement (hm : m.Backed []) : Stays m getElement fun _ => Backed [] :=
  .bind (stays_pop hm) fun _ _ hm => .bind (stays_pop hm) fun _ _ hm =>
    .bind (.look fun _ _ => hm) fun v _ hm => stays_push hm v

theorem stays_setElement (hm : m.Backed []) : Stays m setElement fun _ => Backed [] :=
  .bind (stays_pop hm) fun _ _ hm => .bind (stays_pop hm) fun _ _ hm =>
    .bind (stays_pop hm) fun v _ hm => .bind (.look fun _ _ => hm) fun p _ hm =>
    stays_storeElement hm p.1 p.2 v

theorem stays_fieldValue (hm : m.Backed []) (target : Value) (name : Symbol) :
    Stays m (fieldValue target name) fun _ => Backed [] := by
  refine .get_bind ?_
  split
  · next method _ =>
    refine .bind (stays_retain hm target) fun _ m₁ hm₁ =>
      .bind (stays_allocate [] ?_) fun _ _ h => .pure h
    rw [children_method]
    exact hm₁
  · exact .look fun _ _ => hm

theorem stays_getField (hm : m.Backed []) (name : Symbol) : Stays m (getField name) fun _ => Backed [] :=
  .bind (stays_pop hm) fun target _ hm => .bind (stays_fieldValue hm target name) fun v _ hm =>
    stays_push hm v

theorem stays_setField (hm : m.Backed []) (name : Symbol) : Stays m (setField name) fun _ => Backed [] :=
  .bind (stays_pop hm) fun _ _ hm => .bind (stays_pop hm) fun v _ hm =>
    .bind (.look fun _ _ => hm) fun p _ hm => stays_storeElement hm p.1 p.2 v

theorem stays_createArray (hm : m.Backed []) (count : Nat) :
    Stays m (createArray count) fun _ => Backed [] :=
  .bind (stays_popN hm count) fun items _ hm => .bind (stays_retainAll hm items) fun _ _ hm =>
    stays_pushNew hm

theorem stays_construct (hm : m.Backed []) (type : UInt32) (args : Nat) :
    Stays m (construct type args) fun _ => Backed [] := by
  refine .get_bind ?_
  split
  · exact .fault
  · next entry _ =>
    dsimp only
    split
    · exact .fault
    · refine .bind (stays_popN hm args) fun given _ hm => .bind (stays_retainAll hm given) fun _ _ hm =>
        stays_pushNew ?_
      rw [children_instance]
      exact hm

/-! ## Operators -/

theorem stays_ofExcept (hm : m.Backed []) {r : Except Fault α} :
    Stays m (ofExcept r) fun _ => Backed [] := by
  cases r with
  | ok a => exact .pure hm
  | error f => exact .fault

theorem stays_binaryResult (hm : m.Backed []) (op : BinaryOp) (a b : Value) :
    Stays m (binaryResult op a b) fun _ => Backed [] := by
  have hcompare : ∀ op, Stays m
      (do let order ← ofExcept ((← get).order op a b); return Value.bool (Machine.holds op order))
      fun _ => Backed [] :=
    fun op => .get_bind (.bind (stays_ofExcept hm) fun _ _ hm => .pure hm)
  cases op with
  | and => exact .pure hm
  | or => exact .pure hm
  | equal => exact .get_bind (.pure hm)
  | notEqual => exact .get_bind (.pure hm)
  | less => exact hcompare .less
  | greater => exact hcompare .greater
  | lessEqual => exact hcompare .lessEqual
  | greaterEqual => exact hcompare .greaterEqual
  | add =>
    refine .get_bind ?_
    dsimp only
    split
    · exact .bind (stays_allocate [] hm) fun _ _ hm => .pure hm
    · exact stays_ofExcept hm
  | _ => exact .get_bind (stays_ofExcept hm)

theorem stays_binary (hm : m.Backed []) (op : BinaryOp) : Stays m (binary op) fun _ => Backed [] :=
  .bind (stays_pop hm) fun b _ hm => .bind (stays_pop hm) fun a _ hm =>
    .bind (stays_binaryResult hm op a b) fun v _ hm => stays_push hm v

theorem stays_unaryResult (hm : m.Backed []) (op : UnaryOp) (v : Value) :
    Stays m (unaryResult op v) fun _ => Backed [] := by
  unfold unaryResult
  split
  · exact .pure hm
  · exact .pure hm
  · exact .pure hm
  · exact .pure hm
  · exact .pure hm
  · exact .pure hm
  · exact .pure hm
  · exact .get_bind .fault

theorem stays_unary (hm : m.Backed []) (op : UnaryOp) : Stays m (unary op) fun _ => Backed [] :=
  .bind (stays_pop hm) fun v _ hm => .bind (stays_unaryResult hm op v) fun w _ hm => stays_push hm w

/-! ## Native functions -/

theorem stays_arguments (hm : m.Backed []) (expected args : Nat) :
    Stays m (arguments expected args) fun _ => Backed [] := by
  refine .bind (stays_popN hm args) fun vs _ hm => ?_
  split
  · exact .pure hm
  · exact .fault

theorem stays_argument (hm : m.Backed []) (args : Nat) : Stays m (argument args) fun _ => Backed [] := by
  refine .bind (stays_arguments hm 1 args) fun vs _ hm => ?_
  split
  · exact .pure hm
  · exact .fault

theorem stays_twoArguments (hm : m.Backed []) (args : Nat) :
    Stays m (twoArguments args) fun _ => Backed [] := by
  refine .bind (stays_arguments hm 2 args) fun vs _ hm => ?_
  split
  · exact .pure hm
  · exact .fault

theorem stays_refuseArgument {Q : α → Machine → Prop} (native expected : String) (v : Value) :
    Stays m (refuseArgument native expected v) Q :=
  .get_bind .fault

theorem stays_collectGarbage (hm : m.Backed []) : Stays m collectGarbage fun _ => Backed [] := by
  have hr : collectGarbage m = .ok m.collectGarbage.1 m.collectGarbage.2 := rfl
  refine .of_ok hr ?_ hm.collectGarbage
  obtain ⟨events, he⟩ := m.collectGarbage_eq
  rw [he]

/-- The receiver of a list method is an instance of a native structure. -/
theorem stays_listHandle (hm : m.Backed []) (native : String) (receiver : Value) :
    Stays m (listHandle native receiver) fun x m' =>
      Backed [] m' ∧ ∃ kind vs, m'.heap.object? x = some (.nativeRecord kind vs) := by
  unfold listHandle
  split
  · refine .get_bind ?_
    split
    · next kind vs ho => exact .pure ⟨hm, kind, vs, ho⟩
    · exact .fault
    · exact .fault
  · exact .fault

theorem stays_storage (hm : m.Backed []) (x : Handle) : Stays m (storage x) fun _ => Backed [] :=
  .of_ok rfl rfl hm

theorem stays_listPush (hm : m.Backed []) (args : Nat) : Stays m (listPush args) fun _ => Backed [] := by
  refine .bind (stays_twoArguments hm args) fun p _ hm => ?_
  refine .bind (stays_listHandle hm "push" p.1) fun x m₁ h₁ => ?_
  obtain ⟨hm₁, kind, vs, ho⟩ := h₁
  -- the list takes its element before that is counted
  refine .bind (Q := fun _ m' => m' = { m₁ with
    heap := m₁.heap.changeObject x (Object.mapElements fun vs => vs.push p.2) })
    (.of_ok (run_modifyStorage x _ m₁) rfl rfl) fun _ m₂ h₂ => .onHeap fun _ h' hr => ?_
  subst h₂
  obtain ⟨h₀, hr₀, rfl⟩ := Heap.exists_retain_of_changeObject hr
  refine (Heap.Backs.retain hm₁ hr₀).changeObject _ ((Heap.object?_retain hr₀ x).trans ho) ?_
  simp only [Object.mapElements, Object.children, Array.toList_push, List.filterMap_append,
    List.append_assoc]
  exact .refl _

theorem stays_listPop (hm : m.Backed []) (args : Nat) : Stays m (listPop args) fun _ => Backed [] := by
  refine .bind (stays_argument hm args) fun receiver _ hm => ?_
  refine .bind (stays_listHandle hm "pop" receiver) fun x m₁ h₁ => ?_
  obtain ⟨hm₁, kind, vs, ho⟩ := h₁
  refine .bind (Q := fun us m' => us = vs ∧ m' = m₁) (.of_ok rfl rfl ⟨by rw [ho]; rfl, rfl⟩) ?_
  rintro us m' ⟨rfl, rfl⟩
  refine .bind (Q := fun _ => Backed (Value.handles [us.back?.getD .null] ++ []))
    (.of_ok (run_modifyStorage x _ m') rfl (Heap.Backs.changeObject hm₁ _ ho ?_))
    fun _ _ hm => .bind (stays_release hm) fun _ _ hm => stays_push hm _
  rw [List.nil_append, List.append_nil, ← List.append_assoc]
  exact (handles_pop us).append_right m'.owners

theorem stays_listGet (hm : m.Backed []) (args : Nat) : Stays m (listGet args) fun _ => Backed [] := by
  refine .bind (stays_twoArguments hm args) fun p _ hm => ?_
  dsimp only
  split
  · exact stays_refuseArgument _ _ _
  · refine .bind (stays_listHandle hm "get" p.1) fun x _ h =>
      .bind (stays_storage h.1 x) fun us _ hm => ?_
    split
    · exact .fault
    · split
      · exact stays_push hm _
      · exact .fault

theorem stays_listLen (hm : m.Backed []) (args : Nat) : Stays m (listLen args) fun _ => Backed [] :=
  .bind (stays_argument hm args) fun receiver _ hm =>
    .bind (stays_listHandle hm "len" receiver) fun x _ h => .bind (stays_storage h.1 x) fun _ _ hm =>
    stays_push hm _

theorem stays_routine (hm : m.Backed []) (r : Routine) (args : Nat) :
    Stays m (routine r args) fun _ => Backed [] := by
  cases r with
  | print =>
    exact .bind (stays_popN hm args) fun _ _ hm => .get_bind (.modify rfl (hm.congr rfl rfl))
  | len =>
    refine .bind (stays_argument hm args) fun v _ hm => .get_bind ?_
    split
    · exact stays_push hm _
    · exact stays_push hm _
    · exact stays_push hm _
    · exact stays_refuseArgument _ _ v
  | str => exact .bind (stays_argument hm args) fun v _ hm => .get_bind (stays_pushNew hm)
  | array =>
    refine .bind (stays_argument hm args) fun size _ hm => ?_
    split
    · next n _ =>
      refine stays_pushNew ?_
      have hch : (Object.array (Array.replicate n .null)).children = [] := by
        simp [Object.children, List.filterMap_replicate, Value.handle?]
      rw [hch]
      exact hm
    · exact stays_refuseArgument _ _ size
  | gc =>
    exact .bind (stays_arguments hm 0 args) fun _ _ hm => .bind (stays_collectGarbage hm) fun _ _ hm =>
      stays_push hm _
  | listNew =>
    refine .bind (stays_arguments hm 0 args) fun _ _ hm => .bind (.get_bind ?_) fun x _ hm =>
      stays_push hm (.object x)
    split
    · exact stays_allocate [] hm
    · exact .fault
  | listPush => exact stays_listPush hm args
  | listPop => exact stays_listPop hm args
  | listGet => exact stays_listGet hm args
  | listLen => exact stays_listLen hm args
  | discard => exact .bind (stays_popN hm args) fun _ _ hm => .pure hm
  | leave => exact .pure hm

theorem stays_note (hm : m.Backed []) (e : Event) : Stays m (note e) fun _ => Backed [] := by
  have hnote := m.note_eq e
  refine .modify (by rw [hnote]) (hm.congr (by rw [hnote]) ?_)
  rw [hnote]
  rfl

theorem stays_callNative (hm : m.Backed []) (f : Native) (args : Nat) :
    Stays m (callNative f args) fun _ => Backed [] := by
  refine .bind (stays_operandCount hm) fun count _ hm => ?_
  split
  · exact .fault
  · refine .bind (stays_note hm _) fun _ _ hm => .bind (stays_routine hm f.routine args) fun _ _ hm =>
      .bind (stays_operandCount hm) fun _ _ hm => ?_
    split
    · exact stays_push hm .null
    · exact .pure hm

end Exec

end Scriptlet
