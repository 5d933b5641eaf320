import Scriptlet.Proofs.Ideal.State
import Scriptlet.Proofs.Number

/-!
# What operations fault with

Some faults only malformed code has (`Fault.isMalformed`): it takes operands that are not there, or
reads slots that are not in use. The operations of a world never fault in such a way (`Clean`).
-/

namespace Scriptlet

/-- The faults of malformed code. -/
def Fault.isMalformed : Fault → Bool
  | .stackUnderflow | .invalidLocal _ | .invalidOpcode _ | .truncatedInstruction
  | .unknownNativeStructure _ => true
  | .typeMismatch op _ _ => op = "global"
  | _ => false

namespace Ideal

/-- An operation that does not fault as malformed code does. -/
def Clean {α : Type} (r : Except Fault α) : Prop := ∀ f, r = .error f → f.isMalformed = false

section clean

variable {α β : Type}

theorem clean_ok (a : α) : Clean (.ok a : Except Fault α) := fun f hf => by cases hf

theorem clean_error {f : Fault} (h : f.isMalformed = false) : Clean (.error f : Except Fault α) :=
  fun g hg => by
    cases hg
    exact h

theorem Clean.map {r : Except Fault α} (h : Clean r) (g : α → β) : Clean (r.map g) := by
  cases r with
  | ok a => exact clean_ok _
  | error f => exact clean_error (h f rfl)

theorem Clean.bind {r : Except Fault α} (h : Clean r) {k : α → Except Fault β}
    (hk : ∀ a, Clean (k a)) : Clean (r >>= k) := by
  cases r with
  | ok a => exact hk a
  | error f => exact clean_error (h f rfl)

theorem isMalformed_operands (op : BinaryOp) (a b : String) :
    (Fault.typeMismatch (Opcode.binary op).symbol a b).isMalformed = false := by
  cases op <;> rfl

variable (w : World)

theorem clean_order (op : BinaryOp) (a b : Val) : Clean (w.order op a b) := by
  unfold World.order
  split
  · exact clean_ok _
  · split
    · exact clean_ok _
    · exact clean_error (isMalformed_operands op _ _)

theorem Clean.of_yields {op : BinaryOp} {r : Except Fault Value} (h : Number.Yields (.binary op) r) :
    Clean r := by
  intro f hf
  subst hf
  obtain rfl | ⟨left, right, rfl⟩ := h
  · rfl
  · exact isMalformed_operands op left right

theorem clean_numeric (op : BinaryOp) (a b : Val) : Clean (w.numeric op a b) := by
  unfold World.numeric
  split
  · next x y _ _ =>
    refine Clean.map ?_ _
    have hbits := Clean.of_yields (Number.bitwise_yields (.binary op) x y)
    have harith := Clean.of_yields (Number.arithmetic_yields (.binary op) x y)
    cases op <;> first | exact hbits | exact harith
  · exact clean_error (isMalformed_operands op _ _)

theorem clean_binary (op : BinaryOp) (a b : Val) : Clean (w.binary op a b) := by
  unfold World.binary
  split
  · exact clean_ok _
  · exact clean_ok _
  · exact clean_ok _
  · exact clean_ok _
  · exact ((clean_order w _ a b).map _).map _
  · exact ((clean_order w _ a b).map _).map _
  · exact ((clean_order w _ a b).map _).map _
  · exact ((clean_order w _ a b).map _).map _
  · split
    · exact clean_ok _
    · exact (clean_numeric w _ a b).map _
  · exact (clean_numeric w _ a b).map _

theorem clean_unary (op : UnaryOp) (v : Val) : Clean (w.unary op v) := by
  have herror : ∀ left, Clean (.error (.typeMismatch op.spelling left "nothing") : Except Fault Val) :=
    fun left => clean_error (by cases op <;> rfl)
  cases op with
  | not => exact clean_ok _
  | negate =>
    unfold World.unary
    cases v.face <;> first | exact clean_ok _ | exact herror _
  | complement =>
    unfold World.unary
    cases v.face <;> first | exact clean_ok _ | exact herror _

theorem clean_elementAt (target index : Val) : Clean (w.elementAt target index) := by
  unfold World.elementAt
  split
  · exact clean_error rfl
  · split
    · exact clean_error rfl
    · split
      · split
        · exact clean_error rfl
        · next i length _ _ _ =>
          cases World.element? _ i.toNat with
          | none => exact clean_error rfl
          | some v => exact clean_ok _
      · exact clean_error rfl

theorem clean_elementPlace (target index : Val) : Clean (w.elementPlace target index) := by
  unfold World.elementPlace
  split
  · split
    · exact clean_error rfl
    · split
      · exact clean_error rfl
      · exact clean_ok _
    · exact clean_error rfl
  · exact clean_error rfl

theorem clean_fieldPlace (target : Val) (name : Symbol) : Clean (w.fieldPlace target name) := by
  unfold World.fieldPlace
  dsimp only
  split
  · exact clean_error rfl
  · split
    · exact clean_error rfl
    · split
      · exact clean_ok _
      · exact clean_error rfl
    · exact clean_error rfl

theorem clean_recordField (target : Val) (name : Symbol) : Clean (w.recordField target name) := by
  have hplace := clean_fieldPlace w target name
  unfold World.recordField
  split
  · next f hf => exact clean_error (hplace f hf)
  · split
    · next i _ _ fields _ =>
      cases fields[i]? with
      | none => exact clean_error rfl
      | some v => exact clean_ok _
    · exact clean_error rfl

theorem clean_fieldValue (target : Val) (name : Symbol) : Clean (w.fieldValue target name) := by
  unfold World.fieldValue
  split
  · exact clean_ok _
  · exact (clean_recordField w target name).map _

theorem clean_store (place : Ref × Nat) (v : Val) : Clean (w.store place v) := by
  unfold World.store
  split
  · exact clean_error rfl
  · split
    · exact clean_error rfl
    · split
      · exact clean_ok _
      · exact clean_error rfl

theorem clean_setElement (target index v : Val) : Clean (w.setElement target index v) := by
  have hplace := clean_elementPlace w target index
  unfold World.setElement
  split
  · next f hf => exact clean_error (hplace f hf)
  · exact clean_store w _ v

theorem clean_setField (target : Val) (name : Symbol) (v : Val) :
    Clean (w.setField target name v) := by
  have hplace := clean_fieldPlace w target name
  unfold World.setField
  split
  · next f hf => exact clean_error (hplace f hf)
  · exact clean_store w _ v

theorem clean_getGlobal (name : String) : Clean (w.getGlobal name) := by
  unfold World.getGlobal
  split
  · exact clean_ok _
  · exact clean_error rfl

/-! ### Natives -/

theorem clean_noArguments (vs : List Val) : Clean (World.noArguments vs) := by
  unfold World.noArguments
  split
  · exact clean_ok _
  · exact clean_error rfl

theorem clean_oneArgument (vs : List Val) : Clean (World.oneArgument vs) := by
  unfold World.oneArgument
  split
  · exact clean_ok _
  · exact clean_error rfl

theorem clean_twoArguments (vs : List Val) : Clean (World.twoArguments vs) := by
  unfold World.twoArguments
  split
  · exact clean_ok _
  · exact clean_error rfl

theorem clean_listOf (native : String) (v : Val) : Clean (w.listOf native v) := by
  unfold World.listOf
  split
  · split
    · exact clean_ok _
    · exact clean_error rfl
    · exact clean_error rfl
  · exact clean_error rfl

theorem clean_len (v : Val) : Clean (w.len v) := by
  unfold World.len
  split
  · exact clean_ok _
  · exact clean_ok _
  · exact clean_ok _
  · exact clean_error rfl

theorem clean_newArray (size : Val) : Clean (w.newArray size) := by
  unfold World.newArray
  split
  · exact clean_ok _
  · exact clean_error rfl

theorem clean_newList : Clean w.newList := by
  have hindex : registry.index? "List" = some 0 := by decide
  unfold World.newList
  rw [hindex]
  exact clean_ok _

theorem clean_listGet (receiver index : Val) : Clean (w.listGet receiver index) := by
  unfold World.listGet
  cases index.face.index? with
  | none => exact clean_error rfl
  | some i =>
    refine (clean_listOf w _ receiver).bind fun p => ?_
    dsimp only
    split
    · exact clean_error rfl
    · split
      · exact clean_ok _
      · exact clean_error rfl

theorem clean_routine (answer : Int32) (r : Routine) (vs : List Val) :
    Clean (w.routine answer r vs) := by
  cases r with
  | print => exact clean_ok _
  | len => exact (clean_oneArgument vs).bind fun v => ((clean_len w v).map _).map _
  | str => exact (clean_oneArgument vs).bind fun v => clean_ok _
  | array => exact (clean_oneArgument vs).bind fun v => (clean_newArray w v).map _
  | gc => exact (clean_noArguments vs).bind fun _ => clean_ok _
  | listNew => exact (clean_noArguments vs).bind fun _ => (clean_newList w).map _
  | listPush =>
    exact (clean_twoArguments vs).bind fun p => (clean_listOf w _ p.1).bind fun _ => clean_ok _
  | listPop =>
    exact (clean_oneArgument vs).bind fun v => (clean_listOf w _ v).bind fun _ => clean_ok _
  | listGet =>
    exact (clean_twoArguments vs).bind fun p => ((clean_listGet w p.1 p.2).map _).map _
  | listLen =>
    exact (clean_oneArgument vs).bind fun v => (clean_listOf w _ v).bind fun _ => clean_ok _
  | discard => exact clean_ok _
  | leave => exact clean_ok _

end clean

end Ideal

end Scriptlet
