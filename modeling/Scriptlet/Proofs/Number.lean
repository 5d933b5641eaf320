import Scriptlet.Number

/-!
# What numeric operators give

`Number.Yields`: the result of a numeric operator is a number, and its faults are a division by zero
or a refusal that names the operator.
-/

namespace Scriptlet.Number

/-- The outcome of an operator on numbers (module doc). -/
def Yields (op : Opcode) : Except Fault Value → Prop
  | .ok v => ∃ n : Number, v = n.toValue
  | .error f => f = .divisionByZero ∨ ∃ left right, f = .typeMismatch op.symbol left right

theorem handle?_toValue (n : Number) : n.toValue.handle? = none := by
  cases n <;> rfl

/-- The outcome of an operator on one kind of numbers. -/
theorem yields_map {α : Type} {op : Opcode} {r : Except Fault α} {f : α → Value}
    (hf : ∀ a, ∃ n : Number, f a = n.toValue)
    (hr : ∀ e, r = .error e → e = .divisionByZero ∨
      ∃ left right, e = .typeMismatch op.symbol left right) : Yields op (r.map f) := by
  cases r with
  | ok a => exact hf a
  | error e => exact hr e rfl

theorem wrapping_error {α : Type} [Add α] [Sub α] [Mul α] [Div α] [Mod α] [OfNat α 0]
    [DecidableEq α] {op : Opcode} {a b : α} {e : Fault} (h : wrapping op a b = .error e) :
    e = .divisionByZero ∨ ∃ left right, e = .typeMismatch op.symbol left right := by
  unfold wrapping at h
  split at h
  · cases h
  · cases h
  · cases h
  · split at h <;> cases h
    exact .inl rfl
  · split at h <;> cases h
    exact .inl rfl
  · cases h
    exact .inr ⟨_, _, rfl⟩

theorem floating_error {op : Opcode} {x y : Single} {e : Fault} (h : floating op x y = .error e) :
    ∃ left right, e = .typeMismatch op.symbol left right := by
  unfold floating at h
  split at h <;> cases h
  exact ⟨_, _, rfl⟩

theorem bits_error {α : Type} [AndOp α] [OrOp α] [XorOp α] [ShiftLeft α] [ShiftRight α]
    {refusal : Fault} {op : Opcode} {a b : α} {e : Fault} (h : bits refusal op a b = .error e) :
    e = refusal := by
  unfold bits at h
  split at h <;> cases h
  rfl

theorem arithmetic_yields (op : Opcode) (a b : Number) : Yields op (arithmetic op a b) := by
  unfold arithmetic
  split
  · exact yields_map (fun x => ⟨.float x, rfl⟩) fun _ he => .inr (floating_error he)
  · exact yields_map (fun n => ⟨.int n, rfl⟩) fun _ => wrapping_error
  · exact yields_map (fun n => ⟨.uint n, rfl⟩) fun _ => wrapping_error
  · exact yields_map (fun c => ⟨.char c, rfl⟩) fun _ => wrapping_error

theorem bitwise_yields (op : Opcode) (a b : Number) : Yields op (bitwise op a b) := by
  have hr : ∀ {e : Fault}, e = mismatch op a.kind b.kind → e = .divisionByZero ∨
      ∃ left right, e = .typeMismatch op.symbol left right :=
    fun he => .inr ⟨_, _, he⟩
  unfold bitwise
  dsimp only
  split
  · exact .inr ⟨_, _, rfl⟩
  · exact yields_map (fun n => ⟨.int n, rfl⟩) fun _ he => hr (bits_error he)
  · exact yields_map (fun n => ⟨.uint n, rfl⟩) fun _ he => hr (bits_error he)
  · exact yields_map (fun c => ⟨.char c, rfl⟩) fun _ he => hr (bits_error he)

end Scriptlet.Number
