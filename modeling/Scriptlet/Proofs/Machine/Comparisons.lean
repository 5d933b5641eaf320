import Scriptlet.Proofs.Machine.Actions
import Scriptlet.Proofs.Number.Integers

/-!
# Comparisons

Two values that are not floats are equal exactly if they have the same `Machine.identity`: numbers
of all kinds are the signed numbers with their bits, strings are their texts, and what is left is
itself. So equality is an equivalence (`equal_iff_identity`).

Where two such values have an order at all, one `Ordering` decides every comparison of them, in
either direction (`Machine.Ordered`); `comparisons_consistent` reads off what follows.
-/

namespace Scriptlet

/-! ## What equality looks at -/

/-- What equality sees of a value. -/
inductive Identity where
  | null
  | bool (b : Bool)
  | number (n : Int)
  | native (name : String)
  /-- A string is its text, any other object its handle. -/
  | object (o : String ⊕ Handle)
deriving DecidableEq, Repr

/-- The values that are not floats. -/
def Value.NotFloat (v : Value) : Prop := ∀ x, v ≠ .float x

/-- Promoted to their wider kind two integers agree exactly if they agree as signed numbers. -/
theorem IntKind.wrap_wider_eq_iff {i j : IntKind} {x y : Int} (hx : i.wrap x = x)
    (hy : j.wrap y = y) :
    (i.wider j).wrap x = (i.wider j).wrap y ↔ IntKind.int.wrap x = IntKind.int.wrap y := by
  cases hk : i.wider j with
  | int => exact Iff.rfl
  | uint => rw [wrap_eq_wrap_iff, wrap_eq_wrap_iff]; rfl
  | char =>
    obtain ⟨rfl, rfl⟩ : i = .char ∧ j = .char := by
      cases i <;> cases j <;> simp [IntKind.wider] at hk ⊢
    rw [wrap_eq_wrap_iff IntKind.int]
    simp only [IntKind.wrap, IntKind.width] at *
    omega

namespace Number

/-- A number that is not a float has a kind and a value. -/
theorem integer?_of_ofValue? {v : Value} {n : Number} (hv : v.NotFloat)
    (hn : ofValue? v = some n) : ∃ k x, n.integer? = some (k, x) := by
  cases v <;> cases hn
  · exact ⟨_, _, rfl⟩
  · exact ⟨_, _, rfl⟩
  · exact absurd rfl (hv _)
  · exact ⟨_, _, rfl⟩

end Number

namespace Machine

variable {m : Machine} {a b : Value}

/-- What equality sees of an object, also of one that is gone. -/
def textOrHandle (m : Machine) (x : Handle) : String ⊕ Handle :=
  (m.heap.string? (.object x)).elim (.inr x) .inl

/-- What equality sees of a value that is not a float. -/
def identity (m : Machine) : Value → Identity
  | .null | .float _ => .null
  | .bool b => .bool b
  | .int n => .number (IntKind.int.wrap n.toInt)
  | .uint n => .number (IntKind.int.wrap n.toNat)
  | .char c => .number (IntKind.int.wrap c.toNat)
  | .object x => .object (m.textOrHandle x)
  | .native f => .native f.name

theorem identity_of_integer? {n : Number} {k : IntKind} {x : Int} (ha : Number.ofValue? a = some n)
    (hn : n.integer? = some (k, x)) : m.identity a = .number (IntKind.int.wrap x) := by
  cases a <;> cases ha <;> cases hn <;> rfl

theorem identity_of_string? {s : String} (ha : m.heap.string? a = some s) :
    m.identity a = .object (.inl s) := by
  cases a <;> simp_all [identity, textOrHandle, Heap.string?, Value.handle?]

/-- Handles of objects that are not two strings. -/
theorem textOrHandle_eq_iff {x y : Handle}
    (hs : ∀ s t, m.heap.string? (.object x) = some s → m.heap.string? (.object y) = some t → False) :
    m.textOrHandle x = m.textOrHandle y ↔ x = y := by
  unfold textOrHandle
  constructor
  · cases hx : m.heap.string? (.object x) <;> cases hy : m.heap.string? (.object y)
    · simp
    · simp
    · simp
    · exact (hs _ _ hx hy).elim
  · rintro rfl
    rfl

/-- Values that are neither two numbers nor two strings. -/
theorem same_iff_identity (ha : a.NotFloat) (hb : b.NotFloat)
    (hn : ∀ x y, Number.ofValue? a = some x → Number.ofValue? b = some y → False)
    (hs : ∀ s t, m.heap.string? a = some s → m.heap.string? b = some t → False) :
    a.same b = true ↔ m.identity a = m.identity b := by
  cases a <;> cases b <;>
    simp_all [identity, Value.same, Number.ofValue?, Value.NotFloat, textOrHandle_eq_iff]

/-- Equality of values that are not floats is that of their identities. -/
theorem equal_iff_identity (ha : a.NotFloat) (hb : b.NotFloat) :
    m.equal a b = true ↔ m.identity a = m.identity b := by
  unfold equal
  split
  · rename_i p q hp hq
    obtain ⟨i, x, hx⟩ := Number.integer?_of_ofValue? ha hp
    obtain ⟨j, y, hy⟩ := Number.integer?_of_ofValue? hb hq
    rw [Number.compare_integers hx hy, identity_of_integer? hp hx, identity_of_integer? hq hy]
    simp [IntKind.wrap_wider_eq_iff (Number.wrap_of_integer? hx) (Number.wrap_of_integer? hy)]
  · rename_i hn
    split
    · rename_i s t hs ht
      rw [identity_of_string? hs, identity_of_string? ht]
      simp
    · rename_i hs
      exact same_iff_identity ha hb hn hs

/-- Equality of values that are not floats is an equivalence. -/
theorem equal_equivalence (m : Machine) :
    Equivalence fun a b : {v : Value // v.NotFloat} => m.equal a b = true where
  refl a := (equal_iff_identity a.2 a.2).2 rfl
  symm {a b} h := (equal_iff_identity b.2 a.2).2 ((equal_iff_identity a.2 b.2).1 h).symm
  trans {a b c} h h' := (equal_iff_identity a.2 c.2).2
    (((equal_iff_identity a.2 b.2).1 h).trans ((equal_iff_identity b.2 c.2).1 h'))

/-! ## What decides a comparison -/

/-- One ordering decides every comparison of two values (module doc). -/
structure Ordered (m : Machine) (a b : Value) (o : Ordering) : Prop where
  forth : ∀ op, m.order op a b = .ok (some o)
  back : ∀ op, m.order op b a = .ok (some o.swap)
  equal : m.equal a b = decide (o = .eq)

/-- Both values are numbers, or both are strings. -/
def Comparable (m : Machine) (a b : Value) : Prop :=
  ((Number.ofValue? a).isSome ∧ (Number.ofValue? b).isSome) ∨
    ((m.heap.string? a).isSome ∧ (m.heap.string? b).isSome)

theorem ofValue?_of_string? {s : String} (hs : m.heap.string? a = some s) :
    Number.ofValue? a = none := by
  cases a <;> simp_all [Number.ofValue?, Heap.string?, Value.handle?]

/-- There is no order only where the operands are refused. -/
theorem order_ok_iff {op : BinaryOp} : (∃ o, m.order op a b = .ok o) ↔ m.Comparable a b := by
  unfold order Comparable
  split
  · simp_all
  · rename_i hn
    split
    · simp_all
    · rename_i hs
      constructor
      · exact nofun
      · rintro (⟨hx, hy⟩ | ⟨hx, hy⟩)
        · exact (hn _ _ (Option.eq_some_of_isSome hx) (Option.eq_some_of_isSome hy)).elim
        · exact (hs _ _ (Option.eq_some_of_isSome hx) (Option.eq_some_of_isSome hy)).elim

theorem ordered_numbers (ha : a.NotFloat) (hb : b.NotFloat) {p q : Number}
    (hp : Number.ofValue? a = some p) (hq : Number.ofValue? b = some q) : ∃ o, m.Ordered a b o := by
  obtain ⟨i, x, hx⟩ := Number.integer?_of_ofValue? ha hp
  obtain ⟨j, y, hy⟩ := Number.integer?_of_ofValue? hb hq
  refine ⟨compare ((i.wider j).wrap x) ((i.wider j).wrap y), ?_, ?_, ?_⟩
  · simp [order, hp, hq, Number.compare_integers hx hy]
  · simp [order, hp, hq, Number.compare_integers hy hx, IntKind.wider_comm j i, Int.compare_swap]
  · simp [equal, hp, hq, Number.compare_integers hx hy]

theorem ordered_strings {s t : String} (hs : m.heap.string? a = some s)
    (ht : m.heap.string? b = some t) : ∃ o, m.Ordered a b o := by
  have hp : Number.ofValue? a = none := ofValue?_of_string? hs
  have hq : Number.ofValue? b = none := ofValue?_of_string? ht
  -- the order of texts is the library's order of strings
  have hback : compare t s = (compare s t).swap := Std.OrientedCmp.eq_swap
  have heq : compare s t = .eq ↔ s = t := Std.LawfulEqCmp.compare_eq_iff_eq
  have htext : ∀ s t, compareText s t = compare s t := fun _ _ => rfl
  refine ⟨compare s t, ?_, ?_, ?_⟩
  · simp [order, hp, hq, hs, ht, htext]
  · simp [order, hp, hq, hs, ht, htext, hback]
  · simp [equal, hp, hq, hs, ht, heq]

theorem ordered_of_comparable (ha : a.NotFloat) (hb : b.NotFloat) (h : m.Comparable a b) :
    ∃ o, m.Ordered a b o := by
  rcases h with ⟨hp, hq⟩ | ⟨hs, ht⟩
  · exact ordered_numbers ha hb (Option.eq_some_of_isSome hp) (Option.eq_some_of_isSome hq)
  · exact ordered_strings (Option.eq_some_of_isSome hs) (Option.eq_some_of_isSome ht)

/-- The operators that ask for an order. -/
def asksOrder : BinaryOp → Bool
  | .less | .greater | .lessEqual | .greaterEqual => true
  | _ => false

theorem run_binaryResult_order {op : BinaryOp} (hop : asksOrder op) (a b : Value) (m : Machine) :
    Exec.binaryResult op a b m =
      match m.order op a b with
      | .ok o => .ok (.bool (holds op o)) m
      | .error f => .error f m := by
  have hrun : ∀ r : Except Fault (Option Ordering),
      (do let o ← Exec.ofExcept r; return Value.bool (holds op o) : Exec Value) m =
        match r with
        | .ok o => .ok (.bool (holds op o)) m
        | .error f => .error f m := by
    intro r
    cases r <;> rfl
  cases op <;> cases hop <;> exact hrun _

/-- The machine answers a comparison with `c`, and is left as it was. -/
def Answers (m : Machine) (op : BinaryOp) (a b : Value) (c : Bool) : Prop :=
  Exec.binaryResult op a b m = .ok (.bool c) m

theorem Ordered.answers {o : Ordering} (h : m.Ordered a b o) {op : BinaryOp} (hop : asksOrder op) :
    m.Answers op a b (holds op (some o)) := by
  rw [Answers, run_binaryResult_order hop, h.forth]

theorem Ordered.answers_back {o : Ordering} (h : m.Ordered a b o) {op : BinaryOp}
    (hop : asksOrder op) : m.Answers op b a (holds op (some o.swap)) := by
  rw [Answers, run_binaryResult_order hop, h.back]

/-- `<` does not fault exactly on two numbers and on two strings. -/
theorem less_ok_iff : (∃ v k, Exec.binaryResult .less a b m = .ok v k) ↔ m.Comparable a b := by
  rw [← @order_ok_iff m a b .less, run_binaryResult_order rfl]
  cases m.order .less a b <;> simp

/-- Exactly one of `<`, `==` and `>` holds of `a` and `b`, `a < b` says the same as `b > a`, and
`<=`, `>=`, `!=` are the negations of `>`, `<`, `==`. -/
def Consistent (m : Machine) (a b : Value) : Prop :=
  ∃ lt eq gt : Bool, [lt, eq, gt].count true = 1 ∧
    m.Answers .less a b lt ∧ m.Answers .equal a b eq ∧ m.Answers .greater a b gt ∧
    m.Answers .greater b a lt ∧ m.Answers .less b a gt ∧
    m.Answers .lessEqual a b (!gt) ∧ m.Answers .greaterEqual a b (!lt) ∧
    m.Answers .notEqual a b (!eq)

theorem Ordered.consistent {o : Ordering} (h : m.Ordered a b o) : m.Consistent a b := by
  have heq : m.Answers .equal a b (decide (o = .eq)) := by
    rw [← h.equal]
    rfl
  have hne : m.Answers .notEqual a b (!decide (o = .eq)) := by
    rw [← h.equal]
    rfl
  refine ⟨decide (o = .lt), decide (o = .eq), decide (o = .gt), ?_, h.answers rfl, heq,
    h.answers rfl, ?_, ?_, ?_, ?_, hne⟩
  · cases o <;> rfl
  · cases o <;> exact h.answers_back rfl
  · cases o <;> exact h.answers_back rfl
  · cases o <;> exact h.answers rfl
  · cases o <;> exact h.answers rfl

/-- In every machine, equality of values that are not floats is an equivalence. On two such values
`<` does not fault exactly if they are two numbers or two strings, and then all their comparisons
agree with each other. -/
theorem comparisons_consistent (m : Machine) :
    (Equivalence fun a b : {v : Value // v.NotFloat} => m.equal a b = true) ∧
      ∀ a b : Value, a.NotFloat → b.NotFloat →
        ((∃ v k, Exec.binaryResult .less a b m = .ok v k) ↔ m.Comparable a b) ∧
        ((∃ v k, Exec.binaryResult .less a b m = .ok v k) → m.Consistent a b) := by
  refine ⟨equal_equivalence m, ?_⟩
  intro a b ha hb
  refine ⟨less_ok_iff, ?_⟩
  intro h
  obtain ⟨o, ho⟩ := ordered_of_comparable ha hb (less_ok_iff.1 h)
  exact ho.consistent

/-- An unsigned number and the signed one with the same bits. -/
theorem comparisons_consistent_mixed :
    (default : Machine).Consistent (.uint 4294967295) (.int (-1)) := by
  apply ((comparisons_consistent default).2 _ _ ?_ ?_).2 ⟨_, _, rfl⟩
  · intro x h
    cases h
  · intro x h
    cases h

end Machine

end Scriptlet
