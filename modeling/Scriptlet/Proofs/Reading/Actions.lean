import Scriptlet.Proofs.Reading.Grammar

/-!
# What reading actions do

`Cursor.At`: what a cursor has in front of it. An action that succeeds is taken apart into its steps
(`of_bind`), each with one lemma that says what it found and where it left the cursor
(`Cursor.At.of_expect` and the like). Where the tokens are known, steps that succeed are put
together to an action that does (`Gives`).
-/

namespace Scriptlet.Program

open Grammar (Kinds next)

/-- The kinds of the tokens in front of a cursor, up to the end of the file, and what it knows
besides. -/
structure Cursor.At (pool : Pool) (types : List Symbol) (ks : Kinds) (c : Cursor) : Prop where
  pool : c.pool = pool
  types : c.types = types
  kinds : c.rest.map Token.kind = ks ++ [.endOfFile]
  ended : .endOfFile ∉ ks

/-- A cursor has passed tokens of `ks` that have a property, and has the others in front of it. -/
def Cursor.Past (pool : Pool) (types : List Symbol) (ks : Kinds) (P : Kinds → Prop) (c : Cursor) :
    Prop :=
  ∃ ks₁ ks₂, ks = ks₁ ++ ks₂ ∧ c.At pool types ks₂ ∧ P ks₁

section cursor

variable {pool : Pool} {types : List Symbol} {ks : Kinds} {k : Token.Kind Symbol} {c : Cursor}

theorem Cursor.At.current (h : c.At pool types ks) : c.current.kind = next ks := by
  have hkinds := h.kinds
  rw [Cursor.current]
  cases hr : c.rest with
  | nil => simp [hr] at hkinds
  | cons t ts =>
    rw [hr] at hkinds
    cases ks with
    | nil => exact (List.cons.inj hkinds).1
    | cons k ks => exact (List.cons.inj hkinds).1

theorem Cursor.At.advance (h : c.At pool types (k :: ks)) : c.advance.At pool types ks := by
  have hkinds := h.kinds
  unfold Cursor.advance
  cases hr : c.rest with
  | nil => simp [hr] at hkinds
  | cons t ts =>
    rw [hr] at hkinds
    obtain ⟨rfl, hts⟩ := List.cons.inj hkinds
    dsimp only
    have ht : t.kind ≠ .endOfFile := fun hk => h.ended (hk ▸ List.mem_cons_self)
    rw [if_neg ht]
    exact ⟨h.pool, h.types, hts, fun hmem => h.ended (List.mem_cons_of_mem _ hmem)⟩

theorem Cursor.At.declareType (h : c.At pool types ks) (name : Symbol) :
    Cursor.At pool (name :: types) ks { c with types := name :: c.types } :=
  ⟨h.pool, congrArg (name :: ·) h.types, h.kinds, h.ended⟩

/-- A token that is seen is in front of the cursor, unless it is the end of the file. -/
theorem Cursor.At.of_current (h : c.At pool types ks) (hc : c.current.kind = k)
    (hk : k ≠ .endOfFile) : ∃ ks', ks = k :: ks' ∧ c.advance.At pool types ks' := by
  rw [h.current] at hc
  cases ks with
  | nil => exact absurd hc.symm hk
  | cons k' ks' =>
    cases hc
    exact ⟨ks', rfl, h.advance⟩

/-- Where the end of the file is seen, all tokens were read. -/
theorem Cursor.At.eq_nil (h : c.At pool types ks) (hc : c.current.kind = .endOfFile) : ks = [] := by
  rw [h.current] at hc
  cases ks with
  | nil => rfl
  | cons k ks => exact absurd (hc ▸ List.mem_cons_self) h.ended

end cursor

/-! ## Running actions -/

section actions

open Read

variable {α β : Type} {x : Read α} {f : α → Read β} {c c' : Cursor} {a : α} {b : β}
  {k : Token.Kind Symbol} {r : β × Cursor}

/-- An action that succeeds consists of two that do. -/
theorem of_bind (h : (x >>= f) c = .ok r) : ∃ a c', x c = .ok (a, c') ∧ f a c' = .ok r := by
  change Except.bind (x c) (fun p => f p.1 p.2) = _ at h
  cases hx : x c with
  | error e =>
    rw [hx] at h
    cases h
  | ok p =>
    rw [hx] at h
    exact ⟨p.1, p.2, rfl, h⟩

theorem bind_of (h : x c = .ok (a, c')) : (x >>= f) c = f a c' := by
  change Except.bind (x c) (fun p => f p.1 p.2) = _
  rw [h]
  rfl

theorem get_bind (f : Cursor → Read β) (c : Cursor) : (get >>= f : Read β) c = f c c := rfl

theorem current_bind (f : Token Symbol → Read β) (c : Cursor) :
    (Read.current >>= f) c = f c.current c := rfl

theorem currentSpan_bind (f : Span → Read β) (c : Cursor) :
    (currentSpan >>= f) c = f c.current.span c := rfl

theorem spanFrom_bind (start : Span) (f : Span → Read β) (c : Cursor) :
    (spanFrom start >>= f) c = f (start.merge c.last) c := rfl

theorem advance_bind (f : Unit → Read β) (c : Cursor) :
    (advance >>= f) c = f () c.advance := rfl

theorem declareType_bind (name : Symbol) (f : Unit → Read β) (c : Cursor) :
    (declareType name >>= f) c = f () { c with types := name :: c.types } := rfl

theorem sees_bind (k : Token.Kind Symbol) (f : Bool → Read β) (c : Cursor) :
    (sees k >>= f) c = f (decide (c.current.kind = k)) c := rfl

theorem accept_eq (k : Token.Kind Symbol) (c : Cursor) :
    accept k c = if c.current.kind = k then .ok (true, c.advance) else .ok (false, c) := by
  rw [accept, sees_bind]
  split
  · next h => rw [if_pos (of_decide_eq_true h)]; rfl
  · next h => rw [if_neg fun hk => h (decide_eq_true hk)]; rfl

theorem accept_bind (k : Token.Kind Symbol) (f : Bool → Read β) (c : Cursor) :
    (accept k >>= f) c = if c.current.kind = k then f true c.advance else f false c := by
  split
  · next h => exact bind_of (by rw [accept_eq, if_pos h])
  · next h => exact bind_of (by rw [accept_eq, if_neg h])

theorem refuse_ne (cause : Cause) (span : Span) : (refuse cause span : Read α) c ≠ .ok (a, c') :=
  fun h => by cases h

theorem exhausted_ne : (Read.exhausted : Read α) c ≠ .ok (a, c') := fun h => by cases h

theorem refuseCurrent_ne (expected : String) :
    (refuseCurrent expected : Read α) c ≠ .ok (a, c') := by
  unfold refuseCurrent
  rw [get_bind]
  cases c.current.kind with
  | endOfFile => exact refuse_ne _ _
  | name symbol => exact refuse_ne _ _
  | _ => exact refuse_ne _ _

theorem expect_of (k : Token.Kind Symbol) (h : c.current.kind = k) :
    expect k c = .ok ((), c.advance) := by
  rw [expect, sees_bind, if_pos (decide_eq_true h)]
  rfl

theorem expectName_of {n : Symbol} (h : c.current.kind = .name n) :
    expectName c = .ok (n, c.advance) := by
  rw [expectName, current_bind, h]
  rfl

end actions

/-! ## The head of a function -/

section function

open Read

theorem ite_bind {α β : Type} (b : Bool) (x y : Read α) (f : α → Read β) :
    (if b = true then x else y) >>= f = if b = true then x >>= f else y >>= f := by
  split <;> rfl

/-- The parameters of a function. -/
def readParamList (n : Nat) : Read (List Binder) := do
  if ← sees (sep .rightParen) then return [] else readParams n

/-- The kind of what a function gives back. -/
def readResult : Read (Option Annotation) := do
  if ← accept .arrow then return some (← readAnnotation) else return none

theorem functionDeclaration_eq (n : Nat) :
    functionDeclaration n = (do
      let start ← currentSpan
      expect (kw .func)
      let name ← expectName
      expect (sep .leftParen)
      let params ← readParamList n
      expect (sep .rightParen)
      let result ← readResult
      let body ← block n
      let span ← spanFrom start
      return .function { name, params, result, body, span } span) := by
  simp only [functionDeclaration, readParamList, readResult, bind_assoc, ite_bind, pure_bind,
    bind_map_left]

end function

/-! ## What was found -/

namespace Cursor.At

open Read

variable {pool : Pool} {types : List Symbol} {ks : Kinds} {c : Cursor} {α : Type} {r : α × Cursor}

theorem of_expect {k : Token.Kind Symbol} {f : Unit → Read α} (hc : c.At pool types ks)
    (h : (expect k >>= f) c = .ok r) (hk : k ≠ .endOfFile) :
    ∃ ks', ks = k :: ks' ∧ c.advance.At pool types ks' ∧ f () c.advance = .ok r := by
  by_cases hcur : c.current.kind = k
  · obtain ⟨ks', hks, hat⟩ := hc.of_current hcur hk
    rw [bind_of (expect_of k hcur)] at h
    exact ⟨ks', hks, hat, h⟩
  · obtain ⟨u, c', hx, -⟩ := of_bind h
    rw [expect, sees_bind, if_neg fun hd => hcur (of_decide_eq_true hd)] at hx
    exact absurd hx (refuseCurrent_ne _)

theorem of_expectName {f : Symbol → Read α} (hc : c.At pool types ks)
    (h : (expectName >>= f) c = .ok r) :
    ∃ n ks', ks = .name n :: ks' ∧ c.advance.At pool types ks' ∧ f n c.advance = .ok r := by
  obtain ⟨n, c', hx, hf⟩ := of_bind h
  cases hcur : c.current.kind with
  | name symbol =>
    obtain ⟨ks', hks, hat⟩ := hc.of_current hcur fun h => by cases h
    rw [expectName_of hcur] at hx
    cases hx
    exact ⟨n, ks', hks, hat, hf⟩
  | _ =>
    rw [expectName, current_bind, hcur] at hx
    exact absurd hx (refuseCurrent_ne _)

theorem sees {k : Token.Kind Symbol} {x y : Read α} (hc : c.At pool types ks) (hk : next ks = k) :
    (Read.sees k >>= fun b => if b = true then x else y) c = x c := by
  have hcur : c.current.kind = k := hc.current.trans hk
  rw [sees_bind, if_pos (decide_eq_true hcur)]

theorem not_sees {k : Token.Kind Symbol} {x y : Read α} (hc : c.At pool types ks)
    (hk : next ks ≠ k) : (Read.sees k >>= fun b => if b = true then x else y) c = y c := by
  have hcur : c.current.kind ≠ k := hc.current ▸ hk
  rw [sees_bind, if_neg fun hd => hcur (of_decide_eq_true hd)]

theorem sees_or {k k' : Token.Kind Symbol} {x y : Read α} (hc : c.At pool types ks)
    (hk : next ks = k) :
    (Read.sees k >>= fun b => Read.sees k' >>= fun b' => if (b || b') = true then x else y) c =
      x c := by
  have hcur : c.current.kind = k := hc.current.trans hk
  rw [sees_bind, sees_bind, decide_eq_true hcur, Bool.true_or, if_pos rfl]

theorem not_sees_or {k k' : Token.Kind Symbol} {x y : Read α} (hc : c.At pool types ks)
    (hk : next ks ≠ k) (hk' : next ks ≠ k') :
    (Read.sees k >>= fun b => Read.sees k' >>= fun b' => if (b || b') = true then x else y) c =
      y c := by
  have hcur : c.current.kind ≠ k := hc.current ▸ hk
  have hcur' : c.current.kind ≠ k' := hc.current ▸ hk'
  rw [sees_bind, sees_bind, decide_eq_false hcur, decide_eq_false hcur', Bool.or_self,
    if_neg Bool.false_ne_true]

theorem accept {k : Token.Kind Symbol} {x y : Read α} (hc : c.At pool types (k :: ks)) :
    (Read.accept k >>= fun b => if b = true then x else y) c = x c.advance := by
  have hcur : c.current.kind = k := hc.current
  rw [accept_bind, if_pos hcur, if_pos rfl]

theorem not_accept {k : Token.Kind Symbol} {x y : Read α} (hc : c.At pool types ks)
    (hk : next ks ≠ k) : (Read.accept k >>= fun b => if b = true then x else y) c = y c := by
  have hcur : c.current.kind ≠ k := hc.current ▸ hk
  rw [accept_bind, if_neg hcur, if_neg Bool.false_ne_true]

theorem of_accept {k : Token.Kind Symbol} {x y : Read α} (hc : c.At pool types ks)
    (h : (Read.accept k >>= fun b => if b = true then x else y) c = .ok r) (hk : k ≠ .endOfFile) :
    (∃ ks', ks = k :: ks' ∧ c.advance.At pool types ks' ∧ x c.advance = .ok r) ∨
      next ks ≠ k ∧ y c = .ok r := by
  by_cases hcur : c.current.kind = k
  · obtain ⟨ks', rfl, hat⟩ := hc.of_current hcur hk
    exact .inl ⟨ks', rfl, hat, hc.accept.symm.trans h⟩
  · have hnext : next ks ≠ k := hc.current ▸ hcur
    exact .inr ⟨hnext, (hc.not_accept hnext).symm.trans h⟩

end Cursor.At

/-! ## Actions that succeed -/

/-- An action succeeds in front of known tokens: its result has a property, and the cursor is left
in front of `r`. -/
def Gives {α : Type} (pool : Pool) (types : List Symbol) (x : Read α) (c : Cursor) (r : Kinds)
    (P : α → Prop) : Prop :=
  ∃ a c', x c = .ok (a, c') ∧ c'.At pool types r ∧ P a

namespace Gives

open Read

variable {pool : Pool} {types types' : List Symbol} {ks r : Kinds} {c : Cursor} {α β : Type}
  {k : Token.Kind Symbol} {P : β → Prop}

theorem pure {b : β} (hc : c.At pool types r) (hb : P b) : Gives pool types (pure b) c r P :=
  ⟨b, c, rfl, hc, hb⟩

theorem of_eq {x y : Read β} {c' : Cursor} (h : x c = y c') (hy : Gives pool types y c' r P) :
    Gives pool types x c r P := by
  unfold Gives
  rw [h]
  exact hy

theorem bind {x : Read α} {f : α → Read β} {Q : α → Prop} (hx : Gives pool types' x c ks Q)
    (hf : ∀ a c', Q a → c'.At pool types' ks → Gives pool types (f a) c' r P) :
    Gives pool types (x >>= f) c r P := by
  obtain ⟨a, c', hx, hat, ha⟩ := hx
  exact .of_eq (bind_of hx) (hf a c' ha hat)

theorem expect {f : Unit → Read β} (hc : c.At pool types' (k :: ks))
    (hf : c.advance.At pool types' ks → Gives pool types (f ()) c.advance r P) :
    Gives pool types (Read.expect k >>= f) c r P :=
  .of_eq (bind_of (expect_of k hc.current)) (hf hc.advance)

theorem expectName {n : Symbol} {f : Symbol → Read β} (hc : c.At pool types' (.name n :: ks))
    (hf : c.advance.At pool types' ks → Gives pool types (f n) c.advance r P) :
    Gives pool types (Read.expectName >>= f) c r P :=
  .of_eq (bind_of (expectName_of hc.current)) (hf hc.advance)

theorem accept {x y : Read β} (hc : c.At pool types' (k :: ks))
    (hx : c.advance.At pool types' ks → Gives pool types x c.advance r P) :
    Gives pool types (Read.accept k >>= fun b => if b = true then x else y) c r P :=
  .of_eq hc.accept (hx hc.advance)

theorem not_accept {x y : Read β} (hc : c.At pool types' ks) (hk : next ks ≠ k)
    (hy : Gives pool types y c r P) :
    Gives pool types (Read.accept k >>= fun b => if b = true then x else y) c r P :=
  .of_eq (hc.not_accept hk) hy

theorem spanFrom {start : Span} {f : Span → Read β}
    (h : Gives pool types (f (start.merge c.last)) c r P) :
    Gives pool types (Read.spanFrom start >>= f) c r P := h

theorem currentSpan {f : Span → Read β} (h : Gives pool types (f c.current.span) c r P) :
    Gives pool types (Read.currentSpan >>= f) c r P := h

end Gives

end Scriptlet.Program
