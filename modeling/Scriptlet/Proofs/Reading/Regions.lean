import Scriptlet.Proofs.Reading.Actions

/-!
# Reading does not look at regions

Regions of source text end up in trees and in errors, but nothing depends on them: reading tokens
without their regions gives what reading them gives, without its regions. `Program.Bares f x y` says
so of two actions `x` and `y`, where `f` takes the regions off a result. It is shown for the families of
reading functions at once, by induction on their steps.

Main statement: `Program.read_congr`, tokens of the same kinds are read as the same program up to
regions, or refused for the same cause.
-/

namespace Scriptlet

/-! ## Tokens, cursors and errors without regions -/

/-- A token without its region. -/
def Token.bare {τ : Type} (t : Token τ) : Token τ := { t with span := {} }

/-- A cause without its place. -/
def Located.bare {ε : Type} (e : Located ε) : Located ε := { e with span := {} }

/-- A result without regions: of what was asked for, or of the error. -/
def bareResult {ε α β : Type} (f : α → β) : Except (Located ε) α → Except (Located ε) β
  | .ok a => .ok (f a)
  | .error e => .error e.bare

theorem Expr.span_bare (e : Expr) : e.bare.span = {} := by
  cases e <;> rfl

theorem Expr.withSpan_bare (e : Expr) : e.bare.withSpan {} = e.bare := by
  cases e <;> rfl

theorem Expr.isAssignable_bare (e : Expr) : e.bare.isAssignable = e.isAssignable := by
  cases e <;> rfl

namespace Program

open Read

/-- A cursor without regions. -/
def Cursor.bare (c : Cursor) : Cursor := { c with rest := c.rest.map Token.bare, last := {} }

theorem Cursor.current_bare (c : Cursor) : c.bare.current = c.current.bare := by
  unfold Cursor.current Cursor.bare
  cases c.rest <;> rfl

theorem Cursor.advance_bare (c : Cursor) : c.bare.advance = c.advance.bare := by
  unfold Cursor.advance
  cases h : c.rest with
  | nil => simp [Cursor.bare, h]
  | cons t ts =>
    have hbare : c.bare.rest = t.bare :: ts.map Token.bare := by simp [Cursor.bare, h]
    rw [hbare]
    by_cases ht : t.kind = .endOfFile
    · have ht' : t.bare.kind = .endOfFile := ht
      simp only [ht, ht', if_true]
    · have ht' : t.bare.kind ≠ .endOfFile := ht
      simp only [ht, ht', if_false]
      rfl

/-- Taking off the regions commutes with an action. -/
def Bares {α : Type} (f : α → α) (x y : Read α) : Prop :=
  ∀ c, y c.bare = bareResult (fun r => (f r.1, r.2.bare)) (x c)

/-! ## Actions -/

section actions

variable {α β : Type} {f : α → α} {g : β → β}

theorem Bares.pure {a b : α} (h : f a = b) : Bares f (pure a) (pure b) := fun c => by
  subst h
  rfl

theorem Bares.bind {x y : Read α} {k k' : α → Read β} (h : Bares f x y)
    (hk : ∀ a, Bares g (k a) (k' (f a))) : Bares g (x >>= k) (y >>= k') := fun c => by
  change Except.bind (y c.bare) _ = bareResult _ (Except.bind (x c) _)
  rw [h c]
  cases x c with
  | error e => rfl
  | ok r => exact hk r.1 r.2

theorem Bares.map {x y : Read α} {k : α → β} (h : Bares f x y) (hk : ∀ a, g (k a) = k (f a)) :
    Bares g (k <$> x) (k <$> y) := fun c => by
  change Except.map _ (y c.bare) = bareResult _ (Except.map _ (x c))
  rw [h c]
  cases x c with
  | error e => rfl
  | ok r =>
    simp only [bareResult, Except.map, hk]

theorem Bares.ite {p : Prop} [Decidable p] {x y x' y' : Read α} (hx : Bares f x x')
    (hy : Bares f y y') : Bares f (if p then x else y) (if p then x' else y') := by
  split
  · exact hx
  · exact hy

theorem bares_get : Bares Cursor.bare get get := fun _ => rfl

theorem bares_current : Bares Token.bare Read.current Read.current := fun c => by
  change Except.ok (c.bare.current, c.bare) = _
  rw [c.current_bare]
  rfl

theorem bares_currentSpan : Bares (fun _ => {}) currentSpan currentSpan := fun c => by
  change Except.ok (c.bare.current.span, c.bare) = _
  rw [c.current_bare]
  rfl

theorem bares_spanFrom (start : Span) : Bares (fun _ => {}) (spanFrom start) (spanFrom {}) :=
  fun _ => rfl

theorem bares_advance : Bares id advance advance := fun c => by
  change Except.ok ((), c.bare.advance) = _
  rw [c.advance_bare]
  rfl

theorem bares_declareType (name : Symbol) : Bares id (declareType name) (declareType name) :=
  fun _ => rfl

theorem bares_sees (k : Token.Kind Symbol) : Bares id (sees k) (sees k) := fun c => by
  change Except.ok (decide (c.bare.current.kind = k), c.bare) = _
  rw [c.current_bare]
  rfl

theorem bares_refuse (cause : Cause) (span : Span) : Bares f (refuse cause span) (refuse cause {}) :=
  fun _ => rfl

theorem bares_exhausted : Bares f Read.exhausted Read.exhausted :=
  bares_currentSpan.bind fun span => bares_refuse .exhausted span

theorem bares_refuseCurrent (expected : String) :
    Bares f (refuseCurrent expected) (refuseCurrent expected) := by
  refine bares_get.bind fun c => ?_
  rw [c.current_bare]
  unfold Token.bare
  cases c.current.kind with
  | endOfFile => exact bares_refuse _ _
  | name symbol => exact bares_refuse _ _
  | _ => exact bares_refuse _ _

theorem bares_accept (k : Token.Kind Symbol) : Bares id (accept k) (accept k) := by
  refine (bares_sees k).bind fun b => .ite ?_ (.pure rfl)
  exact bares_advance.bind fun _ => .pure rfl

theorem bares_expect (k : Token.Kind Symbol) : Bares id (expect k) (expect k) :=
  (bares_sees k).bind fun _ => .ite bares_advance (bares_refuseCurrent _)

theorem bares_expectName : Bares id expectName expectName := by
  refine bares_current.bind fun t => ?_
  unfold Token.bare
  cases t.kind with
  | name symbol => exact bares_advance.bind fun _ => .pure rfl
  | _ => exact bares_refuseCurrent _

end actions

/-! ## Annotations and binders -/

theorem bares_readKindName : Bares id readAnnotation readAnnotation :=
  bares_expectName.bind fun _ => bares_get.bind fun _ => .pure rfl

theorem bares_readOptionalAnnotation : Bares id readOptionalAnnotation readOptionalAnnotation :=
  (bares_accept _).bind fun _ => .ite bares_readKindName (.pure rfl)

theorem bares_readBinder : Bares Binder.bare readBinder readBinder :=
  bares_currentSpan.bind fun _ => bares_expectName.bind fun _ =>
    bares_readOptionalAnnotation.bind fun _ => .pure rfl

theorem bares_readParams (n : Nat) : Bares (List.map Binder.bare) (readParams n) (readParams n) := by
  induction n with
  | zero => exact bares_exhausted
  | succ n ih =>
    refine bares_readBinder.bind fun b => (bares_accept _).bind fun _ => .ite ?_ (.pure rfl)
    exact ih.bind fun bs => .pure rfl

theorem bares_readFields (n : Nat) : Bares (List.map Binder.bare) (readFields n) (readFields n) := by
  induction n with
  | zero => exact bares_exhausted
  | succ n ih =>
    refine (bares_sees _).bind fun _ => (bares_sees _).bind fun _ => .ite (.pure rfl) ?_
    refine bares_readBinder.bind fun b => (bares_accept _).bind fun _ => .ite ?_ ?_
    · exact ih.bind fun bs => .pure rfl
    · refine (bares_accept _).bind fun _ => .ite ?_ (.pure rfl)
      exact ih.bind fun bs => .pure rfl

/-! ## Expressions -/

/-- Taking off the regions commutes with the functions that read expressions in a number of steps. -/
structure BaresExpressions (n : Nat) : Prop where
  binary : ∀ level, Bares Expr.bare (binary n level) (binary n level)
  binaryRest : ∀ level left,
    Bares Expr.bare (binaryRest n level left) (binaryRest n level left.bare)
  unary : Bares Expr.bare (unary n) (unary n)
  chain : Bares Expr.bare (chain n) (chain n)
  chainRest : ∀ object, Bares Expr.bare (chainRest n object) (chainRest n object.bare)
  arguments : Bares Expr.bareAll (arguments n) (arguments n)
  argumentList : Bares Expr.bareAll (argumentList n) (argumentList n)
  items : Bares Expr.bareAll (items n) (items n)
  primary : Bares Expr.bare (primary n) (primary n)

section expressions

variable {n : Nat}

theorem bares_binaryRest (ih : BaresExpressions n) (level : Nat) (left : Expr) :
    Bares Expr.bare (binaryRest (n + 1) level left) (binaryRest (n + 1) level left.bare) := by
  rw [binaryRest, binaryRest]
  refine bares_current.bind fun t => ?_
  unfold Token.bare
  cases t.kind with
  | operator symbol =>
    dsimp only
    cases symbol.binary? with
    | none => exact .pure rfl
    | some op =>
      refine .ite (.pure rfl) (bares_advance.bind fun _ => ?_)
      refine (ih.binary (op.level + 1)).bind fun right => ?_
      rw [left.span_bare, right.span_bare]
      exact ih.binaryRest level (.binary op left right (left.span.merge right.span))
  | _ => exact .pure rfl

theorem bares_unary (ih : BaresExpressions n) : Bares Expr.bare (unary (n + 1)) (unary (n + 1)) := by
  rw [unary]
  refine bares_current.bind fun t => ?_
  unfold Token.bare
  cases t.kind with
  | operator symbol =>
    dsimp only
    cases symbol.unary? with
    | none => exact ih.chain
    | some op =>
      refine bares_advance.bind fun _ => ih.unary.bind fun operand => .pure ?_
      rw [operand.span_bare]
      rfl
  | _ => exact ih.chain

theorem bares_chainRest (ih : BaresExpressions n) (object : Expr) :
    Bares Expr.bare (chainRest (n + 1) object) (chainRest (n + 1) object.bare) := by
  rw [chainRest, chainRest, object.span_bare]
  refine (bares_accept _).bind fun _ => .ite ?_ ?_
  · refine ih.arguments.bind fun args => (bares_spanFrom _).bind fun span => ?_
    exact ih.chainRest (.call object args span)
  refine (bares_accept _).bind fun _ => .ite ?_ ?_
  · refine (ih.binary 1).bind fun index => (bares_expect _).bind fun _ => ?_
    exact (bares_spanFrom _).bind fun span => ih.chainRest (.index object index span)
  refine (bares_accept _).bind fun _ => .ite ?_ (.pure rfl)
  refine bares_expectName.bind fun name => (bares_accept _).bind fun _ => .ite ?_ ?_
  · refine ih.arguments.bind fun args => (bares_spanFrom _).bind fun span => ?_
    exact ih.chainRest (.methodCall object name args span)
  · exact (bares_spanFrom _).bind fun span => ih.chainRest (.field object name span)

theorem bares_arguments (ih : BaresExpressions n) :
    Bares Expr.bareAll (arguments (n + 1)) (arguments (n + 1)) := by
  refine (bares_sees _).bind fun _ => .ite ?_ ?_
  · exact bares_advance.bind fun _ => .pure rfl
  · exact ih.argumentList.bind fun args => (bares_expect _).bind fun _ => .pure rfl

theorem bares_argumentList (ih : BaresExpressions n) :
    Bares Expr.bareAll (argumentList (n + 1)) (argumentList (n + 1)) := by
  refine (ih.binary 1).bind fun e => (bares_accept _).bind fun _ => .ite ?_ (.pure rfl)
  exact ih.argumentList.bind fun es => .pure rfl

theorem bares_items (ih : BaresExpressions n) :
    Bares Expr.bareAll (items (n + 1)) (items (n + 1)) := by
  refine (bares_sees _).bind fun _ => .ite (.pure rfl) ?_
  refine (ih.binary 1).bind fun e => (bares_accept _).bind fun _ => .ite ?_ (.pure rfl)
  exact ih.items.bind fun es => .pure rfl

theorem bares_primary (ih : BaresExpressions n) :
    Bares Expr.bare (primary (n + 1)) (primary (n + 1)) := by
  refine bares_current.bind fun t => ?_
  unfold Token.bare
  cases t.kind with
  | literal value => exact bares_advance.bind fun _ => .pure rfl
  | name symbol =>
    refine bares_advance.bind fun _ => bares_get.bind fun c => (bares_sees _).bind fun _ => .ite ?_ ?_
    · refine bares_advance.bind fun _ => ih.arguments.bind fun args => ?_
      exact (bares_spanFrom _).bind fun _ => .pure rfl
    · exact .pure rfl
  | separator mark =>
    cases mark with
    | leftParen =>
      refine bares_advance.bind fun _ => (ih.binary 1).bind fun e => ?_
      refine (bares_expect _).bind fun _ => (bares_spanFrom _).bind fun span => .pure ?_
      rw [Expr.bare_withSpan, e.withSpan_bare]
    | leftBracket =>
      refine bares_advance.bind fun _ => ih.items.bind fun es => ?_
      exact (bares_expect _).bind fun _ => (bares_spanFrom _).bind fun _ => .pure rfl
    | _ => exact bares_refuseCurrent _
  | _ => exact bares_refuseCurrent _

end expressions

theorem bares_expressions (n : Nat) : BaresExpressions n := by
  induction n with
  | zero =>
    exact ⟨fun _ => bares_exhausted, fun _ _ => bares_exhausted, bares_exhausted, bares_exhausted,
      fun _ => bares_exhausted, bares_exhausted, bares_exhausted, bares_exhausted, bares_exhausted⟩
  | succ n ih =>
    exact {
      binary := fun level => ih.unary.bind fun left => ih.binaryRest level left
      binaryRest := bares_binaryRest ih
      unary := bares_unary ih
      chain := ih.primary.bind fun first => ih.chainRest first
      chainRest := bares_chainRest ih
      arguments := bares_arguments ih
      argumentList := bares_argumentList ih
      items := bares_items ih
      primary := bares_primary ih }

theorem bares_expression (n : Nat) : Bares Expr.bare (expression n) (expression n) :=
  (bares_expressions n).binary 1

/-! ## Statements -/

theorem bares_simpleStatement (n : Nat) : Bares Stmt.bare (simpleStatement n) (simpleStatement n) := by
  refine bares_currentSpan.bind fun start => (bares_expression n).bind fun e => ?_
  refine bares_current.bind fun t => ?_
  rw [e.isAssignable_bare, e.span_bare]
  unfold Token.bare
  dsimp only
  split
  · next op _ =>
    refine .ite ?_ (bares_refuse _ _)
    refine bares_advance.bind fun _ => (bares_expression n).bind fun value => ?_
    exact (bares_expect _).bind fun _ => (bares_spanFrom _).bind fun _ => .pure rfl
  · exact (bares_expect _).bind fun _ => (bares_spanFrom _).bind fun _ => .pure rfl

theorem bares_declaration (n : Nat) : Bares Stmt.bare (declaration n) (declaration n) := by
  refine bares_currentSpan.bind fun start => (bares_expect _).bind fun _ => ?_
  refine bares_expectName.bind fun name => (bares_expect _).bind fun _ => ?_
  refine (bares_expression n).bind fun initial => (bares_expect _).bind fun _ => ?_
  exact (bares_spanFrom _).bind fun _ => .pure rfl

theorem bares_giveBack (n : Nat) : Bares Stmt.bare (giveBack n) (giveBack n) := by
  refine bares_currentSpan.bind fun start => (bares_expect _).bind fun _ => ?_
  have hrest : ∀ value, Bares Stmt.bare
      (expect (sep .semicolon) >>= fun _ => spanFrom start >>= fun span => pure (.giveBack value span))
      (expect (sep .semicolon) >>= fun _ => spanFrom {} >>= fun span =>
        pure (.giveBack (value.map Expr.bare) span)) := fun value =>
    (bares_expect _).bind fun _ => (bares_spanFrom _).bind fun _ => .pure rfl
  refine (bares_sees _).bind fun _ => .ite ?_ ?_
  · exact Bares.bind (f := Option.map Expr.bare) (.pure rfl) hrest
  · exact Bares.bind ((bares_expression n).map fun _ => rfl) hrest

theorem bares_jumpStatement {make : Span → Stmt} (h : ∀ span, (make span).bare = make {}) :
    Bares Stmt.bare (jumpStatement make) (jumpStatement make) :=
  bares_currentSpan.bind fun span => bares_advance.bind fun _ => (bares_expect _).bind fun _ =>
    .pure (h span)

/-- An arm without its regions. -/
def bareArm (a : Arm Stmt) : Arm Stmt := ⟨a.condition.bare, Stmt.bareAll a.body, {}⟩

/-- Taking off the regions commutes with the functions that read statements in a number of steps. -/
structure BaresStatements (n : Nat) : Prop where
  statement : Bares Stmt.bare (statement n) (statement n)
  block : Bares Stmt.bareAll (block n) (block n)
  statements : Bares Stmt.bareAll (statements n) (statements n)
  branching : Bares Stmt.bare (branching n) (branching n)
  arm : ∀ start, Bares bareArm (arm n start) (arm n {})
  elifArms : Bares Stmt.bareArms (elifArms n) (elifArms n)

section statements

variable {n : Nat}

theorem bares_statement (ih : BaresStatements n) :
    Bares Stmt.bare (statement (n + 1)) (statement (n + 1)) := by
  rw [statement]
  refine bares_current.bind fun t => ?_
  unfold Token.bare
  cases t.kind with
  | keyword word =>
    cases word with
    | let_ => exact bares_declaration n
    | if_ => exact ih.branching
    | while_ =>
      refine bares_advance.bind fun _ => (bares_expression n).bind fun condition => ?_
      exact ih.block.bind fun body => (bares_spanFrom _).bind fun _ => .pure rfl
    | break_ => exact bares_jumpStatement fun _ => rfl
    | continue_ => exact bares_jumpStatement fun _ => rfl
    | return_ => exact bares_giveBack n
    | func => exact bares_refuse _ _
    | type => exact bares_refuse _ _
    | _ => exact bares_simpleStatement n
  | separator mark =>
    cases mark with
    | leftBrace => exact ih.block.bind fun body => (bares_spanFrom _).bind fun _ => .pure rfl
    | _ => exact bares_simpleStatement n
  | _ => exact bares_simpleStatement n

theorem bares_statements (ih : BaresStatements n) :
    Bares Stmt.bareAll (statements (n + 1)) (statements (n + 1)) := by
  refine (bares_sees _).bind fun _ => (bares_sees _).bind fun _ => .ite (.pure rfl) ?_
  exact ih.statement.bind fun s => ih.statements.bind fun ss => .pure rfl

theorem bares_branching (ih : BaresStatements n) :
    Bares Stmt.bare (branching (n + 1)) (branching (n + 1)) := by
  refine bares_currentSpan.bind fun start => (bares_expect _).bind fun _ => ?_
  refine (ih.arm start).bind fun first => ih.elifArms.bind fun more => ?_
  refine (bares_accept _).bind fun _ => .ite ?_ ?_
  · exact ih.block.bind fun body => (bares_spanFrom _).bind fun _ => .pure rfl
  · exact (bares_spanFrom _).bind fun _ => .pure rfl

theorem bares_arm (ih : BaresStatements n) (start : Span) :
    Bares bareArm (arm (n + 1) start) (arm (n + 1) {}) := by
  refine (bares_expression n).bind fun condition => ih.block.bind fun body => ?_
  exact (bares_spanFrom start).bind fun _ => .pure rfl

theorem bares_elifArms (ih : BaresStatements n) :
    Bares Stmt.bareArms (elifArms (n + 1)) (elifArms (n + 1)) := by
  refine bares_currentSpan.bind fun start => (bares_accept _).bind fun _ => .ite ?_ (.pure rfl)
  exact (ih.arm start).bind fun first => ih.elifArms.bind fun more => .pure rfl

end statements

theorem bares_allStatements (n : Nat) : BaresStatements n := by
  induction n with
  | zero =>
    exact ⟨bares_exhausted, bares_exhausted, bares_exhausted, bares_exhausted, fun _ => bares_exhausted,
      bares_exhausted⟩
  | succ n ih =>
    exact {
      statement := bares_statement ih
      block := (bares_expect _).bind fun _ => ih.statements.bind fun _ =>
        (bares_expect _).bind fun _ => .pure rfl
      statements := bares_statements ih
      branching := bares_branching ih
      arm := bares_arm ih
      elifArms := bares_elifArms ih }

/-! ## Declarations -/

theorem bares_readParamList (n : Nat) :
    Bares (List.map Binder.bare) (readParamList n) (readParamList n) :=
  (bares_sees _).bind fun _ => .ite (.pure rfl) (bares_readParams n)

theorem bares_readResult : Bares id readResult readResult :=
  (bares_accept _).bind fun _ => .ite (bares_readKindName.bind fun _ => .pure rfl) (.pure rfl)

theorem bares_functionDeclaration (n : Nat) :
    Bares Stmt.bare (functionDeclaration n) (functionDeclaration n) := by
  rw [functionDeclaration_eq]
  refine bares_currentSpan.bind fun start => (bares_expect _).bind fun _ => ?_
  refine bares_expectName.bind fun name => (bares_expect _).bind fun _ => ?_
  refine (bares_readParamList n).bind fun params => (bares_expect _).bind fun _ => ?_
  refine bares_readResult.bind fun result => (bares_allStatements n).block.bind fun body => ?_
  exact (bares_spanFrom start).bind fun span => .pure rfl

theorem bares_typeDeclaration (n : Nat) :
    Bares Stmt.bare (typeDeclaration n) (typeDeclaration n) := by
  refine bares_currentSpan.bind fun start => (bares_expect _).bind fun _ => ?_
  refine bares_expectName.bind fun name => (bares_declareType name).bind fun _ => ?_
  refine (bares_expect _).bind fun _ => (bares_readFields n).bind fun fields => ?_
  exact (bares_expect _).bind fun _ => (bares_spanFrom start).bind fun span => .pure rfl

theorem bares_topLevel (n : Nat) : Bares Stmt.bare (topLevel n) (topLevel n) := by
  refine bares_current.bind fun t => ?_
  unfold Token.bare
  cases t.kind with
  | keyword word =>
    cases word with
    | func => exact bares_functionDeclaration n
    | type => exact bares_typeDeclaration n
    | _ => exact (bares_allStatements n).statement
  | _ => exact (bares_allStatements n).statement

theorem bares_topLevels (n : Nat) : Bares Stmt.bareAll (topLevels n) (topLevels n) := by
  induction n with
  | zero => exact bares_exhausted
  | succ n ih =>
    refine (bares_sees _).bind fun _ => .ite (.pure rfl) ?_
    exact (bares_topLevel n).bind fun s => ih.bind fun ss => .pure rfl

/-- Tokens without their regions are read as the program without its regions. -/
theorem read_bare (tokens : List (Token Symbol)) (pool : Pool) :
    read (tokens.map Token.bare) pool = bareResult Program.bare (read tokens pool) := by
  have hread : ∀ ts, read ts pool = (topLevels (steps ts) ⟨pool, ts, {}, []⟩).map fun r => ⟨r.1⟩ :=
    fun _ => rfl
  have hsteps : steps (tokens.map Token.bare) = steps tokens := by
    rw [steps, steps, List.length_map]
  have hbare : topLevels (steps tokens) ⟨pool, tokens.map Token.bare, {}, []⟩ = _ :=
    bares_topLevels (steps tokens) ⟨pool, tokens, {}, []⟩
  rw [hread, hread, hsteps, hbare]
  cases topLevels (steps tokens) ⟨pool, tokens, {}, []⟩ with
  | error e => rfl
  | ok r => rfl

/-- Tokens of the same kinds are read as the same program up to regions, or refused for the same
cause. -/
theorem read_congr {tokens tokens' : List (Token Symbol)}
    (h : tokens'.map (·.kind) = tokens.map (·.kind)) (pool : Pool) :
    bareResult Program.bare (read tokens' pool) = bareResult Program.bare (read tokens pool) := by
  have hbare : ∀ ts : List (Token Symbol),
      ts.map Token.bare = (ts.map (·.kind)).map fun k => ⟨k, {}⟩ := fun ts => by
    rw [List.map_map]
    rfl
  rw [← read_bare, ← read_bare, hbare, hbare, h]

end Program

end Scriptlet
