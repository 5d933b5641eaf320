import Scriptlet.Program.Read

/-!
# The grammar of programs

What the tokens of a program spell, as a grammar over the kinds of tokens. `Grammar.Expression` has
nine left-associative levels of binary operators over signs, chains of suffixes and primary
expressions; `Grammar.Statement` and `Grammar.Toplevel` build on it. A name followed by an opening
parenthesis is a construction if it is that of a type that was declared before, so expressions and
statements are derived for a list of type names.

Trees are derived without the regions of source text that they were read from (`Expr.bare`,
`Stmt.bare`).
-/

namespace Scriptlet

/-! ## Trees without regions -/

mutual

/-- An expression without its regions. -/
def Expr.bare : Expr → Expr
  | .literal v _ => .literal v {}
  | .name n _ => .name n {}
  | .binary op l r _ => .binary op l.bare r.bare {}
  | .unary op e _ => .unary op e.bare {}
  | .array es _ => .array (bareAll es) {}
  | .index o i _ => .index o.bare i.bare {}
  | .field o n _ => .field o.bare n {}
  | .call f es _ => .call f.bare (bareAll es) {}
  | .methodCall o n es _ => .methodCall o.bare n (bareAll es) {}
  | .construct t es _ => .construct t (bareAll es) {}

/-- Expressions without their regions. -/
def Expr.bareAll : List Expr → List Expr
  | [] => []
  | e :: es => e.bare :: bareAll es

end

/-- A binder without its region. -/
def Binder.bare (b : Binder) : Binder := { b with span := {} }

mutual

/-- A statement without its regions. -/
def Stmt.bare : Stmt → Stmt
  | .expression e _ => .expression e.bare {}
  | .declare n e _ => .declare n e.bare {}
  | .assign target op value _ => .assign target.bare op value.bare {}
  | .block body _ => .block (bareAll body) {}
  | .branch arms none _ => .branch (bareArms arms) none {}
  | .branch arms (some body) _ => .branch (bareArms arms) (some (bareAll body)) {}
  | .loop condition body _ => .loop condition.bare (bareAll body) {}
  | .exitLoop _ => .exitLoop {}
  | .nextRound _ => .nextRound {}
  | .giveBack value _ => .giveBack (value.map Expr.bare) {}
  | .function ⟨name, params, result, body, _⟩ _ =>
    .function ⟨name, params.map Binder.bare, result, bareAll body, {}⟩ {}
  | .type ⟨name, fields, _⟩ _ => .type ⟨name, fields.map Binder.bare, {}⟩ {}

/-- Statements without their regions. -/
def Stmt.bareAll : List Stmt → List Stmt
  | [] => []
  | s :: ss => s.bare :: bareAll ss

/-- The arms of a branching without their regions. -/
def Stmt.bareArms : List (Arm Stmt) → List (Arm Stmt)
  | [] => []
  | ⟨condition, body, _⟩ :: rest => ⟨condition.bare, bareAll body, {}⟩ :: bareArms rest

end

/-- A program without its regions. -/
def Program.bare (p : Program) : Program := ⟨Stmt.bareAll p.body⟩

@[simp] theorem Expr.bare_withSpan (span : Span) (e : Expr) : (e.withSpan span).bare = e.bare := by
  cases e <;> rfl

namespace Grammar

open Program (kw sep)

/-- The kinds of tokens that are left to read or were read. -/
abbrev Kinds := List (Token.Kind Symbol)

/-! ## Operators -/

/-- The operators of each level, from the loosest to the tightest. -/
def operators : Nat → List (Operator × BinaryOp)
  | 1 => [(.equalEqual, .equal), (.bangEqual, .notEqual), (.less, .less), (.greater, .greater),
      (.lessEqual, .lessEqual), (.greaterEqual, .greaterEqual)]
  | 2 => [(.orOr, .or)]
  | 3 => [(.andAnd, .and)]
  | 4 => [(.pipe, .bitOr)]
  | 5 => [(.caret, .bitXor)]
  | 6 => [(.ampersand, .bitAnd)]
  | 7 => [(.shiftLeft, .shiftLeft), (.shiftRight, .shiftRight)]
  | 8 => [(.plus, .add), (.minus, .sub)]
  | 9 => [(.star, .mul), (.slash, .div), (.percent, .mod)]
  | _ => []

/-- The operators in front of an operand. -/
def signs : List (Operator × UnaryOp) := [(.minus, .negate), (.bang, .not), (.tilde, .complement)]

/-- The symbols of assignments, with the operator that each folds in. -/
def assignments : List (Operator × Option BinaryOp) :=
  [(.equal, none), (.plusEqual, some .add), (.minusEqual, some .sub), (.starEqual, some .mul),
    (.slashEqual, some .div), (.percentEqual, some .mod), (.ampersandEqual, some .bitAnd),
    (.pipeEqual, some .bitOr), (.caretEqual, some .bitXor), (.shiftLeftEqual, some .shiftLeft),
    (.shiftRightEqual, some .shiftRight)]

theorem mem_operators {symbol : Operator} {op : BinaryOp} {l : Nat} :
    (symbol, op) ∈ operators l ↔ symbol.binary? = some op ∧ op.level = l := by
  constructor
  · intro h
    unfold operators at h
    split at h <;> simp only [List.mem_cons, List.not_mem_nil, or_false, Prod.mk.injEq] at h <;>
      grind [Operator.binary?, BinaryOp.level]
  · rintro ⟨h, rfl⟩
    cases symbol <;> cases h <;> decide

theorem mem_signs {symbol : Operator} {op : UnaryOp} :
    (symbol, op) ∈ signs ↔ symbol.unary? = some op := by
  cases symbol <;> cases op <;> decide

theorem mem_assignments {symbol : Operator} {op : Option BinaryOp} :
    (symbol, op) ∈ assignments ↔ symbol.assignment? = some op := by
  cases symbol <;> simp [assignments, Operator.assignment?, eq_comm]

/-! ## Expressions -/

/-- The sorts of things that expressions are made of. -/
inductive ExprSort where
  /-- Binary operators that bind at least this tightly; the tenth level has none. -/
  | level (l : Nat)
  /-- Signs in front of a chain. -/
  | signed
  /-- A primary expression with suffixes. -/
  | chain
  | primary
  /-- What stands between the parentheses of a call. -/
  | arguments
  /-- Arguments separated by commas, at least one. -/
  | argumentList
  /-- What stands between the brackets of an array. -/
  | items

/-- What is derived for a sort. -/
abbrev ExprSort.Tree : ExprSort → Type
  | .arguments | .argumentList | .items => List Expr
  | .level _ | .signed | .chain | .primary => Expr

/-- What is called by an opening parenthesis behind it: neither the name of a type alone, which is
constructed, nor anything that ends in a dot and a name, which is a method of what stands before. -/
structure Called (types : List Symbol) (ks : Kinds) : Prop where
  type : ∀ n ∈ types, ks ≠ [.name n]
  method : ∀ ks' n, ks ≠ ks' ++ [sep .dot, .name n]

/-- Kinds of tokens spell an expression, where some names are those of types. -/
inductive Expression (types : List Symbol) : (s : ExprSort) → Kinds → s.Tree → Prop
  /-- Operators of one level associate to the left. -/
  | binary {ks₁ ks₂ : Kinds} {a b : Expr} {symbol : Operator} {op : BinaryOp} {l : Nat}
    (hop : (symbol, op) ∈ operators l) (left : Expression types (.level l) ks₁ a)
    (right : Expression types (.level (l + 1)) ks₂ b) :
    Expression types (.level l) (ks₁ ++ .operator symbol :: ks₂) (.binary op a b {})
  | tighter {ks : Kinds} {a : Expr} {l : Nat} (hl : l ≤ 9)
    (h : Expression types (.level (l + 1)) ks a) : Expression types (.level l) ks a
  | operand {ks : Kinds} {a : Expr} (h : Expression types .signed ks a) :
    Expression types (.level 10) ks a
  | sign {ks : Kinds} {a : Expr} {symbol : Operator} {op : UnaryOp} (hop : (symbol, op) ∈ signs)
    (h : Expression types .signed ks a) :
    Expression types .signed (.operator symbol :: ks) (.unary op a {})
  | unsigned {ks : Kinds} {a : Expr} (h : Expression types .chain ks a) :
    Expression types .signed ks a
  | alone {ks : Kinds} {a : Expr} (h : Expression types .primary ks a) :
    Expression types .chain ks a
  | call {ks as : Kinds} {f : Expr} {es : List Expr} (callee : Expression types .chain ks f)
    (hcalled : Called types ks) (args : Expression types .arguments as es) :
    Expression types .chain (ks ++ sep .leftParen :: (as ++ [sep .rightParen])) (.call f es {})
  | index {ks is : Kinds} {o i : Expr} (object : Expression types .chain ks o)
    (place : Expression types (.level 1) is i) :
    Expression types .chain (ks ++ sep .leftBracket :: (is ++ [sep .rightBracket])) (.index o i {})
  | field {ks : Kinds} {o : Expr} (object : Expression types .chain ks o) (n : Symbol) :
    Expression types .chain (ks ++ [sep .dot, .name n]) (.field o n {})
  | methodCall {ks as : Kinds} {o : Expr} {es : List Expr} (object : Expression types .chain ks o)
    (n : Symbol) (args : Expression types .arguments as es) :
    Expression types .chain
      (ks ++ sep .dot :: .name n :: sep .leftParen :: (as ++ [sep .rightParen]))
      (.methodCall o n es {})
  | literal (v : Literal Symbol) : Expression types .primary [.literal v] (.literal v {})
  | name (n : Symbol) : Expression types .primary [.name n] (.name n {})
  | construct {as : Kinds} {es : List Expr} {n : Symbol} (hname : n ∈ types)
    (args : Expression types .arguments as es) :
    Expression types .primary (.name n :: sep .leftParen :: (as ++ [sep .rightParen]))
      (.construct n es {})
  /-- Parentheses leave no node. -/
  | paren {ks : Kinds} {a : Expr} (h : Expression types (.level 1) ks a) :
    Expression types .primary (sep .leftParen :: (ks ++ [sep .rightParen])) a
  | array {ks : Kinds} {es : List Expr} (h : Expression types .items ks es) :
    Expression types .primary (sep .leftBracket :: (ks ++ [sep .rightBracket])) (.array es {})
  | noArguments : Expression types .arguments [] []
  | someArguments {ks : Kinds} {es : List Expr} (h : Expression types .argumentList ks es) :
    Expression types .arguments ks es
  | lastArgument {ks : Kinds} {a : Expr} (h : Expression types (.level 1) ks a) :
    Expression types .argumentList ks [a]
  | moreArguments {ks ks' : Kinds} {a : Expr} {es : List Expr}
    (h : Expression types (.level 1) ks a) (rest : Expression types .argumentList ks' es) :
    Expression types .argumentList (ks ++ sep .comma :: ks') (a :: es)
  | noItems : Expression types .items [] []
  | lastItem {ks : Kinds} {a : Expr} (h : Expression types (.level 1) ks a) :
    Expression types .items ks [a]
  /-- A comma may stand behind the last item. -/
  | moreItems {ks ks' : Kinds} {a : Expr} {es : List Expr} (h : Expression types (.level 1) ks a)
    (rest : Expression types .items ks' es) :
    Expression types .items (ks ++ sep .comma :: ks') (a :: es)

/-! ## Statements -/

/-- The sorts of things that statements are made of. -/
inductive StmtSort where
  | statement
  /-- Statements in braces. -/
  | block
  | statements
  /-- The arms of a branching that `elif` starts. -/
  | elifs

/-- What is derived for a sort. -/
abbrev StmtSort.Tree : StmtSort → Type
  | .statement => Stmt
  | .block | .statements => List Stmt
  | .elifs => List (Arm Stmt)

/-- A variable, an element or a field: what can be assigned to. -/
inductive Place : Expr → Prop
  | name (n : Symbol) (span : Span) : Place (.name n span)
  | index (object index : Expr) (span : Span) : Place (.index object index span)
  | field (object : Expr) (n : Symbol) (span : Span) : Place (.field object n span)

theorem place_bare {e : Expr} : Place e.bare ↔ e.isAssignable = true := by
  constructor
  · intro h
    cases e <;> first | rfl | cases h
  · intro h
    cases e with
    | name n _ => exact .name n {}
    | index o i _ => exact .index o.bare i.bare {}
    | field o n _ => exact .field o.bare n {}
    | _ => cases h

/-- Kinds of tokens spell a statement. -/
inductive Statement (types : List Symbol) : (s : StmtSort) → Kinds → s.Tree → Prop
  | declare {ks : Kinds} {e : Expr} (n : Symbol) (h : Expression types (.level 1) ks e) :
    Statement types .statement
      (kw .let_ :: .name n :: .operator .equal :: (ks ++ [sep .semicolon])) (.declare n e {})
  | branch {ks bs as : Kinds} {c : Expr} {body : List Stmt} {arms : List (Arm Stmt)}
    (condition : Expression types (.level 1) ks c) (first : Statement types .block bs body)
    (more : Statement types .elifs as arms) :
    Statement types .statement (kw .if_ :: (ks ++ (bs ++ as)))
      (.branch (⟨c, body, {}⟩ :: arms) none {})
  | branchElse {ks bs as os : Kinds} {c : Expr} {body other : List Stmt} {arms : List (Arm Stmt)}
    (condition : Expression types (.level 1) ks c) (first : Statement types .block bs body)
    (more : Statement types .elifs as arms) (last : Statement types .block os other) :
    Statement types .statement (kw .if_ :: (ks ++ (bs ++ (as ++ kw .else_ :: os))))
      (.branch (⟨c, body, {}⟩ :: arms) (some other) {})
  | loop {ks bs : Kinds} {c : Expr} {body : List Stmt}
    (condition : Expression types (.level 1) ks c) (h : Statement types .block bs body) :
    Statement types .statement (kw .while_ :: (ks ++ bs)) (.loop c body {})
  | exitLoop : Statement types .statement [kw .break_, sep .semicolon] (.exitLoop {})
  | nextRound : Statement types .statement [kw .continue_, sep .semicolon] (.nextRound {})
  | giveBack : Statement types .statement [kw .return_, sep .semicolon] (.giveBack none {})
  | giveBackValue {ks : Kinds} {e : Expr} (h : Expression types (.level 1) ks e) :
    Statement types .statement (kw .return_ :: (ks ++ [sep .semicolon])) (.giveBack (some e) {})
  | block {bs : Kinds} {body : List Stmt} (h : Statement types .block bs body) :
    Statement types .statement bs (.block body {})
  | expression {ks : Kinds} {e : Expr} (h : Expression types (.level 1) ks e) :
    Statement types .statement (ks ++ [sep .semicolon]) (.expression e {})
  | assign {ks vs : Kinds} {target value : Expr} {symbol : Operator} {op : Option BinaryOp}
    (place : Expression types (.level 1) ks target) (hplace : Place target)
    (hop : (symbol, op) ∈ assignments) (h : Expression types (.level 1) vs value) :
    Statement types .statement (ks ++ .operator symbol :: (vs ++ [sep .semicolon]))
      (.assign target op value {})
  | braces {ks : Kinds} {ss : List Stmt} (h : Statement types .statements ks ss) :
    Statement types .block (sep .leftBrace :: (ks ++ [sep .rightBrace])) ss
  | noStatements : Statement types .statements [] []
  | moreStatements {ks ks' : Kinds} {s : Stmt} {ss : List Stmt}
    (h : Statement types .statement ks s) (rest : Statement types .statements ks' ss) :
    Statement types .statements (ks ++ ks') (s :: ss)
  | noElifs : Statement types .elifs [] []
  | moreElifs {ks bs as : Kinds} {c : Expr} {body : List Stmt} {arms : List (Arm Stmt)}
    (condition : Expression types (.level 1) ks c) (first : Statement types .block bs body)
    (more : Statement types .elifs as arms) :
    Statement types .elifs (kw .elif :: (ks ++ (bs ++ as))) (⟨c, body, {}⟩ :: arms)

/-! ## Declarations -/

/-- A name with an optional kind, which the pool has the text of. -/
inductive BinderOf (pool : Pool) : Kinds → Binder → Prop
  | plain (n : Symbol) : BinderOf pool [.name n] ⟨n, .any, {}⟩
  | annotated (n k : Symbol) :
    BinderOf pool [.name n, sep .colon, .name k] ⟨n, .ofName (pool.name k) k, {}⟩

/-- Parameters separated by commas, at least one. -/
inductive Params (pool : Pool) : Kinds → List Binder → Prop
  | last {ks : Kinds} {b : Binder} (h : BinderOf pool ks b) : Params pool ks [b]
  | more {ks ks' : Kinds} {b : Binder} {bs : List Binder} (h : BinderOf pool ks b)
    (rest : Params pool ks' bs) : Params pool (ks ++ sep .comma :: ks') (b :: bs)

/-- What stands between the parentheses of a function. -/
inductive ParamList (pool : Pool) : Kinds → List Binder → Prop
  | none : ParamList pool [] []
  | some {ks : Kinds} {bs : List Binder} (h : Params pool ks bs) : ParamList pool ks bs

/-- Fields, each but the last followed by a comma or a semicolon; one may follow the last, too. -/
inductive Fields (pool : Pool) : Kinds → List Binder → Prop
  | none : Fields pool [] []
  | last {ks : Kinds} {b : Binder} (h : BinderOf pool ks b) : Fields pool ks [b]
  | more {ks ks' : Kinds} {b : Binder} {bs : List Binder} {mark : Separator}
    (h : BinderOf pool ks b) (hmark : mark = .comma ∨ mark = .semicolon)
    (rest : Fields pool ks' bs) :
    Fields pool (ks ++ sep mark :: ks') (b :: bs)

/-- The kind of what a function gives back. -/
inductive Result (pool : Pool) : Kinds → Option Annotation → Prop
  | none : Result pool [] none
  | some (k : Symbol) : Result pool [.arrow, .name k] (some (.ofName (pool.name k) k))

/-- Kinds of tokens spell the functions, types and statements of a program, after the declaration of
some types. -/
inductive Toplevel (pool : Pool) : List Symbol → Kinds → List Stmt → Prop
  | nil (types : List Symbol) : Toplevel pool types [] []
  | statement {types : List Symbol} {ks ks' : Kinds} {s : Stmt} {ss : List Stmt}
    (h : Statement types .statement ks s) (rest : Toplevel pool types ks' ss) :
    Toplevel pool types (ks ++ ks') (s :: ss)
  | function {types : List Symbol} {ps rs bs ks : Kinds} {params : List Binder}
    {result : Option Annotation} {body ss : List Stmt} (n : Symbol)
    (hparams : ParamList pool ps params) (hresult : Result pool rs result)
    (hbody : Statement types .block bs body)
    (rest : Toplevel pool types ks ss) :
    Toplevel pool types
      (kw .func :: .name n :: sep .leftParen :: (ps ++ sep .rightParen :: (rs ++ (bs ++ ks))))
      (.function ⟨n, params, result, body, {}⟩ {} :: ss)
  | type {types : List Symbol} {fs ks : Kinds} {fields : List Binder} {ss : List Stmt} (n : Symbol)
    (hfields : Fields pool fs fields) (rest : Toplevel pool (n :: types) ks ss) :
    Toplevel pool types
      (kw .type :: .name n :: sep .leftBrace :: (fs ++ sep .rightBrace :: ks))
      (.type ⟨n, fields, {}⟩ {} :: ss)

/-- Kinds of tokens spell a program. -/
def Spells (pool : Pool) (ks : Kinds) (p : Program) : Prop := Toplevel pool [] ks p.body

/-! ## First tokens -/

/-- The kind of the next token. Past all tokens the end of the file is seen. -/
def next (ks : Kinds) : Token.Kind Symbol := ks.headD .endOfFile

@[simp] theorem next_nil : next [] = .endOfFile := rfl

@[simp] theorem next_cons (k : Token.Kind Symbol) (ks : Kinds) : next (k :: ks) = k := rfl

section starts

variable {p : Token.Kind Symbol → Bool} {ks : Kinds} {k : Token.Kind Symbol}

/-- A first token of a kind that the end of the file is not of is a token. -/
theorem ne_nil_of_starts (h : p (next ks) = true) (hend : p .endOfFile = false) : ks ≠ [] := by
  rintro rfl
  rw [next_nil, hend] at h
  cases h

theorem starts_append (h : p (next ks) = true) (hend : p .endOfFile = false) (r : Kinds) :
    p (next (ks ++ r)) = true := by
  cases ks with
  | nil => exact absurd rfl (ne_nil_of_starts h hend)
  | cons k ks => exact h

theorem next_append_ne (h : p (next ks) = true) (hend : p .endOfFile = false) (r : Kinds)
    (hk : p k = false) : next (ks ++ r) ≠ k := by
  rintro rfl
  rw [starts_append h hend r] at hk
  cases hk

end starts

/-- The tokens that a primary expression starts with. -/
def startsPrimary : Token.Kind Symbol → Bool
  | .literal _ | .name _ | .separator .leftParen | .separator .leftBracket => true
  | _ => false

/-- The tokens that an expression starts with. -/
def startsExpression : Token.Kind Symbol → Bool
  | .operator symbol => symbol.unary?.isSome
  | k => startsPrimary k

/-- The tokens that a statement starts with. -/
def startsStatement : Token.Kind Symbol → Bool
  | .keyword .let_ | .keyword .if_ | .keyword .while_ | .keyword .break_ | .keyword .continue_
  | .keyword .return_ | .separator .leftBrace => true
  | k => startsExpression k

/-- Binders start with a name. -/
def startsBinder : Token.Kind Symbol → Bool
  | .name _ => true
  | _ => false

/-- The tokens that a thing of this sort starts with. -/
def ExprSort.starts : ExprSort → Token.Kind Symbol → Bool
  | .chain | .primary => startsPrimary
  | .level _ | .signed | .argumentList => startsExpression
  | .arguments | .items => fun _ => true

theorem startsExpression_of_startsPrimary {k : Token.Kind Symbol} (h : startsPrimary k = true) :
    startsExpression k = true := by
  cases k with
  | operator _ => cases h
  | _ => exact h

theorem startsStatement_of_startsExpression {k : Token.Kind Symbol}
    (h : startsExpression k = true) : startsStatement k = true := by
  cases k with
  | separator mark => cases mark <;> first | rfl | cases h
  | literal _ | name _ | operator _ => exact h
  | keyword _ | arrow | endOfFile => cases h

theorem Expression.starts {types : List Symbol} {s : ExprSort} {ks : Kinds} {t : s.Tree}
    (h : Expression types s ks t) : s.starts (next ks) = true := by
  induction h with
  | binary _ _ _ ih _ => exact starts_append ih rfl _
  | moreArguments _ _ ih _ => exact starts_append ih rfl _
  | call _ _ _ ih _ | index _ _ ih _ | methodCall _ _ _ ih _ => exact starts_append ih rfl _
  | field _ _ ih => exact starts_append ih rfl _
  | tighter _ _ ih | operand _ ih | alone _ ih | lastArgument _ ih => exact ih
  | unsigned _ ih => exact startsExpression_of_startsPrimary ih
  | sign hop => rw [next_cons, ExprSort.starts, startsExpression, mem_signs.1 hop]; rfl
  | _ => rfl

theorem Expression.level_ne_nil {types : List Symbol} {l : Nat} {ks : Kinds} {e : Expr}
    (h : Expression types (.level l) ks e) : ks ≠ [] :=
  ne_nil_of_starts h.starts rfl

/-- What does not end in a name is called. -/
theorem Called.of_getLast? {types : List Symbol} {ks : Kinds} {k : Token.Kind Symbol}
    (h : ks.getLast? = some k) (hk : ∀ n, k ≠ .name n) : Called types ks where
  type n _ hks := by
    rw [hks] at h
    cases h
    exact hk n rfl
  method ks' n hks := by
    rw [hks] at h
    simp at h
    exact hk n h.symm

theorem Statement.starts {types : List Symbol} {ks : Kinds} {s : Stmt}
    (h : Statement types .statement ks s) : startsStatement (next ks) = true := by
  cases h with
  | expression h =>
    exact startsStatement_of_startsExpression (starts_append h.starts rfl _)
  | assign h =>
    exact startsStatement_of_startsExpression (starts_append h.starts rfl _)
  | block h =>
    cases h with
    | braces _ => rfl
  | _ => rfl

theorem Statement.next_block {types : List Symbol} {ks : Kinds} {body : List Stmt}
    (h : Statement types .block ks body) (r : Kinds) : next (ks ++ r) = sep .leftBrace := by
  cases h with
  | braces _ => rfl

/-- Behind the statements of a block stands what closes it. -/
theorem Statement.next_statements {types : List Symbol} {ks : Kinds} {ss : List Stmt}
    {k : Token.Kind Symbol} (h : Statement types .statements ks ss) (r : Kinds)
    (hk : startsStatement k = false) (hbrace : k ≠ sep .rightBrace) :
    next (ks ++ sep .rightBrace :: r) ≠ k := by
  cases h with
  | noStatements => exact hbrace.symm
  | moreStatements h _ =>
    rw [List.append_assoc]
    exact next_append_ne h.starts rfl _ hk

theorem Statement.ne_nil {types : List Symbol} {ks : Kinds} {s : Stmt}
    (h : Statement types .statement ks s) : ks ≠ [] :=
  ne_nil_of_starts h.starts rfl

theorem BinderOf.starts {pool : Pool} {ks : Kinds} {b : Binder} (h : BinderOf pool ks b) :
    startsBinder (next ks) = true := by
  cases h <;> rfl

theorem Params.starts {pool : Pool} {ks : Kinds} {bs : List Binder} (h : Params pool ks bs) :
    startsBinder (next ks) = true := by
  cases h with
  | last h => exact h.starts
  | more h _ => exact starts_append h.starts rfl _

/-- No arm of a branching starts what stands at the top level. -/
theorem Toplevel.next_ne {pool : Pool} {types : List Symbol} {ks : Kinds} {ss : List Stmt}
    {word : Keyword} (h : Toplevel pool types ks ss) (hword : word = .elif ∨ word = .else_) :
    next ks ≠ kw word := by
  cases h with
  | nil _ => nofun
  | statement h _ =>
    refine next_append_ne h.starts rfl _ ?_
    rcases hword with rfl | rfl <;> rfl
  | function _ _ _ _ _ => rcases hword with rfl | rfl <;> nofun
  | type _ _ _ => rcases hword with rfl | rfl <;> nofun

end Grammar

end Scriptlet
