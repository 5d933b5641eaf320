import Scriptlet.Program.Cursor

/-!
# From tokens to programs

`Program.read` reads a whole token list by recursive descent. Binary operators are read by binding
strength (`binary`), everything else by its first token. The functions of one mutual family take a
number of steps and recurse on it; `Program.read` grants a multiple of the number of tokens.

Grammar, from the top:

* program: functions, types and statements; statements hold neither functions nor types.
* statement: `let x = e;`, `if`/`elif`/`else` with blocks, `while` with a block, `break;`,
  `continue;`, `return e;`, a block, an assignment or an expression followed by `;`.
* expression: nine levels of left-associative binary operators over unary operators over chains of
  `(args)`, `[index]`, `.name` and `.name(args)` over literals, names, `(e)` and `[items]`.
-/

namespace Scriptlet.Program

open Read

/-- The steps ran out. -/
def Read.exhausted {α : Type} : Read α := do
  refuse .exhausted (← currentSpan)

/-- The kind of a keyword token. -/
def kw (word : Keyword) : Token.Kind Symbol := .keyword word

/-- The kind of a separator token. -/
def sep (mark : Separator) : Token.Kind Symbol := .separator mark

/-! ## Annotations and binders -/

/-- A kind, by its name. -/
def readAnnotation : Read Annotation := do
  let symbol ← expectName
  return .ofName ((← get).pool.name symbol) symbol

/-- A colon and a kind, if there is a colon; else any kind. -/
def readOptionalAnnotation : Read Annotation := do
  if ← accept (sep .colon) then readAnnotation else return .any

/-- A name with an optional kind. -/
def readBinder : Read Binder := do
  let span ← currentSpan
  let name ← expectName
  let kind ← readOptionalAnnotation
  return { name, kind, span }

/-- Parameters separated by commas, at least one. -/
def readParams : Nat → Read (List Binder)
  | 0 => Read.exhausted
  | n + 1 => do
    let b ← readBinder
    if ← accept (sep .comma) then
      return b :: (← readParams n)
    else
      return [b]

/-- Fields up to the closing brace, each but the last followed by a comma or a semicolon. -/
def readFields : Nat → Read (List Binder)
  | 0 => Read.exhausted
  | n + 1 => do
    if (← sees (sep .rightBrace)) || (← sees .endOfFile) then
      return []
    else
      let b ← readBinder
      if ← accept (sep .comma) then
        return b :: (← readFields n)
      else if ← accept (sep .semicolon) then
        return b :: (← readFields n)
      else
        return [b]

/-! ## Expressions -/

mutual

/-- An expression of binary operators that bind at least as tightly as `level`. -/
def binary : Nat → Nat → Read Expr
  | 0, _ => Read.exhausted
  | n + 1, level => do
    let left ← unary n
    binaryRest n level left

/-- Goes on with binary operators after a left operand. A right operand binds one level tighter
than its operator, so operators of one level associate to the left. -/
def binaryRest : Nat → Nat → Expr → Read Expr
  | 0, _, _ => Read.exhausted
  | n + 1, level, left => do
    match (← current).kind with
    | .operator symbol =>
      match symbol.binary? with
      | some op =>
        if op.level < level then
          return left
        else
          advance
          let right ← binary n (op.level + 1)
          binaryRest n level (.binary op left right (left.span.merge right.span))
      | none => return left
    | _ => return left

/-- Unary operators in front of a chain. -/
def unary : Nat → Read Expr
  | 0 => Read.exhausted
  | n + 1 => do
    let token ← current
    match token.kind with
    | .operator symbol =>
      match symbol.unary? with
      | some op =>
        advance
        let operand ← unary n
        return .unary op operand (token.span.merge operand.span)
      | none => chain n
    | _ => chain n

/-- A primary expression with its suffixes. -/
def chain : Nat → Read Expr
  | 0 => Read.exhausted
  | n + 1 => do
    let first ← primary n
    chainRest n first

/-- Goes on with suffixes, applied from left to right. -/
def chainRest : Nat → Expr → Read Expr
  | 0, _ => Read.exhausted
  | n + 1, object => do
    if ← accept (sep .leftParen) then
      let args ← arguments n
      chainRest n (.call object args (← spanFrom object.span))
    else if ← accept (sep .leftBracket) then
      let index ← binary n 1
      expect (sep .rightBracket)
      chainRest n (.index object index (← spanFrom object.span))
    else if ← accept (sep .dot) then
      let name ← expectName
      if ← accept (sep .leftParen) then
        let args ← arguments n
        chainRest n (.methodCall object name args (← spanFrom object.span))
      else
        chainRest n (.field object name (← spanFrom object.span))
    else
      return object

/-- Arguments up to the closing parenthesis, after the opening one. -/
def arguments : Nat → Read (List Expr)
  | 0 => Read.exhausted
  | n + 1 => do
    if ← sees (sep .rightParen) then
      advance
      return []
    else
      let args ← argumentList n
      expect (sep .rightParen)
      return args

/-- Arguments separated by commas, at least one. -/
def argumentList : Nat → Read (List Expr)
  | 0 => Read.exhausted
  | n + 1 => do
    let e ← binary n 1
    if ← accept (sep .comma) then
      return e :: (← argumentList n)
    else
      return [e]

/-- Items of an array separated by commas, with an optional last comma. -/
def items : Nat → Read (List Expr)
  | 0 => Read.exhausted
  | n + 1 => do
    if ← sees (sep .rightBracket) then
      return []
    else
      let e ← binary n 1
      if ← accept (sep .comma) then
        return e :: (← items n)
      else
        return [e]

/-- A literal, a name, a construction, a parenthesised expression or an array. -/
def primary : Nat → Read Expr
  | 0 => Read.exhausted
  | n + 1 => do
    let token ← current
    match token.kind with
    | .literal value =>
      advance
      return .literal value token.span
    | .name symbol =>
      advance
      if (← get).types.contains symbol && (← sees (sep .leftParen)) then
        advance
        let args ← arguments n
        return .construct symbol args (← spanFrom token.span)
      else
        return .name symbol token.span
    | .separator .leftParen =>
      advance
      let e ← binary n 1
      expect (sep .rightParen)
      return e.withSpan (← spanFrom token.span)
    | .separator .leftBracket =>
      advance
      let es ← items n
      expect (sep .rightBracket)
      return .array es (← spanFrom token.span)
    | _ => refuseCurrent "expression"

end

/-- An expression. -/
def expression (n : Nat) : Read Expr := binary n 1

/-! ## Statements -/

/-- An expression, or an assignment if an assignment symbol follows it. -/
def simpleStatement (n : Nat) : Read Stmt := do
  let start ← currentSpan
  let e ← expression n
  let assignment :=
    match (← current).kind with
    | .operator symbol => symbol.assignment?
    | _ => none
  match assignment with
  | some op =>
    if e.isAssignable then
      advance
      let value ← expression n
      expect (sep .semicolon)
      return .assign e op value (← spanFrom start)
    else
      refuse .invalidTarget e.span
  | none =>
    expect (sep .semicolon)
    return .expression e (← spanFrom start)

/-- `let x = e;` -/
def declaration (n : Nat) : Read Stmt := do
  let start ← currentSpan
  expect (kw .let_)
  let name ← expectName
  expect (.operator .equal)
  let initial ← expression n
  expect (sep .semicolon)
  return .declare name initial (← spanFrom start)

/-- `return;` or `return e;` -/
def giveBack (n : Nat) : Read Stmt := do
  let start ← currentSpan
  expect (kw .return_)
  let value ← if ← sees (sep .semicolon) then pure none else some <$> expression n
  expect (sep .semicolon)
  return .giveBack value (← spanFrom start)

/-- `break;` or `continue;`: the statement is the keyword alone. -/
def jumpStatement (make : Span → Stmt) : Read Stmt := do
  let span ← currentSpan
  advance
  expect (sep .semicolon)
  return make span

mutual

/-- A statement, by its first token. -/
def statement : Nat → Read Stmt
  | 0 => Read.exhausted
  | n + 1 => do
    let token ← current
    match token.kind with
    | .keyword .let_ => declaration n
    | .keyword .if_ => branching n
    | .keyword .while_ =>
      advance
      let condition ← expression n
      let body ← block n
      return .loop condition body (← spanFrom token.span)
    | .keyword .break_ => jumpStatement .exitLoop
    | .keyword .continue_ => jumpStatement .nextRound
    | .keyword .return_ => giveBack n
    | .keyword .func => refuse (.misplacedDeclaration .func) token.span
    | .keyword .type => refuse (.misplacedDeclaration .type) token.span
    | .separator .leftBrace =>
      let body ← block n
      return .block body (← spanFrom token.span)
    | _ => simpleStatement n

/-- Statements in braces. -/
def block : Nat → Read (List Stmt)
  | 0 => Read.exhausted
  | n + 1 => do
    expect (sep .leftBrace)
    let body ← statements n
    expect (sep .rightBrace)
    return body

/-- Statements up to a closing brace or the end of the file. -/
def statements : Nat → Read (List Stmt)
  | 0 => Read.exhausted
  | n + 1 => do
    if (← sees (sep .rightBrace)) || (← sees .endOfFile) then
      return []
    else
      let s ← statement n
      return s :: (← statements n)

/-- `if` with its arms and an optional `else`. -/
def branching : Nat → Read Stmt
  | 0 => Read.exhausted
  | n + 1 => do
    let start ← currentSpan
    expect (kw .if_)
    let first ← arm n start
    let more ← elifArms n
    if ← accept (kw .else_) then
      let body ← block n
      return .branch (first :: more) (some body) (← spanFrom start)
    else
      return .branch (first :: more) none (← spanFrom start)

/-- The condition and the block of one arm, after its keyword. -/
def arm : Nat → Span → Read (Arm Stmt)
  | 0, _ => Read.exhausted
  | n + 1, start => do
    let condition ← expression n
    let body ← block n
    return { condition, body, span := ← spanFrom start }

/-- The arms that `elif` starts. -/
def elifArms : Nat → Read (List (Arm Stmt))
  | 0 => Read.exhausted
  | n + 1 => do
    let start ← currentSpan
    if ← accept (kw .elif) then
      let first ← arm n start
      return first :: (← elifArms n)
    else
      return []

end

/-! ## Declarations -/

/-- `func name(params) -> kind` and a block. -/
def functionDeclaration (n : Nat) : Read Stmt := do
  let start ← currentSpan
  expect (kw .func)
  let name ← expectName
  expect (sep .leftParen)
  let params ← if ← sees (sep .rightParen) then pure [] else readParams n
  expect (sep .rightParen)
  let result ← if ← accept .arrow then some <$> readAnnotation else pure none
  let body ← block n
  let span ← spanFrom start
  return .function { name, params, result, body, span } span

/-- `type Name` and its fields in braces. The name is a type from here on. -/
def typeDeclaration (n : Nat) : Read Stmt := do
  let start ← currentSpan
  expect (kw .type)
  let name ← expectName
  declareType name
  expect (sep .leftBrace)
  let fields ← readFields n
  expect (sep .rightBrace)
  let span ← spanFrom start
  return .type { name, fields, span } span

/-- A function, a type or a statement. -/
def topLevel (n : Nat) : Read Stmt := do
  match (← current).kind with
  | .keyword .func => functionDeclaration n
  | .keyword .type => typeDeclaration n
  | _ => statement n

/-- Everything up to the end of the file. -/
def topLevels : Nat → Read (List Stmt)
  | 0 => Read.exhausted
  | n + 1 => do
    if ← sees .endOfFile then
      return []
    else
      let s ← topLevel n
      return s :: (← topLevels n)

/-- The steps granted for a number of tokens. Between two tokens the reader takes fewer than
sixteen steps. -/
def steps (tokens : List (Token Symbol)) : Nat := 16 * (tokens.length + 1)

/-- The program that tokens spell. -/
def read (tokens : List (Token Symbol)) (pool : Pool) : Except Error Program := do
  let start : Cursor := { pool, rest := tokens, last := {}, types := [] }
  let (body, _) ← (topLevels (steps tokens)).run start
  return ⟨body⟩

end Scriptlet.Program
