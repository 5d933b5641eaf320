import Scriptlet.Annotation
import Scriptlet.Expr

/-!
# Statements and programs

The trees of statements. A program is a list of statements; declarations of functions and types are
statements too, and are meaningful at the top level only.
-/

namespace Scriptlet

/-- A declared name with its kind: a parameter of a function or a field of a type. -/
structure Binder where
  name : Symbol
  kind : Annotation
  span : Span
deriving DecidableEq, Inhabited, Repr

/-- The declaration of a type with named fields. -/
structure TypeDecl where
  name : Symbol
  fields : List Binder
  span : Span
deriving DecidableEq, Inhabited, Repr

/-- The declaration of a function with a body of statements `σ`. -/
structure FunctionDecl (σ : Type) where
  name : Symbol
  params : List Binder
  result : Option Annotation
  body : List σ
  span : Span
deriving Inhabited, Repr

/-- One condition of a branching with the statements that it guards. -/
structure Arm (σ : Type) where
  condition : Expr
  body : List σ
  span : Span
deriving Inhabited, Repr

/-- A statement. -/
inductive Stmt where
  | expression (e : Expr) (span : Span)
  | declare (name : Symbol) (initial : Expr) (span : Span)
  | assign (target : Expr) (op : Option BinaryOp) (value : Expr) (span : Span)
  | block (body : List Stmt) (span : Span)
  | branch (arms : List (Arm Stmt)) (otherwise : Option (List Stmt)) (span : Span)
  | loop (condition : Expr) (body : List Stmt) (span : Span)
  | exitLoop (span : Span)
  | nextRound (span : Span)
  | giveBack (value : Option Expr) (span : Span)
  | function (decl : FunctionDecl Stmt) (span : Span)
  | type (decl : TypeDecl) (span : Span)
deriving Inhabited, Repr

/-- The region of source text that a statement was read from. -/
def Stmt.span : Stmt → Span
  | expression _ s | declare _ _ s | assign _ _ _ s | block _ s | branch _ _ s | loop _ _ s
  | exitLoop s | nextRound s | giveBack _ s | function _ s | type _ s => s

/-- The declaration of a function with a body of statements. -/
abbrev Function := FunctionDecl Stmt

/-- A program: its statements in source order. -/
structure Program where
  body : List Stmt
deriving Inhabited, Repr

namespace Program

/-- The functions that are declared at the top level, in order. -/
def functions (p : Program) : List Function :=
  p.body.filterMap fun
    | .function decl _ => some decl
    | _ => none

/-- The types that are declared at the top level, in order. -/
def types (p : Program) : List TypeDecl :=
  p.body.filterMap fun
    | .type decl _ => some decl
    | _ => none

/-- The statements of the top level that are not declarations, in order. -/
def main (p : Program) : List Stmt :=
  p.body.filter fun
    | .function .. | .type .. => false
    | _ => true

end Program

end Scriptlet
