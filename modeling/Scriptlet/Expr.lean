import Scriptlet.Literal
import Scriptlet.Operator
import Scriptlet.Pool
import Scriptlet.Span

/-!
# Expressions

The trees of expressions. Every node carries the region of source text that it was read from;
parentheses leave no node, they only widen that region.
-/

namespace Scriptlet

/-- An expression. -/
inductive Expr where
  | literal (value : Literal Symbol) (span : Span)
  | name (symbol : Symbol) (span : Span)
  | binary (op : BinaryOp) (left right : Expr) (span : Span)
  | unary (op : UnaryOp) (operand : Expr) (span : Span)
  | array (items : List Expr) (span : Span)
  | index (object index : Expr) (span : Span)
  | field (object : Expr) (name : Symbol) (span : Span)
  | call (callee : Expr) (args : List Expr) (span : Span)
  | methodCall (object : Expr) (name : Symbol) (args : List Expr) (span : Span)
  | construct (type : Symbol) (args : List Expr) (span : Span)
deriving Inhabited, Repr

namespace Expr

/-- The region of source text that an expression was read from. -/
def span : Expr → Span
  | literal _ s | name _ s | binary _ _ _ s | unary _ _ s | array _ s | index _ _ s
  | field _ _ s | call _ _ s | methodCall _ _ _ s | construct _ _ s => s

/-- The same expression with another region. -/
def withSpan (s : Span) : Expr → Expr
  | literal v _ => literal v s
  | name n _ => name n s
  | binary op l r _ => binary op l r s
  | unary op e _ => unary op e s
  | array es _ => array es s
  | index o i _ => index o i s
  | field o n _ => field o n s
  | call f es _ => call f es s
  | methodCall o n es _ => methodCall o n es s
  | construct t es _ => construct t es s

/-- An expression that names a place: a variable, an element or a field. -/
def isAssignable : Expr → Bool
  | name .. | index .. | field .. => true
  | _ => false

theorem span_withSpan (s : Span) (e : Expr) : (e.withSpan s).span = s := by
  cases e <;> rfl

end Expr

end Scriptlet
