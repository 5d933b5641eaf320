import Scriptlet.Pool

/-!
# Type annotations

Parameters, results and fields may name a kind. Annotations inform the reader only: values carry
their own kinds, and a declared kind matters for nothing but the default value of a field.
-/

namespace Scriptlet

/-- The declared kind of a parameter, a result or a field. -/
inductive Annotation where
  | int
  | uint
  | float
  | char
  | bool
  | string
  | array
  | any
  | named (type : Symbol)
deriving DecidableEq, Inhabited, Repr

namespace Annotation

/-- The built-in kind of a name; any other name is that of a declared structure. -/
def ofName (name : String) (symbol : Symbol) : Annotation :=
  match name with
  | "int" => int
  | "uint" => uint
  | "float" => float
  | "char" => char
  | "bool" => bool
  | "string" => string
  | "array" => array
  | "any" => any
  | _ => named symbol

/-- The text by which listings call the kind. -/
def text : Annotation → String
  | int => "int"
  | uint => "uint"
  | float => "float"
  | char => "char"
  | bool => "bool"
  | string => "string"
  | array => "array"
  | any => "any"
  | named type => "type#" ++ toString type.toNat

end Annotation

end Scriptlet
