import Mathlib.Data.List.Nodup
import Scriptlet.Scope
import Scriptlet.Stmt

/-!
# Well-formed programs

`Program.points` lists what a program consists of: every expression, statement and block of its main
statements and of its functions, with the locals that are live there and whether a loop is around
it. A program is well-formed if its declarations are distinct and every point is as it should be
(`Program.WellFormed`, one field for each demand). The points are finitely many, so this can be
decided.
-/

namespace Scriptlet

mutual

/-- An expression and all its parts. -/
def Expr.parts : Expr → List Expr
  | .literal v span => [.literal v span]
  | .name n span => [.name n span]
  | .binary op l r span => .binary op l r span :: (l.parts ++ r.parts)
  | .unary op e span => .unary op e span :: e.parts
  | .array es span => .array es span :: partsAll es
  | .index o i span => .index o i span :: (o.parts ++ i.parts)
  | .field o n span => .field o n span :: o.parts
  | .call f es span => .call f es span :: (f.parts ++ partsAll es)
  | .methodCall o n es span => .methodCall o n es span :: (o.parts ++ partsAll es)
  | .construct t es span => .construct t es span :: partsAll es

/-- Expressions and all their parts. -/
def Expr.partsAll : List Expr → List Expr
  | [] => []
  | e :: es => e.parts ++ partsAll es

end

/-- The number of arguments of a call, a method call or a construction. -/
def Expr.argCount : Expr → Nat
  | .call _ args _ | .methodCall _ _ args _ | .construct _ args _ => args.length
  | _ => 0

/-- A declaration of a function or of a type. -/
def Stmt.isDeclaration : Stmt → Bool
  | .function .. | .type .. => true
  | _ => false

/-- A statement that leaves or repeats a loop. -/
def Stmt.isLoopJump : Stmt → Bool
  | .exitLoop .. | .nextRound .. => true
  | _ => false

/-- The name that a statement adds to the block that it is in. -/
def Stmt.declared : Stmt → List Symbol
  | .declare name _ _ => [name]
  | _ => []

theorem Stmt.nodup_declared (s : Stmt) : s.declared.Nodup := by
  cases s with
  | declare name => exact List.nodup_singleton name
  | _ => exact List.nodup_nil

/-- The names that a block declares. -/
def declaredNames (ss : List Stmt) : List Symbol := ss.flatMap Stmt.declared

/-! ## Points -/

/-- What is at a point of a program. -/
inductive Node where
  | expr (e : Expr)
  | stmt (s : Stmt)
  /-- The start of a block that declares some names. -/
  | block (names : List Symbol)
  /-- The end of a block. -/
  | stop

/-- A point of a function or of the main program. -/
structure Point where
  /-- The locals of the function that are live there, those of the outermost block first. -/
  locals : List Symbol
  /-- Whether the point is in the body of a loop of the function. -/
  looping : Bool
  node : Node

/-- The point of a statement, and the points of expressions at its start. -/
def pointsAt (locals : List Symbol) (looping : Bool) (s : Stmt) (es : List Expr) : List Point :=
  ⟨locals, looping, .stmt s⟩ :: (Expr.partsAll es).map fun e => ⟨locals, looping, .expr e⟩

mutual

/-- The points of a statement. -/
def stmtPoints (locals : List Symbol) (looping : Bool) : Stmt → List Point
  | .expression e span => pointsAt locals looping (.expression e span) [e]
  | .declare name e span => pointsAt locals looping (.declare name e span) [e]
  | .assign target op value span =>
    pointsAt locals looping (.assign target op value span) [target, value]
  | .block body span =>
    pointsAt locals looping (.block body span) [] ++
      ⟨locals, looping, .block (declaredNames body)⟩ :: stmtsPoints locals looping body
  | .branch arms none span =>
    pointsAt locals looping (.branch arms none span) [] ++ armsPoints locals looping arms
  | .branch arms (some body) span =>
    pointsAt locals looping (.branch arms (some body) span) [] ++
      (armsPoints locals looping arms ++
        ⟨locals, looping, .block (declaredNames body)⟩ :: stmtsPoints locals looping body)
  | .loop condition body span =>
    pointsAt locals looping (.loop condition body span) [condition] ++
      ⟨locals, true, .block (declaredNames body)⟩ :: stmtsPoints locals true body
  | .exitLoop span => pointsAt locals looping (.exitLoop span) []
  | .nextRound span => pointsAt locals looping (.nextRound span) []
  | .giveBack value span => pointsAt locals looping (.giveBack value span) value.toList
  | .function decl span => pointsAt locals looping (.function decl span) []
  | .type decl span => pointsAt locals looping (.type decl span) []

/-- The points of statements one after the other, up to the end of their block. A declared name is
live from the next statement on. -/
def stmtsPoints (locals : List Symbol) (looping : Bool) : List Stmt → List Point
  | [] => [⟨locals, looping, .stop⟩]
  | s :: ss => stmtPoints locals looping s ++ stmtsPoints (locals ++ s.declared) looping ss

/-- The points of the arms of a branching. -/
def armsPoints (locals : List Symbol) (looping : Bool) : List (Arm Stmt) → List Point
  | [] => []
  | ⟨condition, body, _⟩ :: rest =>
    (condition.parts.map fun e => ⟨locals, looping, .expr e⟩) ++
      ⟨locals, looping, .block (declaredNames body)⟩ :: stmtsPoints locals looping body ++
      armsPoints locals looping rest

end

/-- The points of a function or of the main program. Parameters share a block with the body. -/
def bodyPoints (params : List Symbol) (body : List Stmt) : List Point :=
  ⟨[], false, .block (params ++ declaredNames body)⟩ :: stmtsPoints params false body

/-- The points of a program. -/
def Program.points (p : Program) : List Point :=
  bodyPoints [] p.main ++ p.functions.flatMap fun d => bodyPoints (d.params.map Binder.name) d.body

/-! ## Well-formedness -/

/-- What a program has to be in order to be compiled. -/
structure Program.WellFormed (p : Program) : Prop where
  types : (p.types.map TypeDecl.name).Nodup
  functions : (p.functions.map FunctionDecl.name).Nodup
  /-- Functions and types are declared at the top level only. -/
  nested : ∀ x ∈ p.points, ∀ s, x.node = .stmt s → s.isDeclaration = false
  /-- No block declares a name twice. -/
  blocks : ∀ x ∈ p.points, ∀ names, x.node = .block names → names.Nodup
  slots : ∀ x ∈ p.points, x.locals.length ≤ 256
  jumps : ∀ x ∈ p.points, ∀ s, x.node = .stmt s → s.isLoopJump = true → x.looping = true
  targets : ∀ x ∈ p.points, ∀ target op value span, x.node = .stmt (.assign target op value span) →
    target.isAssignable = true
  /-- What is constructed has a declared type, and gets no more values than that has fields. -/
  constructs : ∀ x ∈ p.points, ∀ type args span, x.node = .expr (.construct type args span) →
    ∃ d ∈ p.types, d.name = type ∧ args.length ≤ d.fields.length
  /-- A declared function that is called by its name, which no local hides, gets its arguments. -/
  calls : ∀ x ∈ p.points, ∀ n s args span, x.node = .expr (.call (.name n s) args span) →
    n ∉ x.locals → ∀ d ∈ p.functions, d.name = n → args.length = d.params.length
  counts : ∀ x ∈ p.points, ∀ e, x.node = .expr e → e.argCount ≤ 255

/-- The name that an expression is. -/
def Expr.name? : Expr → Option Symbol
  | .name n _ => some n
  | _ => none

/-- What an expression has to be where some locals are live, apart from its parts. -/
def Expr.Fits (p : Program) (locals : List Symbol) : Expr → Prop
  | .call callee args _ => args.length ≤ 255 ∧ ∀ n ∈ callee.name?, n ∉ locals →
    ∀ d ∈ p.functions, d.name = n → args.length = d.params.length
  | .methodCall _ _ args _ => args.length ≤ 255
  | .construct type args _ => args.length ≤ 255 ∧
    ∃ d ∈ p.types, d.name = type ∧ args.length ≤ d.fields.length
  | _ => True

/-- What a statement has to be, apart from its parts. -/
def Stmt.Fits (looping : Bool) : Stmt → Prop
  | .assign target _ _ _ => target.isAssignable = true
  | .exitLoop _ | .nextRound _ => looping = true
  | .function _ _ | .type _ _ => False
  | _ => True

/-- What a point of a program has to be. -/
def Point.Fits (p : Program) (x : Point) : Prop :=
  x.locals.length ≤ 256 ∧
    match x.node with
    | .expr e => e.Fits p x.locals
    | .stmt s => s.Fits x.looping
    | .block names => names.Nodup
    | .stop => True

theorem Program.wellFormed_iff (p : Program) :
    p.WellFormed ↔ (p.types.map TypeDecl.name).Nodup ∧ (p.functions.map FunctionDecl.name).Nodup ∧
      ∀ x ∈ p.points, x.Fits p := by
  constructor
  · refine fun h => ⟨h.types, h.functions, fun x hx => ⟨h.slots x hx, ?_⟩⟩
    cases hn : x.node with
    | expr e =>
      cases e with
      | call callee args =>
        refine ⟨h.counts x hx _ hn, fun n hname => ?_⟩
        cases callee with
        | name m s =>
          cases hname
          exact h.calls x hx n s args _ hn
        | _ => cases hname
      | methodCall o n args => exact h.counts x hx _ hn
      | construct type args => exact ⟨h.counts x hx _ hn, h.constructs x hx _ _ _ hn⟩
      | _ => trivial
    | stmt s =>
      cases s with
      | assign => exact h.targets x hx _ _ _ _ hn
      | exitLoop => exact h.jumps x hx _ hn rfl
      | nextRound => exact h.jumps x hx _ hn rfl
      | function => exact absurd (h.nested x hx _ hn) Bool.noConfusion
      | type => exact absurd (h.nested x hx _ hn) Bool.noConfusion
      | _ => trivial
    | block names => exact h.blocks x hx names hn
    | stop => trivial
  · rintro ⟨htypes, hfunctions, h⟩
    have hexpr : ∀ x ∈ p.points, ∀ e, x.node = .expr e → e.Fits p x.locals := fun x hx e hn => by
      have := (h x hx).2
      rwa [hn] at this
    have hstmt : ∀ x ∈ p.points, ∀ s, x.node = .stmt s → s.Fits x.looping := fun x hx s hn => by
      have := (h x hx).2
      rwa [hn] at this
    refine ⟨htypes, hfunctions, fun x hx s hn => ?_, fun x hx names hn => ?_, fun x hx => (h x hx).1,
      fun x hx s hn hj => ?_, fun x hx _ _ _ _ hn => hstmt x hx _ hn,
      fun x hx _ _ _ hn => (hexpr x hx _ hn).2,
      fun x hx n _ _ _ hn => (hexpr x hx _ hn).2 n rfl, fun x hx e hn => ?_⟩
    · have := hstmt x hx s hn
      cases s with
      | function => exact this.elim
      | type => exact this.elim
      | _ => rfl
    · have := (h x hx).2
      rwa [hn] at this
    · have := hstmt x hx s hn
      cases s with
      | exitLoop => exact this
      | nextRound => exact this
      | _ => cases hj
    · have := hexpr x hx e hn
      cases e with
      | call => exact this.1
      | methodCall => exact this
      | construct => exact this.1
      | _ => exact Nat.zero_le _

instance (p : Program) (locals : List Symbol) : DecidablePred (Expr.Fits p locals)
  | .call .. => inferInstanceAs (Decidable (_ ∧ _))
  | .methodCall .. => inferInstanceAs (Decidable (_ ≤ _))
  | .construct .. => inferInstanceAs (Decidable (_ ∧ _))
  | .literal .. | .name .. | .binary .. | .unary .. | .array .. | .index .. | .field .. =>
    inferInstanceAs (Decidable True)

instance (looping : Bool) : DecidablePred (Stmt.Fits looping)
  | .assign .. | .exitLoop .. | .nextRound .. => inferInstanceAs (Decidable (_ = _))
  | .function .. | .type .. => inferInstanceAs (Decidable False)
  | .expression .. | .declare .. | .block .. | .branch .. | .loop .. | .giveBack .. =>
    inferInstanceAs (Decidable True)

instance (p : Program) : DecidablePred (Point.Fits p)
  | ⟨_, _, .expr _⟩ | ⟨_, _, .stmt _⟩ | ⟨_, _, .block _⟩ | ⟨_, _, .stop⟩ =>
    inferInstanceAs (Decidable (_ ∧ _))

instance (p : Program) : Decidable p.WellFormed := decidable_of_iff _ p.wellFormed_iff.symm

end Scriptlet
