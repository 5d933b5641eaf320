import Scriptlet.Proofs.Code.Layout
import Scriptlet.Proofs.Reading.Regions

/-!
# Compiling does not look at regions

Regions of source text end up in the table of positions and in errors, but nothing else depends on
them: a program without its regions is compiled to what the program is compiled to, without its
regions. The offsets in the table are the same as well.

Main statement: `Program.compile_congr`, programs that are the same up to regions have the same code
and tables, or are refused for the same cause.
-/

namespace Scriptlet

/-! ## Code without regions -/

/-- Positions without their regions. -/
def barePositions (positions : Array (Nat × Span)) : Array (Nat × Span) :=
  positions.map fun p => (p.1, {})

namespace Fragment

variable {f g : Fragment}

/-- A fragment without regions. -/
def bare (f : Fragment) : Fragment := { f with positions := barePositions f.positions }

/-- Guarded code without regions. -/
def Guarded.bare (g : Guarded) : Guarded := ⟨g.condition.bare, g.body.bare⟩

@[simp] theorem Guarded.condition_bare (g : Guarded) : g.bare.condition = g.condition.bare := rfl

@[simp] theorem Guarded.body_bare (g : Guarded) : g.bare.body = g.body.bare := rfl

@[simp] theorem bare_empty : empty.bare = empty := by
  simp [bare, empty, barePositions]

@[simp] theorem size_bare (f : Fragment) : f.bare.size = f.size := rfl

@[simp] theorem bare_emit (f : Fragment) (i : Instruction) : (f.emit i).bare = f.bare.emit i := rfl

@[simp] theorem bare_emitJump (f : Fragment) (kind : JumpKind) (target : JumpTarget) :
    (f.emitJump kind target).bare = f.bare.emitJump kind target := rfl

@[simp] theorem bare_mark (f : Fragment) (span : Span) : (f.mark span).bare = f.bare.mark {} := by
  have hback : (barePositions f.positions).back? = f.positions.back?.map fun p => (p.1, {}) := by
    simp [barePositions]
  have hpush : ∀ a : Array (Nat × Span), barePositions (a.push (f.size, span)) =
      (barePositions a).push (f.size, {}) := fun a => by simp [barePositions]
  have hpop : barePositions f.positions.pop = (barePositions f.positions).pop := by
    simp [barePositions]
  unfold mark
  rw [show f.bare.positions = barePositions f.positions from rfl, hback, size_bare]
  cases f.positions.back? with
  | none => simp only [Option.map_none, bare, hpush]
  | some p =>
    simp only [Option.map_some]
    split
    · simp only [bare, hpush, hpop]
    · simp only [bare, hpush]

@[simp] theorem bare_emitAt (f : Fragment) (i : Instruction) (span : Span) :
    (f.emitAt i span).bare = f.bare.emitAt i {} := by
  rw [emitAt, emitAt, bare_emit, bare_mark]

@[simp] theorem bare_append (f g : Fragment) : (f ++ g).bare = f.bare ++ g.bare := by
  have hpositions : (f ++ g).bare.positions = (f.bare ++ g.bare).positions := by
    change barePositions (f.positions ++ g.positions.map fun p => (p.1 + f.size, p.2)) =
      barePositions f.positions ++ (barePositions g.positions).map fun p => (p.1 + f.size, p.2)
    simp [barePositions, Function.comp_def]
  calc (f ++ g).bare
      = { f.bare ++ g.bare with positions := (f ++ g).bare.positions } := rfl
    _ = f.bare ++ g.bare := by rw [hpositions]

@[simp] theorem bare_bindLoop (f : Fragment) (start stop : Nat) :
    (f.bindLoop start stop).bare = f.bare.bindLoop start stop := rfl

end Fragment

namespace Compile

open Fragment (Guarded)

/-- Where each step commutes with taking off regions, steps in a row do. -/
theorem bareResult_bind {ε α α' β β' : Type} {f : α → α'} {g : β → β'}
    {x : Except (Located ε) α} {y : Except (Located ε) α'} {k : α → Except (Located ε) β}
    {k' : α' → Except (Located ε) β'} (h : y = bareResult f x)
    (hk : ∀ a, k' (f a) = bareResult g (k a)) : (y >>= k') = bareResult g (x >>= k) := by
  subst h
  cases x with
  | error e => rfl
  | ok a => exact hk a

theorem bareResult_pure {ε α β : Type} {f : α → β} {a : α} {b : β} (h : b = f a) :
    (pure b : Except (Located ε) β) = bareResult f (pure a) := by
  rw [h]
  rfl

@[simp] theorem bare_releaseSlots (f : Fragment) (count : Nat) :
    (releaseSlots f count).bare = releaseSlots f.bare count := by
  fun_induction releaseSlots f count with
  | case1 f => rw [releaseSlots, if_pos rfl]
  | case2 f count hne step ih =>
    rw [ih, releaseSlots.eq_def f.bare count, if_neg hne]
    rfl

/-! ## Expressions -/

section expressions

variable (env : Env) (scope : Scope)

theorem length_bareAll (es : List Expr) : (Expr.bareAll es).length = es.length := by
  induction es with
  | nil => rfl
  | cons e es ih => rw [Expr.bareAll, List.length_cons, List.length_cons, ih]

theorem negated?_bare (op : UnaryOp) (e : Expr) : negated? op e.bare = negated? op e := by
  cases e with
  | literal v _ => cases op <;> cases v <;> rfl
  | _ => cases op <;> rfl

theorem directCallee?_bare (e : Expr) : directCallee? env scope e.bare = directCallee? env scope e := by
  cases e <;> rfl

theorem checkCount_bare (args : List Expr) (span : Span) :
    checkCount (Expr.bareAll args) {} = bareResult id (checkCount args span) := by
  unfold checkCount
  rw [length_bareAll]
  split <;> rfl

theorem readName_bare (name : Symbol) (span : Span) :
    readName env scope name {} = (readName env scope name span).bare := by
  unfold readName
  split
  · simp
  · split <;> simp

mutual

theorem expr_bare : ∀ e : Expr, expr env scope e.bare = bareResult Fragment.bare (expr env scope e)
  | .literal v _ => by
    rw [Expr.bare, expr, expr]
    exact bareResult_pure (by simp)
  | .name name span => by
    rw [Expr.bare, expr, expr, readName_bare env scope name span]
    rfl
  | .binary op left right span => by
    rw [Expr.bare, expr, expr]
    refine bareResult_bind (expr_bare left) fun l => bareResult_bind (expr_bare right) fun r => ?_
    exact bareResult_pure (by simp)
  | .unary op operand span => by
    rw [Expr.bare, expr, expr, negated?_bare]
    split
    · exact bareResult_pure (by simp)
    · refine bareResult_bind (expr_bare operand) fun f => ?_
      exact bareResult_pure (by simp)
  | .array items _ => by
    rw [Expr.bare, expr, expr, length_bareAll]
    exact bareResult_bind (exprs_bare items) fun f => bareResult_pure (by simp)
  | .index object index span => by
    rw [Expr.bare, expr, expr]
    refine bareResult_bind (expr_bare object) fun o => bareResult_bind (expr_bare index) fun i => ?_
    exact bareResult_pure (by simp)
  | .field object name span => by
    rw [Expr.bare, expr, expr]
    refine bareResult_bind (expr_bare object) fun o => ?_
    exact bareResult_pure (by simp)
  | .call callee args span => by
    rw [Expr.bare, expr, expr, directCallee?_bare, length_bareAll]
    split
    · split
      · rfl
      · refine bareResult_bind (checkCount_bare args span) fun _ => ?_
        refine bareResult_bind (exprs_bare args) fun as => ?_
        exact bareResult_pure (by simp)
    · refine bareResult_bind (checkCount_bare args span) fun count => ?_
      refine bareResult_bind (exprs_bare args) fun as => bareResult_bind (expr_bare callee) fun f => ?_
      exact bareResult_pure (by simp)
  | .methodCall object name args span => by
    rw [Expr.bare, expr, expr]
    refine bareResult_bind (expr_bare object) fun o => ?_
    refine bareResult_bind (checkCount_bare args span) fun count => ?_
    refine bareResult_bind (exprs_bare args) fun as => ?_
    exact bareResult_pure (by simp)
  | .construct type args span => by
    rw [Expr.bare, expr, expr, length_bareAll]
    split
    · rfl
    · split
      · rfl
      · refine bareResult_bind (checkCount_bare args span) fun count => ?_
        refine bareResult_bind (exprs_bare args) fun as => ?_
        exact bareResult_pure (by simp)

theorem exprs_bare : ∀ es : List Expr,
    exprs env scope (Expr.bareAll es) = bareResult Fragment.bare (exprs env scope es)
  | [] => by
    rw [Expr.bareAll, exprs]
    exact bareResult_pure (by simp)
  | e :: es => by
    rw [Expr.bareAll, exprs, exprs]
    refine bareResult_bind (expr_bare e) fun f => bareResult_bind (exprs_bare es) fun fs => ?_
    exact bareResult_pure (by simp)

end

/-- The code of a place without regions. -/
def Place.bare (p : Place) : Place := ⟨p.load.bare, p.store.bare⟩

theorem place_bare (target : Expr) :
    place env scope target.bare = bareResult Place.bare (place env scope target) := by
  cases target with
  | name name span =>
    rw [Expr.bare, place, place]
    split
    · exact bareResult_pure (by simp [Place.bare])
    · exact bareResult_pure (by simp [Place.bare])
  | index object index span =>
    refine bareResult_bind (expr_bare env scope object) fun o =>
      bareResult_bind (expr_bare env scope index) fun i => ?_
    exact bareResult_pure (by simp [Place.bare])
  | field object name span =>
    refine bareResult_bind (expr_bare env scope object) fun o => ?_
    exact bareResult_pure (by simp [Place.bare])
  | _ => exact bareResult_bind (expr_bare env scope _) fun _ => rfl

end expressions

/-! ## Statements -/

section statements

variable (env : Env)

/-- Code and the scope behind it, without regions. -/
def bareScoped (r : Fragment × Scope) : Fragment × Scope := (r.1.bare, r.2)

theorem declare_bare (scope : Scope) (name : Symbol) (span : Span) :
    declare env scope name {} = bareResult id (declare env scope name span) := by
  unfold declare
  split <;> rfl

@[simp] theorem bare_closeBlock (r : Fragment × Scope) :
    (closeBlock r).bare = closeBlock (bareScoped r) := by
  simp [closeBlock, bareScoped]

@[simp] theorem size_bare_guarded (g : Guarded) (trailingJump : Bool) :
    g.bare.size trailingJump = g.size trailingJump := rfl

@[simp] theorem bare_layoutArms (stop : Nat) (hasElse : Bool) (out : Fragment) (gs : List Guarded) :
    (layoutArms stop hasElse out gs).bare = layoutArms stop hasElse out.bare (gs.map Guarded.bare) := by
  induction gs generalizing out with
  | nil => rfl
  | cons g gs ih =>
    have hempty : (gs.map Guarded.bare).isEmpty = gs.isEmpty := by cases gs <;> rfl
    rw [layoutArms, ih, List.map_cons, layoutArms, hempty]
    split <;> simp

@[simp] theorem armsSize_bare (hasElse : Bool) (gs : List Guarded) :
    armsSize hasElse (gs.map Guarded.bare) = armsSize hasElse gs := by
  induction gs with
  | nil => rfl
  | cons g gs ih =>
    have hempty : (gs.map Guarded.bare).isEmpty = gs.isEmpty := by cases gs <;> rfl
    rw [List.map_cons, armsSize, armsSize, ih, hempty, size_bare_guarded]

@[simp] theorem bare_layoutBranch (gs : List Guarded) (otherwise : Option Fragment) :
    (layoutBranch gs otherwise).bare = layoutBranch (gs.map Guarded.bare) (otherwise.map Fragment.bare) := by
  cases otherwise <;> simp [layoutBranch]

@[simp] theorem bare_layoutLoop (g : Guarded) : (layoutLoop g).bare = layoutLoop g.bare := by
  simp [layoutLoop]

theorem loopJump_bare (out : Fragment) (scope : Scope) (target : JumpTarget) (outside : Error) :
    loopJump out.bare scope target outside.bare =
      bareResult Fragment.bare (loopJump out scope target outside) := by
  unfold loopJump
  split
  · exact bareResult_pure (by simp)
  · rfl

theorem assignment_bare (scope : Scope) (target : Expr) (op : Option BinaryOp) (value : Expr)
    (span : Span) :
    assignment env scope target.bare op value.bare {} =
      bareResult Fragment.bare (assignment env scope target op value span) := by
  unfold assignment
  refine bareResult_bind (place_bare env scope target) fun p => ?_
  refine bareResult_bind (expr_bare env scope value) fun v => ?_
  cases op with
  | none => exact bareResult_pure (by simp [Place.bare])
  | some op => exact bareResult_pure (by simp [Place.bare])

mutual

theorem stmt_bare : ∀ (scope : Scope) (s : Stmt),
    stmt env scope s.bare = bareResult bareScoped (stmt env scope s)
  | scope, .expression e span => by
    rw [Stmt.bare, stmt, stmt]
    exact bareResult_bind (expr_bare env scope e) fun f => bareResult_pure (by simp [bareScoped])
  | scope, .declare name initial span => by
    rw [Stmt.bare, stmt, stmt]
    refine bareResult_bind (expr_bare env scope initial) fun f => ?_
    refine bareResult_bind (declare_bare env scope name span) fun r => ?_
    exact bareResult_pure (by simp [bareScoped])
  | scope, .assign target op value span => by
    rw [Stmt.bare, stmt, stmt]
    exact bareResult_bind (assignment_bare env scope target op value span) fun f => bareResult_pure rfl
  | scope, .block body span => by
    rw [Stmt.bare, stmt, stmt]
    refine bareResult_bind (stmts_bare (scope.enter .plain) body) fun r => ?_
    exact bareResult_pure (by simp [bareScoped])
  | scope, .branch branches none span => by
    rw [Stmt.bare, stmt, stmt]
    refine bareResult_bind (arms_bare scope branches) fun gs => ?_
    exact bareResult_pure (by simp [bareScoped])
  | scope, .branch branches (some body) span => by
    rw [Stmt.bare, stmt, stmt]
    refine bareResult_bind (arms_bare scope branches) fun gs => ?_
    refine bareResult_bind (stmts_bare (scope.enter .plain) body) fun r => ?_
    exact bareResult_pure (by simp [bareScoped])
  | scope, .loop condition body span => by
    rw [Stmt.bare, stmt, stmt]
    refine bareResult_bind (expr_bare env scope condition) fun c => ?_
    refine bareResult_bind (stmts_bare (scope.enter .loop) body) fun r => ?_
    exact bareResult_pure (by simp [bareScoped, Guarded.bare])
  | scope, .exitLoop span => by
    rw [Stmt.bare, stmt, stmt]
    have := loopJump_bare (Fragment.empty.mark span) scope .loopExit ⟨.breakOutsideLoop, span⟩
    rw [Fragment.bare_mark, Fragment.bare_empty] at this
    exact bareResult_bind this fun f => bareResult_pure rfl
  | scope, .nextRound span => by
    rw [Stmt.bare, stmt, stmt]
    have := loopJump_bare (Fragment.empty.mark span) scope .loopStart ⟨.continueOutsideLoop, span⟩
    rw [Fragment.bare_mark, Fragment.bare_empty] at this
    exact bareResult_bind this fun f => bareResult_pure rfl
  | scope, .giveBack none span => by
    rw [Stmt.bare, Option.map_none, stmt, stmt]
    exact bareResult_pure (by simp [bareScoped])
  | scope, .giveBack (some e) span => by
    rw [Stmt.bare, Option.map_some, stmt, stmt]
    exact bareResult_bind (expr_bare env scope e) fun f => bareResult_pure (by simp [bareScoped])
  | scope, .function decl span => by
    rw [Stmt.bare, stmt, stmt]
    rfl
  | scope, .type decl span => by
    rw [Stmt.bare, stmt, stmt]
    rfl

theorem stmts_bare : ∀ (scope : Scope) (ss : List Stmt),
    stmts env scope (Stmt.bareAll ss) = bareResult bareScoped (stmts env scope ss)
  | scope, [] => by
    rw [Stmt.bareAll, stmts]
    exact bareResult_pure (by simp [bareScoped])
  | scope, s :: ss => by
    rw [Stmt.bareAll, stmts, stmts]
    refine bareResult_bind (stmt_bare scope s) fun r => ?_
    refine bareResult_bind (stmts_bare r.2 ss) fun rs => ?_
    exact bareResult_pure (by simp [bareScoped])

theorem arms_bare : ∀ (scope : Scope) (as : List (Arm Stmt)),
    arms env scope (Stmt.bareArms as) = bareResult (List.map Guarded.bare) (arms env scope as)
  | scope, [] => by
    rw [Stmt.bareArms, arms]
    exact bareResult_pure rfl
  | scope, ⟨condition, body, _⟩ :: rest => by
    rw [Stmt.bareArms, arms, arms]
    refine bareResult_bind (expr_bare env scope condition) fun c => ?_
    refine bareResult_bind (stmts_bare (scope.enter .plain) body) fun r => ?_
    refine bareResult_bind (arms_bare scope rest) fun gs => ?_
    exact bareResult_pure (by simp [Guarded.bare])

end

end statements

/-! ## Programs -/

/-- The declaration of a function without regions. -/
def bareFunction (d : Function) : Function :=
  ⟨d.name, d.params.map Binder.bare, d.result, Stmt.bareAll d.body, {}⟩

/-- The declaration of a type without regions. -/
def bareType (d : TypeDecl) : TypeDecl := ⟨d.name, d.fields.map Binder.bare, {}⟩

theorem functions_bare (p : Program) : p.bare.functions = p.functions.map bareFunction := by
  obtain ⟨body⟩ := p
  induction body with
  | nil => rfl
  | cons s ss ih =>
    cases s with
    | branch arms otherwise span => cases otherwise <;> exact ih
    | function decl span => exact congrArg (bareFunction decl :: ·) ih
    | _ => exact ih

theorem types_bare (p : Program) : p.bare.types = p.types.map bareType := by
  obtain ⟨body⟩ := p
  induction body with
  | nil => rfl
  | cons s ss ih =>
    cases s with
    | branch arms otherwise span => cases otherwise <;> exact ih
    | type decl span => exact congrArg (bareType decl :: ·) ih
    | _ => exact ih

theorem main_bare (p : Program) : p.bare.main = Stmt.bareAll p.main := by
  obtain ⟨body⟩ := p
  induction body with
  | nil => rfl
  | cons s ss ih =>
    cases s with
    | branch arms otherwise span => cases otherwise <;> exact congrArg (Stmt.bare _ :: ·) ih
    | function decl span => exact ih
    | type decl span => exact ih
    | _ => exact congrArg (Stmt.bare _ :: ·) ih

theorem signature_bare (bs : List Binder) :
    Prototypes.signature (bs.map Binder.bare) = Prototypes.signature bs := by
  rw [Prototypes.signature, List.map_map]
  rfl

theorem registerTypes_bare (pool : Pool) (p : Prototypes) (ds : List TypeDecl) :
    registerTypes pool p (ds.map bareType) = bareResult id (registerTypes pool p ds) := by
  induction ds generalizing p with
  | nil => rfl
  | cons d ds ih =>
    have hadd : p.addStruct? (bareType d) = p.addStruct? d := by
      simp [Prototypes.addStruct?, bareType, signature_bare]
    rw [List.map_cons, registerTypes, registerTypes, hadd]
    split
    · exact ih _
    · rfl

theorem registerFunctions_bare (pool : Pool) (p : Prototypes) (ds : List Function) :
    registerFunctions pool p (ds.map bareFunction) = bareResult id (registerFunctions pool p ds) := by
  induction ds generalizing p with
  | nil => rfl
  | cons d ds ih =>
    have hadd : p.addFunction? (bareFunction d) = p.addFunction? d := by
      simp [Prototypes.addFunction?, bareFunction, signature_bare]
    rw [List.map_cons, registerFunctions, registerFunctions, hadd]
    split
    · exact ih _
    · rfl

/-- Placed code without regions. -/
def barePlaced (out : PlacedCode) : PlacedCode := ⟨out.code, barePositions out.positions⟩

theorem place_bareFragment (f : Fragment) (base : Nat) :
    f.bare.place base = (f.place base).map barePlaced := by
  have hpatch : Fragment.patch base f.bare.code f.bare.relocations.toList =
      Fragment.patch base f.code f.relocations.toList := rfl
  rw [Fragment.place, Fragment.place, hpatch]
  cases Fragment.patch base f.code f.relocations.toList with
  | error r => rfl
  | ok code => simp [Except.map, barePlaced, Fragment.bare, barePositions, Function.comp_def]

theorem link_bare (out : PlacedCode) (f : Fragment) :
    link (barePlaced out) f.bare = bareResult barePlaced (link out f) := by
  have hsize : (barePlaced out).code.size = out.code.size := rfl
  unfold link
  rw [hsize, place_bareFragment]
  cases f.place out.code.size with
  | error jump => rfl
  | ok placed => exact bareResult_pure (by simp [barePlaced, barePositions])

theorem declareParams_bare (env : Env) (scope : Scope) (bs : List Binder) :
    declareParams env scope (bs.map Binder.bare) = bareResult id (declareParams env scope bs) := by
  induction bs generalizing scope with
  | nil => rfl
  | cons b bs ih =>
    exact bareResult_bind (declare_bare env scope b.name b.span) fun r => ih r.2

theorem endsWithReturn_bare (body : List Stmt) :
    endsWithReturn (Stmt.bareAll body) = endsWithReturn body := by
  induction body with
  | nil => rfl
  | cons s ss ih =>
    cases ss with
    | nil =>
      cases s with
      | branch arms otherwise span => cases otherwise <;> rfl
      | _ => rfl
    | cons t ss =>
      rw [endsWithReturn_cons, ← ih]
      exact endsWithReturn_cons s.bare t.bare (Stmt.bareAll ss)

theorem functionBody_bare (env : Env) (d : Function) :
    functionBody env (bareFunction d) = bareResult Fragment.bare (functionBody env d) := by
  refine bareResult_bind (declareParams_bare env _ d.params) fun scope => ?_
  refine bareResult_bind (stmts_bare env scope d.body) fun r => ?_
  refine bareResult_pure ?_
  change (if endsWithReturn (Stmt.bareAll d.body) then r.1.bare else r.1.bare.emit .ret) = _
  rw [endsWithReturn_bare]
  split <;> rfl

theorem mainBody_bare (env : Env) (body : List Stmt) :
    mainBody env (Stmt.bareAll body) = bareResult Fragment.bare (mainBody env body) :=
  bareResult_bind (stmts_bare env .function body) fun _ => bareResult_pure rfl

theorem linkFunctions_bare (env : Env) (p : Prototypes) (out : PlacedCode) (ds : List Function) :
    linkFunctions env p (barePlaced out) (ds.map bareFunction) =
      bareResult (fun r => (r.1, barePlaced r.2)) (linkFunctions env p out ds) := by
  induction ds generalizing p out with
  | nil => rfl
  | cons d ds ih =>
    refine bareResult_bind (functionBody_bare env d) fun f => ?_
    exact bareResult_bind (link_bare out f) fun next => ih _ next

end Compile

open Compile

/-- Compiled code without regions. -/
def Bytecode.bare (b : Bytecode) : Bytecode := { b with positions := barePositions b.positions }

/-- A program without its regions is compiled to what the program is compiled to, without its
regions. -/
theorem Program.compile_bare (p : Program) (pool : Pool) :
    p.bare.compile pool = bareResult Bytecode.bare (p.compile pool) := by
  unfold Program.compile
  rw [types_bare, functions_bare, main_bare]
  refine bareResult_bind (registerTypes_bare pool .empty p.types) fun withTypes => ?_
  refine bareResult_bind (registerFunctions_bare pool withTypes p.functions) fun prototypes => ?_
  refine bareResult_bind (mainBody_bare ⟨pool, prototypes⟩ p.main) fun main => ?_
  have hempty : barePlaced ⟨#[], #[]⟩ = ⟨#[], #[]⟩ := by simp [barePlaced, barePositions]
  refine bareResult_bind (hempty ▸ link_bare ⟨#[], #[]⟩ main) fun linked => ?_
  exact bareResult_bind (linkFunctions_bare ⟨pool, prototypes⟩ prototypes linked p.functions) fun r =>
    bareResult_pure rfl

/-- Programs that are the same up to regions have the same code and tables, or are refused for the
same cause. -/
theorem Program.compile_congr {p p' : Program} (h : p'.bare = p.bare) (pool : Pool) :
    bareResult Bytecode.bare (p'.compile pool) = bareResult Bytecode.bare (p.compile pool) := by
  rw [← compile_bare, ← compile_bare, h]

end Scriptlet
