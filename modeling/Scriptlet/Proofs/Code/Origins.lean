import Scriptlet.Proofs.Code.Bodies
import Scriptlet.Proofs.Code.PositionTable

/-!
# Where instructions come from

Some instructions may fault in compiled code (`Instruction.canFault`), and every one of them comes from
a node of the program. `Program.origins` lists these nodes in the order of the code, by a walk through
the trees of the program that lays out nothing: an operator, a look-up or a call comes from its own
expression, the two halves of an assignment come from its target, and the operator that an assignment
folds in comes from the whole statement.

Code is `Charted` by a table of positions if its instructions that may fault are those of a list of
origins, one by one, and the table says the region of its node for each. A fragment is `Traced` if it
is charted by its own table wherever it stands. So the code of an expression is (`expr_traced`), and
that of a statement, and hence that of a program (`charted_of_compile`).
-/

namespace Scriptlet

/-- The instruction may fault in compiled code. -/
def Instruction.canFault : Instruction → Bool
  | .binary _ | .unary _ | .getGlobal | .getElement | .setElement | .getField _ | .setField _
  | .construct .. | .callMethod .. | .call _ | .callFunction _ => true
  | _ => false

/-- A node of a program. -/
inductive SourceNode where
  | expr (e : Expr)
  | stmt (s : Stmt)

/-- The region of source text that a node was read from. -/
def SourceNode.span : SourceNode → Span
  | expr e => e.span
  | stmt s => s.span

/-- An instruction and the node that it comes from. -/
structure Origin where
  instruction : Instruction
  node : SourceNode

namespace Compile

/-! ## Origins -/

mutual

/-- The origins of an expression. A name has one if it is that of a global; the literal that a minus
sign is folded into has none; and a callee that is called directly is not evaluated. -/
def exprOrigins (env : Env) (sc : Scope) : Expr → List Origin
  | .literal .. => []
  | .name name span =>
    if (sc.slot? name).isSome || (env.prototypes.function? name).isSome then []
    else [⟨.getGlobal, .expr (.name name span)⟩]
  | .binary op left right span =>
    exprOrigins env sc left ++ exprOrigins env sc right ++
      [⟨.binary op, .expr (.binary op left right span)⟩]
  | .unary op operand span =>
    match negated? op operand with
    | some _ => []
    | none => exprOrigins env sc operand ++ [⟨.unary op, .expr (.unary op operand span)⟩]
  | .array items _ => exprsOrigins env sc items
  | .index object index span =>
    exprOrigins env sc object ++ exprOrigins env sc index ++
      [⟨.getElement, .expr (.index object index span)⟩]
  | .field object name span =>
    exprOrigins env sc object ++ [⟨.getField name, .expr (.field object name span)⟩]
  | .call callee args span =>
    match directCallee? env sc callee with
    | some (_, id, _) =>
      exprsOrigins env sc args ++ [⟨.callFunction id, .expr (.call callee args span)⟩]
    | none =>
      exprsOrigins env sc args ++ exprOrigins env sc callee ++
        [⟨.call (UInt8.ofNat args.length), .expr (.call callee args span)⟩]
  | .methodCall object name args span =>
    exprOrigins env sc object ++ exprsOrigins env sc args ++
      [⟨.callMethod name (UInt8.ofNat args.length), .expr (.methodCall object name args span)⟩]
  | .construct type args span =>
    exprsOrigins env sc args ++ (env.prototypes.struct? type).toList.map fun s =>
      ⟨.construct s.1 (UInt8.ofNat args.length), .expr (.construct type args span)⟩

/-- The origins of several expressions, one after the other. -/
def exprsOrigins (env : Env) (sc : Scope) : List Expr → List Origin
  | [] => []
  | e :: es => exprOrigins env sc e ++ exprsOrigins env sc es

end

/-- The origins of the code that reads the target of an assignment. -/
def loadOrigins (env : Env) (sc : Scope) (target : Expr) : List Origin :=
  match target with
  | .name name _ => if (sc.slot? name).isSome then [] else [⟨.getGlobal, .expr target⟩]
  | .index object index _ =>
    exprOrigins env sc object ++ exprOrigins env sc index ++ [⟨.getElement, .expr target⟩]
  | .field object name _ => exprOrigins env sc object ++ [⟨.getField name, .expr target⟩]
  | _ => []

/-- The origins of the code that stores into the target of an assignment. The store into a global
does not fault. -/
def storeOrigins (env : Env) (sc : Scope) (target : Expr) : List Origin :=
  match target with
  | .index object index _ =>
    exprOrigins env sc object ++ exprOrigins env sc index ++ [⟨.setElement, .expr target⟩]
  | .field object name _ => exprOrigins env sc object ++ [⟨.setField name, .expr target⟩]
  | _ => []

/-- The scope behind a statement. -/
def scopeBehind (sc : Scope) : Stmt → Scope
  | .declare name _ _ =>
    match sc.declare name with
    | .ok (_, inner) => inner
    | .error _ => sc
  | _ => sc

mutual

/-- The origins of a statement. -/
def stmtOrigins (env : Env) (sc : Scope) : Stmt → List Origin
  | .expression e _ => exprOrigins env sc e
  | .declare _ e _ => exprOrigins env sc e
  | .assign target none value _ => exprOrigins env sc value ++ storeOrigins env sc target
  | .assign target (some op) value span =>
    loadOrigins env sc target ++ exprOrigins env sc value ++
      [⟨.binary op, .stmt (.assign target (some op) value span)⟩] ++ storeOrigins env sc target
  | .block body _ => stmtsOrigins env (sc.enter .plain) body
  | .branch branches none _ => armsOrigins env sc branches
  | .branch branches (some body) _ =>
    armsOrigins env sc branches ++ stmtsOrigins env (sc.enter .plain) body
  | .loop condition body _ =>
    exprOrigins env sc condition ++ stmtsOrigins env (sc.enter .loop) body
  | .giveBack (some e) _ => exprOrigins env sc e
  | .giveBack none _ | .exitLoop _ | .nextRound _ | .function .. | .type .. => []

/-- The origins of statements one after the other. -/
def stmtsOrigins (env : Env) (sc : Scope) : List Stmt → List Origin
  | [] => []
  | s :: ss => stmtOrigins env sc s ++ stmtsOrigins env (scopeBehind sc s) ss

/-- The origins of the arms of a branching. -/
def armsOrigins (env : Env) (sc : Scope) : List (Arm Stmt) → List Origin
  | [] => []
  | ⟨condition, body, _⟩ :: rest =>
    exprOrigins env sc condition ++ stmtsOrigins env (sc.enter .plain) body ++
      armsOrigins env sc rest

end

/-- The origins of a function. -/
def functionOrigins (env : Env) (d : Function) : List Origin :=
  match declareParams env Scope.function d.params with
  | .ok sc => stmtsOrigins env sc d.body
  | .error _ => []

end Compile

open Compile in
/-- The origins of a program: of its main statements, and of its functions in the order of their
declaration. -/
def Program.origins (p : Program) (pool : Pool) : List Origin :=
  match register p pool with
  | .ok prototypes =>
    let env : Env := ⟨pool, prototypes⟩
    stmtsOrigins env Scope.function p.main ++ p.functions.flatMap (functionOrigins env)
  | .error _ => []

/-! ## Charted code -/

/-- An instruction comes from an origin, and a table says so of its offset. -/
def Origin.At (ps : List (Nat × Span)) (x : Nat × Instruction) (o : Origin) : Prop :=
  x.2 = o.instruction ∧ closest? ps x.1 = some o.node.span

/-- A range of whole instructions, of which those that may fault come from origins, with a table of
positions inside of the range that says so. -/
structure Charted (code : Array UInt8) (lo hi : Nat) (ps : List (Nat × Span)) (os : List Origin) :
    Prop where
  ascending : Ascending ps
  inside : ∀ p ∈ ps, lo ≤ p.1 ∧ p.1 ≤ hi
  traced : ∃ is, Reads code lo hi is ∧ List.Forall₂ (Origin.At ps) (is.filter (·.2.canFault)) os

namespace Charted

variable {code : Array UInt8} {lo mid hi : Nat} {ps qs : List (Nat × Span)} {os os' : List Origin}

theorem nil : Charted code lo lo [] [] where
  ascending := .nil
  inside p hp := by cases hp
  traced := ⟨[], .nil lo, .nil⟩

/-- What a table says of the instructions of a range stays if it changes behind them only. -/
theorem forall₂_at {is : List (Nat × Instruction)} (hr : Reads code lo hi is)
    (h : List.Forall₂ (Origin.At ps) (is.filter (·.2.canFault)) os)
    (hq : ∀ offset < hi, closest? qs offset = closest? ps offset) :
    List.Forall₂ (Origin.At qs) (is.filter (·.2.canFault)) os := by
  have hlt : ∀ x ∈ is.filter (·.2.canFault), x.1 < hi := by
    intro x hx
    have := (hr.of_mem (List.mem_of_mem_filter hx)).2.1
    have := x.2.width_pos
    omega
  refine ((List.forall₂_and_left _ _).2 ⟨hlt, h⟩).imp fun x o hxo => ?_
  obtain ⟨hx, hi, hspan⟩ := hxo
  exact ⟨hi, (hq _ hx).trans hspan⟩

theorem append (h₁ : Charted code lo mid ps os) (h₂ : Charted code mid hi qs os') :
    Charted code lo hi (ps ++ qs) (os ++ os') := by
  obtain ⟨is, hr, his⟩ := h₁.traced
  obtain ⟨js, hr', hjs⟩ := h₂.traced
  have hlo := hr.le
  have hhi := hr'.le
  refine ⟨?_, fun p hp => ?_, is ++ js, hr.append hr', ?_⟩
  · refine List.pairwise_append.2 ⟨h₁.ascending, h₂.ascending, fun p hp q hq => ?_⟩
    exact Nat.le_trans (h₁.inside p hp).2 (h₂.inside q hq).1
  · rcases List.mem_append.1 hp with hp | hp
    · have := h₁.inside p hp
      omega
    · have := h₂.inside p hp
      omega
  · rw [List.filter_append]
    refine List.rel_append (forall₂_at hr his fun offset hoff => ?_) (hjs.imp fun x o hxo => ?_)
    · exact closest?_append_of_lt fun q hq => Nat.lt_of_lt_of_le hoff (h₂.inside q hq).1
    · exact ⟨hxo.1, closest?_append_of_some hxo.2⟩

/-- A mark at the end of a range says nothing about the range. -/
theorem mark {span : Span} (h : Charted code lo hi ps os) (hm : Marked ps hi span qs) :
    Charted code lo hi qs os := by
  obtain ⟨l, rfl, hl⟩ := hm
  obtain ⟨is, hr, his⟩ := h.traced
  have hbehind : ∀ (s : Span) (offset : Nat), offset < hi →
      closest? (l ++ [(hi, s)]) offset = closest? l offset := fun s offset hoff =>
    closest?_append_of_lt fun q hq => by cases List.mem_singleton.1 hq; exact hoff
  obtain ⟨hasc, hin, hsame⟩ : Ascending l ∧ (∀ p ∈ l, lo ≤ p.1 ∧ p.1 ≤ hi) ∧
      ∀ offset < hi, closest? l offset = closest? ps offset := by
    obtain rfl | ⟨s, rfl⟩ := hl
    · exact ⟨h.ascending, h.inside, fun _ _ => rfl⟩
    · refine ⟨(List.pairwise_append.1 h.ascending).1, fun p hp => ?_, fun offset hoff => ?_⟩
      · exact h.inside p (List.mem_append_left _ hp)
      · exact (hbehind s offset hoff).symm
  refine ⟨?_, fun p hp => ?_, is, hr, ?_⟩
  · refine List.pairwise_append.2 ⟨hasc, List.pairwise_singleton _ _, fun p hp q hq => ?_⟩
    cases List.mem_singleton.1 hq
    exact (hin p hp).2
  · rcases List.mem_append.1 hp with hp | hp
    · exact hin p hp
    · cases List.mem_singleton.1 hp
      exact ⟨hr.le, Nat.le_refl _⟩
  · exact forall₂_at hr his fun offset hoff => (hbehind span offset hoff).trans (hsame offset hoff)

variable {i : Instruction}

theorem emit (h : Charted code lo hi ps os) (hd : Instruction.decode code hi = .instruction i)
    (hcan : i.canFault = false) : Charted code lo (hi + i.width) ps os := by
  obtain ⟨is, hr, his⟩ := h.traced
  refine ⟨h.ascending, fun p hp => ?_, is ++ [(_, i)], hr.append (.single hd), ?_⟩
  · have := h.inside p hp
    omega
  · rw [List.filter_append, List.filter_cons_of_neg (by simp [hcan]), List.filter_nil, List.append_nil]
    exact his

/-- An instruction that may fault, with a mark in front of it. -/
theorem emitAt {node : SourceNode} (h : Charted code lo hi ps os) (hm : Marked ps hi node.span qs)
    (hd : Instruction.decode code hi = .instruction i) (hcan : i.canFault = true) :
    Charted code lo (hi + i.width) qs (os ++ [⟨i, node⟩]) := by
  have hmarked := h.mark hm
  obtain ⟨is, hr, his⟩ := hmarked.traced
  refine ⟨hmarked.ascending, fun p hp => ?_, is ++ [(_, i)], hr.append (.single hd), ?_⟩
  · have := hmarked.inside p hp
    omega
  · rw [List.filter_append, List.filter_cons_of_pos (by simp [hcan]), List.filter_nil]
    refine List.rel_append his (.cons ⟨rfl, ?_⟩ .nil)
    obtain ⟨l, rfl, -⟩ := hm
    exact closest?_concat (Nat.le_refl _)

end Charted

/-! ## Traced fragments -/

namespace Fragment

/-- A fragment that is charted by its table wherever it stands. -/
structure Traced (f : Fragment) (os : List Origin) : Prop where
  tidy : f.Tidy
  charted : ∀ {code : Array UInt8} {base : Nat} {loop : LoopAddresses}, f.Placed code base loop →
    Charted code base (base + f.size) (f.table base) os

namespace Traced

variable {f g : Fragment} {os os' : List Origin}

theorem empty : Fragment.empty.Traced [] where
  tidy := tidy_empty
  charted _ := .nil

theorem append (hf : f.Traced os) (hg : g.Traced os') : (f ++ g).Traced (os ++ os') where
  tidy := hf.tidy.append hg.tidy
  charted hp := by
    obtain ⟨hpf, hpg⟩ := hp.append hf.tidy
    rw [size_append, ← Nat.add_assoc, table_append]
    exact (hf.charted hpf).append (hg.charted hpg)

theorem mark (hf : f.Traced os) (span : Span) : (f.mark span).Traced os where
  tidy := hf.tidy.mark span
  charted hp := by
    rw [size_mark]
    exact (hf.charted hp.mark).mark (f.marked_table _ span)

theorem emit (hf : f.Traced os) {i : Instruction} (hi : i.canFault = false) :
    (f.emit i).Traced os where
  tidy := hf.tidy.emit i
  charted hp := by
    obtain ⟨hpf, hd⟩ := hp.emit hf.tidy
    rw [size_emit, ← Nat.add_assoc]
    exact (hf.charted hpf).emit hd hi

theorem emitAt (hf : f.Traced os) {i : Instruction} {span : Span} {node : SourceNode}
    (hi : i.canFault = true) (hspan : node.span = span) :
    (f.emitAt i span).Traced (os ++ [⟨i, node⟩]) where
  tidy := hf.tidy.emitAt i span
  charted hp := by
    subst hspan
    obtain ⟨hpf, hd⟩ := hp.emitAt hf.tidy
    rw [size_emitAt, ← Nat.add_assoc]
    exact (hf.charted hpf).emitAt (f.marked_table _ node.span) hd hi

theorem emitJump (hf : f.Traced os) (kind : JumpKind) (target : JumpTarget) :
    (f.emitJump kind target).Traced os where
  tidy := hf.tidy.emitJump kind target
  charted hp := by
    obtain ⟨hpf, hd⟩ := hp.emitJump hf.tidy
    have hjump := (hf.charted hpf).emit hd (by cases kind <;> rfl)
    rw [kind.width_jump, Nat.add_assoc] at hjump
    rw [size_emitJump]
    exact hjump

theorem bindLoop (hf : f.Traced os) (start exit : Nat) : (f.bindLoop start exit).Traced os where
  tidy := hf.tidy.bindLoop start exit
  charted hp := hf.charted hp.bindLoop

/-- Code behind the mark of a statement. -/
theorem marked (hf : f.Traced os) (span : Span) : (Fragment.empty.mark span ++ f).Traced os :=
  (Traced.empty.mark span).append hf

end Traced

end Fragment

namespace Compile

open Fragment (Guarded Traced)

variable {env : Env} {sc : Scope} {f : Fragment}

/-! ## Expressions -/

theorem traced_one {i : Instruction} (hi : i.canFault = false) :
    (Fragment.empty.emit i).Traced [] :=
  Traced.empty.emit hi

theorem canFault_pushLiteral (v : Literal Symbol) : (pushLiteral v).canFault = false := by
  cases v with
  | bool v => cases v <;> rfl
  | _ => rfl

theorem readName_traced (env : Env) (sc : Scope) (name : Symbol) (span : Span) :
    (readName env sc name span).Traced (exprOrigins env sc (.name name span)) := by
  rw [exprOrigins]
  unfold readName
  cases hslot : sc.slot? name with
  | some slot => exact traced_one rfl
  | none =>
    cases hf : env.prototypes.function? name with
    | some r => exact traced_one rfl
    | none => exact (traced_one rfl).emitAt rfl rfl

theorem eq_of_checkCount {args : List Expr} {span : Span} {count : UInt8}
    (h : checkCount args span = .ok count) : count = UInt8.ofNat args.length := by
  unfold checkCount at h
  split at h
  · cases h
  · cases h
    rfl

mutual

/-- The code of an expression comes from its origins. -/
theorem expr_traced {env : Env} {sc : Scope} : ∀ {e : Expr} {f : Fragment},
    expr env sc e = .ok f → f.Traced (exprOrigins env sc e)
  | .literal v _, _, h => by
    rw [expr] at h
    cases h
    rw [exprOrigins]
    exact traced_one (canFault_pushLiteral v)
  | .name name span, _, h => by
    rw [expr] at h
    cases h
    exact readName_traced env sc name span
  | .binary op l r span, _, h => by
    obtain ⟨fl, fr, hl, hr, rfl⟩ := expr_binary h
    rw [exprOrigins]
    exact ((expr_traced hl).append (expr_traced hr)).emitAt rfl rfl
  | .unary op e span, _, h => by
    rw [exprOrigins]
    obtain ⟨v, hv, rfl⟩ | ⟨hn, fe, he, rfl⟩ := expr_unary h
    · rw [hv]
      exact traced_one (canFault_pushLiteral v)
    · rw [hn]
      exact (expr_traced he).emitAt rfl rfl
  | .array items span, _, h => by
    obtain ⟨fs, hs, rfl⟩ := expr_array h
    rw [exprOrigins]
    exact (exprs_traced hs).emit rfl
  | .index o i span, _, h => by
    obtain ⟨fo, fi, ho, hi, rfl⟩ := expr_index h
    rw [exprOrigins]
    exact ((expr_traced ho).append (expr_traced hi)).emitAt rfl rfl
  | .field o name span, _, h => by
    obtain ⟨fo, ho, rfl⟩ := expr_field h
    rw [exprOrigins]
    exact (expr_traced ho).emitAt rfl rfl
  | .call callee args span, _, h => by
    rw [exprOrigins]
    obtain ⟨name, id, fs, hd, hs, rfl⟩ | ⟨hd, count, fs, fc, hcount, hs, hc, rfl⟩ := expr_call h
    · rw [hd]
      exact (exprs_traced hs).emitAt rfl rfl
    · rw [hd, eq_of_checkCount hcount]
      exact ((exprs_traced hs).append (expr_traced hc)).emitAt rfl rfl
  | .methodCall o name args span, _, h => by
    obtain ⟨count, fo, fs, hcount, ho, hs, rfl⟩ := expr_methodCall h
    rw [exprOrigins, eq_of_checkCount hcount]
    exact ((expr_traced ho).append (exprs_traced hs)).emitAt rfl rfl
  | .construct type args span, _, h => by
    obtain ⟨id, entry, count, fs, hstruct, -, hcount, hs, rfl⟩ := expr_construct h
    rw [exprOrigins, hstruct, eq_of_checkCount hcount]
    exact (exprs_traced hs).emitAt rfl rfl

theorem exprs_traced {env : Env} {sc : Scope} : ∀ {es : List Expr} {f : Fragment},
    exprs env sc es = .ok f → f.Traced (exprsOrigins env sc es)
  | [], _, h => by
    rw [exprs] at h
    cases h
    rw [exprsOrigins]
    exact .empty
  | e :: es, _, h => by
    obtain ⟨fe, fs, he, hs, rfl⟩ := exprs_cons h
    rw [exprsOrigins]
    exact (expr_traced he).append (exprs_traced hs)

end

/-! ## Statements -/

theorem PlaceCode.traced {target : Expr} {p : Place} (h : PlaceCode env sc target p) :
    p.load.Traced (loadOrigins env sc target) ∧ p.store.Traced (storeOrigins env sc target) := by
  unfold loadOrigins storeOrigins
  cases h with
  | slot hslot =>
    dsimp only
    rw [hslot]
    exact ⟨traced_one rfl, traced_one rfl⟩
  | global hslot =>
    dsimp only
    rw [hslot]
    exact ⟨(traced_one rfl).emitAt rfl rfl, (traced_one rfl).emit rfl⟩
  | element ho hi =>
    have hparts := (expr_traced ho).append (expr_traced hi)
    exact ⟨hparts.emitAt rfl rfl, hparts.emitAt rfl rfl⟩
  | field ho => exact ⟨(expr_traced ho).emitAt rfl rfl, (expr_traced ho).emitAt rfl rfl⟩

theorem releaseSlots_traced {os : List Origin} (hf : f.Traced os) (count : Nat) :
    (releaseSlots f count).Traced os := by
  obtain ⟨ns, -, he⟩ := exists_releaseSlots f count
  rw [he]
  clear he
  induction ns generalizing f with
  | nil => exact hf
  | cons n ns ih => exact ih (hf.emit rfl)

theorem layoutArm_traced {out : Fragment} {arm : Guarded} {os cs bs : List Origin}
    (hout : out.Traced os) (hc : arm.condition.Traced cs) (hb : arm.body.Traced bs) (stop : Nat)
    (exits : Bool) : (layoutArm stop exits out arm).Traced (os ++ (cs ++ bs)) := by
  have hguarded := ((hout.append hc).emitJump .ifFalse
    (.offset (out.size + arm.size exits))).append hb
  rw [List.append_assoc] at hguarded
  unfold layoutArm
  cases exits with
  | true => exact hguarded.emitJump _ _
  | false => exact hguarded

theorem layoutLoop_traced {g : Guarded} {cs bs : List Origin} (hc : g.condition.Traced cs)
    (hb : g.body.Traced bs) : (layoutLoop g).Traced (cs ++ bs) :=
  (((hc.emitJump _ _).append hb).emitJump _ _).bindLoop _ _

theorem eq_scopeBehind {s : Stmt} {next : Scope} (h : stmt env sc s = .ok (f, next)) :
    next = scopeBehind sc s := by
  cases stmt_code h with
  | declare he hd => simp only [scopeBehind, hd]
  | _ => rfl

mutual

/-- The code of a statement comes from its origins. -/
theorem stmt_traced {env : Env} : ∀ {s : Stmt} {sc : Scope} {f : Fragment} {next : Scope},
    stmt env sc s = .ok (f, next) → f.Traced (stmtOrigins env sc s)
  | .expression e span, _, _, _, h => by
    rw [stmtOrigins]
    cases stmt_code h with
    | expression he => exact ((expr_traced he).marked span).emit rfl
  | .declare name e span, _, _, _, h => by
    rw [stmtOrigins]
    cases stmt_code h with
    | declare he hd => exact ((expr_traced he).marked span).emit rfl
  | .assign target none value span, _, _, _, h => by
    rw [stmtOrigins]
    cases stmt_code h with
    | assign hp hv => exact ((expr_traced hv).marked span).append hp.traced.2
  | .assign target (some op) value span, sc, _, _, h => by
    rw [stmtOrigins]
    cases stmt_code h with
    | @fold _ _ _ _ p fv hp hv =>
      have hfold : ((Fragment.empty.mark span ++ p.load ++ fv).emitAt (.binary op) span).Traced
          (loadOrigins env sc target ++ exprOrigins env sc value ++
            [⟨.binary op, .stmt (.assign target (some op) value span)⟩]) :=
        ((hp.traced.1.marked span).append (expr_traced hv)).emitAt rfl rfl
      exact hfold.append hp.traced.2
  | .block body span, _, _, _, h => by
    rw [stmtOrigins]
    cases stmt_code h with
    | block hb => exact (releaseSlots_traced (stmts_traced hb) _).marked span
  | .branch branches none span, _, _, _, h => by
    rw [stmtOrigins]
    cases stmt_code h with
    | branch ha => exact (arms_traced ha .empty _ _).marked span
  | .branch branches (some body) span, _, _, _, h => by
    rw [stmtOrigins]
    cases stmt_code h with
    | branchElse ha hb =>
      exact ((arms_traced ha .empty _ _).append (releaseSlots_traced (stmts_traced hb) _)).marked span
  | .loop condition body span, _, _, _, h => by
    rw [stmtOrigins]
    cases stmt_code h with
    | loop hc hb =>
      exact (layoutLoop_traced (expr_traced hc) (releaseSlots_traced (stmts_traced hb) _)).marked span
  | .exitLoop span, _, _, _, h => by
    rw [stmtOrigins]
    cases stmt_code h with
    | exitLoop hl => exact (releaseSlots_traced (Traced.empty.mark span) _).emitJump _ _
  | .nextRound span, _, _, _, h => by
    rw [stmtOrigins]
    cases stmt_code h with
    | nextRound hl => exact (releaseSlots_traced (Traced.empty.mark span) _).emitJump _ _
  | .giveBack none span, _, _, _, h => by
    rw [stmtOrigins]
    cases stmt_code h with
    | giveBack => exact (Traced.empty.mark span).emit rfl
  | .giveBack (some e) span, _, _, _, h => by
    rw [stmtOrigins]
    cases stmt_code h with
    | giveBackValue he => exact ((expr_traced he).marked span).emit rfl
  | .function decl span, _, _, _, h => by cases stmt_code h
  | .type decl span, _, _, _, h => by cases stmt_code h

theorem stmts_traced {env : Env} : ∀ {ss : List Stmt} {sc : Scope} {f : Fragment} {last : Scope},
    stmts env sc ss = .ok (f, last) → f.Traced (stmtsOrigins env sc ss)
  | [], _, _, _, h => by
    rw [stmts] at h
    cases h
    rw [stmtsOrigins]
    exact .empty
  | s :: ss, _, _, _, h => by
    obtain ⟨fs, next, fss, hs, hss, rfl⟩ := stmts_cons h
    rw [stmtsOrigins, ← eq_scopeBehind hs]
    exact (stmt_traced hs).append (stmts_traced hss)

theorem arms_traced {env : Env} : ∀ {as : List (Arm Stmt)} {sc : Scope} {gs : List Guarded}
    {out : Fragment} {os : List Origin}, arms env sc as = .ok gs → out.Traced os →
    ∀ (stop : Nat) (hasElse : Bool),
      (layoutArms stop hasElse out gs).Traced (os ++ armsOrigins env sc as)
  | [], _, _, _, _, h, hout, _, _ => by
    rw [arms] at h
    cases h
    rw [armsOrigins, List.append_nil]
    exact hout
  | ⟨condition, body, span⟩ :: rest, _, _, _, _, h, hout, stop, hasElse => by
    obtain ⟨fc, fb, inner, more, hc, hb, hm, rfl⟩ := arms_cons h
    rw [armsOrigins, layoutArms_cons, ← List.append_assoc]
    exact arms_traced hm (layoutArm_traced hout (expr_traced hc)
      (releaseSlots_traced (stmts_traced hb) _) _ _) _ _

end

/-! ## Programs -/

theorem functionBody_traced {d : Function} (h : functionBody env d = .ok f) :
    f.Traced (functionOrigins env d) := by
  obtain ⟨sc, fb, last, hparams, hbody, rfl⟩ := functionBody_ok h
  unfold functionOrigins
  rw [hparams]
  have htraced := stmts_traced hbody
  split
  · exact htraced
  · exact htraced.emit rfl

section link

variable {code : Array UInt8} {out next : PlacedCode} {os os' : List Origin}

/-- Code that is linked stays charted, in a code in which it stands. -/
theorem charted_link (h : link out f = .ok next) (hf : f.Traced os') {loop : LoopAddresses}
    (hp : f.Placed code out.code.size loop)
    (hout : Charted code 0 out.code.size out.positions.toList os) :
    Charted code 0 next.code.size next.positions.toList (os ++ os') := by
  rw [(link_ok h hf.tidy).2.1]
  have hpos : next.positions.toList = out.positions.toList ++ f.table out.code.size := by
    unfold link at h
    split at h
    · next placed hplace =>
      cases h
      rw [Array.toList_append, Fragment.place_positions hplace]
    · cases h
  rw [hpos]
  exact hout.append (hf.charted hp)

theorem charted_linkFunctions {ds : List Function} {p q : Prototypes} {out' : PlacedCode}
    {table : Array FunctionEntry} {k : Nat} (h : linkFunctions env p out ds = .ok (q, out'))
    (hat : BodiesAt env table code k out.code.size ds)
    (hout : Charted code 0 out.code.size out.positions.toList os) :
    Charted code 0 out'.code.size out'.positions.toList (os ++ ds.flatMap (functionOrigins env)) := by
  induction ds generalizing p out os k with
  | nil =>
    rw [linkFunctions] at h
    cases h
    simpa using hout
  | cons d ds ih =>
    rw [linkFunctions] at h
    obtain ⟨f, hf, h⟩ := of_bind_ok h
    obtain ⟨next, hnext, h⟩ := of_bind_ok h
    obtain ⟨f', -, hf', hp, hat⟩ := hat
    cases hf.symm.trans hf'
    have htraced := functionBody_traced hf
    rw [← (link_ok hnext htraced.tidy).2.1] at hat
    rw [List.flatMap_cons, ← List.append_assoc]
    exact ih h hat (charted_link hnext htraced (hp ⟨0, 0⟩) hout)

end link

/-- Compiled code is charted by its table. -/
theorem charted_of_compile {p : Program} {pool : Pool} {b : Bytecode} (h : p.compile pool = .ok b) :
    Charted b.code 0 b.size b.positions.toList (p.origins pool) := by
  obtain ⟨env, hi⟩ := image_of_compile h
  obtain ⟨fm, last, hstmts, hp, hat⟩ := hi.code
  unfold Program.compile at h
  obtain ⟨withTypes, htypes, h⟩ := of_bind_ok h
  obtain ⟨prototypes, hfunctions, h⟩ := of_bind_ok h
  obtain ⟨main, hmain, h⟩ := of_bind_ok h
  obtain ⟨linked, hlinked, h⟩ := of_bind_ok h
  obtain ⟨⟨tables, out⟩, hout, h⟩ := of_bind_ok h
  cases h
  have hreg : register p pool = .ok prototypes := by
    unfold register
    rw [htypes]
    exact hfunctions
  obtain rfl := hi.env_eq hreg
  have hbody : mainBody ⟨pool, prototypes⟩ p.main = .ok (fm.emit .halt) := by
    unfold mainBody
    rw [hstmts]
    rfl
  cases hmain.symm.trans hbody
  have htraced : (fm.emit .halt).Traced _ := (stmts_traced hstmts).emit rfl
  have hmain := charted_link hlinked htraced (hp ⟨0, 0⟩) .nil
  have hsize := (link_ok hlinked htraced.tidy).2.1
  rw [List.nil_append] at hmain
  change linked.code.size = 0 + _ at hsize
  rw [Nat.zero_add] at hsize
  rw [← hsize] at hat
  unfold Program.origins
  rw [hreg]
  exact charted_linkFunctions hout hat hmain

end Compile

end Scriptlet
