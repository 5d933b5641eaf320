import Scriptlet.Proofs.Code.Binding
import Scriptlet.Proofs.Code.NamesInCode

/-!
# Where refusals and positions of compiled code point

What is refused while a program is compiled is refused at the region of a tree of the program, and
the positions in the code are regions of its trees (`Program.compile_refers`). `Refers p Q x` says so
of a result `x`, which has the property `Q` unless it is a refusal. The functions that compile parts of
a program have it by recursion on the trees, as long as these occur in the program.
-/

namespace Scriptlet.Compile

open Program (Tree Tokens Occurs Written)

/-- A region of a tree that occurs in a program. -/
def RegionOf (p : Program) (s : Span) : Prop := ∃ t, Occurs p t ∧ t.span = s

/-- The positions of a fragment are regions of a program. -/
def Marks (p : Program) (f : Fragment) : Prop := ∀ x ∈ f.positions, RegionOf p x.2

section marks

variable {p : Program} {f g : Fragment} {span : Span}

theorem marks_empty : Marks p Fragment.empty := by
  intro x hx
  simp [Fragment.empty] at hx

namespace Marks

theorem emit (h : Marks p f) (i : Instruction) : Marks p (f.emit i) := h

theorem emitJump (h : Marks p f) (kind : JumpKind) (target : JumpTarget) :
    Marks p (f.emitJump kind target) := h

theorem bindLoop (h : Marks p f) (start exit : Nat) : Marks p (f.bindLoop start exit) := h

theorem mark (h : Marks p f) (hspan : RegionOf p span) : Marks p (f.mark span) := by
  have hpush : ∀ qs : Array (Nat × Span), (∀ x ∈ qs, RegionOf p x.2) →
      ∀ x ∈ qs.push (f.size, span), RegionOf p x.2 := by
    intro qs hqs x hx
    rcases Array.mem_push.1 hx with hx | rfl
    · exact hqs x hx
    · exact hspan
  unfold Marks Fragment.mark
  split
  · split
    · refine hpush _ fun x hx => h x ?_
      rw [← Array.mem_toList_iff, Array.toList_pop] at hx
      exact Array.mem_toList_iff.1 (List.dropLast_subset _ hx)
    · exact hpush _ h
  · exact hpush _ h

theorem emitAt (h : Marks p f) (i : Instruction) (hspan : RegionOf p span) :
    Marks p (f.emitAt i span) := h.mark hspan

theorem append (hf : Marks p f) (hg : Marks p g) : Marks p (f ++ g) := by
  intro x hx
  rcases Array.mem_append.1 hx with hx | hx
  · exact hf x hx
  · obtain ⟨y, hy, rfl⟩ := Array.mem_map.1 hx
    exact hg y hy

/-- Code behind the mark of a statement. -/
theorem marked (hf : Marks p f) (hspan : RegionOf p span) :
    Marks p (Fragment.empty.mark span ++ f) := (marks_empty.mark hspan).append hf

end Marks

theorem marks_one (i : Instruction) : Marks p (Fragment.empty.emit i) := marks_empty

theorem Marks.releaseSlots (h : Marks p f) (count : Nat) : Marks p (releaseSlots f count) := by
  induction f, count using Compile.releaseSlots.induct with
  | case1 f =>
    rw [Compile.releaseSlots, if_pos rfl]
    exact h
  | case2 f count hne step ih =>
    rw [Compile.releaseSlots, if_neg hne]
    exact ih (h.emit _)

theorem Marks.layoutArms {stop : Nat} {hasElse : Bool} {out : Fragment}
    {gs : List Fragment.Guarded} (h : Marks p out)
    (hgs : ∀ g ∈ gs, Marks p g.condition ∧ Marks p g.body) :
    Marks p (layoutArms stop hasElse out gs) := by
  induction gs generalizing out with
  | nil => exact h
  | cons g gs ih =>
    obtain ⟨hcondition, hbody⟩ := hgs g List.mem_cons_self
    have hguarded := ((h.append hcondition).emitJump .ifFalse
      (.offset (out.size + g.size (!gs.isEmpty || hasElse)))).append hbody
    rw [Compile.layoutArms]
    refine ih ?_ fun g hg => hgs g (List.mem_cons_of_mem _ hg)
    split
    · exact hguarded.emitJump _ _
    · exact hguarded

end marks

/-! ## Results -/

/-- A result has a property, or it is a refusal at a region of the program. -/
structure Refers {α : Type} (p : Program) (Q : α → Prop) (x : Except Error α) : Prop where
  ok : ∀ a, x = .ok a → Q a
  error : ∀ e, x = .error e → RegionOf p e.span

section refers

variable {p : Program} {α β : Type} {Q : α → Prop} {R : β → Prop}

theorem refers_ok {a : α} (h : Q a) : Refers p Q (.ok a) where
  ok b hb := by
    cases hb
    exact h
  error e he := by cases he

theorem refers_error {e : Error} (h : RegionOf p e.span) : Refers p Q (.error e) where
  ok a ha := by cases ha
  error e' he := by
    cases he
    exact h

theorem Refers.bind {x : Except Error α} {k : α → Except Error β} (hx : Refers p Q x)
    (hk : ∀ a, x = .ok a → Q a → Refers p R (k a)) : Refers p R (x >>= k) := by
  cases x with
  | error e => exact refers_error (hx.error e rfl)
  | ok a => exact hk a rfl (hx.ok a rfl)

theorem checkCount_refers {args : List Expr} {span : Span} (h : RegionOf p span) :
    Refers p (fun _ => True) (checkCount args span) := by
  unfold checkCount
  split
  · exact refers_error h
  · exact refers_ok trivial

theorem declare_refers {env : Env} {sc : Scope} {name : Symbol} {span : Span} (h : RegionOf p span) :
    Refers p (fun _ => True) (declare env sc name span) := by
  unfold declare
  split
  · exact refers_ok trivial
  · exact refers_error h
  · exact refers_error h

theorem loopJump_refers {out : Fragment} {sc : Scope} {target : JumpTarget} {outside : Error}
    (hout : Marks p out) (h : RegionOf p outside.span) :
    Refers p (Marks p) (loopJump out sc target outside) := by
  unfold loopJump
  split
  · exact refers_ok ((hout.releaseSlots _).emitJump _ _)
  · exact refers_error h

end refers

/-! ## Expressions -/

section expressions

variable {p : Program} {env : Env}

theorem readName_marks {sc : Scope} {name : Symbol} {span : Span} (h : RegionOf p span) :
    Marks p (readName env sc name span) := by
  unfold readName
  split
  · exact marks_one _
  · split
    · exact marks_one _
    · exact (marks_one _).emitAt _ h

mutual

theorem expr_refers {sc : Scope} : ∀ {e : Expr}, Occurs p (.expr e) →
    Refers p (Marks p) (expr env sc e)
  | .literal v span, h => by
    rw [expr]
    exact refers_ok (marks_one _)
  | .name name span, h => by
    rw [expr]
    exact refers_ok (readName_marks ⟨_, h, rfl⟩)
  | .binary op l r span, h => by
    rw [expr]
    refine (expr_refers (h.part (by simp [Tree.parts, Tree.ofExpr]))).bind fun fl _ hl => ?_
    refine (expr_refers (h.part (by simp [Tree.parts, Tree.ofExpr]))).bind fun fr _ hr => ?_
    exact refers_ok ((hl.append hr).emitAt _ ⟨_, h, rfl⟩)
  | .unary op operand span, h => by
    rw [expr]
    split
    · exact refers_ok (marks_one _)
    · refine (expr_refers (h.part (by simp [Tree.parts, Tree.ofExpr]))).bind fun f _ hf => ?_
      exact refers_ok (hf.emitAt _ ⟨_, h, rfl⟩)
  | .array items span, h => by
    rw [expr]
    refine (exprs_refers fun e he => h.part (by simp [Tree.parts, Tree.ofExpr, he])).bind
      fun f _ hf => ?_
    exact refers_ok (hf.emit _)
  | .index object index span, h => by
    rw [expr]
    refine (expr_refers (h.part (by simp [Tree.parts, Tree.ofExpr]))).bind fun fo _ ho => ?_
    refine (expr_refers (h.part (by simp [Tree.parts, Tree.ofExpr]))).bind fun fi _ hi => ?_
    exact refers_ok ((ho.append hi).emitAt _ ⟨_, h, rfl⟩)
  | .field object name span, h => by
    rw [expr]
    refine (expr_refers (h.part (by simp [Tree.parts, Tree.ofExpr]))).bind fun fo _ ho => ?_
    exact refers_ok (ho.emitAt _ ⟨_, h, rfl⟩)
  | .call callee args span, h => by
    have hspan : RegionOf p span := ⟨_, h, rfl⟩
    have hargs : ∀ e ∈ args, Occurs p (.expr e) := fun e he =>
      h.part (by simp [Tree.parts, Tree.ofExpr, he])
    rw [expr]
    split
    · split
      · exact refers_error hspan
      · refine (checkCount_refers hspan).bind fun _ _ _ => ?_
        refine (exprs_refers hargs).bind fun as _ has => ?_
        exact refers_ok (has.emitAt _ hspan)
    · refine (checkCount_refers hspan).bind fun count _ _ => ?_
      refine (exprs_refers hargs).bind fun as _ has => ?_
      refine (expr_refers (h.part (by simp [Tree.parts, Tree.ofExpr]))).bind fun f _ hf => ?_
      exact refers_ok ((has.append hf).emitAt _ hspan)
  | .methodCall object name args span, h => by
    have hspan : RegionOf p span := ⟨_, h, rfl⟩
    have hargs : ∀ e ∈ args, Occurs p (.expr e) := fun e he =>
      h.part (by simp [Tree.parts, Tree.ofExpr, he])
    rw [expr]
    refine (expr_refers (h.part (by simp [Tree.parts, Tree.ofExpr]))).bind fun fo _ ho => ?_
    refine (checkCount_refers hspan).bind fun count _ _ => ?_
    refine (exprs_refers hargs).bind fun as _ has => ?_
    exact refers_ok ((ho.append has).emitAt _ hspan)
  | .construct type args span, h => by
    have hspan : RegionOf p span := ⟨_, h, rfl⟩
    have hargs : ∀ e ∈ args, Occurs p (.expr e) := fun e he =>
      h.part (by simp [Tree.parts, Tree.ofExpr, he])
    rw [expr]
    split
    · exact refers_error hspan
    · split
      · exact refers_error hspan
      · refine (checkCount_refers hspan).bind fun count _ _ => ?_
        refine (exprs_refers hargs).bind fun as _ has => ?_
        exact refers_ok (has.emitAt _ hspan)

theorem exprs_refers {sc : Scope} : ∀ {es : List Expr}, (∀ e ∈ es, Occurs p (.expr e)) →
    Refers p (Marks p) (exprs env sc es)
  | [], _ => by
    rw [exprs]
    exact refers_ok marks_empty
  | e :: es, h => by
    rw [exprs]
    refine (expr_refers (h e List.mem_cons_self)).bind fun f _ hf => ?_
    refine (exprs_refers fun e he => h e (List.mem_cons_of_mem _ he)).bind fun fs _ hfs => ?_
    exact refers_ok (hf.append hfs)

end

theorem place_refers {sc : Scope} {target : Expr} (h : Occurs p (.expr target)) :
    Refers p (fun q => Marks p q.load ∧ Marks p q.store) (place env sc target) := by
  have hother : Refers p (fun q : Place => Marks p q.load ∧ Marks p q.store)
      (do let _ ← expr env sc target; throw ⟨.invalidTarget, target.span⟩) :=
    (expr_refers h).bind fun _ _ _ => refers_error ⟨_, h, rfl⟩
  cases target with
  | name name span =>
    unfold place
    dsimp only
    split
    · exact refers_ok ⟨marks_one _, marks_one _⟩
    · exact refers_ok ⟨(marks_one _).emitAt _ ⟨_, h, rfl⟩, (marks_one _).emit _⟩
  | index object index span =>
    unfold place
    refine (expr_refers (h.part (by simp [Tree.parts, Tree.ofExpr]))).bind fun fo _ ho => ?_
    refine (expr_refers (h.part (by simp [Tree.parts, Tree.ofExpr]))).bind fun fi _ hi => ?_
    exact refers_ok ⟨(ho.append hi).emitAt _ ⟨_, h, rfl⟩, (ho.append hi).emitAt _ ⟨_, h, rfl⟩⟩
  | field object name span =>
    unfold place
    refine (expr_refers (h.part (by simp [Tree.parts, Tree.ofExpr]))).bind fun fo _ ho => ?_
    exact refers_ok ⟨ho.emitAt _ ⟨_, h, rfl⟩, ho.emitAt _ ⟨_, h, rfl⟩⟩
  | _ => exact hother

end expressions

/-! ## Statements -/

section statements

variable {p : Program} {env : Env}

theorem assignment_refers {sc : Scope} {target value : Expr} {op : Option BinaryOp} {span : Span}
    (htarget : Occurs p (.expr target)) (hvalue : Occurs p (.expr value)) (hspan : RegionOf p span) :
    Refers p (Marks p) (assignment env sc target op value span) := by
  have hout : Marks p (Fragment.empty.mark span) := marks_empty.mark hspan
  unfold assignment
  refine (place_refers htarget).bind fun q _ hq => (expr_refers hvalue).bind fun v _ hv => ?_
  cases op with
  | none => exact refers_ok ((hout.append hv).append hq.2)
  | some op => exact refers_ok ((((hout.append hq.1).append hv).emitAt _ hspan).append hq.2)

mutual

theorem stmt_refers : ∀ {s : Stmt} {sc : Scope}, Occurs p (.stmt s) →
    Refers p (fun r => Marks p r.1) (stmt env sc s)
  | .expression e span, sc, h => by
    rw [stmt]
    refine (expr_refers (h.part (by simp [Tree.parts, Tree.ofStmt]))).bind fun f _ hf => ?_
    exact refers_ok ((hf.marked ⟨_, h, rfl⟩).emit _)
  | .declare name e span, sc, h => by
    rw [stmt]
    refine (expr_refers (h.part (by simp [Tree.parts, Tree.ofStmt]))).bind fun f _ hf => ?_
    refine (declare_refers ⟨_, h, rfl⟩).bind fun r _ _ => ?_
    exact refers_ok ((hf.marked ⟨_, h, rfl⟩).emit _)
  | .assign target op value span, sc, h => by
    rw [stmt]
    refine (assignment_refers ?_ ?_ ⟨_, h, rfl⟩).bind fun f _ hf => refers_ok hf
    · exact h.part (by simp [Tree.parts, Tree.ofStmt])
    · exact h.part (by simp [Tree.parts, Tree.ofStmt])
  | .block body span, sc, h => by
    rw [stmt]
    refine (stmts_refers fun s hs => h.part (by simp [Tree.parts, Tree.ofStmt, hs])).bind
      fun r _ hr => ?_
    exact refers_ok ((hr.releaseSlots _).marked ⟨_, h, rfl⟩)
  | .branch branches none span, sc, h => by
    rw [stmt]
    refine (arms_refers fun a ha => h.part (by simp [Tree.parts, Tree.ofStmt, ha])).bind
      fun gs _ hgs => ?_
    exact refers_ok ((marks_empty.layoutArms hgs).marked ⟨_, h, rfl⟩)
  | .branch branches (some body) span, sc, h => by
    rw [stmt]
    refine (arms_refers fun a ha => h.part (by simp [Tree.parts, Tree.ofStmt, ha])).bind
      fun gs _ hgs => ?_
    refine (stmts_refers fun s hs => h.part (by simp [Tree.parts, Tree.ofStmt, hs])).bind
      fun r _ hr => ?_
    exact refers_ok (((marks_empty.layoutArms hgs).append (hr.releaseSlots _)).marked ⟨_, h, rfl⟩)
  | .loop condition body span, sc, h => by
    rw [stmt]
    refine (expr_refers (h.part (by simp [Tree.parts, Tree.ofStmt]))).bind fun c _ hc => ?_
    refine (stmts_refers fun s hs => h.part (by simp [Tree.parts, Tree.ofStmt, hs])).bind
      fun r _ hr => ?_
    have hguarded := (hc.emitJump .ifFalse
      (.offset (Fragment.Guarded.size ⟨c, closeBlock r⟩ true))).append (hr.releaseSlots r.2.leave.1)
    exact refers_ok (((hguarded.emitJump _ _).bindLoop _ _).marked ⟨_, h, rfl⟩)
  | .exitLoop span, sc, h => by
    have hspan : RegionOf p span := ⟨_, h, rfl⟩
    rw [stmt]
    exact (loopJump_refers (marks_empty.mark hspan) hspan).bind fun f _ hf => refers_ok hf
  | .nextRound span, sc, h => by
    have hspan : RegionOf p span := ⟨_, h, rfl⟩
    rw [stmt]
    exact (loopJump_refers (marks_empty.mark hspan) hspan).bind fun f _ hf => refers_ok hf
  | .giveBack none span, sc, h => by
    rw [stmt]
    exact refers_ok ((marks_empty.mark ⟨_, h, rfl⟩).emit _)
  | .giveBack (some e) span, sc, h => by
    rw [stmt]
    refine (expr_refers (h.part (by simp [Tree.parts, Tree.ofStmt]))).bind fun f _ hf => ?_
    exact refers_ok ((hf.marked ⟨_, h, rfl⟩).emit _)
  | .function decl span, sc, h => by
    rw [stmt]
    exact refers_error ⟨_, h, rfl⟩
  | .type decl span, sc, h => by
    rw [stmt]
    exact refers_error ⟨_, h, rfl⟩

theorem stmts_refers : ∀ {ss : List Stmt} {sc : Scope}, (∀ s ∈ ss, Occurs p (.stmt s)) →
    Refers p (fun r => Marks p r.1) (stmts env sc ss)
  | [], sc, _ => by
    rw [stmts]
    exact refers_ok marks_empty
  | s :: ss, sc, h => by
    rw [stmts]
    refine (stmt_refers (h s List.mem_cons_self)).bind fun r _ hr => ?_
    refine (stmts_refers fun s hs => h s (List.mem_cons_of_mem _ hs)).bind fun r' _ hr' => ?_
    exact refers_ok (hr.append hr')

theorem arms_refers : ∀ {as : List (Arm Stmt)} {sc : Scope}, (∀ a ∈ as, Occurs p (.arm a)) →
    Refers p (fun gs => ∀ g ∈ gs, Marks p g.condition ∧ Marks p g.body) (arms env sc as)
  | [], sc, _ => by
    rw [arms]
    exact refers_ok nofun
  | ⟨condition, body, span⟩ :: as, sc, h => by
    have harm := h _ List.mem_cons_self
    rw [arms]
    refine (expr_refers (harm.part (by simp [Tree.parts]))).bind fun c _ hc => ?_
    refine (stmts_refers fun s hs => harm.part (by simp [Tree.parts, hs])).bind fun r _ hr => ?_
    refine (arms_refers fun a ha => h a (List.mem_cons_of_mem _ ha)).bind fun gs _ hgs => ?_
    refine refers_ok (List.forall_mem_cons.2 ⟨⟨hc, hr.releaseSlots _⟩, hgs⟩)

end

end statements

/-! ## Programs -/

section programs

variable {p : Program} {env : Env}

/-- The region of a declaration of a type is that of its statement. -/
theorem regionOf_types {ts : Tokens} (hp : Written ts (.sequence (p.body.map .stmt))) {d : TypeDecl}
    (h : d ∈ p.types) : RegionOf p d.span := by
  obtain ⟨span, hoccurs⟩ := occurs_of_mem_types h
  obtain ⟨us, -, hwritten⟩ := hoccurs.written hp
  cases hwritten
  exact ⟨_, hoccurs, rfl⟩

/-- The region of a declaration of a function is that of its statement. -/
theorem regionOf_functions {ts : Tokens} (hp : Written ts (.sequence (p.body.map .stmt))) {d : Function}
    (h : d ∈ p.functions) : RegionOf p d.span := by
  obtain ⟨span, hoccurs⟩ := occurs_of_mem_functions h
  obtain ⟨us, -, hwritten⟩ := hoccurs.written hp
  cases hwritten
  exact ⟨_, hoccurs, rfl⟩

theorem registerTypes_refers {pool : Pool} {ds : List TypeDecl} {q : Prototypes}
    (h : ∀ d ∈ ds, d ∈ p.types) (hspan : ∀ d ∈ p.types, RegionOf p d.span) :
    Refers p (fun _ => True) (registerTypes pool q ds) := by
  induction ds generalizing q with
  | nil => exact refers_ok trivial
  | cons d ds ih =>
    rw [registerTypes]
    split
    · exact ih fun d hd => h d (List.mem_cons_of_mem _ hd)
    · exact refers_error (hspan d (h d List.mem_cons_self))

theorem registerFunctions_refers {pool : Pool} {ds : List Function} {q : Prototypes}
    (h : ∀ d ∈ ds, d ∈ p.functions) (hspan : ∀ d ∈ p.functions, RegionOf p d.span) :
    Refers p (fun _ => True) (registerFunctions pool q ds) := by
  induction ds generalizing q with
  | nil => exact refers_ok trivial
  | cons d ds ih =>
    rw [registerFunctions]
    split
    · exact ih fun d hd => h d (List.mem_cons_of_mem _ hd)
    · exact refers_error (hspan d (h d List.mem_cons_self))

theorem declareParams_refers {bs : List Binder} {sc : Scope} (h : ∀ b ∈ bs, Occurs p (.binder b)) :
    Refers p (fun _ => True) (declareParams env sc bs) := by
  induction bs generalizing sc with
  | nil => exact refers_ok trivial
  | cons b bs ih =>
    rw [declareParams]
    refine (declare_refers ⟨_, h b List.mem_cons_self, rfl⟩).bind fun r _ _ => ?_
    exact ih fun b hb => h b (List.mem_cons_of_mem _ hb)

theorem functionBody_refers {d : Function} (h : d ∈ p.functions) :
    Refers p (Marks p) (functionBody env d) := by
  obtain ⟨span, hoccurs⟩ := occurs_of_mem_functions h
  unfold functionBody
  refine (declareParams_refers fun b hb =>
    hoccurs.part (by simp [Tree.parts, Tree.ofStmt, hb])).bind fun sc _ _ => ?_
  refine (stmts_refers fun s hs =>
    hoccurs.part (by simp [Tree.parts, Tree.ofStmt, hs])).bind fun r _ hr => ?_
  refine refers_ok ?_
  split
  · exact hr
  · exact hr.emit _

theorem mainBody_refers : Refers p (Marks p) (mainBody env p.main) := by
  unfold mainBody
  refine (stmts_refers fun s hs => .statement (List.mem_of_mem_filter hs)).bind fun r _ hr => ?_
  exact refers_ok (hr.emit _)

/-- Positions of code that is linked are those of its fragments. -/
theorem link_refers {out : PlacedCode} {f : Fragment} (hb : f.Bound) (hf : Marks p f)
    (hout : ∀ x ∈ out.positions, RegionOf p x.2) :
    Refers p (fun next => ∀ x ∈ next.positions, RegionOf p x.2) (link out f) := by
  obtain ⟨placed, hplaced⟩ := hb.place_ok out.code.size
  unfold link
  rw [hplaced]
  refine refers_ok fun x hx => ?_
  rcases Array.mem_append.1 hx with hx | hx
  · exact hout x hx
  · rw [← Array.mem_toList_iff, Fragment.place_positions hplaced] at hx
    obtain ⟨y, hy, rfl⟩ := List.mem_map.1 hx
    exact hf y (Array.mem_toList_iff.1 hy)

theorem linkFunctions_refers {ds : List Function} {q : Prototypes} {out : PlacedCode}
    (h : ∀ d ∈ ds, d ∈ p.functions) (hout : ∀ x ∈ out.positions, RegionOf p x.2) :
    Refers p (fun r => ∀ x ∈ r.2.positions, RegionOf p x.2) (linkFunctions env q out ds) := by
  induction ds generalizing q out with
  | nil => exact refers_ok hout
  | cons d ds ih =>
    rw [linkFunctions]
    refine (functionBody_refers (h d List.mem_cons_self)).bind fun f hf hmarks => ?_
    refine (link_refers (functionBody_bound hf) hmarks hout).bind fun next _ hnext => ?_
    exact ih (fun d hd => h d (List.mem_cons_of_mem _ hd)) hnext

end programs

end Compile

open Compile Program in
/-- A program is refused at a region of it, or compiled to code with positions that are regions of
it. -/
theorem Program.compile_refers {p : Program} {ts : Tokens}
    (hp : Written ts (.sequence (p.body.map .stmt))) (pool : Pool) :
    Refers p (fun b => ∀ x ∈ b.positions, RegionOf p x.2) (p.compile pool) := by
  have htypes : ∀ d ∈ p.types, RegionOf p d.span := fun d => regionOf_types hp
  have hfunctions : ∀ d ∈ p.functions, RegionOf p d.span := fun d => regionOf_functions hp
  unfold Program.compile
  refine (registerTypes_refers (fun d hd => hd) htypes).bind fun withTypes _ _ => ?_
  refine (registerFunctions_refers (fun d hd => hd) hfunctions).bind fun prototypes _ _ => ?_
  refine mainBody_refers.bind fun main hmain hmarks => ?_
  refine (link_refers (mainBody_bound hmain) hmarks (by simp)).bind fun linked _ hlinked => ?_
  refine (linkFunctions_refers (fun d hd => hd) hlinked).bind fun r _ hr => ?_
  exact refers_ok hr

end Scriptlet
