import Scriptlet.Compile.Program
import Scriptlet.Proofs.Code.Placement

/-!
# The parts of compiled code

What the code of every kind of expression and statement is made of, once it was compiled: one lemma
for each of them, from which later proofs go on without a look at the compiler. The code of
expressions has no jumps (`expr_plain`), and all code is tidy (`expr_tidy`, `stmts_tidy`), so where
it stands its parts do.
-/

namespace Scriptlet.Compile

open Fragment (Guarded Tidy Plain Placed)

theorem of_bind_ok {ε α β : Type} {x : Except ε α} {k : α → Except ε β} {b : β}
    (h : (x >>= k) = .ok b) : ∃ a, x = .ok a ∧ k a = .ok b := by
  cases x with
  | error e => cases h
  | ok a => exact ⟨a, rfl, h⟩

variable {env : Env} {sc : Scope} {f : Fragment}

/-! ## Expressions -/

-- Code is taken apart by the equations of the compiler.
attribute [local simp] expr exprs

theorem of_checkCount {args : List Expr} {span : Span} {count : UInt8}
    (h : checkCount args span = .ok count) : args.length ≤ 255 ∧ count.toNat = args.length := by
  unfold checkCount at h
  split at h
  · cases h
  · cases h
    refine ⟨by omega, ?_⟩
    rw [UInt8.toNat_ofNat']
    omega

theorem exprs_cons {e : Expr} {es : List Expr} (h : exprs env sc (e :: es) = .ok f) :
    ∃ fe fs, expr env sc e = .ok fe ∧ exprs env sc es = .ok fs ∧ f = fe ++ fs := by
  rw [exprs] at h
  obtain ⟨fe, he, h⟩ := of_bind_ok h
  obtain ⟨fs, hs, h⟩ := of_bind_ok h
  cases h
  exact ⟨fe, fs, he, hs, rfl⟩

theorem expr_binary {op : BinaryOp} {l r : Expr} {span : Span}
    (h : expr env sc (.binary op l r span) = .ok f) :
    ∃ fl fr, expr env sc l = .ok fl ∧ expr env sc r = .ok fr ∧
      f = (fl ++ fr).emitAt (.binary op) span := by
  rw [expr] at h
  obtain ⟨fl, hl, h⟩ := of_bind_ok h
  obtain ⟨fr, hr, h⟩ := of_bind_ok h
  cases h
  exact ⟨fl, fr, hl, hr, rfl⟩

theorem expr_unary {op : UnaryOp} {e : Expr} {span : Span}
    (h : expr env sc (.unary op e span) = .ok f) :
    (∃ v, negated? op e = some v ∧ f = Fragment.empty.emit (pushLiteral v)) ∨
      negated? op e = none ∧ ∃ fe, expr env sc e = .ok fe ∧ f = fe.emitAt (.unary op) span := by
  rw [expr] at h
  split at h
  · next v hv =>
    cases h
    exact .inl ⟨v, hv, rfl⟩
  · next hn =>
    obtain ⟨fe, he, h⟩ := of_bind_ok h
    cases h
    exact .inr ⟨hn, fe, he, rfl⟩

theorem expr_array {items : List Expr} {span : Span} (h : expr env sc (.array items span) = .ok f) :
    ∃ fs, exprs env sc items = .ok fs ∧
      f = fs.emit (.createArray (UInt32.ofNat items.length)) := by
  rw [expr] at h
  obtain ⟨fs, hs, h⟩ := of_bind_ok h
  cases h
  exact ⟨fs, hs, rfl⟩

theorem expr_index {object index : Expr} {span : Span}
    (h : expr env sc (.index object index span) = .ok f) :
    ∃ fo fi, expr env sc object = .ok fo ∧ expr env sc index = .ok fi ∧
      f = (fo ++ fi).emitAt .getElement span := by
  rw [expr] at h
  obtain ⟨fo, ho, h⟩ := of_bind_ok h
  obtain ⟨fi, hi, h⟩ := of_bind_ok h
  cases h
  exact ⟨fo, fi, ho, hi, rfl⟩

theorem expr_field {object : Expr} {name : Symbol} {span : Span}
    (h : expr env sc (.field object name span) = .ok f) :
    ∃ fo, expr env sc object = .ok fo ∧ f = fo.emitAt (.getField name) span := by
  rw [expr] at h
  obtain ⟨fo, ho, h⟩ := of_bind_ok h
  cases h
  exact ⟨fo, ho, rfl⟩

theorem expr_call {callee : Expr} {args : List Expr} {span : Span}
    (h : expr env sc (.call callee args span) = .ok f) :
    (∃ name id fs, directCallee? env sc callee = some (name, id, args.length) ∧
        exprs env sc args = .ok fs ∧ f = fs.emitAt (.callFunction id) span) ∨
      directCallee? env sc callee = none ∧ ∃ count fs fc, checkCount args span = .ok count ∧
        exprs env sc args = .ok fs ∧ expr env sc callee = .ok fc ∧
        f = (fs ++ fc).emitAt (.call count) span := by
  rw [expr] at h
  split at h
  · next name id arity hd =>
    split at h
    · cases h
    · next ha =>
      obtain ⟨count, -, h⟩ := of_bind_ok h
      obtain ⟨fs, hs, h⟩ := of_bind_ok h
      cases h
      cases Decidable.not_not.1 ha
      exact .inl ⟨name, id, fs, hd, hs, rfl⟩
  · next hd =>
    obtain ⟨count, hcount, h⟩ := of_bind_ok h
    obtain ⟨fs, hs, h⟩ := of_bind_ok h
    obtain ⟨fc, hc, h⟩ := of_bind_ok h
    cases h
    exact .inr ⟨hd, count, fs, fc, hcount, hs, hc, rfl⟩

theorem expr_methodCall {object : Expr} {name : Symbol} {args : List Expr} {span : Span}
    (h : expr env sc (.methodCall object name args span) = .ok f) :
    ∃ count fo fs, checkCount args span = .ok count ∧ expr env sc object = .ok fo ∧
      exprs env sc args = .ok fs ∧ f = (fo ++ fs).emitAt (.callMethod name count) span := by
  rw [expr] at h
  obtain ⟨fo, ho, h⟩ := of_bind_ok h
  obtain ⟨count, hcount, h⟩ := of_bind_ok h
  obtain ⟨fs, hs, h⟩ := of_bind_ok h
  cases h
  exact ⟨count, fo, fs, hcount, ho, hs, rfl⟩

theorem expr_construct {type : Symbol} {args : List Expr} {span : Span}
    (h : expr env sc (.construct type args span) = .ok f) :
    ∃ id entry count fs, env.prototypes.struct? type = some (id, entry) ∧
      args.length ≤ entry.fields.length ∧ checkCount args span = .ok count ∧
      exprs env sc args = .ok fs ∧ f = fs.emitAt (.construct id count) span := by
  rw [expr] at h
  split at h
  · cases h
  · next id entry hs =>
    split at h
    · cases h
    · next hlen =>
      obtain ⟨count, hcount, h⟩ := of_bind_ok h
      obtain ⟨fs, hfs, h⟩ := of_bind_ok h
      cases h
      exact ⟨id, entry, count, fs, hs, Nat.not_lt.1 hlen, hcount, hfs, rfl⟩

theorem readName_plain (env : Env) (sc : Scope) (name : Symbol) (span : Span) :
    (readName env sc name span).Plain := by
  unfold readName
  split
  · exact Plain.empty.emit _
  · split
    · exact Plain.empty.emit _
    · exact (Plain.empty.emit _).emitAt _ _

mutual

/-- The code of an expression has no jumps. -/
theorem expr_plain {env : Env} {sc : Scope} : ∀ {e : Expr} {f : Fragment},
    expr env sc e = .ok f → f.Plain
  | .literal v _, _, h => by
    rw [expr] at h
    cases h
    exact Plain.empty.emit _
  | .name name span, _, h => by
    rw [expr] at h
    cases h
    exact readName_plain env sc name span
  | .binary op l r _, _, h => by
    obtain ⟨fl, fr, hl, hr, rfl⟩ := expr_binary h
    exact ((expr_plain hl).append (expr_plain hr)).emitAt _ _
  | .unary op e _, _, h => by
    obtain ⟨v, -, rfl⟩ | ⟨-, fe, he, rfl⟩ := expr_unary h
    · exact Plain.empty.emit _
    · exact (expr_plain he).emitAt _ _
  | .array items _, _, h => by
    obtain ⟨fs, hs, rfl⟩ := expr_array h
    exact (exprs_plain hs).emit _
  | .index o i _, _, h => by
    obtain ⟨fo, fi, ho, hi, rfl⟩ := expr_index h
    exact ((expr_plain ho).append (expr_plain hi)).emitAt _ _
  | .field o name _, _, h => by
    obtain ⟨fo, ho, rfl⟩ := expr_field h
    exact (expr_plain ho).emitAt _ _
  | .call callee args _, _, h => by
    obtain ⟨name, id, fs, -, hs, rfl⟩ | ⟨-, count, fs, fc, -, hs, hc, rfl⟩ := expr_call h
    · exact (exprs_plain hs).emitAt _ _
    · exact ((exprs_plain hs).append (expr_plain hc)).emitAt _ _
  | .methodCall o name args _, _, h => by
    obtain ⟨count, fo, fs, -, ho, hs, rfl⟩ := expr_methodCall h
    exact ((expr_plain ho).append (exprs_plain hs)).emitAt _ _
  | .construct type args _, _, h => by
    obtain ⟨id, entry, count, fs, -, -, -, hs, rfl⟩ := expr_construct h
    exact (exprs_plain hs).emitAt _ _

theorem exprs_plain {env : Env} {sc : Scope} : ∀ {es : List Expr} {f : Fragment},
    exprs env sc es = .ok f → f.Plain
  | [], _, h => by
    rw [exprs] at h
    cases h
    exact .empty
  | e :: es, _, h => by
    obtain ⟨fe, fs, he, hs, rfl⟩ := exprs_cons h
    exact (expr_plain he).append (exprs_plain hs)

end

theorem expr_tidy {e : Expr} (h : expr env sc e = .ok f) : f.Tidy := (expr_plain h).tidy

theorem exprs_tidy {es : List Expr} (h : exprs env sc es = .ok f) : f.Tidy := (exprs_plain h).tidy

theorem expr_size_pos {e : Expr} (h : expr env sc e = .ok f) : 0 < f.size := by
  have hemit : ∀ (g : Fragment) (i : Instruction), 0 < (g.emit i).size := fun g i => by
    have := i.width_pos
    rw [Fragment.size_emit]
    omega
  cases e with
  | literal v =>
    rw [expr] at h
    cases h
    exact hemit _ _
  | name name span =>
    rw [expr] at h
    cases h
    unfold readName
    split
    · exact hemit _ _
    · split
      · exact hemit _ _
      · exact hemit _ _
  | binary op l r =>
    obtain ⟨fl, fr, -, -, rfl⟩ := expr_binary h
    exact hemit _ _
  | unary op e =>
    obtain ⟨v, -, rfl⟩ | ⟨-, fe, -, rfl⟩ := expr_unary h
    · exact hemit _ _
    · exact hemit _ _
  | array items =>
    obtain ⟨fs, -, rfl⟩ := expr_array h
    exact hemit _ _
  | index o i =>
    obtain ⟨fo, fi, -, -, rfl⟩ := expr_index h
    exact hemit _ _
  | field o name =>
    obtain ⟨fo, -, rfl⟩ := expr_field h
    exact hemit _ _
  | call callee args =>
    obtain ⟨name, id, fs, -, -, rfl⟩ | ⟨-, count, fs, fc, -, -, -, rfl⟩ := expr_call h
    · exact hemit _ _
    · exact hemit _ _
  | methodCall o name args =>
    obtain ⟨count, fo, fs, -, -, -, rfl⟩ := expr_methodCall h
    exact hemit _ _
  | construct type args =>
    obtain ⟨id, entry, count, fs, -, -, -, -, rfl⟩ := expr_construct h
    exact hemit _ _

/-- Every expression of a list has code of its own. -/
theorem length_le_size_exprs {es : List Expr} (h : exprs env sc es = .ok f) :
    es.length ≤ f.size := by
  induction es generalizing f with
  | nil => exact Nat.zero_le _
  | cons e es ih =>
    obtain ⟨fe, fs, he, hs, rfl⟩ := exprs_cons h
    have := expr_size_pos he
    have := ih hs
    rw [List.length_cons, Fragment.size_append]
    omega

/-! ## Assignments -/

/-- The code of a place, by its kind. -/
inductive PlaceCode (env : Env) (sc : Scope) : Expr → Place → Prop
  | slot {name : Symbol} {span : Span} {slot : UInt8} (h : sc.slot? name = some slot) :
    PlaceCode env sc (.name name span)
      ⟨Fragment.empty.emit (.getLocal slot), Fragment.empty.emit (.setLocal slot)⟩
  | global {name : Symbol} {span : Span} (h : sc.slot? name = none) :
    PlaceCode env sc (.name name span)
      ⟨(Fragment.empty.emit (.pushString name)).emitAt .getGlobal span,
        (Fragment.empty.emit (.pushString name)).emit .setGlobal⟩
  | element {object index : Expr} {span : Span} {fo fi : Fragment}
    (ho : expr env sc object = .ok fo) (hi : expr env sc index = .ok fi) :
    PlaceCode env sc (.index object index span)
      ⟨(fo ++ fi).emitAt .getElement span, (fo ++ fi).emitAt .setElement span⟩
  | field {object : Expr} {name : Symbol} {span : Span} {fo : Fragment}
    (ho : expr env sc object = .ok fo) :
    PlaceCode env sc (.field object name span)
      ⟨fo.emitAt (.getField name) span, fo.emitAt (.setField name) span⟩

theorem place_code {target : Expr} {p : Place} (h : place env sc target = .ok p) :
    PlaceCode env sc target p := by
  unfold place at h
  split at h
  · split at h
    · next hslot =>
      cases h
      exact .slot hslot
    · next hslot =>
      cases h
      exact .global hslot
  · obtain ⟨fo, ho, h⟩ := of_bind_ok h
    obtain ⟨fi, hi, h⟩ := of_bind_ok h
    cases h
    exact .element ho hi
  · obtain ⟨fo, ho, h⟩ := of_bind_ok h
    cases h
    exact .field ho
  · obtain ⟨-, -, h⟩ := of_bind_ok h
    cases h

theorem PlaceCode.plain {target : Expr} {p : Place} (h : PlaceCode env sc target p) :
    p.load.Plain ∧ p.store.Plain := by
  have hname : ∀ name, (Fragment.empty.emit (.pushString name)).Plain := fun _ =>
    Plain.empty.emit _
  cases h with
  | slot h => exact ⟨Plain.empty.emit _, Plain.empty.emit _⟩
  | global h => exact ⟨(hname _).emitAt _ _, (hname _).emit _⟩
  | element ho hi =>
    have := (expr_plain ho).append (expr_plain hi)
    exact ⟨this.emitAt _ _, this.emitAt _ _⟩
  | field ho => exact ⟨(expr_plain ho).emitAt _ _, (expr_plain ho).emitAt _ _⟩

theorem PlaceCode.tidy {target : Expr} {p : Place} (h : PlaceCode env sc target p) :
    p.load.Tidy ∧ p.store.Tidy :=
  ⟨h.plain.1.tidy, h.plain.2.tidy⟩

theorem assignment_parts {target value : Expr} {op : Option BinaryOp} {span : Span}
    (h : assignment env sc target op value span = .ok f) :
    ∃ p fv, PlaceCode env sc target p ∧ expr env sc value = .ok fv ∧
      f = op.elim ((Fragment.empty.mark span ++ fv) ++ p.store) fun op =>
        ((Fragment.empty.mark span ++ p.load) ++ fv).emitAt (.binary op) span ++ p.store := by
  unfold assignment at h
  obtain ⟨p, hp, h⟩ := of_bind_ok h
  obtain ⟨fv, hv, h⟩ := of_bind_ok h
  cases op with
  | none =>
    cases h
    exact ⟨p, fv, place_code hp, hv, rfl⟩
  | some op =>
    cases h
    exact ⟨p, fv, place_code hp, hv, rfl⟩

/-! ## Statements -/

theorem of_declare {name : Symbol} {span : Span} {r : UInt8 × Scope}
    (h : declare env sc name span = .ok r) : sc.declare name = .ok r := by
  unfold declare at h
  split at h
  · next hd =>
    cases h
    exact hd
  · cases h
  · cases h

/-- The code of a statement and the scope behind it, by its kind. -/
inductive StmtCode (env : Env) (sc : Scope) : Stmt → Fragment → Scope → Prop
  | expression {e : Expr} {span : Span} {fe : Fragment} (he : expr env sc e = .ok fe) :
    StmtCode env sc (.expression e span) ((Fragment.empty.mark span ++ fe).emit .drop) sc
  | declare {name : Symbol} {e : Expr} {span : Span} {fe : Fragment} {slot : UInt8} {inner : Scope}
    (he : expr env sc e = .ok fe) (hd : sc.declare name = .ok (slot, inner)) :
    StmtCode env sc (.declare name e span)
      ((Fragment.empty.mark span ++ fe).emit (.setLocal slot)) inner
  | assign {target value : Expr} {span : Span} {p : Place} {fv : Fragment}
    (hp : PlaceCode env sc target p) (hv : expr env sc value = .ok fv) :
    StmtCode env sc (.assign target none value span)
      ((Fragment.empty.mark span ++ fv) ++ p.store) sc
  | fold {target value : Expr} {op : BinaryOp} {span : Span} {p : Place} {fv : Fragment}
    (hp : PlaceCode env sc target p) (hv : expr env sc value = .ok fv) :
    StmtCode env sc (.assign target (some op) value span)
      (((Fragment.empty.mark span ++ p.load) ++ fv).emitAt (.binary op) span ++ p.store) sc
  | block {body : List Stmt} {span : Span} {fb : Fragment} {inner : Scope}
    (hb : stmts env (sc.enter .plain) body = .ok (fb, inner)) :
    StmtCode env sc (.block body span)
      (Fragment.empty.mark span ++ releaseSlots fb inner.leave.1) sc
  | branch {branches : List (Arm Stmt)} {span : Span} {gs : List Guarded}
    (ha : arms env sc branches = .ok gs) :
    StmtCode env sc (.branch branches none span)
      (Fragment.empty.mark span ++ layoutBranch gs none) sc
  | branchElse {branches : List (Arm Stmt)} {body : List Stmt} {span : Span} {gs : List Guarded}
    {fb : Fragment} {inner : Scope} (ha : arms env sc branches = .ok gs)
    (hb : stmts env (sc.enter .plain) body = .ok (fb, inner)) :
    StmtCode env sc (.branch branches (some body) span)
      (Fragment.empty.mark span ++ layoutBranch gs (some (releaseSlots fb inner.leave.1))) sc
  | loop {condition : Expr} {body : List Stmt} {span : Span} {fc fb : Fragment} {inner : Scope}
    (hc : expr env sc condition = .ok fc)
    (hb : stmts env (sc.enter .loop) body = .ok (fb, inner)) :
    StmtCode env sc (.loop condition body span)
      (Fragment.empty.mark span ++ layoutLoop ⟨fc, releaseSlots fb inner.leave.1⟩) sc
  | exitLoop {span : Span} {count : Nat} (h : sc.loopSlots? = some count) :
    StmtCode env sc (.exitLoop span)
      ((releaseSlots (Fragment.empty.mark span) count).emitJump .always .loopExit) sc
  | nextRound {span : Span} {count : Nat} (h : sc.loopSlots? = some count) :
    StmtCode env sc (.nextRound span)
      ((releaseSlots (Fragment.empty.mark span) count).emitJump .always .loopStart) sc
  | giveBack {span : Span} :
    StmtCode env sc (.giveBack none span) ((Fragment.empty.mark span).emit .ret) sc
  | giveBackValue {e : Expr} {span : Span} {fe : Fragment} (he : expr env sc e = .ok fe) :
    StmtCode env sc (.giveBack (some e) span)
      ((Fragment.empty.mark span ++ fe).emit .retValue) sc

theorem of_loopJump {out : Fragment} {target : JumpTarget} {outside : Error}
    (h : loopJump out sc target outside = .ok f) :
    ∃ count, sc.loopSlots? = some count ∧ f = (releaseSlots out count).emitJump .always target := by
  unfold loopJump at h
  split at h
  · next count hc =>
    cases h
    exact ⟨count, hc, rfl⟩
  · cases h

theorem stmt_code {s : Stmt} {next : Scope} (h : stmt env sc s = .ok (f, next)) :
    StmtCode env sc s f next := by
  cases s with
  | expression e span =>
    rw [stmt] at h
    obtain ⟨fe, he, h⟩ := of_bind_ok h
    cases h
    exact .expression he
  | declare name e span =>
    rw [stmt] at h
    obtain ⟨fe, he, h⟩ := of_bind_ok h
    obtain ⟨⟨slot, inner⟩, hd, h⟩ := of_bind_ok h
    cases h
    exact .declare he (of_declare hd)
  | assign target op value span =>
    rw [stmt] at h
    obtain ⟨fa, ha, h⟩ := of_bind_ok h
    cases h
    obtain ⟨p, fv, hp, hv, rfl⟩ := assignment_parts ha
    cases op with
    | none => exact .assign hp hv
    | some op => exact .fold hp hv
  | block body span =>
    rw [stmt] at h
    obtain ⟨⟨fb, inner⟩, hb, h⟩ := of_bind_ok h
    cases h
    exact .block hb
  | branch branches otherwise span =>
    cases otherwise with
    | none =>
      rw [stmt] at h
      obtain ⟨gs, ha, h⟩ := of_bind_ok h
      cases h
      exact .branch ha
    | some body =>
      rw [stmt] at h
      obtain ⟨gs, ha, h⟩ := of_bind_ok h
      obtain ⟨⟨fb, inner⟩, hb, h⟩ := of_bind_ok h
      cases h
      exact .branchElse ha hb
  | loop condition body span =>
    rw [stmt] at h
    obtain ⟨fc, hc, h⟩ := of_bind_ok h
    obtain ⟨⟨fb, inner⟩, hb, h⟩ := of_bind_ok h
    cases h
    exact .loop hc hb
  | exitLoop span =>
    rw [stmt] at h
    obtain ⟨fj, hj, h⟩ := of_bind_ok h
    cases h
    obtain ⟨count, hc, rfl⟩ := of_loopJump hj
    exact .exitLoop hc
  | nextRound span =>
    rw [stmt] at h
    obtain ⟨fj, hj, h⟩ := of_bind_ok h
    cases h
    obtain ⟨count, hc, rfl⟩ := of_loopJump hj
    exact .nextRound hc
  | giveBack value span =>
    cases value with
    | none =>
      rw [stmt] at h
      cases h
      exact .giveBack
    | some e =>
      rw [stmt] at h
      obtain ⟨fe, he, h⟩ := of_bind_ok h
      cases h
      exact .giveBackValue he
  | function decl span =>
    rw [stmt] at h
    cases h
  | type decl span =>
    rw [stmt] at h
    cases h

theorem stmts_cons {s : Stmt} {ss : List Stmt} {last : Scope}
    (h : stmts env sc (s :: ss) = .ok (f, last)) :
    ∃ fs next fss, stmt env sc s = .ok (fs, next) ∧ stmts env next ss = .ok (fss, last) ∧
      f = fs ++ fss := by
  rw [stmts] at h
  obtain ⟨⟨fs, next⟩, hs, h⟩ := of_bind_ok h
  obtain ⟨⟨fss, last'⟩, hss, h⟩ := of_bind_ok h
  cases h
  exact ⟨fs, next, fss, hs, hss, rfl⟩

theorem arms_cons {arm : Arm Stmt} {rest : List (Arm Stmt)} {gs : List Guarded}
    (h : arms env sc (arm :: rest) = .ok gs) :
    ∃ fc fb inner more, expr env sc arm.condition = .ok fc ∧
      stmts env (sc.enter .plain) arm.body = .ok (fb, inner) ∧ arms env sc rest = .ok more ∧
      gs = ⟨fc, releaseSlots fb inner.leave.1⟩ :: more := by
  obtain ⟨condition, body, span⟩ := arm
  rw [arms] at h
  obtain ⟨fc, hc, h⟩ := of_bind_ok h
  obtain ⟨⟨fb, inner⟩, hb, h⟩ := of_bind_ok h
  obtain ⟨more, hm, h⟩ := of_bind_ok h
  cases h
  exact ⟨fc, fb, inner, more, hc, hb, hm, rfl⟩

theorem functionBody_ok {d : Function} (h : functionBody env d = .ok f) :
    ∃ params fb last, declareParams env Scope.function d.params = .ok params ∧
      stmts env params d.body = .ok (fb, last) ∧
      f = if endsWithReturn d.body then fb else fb.emit .ret := by
  unfold functionBody at h
  obtain ⟨params, hp, h⟩ := of_bind_ok h
  obtain ⟨⟨fb, last⟩, hb, h⟩ := of_bind_ok h
  cases h
  exact ⟨params, fb, last, hp, hb, rfl⟩

end Scriptlet.Compile
