import Scriptlet.Proofs.Code.Discipline

/-!
# Blocks and their code

`Program.BlockAt`: statements of a program that follow each other in a block, up to its end, with the
scope in which they are compiled and the offset of their code. It holds of the main statements and of
every function (`main`, `function`), goes on from one statement to the next (`next`), and from a
statement into the blocks in it (`block`, `arm`, `otherwise`, `loop`).

Main statement: `Program.BlockAt.placed`, the code of such statements stands at their offset.
-/

namespace Scriptlet

open Compile
open Fragment (Guarded jumpWidth)

/-- Statements up to the end of a block of a program, in a scope, with the offset of their code. -/
inductive Program.BlockAt (p : Program) (b : Bytecode) (env : Env) : Nat → Scope → List Stmt → Prop
  | main : BlockAt p b env 0 Scope.function p.main
  | function {k : Nat} {d : Function} {entry : FunctionEntry} {sc : Scope}
    (hd : p.functions[k]? = some d) (he : b.functions[k]? = some entry)
    (hsc : declareParams env Scope.function d.params = .ok sc) :
    BlockAt p b env entry.offset sc d.body
  | next {base : Nat} {sc next : Scope} {s : Stmt} {ss : List Stmt} {f : Fragment}
    (h : BlockAt p b env base sc (s :: ss)) (hs : stmt env sc s = .ok (f, next)) :
    BlockAt p b env (base + f.size) next ss
  | block {base : Nat} {sc : Scope} {body ss : List Stmt} {span : Span}
    (h : BlockAt p b env base sc (.block body span :: ss)) :
    BlockAt p b env base (sc.enter .plain) body
  | arm {base : Nat} {sc : Scope} {before after : List (Arm Stmt)} {a : Arm Stmt}
    {otherwise : Option (List Stmt)} {span : Span} {ss : List Stmt} {gs : List Guarded}
    {fc : Fragment}
    (h : BlockAt p b env base sc (.branch (before ++ a :: after) otherwise span :: ss))
    (hbefore : arms env sc before = .ok gs) (hc : expr env sc a.condition = .ok fc) :
    BlockAt p b env (base + armsSize true gs + fc.size + jumpWidth) (sc.enter .plain) a.body
  | otherwise {base : Nat} {sc : Scope} {branches : List (Arm Stmt)} {body ss : List Stmt}
    {span : Span} {gs : List Guarded}
    (h : BlockAt p b env base sc (.branch branches (some body) span :: ss))
    (ha : arms env sc branches = .ok gs) :
    BlockAt p b env (base + armsSize true gs) (sc.enter .plain) body
  | loop {base : Nat} {sc : Scope} {condition : Expr} {body ss : List Stmt} {span : Span}
    {fc : Fragment} (h : BlockAt p b env base sc (.loop condition body span :: ss))
    (hc : expr env sc condition = .ok fc) :
    BlockAt p b env (base + fc.size + jumpWidth) (sc.enter .loop) body

namespace Compile

variable {env : Env} {sc : Scope} {code : Array UInt8} {loop : LoopAddresses}

/-- An arm behind others: its body stands behind their code, its own condition and a jump. All arms
before it end with a jump, since something follows them. -/
theorem placed_arm : ∀ {before after : List (Arm Stmt)} {a : Arm Stmt} {gs all : List Guarded}
    {fc : Fragment} {stop pc : Nat} {hasElse : Bool}, arms env sc before = .ok gs →
    arms env sc (before ++ a :: after) = .ok all → expr env sc a.condition = .ok fc →
    ArmsAt code loop stop hasElse all pc →
    ∃ fb inner, stmts env (sc.enter .plain) a.body = .ok (fb, inner) ∧
      fb.Placed code (pc + armsSize true gs + fc.size + jumpWidth) loop
  | [], after, a, gs, all, fc, stop, pc, hasElse, hgs, hall, hc, hat => by
    obtain ⟨fc', fb, inner, more, hc', hbody, -, rfl⟩ := arms_cons hall
    rw [arms] at hgs
    cases hgs
    cases hc.symm.trans hc'
    obtain ⟨-, -, hpb, -, -⟩ := hat
    exact ⟨fb, inner, hbody, (placed_releaseSlots (stmts_tidy hbody) hpb).1⟩
  | a' :: before, after, a, gs, all, fc, stop, pc, hasElse, hgs, hall, hc, hat => by
    obtain ⟨fc₁, fb₁, inner₁, more, hc₁, hbody₁, hmore, rfl⟩ := arms_cons hgs
    obtain ⟨fc₂, fb₂, inner₂, rest, hc₂, hbody₂, hrest, rfl⟩ := arms_cons hall
    cases hc₁.symm.trans hc₂
    cases hbody₁.symm.trans hbody₂
    obtain ⟨-, -, -, -, hnext⟩ := hat
    have hne : rest.isEmpty = false := by
      rw [isEmpty_arms hrest]
      cases before <;> rfl
    rw [hne] at hnext
    rw [armsSize, Bool.or_true, ← Nat.add_assoc]
    exact placed_arm hmore hrest hc hnext

/-- The arms of a branching, with or without statements behind them. -/
theorem armsAt_of_branch {branches : List (Arm Stmt)} {otherwise : Option (List Stmt)} {span : Span}
    {f : Fragment} {next : Scope} {base : Nat}
    (h : stmt env sc (.branch branches otherwise span) = .ok (f, next))
    (hp : f.Placed code base loop) :
    ∃ gs stop, arms env sc branches = .ok gs ∧ ArmsAt code loop stop otherwise.isSome gs base := by
  cases stmt_code h with
  | branch ha => exact ⟨_, _, ha, placed_layoutBranch (arms_tidy ha) (placed_mark_append hp)⟩
  | branchElse ha hb =>
    exact ⟨_, _, ha, (placed_layoutBranch_some (arms_tidy ha) (placed_mark_append hp)).1⟩

end Compile

namespace Program.BlockAt

variable {p : Program} {pool : Pool} {b : Bytecode} {env : Env} {base : Nat} {sc : Scope}
  {ss : List Stmt}

/-- The code of statements up to the end of a block stands at their offset. -/
theorem placed (hi : Image p pool b env) (h : p.BlockAt b env base sc ss) :
    ∃ f last loop, stmts env sc ss = .ok (f, last) ∧ f.Placed b.code base loop := by
  induction h with
  | main =>
    obtain ⟨f, last, hf, hp, -⟩ := hi.code
    exact ⟨f, last, ⟨0, 0⟩, hf, ((hp ⟨0, 0⟩).emit (stmts_tidy hf)).1⟩
  | @function k d entry sc hd he hsc =>
    obtain ⟨fm, lastm, -, -, hbodies⟩ := hi.code
    obtain ⟨offset, f, hentry, hf, hp⟩ := hbodies.get hd
    rw [Nat.zero_add, he] at hentry
    cases hentry
    obtain ⟨sc', fb, last, hsc', hbody, rfl⟩ := functionBody_ok hf
    cases hsc.symm.trans hsc'
    refine ⟨fb, last, ⟨0, 0⟩, hbody, ?_⟩
    have hpf := hp ⟨0, 0⟩
    cases hr : endsWithReturn d.body with
    | true => rwa [hr, if_pos rfl] at hpf
    | false =>
      rw [hr, if_neg Bool.false_ne_true] at hpf
      exact (hpf.emit (stmts_tidy hbody)).1
  | next _ hs ih =>
    obtain ⟨f, last, loop, hf, hp⟩ := ih
    obtain ⟨fs, next, fss, hs', hss, rfl⟩ := stmts_cons hf
    cases hs.symm.trans hs'
    exact ⟨fss, last, loop, hss, (hp.append (stmt_tidy hs)).2⟩
  | block _ ih =>
    obtain ⟨f, last, loop, hf, hp⟩ := ih
    obtain ⟨fs, next, fss, hs, hss, rfl⟩ := stmts_cons hf
    have hps := (hp.append (stmt_tidy hs)).1
    cases stmt_code hs with
    | @block _ _ fb inner hb =>
      exact ⟨fb, inner, loop, hb, (placed_releaseSlots (stmts_tidy hb) (placed_mark_append hps)).1⟩
  | arm _ hbefore hc ih =>
    obtain ⟨f, last, loop, hf, hp⟩ := ih
    obtain ⟨fs, next, fss, hs, hss, rfl⟩ := stmts_cons hf
    obtain ⟨gs, stop, hgs, hat⟩ := armsAt_of_branch hs (hp.append (stmt_tidy hs)).1
    obtain ⟨fb, inner, hb, hpb⟩ := placed_arm hbefore hgs hc hat
    exact ⟨fb, inner, loop, hb, hpb⟩
  | otherwise _ ha ih =>
    obtain ⟨f, last, loop, hf, hp⟩ := ih
    obtain ⟨fs, next, fss, hs, hss, rfl⟩ := stmts_cons hf
    have hps := (hp.append (stmt_tidy hs)).1
    cases stmt_code hs with
    | @branchElse _ _ _ gs fb inner ha' hb =>
      cases ha.symm.trans ha'
      have hpb := (placed_layoutBranch_some (arms_tidy ha) (placed_mark_append hps)).2
      exact ⟨fb, inner, loop, hb, (placed_releaseSlots (stmts_tidy hb) hpb).1⟩
  | loop _ hc ih =>
    obtain ⟨f, last, loop, hf, hp⟩ := ih
    obtain ⟨fs, next, fss, hs, hss, rfl⟩ := stmts_cons hf
    have hps := (hp.append (stmt_tidy hs)).1
    cases stmt_code hs with
    | @loop _ _ _ fc fb inner hc' hb =>
      cases hc.symm.trans hc'
      obtain ⟨-, -, hpb, -⟩ := placed_layoutLoop (expr_tidy hc)
        (releaseSlots_tidy (stmts_tidy hb) _) (placed_mark_append hps)
      exact ⟨fb, inner, _, hb, (placed_releaseSlots (stmts_tidy hb) hpb).1⟩

end Program.BlockAt

end Scriptlet
