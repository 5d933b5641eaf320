import Scriptlet.Proofs.Code.Origins
import Scriptlet.Proofs.Reading.Names

/-!
# Names in compiled code

The nodes that instructions come from occur in the program (`Compile.origins_occur`), so the names of
fields and methods in its code are names of its trees. With the names in its tables, these are names of
the source: `Compile.named_of_compile`.
-/

namespace Scriptlet

/-! ## Names in code -/

/-- The name in an instruction that looks up a field or a method. -/
def Instruction.name? : Instruction → Option Symbol
  | .getField n | .setField n | .callMethod n _ => some n
  | _ => none

theorem Instruction.canFault_of_name? {i : Instruction} {n : Symbol} (h : i.name? = some n) :
    i.canFault = true := by
  cases i <;> first | rfl | cases h

/-- The tree of a node. -/
def SourceNode.tree : SourceNode → Program.Tree
  | expr e => .expr e
  | stmt s => .stmt s

/-- An origin in a program: its node occurs there, and has the name that the instruction has. -/
def Origin.Occurs (p : Program) (o : Origin) : Prop :=
  Program.Occurs p o.node.tree ∧ ∀ n, o.instruction.name? = some n → n ∈ o.node.tree.names

namespace Compile

open Program (Tree Occurs)

variable {p : Program}

theorem forall_append {α : Type} {P : α → Prop} {as bs : List α} (ha : ∀ a ∈ as, P a)
    (hb : ∀ b ∈ bs, P b) : ∀ a ∈ as ++ bs, P a := fun a h => (List.mem_append.1 h).elim (ha a) (hb a)

/-- The origin of a node that occurs, for an instruction that has no name but one of the node. -/
theorem forall_origin {i : Instruction} (node : SourceNode) (h : Occurs p node.tree)
    (hi : ∀ n, i.name? = some n → n ∈ node.tree.names) :
    ∀ o ∈ [(⟨i, node⟩ : Origin)], o.Occurs p := by
  intro o ho
  rw [List.mem_singleton.1 ho]
  exact ⟨h, hi⟩

theorem forall_nameless {i : Instruction} (node : SourceNode) (h : Occurs p node.tree)
    (hi : i.name? = none) : ∀ o ∈ [(⟨i, node⟩ : Origin)], o.Occurs p := by
  refine forall_origin node h fun n hn => ?_
  rw [hi] at hn
  cases hn

mutual

theorem exprOrigins_occur (env : Env) (sc : Scope) : ∀ {e : Expr}, Occurs p (.expr e) →
    ∀ o ∈ exprOrigins env sc e, o.Occurs p
  | .literal .., _ => nofun
  | .name name span, h => by
    rw [exprOrigins]
    split
    · nofun
    · exact forall_nameless (.expr _) h rfl
  | .binary op left right span, h => by
    rw [exprOrigins]
    refine forall_append (forall_append ?_ ?_) (forall_nameless (.expr _) h rfl)
    · exact exprOrigins_occur env _ (h.part (by simp [Tree.parts, Tree.ofExpr]))
    · exact exprOrigins_occur env _ (h.part (by simp [Tree.parts, Tree.ofExpr]))
  | .unary op operand span, h => by
    rw [exprOrigins]
    split
    · nofun
    · refine forall_append ?_ (forall_nameless (.expr _) h rfl)
      exact exprOrigins_occur env _ (h.part (by simp [Tree.parts, Tree.ofExpr]))
  | .array items span, h => by
    rw [exprOrigins]
    exact exprsOrigins_occur env _ fun e he => h.part (by simp [Tree.parts, Tree.ofExpr, he])
  | .index object index span, h => by
    rw [exprOrigins]
    refine forall_append (forall_append ?_ ?_) (forall_nameless (.expr _) h rfl)
    · exact exprOrigins_occur env _ (h.part (by simp [Tree.parts, Tree.ofExpr]))
    · exact exprOrigins_occur env _ (h.part (by simp [Tree.parts, Tree.ofExpr]))
  | .field object name span, h => by
    rw [exprOrigins]
    refine forall_append ?_ (forall_origin (.expr _) h fun n hn => ?_)
    · exact exprOrigins_occur env _ (h.part (by simp [Tree.parts, Tree.ofExpr]))
    · cases hn
      exact List.mem_singleton_self _
  | .call callee args span, h => by
    have hargs : ∀ e ∈ args, Occurs p (.expr e) := fun e he =>
      h.part (by simp [Tree.parts, Tree.ofExpr, he])
    rw [exprOrigins]
    split
    · exact forall_append (exprsOrigins_occur env _ hargs) (forall_nameless (.expr _) h rfl)
    · refine forall_append (forall_append (exprsOrigins_occur env _ hargs) ?_)
        (forall_nameless (.expr _) h rfl)
      exact exprOrigins_occur env _ (h.part (by simp [Tree.parts, Tree.ofExpr]))
  | .methodCall object name args span, h => by
    rw [exprOrigins]
    refine forall_append (forall_append ?_ ?_) (forall_origin (.expr _) h fun n hn => ?_)
    · exact exprOrigins_occur env _ (h.part (by simp [Tree.parts, Tree.ofExpr]))
    · exact exprsOrigins_occur env _ fun e he =>
        h.part (by simp [Tree.parts, Tree.ofExpr, he])
    · cases hn
      exact List.mem_singleton_self _
  | .construct type args span, h => by
    rw [exprOrigins]
    refine forall_append (exprsOrigins_occur env _ fun e he => ?_) fun o ho => ?_
    · exact h.part (by simp [Tree.parts, Tree.ofExpr, he])
    · obtain ⟨s, -, rfl⟩ := List.mem_map.1 ho
      exact ⟨h, nofun⟩

theorem exprsOrigins_occur (env : Env) (sc : Scope) : ∀ {es : List Expr},
    (∀ e ∈ es, Occurs p (.expr e)) →
    ∀ o ∈ exprsOrigins env sc es, o.Occurs p
  | [], _ => nofun
  | e :: es, h => by
    rw [exprsOrigins]
    exact forall_append (exprOrigins_occur env _ (h e List.mem_cons_self))
      (exprsOrigins_occur env _ fun e he => h e (List.mem_cons_of_mem _ he))

end

/-- Both halves of an assignment come from its target. -/
theorem placeOrigins_occur (env : Env) (sc : Scope) {target : Expr} (h : Occurs p (.expr target)) :
    (∀ o ∈ loadOrigins env sc target, o.Occurs p) ∧ ∀ o ∈ storeOrigins env sc target, o.Occurs p := by
  cases target with
  | name name span =>
    refine ⟨?_, fun o ho => absurd ho List.not_mem_nil⟩
    rw [loadOrigins]
    split
    · nofun
    · exact forall_nameless (.expr _) h rfl
  | index object index span =>
    have hobject : Occurs p (.expr object) := h.part (by simp [Tree.parts, Tree.ofExpr])
    have hindex : Occurs p (.expr index) := h.part (by simp [Tree.parts, Tree.ofExpr])
    have hparts := forall_append (exprOrigins_occur env sc hobject)
      (exprOrigins_occur env sc hindex)
    exact ⟨forall_append hparts (forall_nameless (.expr _) h rfl),
      forall_append hparts (forall_nameless (.expr _) h rfl)⟩
  | field object name span =>
    have hpart : Occurs p (.expr object) := h.part (by simp [Tree.parts, Tree.ofExpr])
    have hobject := exprOrigins_occur env sc hpart
    have hname : ∀ n, some name = some n → n ∈ Tree.names (.expr (.field object name span)) := by
      intro n hn
      cases hn
      exact List.mem_singleton_self _
    exact ⟨forall_append hobject (forall_origin (.expr _) h hname),
      forall_append hobject (forall_origin (.expr _) h hname)⟩
  | _ => exact ⟨fun o ho => absurd ho List.not_mem_nil, fun o ho => absurd ho List.not_mem_nil⟩

mutual

theorem stmtOrigins_occur (env : Env) : ∀ {s : Stmt} {sc : Scope}, Occurs p (.stmt s) →
    ∀ o ∈ stmtOrigins env sc s, o.Occurs p
  | .expression e span, sc, h => by
    rw [stmtOrigins]
    exact exprOrigins_occur env _ (h.part (by simp [Tree.parts, Tree.ofStmt]))
  | .declare name e span, sc, h => by
    rw [stmtOrigins]
    exact exprOrigins_occur env _ (h.part (by simp [Tree.parts, Tree.ofStmt]))
  | .assign target op value span, sc, h => by
    have htarget : Occurs p (.expr target) := h.part (by simp [Tree.parts, Tree.ofStmt])
    have hnew : Occurs p (.expr value) := h.part (by simp [Tree.parts, Tree.ofStmt])
    obtain ⟨hload, hstore⟩ := placeOrigins_occur env sc htarget
    have hvalue := exprOrigins_occur env sc hnew
    cases op with
    | none =>
      rw [stmtOrigins]
      exact forall_append hvalue hstore
    | some op =>
      rw [stmtOrigins]
      exact forall_append (forall_append (forall_append hload hvalue)
        (forall_nameless (.stmt _) h rfl)) hstore
  | .block body span, sc, h => by
    rw [stmtOrigins]
    exact stmtsOrigins_occur env fun s hs => h.part (by simp [Tree.parts, Tree.ofStmt, hs])
  | .branch branches none span, sc, h => by
    rw [stmtOrigins]
    exact armsOrigins_occur env fun a ha => h.part (by simp [Tree.parts, Tree.ofStmt, ha])
  | .branch branches (some body) span, sc, h => by
    rw [stmtOrigins]
    refine forall_append (armsOrigins_occur env fun a ha => ?_) (stmtsOrigins_occur env fun s hs => ?_)
    · exact h.part (by simp [Tree.parts, Tree.ofStmt, ha])
    · exact h.part (by simp [Tree.parts, Tree.ofStmt, hs])
  | .loop condition body span, sc, h => by
    rw [stmtOrigins]
    refine forall_append (exprOrigins_occur env _ ?_) (stmtsOrigins_occur env fun s hs => ?_)
    · exact h.part (by simp [Tree.parts, Tree.ofStmt])
    · exact h.part (by simp [Tree.parts, Tree.ofStmt, hs])
  | .giveBack (some e) span, sc, h => by
    rw [stmtOrigins]
    exact exprOrigins_occur env _ (h.part (by simp [Tree.parts, Tree.ofStmt]))
  | .giveBack none _, _, _ | .exitLoop _, _, _ | .nextRound _, _, _ | .function .., _, _
  | .type .., _, _ => by
    rw [stmtOrigins]
    nofun

theorem stmtsOrigins_occur (env : Env) : ∀ {ss : List Stmt} {sc : Scope},
    (∀ s ∈ ss, Occurs p (.stmt s)) →
    ∀ o ∈ stmtsOrigins env sc ss, o.Occurs p
  | [], _, _ => nofun
  | s :: ss, _, h => by
    rw [stmtsOrigins]
    exact forall_append (stmtOrigins_occur env (h s List.mem_cons_self))
      (stmtsOrigins_occur env fun s hs => h s (List.mem_cons_of_mem _ hs))

theorem armsOrigins_occur (env : Env) : ∀ {as : List (Arm Stmt)} {sc : Scope},
    (∀ a ∈ as, Occurs p (.arm a)) →
    ∀ o ∈ armsOrigins env sc as, o.Occurs p
  | [], _, _ => nofun
  | ⟨condition, body, span⟩ :: as, _, h => by
    have harm := h _ List.mem_cons_self
    rw [armsOrigins]
    refine forall_append
      (forall_append (exprOrigins_occur env _ ?_) (stmtsOrigins_occur env fun s hs => ?_))
      (armsOrigins_occur env fun a ha => h a (List.mem_cons_of_mem _ ha))
    · exact harm.part (by simp [Tree.parts])
    · exact harm.part (by simp [Tree.parts, hs])

end

theorem occurs_of_mem_functions {d : Function} (h : d ∈ p.functions) :
    ∃ span, Occurs p (.stmt (.function d span)) := by
  obtain ⟨s, hs, hd⟩ := List.mem_filterMap.1 h
  cases s <;> cases hd
  exact ⟨_, .statement hs⟩

theorem occurs_of_mem_types {d : TypeDecl} (h : d ∈ p.types) :
    ∃ span, Occurs p (.stmt (.type d span)) := by
  obtain ⟨s, hs, hd⟩ := List.mem_filterMap.1 h
  cases s <;> cases hd
  exact ⟨_, .statement hs⟩

/-- The origins of a program occur in it. -/
theorem origins_occur (pool : Pool) : ∀ o ∈ p.origins pool, o.Occurs p := by
  unfold Program.origins
  split
  · refine forall_append (stmtsOrigins_occur _ fun s hs => ?_) fun o ho => ?_
    · exact .statement (List.mem_of_mem_filter hs)
    · obtain ⟨d, hd, ho⟩ := List.mem_flatMap.1 ho
      obtain ⟨span, hoccurs⟩ := occurs_of_mem_functions hd
      unfold functionOrigins at ho
      split at ho
      · refine stmtsOrigins_occur _ (fun s hs => ?_) o ho
        exact hoccurs.part (by simp [Tree.parts, Tree.ofStmt, hs])
      · cases ho
  · nofun

/-! ## Compiled programs -/

/-- Wherever a compiled program looks up or shows a name, that is a name. -/
structure Named (b : Bytecode) : Prop where
  code : ∀ x ∈ b.instructions, ∀ n, x.2.name? = some n → Token.IsName (b.text n)
  functions : ∀ f ∈ b.functions.toList, Token.IsName (b.text f.name) ∧
    ∀ q ∈ f.params, Token.IsName (b.text q.1)
  structs : ∀ s ∈ b.structs.toList, Token.IsName (b.text s.name) ∧
    ∀ q ∈ s.fields, Token.IsName (b.text q.1)

/-- What instructions look up is named in the program. -/
theorem name_occurs {pool : Pool} {b : Bytecode} (h : p.compile pool = .ok b) {x : Nat × Instruction}
    (hx : x ∈ b.instructions) {n : Symbol} (hn : x.2.name? = some n) :
    ∃ t, Occurs p t ∧ n ∈ t.names := by
  obtain ⟨is, hr, his⟩ := (charted_of_compile h).traced
  rw [Bytecode.instructions, Instruction.decodeAll, hr.decodeFrom_eq rfl] at hx
  have hcan : x ∈ is.filter (·.2.canFault) :=
    List.mem_filter.2 ⟨hx, Instruction.canFault_of_name? hn⟩
  obtain ⟨k, hk, rfl⟩ := List.getElem_of_mem hcan
  have hk' : k < (p.origins pool).length := his.length_eq ▸ hk
  obtain ⟨hinstruction, -⟩ := his.get hk hk'
  rw [List.get_eq_getElem, List.get_eq_getElem] at hinstruction
  obtain ⟨hoccurs, hname⟩ := origins_occur pool _ (List.getElem_mem hk')
  exact ⟨_, hoccurs, hname n (hinstruction ▸ hn)⟩

theorem named_of_compile {source : String} {tokens : List (Token Symbol)} {pool : Pool} {b : Bytecode}
    (hscan : Token.scan source = .ok (tokens, pool)) (hsize : pool.size ≤ 2 ^ 32)
    (hread : Program.read tokens pool = .ok p) (hcompile : p.compile pool = .ok b) : Named b := by
  obtain ⟨env, hi⟩ := image_of_compile hcompile
  have htext : ∀ t n, Occurs p t → n ∈ t.names → Token.IsName (b.text n) := by
    intro t n ht hn
    rw [Bytecode.text, hi.strings]
    exact ht.isName hscan hsize hread n hn
  -- A table has the names of a declaration and of its binders.
  have hsignature : ∀ (bs : List Binder) q, (∀ x ∈ bs, Occurs p (.binder x)) →
      q ∈ Prototypes.signature bs → Token.IsName (b.text q.1) := by
    intro bs q hbs hq
    obtain ⟨x, hx, rfl⟩ := List.mem_map.1 hq
    exact htext _ _ (hbs x hx) (List.mem_singleton_self _)
  refine ⟨fun x hx n hn => ?_, fun f hf => ?_, fun s hs => ?_⟩
  · obtain ⟨t, ht, hmem⟩ := name_occurs hcompile hx hn
    exact htext t n ht hmem
  · obtain ⟨i, hlt, hget⟩ := List.getElem_of_mem hf
    have hlen : i < p.functions.length := by
      rw [← hi.size]
      exact hlt
    obtain ⟨offset, fb, hentry, -⟩ := hi.body (List.getElem?_eq_getElem hlen)
    rw [← Array.getElem?_toList, List.getElem?_eq_getElem hlt, hget] at hentry
    cases hentry
    obtain ⟨span, hoccurs⟩ := occurs_of_mem_functions (List.getElem_mem hlen)
    refine ⟨htext _ _ hoccurs (List.mem_singleton_self _), fun q hq => ?_⟩
    exact hsignature _ q (fun x hx => hoccurs.part (by simp [Tree.parts, Tree.ofStmt, hx])) hq
  · rw [hi.structs, hi.types] at hs
    obtain ⟨d, hd, rfl⟩ := List.mem_map.1 hs
    obtain ⟨span, hoccurs⟩ := occurs_of_mem_types hd
    refine ⟨htext _ _ hoccurs (List.mem_singleton_self _), fun q hq => ?_⟩
    exact hsignature _ q (fun x hx => hoccurs.part (by simp [Tree.parts, Tree.ofStmt, hx])) hq

end Compile

end Scriptlet
