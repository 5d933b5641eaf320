import Scriptlet.Proofs.Code.Image
import Scriptlet.Proofs.Evaluation.Running
import Scriptlet.Proofs.Evaluation.Variables

/-!
# The code of expressions

The code of an expression follows its evaluation and leaves its value on the stack
(`expr_runs`). Calls of declared functions are taken to be followed already (`CallsRun`).
-/

namespace Scriptlet.Evaluation

open Scriptlet.Ideal

/-- Entering a declared function follows its call. -/
def CallsRun (σ : Setting) (n depth : Nat) (call : UInt32 → List Val → Eval Val) : Prop :=
  ∀ id vs pc ops locals (cs : List Ideal.Caller) w, cs.length = depth →
    Carries σ n (Act.callDeclared σ id vs.length (running pc (vs.reverse ++ ops) locals cs w))
      (call id vs w) (Gives pc ops locals cs)

theorem run_get_bind {α : Type} (k : World → Eval α) (w : World) : (get >>= k) w = k w w := rfl

/-! ## Calls -/

section calls

variable {σ : Setting} {n depth : Nat} {call : UInt32 → List Val → Eval Val} {pc : Nat}
  {ops locals : List Val} {cs : List Ideal.Caller} {w : World}

theorem carries_callNative (f : Native) (vs : List Val) :
    Carries σ n (Act.callNative 0 f vs.length (running pc (vs.reverse ++ ops) locals cs w))
      (callNative f vs w) (Gives pc ops locals cs) := by
  unfold Act.callNative callNative
  rw [Act.run_bind_ok (run_popN_values vs)]
  cases hw : w.routine 0 f.routine vs with
  | ok r =>
    rw [Act.run_bind_ok (Act.run_onWorld_ok (s := running pc ops locals cs w) (a := r.1) (w := r.2) hw)]
    simp only [bind, EStateM.bind, onWorld, hw]
    exact carries_here rfl
  | error e =>
    rw [Act.run_bind_error (Act.run_onWorld_error (s := running pc ops locals cs w) hw)]
    simp only [bind, EStateM.bind, onWorld, hw]
    exact carries_fault e

variable (hcall : CallsRun σ n depth call) (hcs : cs.length = depth)
include hcall hcs

theorem carries_callCallee (callee : Callee) (vs : List Val) :
    Carries σ n (Act.callCallee σ 0 callee vs.length (running pc (vs.reverse ++ ops) locals cs w))
      (callCallee call callee vs w) (Gives pc ops locals cs) := by
  cases callee with
  | declared id => exact hcall id vs pc ops locals cs w hcs
  | native f => exact carries_callNative f vs

theorem carries_callValue (v : Val) (vs : List Val) :
    Carries σ n (Act.callValue σ 0 v vs.length (running pc (vs.reverse ++ ops) locals cs w))
      (callValue call v vs w) (Gives pc ops locals cs) := by
  cases v with
  | plain v =>
    cases v with
    | native f => exact carries_callNative f vs
    | _ => exact carries_fault _
  | ref r =>
    cases ho : w.object? r with
    | none =>
      unfold Act.callValue callValue
      simp only [Act.run_get_bind, run_get_bind, ho]
      exact carries_fault _
    | some o =>
      rw [Act.run_callValue_ref (s := running pc (vs.reverse ++ ops) locals cs w) σ 0 ho]
      unfold callValue
      simp only [run_get_bind, ho]
      cases o with
      | function callee receiver =>
        cases receiver with
        | none => exact carries_callCallee hcall hcs callee vs
        | some receiver =>
          have hlen : (vs.reverse).length = vs.length := List.length_reverse
          dsimp only
          rw [Act.run_bind_ok (Act.run_insertBelow (by simp) _)]
          have hins : (running pc (vs.reverse ++ ops) locals cs w).withOperands
              ((vs.reverse ++ ops).take vs.length ++ .ref receiver :: (vs.reverse ++ ops).drop vs.length)
              = running pc ((.ref receiver :: vs).reverse ++ ops) locals cs w := by
            rw [List.take_left' hlen, List.drop_left' hlen, List.reverse_cons, List.append_assoc]
            rfl
          rw [hins]
          exact carries_callCallee hcall hcs callee (.ref receiver :: vs)
      | _ => exact carries_fault _

theorem carries_callMethod (receiver : Val) (name : Symbol) (vs : List Val) :
    Carries σ n (Act.callMethod σ 0 name vs.length
      (running pc (vs.reverse ++ receiver :: ops) locals cs w))
      (callMethod call receiver name vs w) (Gives pc ops locals cs) := by
  have hlen : (vs.reverse).length = vs.length := List.length_reverse
  have hget : (vs.reverse ++ receiver :: ops)[vs.length]? = some receiver := by
    rw [List.getElem?_append_right (by omega), hlen, Nat.sub_self]
    rfl
  unfold Act.callMethod callMethod
  simp only [Act.run_get_bind, run_get_bind, hget]
  cases w.nativeMethod? receiver (w.tables.text name) with
  | some method =>
    have hnative : Carries σ n (Act.callNative 0 method (receiver :: vs).length
        (running pc ((receiver :: vs).reverse ++ ops) locals cs w))
        (callNative method (receiver :: vs) w) (Gives pc ops locals cs) :=
      carries_callNative method (receiver :: vs)
    rw [List.reverse_cons, List.append_assoc] at hnative
    exact hnative
  | none =>
    dsimp only
    cases w.recordField receiver name with
    | error e => exact carries_fault _
    | ok callee =>
      dsimp only
      split
      · have herase : (vs.reverse ++ receiver :: ops).eraseIdx vs.length = vs.reverse ++ ops := by
          rw [List.eraseIdx_append_of_length_le (by omega), hlen, Nat.sub_self]
          rfl
        change Carries σ n (Act.callValue σ 0 callee vs.length
          (running pc ((vs.reverse ++ receiver :: ops).eraseIdx vs.length) locals cs w)) _ _
        rw [herase]
        exact carries_callValue hcall hcs callee vs
      · exact carries_fault _

end calls

/-! ## Expressions -/

/-- The code of a program, and the tables with which it was compiled. -/
structure Link (p : Program) (env : Compile.Env) (σ : Setting) : Prop where
  linked : Compile.Linked env σ.bytecode
  prototypes : env.prototypes = p.prototypes

section names

variable {p : Program} {env : Compile.Env} {σ : Setting} {n : Nat} {sc : Scope} {vars : Vars}
  {loop : LoopAddresses} {base : Nat} {ops locals : List Val} {cs : List Ideal.Caller} {w : World}

theorem runs_literal {v : Literal Symbol}
    (hp : (Fragment.empty.emit (Compile.pushLiteral v)).Placed σ.bytecode.code base loop) :
    Runs σ n (running base ops locals cs w) (.ok (literal v) w)
      (Gives (base + (Fragment.empty.emit (Compile.pushLiteral v)).size) ops locals cs) := by
  obtain ⟨-, hd⟩ := hp.emit Fragment.tidy_empty
  rw [Fragment.size_emit, Fragment.size_empty, Nat.zero_add]
  refine runs_instruction rfl hd ?_
  cases v with
  | bool v => cases v <;> exact carries_here rfl
  | _ => exact carries_here rfl

/-- A minus sign in front of a literal gives the literal that stands for it in the code. -/
theorem run_unary_negated {op : UnaryOp} {e : Expr} {v : Literal Symbol}
    {call : UInt32 → List Val → Eval Val} {span : Span} (h : Compile.negated? op e = some v) :
    expr p call vars (.unary op e span) w = .ok (literal v) w := by
  unfold Compile.negated? at h
  split at h
  · cases h
    simp only [expr]
    rfl
  · cases h
    simp only [expr]
    rfl
  · cases h

theorem runs_getLocal {slot : UInt8} {v : Val} (hv : locals[slot.toNat]? = some v)
    (hp : (Fragment.empty.emit (.getLocal slot)).Placed σ.bytecode.code base loop) :
    Runs σ n (running base ops locals cs w) (.ok v w)
      (Gives (base + (Fragment.empty.emit (.getLocal slot)).size) ops locals cs) := by
  obtain ⟨-, hd⟩ := hp.emit Fragment.tidy_empty
  rw [Fragment.size_emit, Fragment.size_empty, Nat.zero_add]
  refine runs_instruction rfl hd ?_
  change Carries σ n (Act.getLocal slot _) _ _
  unfold Act.getLocal
  rw [Act.run_get_bind]
  simp only [hv]
  exact carries_here rfl

theorem runs_readGlobal {name : Symbol} {span : Span}
    (hp : ((Fragment.empty.emit (.pushString name)).emitAt .getGlobal span).Placed σ.bytecode.code
      base loop) :
    Runs σ n (running base ops locals cs w) (readGlobal name w)
      (Gives (base + ((Fragment.empty.emit (.pushString name)).emitAt .getGlobal span).size) ops locals
        cs) := by
  obtain ⟨hpn, hget⟩ := hp.emitAt (Fragment.tidy_empty.emit _)
  obtain ⟨-, hname⟩ := hpn.emit Fragment.tidy_empty
  rw [Fragment.size_emitAt, Fragment.size_emit, Fragment.size_empty, Nat.zero_add, ← Nat.add_assoc]
  rw [Fragment.size_emit, Fragment.size_empty, Nat.zero_add] at hget
  refine runs_instruction rfl hname (.inr ?_)
  refine runs_instruction (s := running _ (.ref (.literal name) :: ops) locals cs w) rfl hget ?_
  exact carries_give fun w' => w'.still (w'.getGlobal (w.tables.text name))

theorem runs_readName (hl : Link p env σ) (hs : sc.Sound) (hv : vars.Fits sc) {name : Symbol}
    {span : Span} (hp : (Compile.readName env sc name span).Placed σ.bytecode.code base loop) :
    Runs σ n (running base ops vars.slots cs w) (readName p vars name w)
      (Gives (base + (Compile.readName env sc name span).size) ops vars.slots cs) := by
  unfold Compile.readName at hp ⊢
  unfold readName
  obtain ⟨hslot, hfind⟩ | ⟨slot, v, hslot, hfind, hval⟩ := hv.find? hs name
  · simp only [hslot, hfind, hl.prototypes] at hp ⊢
    cases hf : p.prototypes.function? name with
    | some r =>
      simp only [hf] at hp ⊢
      obtain ⟨-, hd⟩ := hp.emit Fragment.tidy_empty
      rw [Fragment.size_emit, Fragment.size_empty, Nat.zero_add]
      exact runs_instruction rfl hd (carries_make _)
    | none =>
      simp only [hf] at hp ⊢
      exact runs_readGlobal hp
  · simp only [hslot, hfind] at hp ⊢
    exact runs_getLocal hval hp

/-- A callee names a declared function directly if the code calls it so. -/
theorem direct?_of_some (hl : Link p env σ) (hs : sc.Sound) (hv : vars.Fits sc) {callee : Expr}
    {name : Symbol} {id : UInt32} {arity : Nat}
    (h : Compile.directCallee? env sc callee = some (name, id, arity)) :
    direct? p vars callee = some id := by
  cases callee with
  | name name' span =>
    simp only [Compile.directCallee?] at h
    simp only [direct?]
    obtain ⟨hslot, hfind⟩ | ⟨slot, v, hslot, -, -⟩ := hv.find? hs name'
    · simp only [hslot] at h
      obtain ⟨r, hr, h⟩ := Option.map_eq_some_iff.1 h
      cases h
      rw [hl.prototypes] at hr
      simp only [hfind, hr, Option.map_some]
    · simp only [hslot] at h
      cases h
  | _ => cases h

theorem direct?_of_none (hl : Link p env σ) (hs : sc.Sound) (hv : vars.Fits sc) {callee : Expr}
    (h : Compile.directCallee? env sc callee = none) : direct? p vars callee = none := by
  cases callee with
  | name name' span =>
    simp only [Compile.directCallee?] at h
    simp only [direct?]
    obtain ⟨hslot, hfind⟩ | ⟨slot, v, -, hfind, -⟩ := hv.find? hs name'
    · simp only [hslot, Option.map_eq_none_iff, hl.prototypes] at h
      simp only [hfind, h, Option.map_none]
    · simp only [hfind]
  | _ => rfl

end names

/-- The run has come to an offset, with several more operands. -/
def GivesAll (count pc : Nat) (operands locals : List Val) (callers : List Ideal.Caller) (vs : List Val)
    (w : World) (s : State) : Prop :=
  vs.length = count ∧ s = running pc (vs.reverse ++ operands) locals callers w

/-- The code of an expression follows its evaluation, wherever it stands. -/
def ExprRuns (p : Program) (env : Compile.Env) (σ : Setting) (n : Nat)
    (call : UInt32 → List Val → Eval Val) (sc : Scope) (vars : Vars) (cs : List Ideal.Caller)
    (loop : LoopAddresses) (e : Expr) : Prop :=
  ∀ {f : Fragment} {base : Nat}, Compile.expr env sc e = .ok f → f.Placed σ.bytecode.code base loop →
    ∀ ops w, Runs σ n (running base ops vars.slots cs w) (expr p call vars e w)
      (Gives (base + f.size) ops vars.slots cs)

/-- The code of several expressions follows their evaluation, wherever it stands. -/
def ExprsRun (p : Program) (env : Compile.Env) (σ : Setting) (n : Nat)
    (call : UInt32 → List Val → Eval Val) (sc : Scope) (vars : Vars) (cs : List Ideal.Caller)
    (loop : LoopAddresses) (es : List Expr) : Prop :=
  ∀ {f : Fragment} {base : Nat}, Compile.exprs env sc es = .ok f →
    f.Placed σ.bytecode.code base loop → ∀ ops w,
    Runs σ n (running base ops vars.slots cs w) (exprs p call vars es w)
      (GivesAll es.length (base + f.size) ops vars.slots cs)

/-! ### One lemma for each kind of expression -/

-- Code follows the equations of the evaluator.
attribute [local simp] expr exprs

section kinds

variable {p : Program} {env : Compile.Env} {σ : Setting} {n depth : Nat}
  {call : UInt32 → List Val → Eval Val} {sc : Scope} {vars : Vars} {cs : List Ideal.Caller}
  {loop : LoopAddresses} {e l r o i callee : Expr} {es : List Expr} {span : Span}

theorem literal_runs {v : Literal Symbol} :
    ExprRuns p env σ n call sc vars cs loop (.literal v span) := by
  intro f base he hp ops w
  rw [Compile.expr] at he
  cases he
  rw [expr]
  exact runs_literal hp

theorem name_runs {name : Symbol} (hl : Link p env σ) (hs : sc.Sound) (hv : vars.Fits sc) :
    ExprRuns p env σ n call sc vars cs loop (.name name span) := by
  intro f base he hp ops w
  rw [Compile.expr] at he
  cases he
  rw [expr]
  exact runs_readName hl hs hv hp

theorem binary_runs {op : BinaryOp} (hleft : ExprRuns p env σ n call sc vars cs loop l)
    (hright : ExprRuns p env σ n call sc vars cs loop r) :
    ExprRuns p env σ n call sc vars cs loop (.binary op l r span) := by
  intro f base he hp ops w
  obtain ⟨fl, fr, hfl, hfr, rfl⟩ := Compile.expr_binary he
  obtain ⟨hp, hd⟩ := hp.emitAt ((Compile.expr_tidy hfl).append (Compile.expr_tidy hfr))
  obtain ⟨hpl, hpr⟩ := hp.append (Compile.expr_tidy hfl)
  simp only [Fragment.size_emitAt, Fragment.size_append, ← Nat.add_assoc] at hd ⊢
  rw [expr]
  refine (hleft hfl hpl ops w).bind ?_
  rintro a w₁ _ rfl
  refine (hright hfr hpr (a :: ops) w₁).bind ?_
  rintro b w₂ _ rfl
  exact runs_instruction rfl hd (carries_give _)

theorem unary_runs {op : UnaryOp} (hoperand : ExprRuns p env σ n call sc vars cs loop e) :
    ExprRuns p env σ n call sc vars cs loop (.unary op e span) := by
  intro f base he hp ops w
  obtain ⟨v, hneg, rfl⟩ | ⟨-, fe, hfe, rfl⟩ := Compile.expr_unary he
  · -- a negated number is a literal in the code, and evaluates to the same one
    rw [run_unary_negated hneg]
    exact runs_literal hp
  · obtain ⟨hp, hd⟩ := hp.emitAt (Compile.expr_tidy hfe)
    simp only [Fragment.size_emitAt, ← Nat.add_assoc]
    rw [expr]
    refine (hoperand hfe hp ops w).bind ?_
    rintro v w₁ _ rfl
    exact runs_instruction rfl hd (carries_give _)

theorem array_runs (hl : Link p env σ) (hitems : ExprsRun p env σ n call sc vars cs loop es) :
    ExprRuns p env σ n call sc vars cs loop (.array es span) := by
  intro f base he hp ops w
  obtain ⟨fs, hfs, rfl⟩ := Compile.expr_array he
  obtain ⟨hp, hd⟩ := hp.emit (Compile.exprs_tidy hfs)
  -- nothing limits the number of items but the size of the code, where each takes a byte or more
  have hlen : (UInt32.ofNat es.length).toNat = es.length := by
    have : base + fs.size ≤ σ.bytecode.size := hp.fits
    have := hl.linked.small
    have := Compile.length_le_size_exprs hfs
    rw [UInt32.toNat_ofNat']
    omega
  simp only [Fragment.size_emit, ← Nat.add_assoc]
  rw [expr]
  refine (hitems hfs hp ops w).bind ?_
  rintro vs w₁ _ ⟨hvs, rfl⟩
  refine runs_instruction rfl hd ?_
  change Carries σ n (Act.createArray (UInt32.ofNat es.length).toNat _) _ _
  unfold Act.createArray
  rw [hlen, ← hvs, Act.run_bind_ok (run_popN_values vs)]
  exact carries_make _

theorem index_runs (hobject : ExprRuns p env σ n call sc vars cs loop o)
    (hindex : ExprRuns p env σ n call sc vars cs loop i) :
    ExprRuns p env σ n call sc vars cs loop (.index o i span) := by
  intro f base he hp ops w
  obtain ⟨fo, fi, hfo, hfi, rfl⟩ := Compile.expr_index he
  obtain ⟨hp, hd⟩ := hp.emitAt ((Compile.expr_tidy hfo).append (Compile.expr_tidy hfi))
  obtain ⟨hpo, hpi⟩ := hp.append (Compile.expr_tidy hfo)
  simp only [Fragment.size_emitAt, Fragment.size_append, ← Nat.add_assoc] at hd ⊢
  rw [expr]
  refine (hobject hfo hpo ops w).bind ?_
  rintro o w₁ _ rfl
  refine (hindex hfi hpi (o :: ops) w₁).bind ?_
  rintro i w₂ _ rfl
  exact runs_instruction rfl hd (carries_give _)

theorem field_runs {name : Symbol} (hobject : ExprRuns p env σ n call sc vars cs loop o) :
    ExprRuns p env σ n call sc vars cs loop (.field o name span) := by
  intro f base he hp ops w
  obtain ⟨fo, hfo, rfl⟩ := Compile.expr_field he
  obtain ⟨hp, hd⟩ := hp.emitAt (Compile.expr_tidy hfo)
  simp only [Fragment.size_emitAt, ← Nat.add_assoc]
  rw [expr]
  refine (hobject hfo hp ops w).bind ?_
  rintro o w₁ _ rfl
  exact runs_instruction rfl hd (carries_give _)

theorem construct_runs {type : Symbol} (hl : Link p env σ)
    (hargs : ExprsRun p env σ n call sc vars cs loop es) :
    ExprRuns p env σ n call sc vars cs loop (.construct type es span) := by
  intro f base he hp ops w
  obtain ⟨id, entry, count, fs, hstruct, hfields, hcount, hfs, rfl⟩ := Compile.expr_construct he
  obtain ⟨hp, hd⟩ := hp.emitAt (Compile.exprs_tidy hfs)
  obtain ⟨-, hlen⟩ := Compile.of_checkCount hcount
  simp only [Fragment.size_emitAt, ← Nat.add_assoc]
  rw [expr]
  refine (hargs hfs hp ops w).bind ?_
  rintro vs w₁ _ ⟨hvs, rfl⟩
  refine runs_instruction rfl hd ?_
  change Carries σ n (Act.construct σ id count.toNat _) _ _
  have hentry := hl.linked.struct type id entry hstruct
  rw [hl.prototypes] at hstruct
  unfold Act.construct construct
  simp only [hentry, hstruct]
  rw [hlen, hvs, if_neg (Nat.not_lt.2 hfields), if_neg (Nat.not_lt.2 hfields), ← hvs,
    Act.run_bind_ok (run_popN_values vs)]
  exact carries_make _

variable (hcall : CallsRun σ n depth call) (hcs : cs.length = depth)
include hcall hcs

theorem call_runs (hl : Link p env σ) (hs : sc.Sound) (hv : vars.Fits sc)
    (hargs : ExprsRun p env σ n call sc vars cs loop es)
    (hcallee : ExprRuns p env σ n call sc vars cs loop callee) :
    ExprRuns p env σ n call sc vars cs loop (.call callee es span) := by
  intro f base he hp ops w
  rw [expr]
  obtain ⟨name, id, fs, hdirect, hfs, rfl⟩ | ⟨hdirect, count, fs, fc, hcount, hfs, hfc, rfl⟩ :=
    Compile.expr_call he
  · -- no variable has the name, so the compiler and the evaluator both call the function itself
    obtain ⟨hp, hd⟩ := hp.emitAt (Compile.exprs_tidy hfs)
    obtain ⟨g, hg, harity⟩ := hl.linked.directCallee hdirect
    simp only [Fragment.size_emitAt, ← Nat.add_assoc]
    refine (hargs hfs hp ops w).bind ?_
    rintro vs w₁ _ ⟨hvs, rfl⟩
    simp only [direct?_of_some hl hs hv hdirect]
    refine runs_instruction rfl hd ?_
    change Carries σ n (Act.callFunction σ id _) _ _
    unfold Act.callFunction
    simp only [hg]
    rw [harity, ← hvs]
    exact hcall id vs _ ops vars.slots cs w₁ hcs
  · obtain ⟨hp, hd⟩ := hp.emitAt ((Compile.exprs_tidy hfs).append (Compile.expr_tidy hfc))
    obtain ⟨hpa, hpc⟩ := hp.append (Compile.exprs_tidy hfs)
    obtain ⟨-, hlen⟩ := Compile.of_checkCount hcount
    simp only [Fragment.size_emitAt, Fragment.size_append, ← Nat.add_assoc] at hd ⊢
    refine (hargs hfs hpa ops w).bind ?_
    rintro vs w₁ _ ⟨hvs, rfl⟩
    simp only [direct?_of_none hl hs hv hdirect]
    refine (hcallee hfc hpc (vs.reverse ++ ops) w₁).bind ?_
    rintro f w₂ _ rfl
    refine runs_instruction rfl hd ?_
    change Carries σ n (Act.callValue σ 0 f count.toNat (running _ (vs.reverse ++ ops) _ cs w₂)) _ _
    rw [hlen, ← hvs]
    exact carries_callValue hcall hcs f vs

theorem methodCall_runs {name : Symbol} (hobject : ExprRuns p env σ n call sc vars cs loop o)
    (hargs : ExprsRun p env σ n call sc vars cs loop es) :
    ExprRuns p env σ n call sc vars cs loop (.methodCall o name es span) := by
  intro f base he hp ops w
  obtain ⟨count, fo, fs, hcount, hfo, hfs, rfl⟩ := Compile.expr_methodCall he
  obtain ⟨hp, hd⟩ := hp.emitAt ((Compile.expr_tidy hfo).append (Compile.exprs_tidy hfs))
  obtain ⟨hpo, hpa⟩ := hp.append (Compile.expr_tidy hfo)
  obtain ⟨-, hlen⟩ := Compile.of_checkCount hcount
  simp only [Fragment.size_emitAt, Fragment.size_append, ← Nat.add_assoc] at hd ⊢
  rw [expr]
  refine (hobject hfo hpo ops w).bind ?_
  rintro o w₁ _ rfl
  refine (hargs hfs hpa (o :: ops) w₁).bind ?_
  rintro vs w₂ _ ⟨hvs, rfl⟩
  refine runs_instruction rfl hd ?_
  change Carries σ n (Act.callMethod σ 0 name count.toNat _) _ _
  rw [hlen, ← hvs]
  exact carries_callMethod hcall hcs o name vs

end kinds

mutual

/-- The code of an expression follows its evaluation. -/
theorem expr_runs {p : Program} {env : Compile.Env} {σ : Setting} (hl : Link p env σ) {n depth : Nat}
    {call : UInt32 → List Val → Eval Val} (hcall : CallsRun σ n depth call) {sc : Scope} (hs : sc.Sound)
    {vars : Vars} (hv : vars.Fits sc) {cs : List Ideal.Caller} (hcs : cs.length = depth)
    {loop : LoopAddresses} : ∀ {e : Expr}, ExprRuns p env σ n call sc vars cs loop e
  | .literal _ _ => literal_runs
  | .name _ _ => name_runs hl hs hv
  | .binary _ _ _ _ =>
    binary_runs (expr_runs hl hcall hs hv hcs) (expr_runs hl hcall hs hv hcs)
  | .unary _ _ _ => unary_runs (expr_runs hl hcall hs hv hcs)
  | .array _ _ => array_runs hl (exprs_runs hl hcall hs hv hcs)
  | .index _ _ _ => index_runs (expr_runs hl hcall hs hv hcs) (expr_runs hl hcall hs hv hcs)
  | .field _ _ _ => field_runs (expr_runs hl hcall hs hv hcs)
  | .call _ _ _ =>
    call_runs hcall hcs hl hs hv (exprs_runs hl hcall hs hv hcs) (expr_runs hl hcall hs hv hcs)
  | .methodCall _ _ _ _ =>
    methodCall_runs hcall hcs (expr_runs hl hcall hs hv hcs) (exprs_runs hl hcall hs hv hcs)
  | .construct _ _ _ => construct_runs hl (exprs_runs hl hcall hs hv hcs)

/-- The code of several expressions follows their evaluation. -/
theorem exprs_runs {p : Program} {env : Compile.Env} {σ : Setting} (hl : Link p env σ) {n depth : Nat}
    {call : UInt32 → List Val → Eval Val} (hcall : CallsRun σ n depth call) {sc : Scope} (hs : sc.Sound)
    {vars : Vars} (hv : vars.Fits sc) {cs : List Ideal.Caller} (hcs : cs.length = depth)
    {loop : LoopAddresses} : ∀ {es : List Expr}, ExprsRun p env σ n call sc vars cs loop es
  | [], _, _, he, _, _, _ => by
    rw [Compile.exprs] at he
    cases he
    rw [exprs]
    exact runs_here ⟨rfl, rfl⟩
  | e :: es, _, _, he, hp, ops, w => by
    obtain ⟨fe, fs, hfe, hfs, rfl⟩ := Compile.exprs_cons he
    obtain ⟨hpe, hps⟩ := hp.append (Compile.expr_tidy hfe)
    simp only [Fragment.size_append, ← Nat.add_assoc]
    rw [exprs]
    refine (expr_runs hl hcall hs hv hcs hfe hpe ops w).bind ?_
    rintro v w₁ _ rfl
    refine (exprs_runs hl hcall hs hv hcs hfs hps (v :: ops) w₁).map ?_
    rintro vs w₂ _ ⟨hvs, rfl⟩
    refine ⟨by rw [List.length_cons, List.length_cons, hvs], ?_⟩
    rw [List.reverse_cons, List.append_assoc]
    rfl

end

end Scriptlet.Evaluation
