import Scriptlet.Proofs.Reading.Locality

/-!
# Where tokens are refused

`Program.refused_at_first_unexpected`: where the reader refuses a token, or the end of the file,
this is the first that cannot stand where it does. What stands before it can be completed to tokens
that are read to a program; what stands up to it cannot. So the place is determined by the tokens,
and not by how they are read.

Statements and declarations are put together as expressions are (`topLevels_local`). What is
missing from a phrase is filled in by the shortest of its sort: `null` for an expression, `{ }` for
a block.
-/

namespace Scriptlet

namespace Grammar

open Program (kw sep)

/-! ## Phrases -/

theorem Expression.null {types : List Symbol} :
    Expression types (.level 1) [.literal .null] (.literal .null {}) :=
  (Expression.operand (.unsigned (.alone (.literal .null)))).loosen (by omega) (Nat.le_refl _)

theorem Statement.emptyBlock {types : List Symbol} :
    Statement types .block [sep .leftBrace, sep .rightBrace] [] :=
  .braces .noStatements

/-- The condition and the block of an arm. -/
def ArmOf (types : List Symbol) (ks : Kinds) (a : Arm Stmt) : Prop :=
  ∃ cs bs, ks = cs ++ bs ∧ Expression types (.level 1) cs a.condition ∧
    Statement types .block bs a.body

/-! The end of the file is in no phrase. -/

theorem Expression.ended {types : List Symbol} {s : ExprSort} {ks : Kinds} {t : s.Tree}
    (h : Expression types s ks t) : .endOfFile ∉ ks := by
  induction h <;> simp_all [sep]

theorem Statement.ended {types : List Symbol} {s : StmtSort} {ks : Kinds} {t : s.Tree}
    (h : Statement types s ks t) : .endOfFile ∉ ks := by
  induction h <;> grind [sep, kw, → Expression.ended]

theorem BinderOf.ended {pool : Pool} {ks : Kinds} {b : Binder} (h : BinderOf pool ks b) :
    .endOfFile ∉ ks := by
  cases h <;> simp [sep]

theorem Params.ended {pool : Pool} {ks : Kinds} {bs : List Binder} (h : Params pool ks bs) :
    .endOfFile ∉ ks := by
  induction h <;> grind [sep, → BinderOf.ended]

theorem ParamList.ended {pool : Pool} {ks : Kinds} {bs : List Binder} (h : ParamList pool ks bs) :
    .endOfFile ∉ ks := by
  cases h with
  | none => simp
  | some h => exact h.ended

theorem Fields.ended {pool : Pool} {ks : Kinds} {bs : List Binder} (h : Fields pool ks bs) :
    .endOfFile ∉ ks := by
  induction h <;> grind [sep, → BinderOf.ended]

theorem Result.ended {pool : Pool} {ks : Kinds} {r : Option Annotation} (h : Result pool ks r) :
    .endOfFile ∉ ks := by
  cases h <;> simp

theorem Toplevel.ended {pool : Pool} {types : List Symbol} {ks : Kinds} {ss : List Stmt}
    (h : Toplevel pool types ks ss) : .endOfFile ∉ ks := by
  induction h with
  | nil => simp
  | statement h _ ih => simp [h.ended, ih]
  | function n hparams hresult hbody _ ih =>
    simp [kw, sep, hparams.ended, hresult.ended, hbody.ended, ih]
  | type n hfields _ ih => simp [kw, sep, hfields.ended, ih]

end Grammar

namespace Program

open Grammar Read

section statements

variable {pool : Pool} {types : List Symbol} {c : Cursor} {ks : Kinds} {n m : Nat}

theorem expression_local (hm : n ≤ m) (hc : c.At pool types ks) :
    Local (Opens (Expression types (.level 1))) (expression n) (expression m) c :=
  binary_local n hm hc (by omega)

theorem simpleStatement_local (hm : n ≤ m) (hc : c.At pool types ks) :
    Local (Opens (Statement types .statement)) (simpleStatement n) (simpleStatement m) c := by
  rw [simpleStatement, simpleStatement]
  refine .currentSpan (.bind hc (expression_local hm hc)
    (fun u => .elim fun w e he => .of (.expression he) (w ++ [sep .semicolon]) (by simp))
    fun e c₁ hx => ?_)
  obtain ⟨ks₁, ks₂, rfl, hat, he⟩ := expression_sound n hc hx
  refine ⟨types, ks₁, ks₂, rfl, hat, .current ?_⟩
  have hplain : Local (fun u => Opens (Statement types .statement) (ks₁ ++ u))
      (do
        expect (sep .semicolon)
        return .expression e (← spanFrom c.current.span) : Read Stmt)
      (do
        expect (sep .semicolon)
        return .expression e (← spanFrom c.current.span) : Read Stmt) c₁ :=
    .expect (by decide) hat (.of (.expression he) [sep .semicolon] (by simp)) fun _ _ _ =>
      .spanFrom (.pure _)
  rw [hat.current]
  cases hk : next ks₂ with
  | operator symbol =>
    dsimp only
    cases hop : symbol.assignment? with
    | none => exact hplain
    | some op =>
      refine .ite (fun hplace => ?_) fun _ => .of_error rfl id
      obtain ⟨ks₃, rfl, -⟩ := hat.of_current (hat.current.trans hk) (by simp)
      have hassign : ∀ {vs : Kinds} {value : Expr}, Expression types (.level 1) vs value →
          Statement types .statement (ks₁ ++ .operator symbol :: (vs ++ [sep .semicolon]))
            (.assign e.bare op value {}) :=
        .assign he (place_bare.2 hplace) (mem_assignments.2 hop)
      refine .advance hat fun hat => .bind hat (expression_local hm hat)
        (fun u => .elim fun w v hv => .of (hassign hv) (w ++ [sep .semicolon]) (by simp))
        fun value c₂ hx => ?_
      obtain ⟨ks₄, ks₅, rfl, hat, hvalue⟩ := expression_sound n hat hx
      exact ⟨types, ks₄, ks₅, rfl, hat, .expect (by decide) hat
        (.of (hassign hvalue) [sep .semicolon] (by simp)) fun _ _ _ => .spanFrom (.pure _)⟩
  | _ => exact hplain

theorem declaration_local (hm : n ≤ m) (hc : c.At pool types ks) :
    Local (Opens (Statement types .statement)) (declaration n) (declaration m) c := by
  rw [declaration, declaration]
  refine .currentSpan (.expect (by decide) hc (.of (.declare 0 .null) _ rfl) fun ks₁ _ hat => ?_)
  refine .expectName hat (.of (.declare 0 .null) _ rfl) fun name ks₂ _ hat => ?_
  refine .expect (by decide) hat (.of (.declare name .null) _ rfl) fun ks₃ _ hat => ?_
  refine .bind hat (expression_local hm hat)
    (fun u => .elim fun w e he => .of (.declare name he) (w ++ [sep .semicolon]) (by simp))
    fun e c₁ hx => ?_
  obtain ⟨ks₄, ks₅, rfl, hat, he⟩ := expression_sound n hat hx
  exact ⟨types, ks₄, ks₅, rfl, hat, .expect (by decide) hat
    (.of (.declare name he) [sep .semicolon] (by simp)) fun _ _ _ => .spanFrom (.pure _)⟩

theorem giveBack_local (hm : n ≤ m) (hc : c.At pool types ks) :
    Local (Opens (Statement types .statement)) (giveBack n) (giveBack m) c := by
  rw [giveBack, giveBack]
  refine .currentSpan (.expect (by decide) hc (.of .giveBack _ rfl) fun ks₁ _ hat => ?_)
  refine .sees ?_
  dsimp only
  refine .ite (fun _ => ?_) fun _ => ?_
  · rw [pure_bind]
    exact .expect (by decide) hat (.of .giveBack _ rfl) fun _ _ _ => .spanFrom (.pure _)
  · rw [bind_map_left, bind_map_left]
    refine .bind hat (expression_local hm hat)
      (fun u => .elim fun w e he => .of (.giveBackValue he) (w ++ [sep .semicolon]) (by simp))
      fun e c₁ hx => ?_
    obtain ⟨ks₂, ks₃, rfl, hat, he⟩ := expression_sound n hat hx
    exact ⟨types, ks₂, ks₃, rfl, hat, .expect (by decide) hat
      (.of (.giveBackValue he) [sep .semicolon] (by simp)) fun _ _ _ => .spanFrom (.pure _)⟩

theorem jumpStatement_local {make : Span → Stmt} {word : Keyword} {s : Stmt}
    (hmake : Statement types .statement [kw word, sep .semicolon] s)
    (hc : c.At pool types (kw word :: ks)) :
    Local (Opens (Statement types .statement)) (jumpStatement make) (jumpStatement make) c := by
  rw [jumpStatement]
  exact .currentSpan (.advance hc fun hat => .expect (by decide) hat (.of hmake _ rfl) fun _ _ _ =>
    .pure _)

end statements

mutual

theorem statement_local {pool : Pool} {types : List Symbol} : ∀ (n : Nat) {m : Nat} {c : Cursor}
    {ks : Kinds}, n ≤ m → c.At pool types ks →
    Local (Opens (Statement types .statement)) (statement n) (statement m) c
  | 0, _, _, _, _, _ => .exhausted
  | n + 1, m + 1, c, ks, hm, hc => by
    have hm : n ≤ m := by omega
    have hcur := hc.current
    rw [statement, statement]
    refine .current ?_
    rw [hcur]
    cases hk : next ks with
    | keyword word =>
      obtain ⟨ks', hks, -⟩ := hc.of_current (hcur.trans hk) nofun
      subst hks
      cases word with
      | let_ => exact declaration_local hm hc
      | if_ => exact branching_local n hm hc
      | while_ =>
        refine .advance hc fun hat => .bind hat (expression_local hm hat)
          (fun u => .elim fun w e he => .of (.loop he .emptyBlock)
            (w ++ [sep .leftBrace, sep .rightBrace]) (by simp [kw])) fun e c₁ hx => ?_
        obtain ⟨ks₁, ks₂, rfl, hat, he⟩ := expression_sound n hat hx
        refine ⟨types, ks₁, ks₂, rfl, hat, .bind hat (block_local n hm hat)
          (fun u => .elim fun w b hb => .of (.loop he hb) w (by simp [kw])) fun body c₂ hb => ?_⟩
        obtain ⟨ks₃, ks₄, rfl, hat, -⟩ := block_sound n hat hb
        exact ⟨types, ks₃, ks₄, rfl, hat, .spanFrom (.pure _)⟩
      | break_ => exact jumpStatement_local .exitLoop hc
      | continue_ => exact jumpStatement_local .nextRound hc
      | return_ => exact giveBack_local hm hc
      | func | type => exact .of_error rfl id
      | _ => exact simpleStatement_local hm hc
    | separator mark =>
      cases mark with
      | leftBrace =>
        refine .bind hc (block_local n hm hc) (fun u => .elim fun w b hb => ⟨w, _, .block hb⟩)
          fun body c₁ hb => ?_
        obtain ⟨ks₁, ks₂, rfl, hat, -⟩ := block_sound n hc hb
        exact ⟨types, ks₁, ks₂, rfl, hat, .spanFrom (.pure _)⟩
      | _ => exact simpleStatement_local hm hc
    | _ => exact simpleStatement_local hm hc

theorem block_local {pool : Pool} {types : List Symbol} : ∀ (n : Nat) {m : Nat} {c : Cursor}
    {ks : Kinds}, n ≤ m → c.At pool types ks →
    Local (Opens (Statement types .block)) (block n) (block m) c
  | 0, _, _, _, _, _ => .exhausted
  | n + 1, m + 1, c, ks, hm, hc => by
    rw [block, block]
    refine .expect (by decide) hc ⟨_, _, .emptyBlock⟩ fun ks₁ _ hat => ?_
    refine .bind hat (statements_local n (by omega) hat) (fun u => .elim fun w ss hss =>
      .of (.braces hss) (w ++ [sep .rightBrace]) (by simp)) fun body c₁ hb => ?_
    obtain ⟨ks₂, ks₃, rfl, hat, hbody⟩ := statements_sound n hat hb
    exact ⟨types, ks₂, ks₃, rfl, hat, .expect (by decide) hat
      (.of (.braces hbody) [sep .rightBrace] (by simp)) fun _ _ _ => .pure body⟩

theorem statements_local {pool : Pool} {types : List Symbol} : ∀ (n : Nat) {m : Nat} {c : Cursor}
    {ks : Kinds}, n ≤ m → c.At pool types ks →
    Local (Opens (Statement types .statements)) (statements n) (statements m) c
  | 0, _, _, _, _, _ => .exhausted
  | n + 1, m + 1, c, ks, hm, hc => by
    rw [statements, statements]
    refine .sees (.sees (.ite (fun _ => .pure []) fun _ => ?_))
    refine .bind hc (statement_local n (by omega) hc) (fun u => .elim fun w s hs =>
      .of (.moreStatements hs .noStatements) w (by simp)) fun s c₁ hs => ?_
    obtain ⟨ks₁, ks₂, rfl, hat, hfirst⟩ := statement_sound n hc hs
    refine ⟨types, ks₁, ks₂, rfl, hat, .map (s :: ·) ?_⟩
    exact (statements_local n (by omega) hat).mono fun u => .elim fun w ss hss =>
      .of (.moreStatements hfirst hss) w (by simp)

theorem branching_local {pool : Pool} {types : List Symbol} : ∀ (n : Nat) {m : Nat} {c : Cursor}
    {ks : Kinds}, n ≤ m → c.At pool types ks →
    Local (Opens (Statement types .statement)) (branching n) (branching m) c
  | 0, _, _, _, _, _ => .exhausted
  | n + 1, m + 1, c, ks, hm, hc => by
    have hm : n ≤ m := by omega
    rw [branching, branching]
    refine .currentSpan (.expect (by decide) hc ⟨_, _, .giveBack⟩ fun ks₁ _ hat => ?_)
    refine .bind hat (arm_local n hm hat) (fun u ⟨w, a, cs, bs, hw, hcs, hbs⟩ =>
      .of (.branch hcs hbs .noElifs) w (by simp [hw])) fun first c₁ ha => ?_
    obtain ⟨cs, bs, ks₂, rfl, hat, hcondition, hbody⟩ := arm_sound n hat ha
    refine ⟨types, cs ++ bs, ks₂, by simp, hat, .bind hat (elifArms_local n hm hat)
      (fun u => .elim fun w arms hw => .of (.branch hcondition hbody hw) w (by simp))
      fun more c₂ he => ?_⟩
    obtain ⟨as, ks₃, rfl, hat, hmore⟩ := elifArms_sound n hat he
    refine ⟨types, as, ks₃, rfl, hat, .accept (by decide) hat (fun ks₄ _ hat => ?_)
      fun _ => .spanFrom (.pure _)⟩
    refine .bind hat (block_local n hm hat) (fun u => .elim fun w other hother =>
      .of (.branchElse hcondition hbody hmore hother) w (by simp)) fun other c₃ hb => ?_
    obtain ⟨os, ks₅, rfl, hat, -⟩ := block_sound n hat hb
    exact ⟨types, os, ks₅, rfl, hat, .spanFrom (.pure _)⟩

theorem arm_local {pool : Pool} {types : List Symbol} : ∀ (n : Nat) {m : Nat} {start : Span}
    {c : Cursor} {ks : Kinds}, n ≤ m → c.At pool types ks →
    Local (Opens (ArmOf types)) (arm n start) (arm m start) c
  | 0, _, _, _, _, _, _ => .exhausted
  | n + 1, m + 1, start, c, ks, hm, hc => by
    have hm : n ≤ m := by omega
    rw [arm, arm]
    refine .bind hc (expression_local hm hc) (fun u => .elim fun w e he =>
      ⟨w ++ [sep .leftBrace, sep .rightBrace], ⟨e, [], {}⟩, u ++ w, _, by simp, he, .emptyBlock⟩)
      fun e c₁ hx => ?_
    obtain ⟨cs, ks₁, rfl, hat, he⟩ := expression_sound n hc hx
    refine ⟨types, cs, ks₁, rfl, hat, .bind hat (block_local n hm hat) (fun u => .elim fun w b hb =>
      ⟨w, ⟨e.bare, b, {}⟩, cs, u ++ w, by simp, he, hb⟩) fun body c₂ hb => ?_⟩
    obtain ⟨bs, ks₂, rfl, hat, -⟩ := block_sound n hat hb
    exact ⟨types, bs, ks₂, rfl, hat, .spanFrom (.pure _)⟩

theorem elifArms_local {pool : Pool} {types : List Symbol} : ∀ (n : Nat) {m : Nat} {c : Cursor}
    {ks : Kinds}, n ≤ m → c.At pool types ks →
    Local (Opens (Statement types .elifs)) (elifArms n) (elifArms m) c
  | 0, _, _, _, _, _ => .exhausted
  | n + 1, m + 1, c, ks, hm, hc => by
    have hm : n ≤ m := by omega
    rw [elifArms, elifArms]
    refine .currentSpan (.accept (by decide) hc (fun ks₁ _ hat => ?_) fun _ => .pure [])
    refine .bind hat (arm_local n hm hat) (fun u ⟨w, a, cs, bs, hw, hcs, hbs⟩ =>
      .of (.moreElifs hcs hbs .noElifs) w (by simp [hw])) fun first c₁ ha => ?_
    obtain ⟨cs, bs, ks₂, rfl, hat, hcondition, hbody⟩ := arm_sound n hat ha
    refine ⟨types, cs ++ bs, ks₂, by simp, hat, .map (first :: ·) ?_⟩
    exact (elifArms_local n hm hat).mono fun u => .elim fun w arms hw =>
      .of (.moreElifs hcondition hbody hw) w (by simp)

end

section declarations

variable {pool : Pool} {types : List Symbol} {c : Cursor} {ks : Kinds} {n m : Nat}
  {V : Kinds → Prop}

theorem readAnnotation_local (hc : c.At pool types ks) (hV : V []) :
    Local V readAnnotation readAnnotation c := by
  unfold readAnnotation
  exact .expectName hc hV fun _ _ _ _ => .get (fun _ => rfl) (fun _ => rfl) (.pure _)

theorem readBinder_local (hc : c.At pool types ks) :
    Local (Opens (BinderOf pool)) readBinder readBinder c := by
  rw [readBinder]
  refine .currentSpan (.expectName hc ⟨_, _, .plain 0⟩ fun name ks₁ _ hat => ?_)
  refine .map (fun kind => (⟨name, kind, c.current.span⟩ : Binder)) ?_
  unfold readOptionalAnnotation
  refine .accept (by decide) hat (fun ks₂ _ hat => ?_) fun _ => .pure _
  exact readAnnotation_local hat (.of (.annotated name 0) [.name 0] rfl)

theorem readParams_local : ∀ (n : Nat) {m : Nat} {c : Cursor} {ks : Kinds}, n ≤ m →
    c.At pool types ks → Local (Opens (Params pool)) (readParams n) (readParams m) c
  | 0, _, _, _, _, _ => .exhausted
  | n + 1, m + 1, c, ks, hm, hc => by
    rw [readParams, readParams]
    refine .bind hc (readBinder_local hc) (fun u => .elim fun w b hb => ⟨w, _, .last hb⟩)
      fun b c₁ hb => ?_
    obtain ⟨ks₁, ks₂, rfl, hat, hbinder⟩ := readBinder_sound hc hb
    refine ⟨types, ks₁, ks₂, rfl, hat,
      .accept (by decide) hat (fun ks₃ _ hat => ?_) fun _ => .pure [b]⟩
    exact .map (b :: ·) ((readParams_local n (by omega) hat).mono fun u => .elim fun w bs hbs =>
      .of (.more hbinder hbs) w (by simp))

theorem readFields_local : ∀ (n : Nat) {m : Nat} {c : Cursor} {ks : Kinds}, n ≤ m →
    c.At pool types ks → Local (Opens (Fields pool)) (readFields n) (readFields m) c
  | 0, _, _, _, _, _ => .exhausted
  | n + 1, m + 1, c, ks, hm, hc => by
    rw [readFields, readFields]
    refine .sees (.sees (.ite (fun _ => .pure []) fun _ => ?_))
    refine .bind hc (readBinder_local hc) (fun u => .elim fun w b hb => ⟨w, _, .last hb⟩)
      fun b c₁ hb => ?_
    obtain ⟨ks₁, ks₂, rfl, hat, hbinder⟩ := readBinder_sound hc hb
    -- A comma and a semicolon are gone on from alike.
    have hmore : ∀ {mark : Separator} {ks₃ : Kinds} {c₂ : Cursor},
        mark = .comma ∨ mark = .semicolon → c₂.At pool types ks₃ →
        Local (fun u => Opens (Fields pool) (ks₁ ++ sep mark :: u))
          (do return b :: (← readFields n)) (do return b :: (← readFields m)) c₂ := by
      intro mark ks₃ c₂ hmark hat
      exact .map (b :: ·) ((readFields_local n (by omega) hat).mono fun u => .elim fun w bs hbs =>
        .of (.more hbinder hmark hbs) w (by simp))
    refine ⟨types, ks₁, ks₂, rfl, hat,
      .accept (by decide) hat (fun ks₃ _ hat => hmore (.inl rfl) hat) fun _ => ?_⟩
    exact .accept (by decide) hat (fun ks₃ _ hat => hmore (.inr rfl) hat) fun _ => .pure [b]

theorem readParamList_local (hm : n ≤ m) (hc : c.At pool types ks) :
    Local (Opens (ParamList pool)) (readParamList n) (readParamList m) c := by
  rw [readParamList, readParamList]
  refine .sees (.ite (fun _ => .pure []) fun _ => ?_)
  exact (readParams_local n hm hc).mono fun u => .elim fun w bs hbs => ⟨w, bs, .some hbs⟩

theorem readResult_local (hc : c.At pool types ks) :
    Local (Opens (Result pool)) readResult readResult c := by
  rw [readResult]
  refine .accept (fun hk => by cases hk) hc (fun ks₁ _ hat => .map some ?_) fun _ => .pure none
  exact readAnnotation_local hat (.of (.some 0) [.name 0] rfl)

theorem functionDeclaration_local (hm : n ≤ m) (hc : c.At pool types ks) :
    Local (Opens (Toplevel pool types)) (functionDeclaration n) (functionDeclaration m) c := by
  have hnil : Toplevel pool types [] [] := .nil types
  rw [functionDeclaration_eq, functionDeclaration_eq]
  refine .currentSpan (.expect (by decide) hc ⟨_, _, hnil⟩ fun ks₁ _ hat => ?_)
  refine .expectName hat (.of (.function 0 .none .none .emptyBlock hnil) _ rfl)
    fun name ks₂ _ hat => ?_
  refine .expect (by decide) hat (.of (.function name .none .none .emptyBlock hnil) _ rfl)
    fun ks₃ _ hat => ?_
  refine .bind hat (readParamList_local hm hat) (fun u => .elim fun w ps hps =>
    .of (.function name hps .none .emptyBlock hnil)
      (w ++ [sep .rightParen, sep .leftBrace, sep .rightBrace]) (by simp)) fun params c₁ hp => ?_
  obtain ⟨ps, ks₄, rfl, hat, hparams⟩ := readParamList_sound n hat hp
  refine ⟨types, ps, ks₄, rfl, hat, .expect (by decide) hat
    (.of (.function name hparams .none .emptyBlock hnil)
      [sep .rightParen, sep .leftBrace, sep .rightBrace] (by simp)) fun ks₅ _ hat => ?_⟩
  refine .bind hat (readResult_local hat) (fun u => .elim fun w rs hrs =>
    .of (.function name hparams hrs .emptyBlock hnil)
      (w ++ [sep .leftBrace, sep .rightBrace]) (by simp)) fun result c₂ hr => ?_
  obtain ⟨rs, ks₆, rfl, hat, hresult⟩ := readResult_sound hat hr
  refine ⟨types, rs, ks₆, rfl, hat, .bind hat (block_local n hm hat) (fun u => .elim fun w b hb =>
    .of (.function name hparams hresult hb hnil) w (by simp)) fun body c₃ hb => ?_⟩
  obtain ⟨bs, ks₇, rfl, hat, -⟩ := block_sound n hat hb
  exact ⟨types, bs, ks₇, rfl, hat, .spanFrom (.pure _)⟩

theorem typeDeclaration_local (hm : n ≤ m) (hc : c.At pool types ks) :
    Local (Opens (Toplevel pool types)) (typeDeclaration n) (typeDeclaration m) c := by
  have hnil : ∀ known, Toplevel pool known [] [] := .nil
  rw [typeDeclaration, typeDeclaration]
  refine .currentSpan (.expect (by decide) hc ⟨_, _, hnil types⟩ fun ks₁ _ hat => ?_)
  refine .expectName hat (.of (.type 0 .none (hnil _)) _ rfl) fun name ks₂ _ hat => ?_
  refine .declareType hat fun hat => ?_
  refine .expect (by decide) hat (.of (.type name .none (hnil _)) _ rfl) fun ks₃ _ hat => ?_
  refine .bind hat (readFields_local n hm hat) (fun u => .elim fun w fs hfs =>
    .of (.type name hfs (hnil _)) (w ++ [sep .rightBrace]) (by simp)) fun fields c₁ hf => ?_
  obtain ⟨fs, ks₄, rfl, hat, hfields⟩ := readFields_sound n hat hf
  exact ⟨_, fs, ks₄, rfl, hat, .expect (by decide) hat
    (.of (.type name hfields (hnil _)) [sep .rightBrace] (by simp))
    fun _ _ _ => .spanFrom (.pure _)⟩

theorem topLevel_local (hm : n ≤ m) (hc : c.At pool types ks) :
    Local (Opens (Toplevel pool types)) (topLevel n) (topLevel m) c := by
  have hstatement : Local (Opens (Toplevel pool types)) (statement n) (statement m) c :=
    (statement_local n hm hc).mono fun u => .elim fun w s hs =>
      .of (.statement hs (.nil types)) w (by simp)
  rw [topLevel, topLevel]
  refine .current ?_
  rw [hc.current]
  cases hk : next ks with
  | keyword word =>
    cases word with
    | func => exact functionDeclaration_local hm hc
    | type => exact typeDeclaration_local hm hc
    | _ => exact hstatement
  | _ => exact hstatement

/-- What is read at the top level may stand in front of what is spelled behind it. -/
theorem topLevel_sound {c' : Cursor} {s : Stmt} (hc : c.At pool types ks)
    (h : topLevel n c = .ok (s, c')) : ∃ known, c'.Past pool known ks fun ks₁ =>
      ∀ {r ss}, Toplevel pool known r ss → Toplevel pool types (ks₁ ++ r) (s.bare :: ss) := by
  have hstatement : statement n c = .ok (s, c') → ∃ known, c'.Past pool known ks fun ks₁ =>
      ∀ {r ss}, Toplevel pool known r ss → Toplevel pool types (ks₁ ++ r) (s.bare :: ss) := by
    intro hs
    obtain ⟨ks₁, ks₂, rfl, hat, hfirst⟩ := statement_sound n hc hs
    exact ⟨types, ks₁, ks₂, rfl, hat, .statement hfirst⟩
  rw [topLevel, current_bind, hc.current] at h
  cases hk : next ks with
  | keyword word =>
    rw [hk] at h
    cases word with
    | func =>
      obtain ⟨name, ps, rs, bs, ks₂, params, result, body, rfl, hat, hbare, hparams, hresult,
        hbody⟩ := functionDeclaration_sound n hc h
      refine ⟨types, kw .func :: .name name :: sep .leftParen ::
        (ps ++ sep .rightParen :: (rs ++ bs)), ks₂, by simp, hat, fun hrest => ?_⟩
      rw [hbare]
      simpa using Toplevel.function name hparams hresult hbody hrest
    | type =>
      obtain ⟨name, fs, ks₂, fields, rfl, hat, hbare, hfields⟩ := typeDeclaration_sound n hc h
      refine ⟨name :: types, kw .type :: .name name :: sep .leftBrace ::
        (fs ++ [sep .rightBrace]), ks₂, by simp, hat, fun hrest => ?_⟩
      rw [hbare]
      simpa using Toplevel.type name hfields hrest
    | _ => exact hstatement h
  | _ =>
    rw [hk] at h
    exact hstatement h

theorem topLevels_local : ∀ (n : Nat) {m : Nat} {types : List Symbol} {c : Cursor} {ks : Kinds},
    n ≤ m → c.At pool types ks →
    Local (Opens (Toplevel pool types)) (topLevels n) (topLevels m) c
  | 0, _, _, _, _, _, _ => .exhausted
  | n + 1, m + 1, types, c, ks, hm, hc => by
    rw [topLevels, topLevels]
    refine .sees (.ite (fun _ => .pure []) fun _ => ?_)
    refine .bind hc (topLevel_local (by omega) hc) (fun _ => id) fun s c₁ hs => ?_
    obtain ⟨known, ks₁, ks₂, rfl, hat, hmore⟩ := topLevel_sound hc hs
    refine ⟨known, ks₁, ks₂, rfl, hat, .map (s :: ·) ?_⟩
    exact (topLevels_local n (by omega) hat).mono fun u => .elim fun w ss hss =>
      .of (hmore hss) w (by simp)

end declarations

/-! ## The first token that cannot stand where it does -/

/-- The last token is the end of the file, and no other is. -/
def Closed (ts : List (Token Symbol)) : Prop :=
  ∃ body last, ts = body ++ [last] ∧ last.kind = .endOfFile ∧ ∀ t ∈ body, t.kind ≠ .endOfFile

/-- Tokens up to the end of the file that are read to a program. -/
def Readable (pool : Pool) (ts : List (Token Symbol)) : Prop :=
  Closed ts ∧ ∃ p, read ts pool = .ok p

section refusals

variable {pool : Pool} {ts ts' : List (Token Symbol)} {n : Nat}

theorem read_eq_error {e : Error} : read ts pool = .error e ↔
    topLevels (steps ts) { pool, rest := ts, last := {}, types := [] } = .error e := by
  unfold read
  dsimp only [StateT.run]
  cases topLevels (steps ts) { pool, rest := ts, last := {}, types := [] } with
  | error e' => exact ⟨fun h => by cases h; rfl, fun h => by cases h; rfl⟩
  | ok r => exact ⟨nofun, nofun⟩

/-- What opens a program can be completed to one. -/
theorem exists_readable {used : List (Token Symbol)}
    (h : Opens (Toplevel pool []) (used.map Token.kind)) :
    ∃ ts, Readable pool ts ∧ used <+: ts := by
  obtain ⟨w, ss, hspells⟩ := h
  obtain ⟨body, hbody, hkinds⟩ : ∃ body, used <+: body ∧
      body.map Token.kind = used.map Token.kind ++ w :=
    ⟨used ++ w.map (⟨·, {}⟩), List.prefix_append _ _, by simp [Function.comp_def]⟩
  rw [← hkinds] at hspells
  have hended : ∀ t ∈ body, t.kind ≠ .endOfFile := fun t ht hk =>
    hspells.ended (List.mem_map.2 ⟨t, ht, hk⟩)
  let last : Token Symbol := ⟨.endOfFile, {}⟩
  have hlast : last.kind = .endOfFile := rfl
  obtain ⟨q, hq, -⟩ := read_of_spells hlast hended (show Spells pool _ ⟨ss⟩ from hspells)
  exact ⟨body ++ [last], ⟨⟨body, last, rfl, hlast, hended⟩, q, hq⟩,
    hbody.trans (List.prefix_append _ _)⟩

/-- Acceptance depends on the kinds of tokens. -/
theorem Readable.of_kinds (h : Readable pool ts) (hk : ts'.map Token.kind = ts.map Token.kind) :
    Readable pool ts' := by
  obtain ⟨⟨body, last, rfl, hlast, hbody⟩, p, hp⟩ := h
  rw [List.map_append, List.map_eq_append_iff] at hk
  obtain ⟨body', last', rfl, hbody', hlast'⟩ := hk
  obtain ⟨t, rfl, ht⟩ := List.map_eq_singleton_iff.1 hlast'
  have hall : ∀ s ∈ body', s.kind ≠ .endOfFile := fun s hs hk => by
    obtain ⟨s', hs', hkind⟩ := List.mem_map.1 (hbody' ▸ List.mem_map_of_mem (f := Token.kind) hs)
    exact hbody s' hs' (hkind.trans hk)
  have hspells := spells_of_read hlast hbody hp
  obtain ⟨q, hq, -⟩ := read_of_spells (ht.trans hlast) hall (hbody' ▸ hspells)
  exact ⟨⟨body', t, rfl, ht.trans hlast, hall⟩, q, hq⟩

/-- A refusal stands whatever follows the token that it names: no tokens that start with those up to
this one are accepted. -/
theorem not_readable {e : Error} (h : topLevels n { pool, rest := ts, last := {}, types := [] } =
    .error e) (hcause : e.cause.Unexpected) : ¬ Readable pool ts := by
  rintro ⟨⟨body, last, rfl, hlast, hbody⟩, p, hp⟩
  obtain ⟨c', hok⟩ := read_eq_ok.1 hp
  have hat : Cursor.At pool [] _ _ := start_at hlast hbody
  -- With the steps of both runs, the action would both succeed and refuse.
  let m := n + steps (body ++ [last])
  have herror : topLevels m _ = .error e :=
    (topLevels_local n (Nat.le_add_right _ _) hat).eq_error h hcause
  have hok : topLevels m _ = .ok (p.body, c') :=
    (topLevels_local _ (Nat.le_add_left _ _) hat).eq_ok hok
  cases hok.symm.trans herror

end refusals

/-- Tokens are refused at the first one that cannot stand where it does: those before it start
tokens that are read to a program, and with it none do. -/
theorem refused_at_first_unexpected {tokens : List (Token Symbol)} {pool : Pool} {e : Error}
    (hclosed : Closed tokens) (h : read tokens pool = .error e) (hcause : e.cause.Unexpected) :
    ∃ i, ∃ hi : i < tokens.length, Blames e tokens[i] ∧
      (e.cause = .unexpectedEnd → i + 1 = tokens.length) ∧
      (∃ ts, Readable pool ts ∧ tokens.take i <+: ts) ∧
      ∀ ts, Readable pool ts → ¬ (tokens.take (i + 1)).map Token.kind <+: ts.map Token.kind := by
  obtain ⟨body, last, rfl, hlast, hbody⟩ := hclosed
  have hat : Cursor.At pool [] _ _ := start_at hlast hbody
  obtain ⟨used, t, r₀, hrest, hblames, hopens, herror⟩ :=
    (topLevels_local _ (Nat.le_refl _) hat).error (read_eq_error.1 h) hcause
  have hrest : body ++ [last] = used ++ t :: r₀ := hrest
  have hi : used.length < (body ++ [last]).length := by
    rw [hrest]
    simp
  have hget : (body ++ [last])[used.length] = t := by
    simp [hrest]
  refine ⟨used.length, hi, hget ▸ hblames, fun hend => ?_, ?_, ?_⟩
  · have hlen : (body ++ [last]).length = body.length + 1 := by simp
    have hge : ¬ used.length < body.length := fun hlt => by
      rw [List.getElem_append_left hlt] at hget
      exact hbody t (hget ▸ List.getElem_mem hlt) (hblames.ended.1 hend)
    omega
  · obtain ⟨ts, hts, hprefix⟩ := exists_readable hopens
    exact ⟨ts, hts, by rwa [hrest, List.take_left]⟩
  · rintro ts hts ⟨w, hw⟩
    obtain ⟨ts₁, ts₂, rfl, hts₁, -⟩ := List.map_eq_append_iff.1 hw.symm
    have hkinds : (used ++ t :: ts₂).map Token.kind = (ts₁ ++ ts₂).map Token.kind := by
      rw [List.map_append, List.map_append, hts₁, hrest, List.take_length_add_append]
      simp
    exact not_readable (herror ts₂) hcause (hts.of_kinds hkinds)

/-- `type P { } if a { b = [P(1).m, (2 + ;` with the names `P`, `a`, `b` and `m` as symbols, each
token in a column of its own. -/
def unfinished : List (Token Symbol) :=
  [kw .type, .name 0, sep .leftBrace, sep .rightBrace, kw .if_, .name 1, sep .leftBrace, .name 2,
    .operator .equal, sep .leftBracket, .name 0, sep .leftParen, .literal (.int 1), sep .rightParen,
    sep .dot, .name 3, sep .comma, sep .leftParen, .literal (.int 2), .operator .plus,
    sep .semicolon, .endOfFile].zipIdx.map fun (kind, i) => ⟨kind, ⟨i, i + 1, 1, i + 1⟩⟩

theorem refused_at_first_unexpected_unfinished :
    read unfinished {} = .error ⟨.unexpectedToken "expression" ";", ⟨20, 21, 1, 21⟩⟩ ∧
    ∃ i, ∃ hi : i < unfinished.length,
      Blames ⟨.unexpectedToken "expression" ";", ⟨20, 21, 1, 21⟩⟩ unfinished[i] ∧
      (Cause.unexpectedToken "expression" ";" = .unexpectedEnd → i + 1 = unfinished.length) ∧
      (∃ ts, Readable {} ts ∧ unfinished.take i <+: ts) ∧
      ∀ ts, Readable {} ts → ¬ (unfinished.take (i + 1)).map Token.kind <+: ts.map Token.kind := by
  have hread : read unfinished {} =
      .error ⟨.unexpectedToken "expression" ";", ⟨20, 21, 1, 21⟩⟩ := rfl
  have hclosed : Closed unfinished :=
    ⟨unfinished.take 21, ⟨.endOfFile, ⟨21, 22, 1, 22⟩⟩, rfl, rfl, by decide⟩
  exact ⟨hread, refused_at_first_unexpected hclosed hread trivial⟩

end Program

end Scriptlet
