import Scriptlet.Proofs.Reading.Expressions

/-!
# What is spelled is read

Statements (`statement_complete`), declarations and the top level (`topLevels_gives`): tokens are
read to what they spell, with sixteen steps for each token. Only branchings look ahead: what follows
a statement must not be another arm.
-/

namespace Scriptlet.Program

open Grammar Read

/-! ## Statements -/

section statements

variable {pool : Pool} {types : List Symbol}

/-- An expression is read up to a token that ends all expressions. -/
theorem expression_gives {ks r : Kinds} {e : Expr} {c : Cursor}
    (h : Expression types (.level 1) ks e) (n : Nat) (hc : c.At pool types (ks ++ r))
    (hr : Follows 0 (next r)) (hn : 16 * ks.length ≤ n) :
    Gives pool types (expression n) c r (·.bare = e) :=
  (expression_complete h).whole n h.level_ne_nil hc hr hn

theorem follows_semicolon : Follows 0 (sep .semicolon) := follows_separator nofun nofun nofun

/-- What is read of the tokens of a statement, if what follows is no other arm of it. Sixteen steps
for each token are enough. -/
def CompleteStmt (pool : Pool) (types : List Symbol) : (s : StmtSort) → Kinds → s.Tree → Prop
  | .statement, ks, t => ∀ (n : Nat) {c : Cursor} {r : Kinds}, c.At pool types (ks ++ r) →
    next r ≠ kw .elif → next r ≠ kw .else_ → 16 * ks.length ≤ n →
    Gives pool types (statement n) c r (·.bare = t)
  | .block, ks, t => ∀ (n : Nat) {c : Cursor} {r : Kinds}, c.At pool types (ks ++ r) →
    16 * ks.length ≤ n + 1 → Gives pool types (block n) c r (Stmt.bareAll · = t)
  | .statements, ks, t => ∀ (n : Nat) {c : Cursor} {r : Kinds},
    c.At pool types (ks ++ sep .rightBrace :: r) → 16 * ks.length + 1 ≤ n →
    Gives pool types (statements n) c (sep .rightBrace :: r) (Stmt.bareAll · = t)
  | .elifs, ks, t => ∀ (n : Nat) {c : Cursor} {r : Kinds}, c.At pool types (ks ++ r) →
    next r ≠ kw .elif → 16 * ks.length + 1 ≤ n →
    Gives pool types (elifArms n) c r (Stmt.bareArms · = t)

theorem complete_declare {ks : Kinds} {e : Expr} (name : Symbol)
    (h : Expression types (.level 1) ks e) :
    CompleteStmt pool types .statement
      (kw .let_ :: .name name :: .operator .equal :: (ks ++ [sep .semicolon]))
      (.declare name e {}) := by
  intro n c r hc _ _ hn
  simp only [List.append_assoc, List.cons_append, List.nil_append] at hc
  simp only [List.length_append, List.length_cons, List.length_nil] at hn
  obtain ⟨n₁, rfl⟩ := Nat.exists_eq_add_one.2 (show 0 < n by omega)
  have hstart : statement (n₁ + 1) c = declaration n₁ c := by
    rw [statement, current_bind, hc.current]
    rfl
  refine .of_eq hstart (.currentSpan (.expect hc fun hat => .expectName hat fun hat =>
    .expect hat fun hat => .bind (expression_gives h n₁ hat follows_semicolon (by omega)) ?_))
  rintro e c₁ rfl hat
  exact .expect hat fun hat => .spanFrom (.pure hat rfl)

theorem complete_giveBack :
    CompleteStmt pool types .statement [kw .return_, sep .semicolon] (.giveBack none {}) := by
  intro n c r hc _ _ hn
  simp only [List.length_cons, List.length_nil] at hn
  obtain ⟨n₁, rfl⟩ := Nat.exists_eq_add_one.2 (show 0 < n by omega)
  have hstart : statement (n₁ + 1) c = giveBack n₁ c := by
    rw [statement, current_bind, hc.current]
    rfl
  refine .of_eq hstart (.currentSpan (.expect hc fun hat => ?_))
  refine .of_eq (hat.sees rfl) ?_
  rw [pure_bind]
  exact .expect hat fun hat => .spanFrom (.pure hat rfl)

theorem complete_giveBackValue {ks : Kinds} {e : Expr} (h : Expression types (.level 1) ks e) :
    CompleteStmt pool types .statement (kw .return_ :: (ks ++ [sep .semicolon]))
      (.giveBack (some e) {}) := by
  intro n c r hc _ _ hn
  simp only [List.append_assoc, List.cons_append, List.nil_append] at hc
  simp only [List.length_append, List.length_cons, List.length_nil] at hn
  obtain ⟨n₁, rfl⟩ := Nat.exists_eq_add_one.2 (show 0 < n by omega)
  have hstart : statement (n₁ + 1) c = giveBack n₁ c := by
    rw [statement, current_bind, hc.current]
    rfl
  refine .of_eq hstart (.currentSpan (.expect hc fun hat => ?_))
  refine .of_eq (hat.not_sees (next_append_ne h.starts rfl _ rfl)) ?_
  rw [bind_map_left]
  refine .bind (expression_gives h n₁ hat follows_semicolon (by omega)) ?_
  rintro e c₁ rfl hat
  exact .expect hat fun hat => .spanFrom (.pure hat rfl)

/-- `break` and `continue` are read alike. -/
theorem complete_jump {word : Keyword} {make : Span → Stmt}
    (hstart : ∀ {n : Nat} {c : Cursor}, c.current.kind = kw word →
      statement (n + 1) c = jumpStatement make c)
    (hmake : ∀ span, (make span).bare = make {}) :
    CompleteStmt pool types .statement [kw word, sep .semicolon] (make {}) := by
  intro n c r hc _ _ hn
  simp only [List.length_cons, List.length_nil] at hn
  obtain ⟨n₁, rfl⟩ := Nat.exists_eq_add_one.2 (show 0 < n by omega)
  refine .of_eq (hstart hc.current) (.currentSpan ?_)
  exact .of_eq (advance_bind _ _) (.expect hc.advance fun hat => .pure hat (hmake _))

theorem complete_exitLoop :
    CompleteStmt pool types .statement [kw .break_, sep .semicolon] (.exitLoop {}) := by
  refine complete_jump (fun hcur => ?_) fun _ => rfl
  rw [statement, current_bind, hcur]
  rfl

theorem complete_nextRound :
    CompleteStmt pool types .statement [kw .continue_, sep .semicolon] (.nextRound {}) := by
  refine complete_jump (fun hcur => ?_) fun _ => rfl
  rw [statement, current_bind, hcur]
  rfl

theorem statement_simple {ks : Kinds} {c : Cursor} (n : Nat) (hc : c.At pool types ks)
    (hks : startsExpression (next ks) = true) : statement (n + 1) c = simpleStatement n c := by
  rw [statement, current_bind, hc.current]
  cases hk : next ks with
  | keyword word =>
    rw [hk] at hks
    cases hks
  | separator mark =>
    rw [hk] at hks
    cases mark <;> first | rfl | cases hks
  | _ => rfl

theorem complete_expression {ks : Kinds} {e : Expr} (h : Expression types (.level 1) ks e) :
    CompleteStmt pool types .statement (ks ++ [sep .semicolon]) (.expression e {}) := by
  intro n c r hc _ _ hn
  rw [List.append_assoc] at hc
  simp only [List.length_append, List.length_cons, List.length_nil] at hn
  obtain ⟨n₁, rfl⟩ := Nat.exists_eq_add_one.2 (show 0 < n by omega)
  refine .of_eq (statement_simple n₁ hc (starts_append h.starts rfl _)) (.currentSpan ?_)
  refine .bind (expression_gives h n₁ hc follows_semicolon (by omega)) ?_
  rintro e c₁ rfl hat
  rw [List.singleton_append] at hat
  refine .of_eq (current_bind _ _) ?_
  rw [hat.current]
  exact .expect hat fun hat => .spanFrom (.pure hat rfl)

theorem complete_assign {ks vs : Kinds} {target value : Expr} {symbol : Operator}
    {op : Option BinaryOp} (place : Expression types (.level 1) ks target)
    (hplace : Place target) (hop : symbol.assignment? = some op)
    (h : Expression types (.level 1) vs value) :
    CompleteStmt pool types .statement (ks ++ .operator symbol :: (vs ++ [sep .semicolon]))
      (.assign target op value {}) := by
  intro n c r hc _ _ hn
  simp only [List.append_assoc, List.cons_append, List.nil_append] at hc
  simp only [List.length_append, List.length_cons, List.length_nil] at hn
  obtain ⟨n₁, rfl⟩ := Nat.exists_eq_add_one.2 (show 0 < n by omega)
  refine .of_eq (statement_simple n₁ hc (starts_append place.starts rfl _)) (.currentSpan ?_)
  refine .bind (expression_gives place n₁ hc (follows_assignment hop) (by omega)) ?_
  rintro e c₁ rfl hat
  refine .of_eq (current_bind _ _) ?_
  rw [hat.current]
  dsimp only [next_cons]
  rw [hop]
  dsimp only
  rw [if_pos (place_bare.1 hplace)]
  refine .of_eq (advance_bind _ _) ?_
  refine .bind (expression_gives h n₁ hat.advance follows_semicolon (by omega)) ?_
  rintro e' c₂ rfl hat
  exact .expect hat fun hat => .spanFrom (.pure hat rfl)

theorem follows_block {bs : Kinds} {body : List Stmt} (h : Statement types .block bs body)
    (r : Kinds) : Follows 0 (next (bs ++ r)) := by
  rw [h.next_block r]
  exact follows_separator nofun nofun nofun

theorem complete_loop {ks bs : Kinds} {e : Expr} {body : List Stmt}
    (condition : Expression types (.level 1) ks e) (h : Statement types .block bs body)
    (ih : CompleteStmt pool types .block bs body) :
    CompleteStmt pool types .statement (kw .while_ :: (ks ++ bs)) (.loop e body {}) := by
  intro n c r hc _ _ hn
  simp only [List.append_assoc, List.cons_append] at hc
  simp only [List.length_append, List.length_cons] at hn
  obtain ⟨n₁, rfl⟩ := Nat.exists_eq_add_one.2 (show 0 < n by omega)
  rw [statement]
  refine .of_eq (current_bind _ _) ?_
  rw [hc.current]
  refine .of_eq (advance_bind _ _) ?_
  refine .bind (expression_gives condition n₁ hc.advance (follows_block h r) (by omega)) ?_
  rintro e c₁ rfl hat
  refine .bind (ih n₁ hat (by omega)) ?_
  rintro body' c₂ rfl hat
  exact .spanFrom (.pure hat rfl)

theorem complete_block {bs : Kinds} {body : List Stmt} (h : Statement types .block bs body)
    (ih : CompleteStmt pool types .block bs body) :
    CompleteStmt pool types .statement bs (.block body {}) := by
  intro n c r hc _ _ hn
  have hpos : 0 < bs.length := by
    cases h with
    | braces _ => exact Nat.succ_pos _
  obtain ⟨n₁, rfl⟩ := Nat.exists_eq_add_one.2 (show 0 < n by omega)
  rw [statement]
  refine .of_eq (current_bind _ _) ?_
  rw [hc.current, h.next_block r]
  refine .bind (ih n₁ hc hn) ?_
  rintro body' c₁ rfl hat
  exact .spanFrom (.pure hat rfl)

theorem complete_braces {ks : Kinds} {ss : List Stmt}
    (ih : CompleteStmt pool types .statements ks ss) :
    CompleteStmt pool types .block (sep .leftBrace :: (ks ++ [sep .rightBrace])) ss := by
  intro n c r hc hn
  simp only [List.append_assoc, List.cons_append, List.nil_append] at hc
  simp only [List.length_append, List.length_cons, List.length_nil] at hn
  obtain ⟨n₁, rfl⟩ := Nat.exists_eq_add_one.2 (show 0 < n by omega)
  rw [block]
  refine .expect hc fun hat => .bind (ih n₁ hat (by omega)) ?_
  rintro body c₁ rfl hat
  exact .expect hat fun hat => .pure hat rfl

theorem complete_noStatements : CompleteStmt pool types .statements [] [] := by
  intro n c r hc hn
  obtain ⟨n₁, rfl⟩ := Nat.exists_eq_add_one.2 (show 0 < n by omega)
  rw [statements]
  exact .of_eq (hc.sees_or rfl) (.pure hc rfl)

theorem complete_moreStatements {ks ks' : Kinds} {s : Stmt} {ss : List Stmt}
    (h : Statement types .statement ks s) (rest : Statement types .statements ks' ss)
    (ih : CompleteStmt pool types .statement ks s)
    (ihs : CompleteStmt pool types .statements ks' ss) :
    CompleteStmt pool types .statements (ks ++ ks') (s :: ss) := by
  intro n c r hc hn
  rw [List.append_assoc] at hc
  rw [List.length_append] at hn
  have hpos := List.length_pos_iff.2 h.ne_nil
  obtain ⟨n₁, rfl⟩ := Nat.exists_eq_add_one.2 (show 0 < n by omega)
  rw [statements]
  refine .of_eq (hc.not_sees_or (next_append_ne h.starts rfl _ rfl)
    (next_append_ne h.starts rfl _ rfl)) ?_
  have helif := rest.next_statements (k := kw .elif) r rfl nofun
  have helse := rest.next_statements (k := kw .else_) r rfl nofun
  refine .bind (ih n₁ hc helif helse (by omega)) ?_
  rintro s' c₁ rfl hat
  refine .bind (ihs n₁ hat (by omega)) ?_
  rintro ss' c₂ rfl hat
  exact .pure hat rfl

theorem arm_gives {ks bs r : Kinds} {e : Expr} {body : List Stmt} {start : Span} {c : Cursor}
    (condition : Expression types (.level 1) ks e) (h : Statement types .block bs body)
    (ih : CompleteStmt pool types .block bs body) (n : Nat) (hc : c.At pool types (ks ++ (bs ++ r)))
    (hn : 16 * (ks.length + bs.length) + 1 ≤ n) :
    Gives pool types (arm n start) c r fun a =>
      a.condition.bare = e ∧ Stmt.bareAll a.body = body := by
  obtain ⟨n₁, rfl⟩ := Nat.exists_eq_add_one.2 (show 0 < n by omega)
  rw [arm]
  refine .bind (expression_gives condition n₁ hc (follows_block h r) (by omega)) ?_
  rintro e c₁ rfl hat
  refine .bind (ih n₁ hat (by omega)) ?_
  rintro body' c₂ rfl hat
  exact .spanFrom (.pure hat ⟨rfl, rfl⟩)

theorem complete_noElifs : CompleteStmt pool types .elifs [] [] := by
  intro n c r hc hr hn
  obtain ⟨n₁, rfl⟩ := Nat.exists_eq_add_one.2 (show 0 < n by omega)
  rw [elifArms]
  exact .currentSpan (.not_accept hc hr (.pure hc rfl))

theorem complete_moreElifs {ks bs as : Kinds} {e : Expr} {body : List Stmt} {arms : List (Arm Stmt)}
    (condition : Expression types (.level 1) ks e) (h : Statement types .block bs body)
    (ih : CompleteStmt pool types .block bs body) (more : CompleteStmt pool types .elifs as arms) :
    CompleteStmt pool types .elifs (kw .elif :: (ks ++ (bs ++ as))) (⟨e, body, {}⟩ :: arms) := by
  intro n c r hc hr hn
  simp only [List.append_assoc, List.cons_append] at hc
  simp only [List.length_append, List.length_cons] at hn
  obtain ⟨n₁, rfl⟩ := Nat.exists_eq_add_one.2 (show 0 < n by omega)
  rw [elifArms]
  refine .currentSpan (.accept hc fun hat => .bind (arm_gives condition h ih n₁ hat (by omega)) ?_)
  rintro first c₁ ⟨rfl, rfl⟩ hat
  refine .bind (more n₁ hat hr (by omega)) ?_
  rintro arms' c₂ rfl hat
  exact .pure hat rfl

theorem statement_branching {ks : Kinds} {c : Cursor} (n : Nat)
    (hc : c.At pool types (kw .if_ :: ks)) : statement (n + 1) c = branching n c := by
  rw [statement, current_bind, hc.current]
  rfl

theorem complete_branch {ks bs as : Kinds} {e : Expr} {body : List Stmt} {arms : List (Arm Stmt)}
    (condition : Expression types (.level 1) ks e) (h : Statement types .block bs body)
    (ih : CompleteStmt pool types .block bs body) (more : CompleteStmt pool types .elifs as arms) :
    CompleteStmt pool types .statement (kw .if_ :: (ks ++ (bs ++ as)))
      (.branch (⟨e, body, {}⟩ :: arms) none {}) := by
  intro n c r hc helif helse hn
  simp only [List.append_assoc, List.cons_append] at hc
  simp only [List.length_append, List.length_cons] at hn
  obtain ⟨n₁, rfl⟩ := Nat.exists_eq_add_of_le' (show 2 ≤ n by omega)
  refine .of_eq (statement_branching _ hc) ?_
  rw [branching]
  refine .currentSpan (.expect hc fun hat => .bind (arm_gives condition h ih n₁ hat (by omega)) ?_)
  rintro first c₁ ⟨rfl, rfl⟩ hat
  refine .bind (more n₁ hat helif (by omega)) ?_
  rintro arms' c₂ rfl hat
  exact .not_accept hat helse (.spanFrom (.pure hat rfl))

theorem complete_branchElse {ks bs as os : Kinds} {e : Expr} {body other : List Stmt}
    {arms : List (Arm Stmt)} (condition : Expression types (.level 1) ks e)
    (h : Statement types .block bs body) (ih : CompleteStmt pool types .block bs body)
    (more : CompleteStmt pool types .elifs as arms)
    (last : CompleteStmt pool types .block os other) :
    CompleteStmt pool types .statement (kw .if_ :: (ks ++ (bs ++ (as ++ kw .else_ :: os))))
      (.branch (⟨e, body, {}⟩ :: arms) (some other) {}) := by
  intro n c r hc _ _ hn
  simp only [List.append_assoc, List.cons_append] at hc
  simp only [List.length_append, List.length_cons] at hn
  obtain ⟨n₁, rfl⟩ := Nat.exists_eq_add_of_le' (show 2 ≤ n by omega)
  refine .of_eq (statement_branching _ hc) ?_
  rw [branching]
  refine .currentSpan (.expect hc fun hat => .bind (arm_gives condition h ih n₁ hat (by omega)) ?_)
  rintro first c₁ ⟨rfl, rfl⟩ hat
  refine .bind (more n₁ hat nofun (by omega)) ?_
  rintro arms' c₂ rfl hat
  refine .accept hat fun hat => .bind (last n₁ hat (by omega)) ?_
  rintro other' c₃ rfl hat
  exact .spanFrom (.pure hat rfl)

theorem statement_complete {s : StmtSort} {ks : Kinds} {t : s.Tree} (h : Statement types s ks t) :
    CompleteStmt pool types s ks t := by
  induction h with
  | declare name h => exact complete_declare name h
  | branch condition h _ ih ihs => exact complete_branch condition h ih ihs
  | branchElse condition h _ _ ih ihs iho => exact complete_branchElse condition h ih ihs iho
  | loop condition h ih => exact complete_loop condition h ih
  | exitLoop => exact complete_exitLoop
  | nextRound => exact complete_nextRound
  | giveBack => exact complete_giveBack
  | giveBackValue h => exact complete_giveBackValue h
  | block h ih => exact complete_block h ih
  | expression h => exact complete_expression h
  | assign place hplace hop h => exact complete_assign place hplace (mem_assignments.1 hop) h
  | braces _ ih => exact complete_braces ih
  | noStatements => exact complete_noStatements
  | moreStatements h rest ih ihs => exact complete_moreStatements h rest ih ihs
  | noElifs => exact complete_noElifs
  | moreElifs condition h _ ih ihs => exact complete_moreElifs condition h ih ihs

end statements

/-! ## Declarations -/

section declarations

variable {pool : Pool} {types : List Symbol}

theorem readAnnotation_gives {k : Symbol} {r : Kinds} {c : Cursor}
    (hc : c.At pool types (.name k :: r)) :
    Gives pool types readAnnotation c r (· = .ofName (pool.name k) k) := by
  refine .expectName hc fun hat => ?_
  refine .of_eq (get_bind _ _) ?_
  rw [hat.pool]
  exact .pure hat rfl

theorem readBinder_gives {ks r : Kinds} {b : Binder} {c : Cursor} (h : BinderOf pool ks b)
    (hc : c.At pool types (ks ++ r)) (hr : next r ≠ sep .colon) :
    Gives pool types readBinder c r (·.bare = b) := by
  cases h with
  | plain n =>
    refine .currentSpan (.expectName hc fun hat => .bind (.not_accept hat hr (.pure hat rfl)) ?_)
    rintro kind c₁ rfl hat
    exact .pure hat rfl
  | annotated n k =>
    refine .currentSpan (.expectName hc fun hat => .bind (.accept hat readAnnotation_gives) ?_)
    rintro kind c₁ rfl hat
    exact .pure hat rfl

theorem readParams_gives {ks r : Kinds} {bs : List Binder} (h : Params pool ks bs) (n : Nat)
    {c : Cursor} (hc : c.At pool types (ks ++ sep .rightParen :: r)) (hn : ks.length ≤ n) :
    Gives pool types (readParams n) c (sep .rightParen :: r) (·.map Binder.bare = bs) := by
  induction h generalizing n c with
  | last h =>
    have hpos := List.length_pos_iff.2 (ne_nil_of_starts h.starts rfl)
    obtain ⟨n₁, rfl⟩ := Nat.exists_eq_add_one.2 (show 0 < n by omega)
    refine .bind (readBinder_gives h hc nofun) ?_
    rintro b c₁ rfl hat
    exact .not_accept hat nofun (.pure hat rfl)
  | more h _ ih =>
    rw [List.append_assoc] at hc
    simp only [List.length_append, List.length_cons] at hn
    obtain ⟨n₁, rfl⟩ := Nat.exists_eq_add_one.2 (show 0 < n by omega)
    refine .bind (readBinder_gives h hc nofun) ?_
    rintro b c₁ rfl hat
    refine .accept hat fun hat => .bind (ih n₁ hat (by omega)) ?_
    rintro bs c₂ rfl hat
    exact .pure hat rfl

theorem readFields_gives {ks r : Kinds} {bs : List Binder} (h : Fields pool ks bs) (n : Nat)
    {c : Cursor} (hc : c.At pool types (ks ++ sep .rightBrace :: r)) (hn : ks.length < n) :
    Gives pool types (readFields n) c (sep .rightBrace :: r) (·.map Binder.bare = bs) := by
  induction h generalizing n c with
  | none =>
    obtain ⟨n₁, rfl⟩ := Nat.exists_eq_add_one.2 (show 0 < n by omega)
    exact .of_eq (hc.sees_or rfl) (.pure hc rfl)
  | last h =>
    obtain ⟨n₁, rfl⟩ := Nat.exists_eq_add_one.2 (show 0 < n by omega)
    refine .of_eq (hc.not_sees_or (next_append_ne h.starts rfl _ rfl)
      (next_append_ne h.starts rfl _ rfl)) ?_
    refine .bind (readBinder_gives h hc nofun) ?_
    rintro b c₁ rfl hat
    exact .not_accept hat nofun (.not_accept hat nofun (.pure hat rfl))
  | more h hmark _ ih =>
    rw [List.append_assoc] at hc
    simp only [List.length_append, List.length_cons] at hn
    obtain ⟨n₁, rfl⟩ := Nat.exists_eq_add_one.2 (show 0 < n by omega)
    refine .of_eq (hc.not_sees_or (next_append_ne h.starts rfl _ rfl)
      (next_append_ne h.starts rfl _ rfl)) ?_
    refine .bind (readBinder_gives h hc (by rcases hmark with rfl | rfl <;> nofun)) ?_
    rintro b c₁ rfl hat
    rcases hmark with rfl | rfl
    · refine .accept hat fun hat => .bind (ih n₁ hat (by omega)) ?_
      rintro bs c₂ rfl hat
      exact .pure hat rfl
    · refine .not_accept hat nofun (.accept hat fun hat => .bind (ih n₁ hat (by omega)) ?_)
      rintro bs c₂ rfl hat
      exact .pure hat rfl

theorem readParamList_gives {ks r : Kinds} {bs : List Binder} (h : ParamList pool ks bs) (n : Nat)
    {c : Cursor} (hc : c.At pool types (ks ++ sep .rightParen :: r)) (hn : ks.length ≤ n) :
    Gives pool types (readParamList n) c (sep .rightParen :: r) (·.map Binder.bare = bs) := by
  cases h with
  | none => exact .of_eq (hc.sees rfl) (.pure hc rfl)
  | some h =>
    exact .of_eq (hc.not_sees (next_append_ne h.starts rfl _ rfl)) (readParams_gives h n hc hn)

theorem readResult_gives {ks r : Kinds} {result : Option Annotation} {c : Cursor}
    (h : Result pool ks result) (hc : c.At pool types (ks ++ r)) (hr : next r ≠ .arrow) :
    Gives pool types readResult c r (· = result) := by
  cases h with
  | none => exact .not_accept hc hr (.pure hc rfl)
  | some k =>
    refine .accept hc fun hat => .bind (readAnnotation_gives hat) ?_
    rintro kind c₁ rfl hat
    exact .pure hat rfl

theorem functionDeclaration_gives {ps rs bs r : Kinds} {params : List Binder}
    {result : Option Annotation} {body : List Stmt} {c : Cursor} (name : Symbol)
    (hparams : ParamList pool ps params) (hresult : Result pool rs result)
    (hbody : Statement types .block bs body) (n : Nat)
    (hc : c.At pool types
      (kw .func :: .name name :: sep .leftParen :: (ps ++ sep .rightParen :: (rs ++ (bs ++ r)))))
    (hn : 16 * (ps.length + bs.length) ≤ n) :
    Gives pool types (functionDeclaration n) c r
      (·.bare = .function ⟨name, params, result, body, {}⟩ {}) := by
  rw [functionDeclaration_eq]
  refine .currentSpan (.expect hc fun hat => .expectName hat fun hat => .expect hat fun hat => ?_)
  refine .bind (readParamList_gives hparams n hat (by omega)) ?_
  rintro params c₁ rfl hat
  refine .expect hat fun hat => .bind (readResult_gives hresult hat ?_) ?_
  · rw [hbody.next_block]
    nofun
  rintro result c₂ rfl hat
  refine .bind (statement_complete hbody n hat (by omega)) ?_
  rintro body c₃ rfl hat
  exact .spanFrom (.pure hat rfl)

theorem typeDeclaration_gives {fs r : Kinds} {fields : List Binder} {c : Cursor} (name : Symbol)
    (hfields : Fields pool fs fields) (n : Nat)
    (hc : c.At pool types
      (kw .type :: .name name :: sep .leftBrace :: (fs ++ sep .rightBrace :: r)))
    (hn : fs.length < n) :
    Gives pool (name :: types) (typeDeclaration n) c r (·.bare = .type ⟨name, fields, {}⟩ {}) := by
  refine .currentSpan (.expect hc fun hat => .expectName hat fun hat => ?_)
  refine .of_eq (declareType_bind _ _ _) (.expect (hat.declareType name) fun hat => ?_)
  refine .bind (readFields_gives hfields n hat hn) ?_
  rintro fields c₁ rfl hat
  exact .expect hat fun hat => .spanFrom (.pure hat rfl)

theorem topLevel_statement {ks : Kinds} {c : Cursor} (n : Nat) (hc : c.At pool types ks)
    (hks : startsStatement (next ks) = true) : topLevel n c = statement n c := by
  rw [topLevel, current_bind, hc.current]
  cases hk : next ks with
  | keyword word =>
    rw [hk] at hks
    cases word <;> first | rfl | cases hks
  | _ => rfl

theorem topLevels_more {types' : List Symbol} {ks r : Kinds} {s : Stmt} {ss : List Stmt} {n : Nat}
    {c : Cursor} (hc : c.At pool types ks) (hks : next ks ≠ .endOfFile)
    (h : Gives pool types' (topLevel n) c r (·.bare = s))
    (rest : ∀ c' : Cursor, c'.At pool types' r →
      ∃ known, Gives pool known (topLevels n) c' [] (Stmt.bareAll · = ss)) :
    ∃ known, Gives pool known (topLevels (n + 1)) c [] (Stmt.bareAll · = s :: ss) := by
  obtain ⟨s', c₁, hs, hat, rfl⟩ := h
  obtain ⟨known, hrest⟩ := rest c₁ hat
  refine ⟨known, .of_eq (hc.not_sees hks) (.of_eq (bind_of hs) (.bind hrest ?_))⟩
  rintro ss' c₂ rfl hat
  exact .pure hat rfl

/-- What is spelled at the top level is read to the end of the file. -/
theorem topLevels_gives {ks : Kinds} {ss : List Stmt} (h : Toplevel pool types ks ss) (n : Nat)
    {c : Cursor} (hc : c.At pool types ks) (hn : 16 * ks.length < n) :
    ∃ known, Gives pool known (topLevels n) c [] (Stmt.bareAll · = ss) := by
  induction h generalizing n c with
  | nil types =>
    obtain ⟨n₁, rfl⟩ := Nat.exists_eq_add_one.2 (show 0 < n by omega)
    exact ⟨types, .of_eq (hc.sees rfl) (.pure hc rfl)⟩
  | statement h rest ih =>
    rw [List.length_append] at hn
    have hpos := List.length_pos_iff.2 h.ne_nil
    obtain ⟨n₁, rfl⟩ := Nat.exists_eq_add_one.2 (show 0 < n by omega)
    refine topLevels_more hc (next_append_ne h.starts rfl _ rfl) ?_ fun c' hat =>
      ih n₁ hat (by omega)
    refine .of_eq (topLevel_statement n₁ hc (starts_append h.starts rfl _)) ?_
    exact statement_complete h n₁ hc (rest.next_ne (.inl rfl)) (rest.next_ne (.inr rfl)) (by omega)
  | function name hparams hresult hbody _ ih =>
    simp only [List.length_append, List.length_cons] at hn
    obtain ⟨n₁, rfl⟩ := Nat.exists_eq_add_one.2 (show 0 < n by omega)
    refine topLevels_more hc (fun hk => by cases hk) ?_ fun c' hat => ih n₁ hat (by omega)
    have hstart : topLevel n₁ c = functionDeclaration n₁ c := by
      rw [topLevel, current_bind, hc.current]
      rfl
    exact .of_eq hstart (functionDeclaration_gives name hparams hresult hbody n₁ hc (by omega))
  | type name hfields _ ih =>
    simp only [List.length_append, List.length_cons] at hn
    obtain ⟨n₁, rfl⟩ := Nat.exists_eq_add_one.2 (show 0 < n by omega)
    refine topLevels_more hc (fun hk => by cases hk) ?_ fun c' hat => ih n₁ hat (by omega)
    have hstart : topLevel n₁ c = typeDeclaration n₁ c := by
      rw [topLevel, current_bind, hc.current]
      rfl
    exact .of_eq hstart (typeDeclaration_gives name hfields n₁ hc (by omega))

end declarations

end Scriptlet.Program
