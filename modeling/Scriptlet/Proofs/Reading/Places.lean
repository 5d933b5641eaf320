import Scriptlet.Proofs.Reading.Nesting
import Scriptlet.Proofs.Reading.Refusals

/-!
# Where refusals point

Whatever the reader refuses, it refuses at the token in front of the cursor, or at an expression that
it has just read. Either way the region starts where a token does: `Program.read_error_starts`.

`Pointed tokens x c` says this of an action in front of a cursor that stands among the tokens. Actions
are put together by one rule for each kind of step, and the reading functions follow by recursion on
their steps.
-/

namespace Scriptlet.Program

open Read

/-- The tokens of a source: in its order, with the end of the file behind the others. -/
def Scanned (tokens : Tokens) : Prop :=
  ∃ body last, tokens = body ++ [last] ∧ last.kind = .endOfFile ∧ (∀ t ∈ body, t.kind ≠ .endOfFile) ∧
    Successive body

/-- A region starts where one of some tokens does. -/
def StartsAt (tokens : Tokens) (s : Span) : Prop :=
  ∃ t ∈ tokens, s.start = t.span.start ∧ s.line = t.span.line ∧ s.column = t.span.column

/-- A cursor stands in front of one of the tokens of a source. -/
structure Cursor.Among (tokens : Tokens) (c : Cursor) : Prop where
  scanned : Scanned tokens
  suffix : c.rest <:+ tokens
  ne_nil : c.rest ≠ []

namespace Cursor.Among

variable {tokens : Tokens} {c : Cursor}

theorem starts (h : c.Among tokens) : StartsAt tokens c.current.span := by
  obtain ⟨t, ts, hrest⟩ := List.exists_cons_of_ne_nil h.ne_nil
  have ht : c.current = t := by rw [Cursor.current, hrest]; rfl
  rw [ht]
  exact ⟨t, h.suffix.subset (hrest ▸ List.mem_cons_self), rfl, rfl, rfl⟩

/-- The end of the file is not passed. -/
theorem advance (h : c.Among tokens) : c.advance.Among tokens := by
  obtain ⟨body, last, rfl, hlast, -⟩ := h.scanned
  obtain ⟨t, ts, hrest⟩ := List.exists_cons_of_ne_nil h.ne_nil
  unfold Cursor.advance
  rw [hrest]
  dsimp only
  split
  · exact h
  · next hk =>
    refine ⟨h.scanned, (hrest ▸ List.suffix_cons t ts).trans h.suffix, ?_⟩
    rintro rfl
    have hsuffix := h.suffix
    rw [hrest] at hsuffix
    have htl : t = last := by
      obtain ⟨us, hus⟩ := hsuffix
      exact (List.append_inj' hus rfl).2 |> List.singleton_inj.1
    exact hk (htl ▸ hlast)

/-- An expression starts where the token does that it was read from first. -/
theorem starts_expression (h : c.Among tokens) {n : Nat} {e : Expr} {c' : Cursor}
    (he : expression n c = .ok (e, c')) (h' : c'.Among tokens) : StartsAt tokens e.span := by
  obtain ⟨body, last, rfl, -, -, hs⟩ := h.scanned
  obtain ⟨ts, hp, hwritten⟩ := expression_written n he
  obtain ⟨us, hus⟩ := h.suffix
  rw [hp.rest] at hus
  -- What was passed lies in front of the end of the file.
  have hbody : ts <:+: body := by
    rw [← List.dropLast_concat_getLast h'.ne_nil, ← List.append_assoc, ← List.append_assoc] at hus
    have hus := (List.append_inj' hus rfl).1
    exact ⟨us, c'.rest.dropLast, by rw [← hus]⟩
  obtain ⟨a, b, ha, -, hspan⟩ := hwritten.span_eq (hs.stretch hbody)
  refine ⟨a, List.mem_append_left _ (hbody.subset (List.mem_of_head? ha)), ?_⟩
  have hspan : e.span = _ := hspan
  rw [hspan]
  exact ⟨rfl, rfl, rfl⟩

end Cursor.Among

/-- An action that leaves the cursor among the tokens, or refuses where one of them starts. -/
structure Pointed {α : Type} (tokens : Tokens) (x : Read α) (c : Cursor) : Prop where
  ok : ∀ {a : α} {c' : Cursor}, x c = .ok (a, c') → c'.Among tokens
  error : ∀ {e : Error}, x c = .error e → StartsAt tokens e.span

namespace Pointed

variable {tokens : Tokens} {α β : Type} {c : Cursor} {k : Token.Kind Symbol}

theorem pure (hc : c.Among tokens) (a : α) : Pointed tokens (pure a) c where
  ok h := by
    cases h
    exact hc
  error h := by cases h

theorem refuse {cause : Cause} {span : Span} (h : StartsAt tokens span) :
    Pointed tokens (Read.refuse cause span : Read α) c where
  ok h := absurd h (refuse_ne _ _)
  error he := by
    cases he
    exact h

theorem of_eq {x y : Read α} {c' : Cursor} (h : x c = y c') (hy : Pointed tokens y c') :
    Pointed tokens x c where
  ok hok := hy.ok (h.symm.trans hok)
  error herror := hy.error (h.symm.trans herror)

theorem exhausted (hc : c.Among tokens) : Pointed tokens (Read.exhausted : Read α) c :=
  .of_eq (currentSpan_bind (Read.refuse .exhausted) c) (.refuse hc.starts)

theorem refuseCurrent (hc : c.Among tokens) (expected : String) :
    Pointed tokens (Read.refuseCurrent expected : Read α) c where
  ok h := absurd h (refuseCurrent_ne _)
  error h := by
    unfold Read.refuseCurrent at h
    rw [get_bind] at h
    cases hk : c.current.kind <;> rw [hk] at h <;> cases h <;> exact hc.starts

theorem ite {p : Prop} [Decidable p] {x y : Read α} (hx : p → Pointed tokens x c)
    (hy : ¬ p → Pointed tokens y c) : Pointed tokens (if p then x else y) c := by
  split
  · next h => exact hx h
  · next h => exact hy h

theorem bind {x : Read α} {f : α → Read β} (hx : Pointed tokens x c)
    (hf : ∀ a c', x c = .ok (a, c') → c'.Among tokens → Pointed tokens (f a) c') :
    Pointed tokens (x >>= f) c where
  ok h := by
    obtain ⟨a, c', hok, hrest⟩ := of_bind h
    exact (hf a c' hok (hx.ok hok)).ok hrest
  error h := by
    rcases of_bind_error h with herror | ⟨a, c', hok, hrest⟩
    · exact hx.error herror
    · exact (hf a c' hok (hx.ok hok)).error hrest

theorem map {x : Read α} (f : α → β) (hx : Pointed tokens x c) :
    Pointed tokens (do return f (← x)) c :=
  .bind hx fun _ _ _ hc => .pure hc _

/-! ## Steps that look, and steps that move -/

theorem current {f : Token Symbol → Read β} (h : Pointed tokens (f c.current) c) :
    Pointed tokens (Read.current >>= f) c :=
  .of_eq (current_bind f c) h

theorem currentSpan {f : Span → Read β} (h : Pointed tokens (f c.current.span) c) :
    Pointed tokens (Read.currentSpan >>= f) c :=
  .of_eq (currentSpan_bind f c) h

theorem sees {f : Bool → Read β} (h : Pointed tokens (f (decide (c.current.kind = k))) c) :
    Pointed tokens (Read.sees k >>= f) c :=
  .of_eq (sees_bind k f c) h

theorem spanFrom {start : Span} {f : Span → Read β} (h : Pointed tokens (f (start.merge c.last)) c) :
    Pointed tokens (Read.spanFrom start >>= f) c :=
  .of_eq (spanFrom_bind start f c) h

theorem get {f : Cursor → Read β} (h : Pointed tokens (f c) c) :
    Pointed tokens (get >>= f) c :=
  .of_eq (get_bind f c) h

theorem advance {f : Unit → Read β} (hc : c.Among tokens)
    (h : c.advance.Among tokens → Pointed tokens (f ()) c.advance) :
    Pointed tokens (Read.advance >>= f) c :=
  .of_eq (advance_bind f c) (h hc.advance)

theorem declareType {name : Symbol} {f : Unit → Read β} (hc : c.Among tokens)
    (h : ∀ c' : Cursor, c'.Among tokens → Pointed tokens (f ()) c') :
    Pointed tokens (Read.declareType name >>= f) c :=
  .of_eq (declareType_bind name f c) (h _ ⟨hc.scanned, hc.suffix, hc.ne_nil⟩)

theorem expect {f : Unit → Read β} (hc : c.Among tokens)
    (h : c.advance.Among tokens → Pointed tokens (f ()) c.advance) :
    Pointed tokens (Read.expect k >>= f) c := by
  unfold Read.expect
  rw [bind_assoc]
  refine .sees ?_
  by_cases hcur : c.current.kind = k
  · rw [if_pos (decide_eq_true hcur)]
    exact .advance hc h
  · rw [if_neg fun hd => hcur (of_decide_eq_true hd)]
    exact .bind (.refuseCurrent hc _) fun _ _ hok => absurd hok (refuseCurrent_ne _)

theorem expectName {f : Symbol → Read β} (hc : c.Among tokens)
    (h : ∀ n, c.advance.Among tokens → Pointed tokens (f n) c.advance) :
    Pointed tokens (Read.expectName >>= f) c := by
  unfold Read.expectName
  rw [bind_assoc]
  refine .current ?_
  cases hcur : c.current.kind with
  | name n =>
    dsimp only
    rw [bind_assoc]
    refine .advance hc fun hc => ?_
    rw [pure_bind]
    exact h n hc
  | _ => exact .bind (.refuseCurrent hc _) fun _ _ hok => absurd hok (refuseCurrent_ne _)

theorem accept {x y : Read β} (hc : c.Among tokens)
    (hx : c.advance.Among tokens → Pointed tokens x c.advance) (hy : Pointed tokens y c) :
    Pointed tokens (Read.accept k >>= fun b => if b = true then x else y) c := by
  unfold Read.accept
  rw [bind_assoc]
  refine .sees ?_
  by_cases hcur : c.current.kind = k
  · rw [if_pos (decide_eq_true hcur), bind_assoc]
    refine .advance hc fun hc => ?_
    rw [pure_bind]
    exact hx hc
  · rw [if_neg fun hd => hcur (of_decide_eq_true hd)]
    exact hy

end Pointed

/-! ## Expressions -/

mutual

theorem binary_pointed {tokens : Tokens} : ∀ (n : Nat) {l : Nat} {c : Cursor}, c.Among tokens →
    Pointed tokens (binary n l) c
  | 0, _, _, hc => .exhausted hc
  | n + 1, l, c, hc => by
    rw [binary]
    exact .bind (unary_pointed n hc) fun left _ _ hc => binaryRest_pointed n left hc

theorem binaryRest_pointed {tokens : Tokens} : ∀ (n : Nat) {l : Nat} {c : Cursor} (left : Expr),
    c.Among tokens → Pointed tokens (binaryRest n l left) c
  | 0, _, _, _, hc => .exhausted hc
  | n + 1, l, c, left, hc => by
    rw [binaryRest]
    refine .current ?_
    cases c.current.kind with
    | operator symbol =>
      dsimp only
      cases symbol.binary? with
      | none => exact .pure hc left
      | some op =>
        refine .ite (fun _ => .pure hc left) fun _ => .advance hc fun hc => ?_
        exact .bind (binary_pointed n hc) fun _ _ _ hc => binaryRest_pointed n _ hc
    | _ => exact .pure hc left

theorem unary_pointed {tokens : Tokens} : ∀ (n : Nat) {c : Cursor}, c.Among tokens →
    Pointed tokens (unary n) c
  | 0, _, hc => .exhausted hc
  | n + 1, c, hc => by
    rw [unary]
    refine .current ?_
    cases c.current.kind with
    | operator symbol =>
      dsimp only
      cases symbol.unary? with
      | none => exact chain_pointed n hc
      | some op =>
        exact .advance hc fun hc => .bind (unary_pointed n hc) fun _ _ _ hc => .pure hc _
    | _ => exact chain_pointed n hc

theorem chain_pointed {tokens : Tokens} : ∀ (n : Nat) {c : Cursor}, c.Among tokens →
    Pointed tokens (chain n) c
  | 0, _, hc => .exhausted hc
  | n + 1, c, hc => by
    rw [chain]
    exact .bind (primary_pointed n hc) fun first _ _ hc => chainRest_pointed n first hc

theorem chainRest_pointed {tokens : Tokens} : ∀ (n : Nat) {c : Cursor} (object : Expr),
    c.Among tokens → Pointed tokens (chainRest n object) c
  | 0, _, _, hc => .exhausted hc
  | n + 1, c, object, hc => by
    rw [chainRest]
    refine .accept hc (fun hc => .bind (arguments_pointed n hc) fun _ _ _ hc => .spanFrom ?_) ?_
    · exact chainRest_pointed n _ hc
    refine .accept hc (fun hc => .bind (binary_pointed n hc) fun _ _ _ hc => ?_) ?_
    · exact .expect hc fun hc => .spanFrom (chainRest_pointed n _ hc)
    refine .accept hc (fun hc => .expectName hc fun name hc => ?_) (.pure hc object)
    refine .accept hc (fun hc => .bind (arguments_pointed n hc) fun _ _ _ hc => .spanFrom ?_) ?_
    · exact chainRest_pointed n _ hc
    · exact .spanFrom (chainRest_pointed n _ hc)

theorem arguments_pointed {tokens : Tokens} : ∀ (n : Nat) {c : Cursor}, c.Among tokens →
    Pointed tokens (arguments n) c
  | 0, _, hc => .exhausted hc
  | n + 1, c, hc => by
    rw [arguments]
    refine .sees (.ite (fun _ => .advance hc fun hc => .pure hc []) fun _ => ?_)
    exact .bind (argumentList_pointed n hc) fun args _ _ hc => .expect hc fun hc => .pure hc args

theorem argumentList_pointed {tokens : Tokens} : ∀ (n : Nat) {c : Cursor}, c.Among tokens →
    Pointed tokens (argumentList n) c
  | 0, _, hc => .exhausted hc
  | n + 1, c, hc => by
    rw [argumentList]
    refine .bind (binary_pointed n hc) fun e _ _ hc => .accept hc (fun hc => ?_) (.pure hc [e])
    exact .map (e :: ·) (argumentList_pointed n hc)

theorem items_pointed {tokens : Tokens} : ∀ (n : Nat) {c : Cursor}, c.Among tokens →
    Pointed tokens (items n) c
  | 0, _, hc => .exhausted hc
  | n + 1, c, hc => by
    rw [items]
    refine .sees (.ite (fun _ => .pure hc []) fun _ => ?_)
    refine .bind (binary_pointed n hc) fun e _ _ hc => .accept hc (fun hc => ?_) (.pure hc [e])
    exact .map (e :: ·) (items_pointed n hc)

theorem primary_pointed {tokens : Tokens} : ∀ (n : Nat) {c : Cursor}, c.Among tokens →
    Pointed tokens (primary n) c
  | 0, _, hc => .exhausted hc
  | n + 1, c, hc => by
    have hrefuse : Pointed tokens (Read.refuseCurrent "expression" : Read Expr) c :=
      .refuseCurrent hc _
    change Pointed tokens (current >>= _) c
    refine .current ?_
    cases c.current.kind with
    | literal value => exact .advance hc fun hc => .pure hc _
    | name symbol =>
      refine .advance hc fun hc => .get (.sees (.ite (fun _ => ?_) fun _ => .pure hc _))
      refine .advance hc fun hc => .bind (arguments_pointed n hc) fun _ _ _ hc => ?_
      exact .spanFrom (.pure hc _)
    | separator mark =>
      cases mark with
      | leftParen =>
        refine .advance hc fun hc => .bind (binary_pointed n hc) fun _ _ _ hc => ?_
        exact .expect hc fun hc => .spanFrom (.pure hc _)
      | leftBracket =>
        refine .advance hc fun hc => .bind (items_pointed n hc) fun _ _ _ hc => ?_
        exact .expect hc fun hc => .spanFrom (.pure hc _)
      | _ => exact hrefuse
    | _ => exact hrefuse

end

theorem expression_pointed {tokens : Tokens} (n : Nat) {c : Cursor} (hc : c.Among tokens) :
    Pointed tokens (expression n) c :=
  binary_pointed n hc

/-! ## Statements -/

section statements

variable {tokens : Tokens} {c : Cursor}

/-- What cannot be assigned to is an expression that was read. -/
theorem simpleStatement_pointed (n : Nat) (hc : c.Among tokens) :
    Pointed tokens (simpleStatement n) c := by
  rw [simpleStatement]
  refine .currentSpan (.bind (expression_pointed n hc) fun e c₁ he hc₁ => .current ?_)
  have hplain : Pointed tokens (do
      expect (sep .semicolon)
      return .expression e (← spanFrom c.current.span) : Read Stmt) c₁ :=
    .expect hc₁ fun hc => .spanFrom (.pure hc _)
  cases c₁.current.kind with
  | operator symbol =>
    dsimp only
    cases symbol.assignment? with
    | none => exact hplain
    | some op =>
      refine .ite (fun _ => .advance hc₁ fun hc => ?_) fun _ => ?_
      · exact .bind (expression_pointed n hc) fun _ _ _ hc => .expect hc fun hc =>
          .spanFrom (.pure hc _)
      · exact .refuse (hc.starts_expression he hc₁)
  | _ => exact hplain

theorem declaration_pointed (n : Nat) (hc : c.Among tokens) : Pointed tokens (declaration n) c := by
  rw [declaration]
  refine .currentSpan (.expect hc fun hc => .expectName hc fun name hc => .expect hc fun hc => ?_)
  exact .bind (expression_pointed n hc) fun _ _ _ hc => .expect hc fun hc => .spanFrom (.pure hc _)

theorem giveBack_pointed (n : Nat) (hc : c.Among tokens) : Pointed tokens (giveBack n) c := by
  rw [giveBack]
  refine .currentSpan (.expect hc fun hc => .sees ?_)
  dsimp only
  refine .ite (fun _ => ?_) fun _ => ?_
  · rw [pure_bind]
    exact .expect hc fun hc => .spanFrom (.pure hc _)
  · rw [bind_map_left]
    exact .bind (expression_pointed n hc) fun _ _ _ hc => .expect hc fun hc =>
      .spanFrom (.pure hc _)

theorem jumpStatement_pointed (make : Span → Stmt) (hc : c.Among tokens) :
    Pointed tokens (jumpStatement make) c := by
  rw [jumpStatement]
  exact .currentSpan (.advance hc fun hc => .expect hc fun hc => .pure hc _)

end statements

mutual

theorem statement_pointed {tokens : Tokens} : ∀ (n : Nat) {c : Cursor}, c.Among tokens →
    Pointed tokens (statement n) c
  | 0, _, hc => .exhausted hc
  | n + 1, c, hc => by
    rw [statement]
    refine .current ?_
    cases c.current.kind with
    | keyword word =>
      cases word with
      | let_ => exact declaration_pointed n hc
      | if_ => exact branching_pointed n hc
      | while_ =>
        refine .advance hc fun hc => .bind (expression_pointed n hc) fun _ _ _ hc => ?_
        exact .bind (block_pointed n hc) fun _ _ _ hc => .spanFrom (.pure hc _)
      | break_ => exact jumpStatement_pointed _ hc
      | continue_ => exact jumpStatement_pointed _ hc
      | return_ => exact giveBack_pointed n hc
      | func | type => exact .refuse hc.starts
      | _ => exact simpleStatement_pointed n hc
    | separator mark =>
      cases mark with
      | leftBrace => exact .bind (block_pointed n hc) fun _ _ _ hc => .spanFrom (.pure hc _)
      | _ => exact simpleStatement_pointed n hc
    | _ => exact simpleStatement_pointed n hc

theorem block_pointed {tokens : Tokens} : ∀ (n : Nat) {c : Cursor}, c.Among tokens →
    Pointed tokens (block n) c
  | 0, _, hc => .exhausted hc
  | n + 1, c, hc => by
    rw [block]
    refine .expect hc fun hc => .bind (statements_pointed n hc) fun body _ _ hc => ?_
    exact .expect hc fun hc => .pure hc body

theorem statements_pointed {tokens : Tokens} : ∀ (n : Nat) {c : Cursor}, c.Among tokens →
    Pointed tokens (statements n) c
  | 0, _, hc => .exhausted hc
  | n + 1, c, hc => by
    rw [statements]
    refine .sees (.sees (.ite (fun _ => .pure hc []) fun _ => ?_))
    exact .bind (statement_pointed n hc) fun s _ _ hc => .map (s :: ·) (statements_pointed n hc)

theorem branching_pointed {tokens : Tokens} : ∀ (n : Nat) {c : Cursor}, c.Among tokens →
    Pointed tokens (branching n) c
  | 0, _, hc => .exhausted hc
  | n + 1, c, hc => by
    rw [branching]
    refine .currentSpan (.expect hc fun hc => .bind (arm_pointed n hc) fun first _ _ hc => ?_)
    refine .bind (elifArms_pointed n hc) fun more _ _ hc => ?_
    refine .accept hc (fun hc => ?_) (.spanFrom (.pure hc _))
    exact .bind (block_pointed n hc) fun _ _ _ hc => .spanFrom (.pure hc _)

theorem arm_pointed {tokens : Tokens} : ∀ (n : Nat) {start : Span} {c : Cursor}, c.Among tokens →
    Pointed tokens (arm n start) c
  | 0, _, _, hc => .exhausted hc
  | n + 1, start, c, hc => by
    rw [arm]
    refine .bind (expression_pointed n hc) fun _ _ _ hc => ?_
    exact .bind (block_pointed n hc) fun _ _ _ hc => .spanFrom (.pure hc _)

theorem elifArms_pointed {tokens : Tokens} : ∀ (n : Nat) {c : Cursor}, c.Among tokens →
    Pointed tokens (elifArms n) c
  | 0, _, hc => .exhausted hc
  | n + 1, c, hc => by
    rw [elifArms]
    refine .currentSpan (.accept hc (fun hc => ?_) (.pure hc []))
    exact .bind (arm_pointed n hc) fun first _ _ hc => .map (first :: ·) (elifArms_pointed n hc)

end

/-! ## Declarations -/

section declarations

variable {tokens : Tokens} {c : Cursor}

theorem readAnnotation_pointed (hc : c.Among tokens) : Pointed tokens readAnnotation c := by
  unfold readAnnotation
  exact .expectName hc fun _ hc => .get (.pure hc _)

theorem readBinder_pointed (hc : c.Among tokens) : Pointed tokens readBinder c := by
  rw [readBinder]
  refine .currentSpan (.expectName hc fun name hc => ?_)
  refine .map (fun kind => (⟨name, kind, c.current.span⟩ : Binder)) ?_
  unfold readOptionalAnnotation
  exact .accept hc readAnnotation_pointed (.pure hc _)

theorem readParams_pointed : ∀ (n : Nat) {c : Cursor}, c.Among tokens →
    Pointed tokens (readParams n) c
  | 0, _, hc => .exhausted hc
  | n + 1, c, hc => by
    rw [readParams]
    refine .bind (readBinder_pointed hc) fun b _ _ hc => .accept hc (fun hc => ?_) (.pure hc [b])
    exact .map (b :: ·) (readParams_pointed n hc)

theorem readFields_pointed : ∀ (n : Nat) {c : Cursor}, c.Among tokens →
    Pointed tokens (readFields n) c
  | 0, _, hc => .exhausted hc
  | n + 1, c, hc => by
    rw [readFields]
    refine .sees (.sees (.ite (fun _ => .pure hc []) fun _ => ?_))
    refine .bind (readBinder_pointed hc) fun b _ _ hc => .accept hc (fun hc => ?_) ?_
    · exact .map (b :: ·) (readFields_pointed n hc)
    · exact .accept hc (fun hc => .map (b :: ·) (readFields_pointed n hc)) (.pure hc [b])

theorem readParamList_pointed (n : Nat) (hc : c.Among tokens) :
    Pointed tokens (readParamList n) c := by
  rw [readParamList]
  exact .sees (.ite (fun _ => .pure hc []) fun _ => readParams_pointed n hc)

theorem readResult_pointed (hc : c.Among tokens) : Pointed tokens readResult c := by
  rw [readResult]
  exact .accept hc (fun hc => .map some (readAnnotation_pointed hc)) (.pure hc none)

theorem functionDeclaration_pointed (n : Nat) (hc : c.Among tokens) :
    Pointed tokens (functionDeclaration n) c := by
  rw [functionDeclaration_eq]
  refine .currentSpan (.expect hc fun hc => .expectName hc fun name hc => .expect hc fun hc => ?_)
  refine .bind (readParamList_pointed n hc) fun params _ _ hc => .expect hc fun hc => ?_
  refine .bind (readResult_pointed hc) fun result _ _ hc => ?_
  exact .bind (block_pointed n hc) fun body _ _ hc => .spanFrom (.pure hc _)

theorem typeDeclaration_pointed (n : Nat) (hc : c.Among tokens) :
    Pointed tokens (typeDeclaration n) c := by
  rw [typeDeclaration]
  refine .currentSpan (.expect hc fun hc => .expectName hc fun name hc => ?_)
  refine .declareType hc fun c hc => .expect hc fun hc => ?_
  refine .bind (readFields_pointed n hc) fun fields _ _ hc => .expect hc fun hc => ?_
  exact .spanFrom (.pure hc _)

theorem topLevel_pointed (n : Nat) (hc : c.Among tokens) : Pointed tokens (topLevel n) c := by
  have hstatement : Pointed tokens (statement n) c := statement_pointed n hc
  rw [topLevel]
  refine .current ?_
  cases c.current.kind with
  | keyword word =>
    cases word with
    | func => exact functionDeclaration_pointed n hc
    | type => exact typeDeclaration_pointed n hc
    | _ => exact hstatement
  | _ => exact hstatement

theorem topLevels_pointed : ∀ (n : Nat) {c : Cursor}, c.Among tokens →
    Pointed tokens (topLevels n) c
  | 0, _, hc => .exhausted hc
  | n + 1, c, hc => by
    rw [topLevels]
    refine .sees (.ite (fun _ => .pure hc []) fun _ => ?_)
    exact .bind (topLevel_pointed n hc) fun s _ _ hc => .map (s :: ·) (topLevels_pointed n hc)

end declarations

/-- Tokens of a source are refused where one of them starts. -/
theorem read_error_starts {tokens : Tokens} {pool : Pool} {e : Error} (ht : Scanned tokens)
    (h : read tokens pool = .error e) : StartsAt tokens e.span := by
  have hne : tokens ≠ [] := by
    obtain ⟨body, last, rfl, -⟩ := ht
    exact List.append_ne_nil_of_right_ne_nil _ (List.cons_ne_nil _ _)
  have hc : Cursor.Among tokens { pool, rest := tokens, last := {}, types := [] } :=
    ⟨ht, List.suffix_refl _, hne⟩
  exact (topLevels_pointed (steps tokens) hc).error (read_eq_error.1 h)

end Scriptlet.Program
