import Scriptlet.Proofs.Reading.Actions
import Scriptlet.Proofs.Reading.Writing

/-!
# Trees are written in the tokens that are passed

For each reading function, by recursion on its steps: where it succeeds, what it gives is written in
the tokens that the cursor has passed (`Cursor.Passes`). Regions are put together from the token in
front of the cursor, the region of a part and the token read last; `Cursor.Passes.last` and
`Cursor.Passes.extent_eq` tell which tokens these are. `topLevels_written` is the whole.
-/

namespace Scriptlet.Program

open Grammar Read

/-! ## Tokens that are passed -/

/-- A cursor has passed tokens and is left in front of the others. -/
structure Cursor.Passes (c : Cursor) (ts : Tokens) (c' : Cursor) : Prop where
  rest : c.rest = ts ++ c'.rest
  last : c'.last = (ts.map Token.span).getLastD c.last
  filled : ∀ t ∈ ts, t.kind ≠ .endOfFile

namespace Cursor.Passes

variable {c c₁ c' : Cursor} {ts us : Tokens} {k : Token.Kind Symbol} {t : Token Symbol}

theorem refl (c : Cursor) : c.Passes [] c := ⟨rfl, rfl, nofun⟩

theorem declareType (c : Cursor) (types : List Symbol) : c.Passes [] { c with types } :=
  ⟨rfl, rfl, nofun⟩

theorem trans (h : c.Passes ts c₁) (h' : c₁.Passes us c') : c.Passes (ts ++ us) c' where
  rest := by rw [h.rest, h'.rest, List.append_assoc]
  last := by
    rw [h'.last, h.last, List.map_append]
    simp only [List.getLastD_eq_getLast?, List.getLast?_append]
    cases (us.map Token.span).getLast? <;> simp
  filled t ht := (List.mem_append.1 ht).elim (h.filled t) (h'.filled t)

theorem advance (h : c.current.kind = k) (hk : k ≠ .endOfFile) :
    c.Passes [⟨k, c.current.span⟩] c.advance := by
  subst h
  obtain ⟨t, ts, hrest⟩ : ∃ t ts, c.rest = t :: ts := List.exists_cons_of_ne_nil fun hnil =>
    hk (by rw [Cursor.current, hnil]; rfl)
  have ht : c.current = t := by rw [Cursor.current, hrest]; rfl
  rw [ht] at hk ⊢
  have hadvance : c.advance = { c with rest := ts, last := t.span } := by
    rw [Cursor.advance, hrest]
    exact if_neg hk
  rw [hadvance]
  exact ⟨hrest, rfl, fun s hs => by rw [List.mem_singleton.1 hs]; exact hk⟩

theorem last_concat (h : c.Passes (ts ++ [t]) c') : c'.last = t.span := by
  rw [h.last]
  simp

/-- What was passed reaches from the token in front of the cursor to the one read last. -/
theorem extent_eq (h : c.Passes ts c') (hne : ts ≠ []) :
    c.current.span.merge c'.last = extent ts := by
  obtain ⟨t, us, rfl⟩ := List.exists_cons_of_ne_nil hne
  have ht : c.current = t := by rw [Cursor.current, h.rest]; rfl
  rw [extent, h.last, ht]
  simp [List.getLastD_eq_getLast?, List.getLast?_cons]

section steps

variable {α : Type} {r : α × Cursor}

theorem of_expect {f : Unit → Read α} (h : (Read.expect k >>= f) c = .ok r)
    (hk : k ≠ .endOfFile) :
    c.Passes [⟨k, c.current.span⟩] c.advance ∧ f () c.advance = .ok r := by
  by_cases hcur : c.current.kind = k
  · rw [bind_of (expect_of k hcur)] at h
    exact ⟨.advance hcur hk, h⟩
  · obtain ⟨u, c', hx, -⟩ := of_bind h
    rw [Read.expect, sees_bind, if_neg fun hd => hcur (of_decide_eq_true hd)] at hx
    exact absurd hx (refuseCurrent_ne _)

theorem of_expectName {f : Symbol → Read α} (h : (Read.expectName >>= f) c = .ok r) :
    ∃ n, c.Passes [⟨.name n, c.current.span⟩] c.advance ∧ f n c.advance = .ok r := by
  obtain ⟨n, c', hx, hf⟩ := of_bind h
  cases hcur : c.current.kind with
  | name symbol =>
    rw [expectName_of hcur] at hx
    cases hx
    exact ⟨n, .advance hcur (by simp), hf⟩
  | _ =>
    rw [Read.expectName, current_bind, hcur] at hx
    exact absurd hx (refuseCurrent_ne _)

theorem of_accept {x y : Read α}
    (h : (Read.accept k >>= fun b => if b = true then x else y) c = .ok r)
    (hk : k ≠ .endOfFile) :
    (c.Passes [⟨k, c.current.span⟩] c.advance ∧ x c.advance = .ok r) ∨ y c = .ok r := by
  rw [accept_bind] at h
  split at h
  · next hcur => exact .inl ⟨.advance hcur hk, h⟩
  · exact .inr h

end steps

end Cursor.Passes

/-! ## Expressions -/

mutual

theorem binary_written : ∀ (n : Nat) {l : Nat} {c c' : Cursor} {e : Expr},
    binary n l c = .ok (e, c') → ∃ ts, c.Passes ts c' ∧ Written ts (.tree (.expr e))
  | 0, _, _, _, _, h => absurd h exhausted_ne
  | n + 1, _, _, _, _, h => by
    rw [binary] at h
    obtain ⟨left, c₁, hu, h⟩ := of_bind h
    obtain ⟨ts, hp, hleft⟩ := unary_written n hu
    obtain ⟨us, hq, he⟩ := binaryRest_written n h hleft
    exact ⟨ts ++ us, hp.trans hq, he⟩

/-- The left operand is written in front of the cursor. -/
theorem binaryRest_written : ∀ (n : Nat) {l : Nat} {c c' : Cursor} {ts : Tokens} {left e : Expr},
    binaryRest n l left c = .ok (e, c') → Written ts (.tree (.expr left)) →
    ∃ us, c.Passes us c' ∧ Written (ts ++ us) (.tree (.expr e))
  | 0, _, _, _, _, _, _, h, _ => absurd h exhausted_ne
  | n + 1, l, c, c', ts, left, e, h, hleft => by
    have hdone : (pure left : Read Expr) c = .ok (e, c') →
        ∃ us, c.Passes us c' ∧ Written (ts ++ us) (.tree (.expr e)) := by
      intro h
      cases h
      exact ⟨[], .refl c, by rwa [List.append_nil]⟩
    rw [binaryRest, current_bind] at h
    cases hk : c.current.kind with
    | operator symbol =>
      rw [hk] at h
      dsimp only at h
      cases hb : symbol.binary? with
      | none =>
        rw [hb] at h
        exact hdone h
      | some op =>
        rw [hb] at h
        dsimp only at h
        split at h
        · exact hdone h
        · rw [advance_bind] at h
          obtain ⟨right, c₁, hright, h⟩ := of_bind h
          obtain ⟨us, hp, hr⟩ := binary_written n hright
          obtain ⟨vs, hq, he⟩ := binaryRest_written n h (.binary hb hleft hr)
          refine ⟨_, ((Cursor.Passes.advance hk nofun).trans hp).trans hq, ?_⟩
          simpa using he
    | _ =>
      rw [hk] at h
      exact hdone h

theorem unary_written : ∀ (n : Nat) {c c' : Cursor} {e : Expr}, unary n c = .ok (e, c') →
    ∃ ts, c.Passes ts c' ∧ Written ts (.tree (.expr e))
  | 0, _, _, _, h => absurd h exhausted_ne
  | n + 1, c, c', e, h => by
    rw [unary, current_bind] at h
    cases hk : c.current.kind with
    | operator symbol =>
      rw [hk] at h
      dsimp only at h
      cases hu : symbol.unary? with
      | none =>
        rw [hu] at h
        exact chain_written n h
      | some op =>
        rw [hu] at h
        dsimp only at h
        rw [advance_bind] at h
        obtain ⟨operand, c₁, ho, h⟩ := of_bind h
        obtain ⟨ts, hp, hoperand⟩ := unary_written n ho
        cases h
        exact ⟨_, (Cursor.Passes.advance hk nofun).trans hp, .unary hu hoperand⟩
    | _ =>
      rw [hk] at h
      exact chain_written n h

theorem chain_written : ∀ (n : Nat) {c c' : Cursor} {e : Expr}, chain n c = .ok (e, c') →
    ∃ ts, c.Passes ts c' ∧ Written ts (.tree (.expr e))
  | 0, _, _, _, h => absurd h exhausted_ne
  | n + 1, _, _, _, h => by
    rw [chain] at h
    obtain ⟨first, c₁, hf, h⟩ := of_bind h
    obtain ⟨ts, hp, hfirst⟩ := primary_written n hf
    obtain ⟨us, hq, he⟩ := chainRest_written n h hfirst
    exact ⟨ts ++ us, hp.trans hq, he⟩

/-- What suffixes apply to is written in front of the cursor. -/
theorem chainRest_written : ∀ (n : Nat) {c c' : Cursor} {ts : Tokens} {object e : Expr},
    chainRest n object c = .ok (e, c') → Written ts (.tree (.expr object)) →
    ∃ us, c.Passes us c' ∧ Written (ts ++ us) (.tree (.expr e))
  | 0, _, _, _, _, _, h, _ => absurd h exhausted_ne
  | n + 1, c, c', ts, object, e, h, hobject => by
    rw [chainRest] at h
    rcases Cursor.Passes.of_accept h nofun with ⟨hp, h⟩ | h
    · obtain ⟨args, c₁, ha, h⟩ := of_bind h
      obtain ⟨us, r, hq, hargs⟩ := arguments_written n ha
      rw [spanFrom_bind, hq.last_concat] at h
      obtain ⟨vs, hs, he⟩ := chainRest_written n h (.call hobject hargs)
      exact ⟨_, (hp.trans hq).trans hs, by simpa using he⟩
    rcases Cursor.Passes.of_accept h nofun with ⟨hp, h⟩ | h
    · obtain ⟨index, c₁, hi, h⟩ := of_bind h
      obtain ⟨us, hq, hindex⟩ := binary_written n hi
      obtain ⟨hr, h⟩ := Cursor.Passes.of_expect h nofun
      rw [spanFrom_bind, (hq.trans hr).last_concat] at h
      obtain ⟨vs, hs, he⟩ := chainRest_written n h (.index hobject hindex)
      exact ⟨_, (hp.trans (hq.trans hr)).trans hs, by simpa using he⟩
    rcases Cursor.Passes.of_accept h nofun with ⟨hp, h⟩ | h
    · obtain ⟨name, hq, h⟩ := Cursor.Passes.of_expectName h
      rcases Cursor.Passes.of_accept h nofun with ⟨hr, h⟩ | h
      · obtain ⟨args, c₁, ha, h⟩ := of_bind h
        obtain ⟨us, r, hs, hargs⟩ := arguments_written n ha
        rw [spanFrom_bind, hs.last_concat] at h
        obtain ⟨vs, ht, he⟩ := chainRest_written n h (.methodCall hobject hargs)
        exact ⟨_, (hp.trans (hq.trans (hr.trans hs))).trans ht, by simpa using he⟩
      · rw [spanFrom_bind, hq.last] at h
        obtain ⟨vs, hr, he⟩ := chainRest_written n h (.field hobject)
        exact ⟨_, (hp.trans hq).trans hr, by simpa using he⟩
    · cases h
      exact ⟨[], .refl c, by rwa [List.append_nil]⟩

/-- Arguments are read with the parenthesis that closes them. -/
theorem arguments_written : ∀ (n : Nat) {c c' : Cursor} {es : List Expr},
    arguments n c = .ok (es, c') → ∃ ts r, c.Passes (ts ++ [⟨sep .rightParen, r⟩]) c' ∧
      Written ts (.listed [.comma] (es.map .expr))
  | 0, _, _, _, h => absurd h exhausted_ne
  | n + 1, _, _, _, h => by
    rw [arguments, sees_bind] at h
    split at h
    · next hclose =>
      cases h
      exact ⟨[], _, .advance (of_decide_eq_true hclose) nofun, .unlisted _⟩
    · obtain ⟨args, c₁, ha, h⟩ := of_bind h
      obtain ⟨ts, hp, hargs⟩ := argumentList_written n ha
      obtain ⟨hq, h⟩ := Cursor.Passes.of_expect h nofun
      cases h
      exact ⟨ts, _, hp.trans hq, hargs⟩

theorem argumentList_written : ∀ (n : Nat) {c c' : Cursor} {es : List Expr},
    argumentList n c = .ok (es, c') →
    ∃ ts, c.Passes ts c' ∧ Written ts (.listed [.comma] (es.map .expr))
  | 0, _, _, _, h => absurd h exhausted_ne
  | n + 1, _, _, _, h => by
    rw [argumentList] at h
    obtain ⟨e, c₁, hb, h⟩ := of_bind h
    obtain ⟨ts, hp, he⟩ := binary_written n hb
    rcases Cursor.Passes.of_accept h nofun with ⟨hq, h⟩ | h
    · obtain ⟨es, c₂, hrest, h⟩ := of_bind h
      obtain ⟨us, hr, hes⟩ := argumentList_written n hrest
      cases h
      exact ⟨_, hp.trans (hq.trans hr), .more (List.mem_singleton_self _) he hes⟩
    · cases h
      exact ⟨ts, hp, .last _ he⟩

theorem items_written : ∀ (n : Nat) {c c' : Cursor} {es : List Expr}, items n c = .ok (es, c') →
    ∃ ts, c.Passes ts c' ∧ Written ts (.listed [.comma] (es.map .expr))
  | 0, _, _, _, h => absurd h exhausted_ne
  | n + 1, c, _, _, h => by
    rw [items, sees_bind] at h
    split at h
    · cases h
      exact ⟨[], .refl c, .unlisted _⟩
    · obtain ⟨e, c₁, hb, h⟩ := of_bind h
      obtain ⟨ts, hp, he⟩ := binary_written n hb
      rcases Cursor.Passes.of_accept h nofun with ⟨hq, h⟩ | h
      · obtain ⟨es, c₂, hrest, h⟩ := of_bind h
        obtain ⟨us, hr, hes⟩ := items_written n hrest
        cases h
        exact ⟨_, hp.trans (hq.trans hr), .more (List.mem_singleton_self _) he hes⟩
      · cases h
        exact ⟨ts, hp, .last _ he⟩

theorem primary_written : ∀ (n : Nat) {c c' : Cursor} {e : Expr}, primary n c = .ok (e, c') →
    ∃ ts, c.Passes ts c' ∧ Written ts (.tree (.expr e))
  | 0, _, _, _, h => absurd h exhausted_ne
  | n + 1, c, c', e, h => by
    change (current >>= _) c = _ at h
    rw [current_bind] at h
    cases hk : c.current.kind with
    | literal value =>
      rw [hk] at h
      cases h
      exact ⟨_, .advance hk nofun, .literal value _⟩
    | name symbol =>
      rw [hk] at h
      dsimp only at h
      have hp := Cursor.Passes.advance hk nofun
      rw [advance_bind, get_bind, sees_bind] at h
      split at h
      · next hcond =>
        rw [Bool.and_eq_true, decide_eq_true_eq] at hcond
        have hq := Cursor.Passes.advance hcond.2 nofun
        rw [advance_bind] at h
        obtain ⟨args, c₁, ha, h⟩ := of_bind h
        obtain ⟨us, r, hr, hargs⟩ := arguments_written n ha
        rw [spanFrom_bind, hr.last_concat] at h
        cases h
        exact ⟨_, hp.trans (hq.trans hr), .construct hargs⟩
      · cases h
        exact ⟨_, hp, .name symbol _⟩
    | separator mark =>
      rw [hk] at h
      have hp := Cursor.Passes.advance hk nofun
      cases mark with
      | leftParen =>
        dsimp only at h
        rw [advance_bind] at h
        obtain ⟨inner, c₁, hb, h⟩ := of_bind h
        obtain ⟨ts, hq, hinner⟩ := binary_written n hb
        obtain ⟨hr, h⟩ := Cursor.Passes.of_expect h nofun
        rw [spanFrom_bind, (hq.trans hr).last_concat] at h
        cases h
        exact ⟨_, hp.trans (hq.trans hr), .paren hinner⟩
      | leftBracket =>
        dsimp only at h
        rw [advance_bind] at h
        obtain ⟨es, c₁, hi, h⟩ := of_bind h
        obtain ⟨ts, hq, hes⟩ := items_written n hi
        obtain ⟨hr, h⟩ := Cursor.Passes.of_expect h nofun
        rw [spanFrom_bind, (hq.trans hr).last_concat] at h
        cases h
        exact ⟨_, hp.trans (hq.trans hr), .array hes⟩
      | _ => exact absurd h (refuseCurrent_ne _)
    | _ =>
      rw [hk] at h
      exact absurd h (refuseCurrent_ne _)

end

theorem expression_written (n : Nat) {c c' : Cursor} {e : Expr}
    (h : expression n c = .ok (e, c')) : ∃ ts, c.Passes ts c' ∧ Written ts (.tree (.expr e)) :=
  binary_written n h

/-! ## Statements -/

section statements

variable {c c' : Cursor} {s : Stmt}

theorem simpleStatement_written (n : Nat) (h : simpleStatement n c = .ok (s, c')) :
    ∃ ts, c.Passes ts c' ∧ Written ts (.tree (.stmt s)) := by
  rw [simpleStatement, currentSpan_bind] at h
  obtain ⟨e, c₁, hx, h⟩ := of_bind h
  obtain ⟨ts, hp, he⟩ := expression_written n hx
  rw [current_bind] at h
  have hplain : (do
      expect (sep .semicolon)
      return .expression e (← spanFrom c.current.span) : Read Stmt) c₁ = .ok (s, c') →
      ∃ ts, c.Passes ts c' ∧ Written ts (.tree (.stmt s)) := by
    intro h
    obtain ⟨hq, h⟩ := Cursor.Passes.of_expect h nofun
    rw [spanFrom_bind, (hp.trans hq).extent_eq (by simp)] at h
    cases h
    exact ⟨_, hp.trans hq, .expression he rfl⟩
  cases hk : c₁.current.kind with
  | operator symbol =>
    rw [hk] at h
    dsimp only at h
    cases hop : symbol.assignment? with
    | none =>
      rw [hop] at h
      exact hplain h
    | some op =>
      rw [hop] at h
      dsimp only at h
      split at h
      · rw [advance_bind] at h
        have hq := Cursor.Passes.advance hk nofun
        obtain ⟨value, c₂, hx, h⟩ := of_bind h
        obtain ⟨us, hr, hvalue⟩ := expression_written n hx
        obtain ⟨ht, h⟩ := Cursor.Passes.of_expect h nofun
        have hall := hp.trans (hq.trans (hr.trans ht))
        rw [spanFrom_bind, hall.extent_eq (by simp)] at h
        cases h
        exact ⟨_, hall, .assign hop he hvalue rfl⟩
      · exact absurd h (refuse_ne _ _)
  | _ =>
    rw [hk] at h
    exact hplain h

theorem declaration_written (n : Nat) (h : declaration n c = .ok (s, c')) :
    ∃ ts, c.Passes ts c' ∧ Written ts (.tree (.stmt s)) := by
  rw [declaration, currentSpan_bind] at h
  obtain ⟨hp, h⟩ := Cursor.Passes.of_expect h nofun
  obtain ⟨name, hq, h⟩ := Cursor.Passes.of_expectName h
  obtain ⟨hr, h⟩ := Cursor.Passes.of_expect h nofun
  obtain ⟨initial, c₁, hx, h⟩ := of_bind h
  obtain ⟨ts, hs, hinitial⟩ := expression_written n hx
  obtain ⟨ht, h⟩ := Cursor.Passes.of_expect h nofun
  have hall := hp.trans (hq.trans (hr.trans (hs.trans ht)))
  rw [spanFrom_bind, hall.extent_eq (by simp)] at h
  cases h
  exact ⟨_, hall, .declare hinitial rfl⟩

theorem giveBack_written (n : Nat) (h : giveBack n c = .ok (s, c')) :
    ∃ ts, c.Passes ts c' ∧ Written ts (.tree (.stmt s)) := by
  rw [giveBack, currentSpan_bind] at h
  obtain ⟨hp, h⟩ := Cursor.Passes.of_expect h nofun
  rw [sees_bind] at h
  split at h
  · rw [pure_bind] at h
    obtain ⟨hq, h⟩ := Cursor.Passes.of_expect h nofun
    rw [spanFrom_bind, (hp.trans hq).extent_eq (by simp)] at h
    cases h
    exact ⟨_, hp.trans hq, .giveBack rfl⟩
  · rw [bind_map_left] at h
    obtain ⟨value, c₁, hx, h⟩ := of_bind h
    obtain ⟨ts, hq, hvalue⟩ := expression_written n hx
    obtain ⟨hr, h⟩ := Cursor.Passes.of_expect h nofun
    have hall := hp.trans (hq.trans hr)
    rw [spanFrom_bind, hall.extent_eq (by simp)] at h
    cases h
    exact ⟨_, hall, .giveBackValue hvalue rfl⟩

theorem jumpStatement_written {make : Span → Stmt} {word : Keyword}
    (hmake : ∀ s r, Written [⟨kw word, s⟩, ⟨sep .semicolon, r⟩] (.tree (.stmt (make s))))
    (hk : c.current.kind = kw word) (h : jumpStatement make c = .ok (s, c')) :
    ∃ ts, c.Passes ts c' ∧ Written ts (.tree (.stmt s)) := by
  rw [jumpStatement, currentSpan_bind, advance_bind] at h
  obtain ⟨hp, h⟩ := Cursor.Passes.of_expect h nofun
  cases h
  exact ⟨_, (Cursor.Passes.advance hk nofun).trans hp, hmake _ _⟩

end statements

mutual

theorem statement_written : ∀ (n : Nat) {c c' : Cursor} {s : Stmt}, statement n c = .ok (s, c') →
    ∃ ts, c.Passes ts c' ∧ Written ts (.tree (.stmt s))
  | 0, _, _, _, h => absurd h exhausted_ne
  | n + 1, c, c', s, h => by
    rw [statement, current_bind] at h
    cases hk : c.current.kind with
    | keyword word =>
      rw [hk] at h
      cases word with
      | let_ => exact declaration_written n h
      | if_ => exact branching_written n h
      | while_ =>
        dsimp only at h
        rw [advance_bind] at h
        have hp := Cursor.Passes.advance hk nofun
        obtain ⟨condition, c₁, hx, h⟩ := of_bind h
        obtain ⟨ts, hq, hcondition⟩ := expression_written n hx
        obtain ⟨body, c₂, hb, h⟩ := of_bind h
        obtain ⟨us, l, r, hr, hbody⟩ := block_written n hb
        have hall := hp.trans (hq.trans hr)
        rw [spanFrom_bind, hall.extent_eq (by simp)] at h
        cases h
        exact ⟨_, hall, .loop hcondition hbody rfl⟩
      | break_ => exact jumpStatement_written .exitLoop hk h
      | continue_ => exact jumpStatement_written .nextRound hk h
      | return_ => exact giveBack_written n h
      | func | type => exact absurd h (refuse_ne _ _)
      | _ => exact simpleStatement_written n h
    | separator mark =>
      rw [hk] at h
      cases mark with
      | leftBrace =>
        obtain ⟨body, c₁, hb, h⟩ := of_bind h
        obtain ⟨us, l, r, hp, hbody⟩ := block_written n hb
        rw [spanFrom_bind, hp.extent_eq (by simp)] at h
        cases h
        exact ⟨_, hp, .block hbody rfl⟩
      | _ => exact simpleStatement_written n h
    | _ =>
      rw [hk] at h
      exact simpleStatement_written n h

theorem block_written : ∀ (n : Nat) {c c' : Cursor} {body : List Stmt},
    block n c = .ok (body, c') → ∃ ts l r,
      c.Passes (⟨sep .leftBrace, l⟩ :: (ts ++ [⟨sep .rightBrace, r⟩])) c' ∧
      Written ts (.sequence (body.map .stmt))
  | 0, _, _, _, h => absurd h exhausted_ne
  | n + 1, _, _, _, h => by
    rw [block] at h
    obtain ⟨hp, h⟩ := Cursor.Passes.of_expect h nofun
    obtain ⟨body, c₁, hb, h⟩ := of_bind h
    obtain ⟨ts, hq, hbody⟩ := statements_written n hb
    obtain ⟨hr, h⟩ := Cursor.Passes.of_expect h nofun
    cases h
    exact ⟨ts, _, _, hp.trans (hq.trans hr), hbody⟩

theorem statements_written : ∀ (n : Nat) {c c' : Cursor} {body : List Stmt},
    statements n c = .ok (body, c') →
    ∃ ts, c.Passes ts c' ∧ Written ts (.sequence (body.map .stmt))
  | 0, _, _, _, h => absurd h exhausted_ne
  | n + 1, c, _, _, h => by
    rw [statements, sees_bind, sees_bind] at h
    split at h
    · cases h
      exact ⟨[], .refl c, .done⟩
    · obtain ⟨s, c₁, hs, h⟩ := of_bind h
      obtain ⟨ts, hp, hfirst⟩ := statement_written n hs
      obtain ⟨body, c₂, hb, h⟩ := of_bind h
      obtain ⟨us, hq, hbody⟩ := statements_written n hb
      cases h
      exact ⟨_, hp.trans hq, .next hfirst hbody⟩

theorem branching_written : ∀ (n : Nat) {c c' : Cursor} {s : Stmt}, branching n c = .ok (s, c') →
    ∃ ts, c.Passes ts c' ∧ Written ts (.tree (.stmt s))
  | 0, _, _, _, h => absurd h exhausted_ne
  | n + 1, c, _, _, h => by
    rw [branching, currentSpan_bind] at h
    obtain ⟨hp, h⟩ := Cursor.Passes.of_expect h nofun
    obtain ⟨first, c₁, ha, h⟩ := of_bind h
    obtain ⟨ts, hq, hfirst⟩ := arm_written n hp (.inl rfl) ha
    obtain ⟨more, c₂, hm, h⟩ := of_bind h
    obtain ⟨us, hr, hmore⟩ := elifArms_written n hm
    rcases Cursor.Passes.of_accept h nofun with ⟨hs, h⟩ | h
    · obtain ⟨other, c₃, hb, h⟩ := of_bind h
      obtain ⟨vs, l, r, ht, hother⟩ := block_written n hb
      have hall := (hq.trans hr).trans (hs.trans ht)
      rw [spanFrom_bind, hall.extent_eq (by simp)] at h
      cases h
      exact ⟨_, hall, .branchElse (.next hfirst hmore) hother rfl⟩
    · have hall := hq.trans hr
      rw [spanFrom_bind, hall.extent_eq (by simp)] at h
      cases h
      exact ⟨_, hall, .branch (by simp) (.next hfirst hmore)⟩

theorem arm_written : ∀ (n : Nat) {word : Keyword} {c₀ c c' : Cursor} {arm : Arm Stmt},
    c₀.Passes [⟨kw word, c₀.current.span⟩] c → word = .if_ ∨ word = .elif →
    Program.arm n c₀.current.span c = .ok (arm, c') →
    ∃ ts, c₀.Passes (⟨kw word, c₀.current.span⟩ :: ts) c' ∧
      Written (⟨kw word, c₀.current.span⟩ :: ts) (.tree (.arm arm))
  | 0, _, _, _, _, _, _, _, h => absurd h exhausted_ne
  | n + 1, _, _, _, _, _, hp, hword, h => by
    rw [Program.arm] at h
    obtain ⟨condition, c₁, hx, h⟩ := of_bind h
    obtain ⟨us, hq, hcondition⟩ := expression_written n hx
    obtain ⟨body, c₂, hb, h⟩ := of_bind h
    obtain ⟨vs, l, r, hr, hbody⟩ := block_written n hb
    have hall := hp.trans (hq.trans hr)
    rw [spanFrom_bind, hall.extent_eq (by simp)] at h
    cases h
    exact ⟨_, hall, .arm hword hcondition hbody rfl⟩

theorem elifArms_written : ∀ (n : Nat) {c c' : Cursor} {arms : List (Arm Stmt)},
    elifArms n c = .ok (arms, c') →
    ∃ ts, c.Passes ts c' ∧ Written ts (.sequence (arms.map .arm))
  | 0, _, _, _, h => absurd h exhausted_ne
  | n + 1, c, _, _, h => by
    rw [elifArms, currentSpan_bind] at h
    rcases Cursor.Passes.of_accept h nofun with ⟨hp, h⟩ | h
    · obtain ⟨first, c₁, ha, h⟩ := of_bind h
      obtain ⟨ts, hq, hfirst⟩ := arm_written n hp (.inr rfl) ha
      obtain ⟨more, c₂, hm, h⟩ := of_bind h
      obtain ⟨us, hr, hmore⟩ := elifArms_written n hm
      cases h
      exact ⟨_, hq.trans hr, .next hfirst hmore⟩
    · cases h
      exact ⟨[], .refl c, .done⟩

end

/-! ## Declarations -/

section declarations

variable {c c' : Cursor}

theorem readAnnotation_written {kind : Annotation} (h : readAnnotation c = .ok (kind, c')) :
    ∃ k s, c.Passes [⟨.name k, s⟩] c' := by
  unfold readAnnotation at h
  obtain ⟨k, hp, h⟩ := Cursor.Passes.of_expectName h
  cases h
  exact ⟨k, _, hp⟩

theorem readBinder_written {b : Binder} (h : readBinder c = .ok (b, c')) :
    ∃ ts, c.Passes ts c' ∧ Written ts (.tree (.binder b)) := by
  rw [readBinder, currentSpan_bind] at h
  obtain ⟨name, hp, h⟩ := Cursor.Passes.of_expectName h
  obtain ⟨kind, c₁, hk, h⟩ := of_bind h
  cases h
  unfold readOptionalAnnotation at hk
  rcases Cursor.Passes.of_accept hk nofun with ⟨hq, hk⟩ | hk
  · obtain ⟨k, s, hr⟩ := readAnnotation_written hk
    exact ⟨_, hp.trans (hq.trans hr), .binder (.inr ⟨k, _, s, rfl⟩)⟩
  · cases hk
    exact ⟨_, hp, .binder (.inl rfl)⟩

theorem readParams_written : ∀ (n : Nat) {c c' : Cursor} {bs : List Binder},
    readParams n c = .ok (bs, c') →
    ∃ ts, c.Passes ts c' ∧ Written ts (.listed [.comma] (bs.map .binder))
  | 0, _, _, _, h => absurd h exhausted_ne
  | n + 1, _, _, _, h => by
    rw [readParams] at h
    obtain ⟨b, c₁, hb, h⟩ := of_bind h
    obtain ⟨ts, hp, hbinder⟩ := readBinder_written hb
    rcases Cursor.Passes.of_accept h nofun with ⟨hq, h⟩ | h
    · obtain ⟨bs, c₂, hrest, h⟩ := of_bind h
      obtain ⟨us, hr, hbs⟩ := readParams_written n hrest
      cases h
      exact ⟨_, hp.trans (hq.trans hr), .more (List.mem_singleton_self _) hbinder hbs⟩
    · cases h
      exact ⟨ts, hp, .last _ hbinder⟩

theorem readFields_written : ∀ (n : Nat) {c c' : Cursor} {bs : List Binder},
    readFields n c = .ok (bs, c') →
    ∃ ts, c.Passes ts c' ∧ Written ts (.listed [.comma, .semicolon] (bs.map .binder))
  | 0, _, _, _, h => absurd h exhausted_ne
  | n + 1, c, c', bs, h => by
    rw [readFields, sees_bind, sees_bind] at h
    split at h
    · cases h
      exact ⟨[], .refl c, .unlisted _⟩
    · obtain ⟨b, c₁, hb, h⟩ := of_bind h
      obtain ⟨ts, hp, hbinder⟩ := readBinder_written hb
      -- A comma and a semicolon are gone on from alike.
      have hmore : ∀ {mark : Separator} {c₂ : Cursor}, mark ∈ [Separator.comma, .semicolon] →
          c₁.Passes [⟨sep mark, c₁.current.span⟩] c₂ →
          (do return b :: (← readFields n) : Read (List Binder)) c₂ = .ok (bs, c') →
          ∃ ts, c.Passes ts c' ∧ Written ts (.listed [.comma, .semicolon] (bs.map .binder)) := by
        intro mark c₂ hmark hq h
        obtain ⟨rest, c₃, hrest, h⟩ := of_bind h
        obtain ⟨us, hr, hbs⟩ := readFields_written n hrest
        cases h
        exact ⟨_, hp.trans (hq.trans hr), .more hmark hbinder hbs⟩
      rcases Cursor.Passes.of_accept h nofun with ⟨hq, h⟩ | h
      · exact hmore (by simp) hq h
      rcases Cursor.Passes.of_accept h nofun with ⟨hq, h⟩ | h
      · exact hmore (by simp) hq h
      cases h
      exact ⟨ts, hp, .last _ hbinder⟩

theorem readParamList_written (n : Nat) {bs : List Binder} (h : readParamList n c = .ok (bs, c')) :
    ∃ ts, c.Passes ts c' ∧ Written ts (.listed [.comma] (bs.map .binder)) := by
  rw [readParamList, sees_bind] at h
  split at h
  · cases h
    exact ⟨[], .refl c, .unlisted _⟩
  · exact readParams_written n h

theorem readResult_written {result : Option Annotation} (h : readResult c = .ok (result, c')) :
    ∃ ts, c.Passes ts c' ∧ (ts = [] ∨ ∃ k s₁ s₂, ts = [⟨.arrow, s₁⟩, ⟨.name k, s₂⟩]) := by
  rw [readResult] at h
  rcases Cursor.Passes.of_accept h (fun hk => by cases hk) with ⟨hp, h⟩ | h
  · obtain ⟨kind, c₁, hk, h⟩ := of_bind h
    obtain ⟨k, s, hq⟩ := readAnnotation_written hk
    cases h
    exact ⟨_, hp.trans hq, .inr ⟨k, _, s, rfl⟩⟩
  · cases h
    exact ⟨[], .refl c, .inl rfl⟩

theorem functionDeclaration_written (n : Nat) {s : Stmt}
    (h : functionDeclaration n c = .ok (s, c')) :
    ∃ ts, c.Passes ts c' ∧ Written ts (.tree (.stmt s)) := by
  rw [functionDeclaration_eq, currentSpan_bind] at h
  obtain ⟨hp, h⟩ := Cursor.Passes.of_expect h nofun
  obtain ⟨name, hq, h⟩ := Cursor.Passes.of_expectName h
  obtain ⟨hr, h⟩ := Cursor.Passes.of_expect h nofun
  obtain ⟨params, c₁, hx, h⟩ := of_bind h
  obtain ⟨us, hs, hparams⟩ := readParamList_written n hx
  obtain ⟨ht, h⟩ := Cursor.Passes.of_expect h nofun
  obtain ⟨result, c₂, hx, h⟩ := of_bind h
  obtain ⟨rs, hu, hresult⟩ := readResult_written hx
  obtain ⟨body, c₃, hb, h⟩ := of_bind h
  obtain ⟨vs, l, r, hv, hbody⟩ := block_written n hb
  have hall := hp.trans (hq.trans (hr.trans (hs.trans (ht.trans (hu.trans hv)))))
  rw [spanFrom_bind, hall.extent_eq (by simp)] at h
  cases h
  exact ⟨_, hall, .function hparams hresult hbody rfl⟩

theorem typeDeclaration_written (n : Nat) {s : Stmt} (h : typeDeclaration n c = .ok (s, c')) :
    ∃ ts, c.Passes ts c' ∧ Written ts (.tree (.stmt s)) := by
  rw [typeDeclaration, currentSpan_bind] at h
  obtain ⟨hp, h⟩ := Cursor.Passes.of_expect h nofun
  obtain ⟨name, hq, h⟩ := Cursor.Passes.of_expectName h
  rw [declareType_bind] at h
  have hr := Cursor.Passes.declareType c.advance.advance (name :: c.advance.advance.types)
  obtain ⟨hs, h⟩ := Cursor.Passes.of_expect h nofun
  obtain ⟨fields, c₁, hx, h⟩ := of_bind h
  obtain ⟨us, ht, hfields⟩ := readFields_written n hx
  obtain ⟨hu, h⟩ := Cursor.Passes.of_expect h nofun
  have hall := hp.trans (hq.trans (hr.trans (hs.trans (ht.trans hu))))
  rw [spanFrom_bind, hall.extent_eq (by simp)] at h
  cases h
  exact ⟨_, hall, .type hfields rfl⟩

theorem topLevel_written (n : Nat) {s : Stmt} (h : topLevel n c = .ok (s, c')) :
    ∃ ts, c.Passes ts c' ∧ Written ts (.tree (.stmt s)) := by
  rw [topLevel, current_bind] at h
  cases hk : c.current.kind with
  | keyword word =>
    rw [hk] at h
    cases word with
    | func => exact functionDeclaration_written n h
    | type => exact typeDeclaration_written n h
    | _ => exact statement_written n h
  | _ =>
    rw [hk] at h
    exact statement_written n h

/-- Everything is read up to the end of the file. -/
theorem topLevels_written : ∀ (n : Nat) {c c' : Cursor} {body : List Stmt},
    topLevels n c = .ok (body, c') →
    ∃ ts, c.Passes ts c' ∧ c'.current.kind = .endOfFile ∧ Written ts (.sequence (body.map .stmt))
  | 0, _, _, _, h => absurd h exhausted_ne
  | n + 1, c, _, _, h => by
    rw [topLevels, sees_bind] at h
    split at h
    · next hend =>
      cases h
      exact ⟨[], .refl c, of_decide_eq_true hend, .done⟩
    · obtain ⟨s, c₁, hs, h⟩ := of_bind h
      obtain ⟨ts, hp, hfirst⟩ := topLevel_written n hs
      obtain ⟨body, c₂, hb, h⟩ := of_bind h
      obtain ⟨us, hq, hend, hbody⟩ := topLevels_written n hb
      cases h
      exact ⟨_, hp.trans hq, hend, .next hfirst hbody⟩

end declarations

end Scriptlet.Program
