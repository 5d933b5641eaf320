import Scriptlet.Proofs.Reading.Actions

/-!
# What is read is spelled

For each reading function, by recursion on its steps: where it succeeds, the tokens that it has
passed spell what it gives. `topLevels_sound` is the whole.

The reader goes on with an operand for as long as it can, so more is carried along than the grammar
says: an expression of a level is not followed by an operator of that level (`binary_sound`), and a
primary expression that a parenthesis follows is not the name of a type (`primary_sound`).
-/

namespace Scriptlet

/-- A token that is no binary operator of a level or a tighter one. -/
def Program.Below (l : Nat) (k : Token.Kind Symbol) : Prop :=
  ∀ symbol op, k = .operator symbol → symbol.binary? = some op → op.level < l

theorem BinaryOp.level_le (op : BinaryOp) : op.level ≤ 9 := by
  cases op <;> decide

theorem Program.below_eleven (k : Token.Kind Symbol) : Below 11 k := fun _ op _ _ => by
  have := op.level_le
  omega

/-- What binds tightly is in all looser levels. -/
theorem Grammar.Expression.loosen {types : List Symbol} {l m : Nat} {ks : Kinds} {a : Expr}
    (h : Expression types (.level m) ks a) (hl : l ≤ m) (hm : m ≤ 10) :
    Expression types (.level l) ks a := by
  obtain ⟨d, rfl⟩ := Nat.exists_eq_add_of_le hl
  induction d with
  | zero => exact h
  | succ d ih => exact ih (.tighter (by omega) h) (by omega) (by omega)

namespace Program

open Grammar Read

mutual

/-- An expression is read up to a token that does not go on with it. -/
theorem binary_sound {pool : Pool} {types : List Symbol} : ∀ (n : Nat) {l : Nat} {c c' : Cursor}
    {ks : Kinds} {e : Expr}, c.At pool types ks → binary n l c = .ok (e, c') → l ≤ 10 →
    ∃ ks₁ ks₂, ks = ks₁ ++ ks₂ ∧ c'.At pool types ks₂ ∧ Expression types (.level l) ks₁ e.bare ∧
      Below l (next ks₂)
  | 0, _, _, _, _, _, _, h, _ => absurd h exhausted_ne
  | n + 1, _, _, _, _, _, hc, h, hl => by
    rw [binary] at h
    obtain ⟨left, c₁, hu, h⟩ := of_bind h
    obtain ⟨ks₁, ks₂, rfl, hat, hleft⟩ := unary_sound n hc hu
    obtain ⟨ks₃, ks₄, rfl, hat, he, hbelow⟩ :=
      binaryRest_sound n hat h hl (Nat.le_refl _) hleft.operand (below_eleven _)
    exact ⟨ks₁ ++ ks₃, ks₄, (List.append_assoc _ _ _).symm, hat, he, hbelow⟩

/-- The left operand is in a level `m` that the next operator does not bind tighter than. So it is
in the level of that operator, and is its left operand. -/
theorem binaryRest_sound {pool : Pool} {types : List Symbol} : ∀ (n : Nat) {l m : Nat}
    {c c' : Cursor} {ks ks₀ : Kinds} {left e : Expr}, c.At pool types ks →
    binaryRest n l left c = .ok (e, c') →
    l ≤ m → m ≤ 10 → Expression types (.level m) ks₀ left.bare → Below (m + 1) (next ks) →
    ∃ ks₁ ks₂, ks = ks₁ ++ ks₂ ∧ c'.At pool types ks₂ ∧
      Expression types (.level l) (ks₀ ++ ks₁) e.bare ∧ Below l (next ks₂)
  | 0, _, _, _, _, _, _, _, _, _, h, _, _, _, _ => absurd h exhausted_ne
  | n + 1, l, m, c, c', ks, ks₀, left, e, hc, h, hlm, hm, hleft, hnext => by
    have hdone : (pure left : Read Expr) c = .ok (e, c') → Below l (next ks) →
        ∃ ks₁ ks₂, ks = ks₁ ++ ks₂ ∧ c'.At pool types ks₂ ∧
          Expression types (.level l) (ks₀ ++ ks₁) e.bare ∧ Below l (next ks₂) := by
      intro h hbelow
      cases h
      exact ⟨[], ks, rfl, hc, by rw [List.append_nil]; exact hleft.loosen hlm hm, hbelow⟩
    have hcur := hc.current
    rw [binaryRest, current_bind, hcur] at h
    cases hk : next ks with
    | operator symbol =>
      rw [hk] at h hcur
      dsimp only at h
      cases hb : symbol.binary? with
      | none =>
        rw [hb] at h
        refine hdone h fun s op hs hop => ?_
        cases hk.symm.trans hs
        rw [hb] at hop
        cases hop
      | some op =>
        rw [hb] at h
        dsimp only at h
        split at h
        · next hlt =>
          refine hdone h fun s op' hs hop => ?_
          cases hk.symm.trans hs
          cases hb.symm.trans hop
          exact hlt
        · next hge =>
          have hop := hnext symbol op hk hb
          obtain ⟨ks', rfl, hat⟩ := hc.of_current hcur nofun
          rw [advance_bind] at h
          obtain ⟨right, c₁, hright, h⟩ := of_bind h
          have hlevel := op.level_le
          obtain ⟨ks₁, ks₂, rfl, hat, hr, hbelow⟩ := binary_sound n hat hright (by omega)
          obtain ⟨ks₃, ks₄, rfl, hat, he, hbelow⟩ := binaryRest_sound n hat h (by omega) (by omega)
            (.binary (mem_operators.2 ⟨hb, rfl⟩) (hleft.loosen (by omega) hm) hr) hbelow
          refine ⟨.operator symbol :: (ks₁ ++ ks₃), ks₄, ?_, hat, ?_, hbelow⟩
          · simp only [List.cons_append, List.append_assoc]
          · simpa only [List.cons_append, List.append_assoc] using he
    | _ =>
      rw [hk] at h
      exact hdone h fun symbol op hs => by rw [hk] at hs; cases hs

theorem unary_sound {pool : Pool} {types : List Symbol} : ∀ (n : Nat) {c c' : Cursor}
    {ks : Kinds} {e : Expr}, c.At pool types ks → unary n c = .ok (e, c') →
    c'.Past pool types ks (Expression types .signed · e.bare)
  | 0, _, _, _, _, _, h => absurd h exhausted_ne
  | n + 1, c, c', ks, e, hc, h => by
    have hchain : chain n c = .ok (e, c') →
        c'.Past pool types ks (Expression types .signed · e.bare) := by
      intro h
      obtain ⟨ks₁, ks₂, hks, hat, he⟩ := chain_sound n hc h
      exact ⟨ks₁, ks₂, hks, hat, .unsigned he⟩
    have hcur := hc.current
    rw [unary, current_bind, hcur] at h
    cases hk : next ks with
    | operator symbol =>
      rw [hk] at h hcur
      dsimp only at h
      cases hu : symbol.unary? with
      | none =>
        rw [hu] at h
        exact hchain h
      | some op =>
        rw [hu] at h
        dsimp only at h
        obtain ⟨ks', rfl, hat⟩ := hc.of_current hcur nofun
        rw [advance_bind] at h
        obtain ⟨operand, c₁, ho, h⟩ := of_bind h
        obtain ⟨ks₁, ks₂, rfl, hat, hoperand⟩ := unary_sound n hat ho
        cases h
        exact ⟨.operator symbol :: ks₁, ks₂, rfl, hat, .sign (mem_signs.2 hu) hoperand⟩
    | _ =>
      rw [hk] at h
      exact hchain h

theorem chain_sound {pool : Pool} {types : List Symbol} : ∀ (n : Nat) {c c' : Cursor}
    {ks : Kinds} {e : Expr}, c.At pool types ks → chain n c = .ok (e, c') →
    c'.Past pool types ks (Expression types .chain · e.bare)
  | 0, _, _, _, _, _, h => absurd h exhausted_ne
  | n + 1, _, _, _, _, hc, h => by
    rw [chain] at h
    obtain ⟨first, c₁, hp, h⟩ := of_bind h
    obtain ⟨ks₁, ks₂, rfl, hat, hfirst, hcalled⟩ := primary_sound n hc hp
    obtain ⟨ks₃, ks₄, rfl, hat, he⟩ := chainRest_sound n hat h (.alone hfirst) hcalled
    exact ⟨ks₁ ++ ks₃, ks₄, (List.append_assoc _ _ _).symm, hat, he⟩

/-- Suffixes are read as long as there are any. What stands in front of a parenthesis is called. -/
theorem chainRest_sound {pool : Pool} {types : List Symbol} : ∀ (n : Nat) {c c' : Cursor}
    {ks ks₀ : Kinds} {object e : Expr}, c.At pool types ks → chainRest n object c = .ok (e, c') →
    Expression types .chain ks₀ object.bare → (next ks = sep .leftParen → Called types ks₀) →
    c'.Past pool types ks fun ks₁ => Expression types .chain (ks₀ ++ ks₁) e.bare
  | 0, _, _, _, _, _, _, _, h, _, _ => absurd h exhausted_ne
  | n + 1, c, c', ks, ks₀, object, e, hc, h, hobject, hcalled => by
    have hgo : ∀ {c₁ : Cursor} {suffix ks' : Kinds} {object' : Expr},
        chainRest n object' c₁ = .ok (e, c') → c₁.At pool types ks' → ks = suffix ++ ks' →
        Expression types .chain (ks₀ ++ suffix) object'.bare →
        (next ks' = sep .leftParen → Called types (ks₀ ++ suffix)) →
        c'.Past pool types ks fun ks₁ => Expression types .chain (ks₀ ++ ks₁) e.bare := by
      intro c₁ suffix ks' object' h hat hks hobject' hcalled'
      obtain ⟨ks₁, ks₂, rfl, hat, he⟩ := chainRest_sound n hat h hobject' hcalled'
      refine ⟨suffix ++ ks₁, ks₂, ?_, hat, ?_⟩
      · rw [hks, List.append_assoc]
      · dsimp only
        rwa [← List.append_assoc]
    rw [chainRest] at h
    rcases hc.of_accept h nofun with ⟨ks', rfl, hat, h⟩ | ⟨-, h⟩
    · obtain ⟨args, c₁, ha, h⟩ := of_bind h
      obtain ⟨as, ks₂, rfl, hat, has⟩ := arguments_sound n hat ha
      rw [spanFrom_bind] at h
      exact hgo h hat (by simp) (.call hobject (hcalled rfl) has) fun _ =>
        .of_getLast? (k := sep .rightParen) (by simp [List.getLast?_cons]) nofun
    rcases hc.of_accept h nofun with ⟨ks', rfl, hat, h⟩ | ⟨-, h⟩
    · obtain ⟨index, c₁, hi, h⟩ := of_bind h
      obtain ⟨is, ks₂, rfl, hat, hindex, -⟩ := binary_sound n hat hi (by omega)
      obtain ⟨ks₃, rfl, hat, h⟩ := hat.of_expect h nofun
      rw [spanFrom_bind] at h
      exact hgo h hat (by simp) (.index hobject hindex) fun _ =>
        .of_getLast? (k := sep .rightBracket) (by simp [List.getLast?_cons]) nofun
    rcases hc.of_accept h nofun with ⟨ks', rfl, hat, h⟩ | ⟨-, h⟩
    · obtain ⟨name, ks₂, rfl, hat, h⟩ := hat.of_expectName h
      rcases hat.of_accept h nofun with ⟨ks₃, rfl, hat, h⟩ | ⟨hparen, h⟩
      · obtain ⟨args, c₁, ha, h⟩ := of_bind h
        obtain ⟨as, ks₄, rfl, hat, has⟩ := arguments_sound n hat ha
        rw [spanFrom_bind] at h
        exact hgo h hat (by simp) (.methodCall hobject name has) fun _ =>
          .of_getLast? (k := sep .rightParen) (by simp [List.getLast?_cons]) nofun
      · rw [spanFrom_bind] at h
        exact hgo h hat (by simp) (.field hobject name) fun hnext => absurd hnext hparen
    · cases h
      refine ⟨[], ks, rfl, hc, ?_⟩
      dsimp only
      rwa [List.append_nil]

/-- Arguments are read with the parenthesis that closes them. -/
theorem arguments_sound {pool : Pool} {types : List Symbol} : ∀ (n : Nat) {c c' : Cursor}
    {ks : Kinds} {es : List Expr}, c.At pool types ks → arguments n c = .ok (es, c') →
    ∃ ks₁ ks₂, ks = ks₁ ++ sep .rightParen :: ks₂ ∧ c'.At pool types ks₂ ∧
      Expression types .arguments ks₁ (Expr.bareAll es)
  | 0, _, _, _, _, _, h => absurd h exhausted_ne
  | n + 1, _, _, _, _, hc, h => by
    rw [arguments, sees_bind] at h
    split at h
    · next hclose =>
      obtain ⟨ks', rfl, hat⟩ := hc.of_current (of_decide_eq_true hclose) nofun
      cases h
      exact ⟨[], ks', rfl, hat, .noArguments⟩
    · obtain ⟨args, c₁, ha, h⟩ := of_bind h
      obtain ⟨ks₁, ks₂, rfl, hat, hargs⟩ := argumentList_sound n hc ha
      obtain ⟨ks₃, rfl, hat, h⟩ := hat.of_expect h nofun
      cases h
      exact ⟨ks₁, ks₃, rfl, hat, .someArguments hargs⟩

theorem argumentList_sound {pool : Pool} {types : List Symbol} : ∀ (n : Nat) {c c' : Cursor}
    {ks : Kinds} {es : List Expr}, c.At pool types ks → argumentList n c = .ok (es, c') →
    c'.Past pool types ks (Expression types .argumentList · (Expr.bareAll es))
  | 0, _, _, _, _, _, h => absurd h exhausted_ne
  | n + 1, _, _, _, _, hc, h => by
    rw [argumentList] at h
    obtain ⟨e, c₁, hb, h⟩ := of_bind h
    obtain ⟨ks₁, ks₂, rfl, hat, he, -⟩ := binary_sound n hc hb (by omega)
    rcases hat.of_accept h nofun with ⟨ks₃, rfl, hat, h⟩ | ⟨-, h⟩
    · obtain ⟨es, c₂, hrest, h⟩ := of_bind h
      obtain ⟨ks₄, ks₅, rfl, hat, hes⟩ := argumentList_sound n hat hrest
      cases h
      exact ⟨ks₁ ++ sep .comma :: ks₄, ks₅, by simp, hat, .moreArguments he hes⟩
    · cases h
      exact ⟨ks₁, ks₂, rfl, hat, .lastArgument he⟩

theorem items_sound {pool : Pool} {types : List Symbol} : ∀ (n : Nat) {c c' : Cursor}
    {ks : Kinds} {es : List Expr}, c.At pool types ks → items n c = .ok (es, c') →
    c'.Past pool types ks (Expression types .items · (Expr.bareAll es))
  | 0, _, _, _, _, _, h => absurd h exhausted_ne
  | n + 1, _, _, ks, _, hc, h => by
    rw [items, sees_bind] at h
    split at h
    · cases h
      exact ⟨[], ks, rfl, hc, .noItems⟩
    · obtain ⟨e, c₁, hb, h⟩ := of_bind h
      obtain ⟨ks₁, ks₂, rfl, hat, he, -⟩ := binary_sound n hc hb (by omega)
      rcases hat.of_accept h nofun with ⟨ks₃, rfl, hat, h⟩ | ⟨-, h⟩
      · obtain ⟨es, c₂, hrest, h⟩ := of_bind h
        obtain ⟨ks₄, ks₅, rfl, hat, hes⟩ := items_sound n hat hrest
        cases h
        exact ⟨ks₁ ++ sep .comma :: ks₄, ks₅, by simp, hat, .moreItems he hes⟩
      · cases h
        exact ⟨ks₁, ks₂, rfl, hat, .lastItem he⟩

/-- The name of a type is not read alone where a parenthesis follows. -/
theorem primary_sound {pool : Pool} {types : List Symbol} : ∀ (n : Nat) {c c' : Cursor}
    {ks : Kinds} {e : Expr}, c.At pool types ks → primary n c = .ok (e, c') →
    ∃ ks₁ ks₂, ks = ks₁ ++ ks₂ ∧ c'.At pool types ks₂ ∧ Expression types .primary ks₁ e.bare ∧
      (next ks₂ = sep .leftParen → Called types ks₁)
  | 0, _, _, _, _, _, h => absurd h exhausted_ne
  | n + 1, c, c', ks, e, hc, h => by
    have hcur := hc.current
    change (current >>= _) c = _ at h
    rw [current_bind, hcur] at h
    cases hk : next ks with
    | literal value =>
      rw [hk] at h hcur
      obtain ⟨ks', rfl, hat⟩ := hc.of_current hcur nofun
      cases h
      exact ⟨[.literal value], ks', rfl, hat, .literal value, fun _ => .of_getLast? rfl nofun⟩
    | name symbol =>
      rw [hk] at h hcur
      obtain ⟨ks', rfl, hat⟩ := hc.of_current hcur nofun
      dsimp only at h
      rw [advance_bind, get_bind, sees_bind, hat.types, hat.current] at h
      split at h
      · next hcond =>
        rw [Bool.and_eq_true, List.contains_iff_mem, decide_eq_true_eq] at hcond
        obtain ⟨ks₂, rfl, hopen⟩ := hat.of_current (hat.current.trans hcond.2) nofun
        rw [advance_bind] at h
        obtain ⟨args, c₁, ha, h⟩ := of_bind h
        obtain ⟨as, ks₃, rfl, hat, hargs⟩ := arguments_sound n hopen ha
        cases h
        exact ⟨_, ks₃, by simp, hat, .construct hcond.1 hargs, fun _ =>
          .of_getLast? (k := sep .rightParen) (by simp [List.getLast?_cons]) nofun⟩
      · next hcond =>
        cases h
        refine ⟨[.name symbol], ks', rfl, hat, .name symbol, fun hparen => ⟨?_, ?_⟩⟩
        · intro t ht hname
          cases hname
          rw [Bool.and_eq_true, List.contains_iff_mem, decide_eq_true_eq] at hcond
          exact hcond ⟨ht, hparen⟩
        · intro ks₁ n hks
          have := congrArg List.length hks
          simp only [List.length_append, List.length_cons, List.length_nil] at this
          omega
    | separator mark =>
      rw [hk] at h hcur
      obtain ⟨ks', rfl, hat⟩ := hc.of_current hcur nofun
      cases mark with
      | leftParen =>
        dsimp only at h
        rw [advance_bind] at h
        obtain ⟨inner, c₁, hb, h⟩ := of_bind h
        obtain ⟨ks₁, ks₂, rfl, hat, hinner, -⟩ := binary_sound n hat hb (by omega)
        obtain ⟨ks₃, rfl, hat, h⟩ := hat.of_expect h nofun
        cases h
        refine ⟨sep .leftParen :: (ks₁ ++ [sep .rightParen]), ks₃, by simp [sep], hat, ?_, fun _ =>
          .of_getLast? (k := sep .rightParen) (by simp [List.getLast?_cons]) nofun⟩
        rw [Expr.bare_withSpan]
        exact .paren hinner
      | leftBracket =>
        dsimp only at h
        rw [advance_bind] at h
        obtain ⟨es, c₁, hi, h⟩ := of_bind h
        obtain ⟨ks₁, ks₂, rfl, hat, hes⟩ := items_sound n hat hi
        obtain ⟨ks₃, rfl, hat, h⟩ := hat.of_expect h nofun
        cases h
        exact ⟨_, ks₃, by simp [sep], hat, .array hes, fun _ =>
          .of_getLast? (k := sep .rightBracket) (by simp [List.getLast?_cons]) nofun⟩
      | _ => exact absurd h (refuseCurrent_ne _)
    | _ =>
      rw [hk] at h
      exact absurd h (refuseCurrent_ne _)

end

section statements

variable {pool : Pool} {types : List Symbol} {c c' : Cursor} {ks : Kinds}

theorem expression_sound (n : Nat) {e : Expr} (hc : c.At pool types ks)
    (h : expression n c = .ok (e, c')) :
    c'.Past pool types ks (Expression types (.level 1) · e.bare) := by
  obtain ⟨ks₁, ks₂, hks, hat, he, -⟩ := binary_sound n hc h (by omega)
  exact ⟨ks₁, ks₂, hks, hat, he⟩

theorem simpleStatement_sound (n : Nat) {s : Stmt} (hc : c.At pool types ks)
    (h : simpleStatement n c = .ok (s, c')) :
    c'.Past pool types ks (Statement types .statement · s.bare) := by
  rw [simpleStatement, currentSpan_bind] at h
  obtain ⟨e, c₁, hx, h⟩ := of_bind h
  obtain ⟨ks₁, ks₂, rfl, hat, he⟩ := expression_sound n hc hx
  rw [current_bind, hat.current] at h
  have hplain : (do
      expect (sep .semicolon)
      return .expression e (← spanFrom c.current.span) : Read Stmt) c₁ = .ok (s, c') →
      c'.Past pool types (ks₁ ++ ks₂) (Statement types .statement · s.bare) := by
    intro h
    obtain ⟨ks₃, rfl, hat, h⟩ := hat.of_expect h nofun
    cases h
    exact ⟨ks₁ ++ [sep .semicolon], ks₃, by simp, hat, .expression he⟩
  cases hk : next ks₂ with
  | operator symbol =>
    rw [hk] at h
    dsimp only at h
    cases hop : symbol.assignment? with
    | none =>
      rw [hop] at h
      exact hplain h
    | some op =>
      rw [hop] at h
      dsimp only at h
      split at h
      · next hplace =>
        rw [advance_bind] at h
        obtain ⟨ks₃, rfl, hafter⟩ := hat.of_current (hat.current.trans hk) nofun
        obtain ⟨value, c₂, hx, h⟩ := of_bind h
        obtain ⟨ks₄, ks₅, rfl, hat, hvalue⟩ := expression_sound n hafter hx
        obtain ⟨ks₆, rfl, hat, h⟩ := hat.of_expect h nofun
        cases h
        exact ⟨_, ks₆, by simp, hat,
          .assign he (place_bare.2 hplace) (mem_assignments.2 hop) hvalue⟩
      · exact absurd h (refuse_ne _ _)
  | _ =>
    rw [hk] at h
    exact hplain h

theorem declaration_sound (n : Nat) {s : Stmt} (hc : c.At pool types ks)
    (h : declaration n c = .ok (s, c')) :
    c'.Past pool types ks (Statement types .statement · s.bare) := by
  rw [declaration, currentSpan_bind] at h
  obtain ⟨ks₁, rfl, hat, h⟩ := hc.of_expect h nofun
  obtain ⟨name, ks₂, rfl, hat, h⟩ := hat.of_expectName h
  obtain ⟨ks₃, rfl, hat, h⟩ := hat.of_expect h nofun
  obtain ⟨initial, c₁, hx, h⟩ := of_bind h
  obtain ⟨ks₄, ks₅, rfl, hat, hinitial⟩ := expression_sound n hat hx
  obtain ⟨ks₆, rfl, hat, h⟩ := hat.of_expect h nofun
  cases h
  exact ⟨_, ks₆, by simp, hat, .declare name hinitial⟩

theorem giveBack_sound (n : Nat) {s : Stmt} (hc : c.At pool types ks)
    (h : giveBack n c = .ok (s, c')) :
    c'.Past pool types ks (Statement types .statement · s.bare) := by
  rw [giveBack, currentSpan_bind] at h
  obtain ⟨ks₁, rfl, hat, h⟩ := hc.of_expect h nofun
  rw [sees_bind] at h
  split at h
  · rw [pure_bind] at h
    obtain ⟨ks₂, rfl, hat, h⟩ := hat.of_expect h nofun
    cases h
    exact ⟨[kw .return_, sep .semicolon], ks₂, rfl, hat, .giveBack⟩
  · rw [bind_map_left] at h
    obtain ⟨value, c₁, hx, h⟩ := of_bind h
    obtain ⟨ks₂, ks₃, rfl, hat, hvalue⟩ := expression_sound n hat hx
    obtain ⟨ks₄, rfl, hat, h⟩ := hat.of_expect h nofun
    cases h
    exact ⟨_, ks₄, by simp, hat, .giveBackValue hvalue⟩

theorem jumpStatement_sound {make : Span → Stmt} {s : Stmt} {word : Keyword}
    (hmake : ∀ span, Statement types .statement [kw word, sep .semicolon] (make span).bare)
    (hc : c.At pool types (kw word :: ks)) (h : jumpStatement make c = .ok (s, c')) :
    c'.Past pool types (kw word :: ks) (Statement types .statement · s.bare) := by
  rw [jumpStatement, currentSpan_bind, advance_bind] at h
  obtain ⟨ks₁, rfl, hat, h⟩ := hc.advance.of_expect h nofun
  cases h
  exact ⟨[kw word, sep .semicolon], ks₁, rfl, hat, hmake _⟩

end statements

mutual

theorem statement_sound {pool : Pool} {types : List Symbol} : ∀ (n : Nat) {c c' : Cursor}
    {ks : Kinds} {s : Stmt}, c.At pool types ks → statement n c = .ok (s, c') →
    c'.Past pool types ks (Statement types .statement · s.bare)
  | 0, _, _, _, _, _, h => absurd h exhausted_ne
  | n + 1, c, c', ks, s, hc, h => by
    have hcur := hc.current
    rw [statement, current_bind, hcur] at h
    cases hk : next ks with
    | keyword word =>
      rw [hk] at h hcur
      obtain ⟨ks', rfl, hat⟩ := hc.of_current hcur nofun
      cases word with
      | let_ => exact declaration_sound n hc h
      | if_ => exact branching_sound n hc h
      | while_ =>
        dsimp only at h
        rw [advance_bind] at h
        obtain ⟨condition, c₁, hx, h⟩ := of_bind h
        obtain ⟨ks₁, ks₂, rfl, hat, hcondition⟩ := expression_sound n hat hx
        obtain ⟨body, c₂, hb, h⟩ := of_bind h
        obtain ⟨ks₃, ks₄, rfl, hat, hbody⟩ := block_sound n hat hb
        cases h
        exact ⟨_, ks₄, by simp [kw], hat, .loop hcondition hbody⟩
      | break_ => exact jumpStatement_sound (fun _ => .exitLoop) hc h
      | continue_ => exact jumpStatement_sound (fun _ => .nextRound) hc h
      | return_ => exact giveBack_sound n hc h
      | func | type => exact absurd h (refuse_ne _ _)
      | _ => exact simpleStatement_sound n hc h
    | separator mark =>
      rw [hk] at h hcur
      cases mark with
      | leftBrace =>
        obtain ⟨body, c₁, hb, h⟩ := of_bind h
        obtain ⟨ks₁, ks₂, rfl, hat, hbody⟩ := block_sound n hc hb
        cases h
        exact ⟨ks₁, ks₂, rfl, hat, .block hbody⟩
      | _ => exact simpleStatement_sound n hc h
    | _ =>
      rw [hk] at h
      exact simpleStatement_sound n hc h

theorem block_sound {pool : Pool} {types : List Symbol} : ∀ (n : Nat) {c c' : Cursor}
    {ks : Kinds} {body : List Stmt}, c.At pool types ks → block n c = .ok (body, c') →
    c'.Past pool types ks (Statement types .block · (Stmt.bareAll body))
  | 0, _, _, _, _, _, h => absurd h exhausted_ne
  | n + 1, _, _, _, _, hc, h => by
    rw [block] at h
    obtain ⟨ks₁, rfl, hat, h⟩ := hc.of_expect h nofun
    obtain ⟨body, c₁, hb, h⟩ := of_bind h
    obtain ⟨ks₂, ks₃, rfl, hat, hbody⟩ := statements_sound n hat hb
    obtain ⟨ks₄, rfl, hat, h⟩ := hat.of_expect h nofun
    cases h
    exact ⟨_, ks₄, by simp, hat, .braces hbody⟩

theorem statements_sound {pool : Pool} {types : List Symbol} : ∀ (n : Nat) {c c' : Cursor}
    {ks : Kinds} {body : List Stmt}, c.At pool types ks → statements n c = .ok (body, c') →
    c'.Past pool types ks (Statement types .statements · (Stmt.bareAll body))
  | 0, _, _, _, _, _, h => absurd h exhausted_ne
  | n + 1, _, _, ks, _, hc, h => by
    rw [statements, sees_bind, sees_bind] at h
    split at h
    · cases h
      exact ⟨[], ks, rfl, hc, .noStatements⟩
    · obtain ⟨s, c₁, hs, h⟩ := of_bind h
      obtain ⟨ks₁, ks₂, rfl, hat, hfirst⟩ := statement_sound n hc hs
      obtain ⟨body, c₂, hb, h⟩ := of_bind h
      obtain ⟨ks₃, ks₄, rfl, hat, hbody⟩ := statements_sound n hat hb
      cases h
      exact ⟨_, ks₄, by simp, hat, .moreStatements hfirst hbody⟩

theorem branching_sound {pool : Pool} {types : List Symbol} : ∀ (n : Nat) {c c' : Cursor}
    {ks : Kinds} {s : Stmt}, c.At pool types ks → branching n c = .ok (s, c') →
    c'.Past pool types ks (Statement types .statement · s.bare)
  | 0, _, _, _, _, _, h => absurd h exhausted_ne
  | n + 1, _, _, _, _, hc, h => by
    rw [branching, currentSpan_bind] at h
    obtain ⟨ks₁, rfl, hat, h⟩ := hc.of_expect h nofun
    obtain ⟨first, c₁, ha, h⟩ := of_bind h
    obtain ⟨cs, bs, ks₂, rfl, hat, hcondition, hbody⟩ := arm_sound n hat ha
    obtain ⟨more, c₂, hm, h⟩ := of_bind h
    obtain ⟨as, ks₃, rfl, hat, hmore⟩ := elifArms_sound n hat hm
    rcases hat.of_accept h nofun with ⟨ks₄, rfl, hat, h⟩ | ⟨-, h⟩
    · obtain ⟨other, c₃, hb, h⟩ := of_bind h
      obtain ⟨os, ks₅, rfl, hat, hother⟩ := block_sound n hat hb
      cases h
      exact ⟨_, ks₅, by simp, hat, .branchElse hcondition hbody hmore hother⟩
    · cases h
      exact ⟨_, ks₃, by simp, hat, .branch hcondition hbody hmore⟩

theorem arm_sound {pool : Pool} {types : List Symbol} : ∀ (n : Nat) {start : Span} {c c' : Cursor}
    {ks : Kinds} {arm : Arm Stmt}, c.At pool types ks → Program.arm n start c = .ok (arm, c') →
    ∃ cs bs ks₂, ks = cs ++ (bs ++ ks₂) ∧ c'.At pool types ks₂ ∧
      Expression types (.level 1) cs arm.condition.bare ∧
      Statement types .block bs (Stmt.bareAll arm.body)
  | 0, _, _, _, _, _, _, h => absurd h exhausted_ne
  | n + 1, _, _, _, _, _, hc, h => by
    rw [Program.arm] at h
    obtain ⟨condition, c₁, hx, h⟩ := of_bind h
    obtain ⟨cs, ks₁, rfl, hat, hcondition⟩ := expression_sound n hc hx
    obtain ⟨body, c₂, hb, h⟩ := of_bind h
    obtain ⟨bs, ks₂, rfl, hat, hbody⟩ := block_sound n hat hb
    cases h
    exact ⟨cs, bs, ks₂, rfl, hat, hcondition, hbody⟩

theorem elifArms_sound {pool : Pool} {types : List Symbol} : ∀ (n : Nat) {c c' : Cursor}
    {ks : Kinds} {arms : List (Arm Stmt)}, c.At pool types ks → elifArms n c = .ok (arms, c') →
    c'.Past pool types ks (Statement types .elifs · (Stmt.bareArms arms))
  | 0, _, _, _, _, _, h => absurd h exhausted_ne
  | n + 1, _, _, ks, _, hc, h => by
    rw [elifArms, currentSpan_bind] at h
    rcases hc.of_accept h nofun with ⟨ks₁, rfl, hat, h⟩ | ⟨-, h⟩
    · obtain ⟨first, c₁, ha, h⟩ := of_bind h
      obtain ⟨cs, bs, ks₂, rfl, hat, hcondition, hbody⟩ := arm_sound n hat ha
      obtain ⟨more, c₂, hm, h⟩ := of_bind h
      obtain ⟨as, ks₃, rfl, hat, hmore⟩ := elifArms_sound n hat hm
      cases h
      exact ⟨_, ks₃, by simp, hat, .moreElifs hcondition hbody hmore⟩
    · cases h
      exact ⟨[], ks, rfl, hc, .noElifs⟩

end

section declarations

variable {pool : Pool} {types : List Symbol} {c c' : Cursor} {ks : Kinds}

theorem readAnnotation_sound {kind : Annotation} (hc : c.At pool types ks)
    (h : readAnnotation c = .ok (kind, c')) :
    ∃ k ks', ks = .name k :: ks' ∧ c'.At pool types ks' ∧ kind = .ofName (pool.name k) k := by
  unfold readAnnotation at h
  obtain ⟨k, ks', rfl, hat, h⟩ := hc.of_expectName h
  rw [get_bind, hat.pool] at h
  cases h
  exact ⟨k, ks', rfl, hat, rfl⟩

theorem readBinder_sound {b : Binder} (hc : c.At pool types ks) (h : readBinder c = .ok (b, c')) :
    c'.Past pool types ks (BinderOf pool · b.bare) := by
  rw [readBinder, currentSpan_bind] at h
  obtain ⟨name, ks₁, rfl, hat, h⟩ := hc.of_expectName h
  obtain ⟨kind, c₁, hk, h⟩ := of_bind h
  cases h
  unfold readOptionalAnnotation at hk
  rcases hat.of_accept hk nofun with ⟨ks₂, rfl, hat, hk⟩ | ⟨-, hk⟩
  · obtain ⟨k, ks₃, rfl, hat, rfl⟩ := readAnnotation_sound hat hk
    exact ⟨[.name name, sep .colon, .name k], ks₃, rfl, hat, .annotated name k⟩
  · cases hk
    exact ⟨[.name name], ks₁, rfl, hat, .plain name⟩

theorem readParams_sound : ∀ (n : Nat) {c c' : Cursor} {ks : Kinds} {bs : List Binder},
    c.At pool types ks → readParams n c = .ok (bs, c') →
    c'.Past pool types ks (Params pool · (bs.map Binder.bare))
  | 0, _, _, _, _, _, h => absurd h exhausted_ne
  | n + 1, _, _, _, _, hc, h => by
    rw [readParams] at h
    obtain ⟨b, c₁, hb, h⟩ := of_bind h
    obtain ⟨ks₁, ks₂, rfl, hat, hbinder⟩ := readBinder_sound hc hb
    rcases hat.of_accept h nofun with ⟨ks₃, rfl, hat, h⟩ | ⟨-, h⟩
    · obtain ⟨bs, c₂, hr, h⟩ := of_bind h
      obtain ⟨ks₄, ks₅, rfl, hat, hrest⟩ := readParams_sound n hat hr
      cases h
      exact ⟨_, ks₅, by simp, hat, .more hbinder hrest⟩
    · cases h
      exact ⟨ks₁, ks₂, rfl, hat, .last hbinder⟩

theorem readFields_sound : ∀ (n : Nat) {c c' : Cursor} {ks : Kinds} {bs : List Binder},
    c.At pool types ks → readFields n c = .ok (bs, c') →
    c'.Past pool types ks (Fields pool · (bs.map Binder.bare))
  | 0, _, _, _, _, _, h => absurd h exhausted_ne
  | n + 1, _, c', ks, bs, hc, h => by
    rw [readFields, sees_bind, sees_bind] at h
    split at h
    · cases h
      exact ⟨[], ks, rfl, hc, .none⟩
    · obtain ⟨b, c₁, hb, h⟩ := of_bind h
      obtain ⟨ks₁, ks₂, rfl, hat, hbinder⟩ := readBinder_sound hc hb
      -- A comma and a semicolon are gone on from alike.
      have hmore : ∀ {mark : Separator} {ks₃ : Kinds} {c₂ : Cursor},
          mark = .comma ∨ mark = .semicolon → ks₂ = sep mark :: ks₃ → c₂.At pool types ks₃ →
          (do return b :: (← readFields n) : Read (List Binder)) c₂ = .ok (bs, c') →
          c'.Past pool types (ks₁ ++ ks₂) (Fields pool · (bs.map Binder.bare)) := by
        rintro mark ks₃ c₂ hmark rfl hat h
        obtain ⟨rest, c₃, hr, h⟩ := of_bind h
        obtain ⟨ks₄, ks₅, rfl, hat, hrest⟩ := readFields_sound n hat hr
        cases h
        exact ⟨_, ks₅, by simp, hat, .more hbinder hmark hrest⟩
      rcases hat.of_accept h nofun with ⟨ks₃, hks, hat, h⟩ | ⟨-, h⟩
      · exact hmore (.inl rfl) hks hat h
      rcases hat.of_accept h nofun with ⟨ks₃, hks, hat, h⟩ | ⟨-, h⟩
      · exact hmore (.inr rfl) hks hat h
      cases h
      exact ⟨ks₁, ks₂, rfl, hat, .last hbinder⟩

theorem readParamList_sound (n : Nat) {bs : List Binder} (hc : c.At pool types ks)
    (h : readParamList n c = .ok (bs, c')) :
    c'.Past pool types ks (ParamList pool · (bs.map Binder.bare)) := by
  rw [readParamList, sees_bind] at h
  split at h
  · cases h
    exact ⟨[], ks, rfl, hc, .none⟩
  · obtain ⟨ks₁, ks₂, hks, hat, hparams⟩ := readParams_sound n hc h
    exact ⟨ks₁, ks₂, hks, hat, .some hparams⟩

theorem readResult_sound {result : Option Annotation} (hc : c.At pool types ks)
    (h : readResult c = .ok (result, c')) :
    c'.Past pool types ks (Result pool · result) := by
  rw [readResult] at h
  rcases hc.of_accept h (fun hk => by cases hk) with ⟨ks₁, rfl, hat, h⟩ | ⟨-, h⟩
  · obtain ⟨kind, c₁, hk, h⟩ := of_bind h
    obtain ⟨k, ks₂, rfl, hat, rfl⟩ := readAnnotation_sound hat hk
    cases h
    exact ⟨[.arrow, .name k], ks₂, rfl, hat, .some k⟩
  · cases h
    exact ⟨[], ks, rfl, hc, .none⟩

theorem functionDeclaration_sound (n : Nat) {s : Stmt} (hc : c.At pool types ks)
    (h : functionDeclaration n c = .ok (s, c')) :
    ∃ name ps rs bs ks₂ params result body, ks =
        kw .func :: .name name :: sep .leftParen :: (ps ++ sep .rightParen :: (rs ++ (bs ++ ks₂))) ∧
      c'.At pool types ks₂ ∧ s.bare = .function ⟨name, params, result, body, {}⟩ {} ∧
      ParamList pool ps params ∧ Result pool rs result ∧ Statement types .block bs body := by
  rw [functionDeclaration_eq, currentSpan_bind] at h
  obtain ⟨ks₁, rfl, hat, h⟩ := hc.of_expect h nofun
  obtain ⟨name, ks₂, rfl, hat, h⟩ := hat.of_expectName h
  obtain ⟨ks₃, rfl, hat, h⟩ := hat.of_expect h nofun
  obtain ⟨params, c₁, hp, h⟩ := of_bind h
  obtain ⟨ps, ks₄, rfl, hat, hparams⟩ := readParamList_sound n hat hp
  obtain ⟨ks₅, rfl, hat, h⟩ := hat.of_expect h nofun
  obtain ⟨result, c₂, hr, h⟩ := of_bind h
  obtain ⟨rs, ks₆, rfl, hat, hresult⟩ := readResult_sound hat hr
  obtain ⟨body, c₃, hb, h⟩ := of_bind h
  obtain ⟨bs, ks₇, rfl, hat, hbody⟩ := block_sound n hat hb
  cases h
  exact ⟨name, ps, rs, bs, ks₇, _, result, _, rfl, hat, rfl, hparams, hresult, hbody⟩

theorem typeDeclaration_sound (n : Nat) {s : Stmt} (hc : c.At pool types ks)
    (h : typeDeclaration n c = .ok (s, c')) :
    ∃ name fs ks₂ fields, ks =
        kw .type :: .name name :: sep .leftBrace :: (fs ++ sep .rightBrace :: ks₂) ∧
      c'.At pool (name :: types) ks₂ ∧ s.bare = .type ⟨name, fields, {}⟩ {} ∧
      Fields pool fs fields := by
  rw [typeDeclaration, currentSpan_bind] at h
  obtain ⟨ks₁, rfl, hat, h⟩ := hc.of_expect h nofun
  obtain ⟨name, ks₂, rfl, hat, h⟩ := hat.of_expectName h
  rw [declareType_bind] at h
  obtain ⟨ks₃, rfl, hat, h⟩ := (hat.declareType name).of_expect h nofun
  obtain ⟨fields, c₁, hf, h⟩ := of_bind h
  obtain ⟨fs, ks₄, rfl, hat, hfields⟩ := readFields_sound n hat hf
  obtain ⟨ks₅, rfl, hat, h⟩ := hat.of_expect h nofun
  cases h
  exact ⟨name, fs, ks₅, _, rfl, hat, rfl, hfields⟩

theorem topLevels_sound : ∀ (n : Nat) {types : List Symbol} {c c' : Cursor} {ks : Kinds}
    {body : List Stmt}, c.At pool types ks → topLevels n c = .ok (body, c') →
    Toplevel pool types ks (Stmt.bareAll body)
  | 0, _, _, _, _, _, _, h => absurd h exhausted_ne
  | n + 1, types, c, c', ks, body, hc, h => by
    rw [topLevels, sees_bind] at h
    split at h
    · next hend =>
      cases hc.eq_nil (of_decide_eq_true hend)
      cases h
      exact .nil types
    · obtain ⟨s, c₁, hs, h⟩ := of_bind h
      obtain ⟨rest, c₂, hr, h⟩ := of_bind h
      cases h
      have hstatement : statement n c = .ok (s, c₁) →
          Toplevel pool types ks (s.bare :: Stmt.bareAll rest) := by
        intro hs
        obtain ⟨ks₁, ks₂, rfl, hat, hfirst⟩ := statement_sound n hc hs
        exact .statement hfirst (topLevels_sound n hat hr)
      have hcur := hc.current
      rw [topLevel, current_bind, hcur] at hs
      cases hk : next ks with
      | keyword word =>
        rw [hk] at hs
        cases word with
        | func =>
          obtain ⟨name, ps, rs, bs, ks₂, params, result, body, rfl, hat, hbare, hparams, hresult,
            hbody⟩ := functionDeclaration_sound n hc hs
          rw [Stmt.bareAll, hbare]
          exact .function name hparams hresult hbody (topLevels_sound n hat hr)
        | type =>
          obtain ⟨name, fs, ks₂, fields, rfl, hat, hbare, hfields⟩ := typeDeclaration_sound n hc hs
          rw [Stmt.bareAll, hbare]
          exact .type name hfields (topLevels_sound n hat hr)
        | _ => exact hstatement hs
      | _ =>
        rw [hk] at hs
        exact hstatement hs

end declarations

end Program

end Scriptlet
