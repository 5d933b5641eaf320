import Scriptlet.Proofs.Reading.Soundness

/-!
# Expressions that are spelled are read

`expression_complete`: by induction on the derivation, tokens that spell an expression are read to
it, whatever follows, as long as it does not go on with the expression. The steps granted for the
tokens are counted along.

Two sorts of the grammar recurse on the left, where the reader goes round a loop: the left operand
of an operator, and what a suffix is applied to. For these the statement is that the reader gets to
the next round of its loop with the tree of what it has passed (`Complete`).
-/

namespace Scriptlet.Program

open Grammar Read

/-! ## Where an expression ends -/

/-- A token behind an expression of a level that does not go on with it. -/
structure Follows (l : Nat) (k : Token.Kind Symbol) : Prop where
  below : Below (l + 1) k
  paren : k ≠ sep .leftParen
  bracket : k ≠ sep .leftBracket
  dot : k ≠ sep .dot

theorem Below.mono {l m : Nat} {k : Token.Kind Symbol} (h : Below l k) (hlm : l ≤ m) : Below m k :=
  fun symbol op hk hop => Nat.lt_of_lt_of_le (h symbol op hk hop) hlm

theorem Follows.mono {l m : Nat} {k : Token.Kind Symbol} (h : Follows l k) (hlm : l ≤ m) :
    Follows m k :=
  ⟨h.below.mono (by omega), h.paren, h.bracket, h.dot⟩

theorem follows_binary {symbol : Operator} {op : BinaryOp} (hop : symbol.binary? = some op) :
    Follows op.level (.operator symbol) := by
  refine ⟨fun symbol' op' hk hop' => ?_, nofun, nofun, nofun⟩
  cases hk
  cases hop.symm.trans hop'
  exact Nat.lt_succ_self _

theorem follows_assignment {symbol : Operator} {op : Option BinaryOp}
    (hop : symbol.assignment? = some op) : Follows 0 (.operator symbol) := by
  refine ⟨fun symbol' op' hk hop' => ?_, nofun, nofun, nofun⟩
  cases hk
  cases symbol <;> cases hop <;> cases hop'

theorem follows_separator {mark : Separator} (hp : mark ≠ .leftParen) (hb : mark ≠ .leftBracket)
    (hd : mark ≠ .dot) : Follows 0 (sep mark) :=
  ⟨nofun, fun h => hp (by injection h), fun h => hb (by injection h), fun h => hd (by injection h)⟩

/-! ## Single steps -/

section steps

variable {pool : Pool} {types : List Symbol} {c c' : Cursor} {ks r : Kinds} {n l : Nat} {e : Expr}

theorem binaryRest_stop (hc : c.At pool types r) (hr : Below l (next r)) :
    binaryRest (n + 1) l e c = .ok (e, c) := by
  rw [binaryRest, current_bind, hc.current]
  cases hk : next r with
  | operator symbol =>
    dsimp only
    cases hop : symbol.binary? with
    | none => rfl
    | some op =>
      dsimp only
      rw [if_pos (hr symbol op hk hop)]
      rfl
  | _ => rfl

theorem binaryRest_go {symbol : Operator} {op : BinaryOp}
    (hc : c.At pool types (.operator symbol :: r)) (hop : symbol.binary? = some op)
    (hl : l ≤ op.level) :
    binaryRest (n + 1) l e c = (do
      let right ← binary n (op.level + 1)
      binaryRest n l (.binary op e right (e.span.merge right.span))) c.advance := by
  rw [binaryRest, current_bind, hc.current, next_cons]
  dsimp only
  rw [hop]
  dsimp only
  rw [if_neg (Nat.not_lt.2 hl), advance_bind]

theorem chainRest_stop (hc : c.At pool types r) (hr : Follows l (next r)) :
    chainRest (n + 1) e c = .ok (e, c) := by
  rw [chainRest, hc.not_accept hr.paren, hc.not_accept hr.bracket, hc.not_accept hr.dot]
  rfl

theorem chainRest_call {es : List Expr} (hc : c.At pool types (sep .leftParen :: ks))
    (ha : arguments n c.advance = .ok (es, c')) :
    chainRest (n + 1) e c = chainRest n (.call e es (e.span.merge c'.last)) c' := by
  rw [chainRest, hc.accept, bind_of ha, spanFrom_bind]

theorem chainRest_index {place : Expr} (hc : c.At pool types (sep .leftBracket :: ks))
    (hp : binary n 1 c.advance = .ok (place, c'))
    (hat : c'.At pool types (sep .rightBracket :: r)) :
    chainRest (n + 1) e c =
      chainRest n (.index e place (e.span.merge c'.advance.last)) c'.advance := by
  have hparen : next (sep .leftBracket :: ks) ≠ sep .leftParen := nofun
  rw [chainRest, hc.not_accept hparen, hc.accept, bind_of hp,
    bind_of (expect_of (sep .rightBracket) hat.current), spanFrom_bind]

theorem chainRest_dot {name : Symbol} (hc : c.At pool types (sep .dot :: .name name :: ks)) :
    chainRest (n + 1) e c = (do
      if ← accept (sep .leftParen) then
        let args ← arguments n
        chainRest n (.methodCall e name args (← spanFrom e.span))
      else
        chainRest n (.field e name (← spanFrom e.span))) c.advance.advance := by
  have hparen : next (sep .dot :: .name name :: ks) ≠ sep .leftParen := nofun
  have hbracket : next (sep .dot :: .name name :: ks) ≠ sep .leftBracket := nofun
  rw [chainRest, hc.not_accept hparen, hc.not_accept hbracket, hc.accept,
    bind_of (expectName_of hc.advance.current)]

theorem unary_sign {symbol : Operator} {op : UnaryOp}
    (hc : c.At pool types (.operator symbol :: ks)) (hop : symbol.unary? = some op)
    (ho : unary n c.advance = .ok (e, c')) :
    unary (n + 1) c = .ok (.unary op e (c.current.span.merge e.span), c') := by
  rw [unary, current_bind, hc.current, next_cons]
  dsimp only
  rw [hop]
  dsimp only
  rw [advance_bind, bind_of ho]
  rfl

theorem unary_chain (hc : c.At pool types ks) (hks : startsPrimary (next ks) = true) :
    unary (n + 1) c = chain n c := by
  rw [unary, current_bind, hc.current]
  cases hk : next ks with
  | operator symbol =>
    rw [hk] at hks
    cases hks
  | _ => rfl

end steps

/-! ## Expressions -/

/-- Tokens that spell a thing of some sort are read to it, if what follows does not go on with it.
Sixteen steps for each token are enough. A level and a chain may be gone on with by looser operators
and by more suffixes: they are read up to there, and the rest of the steps is left. -/
def Complete (pool : Pool) (types : List Symbol) : (s : ExprSort) → Kinds → s.Tree → Prop
  | .level l, ks, t => ∀ (n : Nat) {m : Nat} {c : Cursor} {r : Kinds}, m ≤ l →
    c.At pool types (ks ++ r) → Follows l (next r) → 16 * ks.length ≤ n →
    ∃ n' e c', binary n m c = binaryRest n' m e c' ∧ c'.At pool types r ∧ e.bare = t ∧
      n ≤ n' + ks.length
  | .signed, ks, t => ∀ (n : Nat) {c : Cursor} {r : Kinds}, c.At pool types (ks ++ r) →
    Follows 10 (next r) → 16 * ks.length ≤ n + 1 → Gives pool types (unary n) c r (·.bare = t)
  | .chain, ks, t => ∀ (n : Nat) {c : Cursor} {r : Kinds}, c.At pool types (ks ++ r) →
    (next r = sep .leftParen → Called types ks) → 16 * ks.length ≤ n + 2 →
    ∃ n' e c', chain n c = chainRest n' e c' ∧ c'.At pool types r ∧ e.bare = t ∧ n ≤ n' + ks.length
  | .primary, ks, t => ∀ (n : Nat) {c : Cursor} {r : Kinds}, c.At pool types (ks ++ r) →
    (next r = sep .leftParen → Called types ks) → 16 * ks.length ≤ n + 3 →
    Gives pool types (primary n) c r (·.bare = t)
  | .arguments, ks, t => ∀ (n : Nat) {c : Cursor} {r : Kinds},
    c.At pool types (ks ++ sep .rightParen :: r) → 16 * ks.length + 2 ≤ n →
    Gives pool types (arguments n) c r (Expr.bareAll · = t)
  | .argumentList, ks, t => ∀ (n : Nat) {c : Cursor} {r : Kinds},
    c.At pool types (ks ++ sep .rightParen :: r) → 16 * ks.length + 1 ≤ n →
    Gives pool types (argumentList n) c (sep .rightParen :: r) (Expr.bareAll · = t)
  | .items, ks, t => ∀ (n : Nat) {c : Cursor} {r : Kinds},
    c.At pool types (ks ++ sep .rightBracket :: r) → 16 * ks.length + 1 ≤ n →
    Gives pool types (items n) c (sep .rightBracket :: r) (Expr.bareAll · = t)

section complete

variable {pool : Pool} {types : List Symbol}

/-- An expression is read whole in front of a token that does not go on with any. -/
theorem Complete.whole {ks r : Kinds} {t : Expr} {l : Nat} {c : Cursor}
    (h : Complete pool types (.level (l + 1)) ks t) (n : Nat) (hne : ks ≠ [])
    (hc : c.At pool types (ks ++ r)) (hr : Follows l (next r)) (hn : 16 * ks.length ≤ n) :
    Gives pool types (binary n (l + 1)) c r (·.bare = t) := by
  have hpos := List.length_pos_iff.2 hne
  obtain ⟨n', e, c', heq, hat, he, hn'⟩ := h n (Nat.le_refl _) hc (hr.mono (by omega)) hn
  obtain ⟨m, rfl⟩ := Nat.exists_eq_add_one.2 (show 0 < n' by omega)
  refine ⟨e, c', ?_, hat, he⟩
  rw [heq]
  exact binaryRest_stop hat hr.below

theorem complete_binary {ks₁ ks₂ : Kinds} {a b : Expr} {symbol : Operator} {op : BinaryOp}
    (hop : symbol.binary? = some op) (hne : ks₂ ≠ [])
    (left : Complete pool types (.level op.level) ks₁ a)
    (right : Complete pool types (.level (op.level + 1)) ks₂ b) :
    Complete pool types (.level op.level) (ks₁ ++ .operator symbol :: ks₂) (.binary op a b {}) := by
  intro n m c r hm hc hr hn
  rw [List.append_assoc] at hc
  simp only [List.length_append, List.length_cons] at hn
  obtain ⟨n₁, e₁, c₁, heq, hat, rfl, hn₁⟩ := left n hm hc (follows_binary hop) (by omega)
  obtain ⟨n₂, rfl⟩ := Nat.exists_eq_add_one.2 (show 0 < n₁ by omega)
  rw [binaryRest_go hat hop hm] at heq
  obtain ⟨e₂, c₂, hright, hat, rfl⟩ := right.whole n₂ hne hat.advance hr (by omega)
  rw [bind_of hright] at heq
  refine ⟨n₂, _, c₂, heq, hat, rfl, ?_⟩
  simp only [List.length_append, List.length_cons]
  omega

theorem complete_operand {ks : Kinds} {a : Expr} (hne : ks ≠ [])
    (h : Complete pool types .signed ks a) : Complete pool types (.level 10) ks a := by
  intro n m c r _ hc hr hn
  have hpos := List.length_pos_iff.2 hne
  obtain ⟨n₁, rfl⟩ := Nat.exists_eq_add_one.2 (show 0 < n by omega)
  obtain ⟨e, c', hu, hat, he⟩ := h n₁ hc hr hn
  refine ⟨n₁, e, c', ?_, hat, he, by omega⟩
  rw [binary, bind_of hu]

theorem complete_sign {ks : Kinds} {a : Expr} {symbol : Operator} {op : UnaryOp}
    (hop : symbol.unary? = some op) (h : Complete pool types .signed ks a) :
    Complete pool types .signed (.operator symbol :: ks) (.unary op a {}) := by
  intro n c r hc hr hn
  rw [List.length_cons] at hn
  obtain ⟨n₁, rfl⟩ := Nat.exists_eq_add_one.2 (show 0 < n by omega)
  obtain ⟨e, c', hu, hat, rfl⟩ := h n₁ hc.advance hr (by omega)
  exact ⟨_, c', unary_sign hc hop hu, hat, rfl⟩

theorem complete_unsigned {ks : Kinds} {a : Expr} (hks : startsPrimary (next ks) = true)
    (h : Complete pool types .chain ks a) : Complete pool types .signed ks a := by
  intro n c r hc hr hn
  have hpos := List.length_pos_iff.2 (ne_nil_of_starts hks rfl)
  obtain ⟨n₁, rfl⟩ := Nat.exists_eq_add_one.2 (show 0 < n by omega)
  obtain ⟨n₂, e, c', heq, hat, he, hn₂⟩ := h n₁ hc (fun hparen => absurd hparen hr.paren) (by omega)
  obtain ⟨n₃, rfl⟩ := Nat.exists_eq_add_one.2 (show 0 < n₂ by omega)
  refine ⟨e, c', ?_, hat, he⟩
  rw [unary_chain hc (starts_append hks rfl r), heq, chainRest_stop hat hr]

theorem complete_alone {ks : Kinds} {a : Expr} (hne : ks ≠ [])
    (h : Complete pool types .primary ks a) : Complete pool types .chain ks a := by
  intro n c r hc hr hn
  have hpos := List.length_pos_iff.2 hne
  obtain ⟨n₁, rfl⟩ := Nat.exists_eq_add_one.2 (show 0 < n by omega)
  obtain ⟨e, c', hp, hat, he⟩ := h n₁ hc hr (by omega)
  refine ⟨n₁, e, c', ?_, hat, he, by omega⟩
  rw [chain, bind_of hp]

theorem complete_call {ks as : Kinds} {f : Expr} {es : List Expr} (hcalled : Called types ks)
    (callee : Complete pool types .chain ks f) (args : Complete pool types .arguments as es) :
    Complete pool types .chain (ks ++ sep .leftParen :: (as ++ [sep .rightParen]))
      (.call f es {}) := by
  intro n c r hc _ hn
  simp only [List.append_assoc, List.cons_append, List.nil_append] at hc
  simp only [List.length_append, List.length_cons, List.length_nil] at hn ⊢
  obtain ⟨n₁, e, c₁, heq, hat, rfl, hn₁⟩ := callee n hc (fun _ => hcalled) (by omega)
  obtain ⟨n₂, rfl⟩ := Nat.exists_eq_add_one.2 (show 0 < n₁ by omega)
  obtain ⟨es', c₂, ha, hat', rfl⟩ := args n₂ hat.advance (by omega)
  exact ⟨n₂, _, c₂, heq.trans (chainRest_call hat ha), hat', rfl, by omega⟩

theorem complete_index {ks is : Kinds} {o i : Expr} (hne : is ≠ [])
    (object : Complete pool types .chain ks o) (place : Complete pool types (.level 1) is i) :
    Complete pool types .chain (ks ++ sep .leftBracket :: (is ++ [sep .rightBracket]))
      (.index o i {}) := by
  intro n c r hc _ hn
  simp only [List.append_assoc, List.cons_append, List.nil_append] at hc
  simp only [List.length_append, List.length_cons, List.length_nil] at hn ⊢
  obtain ⟨n₁, e, c₁, heq, hat, rfl, hn₁⟩ := object n hc nofun (by omega)
  obtain ⟨n₂, rfl⟩ := Nat.exists_eq_add_one.2 (show 0 < n₁ by omega)
  obtain ⟨e', c₂, hp, hat', rfl⟩ := place.whole n₂ hne hat.advance
    (follows_separator nofun nofun nofun) (by omega)
  exact ⟨n₂, _, c₂.advance, heq.trans (chainRest_index hat hp hat'), hat'.advance, rfl, by omega⟩

theorem complete_field {ks : Kinds} {o : Expr} (object : Complete pool types .chain ks o)
    (n : Symbol) : Complete pool types .chain (ks ++ [sep .dot, .name n]) (.field o n {}) := by
  intro m c r hc hr hn
  simp only [List.append_assoc, List.cons_append, List.nil_append] at hc
  simp only [List.length_append, List.length_cons, List.length_nil] at hn ⊢
  obtain ⟨n₁, e, c₁, heq, hat, rfl, hn₁⟩ := object m hc nofun (by omega)
  obtain ⟨n₂, rfl⟩ := Nat.exists_eq_add_one.2 (show 0 < n₁ by omega)
  have hat' := hat.advance.advance
  have hparen : next r ≠ sep .leftParen := fun hparen => (hr hparen).method ks n rfl
  rw [chainRest_dot hat, hat'.not_accept hparen, spanFrom_bind] at heq
  exact ⟨n₂, _, _, heq, hat', rfl, by omega⟩

theorem complete_methodCall {ks as : Kinds} {o : Expr} {es : List Expr}
    (object : Complete pool types .chain ks o) (n : Symbol)
    (args : Complete pool types .arguments as es) :
    Complete pool types .chain
      (ks ++ sep .dot :: .name n :: sep .leftParen :: (as ++ [sep .rightParen]))
      (.methodCall o n es {}) := by
  intro m c r hc _ hn
  simp only [List.append_assoc, List.cons_append, List.nil_append] at hc
  simp only [List.length_append, List.length_cons, List.length_nil] at hn ⊢
  obtain ⟨n₁, e, c₁, heq, hat, rfl, hn₁⟩ := object m hc nofun (by omega)
  obtain ⟨n₂, rfl⟩ := Nat.exists_eq_add_one.2 (show 0 < n₁ by omega)
  have hat' := hat.advance.advance
  obtain ⟨es', c₂, ha, hat'', rfl⟩ := args n₂ hat'.advance (by omega)
  rw [chainRest_dot hat, hat'.accept, bind_of ha, spanFrom_bind] at heq
  exact ⟨n₂, _, c₂, heq, hat'', rfl, by omega⟩

theorem complete_literal (v : Literal Symbol) :
    Complete pool types .primary [.literal v] (.literal v {}) := by
  intro n c r hc _ hn
  rw [List.length_singleton] at hn
  obtain ⟨n₁, rfl⟩ := Nat.exists_eq_add_one.2 (show 0 < n by omega)
  refine .of_eq (current_bind _ _) ?_
  rw [hc.current]
  exact .of_eq (advance_bind _ _) (.pure hc.advance rfl)

theorem complete_name (name : Symbol) :
    Complete pool types .primary [.name name] (.name name {}) := by
  intro n c r hc hr hn
  rw [List.length_singleton] at hn
  obtain ⟨n₁, rfl⟩ := Nat.exists_eq_add_one.2 (show 0 < n by omega)
  have hat : c.advance.At pool types r := hc.advance
  refine .of_eq (current_bind _ _) ?_
  rw [hc.current]
  refine .of_eq (advance_bind _ _) (.of_eq (get_bind _ _) (.of_eq (sees_bind _ _ _) ?_))
  rw [hat.types, hat.current, if_neg]
  · exact .pure hat rfl
  · rw [Bool.and_eq_true, List.contains_iff_mem, decide_eq_true_eq]
    exact fun ⟨hname, hparen⟩ => (hr hparen).type name hname rfl

theorem complete_construct {as : Kinds} {es : List Expr} {name : Symbol} (hname : name ∈ types)
    (args : Complete pool types .arguments as es) :
    Complete pool types .primary (.name name :: sep .leftParen :: (as ++ [sep .rightParen]))
      (.construct name es {}) := by
  intro n c r hc _ hn
  simp only [List.append_assoc, List.cons_append, List.nil_append] at hc
  simp only [List.length_append, List.length_cons, List.length_nil] at hn
  obtain ⟨n₁, rfl⟩ := Nat.exists_eq_add_one.2 (show 0 < n by omega)
  have hat := hc.advance
  refine .of_eq (current_bind _ _) ?_
  rw [hc.current]
  refine .of_eq (advance_bind _ _) (.of_eq (get_bind _ _) (.of_eq (sees_bind _ _ _) ?_))
  rw [hat.types, hat.current, if_pos]
  · refine .of_eq (advance_bind _ _) (.bind (args n₁ hat.advance (by omega)) ?_)
    rintro es' c₁ rfl hat
    exact .spanFrom (.pure hat rfl)
  · rw [Bool.and_eq_true, List.contains_iff_mem, decide_eq_true_eq]
    exact ⟨hname, rfl⟩

theorem complete_paren {ks : Kinds} {a : Expr} (hne : ks ≠ [])
    (h : Complete pool types (.level 1) ks a) :
    Complete pool types .primary (sep .leftParen :: (ks ++ [sep .rightParen])) a := by
  intro n c r hc _ hn
  simp only [List.append_assoc, List.cons_append, List.nil_append] at hc
  simp only [List.length_append, List.length_cons, List.length_nil] at hn
  obtain ⟨n₁, rfl⟩ := Nat.exists_eq_add_one.2 (show 0 < n by omega)
  refine .of_eq (current_bind _ _) ?_
  rw [hc.current]
  refine .of_eq (advance_bind _ _) ?_
  refine .bind (h.whole n₁ hne hc.advance (follows_separator nofun nofun nofun) (by omega)) ?_
  rintro e c₁ rfl hat
  exact .expect hat fun hat => .spanFrom (.pure hat (Expr.bare_withSpan _ e))

theorem complete_array {ks : Kinds} {es : List Expr} (h : Complete pool types .items ks es) :
    Complete pool types .primary (sep .leftBracket :: (ks ++ [sep .rightBracket]))
      (.array es {}) := by
  intro n c r hc _ hn
  simp only [List.append_assoc, List.cons_append, List.nil_append] at hc
  simp only [List.length_append, List.length_cons, List.length_nil] at hn
  obtain ⟨n₁, rfl⟩ := Nat.exists_eq_add_one.2 (show 0 < n by omega)
  refine .of_eq (current_bind _ _) ?_
  rw [hc.current]
  refine .of_eq (advance_bind _ _) (.bind (h n₁ hc.advance (by omega)) ?_)
  rintro es' c₁ rfl hat
  exact .expect hat fun hat => .spanFrom (.pure hat rfl)

theorem complete_noArguments : Complete pool types .arguments [] [] := by
  intro n c r hc hn
  obtain ⟨n₁, rfl⟩ := Nat.exists_eq_add_one.2 (show 0 < n by omega)
  rw [arguments]
  exact .of_eq (hc.sees rfl) (.of_eq (advance_bind _ _) (.pure hc.advance rfl))

theorem complete_someArguments {ks : Kinds} {es : List Expr}
    (hks : startsExpression (next ks) = true) (h : Complete pool types .argumentList ks es) :
    Complete pool types .arguments ks es := by
  intro n c r hc hn
  obtain ⟨n₁, rfl⟩ := Nat.exists_eq_add_one.2 (show 0 < n by omega)
  rw [arguments]
  refine .of_eq (hc.not_sees (next_append_ne hks rfl _ rfl)) (.bind (h n₁ hc (by omega)) ?_)
  rintro es' c₁ rfl hat
  exact .expect hat fun hat => .pure hat rfl

theorem complete_lastArgument {ks : Kinds} {a : Expr} (hne : ks ≠ [])
    (h : Complete pool types (.level 1) ks a) : Complete pool types .argumentList ks [a] := by
  intro n c r hc hn
  obtain ⟨n₁, rfl⟩ := Nat.exists_eq_add_one.2 (show 0 < n by omega)
  rw [argumentList]
  refine .bind (h.whole n₁ hne hc (follows_separator nofun nofun nofun) (by omega)) ?_
  rintro e c₁ rfl hat
  exact .not_accept hat nofun (.pure hat rfl)

theorem complete_moreArguments {ks ks' : Kinds} {a : Expr} {es : List Expr} (hne : ks ≠ [])
    (h : Complete pool types (.level 1) ks a) (rest : Complete pool types .argumentList ks' es) :
    Complete pool types .argumentList (ks ++ sep .comma :: ks') (a :: es) := by
  intro n c r hc hn
  rw [List.append_assoc] at hc
  simp only [List.length_append, List.length_cons] at hn
  obtain ⟨n₁, rfl⟩ := Nat.exists_eq_add_one.2 (show 0 < n by omega)
  rw [argumentList]
  refine .bind (h.whole n₁ hne hc (follows_separator nofun nofun nofun) (by omega)) ?_
  rintro e c₁ rfl hat
  refine .accept hat fun hat => .bind (rest n₁ hat (by omega)) ?_
  rintro es' c₂ rfl hat
  exact .pure hat rfl

theorem complete_noItems : Complete pool types .items [] [] := by
  intro n c r hc hn
  obtain ⟨n₁, rfl⟩ := Nat.exists_eq_add_one.2 (show 0 < n by omega)
  rw [items]
  exact .of_eq (hc.sees rfl) (.pure hc rfl)

theorem complete_lastItem {ks : Kinds} {a : Expr} (hks : startsExpression (next ks) = true)
    (h : Complete pool types (.level 1) ks a) : Complete pool types .items ks [a] := by
  intro n c r hc hn
  obtain ⟨n₁, rfl⟩ := Nat.exists_eq_add_one.2 (show 0 < n by omega)
  rw [items]
  refine .of_eq (hc.not_sees (next_append_ne hks rfl _ rfl)) ?_
  refine .bind (h.whole n₁ (ne_nil_of_starts hks rfl) hc
    (follows_separator nofun nofun nofun) (by omega)) ?_
  rintro e c₁ rfl hat
  exact .not_accept hat nofun (.pure hat rfl)

theorem complete_moreItems {ks ks' : Kinds} {a : Expr} {es : List Expr}
    (hks : startsExpression (next ks) = true) (h : Complete pool types (.level 1) ks a)
    (rest : Complete pool types .items ks' es) :
    Complete pool types .items (ks ++ sep .comma :: ks') (a :: es) := by
  intro n c r hc hn
  rw [List.append_assoc] at hc
  simp only [List.length_append, List.length_cons] at hn
  obtain ⟨n₁, rfl⟩ := Nat.exists_eq_add_one.2 (show 0 < n by omega)
  rw [items]
  refine .of_eq (hc.not_sees (next_append_ne hks rfl _ rfl)) ?_
  refine .bind (h.whole n₁ (ne_nil_of_starts hks rfl) hc
    (follows_separator nofun nofun nofun) (by omega)) ?_
  rintro e c₁ rfl hat
  refine .accept hat fun hat => .bind (rest n₁ hat (by omega)) ?_
  rintro es' c₂ rfl hat
  exact .pure hat rfl

theorem expression_complete {s : ExprSort} {ks : Kinds} {t : s.Tree} (h : Expression types s ks t) :
    Complete pool types s ks t := by
  induction h with
  | binary hop _ right ihl ihr =>
    obtain ⟨hsymbol, rfl⟩ := mem_operators.1 hop
    exact complete_binary hsymbol right.level_ne_nil ihl ihr
  | tighter _ _ ih =>
    intro n m c r hm hc hr hn
    exact ih n (by omega) hc (hr.mono (by omega)) hn
  | operand h ih => exact complete_operand (ne_nil_of_starts h.starts rfl) ih
  | sign hop _ ih => exact complete_sign (mem_signs.1 hop) ih
  | unsigned h ih => exact complete_unsigned h.starts ih
  | alone h ih =>
    exact complete_alone (ne_nil_of_starts h.starts rfl) ih
  | call _ hcalled _ ihf iha => exact complete_call hcalled ihf iha
  | index _ place iho ihp => exact complete_index place.level_ne_nil iho ihp
  | field _ n ih => exact complete_field ih n
  | methodCall _ n _ iho iha => exact complete_methodCall iho n iha
  | literal v => exact complete_literal v
  | name n => exact complete_name n
  | construct hname _ ih => exact complete_construct hname ih
  | paren h ih => exact complete_paren h.level_ne_nil ih
  | array _ ih => exact complete_array ih
  | noArguments => exact complete_noArguments
  | someArguments h ih => exact complete_someArguments h.starts ih
  | lastArgument h ih => exact complete_lastArgument h.level_ne_nil ih
  | moreArguments h _ ih ihs => exact complete_moreArguments h.level_ne_nil ih ihs
  | noItems => exact complete_noItems
  | lastItem h ih => exact complete_lastItem h.starts ih
  | moreItems h _ ih ihs => exact complete_moreItems h.starts ih ihs

end complete

end Scriptlet.Program
