import Scriptlet.Proofs.Reading.Exactness

/-!
# How far the reader looks

The reader decides on what it has passed and on the one token in front of it. `Local V x y c` says
this of an action: what `x` does in front of the tokens of `c`, `y` does in front of any tokens that
start in the same way, up to and including the token that `x` stops at. Here `y` is `x` with at
least as many steps granted, so the steps of two runs need not agree. Where `x` stops at a token
that cannot stand there, what it has passed before has the property `V`: it opens a phrase of the
grammar (`Grammar.Opens`).

Actions are put together by the rules of `Local`, one for each kind of step. Expressions follow by
recursion on the steps (`binary_local` and the like), with what was passed taken from
`binary_sound` and the like.
-/

namespace Scriptlet

namespace Grammar

open Program (kw sep)

/-- Kinds of tokens start what is derived, and can be completed to it. -/
def Opens {α : Type} (P : Kinds → α → Prop) (u : Kinds) : Prop := ∃ w t, P (u ++ w) t

theorem Opens.of {α : Type} {P : Kinds → α → Prop} {ks u : Kinds} {t : α} (h : P ks t)
    (w : Kinds) (hks : ks = u ++ w) : Opens P u :=
  ⟨w, t, hks ▸ h⟩

/-- What opens one phrase opens another, where every such phrase leads to one of the other. -/
theorem Opens.elim {α β : Type} {P : Kinds → α → Prop} {Q : Kinds → β → Prop} {u v : Kinds}
    (hq : ∀ w t, P (u ++ w) t → Opens Q v) (h : Opens P u) : Opens Q v := by
  obtain ⟨w, t, ht⟩ := h
  exact hq w t ht

/-- Arguments with the parenthesis that closes them. -/
def ArgumentsEnd (types : List Symbol) (ks : Kinds) (es : List Expr) : Prop :=
  ∃ as, ks = as ++ [sep .rightParen] ∧ Expression types .arguments as es

end Grammar

namespace Program

open Grammar Read

/-- A token, or the end of the file, stands where it cannot. -/
def Cause.Unexpected : Cause → Prop
  | unexpectedToken _ _ | unexpectedEnd => True
  | invalidTarget | misplacedDeclaration _ | exhausted => False

/-- An error names a token. -/
structure Blames (e : Error) (t : Token Symbol) : Prop where
  span : e.span = t.span
  ended : e.cause = .unexpectedEnd ↔ t.kind = .endOfFile

/-- A cursor in front of other tokens. -/
def Cursor.facing (c : Cursor) (r : List (Token Symbol)) : Cursor := { c with rest := r }

/-- What an action does depends on the tokens that it passes and the one that it stops at. -/
structure Local {α : Type} (V : Kinds → Prop) (x y : Read α) (c : Cursor) : Prop where
  ok : ∀ {a : α} {c' : Cursor}, x c = .ok (a, c') → ∃ used, c.rest = used ++ c'.rest ∧
    ∀ r, r.head? = c'.rest.head? → y (c.facing (used ++ r)) = .ok (a, c'.facing r)
  error : ∀ {e : Error}, x c = .error e → e.cause.Unexpected → ∃ used t r₀,
    c.rest = used ++ t :: r₀ ∧ Blames e t ∧ V (used.map Token.kind) ∧
    ∀ r, y (c.facing (used ++ t :: r)) = .error e

section cursor

variable {pool : Pool} {types : List Symbol} {ks : Kinds} {k : Token.Kind Symbol} {c : Cursor}
  {r : List (Token Symbol)}

theorem Cursor.current_facing (h : r.head? = c.rest.head?) : (c.facing r).current = c.current := by
  unfold Cursor.current Cursor.facing
  rw [List.headD_eq_head?_getD, List.headD_eq_head?_getD, h]

theorem Cursor.At.ne_nil (h : c.At pool types ks) : c.rest ≠ [] := by
  intro hnil
  have := h.kinds
  simp [hnil] at this

/-- The token in front of a cursor is passed, whatever follows it. -/
theorem Cursor.At.rest_eq (h : c.At pool types (k :: ks)) :
    c.rest = c.current :: c.advance.rest ∧
      ∀ r, (c.facing (c.current :: r)).advance = c.advance.facing r := by
  have hcur : c.current.kind = k := h.current
  obtain ⟨t, ts, hrest⟩ := List.exists_cons_of_ne_nil h.ne_nil
  have ht : c.current = t := by rw [Cursor.current, hrest]; rfl
  have hk : t.kind ≠ .endOfFile := fun hk => h.ended (by rw [← hk, ← ht, hcur]; simp)
  constructor
  · simp only [Cursor.advance, hrest, ht, if_neg hk]
  · intro r
    simp only [Cursor.facing, Cursor.advance, hrest, ht, if_neg hk]

/-- Kinds of tokens that were passed, and tokens that were, are the same. -/
theorem Cursor.At.map_kind_eq {types' : List Symbol} {ks₁ ks₂ : Kinds} {c' : Cursor}
    {used : List (Token Symbol)} (h : c.At pool types (ks₁ ++ ks₂)) (h' : c'.At pool types' ks₂)
    (hrest : c.rest = used ++ c'.rest) : used.map Token.kind = ks₁ := by
  have hkinds := h.kinds
  rw [hrest, List.map_append, h'.kinds, List.append_assoc] at hkinds
  exact List.append_cancel_right hkinds

end cursor

section actions

variable {α β : Type} {x : Read α} {f : α → Read β} {c : Cursor} {e : Error}

theorem bind_of_error (h : x c = .error e) : (x >>= f) c = .error e := by
  change Except.bind (x c) (fun p => f p.1 p.2) = _
  rw [h]
  rfl

theorem of_bind_error (h : (x >>= f) c = .error e) :
    x c = .error e ∨ ∃ a c', x c = .ok (a, c') ∧ f a c' = .error e := by
  cases hx : x c with
  | error e' =>
    rw [bind_of_error hx] at h
    cases h
    exact .inl rfl
  | ok p =>
    have hx : x c = .ok (p.1, p.2) := hx
    rw [bind_of hx] at h
    exact .inr ⟨p.1, p.2, rfl, h⟩

/-- A refusal at the current token names it. -/
theorem refuseCurrent_eq (expected : String) (c : Cursor) :
    ∃ cause, (refuseCurrent expected : Read α) c = .error ⟨cause, c.current.span⟩ ∧
      Blames ⟨cause, c.current.span⟩ c.current ∧
      ∀ r, r.head? = c.rest.head? →
        (refuseCurrent expected : Read α) (c.facing r) = .error ⟨cause, c.current.span⟩ := by
  have hfacing : ∀ r, r.head? = c.rest.head? → (c.facing r).current = c.current := fun r hr =>
    Cursor.current_facing hr
  unfold refuseCurrent
  simp only [get_bind]
  cases hk : c.current.kind with
  | endOfFile =>
    refine ⟨.unexpectedEnd, rfl, ⟨rfl, by simp [hk]⟩, fun r hr => ?_⟩
    rw [hfacing r hr, hk]
    rfl
  | name symbol =>
    refine ⟨_, rfl, ⟨rfl, by simp [hk]⟩, fun r hr => ?_⟩
    rw [hfacing r hr, hk]
    rfl
  | _ =>
    refine ⟨_, rfl, ⟨rfl, by simp [hk]⟩, fun r hr => ?_⟩
    rw [hfacing r hr, hk]
    rfl

end actions

namespace Local

variable {pool : Pool} {types : List Symbol} {ks : Kinds} {k : Token.Kind Symbol} {c : Cursor}
  {V V' : Kinds → Prop} {α β : Type}

theorem mono {x y : Read α} (h : Local V x y c) (hV : ∀ u, V u → V' u) : Local V' x y c where
  ok := h.ok
  error he hcause := by
    obtain ⟨used, t, r₀, hrest, hblames, hu, hy⟩ := h.error he hcause
    exact ⟨used, t, r₀, hrest, hblames, hV _ hu, hy⟩

/-- More steps change nothing where the steps were enough. -/
theorem eq_ok {x y : Read α} {r : α × Cursor} (h : Local V x y c) (hx : x c = .ok r) :
    y c = .ok r := by
  obtain ⟨used, hrest, hr⟩ := h.ok hx
  have hy := hr r.2.rest rfl
  rw [← hrest] at hy
  exact hy

theorem eq_error {x y : Read α} {e : Error} (h : Local V x y c) (hx : x c = .error e)
    (hcause : e.cause.Unexpected) : y c = .error e := by
  obtain ⟨used, t, r₀, hrest, -, -, hr⟩ := h.error hx hcause
  have hy := hr r₀
  rw [← hrest] at hy
  exact hy

/-- Actions may be replaced by what they are in front of the same token. -/
theorem of_eq {x x' y y' : Read α}
    (hx : ∀ r, r.head? = c.rest.head? → x (c.facing r) = x' (c.facing r))
    (hy : ∀ r, r.head? = c.rest.head? → y (c.facing r) = y' (c.facing r))
    (h : Local V x' y' c) : Local V x y c where
  ok hok := by
    obtain ⟨used, hrest, hr⟩ := h.ok ((hx c.rest rfl).symm.trans hok)
    refine ⟨used, hrest, fun r hhead => (hy _ ?_).trans (hr r hhead)⟩
    rw [hrest, List.head?_append, List.head?_append, hhead]
  error herror hcause := by
    obtain ⟨used, t, r₀, hrest, hblames, hu, hr⟩ :=
      h.error ((hx c.rest rfl).symm.trans herror) hcause
    refine ⟨used, t, r₀, hrest, hblames, hu, fun r => (hy _ ?_).trans (hr r)⟩
    rw [hrest, List.head?_append, List.head?_append]
    rfl

theorem pure (a : α) : Local V (pure a) (pure a) c where
  ok h := by
    cases h
    exact ⟨[], rfl, fun r _ => rfl⟩
  error h := by cases h

theorem ite {p : Prop} [Decidable p] {x x' y y' : Read α} (hx : p → Local V x x' c)
    (hy : ¬ p → Local V y y' c) : Local V (if p then x else y) (if p then x' else y') c := by
  split
  · next h => exact hx h
  · next h => exact hy h

/-- Causes that name no token are not looked at. -/
theorem of_error {x y : Read α} {e : Error} (h : x c = .error e) (hcause : ¬ e.cause.Unexpected) :
    Local V x y c where
  ok hok := by
    rw [h] at hok
    cases hok
  error herror he := by
    rw [h] at herror
    cases herror
    exact absurd he hcause

theorem exhausted {y : Read α} : Local V Read.exhausted y c := .of_error rfl id

theorem refuseCurrent (expected : String) (hc : c.At pool types ks) (hV : V []) :
    Local V (refuseCurrent expected : Read α) (Read.refuseCurrent expected) c where
  ok h := absurd h (refuseCurrent_ne _)
  error h _ := by
    obtain ⟨cause, heq, hblames, hfacing⟩ := refuseCurrent_eq (α := α) expected c
    rw [heq] at h
    cases h
    obtain ⟨t, ts, hrest⟩ := List.exists_cons_of_ne_nil hc.ne_nil
    have ht : c.current = t := by rw [Cursor.current, hrest]; rfl
    refine ⟨[], t, ts, hrest, ht ▸ hblames, hV, fun r => hfacing _ ?_⟩
    rw [hrest]
    rfl

/-- Two actions one after the other. What the first passes, the second is behind. -/
theorem bind {V₁ : Kinds → Prop} {x y : Read α} {f g : α → Read β} (hc : c.At pool types ks)
    (hx : Local V₁ x y c) (hV : ∀ u, V₁ u → V u)
    (hf : ∀ a c₁, x c = .ok (a, c₁) → ∃ known, c₁.Past pool known ks fun ks₁ =>
      Local (fun u => V (ks₁ ++ u)) (f a) (g a) c₁) :
    Local V (x >>= f) (y >>= g) c where
  ok h := by
    obtain ⟨a, c₁, hx₁, hf₁⟩ := of_bind h
    obtain ⟨used₁, hrest₁, hr₁⟩ := hx.ok hx₁
    obtain ⟨known, ks₁, ks₂, rfl, hat, hlocal⟩ := hf a c₁ hx₁
    obtain ⟨used₂, hrest₂, hr₂⟩ := hlocal.ok hf₁
    refine ⟨used₁ ++ used₂, by rw [hrest₁, hrest₂, List.append_assoc], fun r hr => ?_⟩
    have hhead : (used₂ ++ r).head? = c₁.rest.head? := by
      rw [hrest₂, List.head?_append, List.head?_append, hr]
    rw [List.append_assoc]
    exact (bind_of (hr₁ _ hhead)).trans (hr₂ r hr)
  error h hcause := by
    rcases of_bind_error h with hx₁ | ⟨a, c₁, hx₁, hf₁⟩
    · obtain ⟨used, t, r₀, hrest, hblames, hu, hr⟩ := hx.error hx₁ hcause
      exact ⟨used, t, r₀, hrest, hblames, hV _ hu, fun r => bind_of_error (hr r)⟩
    -- The first action stops at the token that the second starts with, and goes as before.
    · obtain ⟨used₁, hrest₁, hr₁⟩ := hx.ok hx₁
      obtain ⟨known, ks₁, ks₂, rfl, hat, hlocal⟩ := hf a c₁ hx₁
      obtain ⟨used₂, t, r₀, hrest₂, hblames, hu, hr₂⟩ := hlocal.error hf₁ hcause
      refine ⟨used₁ ++ used₂, t, r₀, by rw [hrest₁, hrest₂, List.append_assoc], hblames, ?_,
        fun r => ?_⟩
      · rw [List.map_append, hc.map_kind_eq hat hrest₁]
        exact hu
      · have hhead : (used₂ ++ t :: r).head? = c₁.rest.head? := by
          rw [hrest₂, List.head?_append, List.head?_append]
          rfl
        rw [List.append_assoc]
        exact (bind_of (hr₁ _ hhead)).trans (hr₂ r)

theorem map {x y : Read α} (f : α → β) (h : Local V x y c) :
    Local V (do return f (← x)) (do return f (← y)) c where
  ok hok := by
    obtain ⟨a, c₁, hx, hf⟩ := of_bind hok
    cases hf
    obtain ⟨used, hrest, hr⟩ := h.ok hx
    exact ⟨used, hrest, fun r hhead => bind_of (hr r hhead)⟩
  error herror hcause := by
    rcases of_bind_error herror with hx | ⟨a, c₁, -, hf⟩
    · obtain ⟨used, t, r₀, hrest, hblames, hu, hr⟩ := h.error hx hcause
      exact ⟨used, t, r₀, hrest, hblames, hu, fun r => bind_of_error (hr r)⟩
    · cases hf

/-! ## Steps that look -/

theorem current {f g : Token Symbol → Read β} (h : Local V (f c.current) (g c.current) c) :
    Local V (Read.current >>= f) (Read.current >>= g) c := by
  refine .of_eq (fun r hr => ?_) (fun r hr => ?_) h
  · rw [current_bind, Cursor.current_facing hr]
  · rw [current_bind, Cursor.current_facing hr]

theorem currentSpan {f g : Span → Read β}
    (h : Local V (f c.current.span) (g c.current.span) c) :
    Local V (Read.currentSpan >>= f) (Read.currentSpan >>= g) c := by
  refine .of_eq (fun r hr => ?_) (fun r hr => ?_) h
  · rw [currentSpan_bind, Cursor.current_facing hr]
  · rw [currentSpan_bind, Cursor.current_facing hr]

theorem sees {f g : Bool → Read β}
    (h : Local V (f (decide (c.current.kind = k))) (g (decide (c.current.kind = k))) c) :
    Local V (Read.sees k >>= f) (Read.sees k >>= g) c := by
  refine .of_eq (fun r hr => ?_) (fun r hr => ?_) h
  · rw [sees_bind, Cursor.current_facing hr]
  · rw [sees_bind, Cursor.current_facing hr]

theorem spanFrom {start : Span} {f g : Span → Read β}
    (h : Local V (f (start.merge c.last)) (g (start.merge c.last)) c) :
    Local V (Read.spanFrom start >>= f) (Read.spanFrom start >>= g) c := by
  refine .of_eq (fun r _ => ?_) (fun r _ => ?_) h
  · rw [spanFrom_bind]
    rfl
  · rw [spanFrom_bind]
    rfl

/-- What is known besides the tokens in front of the cursor may be looked at. -/
theorem get {f g : Cursor → Read β} (hf : ∀ r, f (c.facing r) = f c)
    (hg : ∀ r, g (c.facing r) = g c) (h : Local V (f c) (g c) c) :
    Local V (get >>= f) (get >>= g) c := by
  refine .of_eq (fun r _ => ?_) (fun r _ => ?_) h
  · rw [get_bind, hf]
  · rw [get_bind, hg]

/-! ## Steps that move -/

theorem advance {f g : Unit → Read β} (hc : c.At pool types (k :: ks))
    (h : c.advance.At pool types ks → Local (fun u => V (k :: u)) (f ()) (g ()) c.advance) :
    Local V (Read.advance >>= f) (Read.advance >>= g) c := by
  have hcur : c.current.kind = k := hc.current
  obtain ⟨hrest, hadvance⟩ := hc.rest_eq
  have hlocal := h hc.advance
  constructor
  · intro a c' hok
    rw [advance_bind] at hok
    obtain ⟨used, hused, hr⟩ := hlocal.ok hok
    refine ⟨c.current :: used, by rw [hrest, hused]; rfl, fun r hhead => ?_⟩
    rw [List.cons_append, advance_bind, hadvance]
    exact hr r hhead
  · intro e herror hcause
    rw [advance_bind] at herror
    obtain ⟨used, t, r₀, hused, hblames, hu, hr⟩ := hlocal.error herror hcause
    refine ⟨c.current :: used, t, r₀, by rw [hrest, hused]; rfl, hblames, ?_, fun r => ?_⟩
    · rw [List.map_cons, hcur]
      exact hu
    · rw [List.cons_append, advance_bind, hadvance]
      exact hr r

theorem declareType {name : Symbol} {f g : Unit → Read β} (hc : c.At pool types ks)
    (h : Cursor.At pool (name :: types) ks { c with types := name :: c.types } →
      Local V (f ()) (g ()) { c with types := name :: c.types }) :
    Local V (Read.declareType name >>= f) (Read.declareType name >>= g) c where
  ok hok := (h (hc.declareType name)).ok hok
  error herror hcause := (h (hc.declareType name)).error herror hcause

theorem expect {f g : Unit → Read β} (hk : k ≠ .endOfFile) (hc : c.At pool types ks) (hV : V [])
    (h : ∀ ks', ks = k :: ks' → c.advance.At pool types ks' →
      Local (fun u => V (k :: u)) (f ()) (g ()) c.advance) :
    Local V (Read.expect k >>= f) (Read.expect k >>= g) c := by
  unfold Read.expect
  rw [bind_assoc, bind_assoc]
  refine .sees ?_
  by_cases hcur : c.current.kind = k
  · obtain ⟨ks', rfl, hat⟩ := hc.of_current hcur hk
    rw [if_pos (decide_eq_true hcur)]
    exact .advance hc (h ks' rfl)
  · rw [if_neg fun hd => hcur (of_decide_eq_true hd)]
    exact .bind hc (.refuseCurrent _ hc hV) (fun _ => id) fun _ _ hok =>
      absurd hok (refuseCurrent_ne _)

theorem expectName {f g : Symbol → Read β} (hc : c.At pool types ks) (hV : V [])
    (h : ∀ n ks', ks = .name n :: ks' → c.advance.At pool types ks' →
      Local (fun u => V (.name n :: u)) (f n) (g n) c.advance) :
    Local V (Read.expectName >>= f) (Read.expectName >>= g) c := by
  unfold Read.expectName
  rw [bind_assoc, bind_assoc]
  refine .current ?_
  cases hcur : c.current.kind with
  | name n =>
    obtain ⟨ks', rfl, hat⟩ := hc.of_current hcur fun hk => by cases hk
    dsimp only
    rw [bind_assoc, bind_assoc]
    refine .advance hc fun hat => ?_
    rw [pure_bind, pure_bind]
    exact h n ks' rfl hat
  | _ =>
    exact .bind hc (.refuseCurrent _ hc hV) (fun _ => id) fun _ _ hok =>
      absurd hok (refuseCurrent_ne _)

theorem accept {x x' y y' : Read β} (hk : k ≠ .endOfFile) (hc : c.At pool types ks)
    (hx : ∀ ks', ks = k :: ks' → c.advance.At pool types ks' →
      Local (fun u => V (k :: u)) x x' c.advance)
    (hy : next ks ≠ k → Local V y y' c) :
    Local V (Read.accept k >>= fun b => if b = true then x else y)
      (Read.accept k >>= fun b => if b = true then x' else y') c := by
  unfold Read.accept
  rw [bind_assoc, bind_assoc]
  refine .sees ?_
  by_cases hcur : c.current.kind = k
  · obtain ⟨ks', rfl, hat⟩ := hc.of_current hcur hk
    rw [if_pos (decide_eq_true hcur), bind_assoc, bind_assoc]
    refine .advance hc fun hat => ?_
    rw [pure_bind, pure_bind]
    exact hx ks' rfl hat
  · rw [if_neg fun hd => hcur (of_decide_eq_true hd)]
    exact hy (hc.current ▸ hcur)

end Local

/-! ## Expressions -/

mutual

theorem binary_local {pool : Pool} {types : List Symbol} : ∀ (n : Nat) {m l : Nat} {c : Cursor}
    {ks : Kinds}, n ≤ m → c.At pool types ks → l ≤ 10 →
    Local (Opens (Expression types (.level l))) (binary n l) (binary m l) c
  | 0, _, _, _, _, _, _, _ => .exhausted
  | n + 1, m + 1, l, c, ks, hm, hc, hl => by
    rw [binary, binary]
    refine .bind hc (unary_local n (by omega) hc)
      (fun u ⟨w, e, he⟩ => ⟨w, e, he.operand.loosen hl (Nat.le_refl _)⟩) fun left c₁ hu => ?_
    obtain ⟨ks₁, ks₂, rfl, hat, hleft⟩ := unary_sound n hc hu
    exact ⟨types, ks₁, ks₂, rfl, hat,
      binaryRest_local n (by omega) hat hl (Nat.le_refl _) hleft.operand (below_eleven _)⟩

theorem binaryRest_local {pool : Pool} {types : List Symbol} : ∀ (n : Nat) {m l l' : Nat}
    {c : Cursor} {ks ks₀ : Kinds} {left : Expr}, n ≤ m → c.At pool types ks → l ≤ l' → l' ≤ 10 →
    Expression types (.level l') ks₀ left.bare → Below (l' + 1) (next ks) →
    Local (fun u => Opens (Expression types (.level l)) (ks₀ ++ u)) (binaryRest n l left)
      (binaryRest m l left) c
  | 0, _, _, _, _, _, _, _, _, _, _, _, _, _ => .exhausted
  | n + 1, m + 1, l, l', c, ks, ks₀, left, hm, hc, hl, hl', hleft, hnext => by
    have hcur := hc.current
    rw [binaryRest, binaryRest]
    refine .current ?_
    rw [hcur]
    cases hk : next ks with
    | operator symbol =>
      rw [hk] at hcur
      dsimp only
      cases hb : symbol.binary? with
      | none => exact .pure left
      | some op =>
        dsimp only
        refine .ite (fun _ => .pure left) fun hge => ?_
        -- The operator binds no tighter than `left`, which may stand on its left.
        have hop := hnext symbol op hk hb
        have hlevel := op.level_le
        have hmem := mem_operators.2 ⟨hb, rfl⟩
        have hleft' := hleft.loosen (l := op.level) (by omega) hl'
        obtain ⟨ks', rfl, -⟩ := hc.of_current hcur nofun
        refine .advance hc fun hat => .bind hat (binary_local n (by omega) hat (by omega))
          (fun u ⟨w, e, he⟩ => ?_) fun right c₁ hright => ?_
        · exact .of ((Expression.binary hmem hleft' he).loosen (by omega) (by omega)) w (by simp)
        · obtain ⟨ks₁, ks₂, rfl, hat, hr, hbelow⟩ := binary_sound n hat hright (by omega)
          have he := Expression.binary hmem hleft' hr
          refine ⟨types, ks₁, ks₂, rfl, hat, ?_⟩
          refine (binaryRest_local n (by omega) hat (by omega) (by omega) he hbelow).mono
            fun u hu => ?_
          simpa using hu
    | _ => exact .pure left

theorem unary_local {pool : Pool} {types : List Symbol} : ∀ (n : Nat) {m : Nat} {c : Cursor}
    {ks : Kinds}, n ≤ m → c.At pool types ks →
    Local (Opens (Expression types .signed)) (unary n) (unary m) c
  | 0, _, _, _, _, _ => .exhausted
  | n + 1, m + 1, c, ks, hm, hc => by
    have hchain : Local (Opens (Expression types .signed)) (chain n) (chain m) c :=
      (chain_local n (by omega) hc).mono fun u ⟨w, e, he⟩ => ⟨w, e, .unsigned he⟩
    have hcur := hc.current
    rw [unary, unary]
    refine .current ?_
    rw [hcur]
    cases hk : next ks with
    | operator symbol =>
      rw [hk] at hcur
      dsimp only
      cases hu : symbol.unary? with
      | none => exact hchain
      | some op =>
        obtain ⟨ks', rfl, hat⟩ := hc.of_current hcur nofun
        refine .advance hc fun hat => .bind hat (unary_local n (by omega) hat)
          (fun u ⟨w, e, he⟩ => ⟨w, _, .sign (mem_signs.2 hu) he⟩) fun operand c₁ ho => ?_
        obtain ⟨ks₁, ks₂, rfl, hat, -⟩ := unary_sound n hat ho
        exact ⟨types, ks₁, ks₂, rfl, hat, .pure _⟩
    | _ => exact hchain

theorem chain_local {pool : Pool} {types : List Symbol} : ∀ (n : Nat) {m : Nat} {c : Cursor}
    {ks : Kinds}, n ≤ m → c.At pool types ks →
    Local (Opens (Expression types .chain)) (chain n) (chain m) c
  | 0, _, _, _, _, _ => .exhausted
  | n + 1, m + 1, c, ks, hm, hc => by
    rw [chain, chain]
    refine .bind hc (primary_local n (by omega) hc) (fun u ⟨w, e, he⟩ => ⟨w, e, .alone he⟩)
      fun first c₁ hp => ?_
    obtain ⟨ks₁, ks₂, rfl, hat, hfirst, hcalled⟩ := primary_sound n hc hp
    exact ⟨types, ks₁, ks₂, rfl, hat, chainRest_local n (by omega) hat (.alone hfirst) hcalled⟩

theorem chainRest_local {pool : Pool} {types : List Symbol} : ∀ (n : Nat) {m : Nat} {c : Cursor}
    {ks ks₀ : Kinds} {object : Expr}, n ≤ m → c.At pool types ks →
    Expression types .chain ks₀ object.bare → (next ks = sep .leftParen → Called types ks₀) →
    Local (fun u => Opens (Expression types .chain) (ks₀ ++ u)) (chainRest n object)
      (chainRest m object) c
  | 0, _, _, _, _, _, _, _, _, _ => .exhausted
  | n + 1, m + 1, c, ks, ks₀, object, hm, hc, hobject, hcalled => by
    rw [chainRest, chainRest]
    refine .accept nofun hc (fun ks' hks hat => ?_) fun _ => ?_
    · subst hks
      refine .bind hat (arguments_local n (by omega) hat) (fun u ⟨w, es, as, hw, has⟩ => ?_)
        fun args c₁ ha => ?_
      · exact .of (.call hobject (hcalled rfl) has) w (by simp [hw])
      · obtain ⟨as, ks₂, rfl, hat, has⟩ := arguments_sound n hat ha
        have he := Expression.call hobject (hcalled rfl) has
        refine ⟨types, as ++ [sep .rightParen], ks₂, by simp, hat, .spanFrom ?_⟩
        refine (chainRest_local n (by omega) hat he fun _ => ?_).mono fun u hu => by simpa using hu
        exact .of_getLast? (k := sep .rightParen) (by simp [List.getLast?_cons]) nofun
    refine .accept nofun hc (fun ks' hks hat => ?_) fun _ => ?_
    · subst hks
      refine .bind hat (binary_local n (by omega) hat (by omega)) (fun u ⟨w, i, hi⟩ => ?_)
        fun index c₁ hi => ?_
      · exact .of (.index hobject hi) (w ++ [sep .rightBracket]) (by simp)
      · obtain ⟨is, ks₂, rfl, hat, hindex, -⟩ := binary_sound n hat hi (by omega)
        have he := Expression.index hobject hindex
        refine ⟨types, is, ks₂, rfl, hat, .expect nofun hat (.of he [sep .rightBracket] (by simp))
          fun ks₃ hks hat => .spanFrom ?_⟩
        refine (chainRest_local n (by omega) hat he fun _ => ?_).mono fun u hu => by simpa using hu
        exact .of_getLast? (k := sep .rightBracket) (by simp [List.getLast?_cons]) nofun
    refine .accept nofun hc (fun ks' hks hat => ?_) fun _ => .pure object
    subst hks
    refine .expectName hat (.of (.field hobject 0) [.name 0] (by simp)) fun name ks₂ hks hat => ?_
    refine .accept nofun hat (fun ks₃ hks hat => ?_) fun hparen => .spanFrom ?_
    · refine .bind hat (arguments_local n (by omega) hat) (fun u ⟨w, es, as, hw, has⟩ => ?_)
        fun args c₁ ha => ?_
      · exact .of (.methodCall hobject name has) w (by simp [hw])
      · obtain ⟨as, ks₄, rfl, hat, has⟩ := arguments_sound n hat ha
        have he := Expression.methodCall hobject name has
        refine ⟨types, as ++ [sep .rightParen], ks₄, by simp, hat, .spanFrom ?_⟩
        refine (chainRest_local n (by omega) hat he fun _ => ?_).mono fun u hu => by simpa using hu
        exact .of_getLast? (k := sep .rightParen) (by simp [List.getLast?_cons]) nofun
    -- A parenthesis behind the name would have made it a method.
    · have he := Expression.field hobject name
      refine (chainRest_local n (by omega) hat he fun hnext => ?_).mono fun u hu => ?_
      · exact absurd hnext hparen
      · simpa using hu

/-- Arguments are read with the parenthesis that closes them. -/
theorem arguments_local {pool : Pool} {types : List Symbol} : ∀ (n : Nat) {m : Nat} {c : Cursor}
    {ks : Kinds}, n ≤ m → c.At pool types ks →
    Local (Opens (ArgumentsEnd types)) (arguments n) (arguments m) c
  | 0, _, _, _, _, _ => .exhausted
  | n + 1, m + 1, c, ks, hm, hc => by
    rw [arguments, arguments]
    refine .sees (.ite (fun hclose => ?_) fun _ => ?_)
    · obtain ⟨ks', rfl, -⟩ := hc.of_current (of_decide_eq_true hclose) nofun
      exact .advance hc fun _ => .pure []
    · refine .bind hc (argumentList_local n (by omega) hc) (fun u ⟨w, es, hes⟩ => ?_)
        fun args c₁ ha => ?_
      · exact ⟨w ++ [sep .rightParen], es, u ++ w, by simp, .someArguments hes⟩
      · obtain ⟨ks₁, ks₂, rfl, hat, hargs⟩ := argumentList_sound n hc ha
        exact ⟨types, ks₁, ks₂, rfl, hat, .expect nofun hat
          ⟨[sep .rightParen], _, ks₁, by simp, .someArguments hargs⟩ fun _ _ _ => .pure args⟩

theorem argumentList_local {pool : Pool} {types : List Symbol} : ∀ (n : Nat) {m : Nat} {c : Cursor}
    {ks : Kinds}, n ≤ m → c.At pool types ks →
    Local (Opens (Expression types .argumentList)) (argumentList n) (argumentList m) c
  | 0, _, _, _, _, _ => .exhausted
  | n + 1, m + 1, c, ks, hm, hc => by
    rw [argumentList, argumentList]
    refine .bind hc (binary_local n (by omega) hc (by omega))
      (fun u ⟨w, e, he⟩ => ⟨w, _, .lastArgument he⟩) fun e c₁ hb => ?_
    obtain ⟨ks₁, ks₂, rfl, hat, he, -⟩ := binary_sound n hc hb (by omega)
    refine ⟨types, ks₁, ks₂, rfl, hat, .accept nofun hat (fun ks₃ hks hat => ?_) fun _ => .pure [e]⟩
    exact .map (e :: ·) ((argumentList_local n (by omega) hat).mono fun u ⟨w, es, hes⟩ =>
      .of (.moreArguments he hes) w (by simp))

theorem items_local {pool : Pool} {types : List Symbol} : ∀ (n : Nat) {m : Nat} {c : Cursor}
    {ks : Kinds}, n ≤ m → c.At pool types ks →
    Local (Opens (Expression types .items)) (items n) (items m) c
  | 0, _, _, _, _, _ => .exhausted
  | n + 1, m + 1, c, ks, hm, hc => by
    rw [items, items]
    refine .sees (.ite (fun _ => .pure []) fun _ => ?_)
    refine .bind hc (binary_local n (by omega) hc (by omega))
      (fun u ⟨w, e, he⟩ => ⟨w, _, .lastItem he⟩) fun e c₁ hb => ?_
    obtain ⟨ks₁, ks₂, rfl, hat, he, -⟩ := binary_sound n hc hb (by omega)
    refine ⟨types, ks₁, ks₂, rfl, hat, .accept nofun hat (fun ks₃ hks hat => ?_) fun _ => .pure [e]⟩
    exact .map (e :: ·) ((items_local n (by omega) hat).mono fun u ⟨w, es, hes⟩ =>
      .of (.moreItems he hes) w (by simp))

theorem primary_local {pool : Pool} {types : List Symbol} : ∀ (n : Nat) {m : Nat} {c : Cursor}
    {ks : Kinds}, n ≤ m → c.At pool types ks →
    Local (Opens (Expression types .primary)) (primary n) (primary m) c
  | 0, _, _, _, _, _ => .exhausted
  | n + 1, m + 1, c, ks, hm, hc => by
    have hcur := hc.current
    have hrefuse : Local (Opens (Expression types .primary))
        (Read.refuseCurrent "expression" : Read Expr) (Read.refuseCurrent "expression") c :=
      .refuseCurrent _ hc ⟨_, _, .literal .null⟩
    change Local _ (current >>= _) (current >>= _) c
    refine .current ?_
    rw [hcur]
    cases hk : next ks with
    | literal value =>
      obtain ⟨ks', rfl, -⟩ := hc.of_current (hcur.trans hk) nofun
      exact .advance hc fun _ => .pure _
    | name symbol =>
      obtain ⟨ks', hks, -⟩ := hc.of_current (hcur.trans hk) nofun
      subst hks
      refine .advance hc fun hat => .get (fun _ => rfl) (fun _ => rfl) (.sees ?_)
      rw [hat.types, hat.current]
      refine .ite (fun hcond => ?_) fun _ => .pure _
      rw [Bool.and_eq_true, List.contains_iff_mem, decide_eq_true_eq] at hcond
      obtain ⟨ks₂, rfl, -⟩ := hat.of_current (hat.current.trans hcond.2) nofun
      refine .advance hat fun hat => .bind hat (arguments_local n (by omega) hat)
        (fun u ⟨w, es, as, hw, has⟩ => ?_) fun args c₁ ha => ?_
      · exact .of (.construct hcond.1 has) w (by simp [hw])
      · obtain ⟨as, ks₃, rfl, hat, -⟩ := arguments_sound n hat ha
        exact ⟨types, as ++ [sep .rightParen], ks₃, by simp, hat, .spanFrom (.pure _)⟩
    | separator mark =>
      obtain ⟨ks', hks, -⟩ := hc.of_current (hcur.trans hk) nofun
      subst hks
      cases mark with
      | leftParen =>
        refine .advance hc fun hat => .bind hat (binary_local n (by omega) hat (by omega))
          (fun u ⟨w, e, he⟩ => ?_) fun inner c₁ hb => ?_
        · exact .of (.paren he) (w ++ [sep .rightParen]) (by simp [sep])
        · obtain ⟨ks₁, ks₂, rfl, hat, he, -⟩ := binary_sound n hat hb (by omega)
          exact ⟨types, ks₁, ks₂, rfl, hat, .expect nofun hat
            (.of (.paren he) [sep .rightParen] (by simp [sep]))
            fun _ _ _ => .spanFrom (.pure _)⟩
      | leftBracket =>
        refine .advance hc fun hat => .bind hat (items_local n (by omega) hat)
          (fun u ⟨w, es, hes⟩ => ?_) fun es c₁ hi => ?_
        · exact .of (.array hes) (w ++ [sep .rightBracket]) (by simp [sep])
        · obtain ⟨ks₁, ks₂, rfl, hat, hes⟩ := items_sound n hat hi
          exact ⟨types, ks₁, ks₂, rfl, hat, .expect nofun hat
            (.of (.array hes) [sep .rightBracket] (by simp [sep]))
            fun _ _ _ => .spanFrom (.pure _)⟩
      | _ => exact hrefuse
    | _ => exact hrefuse

end

end Program

end Scriptlet
