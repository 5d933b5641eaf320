import Scriptlet.Program.Read

/-!
# The tokens that a tree is made of

`Written ts t`: a phrase of a program is made of the tokens `ts`. For a tree it says which tokens
belong to it, which of them its parts are made of, and what region of source text it has. The region
of a statement or an arm reaches from its first token to its last (`extent`), that of an expression
is joined from the regions of its first part and of its last. Parentheses belong to the expression
that they are around.

Where tokens are in the order of the source (`Successive`), a tree has the position of the first of
its tokens (`Written.span_eq`), holds the regions of its parts (`Written.within`), and its parts are
apart and in order (`Written.consecutive`, `Consecutive.pairwise`).
-/

namespace Scriptlet.Program

/-! ## Trees and their parts -/

/-- A part of a program that has a region of its own. -/
inductive Tree where
  | expr (e : Expr)
  | stmt (s : Stmt)
  | arm (a : Arm Stmt)
  | binder (b : Binder)

namespace Tree

/-- The region of source text of a tree. -/
def span : Tree → Span
  | expr e => e.span
  | stmt s => s.span
  | arm a => a.span
  | binder b => b.span

/-- The parts of an expression, from left to right. -/
def ofExpr : Expr → List Tree
  | .literal .. | .name .. => []
  | .binary _ l r _ => [expr l, expr r]
  | .unary _ e _ | .field e _ _ => [expr e]
  | .array es _ | .construct _ es _ => es.map expr
  | .index o i _ => [expr o, expr i]
  | .call f es _ | .methodCall f _ es _ => expr f :: es.map expr

/-- The parts of a statement, from left to right. -/
def ofStmt : Stmt → List Tree
  | .expression e _ | .declare _ e _ => [expr e]
  | .assign target _ value _ => [expr target, expr value]
  | .block body _ => body.map stmt
  | .branch arms otherwise _ => arms.map arm ++ (otherwise.getD []).map stmt
  | .loop condition body _ => expr condition :: body.map stmt
  | .exitLoop _ | .nextRound _ => []
  | .giveBack value _ => value.toList.map expr
  | .function decl _ => decl.params.map binder ++ decl.body.map stmt
  | .type decl _ => decl.fields.map binder

/-- The parts of a tree, from left to right. -/
def parts : Tree → List Tree
  | expr e => ofExpr e
  | stmt s => ofStmt s
  | arm a => expr a.condition :: a.body.map stmt
  | binder _ => []

end Tree

/-! ## Tokens and phrases -/

/-- Tokens with the regions that they stand in. -/
abbrev Tokens := List (Token Symbol)

/-- The region from the first of some tokens to the last. -/
def extent (ts : Tokens) : Span :=
  ((ts.map Token.span).headD {}).merge ((ts.map Token.span).getLastD {})

/-- A tree, or trees one after the other. -/
inductive Phrase where
  | tree (t : Tree)
  /-- Trees each of which but the last is followed by one of some marks. One may follow the last. -/
  | listed (marks : List Separator) (ts : List Tree)
  | sequence (ts : List Tree)

/-- Tokens that a phrase is made of. -/
inductive Written : Tokens → Phrase → Prop
  | literal (v : Literal Symbol) (s : Span) :
    Written [⟨.literal v, s⟩] (.tree (.expr (.literal v s)))
  | name (n : Symbol) (s : Span) : Written [⟨.name n, s⟩] (.tree (.expr (.name n s)))
  | unary {ts : Tokens} {e : Expr} {symbol : Operator} {op : UnaryOp} {s : Span}
    (hop : symbol.unary? = some op) (h : Written ts (.tree (.expr e))) :
    Written (⟨.operator symbol, s⟩ :: ts) (.tree (.expr (.unary op e (s.merge e.span))))
  | binary {ts us : Tokens} {a b : Expr} {symbol : Operator} {op : BinaryOp} {s : Span}
    (hop : symbol.binary? = some op) (left : Written ts (.tree (.expr a)))
    (right : Written us (.tree (.expr b))) :
    Written (ts ++ ⟨.operator symbol, s⟩ :: us)
      (.tree (.expr (.binary op a b (a.span.merge b.span))))
  | call {ts us : Tokens} {f : Expr} {es : List Expr} {l r : Span}
    (callee : Written ts (.tree (.expr f))) (args : Written us (.listed [.comma] (es.map .expr))) :
    Written (ts ++ ⟨sep .leftParen, l⟩ :: (us ++ [⟨sep .rightParen, r⟩]))
      (.tree (.expr (.call f es (f.span.merge r))))
  | index {ts us : Tokens} {o i : Expr} {l r : Span}
    (object : Written ts (.tree (.expr o))) (place : Written us (.tree (.expr i))) :
    Written (ts ++ ⟨sep .leftBracket, l⟩ :: (us ++ [⟨sep .rightBracket, r⟩]))
      (.tree (.expr (.index o i (o.span.merge r))))
  | field {ts : Tokens} {o : Expr} {n : Symbol} {d r : Span}
    (object : Written ts (.tree (.expr o))) :
    Written (ts ++ [⟨sep .dot, d⟩, ⟨.name n, r⟩]) (.tree (.expr (.field o n (o.span.merge r))))
  | methodCall {ts us : Tokens} {o : Expr} {n : Symbol} {es : List Expr}
    {d s l r : Span} (object : Written ts (.tree (.expr o)))
    (args : Written us (.listed [.comma] (es.map .expr))) :
    Written
      (ts ++ ⟨sep .dot, d⟩ :: ⟨.name n, s⟩ :: ⟨sep .leftParen, l⟩ :: (us ++ [⟨sep .rightParen, r⟩]))
      (.tree (.expr (.methodCall o n es (o.span.merge r))))
  | construct {us : Tokens} {n : Symbol} {es : List Expr} {s l r : Span}
    (args : Written us (.listed [.comma] (es.map .expr))) :
    Written (⟨.name n, s⟩ :: ⟨sep .leftParen, l⟩ :: (us ++ [⟨sep .rightParen, r⟩]))
      (.tree (.expr (.construct n es (s.merge r))))
  | array {us : Tokens} {es : List Expr} {l r : Span}
    (items : Written us (.listed [.comma] (es.map .expr))) :
    Written (⟨sep .leftBracket, l⟩ :: (us ++ [⟨sep .rightBracket, r⟩]))
      (.tree (.expr (.array es (l.merge r))))
  /-- Parentheses widen the region of an expression. -/
  | paren {ts : Tokens} {e : Expr} {l r : Span} (h : Written ts (.tree (.expr e))) :
    Written (⟨sep .leftParen, l⟩ :: (ts ++ [⟨sep .rightParen, r⟩]))
      (.tree (.expr (e.withSpan (l.merge r))))
  | unlisted (marks : List Separator) : Written [] (.listed marks [])
  | last {ts : Tokens} {t : Tree} (marks : List Separator) (h : Written ts (.tree t)) :
    Written ts (.listed marks [t])
  | more {ts us : Tokens} {t : Tree} {more : List Tree} {marks : List Separator}
    {mark : Separator} {s : Span} (hmark : mark ∈ marks) (h : Written ts (.tree t))
    (rest : Written us (.listed marks more)) :
    Written (ts ++ ⟨sep mark, s⟩ :: us) (.listed marks (t :: more))
  | done : Written [] (.sequence [])
  | next {ts us : Tokens} {t : Tree} {more : List Tree} (h : Written ts (.tree t))
    (rest : Written us (.sequence more)) : Written (ts ++ us) (.sequence (t :: more))
  | expression {ts us : Tokens} {e : Expr} {r : Span} (h : Written us (.tree (.expr e)))
    (hts : ts = us ++ [⟨sep .semicolon, r⟩]) :
    Written ts (.tree (.stmt (.expression e (extent ts))))
  | declare {ts us : Tokens} {n : Symbol} {e : Expr} {s s₁ s₂ r : Span}
    (h : Written us (.tree (.expr e)))
    (hts : ts = ⟨kw .let_, s⟩ :: ⟨.name n, s₁⟩ :: ⟨.operator .equal, s₂⟩ ::
      (us ++ [⟨sep .semicolon, r⟩])) :
    Written ts (.tree (.stmt (.declare n e (extent ts))))
  | assign {ts us vs : Tokens} {target value : Expr} {symbol : Operator} {op : Option BinaryOp}
    {s r : Span} (hop : symbol.assignment? = some op) (place : Written us (.tree (.expr target)))
    (h : Written vs (.tree (.expr value)))
    (hts : ts = us ++ ⟨.operator symbol, s⟩ :: (vs ++ [⟨sep .semicolon, r⟩])) :
    Written ts (.tree (.stmt (.assign target op value (extent ts))))
  | block {ts us : Tokens} {body : List Stmt} {l r : Span}
    (h : Written us (.sequence (body.map .stmt)))
    (hts : ts = ⟨sep .leftBrace, l⟩ :: (us ++ [⟨sep .rightBrace, r⟩])) :
    Written ts (.tree (.stmt (.block body (extent ts))))
  | arm {ts us vs : Tokens} {word : Keyword} {condition : Expr} {body : List Stmt} {s l r : Span}
    (hword : word = .if_ ∨ word = .elif) (hcondition : Written us (.tree (.expr condition)))
    (h : Written vs (.sequence (body.map .stmt)))
    (hts : ts = ⟨kw word, s⟩ :: (us ++ ⟨sep .leftBrace, l⟩ :: (vs ++ [⟨sep .rightBrace, r⟩]))) :
    Written ts (.tree (.arm ⟨condition, body, extent ts⟩))
  | branch {ts : Tokens} {arms : List (Arm Stmt)} (hne : ts ≠ [])
    (h : Written ts (.sequence (arms.map .arm))) :
    Written ts (.tree (.stmt (.branch arms none (extent ts))))
  | branchElse {ts us vs : Tokens} {arms : List (Arm Stmt)} {body : List Stmt} {s l r : Span}
    (h : Written us (.sequence (arms.map .arm))) (other : Written vs (.sequence (body.map .stmt)))
    (hts : ts = us ++ ⟨kw .else_, s⟩ :: ⟨sep .leftBrace, l⟩ :: (vs ++ [⟨sep .rightBrace, r⟩])) :
    Written ts (.tree (.stmt (.branch arms (some body) (extent ts))))
  | loop {ts us vs : Tokens} {condition : Expr} {body : List Stmt} {s l r : Span}
    (hcondition : Written us (.tree (.expr condition)))
    (h : Written vs (.sequence (body.map .stmt)))
    (hts : ts = ⟨kw .while_, s⟩ :: (us ++ ⟨sep .leftBrace, l⟩ :: (vs ++ [⟨sep .rightBrace, r⟩]))) :
    Written ts (.tree (.stmt (.loop condition body (extent ts))))
  /-- The region is that of the keyword. -/
  | exitLoop (s r : Span) :
    Written [⟨kw .break_, s⟩, ⟨sep .semicolon, r⟩] (.tree (.stmt (.exitLoop s)))
  | nextRound (s r : Span) :
    Written [⟨kw .continue_, s⟩, ⟨sep .semicolon, r⟩] (.tree (.stmt (.nextRound s)))
  | giveBack {ts : Tokens} {s r : Span} (hts : ts = [⟨kw .return_, s⟩, ⟨sep .semicolon, r⟩]) :
    Written ts (.tree (.stmt (.giveBack none (extent ts))))
  | giveBackValue {ts us : Tokens} {e : Expr} {s r : Span} (h : Written us (.tree (.expr e)))
    (hts : ts = ⟨kw .return_, s⟩ :: (us ++ [⟨sep .semicolon, r⟩])) :
    Written ts (.tree (.stmt (.giveBack (some e) (extent ts))))
  /-- The region of a binder is that of its name. -/
  | binder {ts : Tokens} {n : Symbol} {kind : Annotation} {s : Span}
    (hts : ts = [] ∨ ∃ k s₁ s₂, ts = [⟨sep .colon, s₁⟩, ⟨.name k, s₂⟩]) :
    Written (⟨.name n, s⟩ :: ts) (.tree (.binder ⟨n, kind, s⟩))
  | function {ts us rs vs : Tokens} {n : Symbol} {params : List Binder}
    {result : Option Annotation} {body : List Stmt} {s s₁ s₂ s₃ l r : Span}
    (hparams : Written us (.listed [.comma] (params.map .binder)))
    (hresult : rs = [] ∨ ∃ k s₁ s₂, rs = [⟨.arrow, s₁⟩, ⟨.name k, s₂⟩])
    (h : Written vs (.sequence (body.map .stmt)))
    (hts : ts = ⟨kw .func, s⟩ :: ⟨.name n, s₁⟩ :: ⟨sep .leftParen, s₂⟩ ::
      (us ++ ⟨sep .rightParen, s₃⟩ :: (rs ++ ⟨sep .leftBrace, l⟩ ::
        (vs ++ [⟨sep .rightBrace, r⟩])))) :
    Written ts (.tree (.stmt (.function ⟨n, params, result, body, extent ts⟩ (extent ts))))
  | type {ts us : Tokens} {n : Symbol} {fields : List Binder} {s s₁ l r : Span}
    (hfields : Written us (.listed [.comma, .semicolon] (fields.map .binder)))
    (hts : ts = ⟨kw .type, s⟩ :: ⟨.name n, s₁⟩ :: ⟨sep .leftBrace, l⟩ ::
      (us ++ [⟨sep .rightBrace, r⟩])) :
    Written ts (.tree (.stmt (.type ⟨n, fields, extent ts⟩ (extent ts))))

/-! ## Regions of tokens in order -/

/-- Tokens that are not empty, each of which ends before the next one starts. -/
structure Successive (ts : Tokens) : Prop where
  filled : ∀ t ∈ ts, t.span.start < t.span.stop
  ordered : ts.Pairwise fun t s => t.span.stop ≤ s.span.start

section extent

variable {ts us vs : Tokens} {t a b : Token Symbol}

theorem exists_ends (h : ts ≠ []) : ∃ a b, ts.head? = some a ∧ ts.getLast? = some b :=
  ⟨ts.head h, ts.getLast h, List.head?_eq_some_head h, List.getLast?_eq_some_getLast h⟩

theorem Successive.stretch (h : Successive ts) (hus : us <:+: ts) : Successive us :=
  ⟨fun t ht => h.filled t (hus.subset ht), h.ordered.sublist hus.sublist⟩

theorem Successive.left (h : Successive (ts ++ us)) : Successive ts :=
  h.stretch (List.prefix_append ts us).isInfix

theorem Successive.lt_append (h : Successive (ts ++ us)) (ha : a ∈ ts) (hb : b ∈ us) :
    a.span.stop ≤ b.span.start :=
  (List.pairwise_append.1 h.ordered).2.2 a ha b hb

/-- Tokens in order reach from the start of the first to the end of the last. -/
theorem Successive.extent_eq (h : Successive ts) (ha : ts.head? = some a)
    (hb : ts.getLast? = some b) :
    extent ts = ⟨a.span.start, b.span.stop, a.span.line, a.span.column⟩ := by
  have hspan : extent ts = a.span.merge b.span := by
    simp [extent, List.headD_eq_head?_getD, List.getLastD_eq_getLast?, ha, hb]
  have hlt := h.filled a (List.mem_of_head? ha)
  have hlt' := h.filled b (List.mem_of_getLast? hb)
  obtain ⟨us, rfl⟩ := List.getLast?_eq_some_iff.1 hb
  have hab : a = b ∨ a.span.stop ≤ b.span.start := by
    cases us with
    | nil =>
      cases ha
      exact .inl rfl
    | cons c us =>
      cases ha
      exact .inr (h.lt_append (List.mem_cons_self) (List.mem_singleton_self b))
  rw [hspan, Span.merge, Span.mk.injEq]
  rcases hab with rfl | hab
  · simp
  · refine ⟨?_, ?_, rfl, rfl⟩ <;> omega

/-- The region of tokens is joined from those of the first of them and of the last. -/
theorem Successive.merge_extent (h : Successive (ts ++ (us ++ vs))) (hts : ts ≠ [])
    (hvs : vs ≠ []) : (extent ts).merge (extent vs) = extent (ts ++ (us ++ vs)) := by
  obtain ⟨a, b, ha, hb⟩ := exists_ends hts
  obtain ⟨c, d, hc, hd⟩ := exists_ends hvs
  have hmem : ∀ x ∈ vs, x ∈ us ++ vs := fun x hx => List.mem_append_right us hx
  have hac := h.lt_append (List.mem_of_head? ha) (hmem c (List.mem_of_head? hc))
  have hbd := h.lt_append (List.mem_of_getLast? hb) (hmem d (List.mem_of_getLast? hd))
  have hfirst := h.filled a (List.mem_append_left _ (List.mem_of_head? ha))
  have hlast := h.filled d (List.mem_append_right _ (hmem d (List.mem_of_getLast? hd)))
  have hvs' : vs <:+: ts ++ (us ++ vs) := ⟨ts ++ us, [], by simp⟩
  rw [h.extent_eq (a := a) (b := d) (by simp [ha]) (by simp [hd]),
    h.left.extent_eq ha hb, (h.stretch hvs').extent_eq hc hd,
    Span.merge, Span.mk.injEq]
  refine ⟨?_, ?_, rfl, rfl⟩ <;> dsimp only <;> omega

theorem extent_singleton (t : Token Symbol) : extent [t] = t.span := Span.merge_self t.span

/-- All tokens are in the region that they reach over. -/
theorem Successive.mem_extent (h : Successive ts) (ht : t ∈ ts) :
    (extent ts).start ≤ t.span.start ∧ t.span.stop ≤ (extent ts).stop := by
  obtain ⟨a, b, ha, hb⟩ := exists_ends (List.ne_nil_of_mem ht)
  have hlt := h.filled t ht
  rw [h.extent_eq ha hb]
  constructor
  · obtain ⟨us, rfl⟩ := List.head?_eq_some_iff.1 ha
    have hlt' := h.filled a List.mem_cons_self
    rcases List.mem_cons.1 ht with rfl | ht
    · exact Nat.le_refl _
    · have := (List.pairwise_cons.1 h.ordered).1 t ht
      dsimp only
      omega
  · obtain ⟨us, rfl⟩ := List.getLast?_eq_some_iff.1 hb
    have hlt' := h.filled b (List.mem_append_right us (List.mem_singleton_self b))
    rcases List.mem_append.1 ht with ht | ht
    · have := h.lt_append ht (List.mem_singleton_self b)
      dsimp only
      omega
    · obtain rfl := List.mem_singleton.1 ht
      exact Nat.le_refl _

end extent

/-! ## Regions of trees -/

/-- A region reaches over some tokens. -/
def Over (ts : Tokens) (s : Span) : Prop := ts ≠ [] ∧ s = extent ts

theorem over_singleton (k : Token.Kind Symbol) (s : Span) : Over [⟨k, s⟩] s :=
  ⟨List.cons_ne_nil _ _, (extent_singleton ⟨k, s⟩).symm⟩

theorem Over.merge {ts vs : Tokens} {a b : Span} (ha : Over ts a) (us : Tokens) (hb : Over vs b)
    (h : Successive (ts ++ (us ++ vs))) : Over (ts ++ (us ++ vs)) (a.merge b) := by
  obtain ⟨hts, rfl⟩ := ha
  obtain ⟨hvs, rfl⟩ := hb
  exact ⟨List.append_ne_nil_of_left_ne_nil hts _, h.merge_extent hts hvs⟩

/-- The tokens that the region of a tree reaches over: for `break`, `continue` and a binder the
first alone. -/
def Tree.own (ts : Tokens) : Tree → Tokens
  | .stmt (.exitLoop _) | .stmt (.nextRound _) | .binder _ => ts.take 1
  | _ => ts

/-- The region of a tree reaches over the tokens that it is made of. -/
def Phrase.Fits (ts : Tokens) : Phrase → Prop
  | .tree t => Over (t.own ts) t.span
  | .listed _ _ | .sequence _ => True

theorem Written.fits {ts : Tokens} {phrase : Phrase} (h : Written ts phrase)
    (hs : Successive ts) : phrase.Fits ts := by
  induction h with
  | literal v s => exact over_singleton _ s
  | name n s => exact over_singleton _ s
  | @unary ts e symbol op s _ _ ih =>
    exact (over_singleton _ s).merge [] (ih (hs.stretch (List.suffix_cons _ ts).isInfix)) hs
  | @binary ts us a b symbol op s _ _ _ iha ihb =>
    have hb : us <:+: ts ++ ⟨.operator symbol, s⟩ :: us :=
      ⟨ts ++ [⟨.operator symbol, s⟩], [], by simp⟩
    exact (iha hs.left).merge [_] (ihb (hs.stretch hb)) hs
  | @call ts us f es l r _ _ ih _ =>
    exact (ih hs.left).merge (_ :: us) (over_singleton _ r) hs
  | @index ts us o i l r _ _ ih _ =>
    exact (ih hs.left).merge (_ :: us) (over_singleton _ r) hs
  | @field ts o n d r _ ih =>
    exact (ih hs.left).merge [_] (over_singleton _ r) hs
  | @methodCall ts us o n es d s l r _ _ ih _ =>
    exact (ih hs.left).merge (_ :: _ :: _ :: us)
      (over_singleton _ r) hs
  | @construct us n es s l r _ _ =>
    exact (over_singleton _ s).merge (_ :: us) (over_singleton _ r) hs
  | @array us es l r _ _ => exact (over_singleton _ l).merge us (over_singleton _ r) hs
  | @paren ts e l r _ _ =>
    -- The region that the expression had inside is given up.
    have hover := (over_singleton _ l).merge ts (over_singleton _ r) hs
    change Over _ (e.withSpan (l.merge r)).span
    rwa [Expr.span_withSpan]
  | unlisted | last | more | done | next => trivial
  | exitLoop s r | nextRound s r | binder => exact over_singleton _ _
  | branch hne _ _ => exact ⟨hne, rfl⟩
  | expression _ hts | declare _ hts | assign _ _ _ hts | block _ hts | arm _ _ _ hts
  | branchElse _ _ hts | loop _ _ hts | giveBack hts | giveBackValue _ hts | function _ _ _ hts
  | type _ hts => exact ⟨by simp [Tree.own, hts], rfl⟩

/-! ## Parts one after the other -/

/-- Trees are made of tokens one after the other; other tokens may stand around and between. -/
inductive Consecutive : Tokens → List Tree → Prop
  | nil (ts : Tokens) : Consecutive ts []
  | cons {us vs : Tokens} {t : Tree} {more : List Tree} (ts : Tokens) (h : Written us (.tree t))
    (rest : Consecutive vs more) : Consecutive (ts ++ (us ++ vs)) (t :: more)

namespace Consecutive

variable {ts us : Tokens} {t : Tree} {l l' : List Tree}

theorem single (h : Written ts (.tree t)) : Consecutive ts [t] := by
  simpa using cons [] h (nil [])

theorem skip (us : Tokens) (h : Consecutive ts l) : Consecutive (us ++ ts) l := by
  cases h with
  | nil => exact nil _
  | cons vs h rest =>
    rw [← List.append_assoc]
    exact cons _ h rest

theorem append (h : Consecutive ts l) (h' : Consecutive us l') :
    Consecutive (ts ++ us) (l ++ l') := by
  induction h with
  | nil ts => exact h'.skip ts
  | cons ts h _ ih =>
    rw [List.append_assoc, List.append_assoc]
    exact cons ts h ih

theorem trail (us : Tokens) (h : Consecutive ts l) : Consecutive (ts ++ us) l := by
  simpa using h.append (nil us)

/-- Each of the trees is made of a stretch of the tokens. -/
theorem written_of_mem (h : Consecutive ts l) (ht : t ∈ l) :
    ∃ us, us <:+: ts ∧ Written us (.tree t) := by
  induction h with
  | nil => cases ht
  | @cons us vs t' more ts h _ ih =>
    rcases List.mem_cons.1 ht with rfl | ht
    · exact ⟨us, ⟨ts, vs, by simp⟩, h⟩
    · obtain ⟨ws, hws, hw⟩ := ih ht
      exact ⟨ws, hws.trans ⟨ts ++ us, [], by simp⟩, hw⟩

end Consecutive

/-- The parts of a phrase, from left to right. -/
def Phrase.parts : Phrase → List Tree
  | .tree t => t.parts
  | .listed _ ts | .sequence ts => ts

theorem Tree.ofExpr_withSpan (e : Expr) (s : Span) : ofExpr (e.withSpan s) = ofExpr e := by
  cases e <;> rfl

theorem Written.consecutive {ts : Tokens} {phrase : Phrase} (h : Written ts phrase) :
    Consecutive ts phrase.parts := by
  induction h with
  | literal | name | unlisted | done | exitLoop | nextRound | giveBack | binder => exact .nil _
  | unary _ h _ => exact (Consecutive.single h).skip [_]
  | binary _ left right _ _ =>
    exact (Consecutive.single left).append ((Consecutive.single right).skip [_])
  | call callee _ _ ih => exact (Consecutive.single callee).append ((ih.trail [_]).skip [_])
  | index object place _ _ =>
    exact (Consecutive.single object).append (((Consecutive.single place).trail [_]).skip [_])
  | field object _ => exact (Consecutive.single object).trail _
  | methodCall object _ _ ih =>
    exact (Consecutive.single object).append ((ih.trail [_]).skip [_, _, _])
  | construct _ ih => exact (ih.trail [_]).skip [_, _]
  | array _ ih => exact (ih.trail [_]).skip [_]
  | paren _ ih =>
    simp only [Phrase.parts, Tree.parts, Tree.ofExpr_withSpan] at ih ⊢
    exact (ih.trail [_]).skip [_]
  | last _ h _ => exact .single h
  | more _ h _ _ ih => exact (Consecutive.single h).append (ih.skip [_])
  | next h _ _ ih => exact (Consecutive.single h).append ih
  | expression h hts _ =>
    subst hts
    exact (Consecutive.single h).trail _
  | declare h hts _ =>
    subst hts
    exact ((Consecutive.single h).trail [_]).skip [_, _, _]
  | assign _ place h hts _ _ =>
    subst hts
    exact (Consecutive.single place).append (((Consecutive.single h).trail [_]).skip [_])
  | block _ hts ih =>
    subst hts
    exact (ih.trail [_]).skip [_]
  | arm _ condition _ hts _ ih =>
    subst hts
    exact ((Consecutive.single condition).append ((ih.trail [_]).skip [_])).skip [_]
  | branch _ _ ih =>
    simpa [Phrase.parts, Tree.parts, Tree.ofStmt] using ih
  | branchElse _ _ hts iha ihb =>
    subst hts
    exact iha.append ((ihb.trail [_]).skip [_, _])
  | loop condition _ hts _ ih =>
    subst hts
    exact ((Consecutive.single condition).append ((ih.trail [_]).skip [_])).skip [_]
  | giveBackValue h hts _ =>
    subst hts
    exact ((Consecutive.single h).trail [_]).skip [_]
  | @function _ _ rs _ _ _ _ _ _ _ _ _ _ _ _ _ _ hts ihp ihb =>
    subst hts
    exact (ihp.append ((((ihb.trail [_]).skip [_]).skip rs).skip [_])).skip [_, _, _]
  | type _ hts ih =>
    subst hts
    exact (ih.trail [_]).skip [_, _, _]

/-! ## Trees of tokens in order -/

section ordered

variable {ts : Tokens} {t : Tree} {l : List Tree}

theorem Tree.own_start (ts : Tokens) (t : Tree) : t.own ts <+: ts := by
  unfold Tree.own
  split
  · exact List.take_prefix 1 ts
  · exact List.take_prefix 1 ts
  · exact List.take_prefix 1 ts
  · exact List.prefix_rfl

theorem Tree.own_of_mem_parts {p : Tree} (hp : p ∈ t.parts) : t.own ts = ts := by
  unfold Tree.own
  split
  · cases hp
  · cases hp
  · cases hp
  · rfl

/-- A tree has the position of the first of its tokens, and ends where one of them does. -/
theorem Written.span_eq (h : Written ts (.tree t)) (hs : Successive ts) :
    ∃ a b, ts.head? = some a ∧ b ∈ ts ∧
      t.span = ⟨a.span.start, b.span.stop, a.span.line, a.span.column⟩ := by
  obtain ⟨hne, hspan⟩ := h.fits hs
  obtain ⟨a, b, ha, hb⟩ := exists_ends hne
  have hstart := t.own_start ts
  refine ⟨a, b, ?_, hstart.subset (List.mem_of_getLast? hb), ?_⟩
  · obtain ⟨r, hr⟩ := hstart
    rw [← hr, List.head?_append, ha]
    rfl
  · rw [hspan, (hs.stretch hstart.isInfix).extent_eq ha hb]

/-- A tree holds the regions of its parts. -/
theorem Written.within {p : Tree} (h : Written ts (.tree t)) (hs : Successive ts)
    (hp : p ∈ t.parts) : t.span.start ≤ p.span.start ∧ p.span.stop ≤ t.span.stop := by
  obtain ⟨us, hus, hwritten⟩ := h.consecutive.written_of_mem hp
  obtain ⟨a, b, ha, hb, hspan⟩ := hwritten.span_eq (hs.stretch hus)
  -- What has parts reaches over all its tokens.
  have hfits := (h.fits hs).2
  rw [Tree.own_of_mem_parts hp] at hfits
  rw [hfits, hspan]
  exact ⟨(hs.mem_extent (hus.subset (List.mem_of_head? ha))).1,
    (hs.mem_extent (hus.subset hb)).2⟩

/-- Trees one after the other are apart, in the order of the source. -/
theorem Consecutive.pairwise (h : Consecutive ts l) (hs : Successive ts) :
    l.Pairwise fun t s => t.span.stop ≤ s.span.start := by
  induction h with
  | nil => exact .nil
  | @cons us vs t more ts h rest ih =>
    have hright : Successive (us ++ vs) := hs.stretch (List.suffix_append ts _).isInfix
    refine .cons (fun s hmem => ?_) (ih (hright.stretch (List.suffix_append us vs).isInfix))
    obtain ⟨_, b, -, hb, hspan⟩ := h.span_eq hright.left
    obtain ⟨ws, hws, hwritten⟩ := rest.written_of_mem hmem
    obtain ⟨a, _, ha, -, hspan'⟩ :=
      hwritten.span_eq ((hright.stretch (List.suffix_append us vs).isInfix).stretch hws)
    rw [hspan, hspan']
    exact hright.lt_append hb (hws.subset (List.mem_of_head? ha))

end ordered

end Scriptlet.Program
