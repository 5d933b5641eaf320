import Scriptlet.Proofs.Code.Binding
import Scriptlet.Proofs.Code.Image
import Scriptlet.Proofs.Code.WellFormed

/-!
# Which programs are compiled

A program is compiled exactly if it is well-formed. While statements are compiled, the scope shows
what the points of the program say: the live locals, those of the innermost block among them, and
whether a loop is around (`Scope.Shows`). With this, a part of a program is accepted exactly if all its
points fit (`accepted_expr`, `accepted_stmts`).

Main statement: `Program.compile_accepts_iff`.
-/

namespace Scriptlet

/-- There is a result. -/
def Accepted {ε α : Type} (x : Except ε α) : Prop := ∃ a, x = .ok a

section accepted

variable {ε α β : Type} {x : Except ε α} {k : α → Except ε β}

theorem accepted_ok (a : α) : Accepted (.ok a : Except ε α) := ⟨a, rfl⟩

theorem not_accepted_error (e : ε) : ¬ Accepted (.error e : Except ε α) := by
  rintro ⟨a, h⟩
  cases h

theorem accepted_bind : Accepted (x >>= k) ↔ ∃ a, x = .ok a ∧ Accepted (k a) := by
  constructor
  · rintro ⟨b, hb⟩
    obtain ⟨a, ha, hk⟩ := Compile.of_bind_ok hb
    exact ⟨a, ha, b, hk⟩
  · rintro ⟨a, rfl, b, hb⟩
    exact ⟨b, hb⟩

/-- What follows is accepted for every result, or for none. -/
theorem accepted_bind_iff {P : Prop} (h : ∀ a, x = .ok a → (Accepted (k a) ↔ P)) :
    Accepted (x >>= k) ↔ Accepted x ∧ P := by
  rw [accepted_bind]
  constructor
  · rintro ⟨a, ha, hk⟩
    exact ⟨⟨a, ha⟩, (h a ha).1 hk⟩
  · rintro ⟨⟨a, ha⟩, hP⟩
    exact ⟨a, ha, (h a ha).2 hP⟩

theorem accepted_bind_of_accepted (h : ∀ a, Accepted (k a)) : Accepted (x >>= k) ↔ Accepted x := by
  rw [accepted_bind_iff (P := True) fun a _ => ⟨fun _ => trivial, fun _ => h a⟩, and_true]

theorem accepted_bind_pure {f : α → β} : Accepted (x >>= fun a => pure (f a)) ↔ Accepted x :=
  accepted_bind_of_accepted fun _ => accepted_ok _

end accepted

/-! ## Scopes -/

namespace Scope

/-- The names in some blocks, those of the outermost block first. -/
def namesIn : List Block → List Symbol
  | [] => []
  | b :: bs => namesIn bs ++ b.names

/-- The names that are live in a scope. -/
def names (sc : Scope) : List Symbol := namesIn sc.blocks

theorem length_names (sc : Scope) : sc.names.length = sc.liveSlots := by
  have hblocks : ∀ bs, (namesIn bs).length = countNames bs := fun bs => by
    induction bs with
    | nil => rfl
    | cons b bs ih =>
      rw [namesIn, countNames, List.length_append, ih]
      omega
  exact hblocks sc.blocks

theorem slot?_eq_none_iff {sc : Scope} {n : Symbol} : sc.slot? n = none ↔ n ∉ sc.names := by
  have hblocks : ∀ bs, slotIn? n bs = none ↔ n ∉ namesIn bs := fun bs => by
    induction bs with
    | nil => simp [slotIn?, namesIn]
    | cons b bs ih =>
      rw [slotIn?, namesIn, List.mem_append, not_or, ← ih]
      cases hi : b.names.idxOf? n with
      | none =>
        rw [List.idxOf?_eq_none_iff] at hi
        exact ⟨fun h => ⟨h, hi⟩, fun h => h.1⟩
      | some i =>
        refine ⟨fun h => (by cases h), fun h => ?_⟩
        rw [List.idxOf?_eq_none_iff.2 h.2] at hi
        cases hi
  rw [slot?, Option.map_eq_none_iff]
  exact hblocks sc.blocks

/-- A scope shows what is live at a point of a program, and whether a loop is around it. -/
structure Shows (sc : Scope) (inner locals : List Symbol) (looping : Bool) : Prop where
  block : ∃ b bs, sc.blocks = b :: bs ∧ b.names = inner
  live : sc.names = locals
  loop : sc.loopSlots?.isSome = looping
  fits : locals.length ≤ 256

variable {sc : Scope} {inner locals : List Symbol} {looping : Bool}

theorem shows_function : function.Shows [] [] false :=
  ⟨⟨_, _, rfl, rfl⟩, rfl, rfl, Nat.zero_le _⟩

theorem Shows.enter_plain (h : sc.Shows inner locals looping) :
    (sc.enter .plain).Shows [] locals looping where
  block := ⟨_, _, rfl, rfl⟩
  live := by
    rw [← h.live]
    exact List.append_nil _
  loop := by
    rw [← h.loop]
    exact Option.isSome_map
  fits := h.fits

theorem Shows.enter_loop (h : sc.Shows inner locals looping) :
    (sc.enter .loop).Shows [] locals true where
  block := ⟨_, _, rfl, rfl⟩
  live := by
    rw [← h.live]
    exact List.append_nil _
  loop := rfl
  fits := h.fits

theorem isSome_outerSlots? (sc : Scope) : sc.outerSlots?.isSome = sc.loopSlots?.isSome :=
  Option.isSome_map

theorem Shows.declare {name : Symbol} {slot : UInt8} {next : Scope} (h : sc.Shows inner locals looping)
    (hd : sc.declare name = .ok (slot, next)) :
    next.Shows (inner ++ [name]) (locals ++ [name]) looping := by
  have houter := outerSlots?_declare hd
  obtain ⟨⟨b, bs, hb, -, hnext⟩, -, hlt⟩ := declare_ok hd
  obtain ⟨b', bs', hb', hinner⟩ := h.block
  cases hb.symm.trans hb'
  have hlocals := h.live
  refine ⟨⟨_, _, hnext, by rw [hinner]⟩, ?_, ?_, ?_⟩
  · rw [names, hb, namesIn] at hlocals
    rw [names, hnext, namesIn, ← List.append_assoc, hlocals]
  · rw [← h.loop, ← isSome_outerSlots?, ← isSome_outerSlots?, houter]
  · rw [List.length_append, ← hlocals, length_names]
    exact hlt

theorem Shows.accepted_declare {name : Symbol} (h : sc.Shows inner locals looping) :
    Accepted (sc.declare name) ↔ name ∉ inner ∧ locals.length < 256 := by
  obtain ⟨b, bs, hb, hinner⟩ := h.block
  have hlive : sc.liveSlots = locals.length := by rw [← length_names, h.live]
  rw [Scope.declare, hb]
  simp only [hinner, hlive, List.contains_iff_mem]
  split
  · next hn => exact ⟨fun ha => absurd ha (not_accepted_error _), fun ha => absurd hn ha.1⟩
  · next hn =>
    split
    · next hl =>
      exact ⟨fun ha => absurd ha (not_accepted_error _), fun ha => absurd hl (Nat.not_le.2 ha.2)⟩
    · next hl => exact ⟨fun _ => ⟨hn, Nat.not_le.1 hl⟩, fun _ => accepted_ok _⟩

end Scope

namespace Compile

/-! ## Declared functions and types -/

/-- The tables hold the declarations of a program. -/
structure Declares (p : Program) (env : Env) : Prop where
  functions : env.prototypes.functions.toList = p.functions.map functionEntry
  types : env.prototypes.structs.toList = p.types.map structEntry
  distinct : env.prototypes.Distinct

variable {p : Program} {env : Env}

theorem Declares.function?_none (h : Declares p env) {n : Symbol}
    (hn : env.prototypes.function? n = none) : ∀ d ∈ p.functions, d.name ≠ n := fun d hd =>
  Prototypes.name_ne_of_function? hn (e := functionEntry d) (by
    rw [h.functions]
    exact List.mem_map_of_mem hd)

theorem Declares.struct?_none (h : Declares p env) {n : Symbol}
    (hn : env.prototypes.struct? n = none) : ∀ d ∈ p.types, d.name ≠ n := fun d hd =>
  Prototypes.name_ne_of_struct? hn (e := structEntry d) (by
    rw [h.types]
    exact List.mem_map_of_mem hd)

/-- A function that is found is the only one with its name. -/
theorem Declares.function?_some (h : Declares p env) {n : Symbol} {id : UInt32} {e : FunctionEntry}
    (hn : env.prototypes.function? n = some (id, e)) :
    ∃ d, (∀ d' ∈ p.functions, d'.name = n ↔ d' = d) ∧ d ∈ p.functions ∧ e.arity = d.params.length := by
  obtain ⟨he, rfl⟩ := h.distinct.function?_toNat hn
  have hmem : e ∈ env.prototypes.functions.toList := by
    rw [← Array.getElem?_toList] at he
    exact List.mem_of_getElem? he
  rw [h.functions] at hmem
  obtain ⟨d, hd, rfl⟩ := List.mem_map.1 hmem
  have hnames := h.distinct.functions
  rw [h.functions, List.map_map] at hnames
  refine ⟨d, fun d' hd' => ⟨fun heq => List.inj_on_of_nodup_map hnames hd' hd heq, fun heq => ?_⟩, hd,
    List.length_map _⟩
  rw [heq]
  rfl

/-- A type that is found is the only one with its name. -/
theorem Declares.struct?_some (h : Declares p env) {n : Symbol} {id : UInt32} {e : StructEntry}
    (hn : env.prototypes.struct? n = some (id, e)) :
    ∃ d, (∀ d' ∈ p.types, d'.name = n ↔ d' = d) ∧ d ∈ p.types ∧ e.fields.length = d.fields.length := by
  obtain ⟨i, -, he, rfl⟩ := Prototypes.of_struct? hn
  have hmem : e ∈ env.prototypes.structs.toList := by
    rw [← Array.getElem?_toList] at he
    exact List.mem_of_getElem? he
  rw [h.types] at hmem
  obtain ⟨d, hd, rfl⟩ := List.mem_map.1 hmem
  have hnames := h.distinct.structs
  rw [h.types, List.map_map] at hnames
  refine ⟨d, fun d' hd' => ⟨fun heq => List.inj_on_of_nodup_map hnames hd' hd heq, fun heq => ?_⟩, hd,
    List.length_map _⟩
  rw [heq]
  rfl

/-! ## Expressions -/

variable {sc : Scope}

theorem accepted_checkCount {args : List Expr} {span : Span} :
    Accepted (checkCount args span) ↔ args.length ≤ 255 := by
  unfold checkCount
  split
  · next h => exact ⟨fun ha => absurd ha (not_accepted_error _), fun ha => absurd h (by omega)⟩
  · next h => exact ⟨fun _ => by omega, fun _ => accepted_ok _⟩

/-- If a callee names a declared function that no local hides, the arguments are those of it. -/
def DirectFits (p : Program) (locals : List Symbol) (callee : Expr) (args : List Expr) : Prop :=
  ∀ n ∈ callee.name?, n ∉ locals → ∀ d ∈ p.functions, d.name = n → args.length = d.params.length

theorem directFits_of_none (hp : Declares p env) {callee : Expr} {args : List Expr}
    (h : directCallee? env sc callee = none) : DirectFits p sc.names callee args := by
  intro n hn hlocal d hd hname
  cases callee with
  | name m span =>
    cases hn
    rw [directCallee?, Scope.slot?_eq_none_iff.2 hlocal] at h
    exact absurd hname (hp.function?_none (Option.map_eq_none_iff.1 h) d hd)
  | _ => cases hn

theorem directFits_of_some (hp : Declares p env) {callee : Expr} {args : List Expr} {n : Symbol}
    {id : UInt32} {arity : Nat} (h : directCallee? env sc callee = some (n, id, arity)) :
    callee.parts = [callee] ∧ callee.Fits p sc.names ∧
      (DirectFits p sc.names callee args ↔ arity = args.length) := by
  cases callee with
  | name m span =>
    refine ⟨rfl, trivial, ?_⟩
    rw [directCallee?] at h
    split at h
    · cases h
    · next hslot =>
      obtain ⟨⟨id', e⟩, hf, heq⟩ := Option.map_eq_some_iff.1 h
      cases heq
      obtain ⟨d, hd, hmem, harity⟩ := hp.function?_some hf
      change _ ↔ e.arity = _
      rw [harity]
      constructor
      · exact fun hfit => (hfit n rfl (Scope.slot?_eq_none_iff.1 hslot) d hmem ((hd d hmem).2 rfl)).symm
      · intro heq n' hn' _ d' hd' hname
        cases hn'
        rw [(hd d' hd').1 hname, heq]
  | _ => cases h

/-- A negated literal is left out of the code, but it is a part that fits. -/
theorem accepted_unary {op : UnaryOp} {e : Expr} {span : Span}
    (he : Accepted (expr env sc e) ↔ ∀ y ∈ e.parts, y.Fits p sc.names) :
    Accepted (expr env sc (.unary op e span)) ↔
      ∀ y ∈ (Expr.unary op e span).parts, y.Fits p sc.names := by
  rw [expr, Expr.parts, List.forall_mem_cons]
  cases hn : negated? op e with
  | none =>
    dsimp only
    rw [accepted_bind_pure, he]
    exact (Iff.of_eq (true_and _)).symm
  | some v =>
    have hparts : ∀ y ∈ e.parts, y.Fits p sc.names := by
      cases e with
      | literal v span =>
        rw [Expr.parts, List.forall_mem_singleton]
        trivial
      | _ => cases op <;> cases hn
    exact ⟨fun _ => ⟨trivial, hparts⟩, fun _ => accepted_ok _⟩

section calls

variable (hp : Declares p env)
include hp

theorem accepted_call {callee : Expr} {args : List Expr} {span : Span}
    (hcallee : Accepted (expr env sc callee) ↔ ∀ y ∈ callee.parts, y.Fits p sc.names)
    (hargs : Accepted (exprs env sc args) ↔ ∀ y ∈ Expr.partsAll args, y.Fits p sc.names) :
    Accepted (expr env sc (.call callee args span)) ↔
      ∀ y ∈ (Expr.call callee args span).parts, y.Fits p sc.names := by
  rw [expr, Expr.parts, List.forall_mem_cons, List.forall_mem_append]
  change _ ↔ (args.length ≤ 255 ∧ DirectFits p sc.names callee args) ∧ _
  cases hd : directCallee? env sc callee with
  | some r =>
    obtain ⟨n, id, arity⟩ := r
    obtain ⟨hparts, hname, hfits⟩ := directFits_of_some hp hd
    rw [hparts, List.forall_mem_singleton, hfits]
    dsimp only
    split
    · next ha => exact ⟨fun h => absurd h (not_accepted_error _), fun h => absurd h.1.2 ha⟩
    · next ha =>
      rw [accepted_bind_iff fun _ _ => accepted_bind_pure, accepted_checkCount, hargs]
      tauto
  | none =>
    have hfits : DirectFits p sc.names callee args := directFits_of_none hp hd
    dsimp only
    rw [accepted_bind_iff fun _ _ => accepted_bind_iff fun _ _ => accepted_bind_pure,
      accepted_checkCount, hargs, hcallee]
    tauto

theorem accepted_construct {type : Symbol} {args : List Expr} {span : Span}
    (hargs : Accepted (exprs env sc args) ↔ ∀ y ∈ Expr.partsAll args, y.Fits p sc.names) :
    Accepted (expr env sc (.construct type args span)) ↔
      ∀ y ∈ (Expr.construct type args span).parts, y.Fits p sc.names := by
  rw [expr, Expr.parts, List.forall_mem_cons]
  change _ ↔ (args.length ≤ 255 ∧ ∃ d ∈ p.types, d.name = type ∧ args.length ≤ d.fields.length) ∧ _
  cases hs : env.prototypes.struct? type with
  | none =>
    refine ⟨fun h => absurd h (not_accepted_error _), fun h => ?_⟩
    obtain ⟨⟨-, d, hd, hname, -⟩, -⟩ := h
    exact absurd hname (hp.struct?_none hs d hd)
  | some r =>
    obtain ⟨id, entry⟩ := r
    obtain ⟨d, hd, hmem, hfields⟩ := hp.struct?_some hs
    -- a name belongs to one type at most, so this is the type that the compiler finds
    have hfits : (∃ d ∈ p.types, d.name = type ∧ args.length ≤ d.fields.length) ↔
        args.length ≤ entry.fields.length := by
      rw [hfields]
      refine ⟨fun ⟨d', hd', hname, hlen⟩ => (hd d' hd').1 hname ▸ hlen, fun hlen => ?_⟩
      exact ⟨d, hmem, (hd d hmem).2 rfl, hlen⟩
    rw [hfits]
    dsimp only
    split
    · next hlen => exact ⟨fun h => absurd h (not_accepted_error _), fun h => absurd h.1.2 (by omega)⟩
    · next hlen =>
      rw [accepted_bind_iff fun _ _ => accepted_bind_pure, accepted_checkCount, hargs]
      have := Nat.not_lt.1 hlen
      tauto

end calls

mutual

/-- An expression is accepted if all its parts are what they have to be. -/
theorem accepted_expr {p : Program} {env : Env} (hp : Declares p env) {sc : Scope} : ∀ e : Expr,
    Accepted (expr env sc e) ↔ ∀ y ∈ e.parts, y.Fits p sc.names
  | .literal v span => by
    rw [expr, Expr.parts, List.forall_mem_singleton]
    exact ⟨fun _ => trivial, fun _ => accepted_ok _⟩
  | .name n span => by
    rw [expr, Expr.parts, List.forall_mem_singleton]
    exact ⟨fun _ => trivial, fun _ => accepted_ok _⟩
  | .binary op l r span => by
    rw [expr, Expr.parts, List.forall_mem_cons, List.forall_mem_append,
      accepted_bind_iff fun _ _ => accepted_bind_pure, accepted_expr hp l, accepted_expr hp r]
    exact (Iff.of_eq (true_and _)).symm
  | .unary op e span => accepted_unary (accepted_expr hp e)
  | .array items span => by
    rw [expr, Expr.parts, List.forall_mem_cons, accepted_bind_pure, accepted_exprs hp items]
    exact (Iff.of_eq (true_and _)).symm
  | .index o i span => by
    rw [expr, Expr.parts, List.forall_mem_cons, List.forall_mem_append,
      accepted_bind_iff fun _ _ => accepted_bind_pure, accepted_expr hp o, accepted_expr hp i]
    exact (Iff.of_eq (true_and _)).symm
  | .field o n span => by
    rw [expr, Expr.parts, List.forall_mem_cons, accepted_bind_pure, accepted_expr hp o]
    exact (Iff.of_eq (true_and _)).symm
  | .call callee args span => accepted_call hp (accepted_expr hp callee) (accepted_exprs hp args)
  | .methodCall o n args span => by
    rw [expr, Expr.parts, List.forall_mem_cons, List.forall_mem_append,
      accepted_bind_iff fun _ _ => accepted_bind_iff fun _ _ => accepted_bind_pure,
      accepted_checkCount, accepted_expr hp o, accepted_exprs hp args]
    change _ ↔ args.length ≤ 255 ∧ _
    tauto
  | .construct type args span => accepted_construct hp (accepted_exprs hp args)

theorem accepted_exprs {p : Program} {env : Env} (hp : Declares p env) {sc : Scope} : ∀ es : List Expr,
    Accepted (exprs env sc es) ↔ ∀ y ∈ Expr.partsAll es, y.Fits p sc.names
  | [] => by
    rw [exprs, Expr.partsAll]
    exact ⟨fun _ y hy => absurd hy List.not_mem_nil, fun _ => accepted_ok _⟩
  | e :: es => by
    rw [exprs, Expr.partsAll, List.forall_mem_append,
      accepted_bind_iff fun _ _ => accepted_bind_pure, accepted_expr hp e, accepted_exprs hp es]

end

/-! ## Statements -/

theorem accepted_place (hp : Declares p env) (target : Expr) :
    Accepted (place env sc target) ↔
      target.isAssignable = true ∧ ∀ y ∈ target.parts, y.Fits p sc.names := by
  have hrefused : ∀ e : Expr, ¬ Accepted (do
      let _ ← expr env sc e
      throw ⟨.invalidTarget, e.span⟩ : Except Error Place) := fun e h => by
    obtain ⟨_, -, h⟩ := accepted_bind.1 h
    exact not_accepted_error _ h
  unfold place
  cases target with
  | name n span =>
    rw [Expr.parts, List.forall_mem_singleton]
    dsimp only
    cases sc.slot? n with
    | none => exact ⟨fun _ => ⟨rfl, trivial⟩, fun _ => accepted_ok _⟩
    | some slot => exact ⟨fun _ => ⟨rfl, trivial⟩, fun _ => accepted_ok _⟩
  | index o i span =>
    rw [Expr.parts, List.forall_mem_cons, List.forall_mem_append,
      accepted_bind_iff fun _ _ => accepted_bind_pure, accepted_expr hp, accepted_expr hp]
    exact ⟨fun h => ⟨rfl, trivial, h⟩, fun h => h.2.2⟩
  | field o n span =>
    rw [Expr.parts, List.forall_mem_cons, accepted_bind_pure, accepted_expr hp]
    exact ⟨fun h => ⟨rfl, trivial, h⟩, fun h => h.2.2⟩
  | _ => exact ⟨fun h => absurd h (hrefused _), fun h => by cases h.1⟩

theorem accepted_assignment (hp : Declares p env) (target value : Expr) (op : Option BinaryOp)
    (span : Span) : Accepted (assignment env sc target op value span) ↔
      target.isAssignable = true ∧ (∀ y ∈ target.parts, y.Fits p sc.names) ∧
        ∀ y ∈ value.parts, y.Fits p sc.names := by
  unfold assignment
  rw [accepted_bind_iff fun _ _ => accepted_bind_of_accepted fun _ => ?_, accepted_place hp,
    accepted_expr hp, and_assoc]
  cases op with
  | none => exact accepted_ok _
  | some op => exact accepted_ok _

theorem accepted_declare {name : Symbol} {span : Span} :
    Accepted (declare env sc name span) ↔ Accepted (sc.declare name) := by
  refine ⟨fun ⟨r, hr⟩ => ⟨r, of_declare hr⟩, fun ⟨r, hr⟩ => ⟨r, ?_⟩⟩
  unfold declare
  rw [hr]

theorem accepted_loopJump {out : Fragment} {target : JumpTarget} {outside : Error} :
    Accepted (loopJump out sc target outside) ↔ sc.loopSlots?.isSome = true := by
  unfold loopJump
  cases sc.loopSlots? with
  | none => exact ⟨fun h => absurd h (not_accepted_error _), fun h => by cases h⟩
  | some count => exact ⟨fun _ => rfl, fun _ => accepted_ok _⟩

section points

variable {locals : List Symbol} {looping : Bool}

theorem fits_exprs (h : locals.length ≤ 256) (es : List Expr) :
    (∀ x ∈ es.map fun e => (⟨locals, looping, .expr e⟩ : Point), x.Fits p) ↔
      ∀ y ∈ es, y.Fits p locals := by
  rw [List.forall_mem_map]
  exact forall₂_congr fun y _ => and_iff_right h

theorem fits_pointsAt (h : locals.length ≤ 256) (s : Stmt) (es : List Expr) :
    (∀ x ∈ pointsAt locals looping s es, x.Fits p) ↔
      s.Fits looping ∧ ∀ y ∈ Expr.partsAll es, y.Fits p locals := by
  rw [pointsAt, List.forall_mem_cons, fits_exprs h]
  exact and_congr_left' (and_iff_right h)

theorem fits_pointsAt_nil (h : locals.length ≤ 256) (s : Stmt) :
    (∀ x ∈ pointsAt locals looping s [], x.Fits p) ↔ s.Fits looping := by
  rw [fits_pointsAt h, Expr.partsAll]
  exact and_iff_left fun y hy => absurd hy List.not_mem_nil

theorem fits_block (h : locals.length ≤ 256) (names : List Symbol) :
    (⟨locals, looping, .block names⟩ : Point).Fits p ↔ names.Nodup :=
  and_iff_right h

theorem partsAll_singleton (e : Expr) : Expr.partsAll [e] = e.parts := by
  rw [Expr.partsAll, Expr.partsAll, List.append_nil]

end points

theorem accepted_stmts_cons {s : Stmt} {ss : List Stmt} : Accepted (stmts env sc (s :: ss)) ↔
    ∃ f next, stmt env sc s = .ok (f, next) ∧ Accepted (stmts env next ss) := by
  constructor
  · rintro ⟨⟨f, last⟩, h⟩
    obtain ⟨fs, next, fss, hs, hss, -⟩ := stmts_cons h
    exact ⟨fs, next, hs, _, hss⟩
  · rintro ⟨f, next, hs, ⟨fss, last⟩, hss⟩
    refine ⟨(f ++ fss, last), ?_⟩
    rw [stmts, hs]
    change (stmts env next ss >>= _) = _
    rw [hss]
    rfl

theorem stmt_shows {s : Stmt} {f : Fragment} {next : Scope} {inner locals : List Symbol}
    {looping : Bool} (h : stmt env sc s = .ok (f, next)) (hsc : sc.Shows inner locals looping) :
    next.Shows (inner ++ s.declared) (locals ++ s.declared) looping := by
  have hsame : sc.Shows (inner ++ []) (locals ++ []) looping := by
    rw [List.append_nil, List.append_nil]
    exact hsc
  cases stmt_code h with
  | declare he hd => exact hsc.declare hd
  | _ => exact hsame

theorem exists_mem_stmtsPoints (locals : List Symbol) (looping : Bool) (ss : List Stmt) :
    ∃ x ∈ stmtsPoints locals looping ss, x.locals = locals := by
  cases ss with
  | nil =>
    rw [stmtsPoints]
    exact ⟨_, List.mem_cons_self, rfl⟩
  | cons s ss =>
    rw [stmtsPoints]
    refine ⟨⟨locals, looping, .stmt s⟩, List.mem_append_left _ ?_, rfl⟩
    rcases s with _ | _ | _ | _ | ⟨_, _ | _, _⟩ | _ | _ | _ | _ | _ | _ <;>
    · rw [stmtPoints]
      simp [pointsAt]

/-- A statement without names of its own. -/
theorem accepted_iff_of_declared_nil {s : Stmt} {inner locals : List Symbol} {looping : Bool}
    (hs : s.declared = [])
    (h : Accepted (stmt env sc s) ↔ ∀ x ∈ stmtPoints locals looping s, x.Fits p) :
    Accepted (stmt env sc s) ↔ (∀ n ∈ s.declared, n ∉ inner ∧ locals.length < 256) ∧
      ∀ x ∈ stmtPoints locals looping s, x.Fits p := by
  rw [h, hs]
  exact (and_iff_right fun n hn => absurd hn List.not_mem_nil).symm

mutual

theorem accepted_stmt {p : Program} {env : Env} (hp : Declares p env) : ∀ (s : Stmt) {sc : Scope}
    {inner locals : List Symbol} {looping : Bool}, sc.Shows inner locals looping →
    (Accepted (stmt env sc s) ↔ (∀ n ∈ s.declared, n ∉ inner ∧ locals.length < 256) ∧
      ∀ x ∈ stmtPoints locals looping s, x.Fits p)
  | .expression e span, sc, _, _, _, h => by
    refine accepted_iff_of_declared_nil rfl ?_
    rw [stmt, stmtPoints, fits_pointsAt h.fits, partsAll_singleton, accepted_bind_pure,
      accepted_expr hp, h.live]
    exact (and_iff_right trivial).symm
  | .declare name e span, sc, _, _, _, h => by
    rw [stmt, stmtPoints, fits_pointsAt h.fits, partsAll_singleton,
      accepted_bind_iff fun _ _ => accepted_bind_of_accepted fun ⟨_, _⟩ => accepted_ok _,
      accepted_expr hp, accepted_declare, h.accepted_declare, h.live, Stmt.declared,
      List.forall_mem_singleton]
    exact ⟨fun h => ⟨h.2, trivial, h.1⟩, fun h => ⟨h.2.2, h.1⟩⟩
  | .assign target op value span, sc, _, _, _, h => by
    refine accepted_iff_of_declared_nil rfl ?_
    rw [stmt, stmtPoints, fits_pointsAt h.fits, Expr.partsAll, partsAll_singleton,
      accepted_bind_pure, accepted_assignment hp, h.live, List.forall_mem_append]
    rfl
  | .block body span, sc, _, _, _, h => by
    refine accepted_iff_of_declared_nil rfl ?_
    rw [stmt, stmtPoints, accepted_bind_pure, accepted_stmts hp body h.enter_plain List.nodup_nil,
      List.forall_mem_append, fits_pointsAt_nil h.fits, List.forall_mem_cons, fits_block h.fits]
    exact (and_iff_right trivial).symm
  | .branch branches none span, sc, _, _, _, h => by
    refine accepted_iff_of_declared_nil rfl ?_
    rw [stmt, stmtPoints, accepted_bind_pure, accepted_arms hp branches h, List.forall_mem_append,
      fits_pointsAt_nil h.fits]
    exact (and_iff_right trivial).symm
  | .branch branches (some body) span, sc, _, _, _, h => by
    refine accepted_iff_of_declared_nil rfl ?_
    rw [stmt, stmtPoints, accepted_bind_iff fun _ _ => accepted_bind_pure, accepted_arms hp branches h,
      accepted_stmts hp body h.enter_plain List.nodup_nil, List.forall_mem_append,
      fits_pointsAt_nil h.fits, List.forall_mem_append, List.forall_mem_cons, fits_block h.fits]
    exact (and_iff_right trivial).symm
  | .loop condition body span, sc, _, _, _, h => by
    refine accepted_iff_of_declared_nil rfl ?_
    rw [stmt, stmtPoints, accepted_bind_iff fun _ _ => accepted_bind_pure, accepted_expr hp,
      accepted_stmts hp body h.enter_loop List.nodup_nil, List.forall_mem_append,
      fits_pointsAt h.fits, partsAll_singleton, List.forall_mem_cons, fits_block h.fits, h.live]
    exact and_congr_left' (and_iff_right trivial).symm
  | .exitLoop span, sc, _, _, _, h => by
    refine accepted_iff_of_declared_nil rfl ?_
    rw [stmt, stmtPoints, accepted_bind_pure, accepted_loopJump, fits_pointsAt_nil h.fits, h.loop]
    rfl
  | .nextRound span, sc, _, _, _, h => by
    refine accepted_iff_of_declared_nil rfl ?_
    rw [stmt, stmtPoints, accepted_bind_pure, accepted_loopJump, fits_pointsAt_nil h.fits, h.loop]
    rfl
  | .giveBack none span, sc, _, _, _, h => by
    refine accepted_iff_of_declared_nil rfl ?_
    rw [stmt, stmtPoints, Option.toList_none, fits_pointsAt_nil h.fits]
    exact ⟨fun _ => trivial, fun _ => accepted_ok _⟩
  | .giveBack (some e) span, sc, _, _, _, h => by
    refine accepted_iff_of_declared_nil rfl ?_
    rw [stmt, stmtPoints, fits_pointsAt h.fits, Option.toList_some, partsAll_singleton, accepted_bind_pure,
      accepted_expr hp, h.live]
    exact (and_iff_right trivial).symm
  | .function decl span, sc, _, _, _, h => by
    refine accepted_iff_of_declared_nil rfl ?_
    rw [stmt, stmtPoints, fits_pointsAt_nil h.fits]
    exact ⟨fun h => absurd h (not_accepted_error _), fun h => h.elim⟩
  | .type decl span, sc, _, _, _, h => by
    refine accepted_iff_of_declared_nil rfl ?_
    rw [stmt, stmtPoints, fits_pointsAt_nil h.fits]
    exact ⟨fun h => absurd h (not_accepted_error _), fun h => h.elim⟩

/-- Statements are accepted if their names are new in their block and all their points fit. -/
theorem accepted_stmts {p : Program} {env : Env} (hp : Declares p env) : ∀ (ss : List Stmt) {sc : Scope}
    {inner locals : List Symbol} {looping : Bool}, sc.Shows inner locals looping → inner.Nodup →
    (Accepted (stmts env sc ss) ↔ (inner ++ declaredNames ss).Nodup ∧
      ∀ x ∈ stmtsPoints locals looping ss, x.Fits p)
  | [], sc, inner, _, _, h, hn => by
    rw [stmts, stmtsPoints, List.forall_mem_singleton, declaredNames, List.flatMap_nil,
      List.append_nil]
    exact ⟨fun _ => ⟨hn, h.fits, trivial⟩, fun _ => accepted_ok _⟩
  | s :: ss, sc, inner, locals, looping, h, hn => by
    rw [accepted_stmts_cons, stmtsPoints, List.forall_mem_append, declaredNames, List.flatMap_cons,
      ← List.append_assoc]
    constructor
    · rintro ⟨f, next, hs, hss⟩
      obtain ⟨hnew, hpoints⟩ := (accepted_stmt hp s h).1 ⟨_, hs⟩
      have hinner : (inner ++ s.declared).Nodup :=
        hn.append s.nodup_declared fun n hi hd => (hnew n hd).1 hi
      obtain ⟨hnodup, hrest⟩ := (accepted_stmts hp ss (stmt_shows hs h) hinner).1 hss
      exact ⟨hnodup, hpoints, hrest⟩
    · rintro ⟨hnodup, hpoints, hrest⟩
      have hinner := (List.nodup_append.1 hnodup).1
      have hnew : ∀ n ∈ s.declared, n ∉ inner ∧ locals.length < 256 := fun n hd => by
        obtain ⟨x, hx, hlocals⟩ := exists_mem_stmtsPoints (locals ++ s.declared) looping ss
        have hlen := (hrest x hx).1
        have := List.length_pos_of_mem hd
        rw [hlocals, List.length_append] at hlen
        exact ⟨fun hi => (List.nodup_append.1 hinner).2.2 n hi n hd rfl, by omega⟩
      obtain ⟨⟨f, next⟩, hs⟩ := (accepted_stmt hp s h).2 ⟨hnew, hpoints⟩
      exact ⟨f, next, hs, (accepted_stmts hp ss (stmt_shows hs h) hinner).2 ⟨hnodup, hrest⟩⟩

theorem accepted_arms {p : Program} {env : Env} (hp : Declares p env) : ∀ (as : List (Arm Stmt))
    {sc : Scope} {inner locals : List Symbol} {looping : Bool}, sc.Shows inner locals looping →
    (Accepted (arms env sc as) ↔ ∀ x ∈ armsPoints locals looping as, x.Fits p)
  | [], sc, _, _, _, h => by
    rw [arms, armsPoints]
    exact ⟨fun _ x hx => absurd hx List.not_mem_nil, fun _ => accepted_ok _⟩
  | ⟨condition, body, span⟩ :: rest, sc, _, _, _, h => by
    rw [arms, armsPoints, accepted_bind_iff fun _ _ => accepted_bind_iff fun _ _ => accepted_bind_pure,
      accepted_expr hp, accepted_stmts hp body h.enter_plain List.nodup_nil, accepted_arms hp rest h,
      h.live, List.forall_mem_append, List.forall_mem_append, List.forall_mem_cons, fits_exprs h.fits,
      fits_block h.fits, List.nil_append, and_assoc, and_assoc, and_assoc]

end

/-! ## Functions -/

theorem declareParams_shows {bs : List Binder} {inner locals : List Symbol} {looping : Bool}
    {next : Scope} (h : declareParams env sc bs = .ok next) (hsc : sc.Shows inner locals looping) :
    next.Shows (inner ++ bs.map Binder.name) (locals ++ bs.map Binder.name) looping := by
  induction bs generalizing sc inner locals with
  | nil =>
    cases h
    rw [List.map_nil, List.append_nil, List.append_nil]
    exact hsc
  | cons b bs ih =>
    rw [declareParams] at h
    obtain ⟨⟨slot, mid⟩, hd, h⟩ := of_bind_ok h
    have := ih h (hsc.declare (of_declare hd))
    rwa [List.append_assoc, List.append_assoc] at this

theorem accepted_declareParams {bs : List Binder} {inner locals : List Symbol} {looping : Bool}
    (h : sc.Shows inner locals looping) (hn : inner.Nodup) :
    Accepted (declareParams env sc bs) ↔
      (inner ++ bs.map Binder.name).Nodup ∧ locals.length + bs.length ≤ 256 := by
  induction bs generalizing sc inner locals with
  | nil =>
    rw [declareParams, List.map_nil, List.append_nil]
    exact ⟨fun _ => ⟨hn, h.fits⟩, fun _ => accepted_ok _⟩
  | cons b bs ih =>
    have hsplit : inner ++ (b :: bs).map Binder.name = inner ++ [b.name] ++ bs.map Binder.name := by
      rw [List.map_cons, List.append_cons]
    have hlen : locals.length + (b :: bs).length = (locals ++ [b.name]).length + bs.length := by
      rw [List.length_cons, List.length_append, List.length_singleton]
      omega
    rw [declareParams, accepted_bind, hsplit, hlen]
    constructor
    · rintro ⟨⟨slot, next⟩, hd, hrest⟩
      have hnew := (h.accepted_declare.1 ⟨_, of_declare hd⟩).1
      have hinner : (inner ++ [b.name]).Nodup :=
        hn.append (List.nodup_singleton _) fun n hi hb => hnew (List.mem_singleton.1 hb ▸ hi)
      exact (ih (h.declare (of_declare hd)) hinner).1 hrest
    · rintro ⟨hnodup, hfits⟩
      have hinner := (List.nodup_append.1 hnodup).1
      have hnew : b.name ∉ inner := fun hi =>
        (List.nodup_append.1 hinner).2.2 _ hi _ List.mem_cons_self rfl
      rw [List.length_append, List.length_singleton] at hfits
      obtain ⟨⟨slot, next⟩, hd⟩ := accepted_declare.2 (h.accepted_declare.2 ⟨hnew, by omega⟩)
      refine ⟨_, hd, (ih (h.declare (of_declare hd)) hinner).2 ⟨hnodup, ?_⟩⟩
      rw [List.length_append, List.length_singleton]
      exact hfits

theorem accepted_mainBody (hp : Declares p env) (body : List Stmt) :
    Accepted (mainBody env body) ↔ ∀ x ∈ bodyPoints [] body, x.Fits p := by
  unfold mainBody
  rw [accepted_bind_of_accepted fun ⟨_, _⟩ => accepted_ok _,
    accepted_stmts hp body Scope.shows_function List.nodup_nil, bodyPoints, List.forall_mem_cons,
    fits_block (Nat.zero_le _)]

theorem accepted_functionBody (hp : Declares p env) (d : Function) :
    Accepted (functionBody env d) ↔ ∀ x ∈ bodyPoints (d.params.map Binder.name) d.body, x.Fits p := by
  have hempty := Scope.shows_function
  rw [bodyPoints, List.forall_mem_cons, fits_block (Nat.zero_le _)]
  unfold functionBody
  rw [accepted_bind]
  constructor
  · rintro ⟨sc, hparams, hbody⟩
    have hnodup := ((accepted_declareParams hempty List.nodup_nil).1 ⟨_, hparams⟩).1
    rw [accepted_bind_of_accepted fun ⟨_, _⟩ => accepted_ok _] at hbody
    exact (accepted_stmts hp d.body (declareParams_shows hparams hempty) hnodup).1 hbody
  · rintro ⟨hnodup, hpoints⟩
    have hnames := (List.nodup_append.1 hnodup).1
    have hfits : ([] : List Symbol).length + d.params.length ≤ 256 := by
      obtain ⟨x, hx, hlocals⟩ := exists_mem_stmtsPoints (d.params.map Binder.name) false d.body
      have hlen := (hpoints x hx).1
      rw [hlocals, List.length_map] at hlen
      rw [List.length_nil, Nat.zero_add]
      exact hlen
    obtain ⟨sc, hparams⟩ := (accepted_declareParams hempty List.nodup_nil).2 ⟨hnames, hfits⟩
    refine ⟨sc, hparams, ?_⟩
    rw [accepted_bind_of_accepted fun ⟨_, _⟩ => accepted_ok _]
    exact (accepted_stmts hp d.body (declareParams_shows hparams hempty) hnames).2 ⟨hnodup, hpoints⟩

theorem accepted_linkFunctions (ds : List Function) (q : Prototypes) (out : PlacedCode) :
    Accepted (linkFunctions env q out ds) ↔ ∀ d ∈ ds, Accepted (functionBody env d) := by
  induction ds generalizing q out with
  | nil => exact ⟨fun _ d hd => absurd hd List.not_mem_nil, fun _ => accepted_ok _⟩
  | cons d ds ih =>
    rw [linkFunctions, List.forall_mem_cons]
    refine accepted_bind_iff fun f hf => ?_
    rw [accepted_bind_iff fun _ _ => ih _ _]
    exact and_iff_right (link_of_bound (functionBody_bound hf) out)

/-! ## Registration -/

section registration

variable {q : Prototypes} {n : Symbol}

theorem function?_eq_none_iff :
    q.function? n = none ↔ n ∉ q.functions.toList.map FunctionEntry.name := by
  constructor
  · intro h hn
    obtain ⟨e, he, rfl⟩ := List.mem_map.1 hn
    exact Prototypes.name_ne_of_function? h he rfl
  · intro hn
    refine Option.eq_none_iff_forall_not_mem.2 fun r hr => hn ?_
    obtain ⟨i, -, he, rfl⟩ := Prototypes.of_function? hr
    rw [← Array.getElem?_toList] at he
    exact List.mem_map_of_mem (List.mem_of_getElem? he)

theorem struct?_eq_none_iff :
    q.struct? n = none ↔ n ∉ q.structs.toList.map StructEntry.name := by
  constructor
  · intro h hn
    obtain ⟨e, he, rfl⟩ := List.mem_map.1 hn
    exact Prototypes.name_ne_of_struct? h he rfl
  · intro hn
    refine Option.eq_none_iff_forall_not_mem.2 fun r hr => hn ?_
    obtain ⟨i, -, he, rfl⟩ := Prototypes.of_struct? hr
    rw [← Array.getElem?_toList] at he
    exact List.mem_map_of_mem (List.mem_of_getElem? he)

theorem accepted_registerTypes {pool : Pool} {ds : List TypeDecl}
    (h : (q.structs.toList.map StructEntry.name).Nodup) : Accepted (registerTypes pool q ds) ↔
      (q.structs.toList.map StructEntry.name ++ ds.map TypeDecl.name).Nodup := by
  induction ds generalizing q with
  | nil =>
    rw [List.map_nil, List.append_nil]
    exact ⟨fun _ => h, fun _ => accepted_ok _⟩
  | cons d ds ih =>
    rw [registerTypes, Prototypes.addStruct?, List.map_cons, List.append_cons]
    by_cases hs : q.struct? d.name = none
    · have hnew := struct?_eq_none_iff.1 hs
      have hnames : (q.structs.toList.map StructEntry.name ++ [d.name]).Nodup :=
        h.append (List.nodup_singleton _) fun n hn hd => hnew (List.mem_singleton.1 hd ▸ hn)
      rw [if_neg (by rw [hs]; exact Bool.false_ne_true)]
      dsimp only
      rw [ih (by simpa using hnames), Array.toList_push, List.map_append, List.map_singleton]
    · rw [if_pos (Option.isSome_iff_ne_none.2 hs)]
      refine ⟨fun ha => absurd ha (not_accepted_error _), fun ha => ?_⟩
      have hnew := List.nodup_append.1 (List.nodup_append.1 ha).1
      exact absurd (struct?_eq_none_iff.2 fun hn => hnew.2.2 _ hn _ List.mem_cons_self rfl) hs

theorem accepted_registerFunctions {pool : Pool} {ds : List Function}
    (h : (q.functions.toList.map FunctionEntry.name).Nodup) : Accepted (registerFunctions pool q ds) ↔
      (q.functions.toList.map FunctionEntry.name ++ ds.map FunctionDecl.name).Nodup := by
  induction ds generalizing q with
  | nil =>
    rw [List.map_nil, List.append_nil]
    exact ⟨fun _ => h, fun _ => accepted_ok _⟩
  | cons d ds ih =>
    rw [registerFunctions, Prototypes.addFunction?, List.map_cons, List.append_cons]
    by_cases hs : q.function? d.name = none
    · have hnew := function?_eq_none_iff.1 hs
      have hnames : (q.functions.toList.map FunctionEntry.name ++ [d.name]).Nodup :=
        h.append (List.nodup_singleton _) fun n hn hd => hnew (List.mem_singleton.1 hd ▸ hn)
      rw [if_neg (by rw [hs]; exact Bool.false_ne_true)]
      dsimp only
      rw [ih (by simpa using hnames), Array.toList_push, List.map_append, List.map_singleton]
    · rw [if_pos (Option.isSome_iff_ne_none.2 hs)]
      refine ⟨fun ha => absurd ha (not_accepted_error _), fun ha => ?_⟩
      have hnew := List.nodup_append.1 (List.nodup_append.1 ha).1
      exact absurd (function?_eq_none_iff.2 fun hn => hnew.2.2 _ hn _ List.mem_cons_self rfl) hs

end registration

/-- What a program declares is registered if it is distinct. -/
theorem accepted_register (p : Program) (pool : Pool) : Accepted (register p pool) ↔
    (p.types.map TypeDecl.name).Nodup ∧ (p.functions.map FunctionDecl.name).Nodup := by
  have hempty : Prototypes.empty.Distinct := ⟨List.nodup_nil, List.nodup_nil⟩
  unfold register
  rw [accepted_bind_iff fun withTypes htypes => ?_, accepted_registerTypes hempty.structs]
  · rfl
  · obtain ⟨hdistinct, hfunctions, -⟩ := registerTypes_ok htypes hempty
    rw [accepted_registerFunctions hdistinct.functions, hfunctions]
    rfl

theorem declares_of_register {p : Program} {pool : Pool} {prototypes : Prototypes}
    (h : register p pool = .ok prototypes) : Declares p ⟨pool, prototypes⟩ := by
  unfold register at h
  obtain ⟨withTypes, htypes, hfunctions⟩ := of_bind_ok h
  obtain ⟨hd₁, hf₁, hs₁⟩ := registerTypes_ok htypes ⟨List.nodup_nil, List.nodup_nil⟩
  obtain ⟨hd₂, hs₂, hf₂⟩ := registerFunctions_ok hfunctions hd₁
  refine ⟨?_, ?_, hd₂⟩
  · rw [hf₂, hf₁]
    rfl
  · rw [hs₂, hs₁]
    rfl

/-- The code of a program whose declarations are registered. -/
def assemble (p : Program) (pool : Pool) (prototypes : Prototypes) : Except Error Bytecode := do
  let main ← mainBody ⟨pool, prototypes⟩ p.main
  let linked ← link ⟨#[], #[]⟩ main
  let (tables, out) ← linkFunctions ⟨pool, prototypes⟩ prototypes linked p.functions
  return { strings := pool, code := out.code, functions := tables.functions,
           structs := tables.structs, positions := out.positions }

theorem compile_eq_assemble (p : Program) (pool : Pool) :
    p.compile pool = register p pool >>= assemble p pool := by
  unfold Program.compile register
  cases registerTypes pool .empty p.types with
  | error e => rfl
  | ok withTypes => rfl

theorem accepted_assemble {p : Program} {pool : Pool} {prototypes : Prototypes}
    (hp : Declares p ⟨pool, prototypes⟩) :
    Accepted (assemble p pool prototypes) ↔ ∀ x ∈ p.points, x.Fits p := by
  rw [Program.points, List.forall_mem_append, List.forall_mem_flatMap, ← accepted_mainBody hp]
  refine accepted_bind_iff fun main hmain => ?_
  refine (accepted_bind_iff fun linked _ => ?_).trans
    (and_iff_right (link_of_bound (mainBody_bound hmain) _))
  rw [accepted_bind_of_accepted fun ⟨_, _⟩ => accepted_ok _, accepted_linkFunctions]
  exact forall₂_congr fun d _ => accepted_functionBody hp d

end Compile

open Compile in
/-- A program is compiled exactly if it is well-formed. What is refused is never refused because a jump
of a loop has no address. -/
theorem Program.compile_accepts_iff (p : Program) (pool : Pool) :
    ((∃ b, p.compile pool = .ok b) ↔ p.WellFormed) ∧
      ∀ jump span, p.compile pool ≠ .error ⟨.unboundJump jump, span⟩ := by
  refine ⟨?_, compile_linkable p pool⟩
  change Accepted (p.compile pool) ↔ _
  rw [compile_eq_assemble, accepted_bind_iff fun prototypes h => accepted_assemble (declares_of_register h),
    accepted_register, p.wellFormed_iff, and_assoc]

end Scriptlet
