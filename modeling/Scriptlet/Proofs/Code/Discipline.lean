import Scriptlet.Proofs.Code.Image
import Scriptlet.Proofs.Code.Pieces

/-!
# The stack discipline of compiled code

A `Site` is a stretch of code that belongs to a scope: it starts without operands, and up to its end
exactly the slots that are live in the scope are in use. The statements of a program and the
conditions of its branchings have sites (`Program.sites`). Compiled code has shapes (`shaped_of_compile`)
that agree with all of them.

Main statement: `Program.stack_discipline`.
-/

namespace Scriptlet

/-- A stretch of code that belongs to a scope. -/
structure Site where
  start : Nat
  stop : Nat
  scope : Scope
deriving DecidableEq, Repr

namespace Compile

open Fragment (Guarded jumpWidth)

/-- The size of code, if it was compiled. -/
def sizeOf (r : Except Error Fragment) : Nat := r.toOption.elim 0 Fragment.size

mutual

/-- The sites of a statement whose code starts at an offset. -/
def stmtSites (env : Env) (sc : Scope) (base : Nat) : Stmt → List Site
  | .block body _ => ⟨base, base, sc⟩ :: stmtsSites env (sc.enter .plain) base body
  | .branch branches none _ => ⟨base, base, sc⟩ :: armsSites env sc false base branches
  | .branch branches (some body) _ =>
    ⟨base, base, sc⟩ :: (armsSites env sc true base branches ++
      stmtsSites env (sc.enter .plain) (base + (arms env sc branches).toOption.elim 0 (armsSize true))
        body)
  | .loop condition body _ =>
    let inside := base + sizeOf (expr env sc condition) + jumpWidth
    ⟨base, inside, sc⟩ :: stmtsSites env (sc.enter .loop) inside body
  | .exitLoop _ => [⟨base, base, sc⟩]
  | .nextRound _ => [⟨base, base, sc⟩]
  | s => [⟨base, base + sizeOf ((stmt env sc s).map Prod.fst), sc⟩]

/-- The sites of statements one after the other. -/
def stmtsSites (env : Env) (sc : Scope) (base : Nat) : List Stmt → List Site
  | [] => []
  | s :: ss =>
    stmtSites env sc base s ++
      match stmt env sc s with
      | .ok (f, next) => stmtsSites env next (base + f.size) ss
      | .error _ => []

/-- The sites of the arms of a branching: of the conditions, and of what they guard. -/
def armsSites (env : Env) (sc : Scope) (hasElse : Bool) (base : Nat) : List (Arm Stmt) → List Site
  | [] => []
  | ⟨condition, body, _⟩ :: rest =>
    let inside := base + sizeOf (expr env sc condition) + jumpWidth
    let closed := (stmts env (sc.enter .plain) body).map closeBlock
    let behind := inside + sizeOf closed + if !rest.isEmpty || hasElse then jumpWidth else 0
    ⟨base, inside, sc⟩ :: (stmtsSites env (sc.enter .plain) inside body ++
      armsSites env sc hasElse behind rest)

end

/-- The sites of a function. -/
def functionSites (env : Env) (d : Function) (offset : Nat) : List Site :=
  match declareParams env Scope.function d.params with
  | .ok sc => ⟨offset, offset, sc⟩ :: stmtsSites env sc offset d.body
  | .error _ => []

end Compile

open Compile in
/-- The sites of a program: of its main statements, and of its functions. -/
def Program.sites (p : Program) (pool : Pool) (b : Bytecode) : List Site :=
  match register p pool with
  | .ok prototypes =>
    let env : Env := ⟨pool, prototypes⟩
    stmtsSites env Scope.function 0 p.main ++
      (p.functions.zip b.functions.toList).flatMap fun f => functionSites env f.1 f.2.offset
  | .error _ => []

/-! ## Code with sites -/

/-- A site has its shape, and all shapes up to its end have the slots of its scope. -/
structure Site.Fits (x : Site) (P : Shapes) (K : Nat → Shape → Prop) : Prop where
  entered : Entered P K x.start ⟨0, x.scope.liveSlots, false⟩
  locals : ∀ pc sh, x.start ≤ pc → pc < x.stop → P pc = some sh → sh.locals = x.scope.liveSlots

/-- A range that is entered with a shape, and in which sites fit. -/
def Sited (b : Bytecode) (lo hi : Nat) (e : Shape) (K : Nat → Shape → Prop) (xs : List Site) : Prop :=
  lo ≤ hi ∧ ∃ P, Piece b lo hi K P ∧ Entered P K lo e ∧
    ∀ x ∈ xs, lo ≤ x.start ∧ x.stop ≤ hi ∧ x.Fits P K

section sited

variable {b : Bytecode} {lo mid hi : Nat} {K K₁ : Nat → Shape → Prop} {e e₂ : Shape}
  {xs ys : List Site} {sc : Scope}

theorem Flows.unsited (h : Flows b lo hi e K) : Sited b lo hi e K [] := by
  obtain ⟨hle, P, hP, hent, -⟩ := h
  exact ⟨hle, P, hP, hent, fun x hx => by cases hx⟩

theorem Flows.sited (h : Flows b lo hi ⟨0, sc.liveSlots, false⟩ K) :
    Sited b lo hi ⟨0, sc.liveSlots, false⟩ K [⟨lo, hi, sc⟩] := by
  obtain ⟨hle, P, hP, hent, hl⟩ := h
  refine ⟨hle, P, hP, hent, fun x hx => ?_⟩
  cases List.mem_singleton.1 hx
  exact ⟨Nat.le_refl _, Nat.le_refl _, hent, fun pc sh _ _ h => hl pc sh h⟩

/-- Where code starts that belongs to other scopes. -/
theorem Sited.mark (h : Sited b lo hi ⟨0, sc.liveSlots, false⟩ K xs) :
    Sited b lo hi ⟨0, sc.liveSlots, false⟩ K (⟨lo, lo, sc⟩ :: xs) := by
  obtain ⟨hle, P, hP, hent, hxs⟩ := h
  refine ⟨hle, P, hP, hent, fun x hx => ?_⟩
  rcases List.mem_cons.1 hx with rfl | hx
  · exact ⟨Nat.le_refl _, hle, hent, fun pc sh h₁ h₂ => absurd h₁ (Nat.not_le.2 h₂)⟩
  · exact hxs x hx

theorem Sited.mono (h : Sited b lo hi e K₁ xs) (hK : ∀ q s, K₁ q s → K q s) :
    Sited b lo hi e K xs := by
  obtain ⟨hle, P, hP, hent, hxs⟩ := h
  refine ⟨hle, P, hP.mono hK, hent.imp id (hK _ _), fun x hx => ?_⟩
  obtain ⟨h₁, h₂, hx⟩ := hxs x hx
  exact ⟨h₁, h₂, hx.entered.imp id (hK _ _), hx.locals⟩

/-- What two neighbouring ranges need to be one: the exits of each lead to the other or to exits of
both, and where the first starts is not lost. -/
theorem sited_append {P Q : Shapes} {K₂ : Nat → Shape → Prop} (h₁ : Piece b lo mid K₁ P)
    (h₂ : Piece b mid hi K₂ Q) (hlo : lo ≤ mid) (hhi : mid ≤ hi)
    (hK₁ : ∀ q s, K₁ q s → Entered Q K q s) (hK₂ : ∀ q s, K₂ q s → Entered P K q s)
    (hent : Entered P K₁ lo e)
    (hxs : ∀ x ∈ xs, lo ≤ x.start ∧ x.stop ≤ mid ∧ x.Fits P K₁)
    (hys : ∀ y ∈ ys, mid ≤ y.start ∧ y.stop ≤ hi ∧ y.Fits Q K₂) : Sited b lo hi e K (xs ++ ys) := by
  have hleft : ∀ {q s}, Entered P K₁ q s → Entered (P.join Q) K q s := fun {q s} h =>
    h.elim (fun h => .inl (Shapes.join_left h)) fun h => (hK₁ q s h).imp (h₁.join_right h₂) id
  have hright : ∀ {q s}, Entered Q K₂ q s → Entered (P.join Q) K q s := fun {q s} h =>
    h.elim (fun h => .inl (h₁.join_right h₂ h)) fun h => (hK₂ q s h).imp Shapes.join_left id
  refine ⟨Nat.le_trans hlo hhi, P.join Q, h₁.append h₂ hlo hhi hK₁ hK₂, hleft hent, fun x hx => ?_⟩
  rcases List.mem_append.1 hx with hx | hx
  · obtain ⟨hstart, hstop, hfit⟩ := hxs x hx
    refine ⟨hstart, by omega, hleft hfit.entered, fun pc sh hpc hpc' h => ?_⟩
    obtain h | h := Shapes.of_join h
    · exact hfit.locals pc sh hpc hpc' h
    · have := h₂.within pc sh h
      omega
  · obtain ⟨hstart, hstop, hfit⟩ := hys x hx
    refine ⟨by omega, hstop, hright hfit.entered, fun pc sh hpc hpc' h => ?_⟩
    obtain h | h := Shapes.of_join h
    · have := h₁.within pc sh h
      omega
    · exact hfit.locals pc sh hpc hpc' h

theorem Sited.seq (h₁ : Sited b lo mid e K₁ xs) (h₂ : Sited b mid hi e₂ K ys)
    (hK : ∀ q s, K₁ q s → Only mid e₂ q s ∨ K q s) : Sited b lo hi e K (xs ++ ys) := by
  obtain ⟨hlo, P, hP, hPe, hxs⟩ := h₁
  obtain ⟨hhi, Q, hQ, hQe, hys⟩ := h₂
  refine sited_append hP hQ hlo hhi (fun q s h => ?_) (fun _ _ => .inr) hPe hxs hys
  obtain ⟨rfl, rfl⟩ | h := hK q s h
  · exact hQe
  · exact .inr h

/-- Code that goes back to its start. -/
theorem Sited.cycle {K₂ : Nat → Shape → Prop} (h₁ : Sited b lo mid e K₁ xs) (hne : ¬ K₁ lo e)
    (h₂ : Sited b mid hi e₂ K₂ ys)
    (hK₁ : ∀ q s, K₁ q s → Only mid e₂ q s ∨ K q s) (hK₂ : ∀ q s, K₂ q s → Only lo e q s ∨ K q s) :
    Sited b lo hi e K (xs ++ ys) := by
  obtain ⟨hlo, P, hP, hPe, hxs⟩ := h₁
  obtain ⟨hhi, Q, hQ, hQe, hys⟩ := h₂
  have hstart : P lo = some e := hPe.resolve_right hne
  have hback : ∀ q s, K₂ q s → Entered P K q s := fun q s h => by
    obtain ⟨rfl, rfl⟩ | h := hK₂ q s h
    · exact .inl hstart
    · exact .inr h
  refine sited_append hP hQ hlo hhi (fun q s h => ?_) hback hPe hxs hys
  obtain ⟨rfl, rfl⟩ | h := hK₁ q s h
  · refine hQe.imp id fun h => (hback _ _ h).resolve_left fun hp => ?_
    exact absurd (hP.within _ _ hp).2 (Nat.lt_irrefl _)
  · exact .inr h

end sited

namespace Compile

open Fragment (Guarded jumpWidth)

variable {env : Env} {b : Bytecode} {sc : Scope} {f : Fragment} {base : Nat} {loop : LoopAddresses}

/-! ## Statements -/

/-- The exits of statements that leave or repeat the innermost loop. -/
def Leaves (sc : Scope) (loop : LoopAddresses) (q : Nat) (sh : Shape) : Prop :=
  ∃ n, sc.outerSlots? = some n ∧ (q = loop.exit ∨ q = loop.start) ∧ sh = ⟨0, n, false⟩

/-- The exits of statements. Those that end with a return do not go on behind them. -/
def Exits (falls : Bool) (stop : Nat) (next sc : Scope) (loop : LoopAddresses) (q : Nat) (sh : Shape) :
    Prop :=
  (falls = true ∧ Only stop ⟨0, next.liveSlots, false⟩ q sh) ∨ Leaves sc loop q sh

/-- The code of a statement has its sites, starts without operands, and goes on so. -/
def StmtSited (env : Env) (b : Bytecode) (loop : LoopAddresses) (base : Nat) (sc : Scope) (s : Stmt)
    (f : Fragment) (next : Scope) : Prop :=
  Sited b base (base + f.size) ⟨0, sc.liveSlots, false⟩
    (Exits (!endsWithReturn [s]) (base + f.size) next sc loop) (stmtSites env sc base s)

/-- The code of a body has its sites wherever it stands. -/
def BodySited (env : Env) (b : Bytecode) (loop : LoopAddresses) (sc : Scope) (body : List Stmt)
    (f : Fragment) (last : Scope) : Prop :=
  ∀ {base : Nat}, f.Placed b.code base loop →
    Sited b base (base + f.size) ⟨0, sc.liveSlots, false⟩
      (Exits (!endsWithReturn body) (base + f.size) last sc loop) (stmtsSites env sc base body)

/-- The code of the arms of a branching has their sites, with the exits of the statement and of the
loop around it. -/
def ArmsSited (env : Env) (b : Bytecode) (loop : LoopAddresses) (sc : Scope) (as : List (Arm Stmt))
    (gs : List Guarded) : Prop :=
  ∀ {pc stop : Nat} {hasElse : Bool} {K : Nat → Shape → Prop},
    ArmsAt b.code loop stop hasElse gs pc → pc + armsSize hasElse gs ≤ b.size → stop ≤ b.size →
    K (pc + armsSize hasElse gs) ⟨0, sc.liveSlots, false⟩ → K stop ⟨0, sc.liveSlots, false⟩ →
    (∀ q s, Leaves sc loop q s → K q s) →
    Sited b pc (pc + armsSize hasElse gs) ⟨0, sc.liveSlots, false⟩ K (armsSites env sc hasElse pc as)

theorem Flows.exits {lo hi : Nat} {e : Shape} {next : Scope}
    (h : Flows b lo hi e (Only hi ⟨0, next.liveSlots, false⟩)) :
    Flows b lo hi e (Exits true hi next sc loop) :=
  h.mono fun _ _ hq => .inl ⟨rfl, hq⟩

/-- Slots are released one portion after the other. -/
theorem sited_releases {ns : List UInt8} {pc l : Nat} (h : ReleasesAt b.code ns pc)
    (hl : (ns.map UInt8.toNat).sum ≤ l) : Sited b pc (pc + 2 * ns.length) ⟨0, l, false⟩
      (Only (pc + 2 * ns.length) ⟨0, l - (ns.map UInt8.toNat).sum, false⟩) [] := by
  induction ns generalizing pc l with
  | nil => exact (flows_nil (only_self _ _)).unsited
  | cons n ns ih =>
    obtain ⟨hd, hns⟩ := h
    rw [List.map_cons, List.sum_cons] at hl ⊢
    have hfirst := (flows_single (K := Only (pc + 2) ⟨0, l - n.toNat, false⟩) (e := ⟨0, l, false⟩) hd
      ⟨by dsimp only; omega, only_self _ _⟩).unsited
    have hrest := ih hns (l := l - n.toNat) (by omega)
    rw [Nat.sub_sub, Nat.add_assoc pc 2, show 2 + 2 * ns.length = 2 * (n :: ns).length by
      rw [List.length_cons]; omega] at hrest
    exact hfirst.seq hrest fun q s hq => .inl hq

/-- A block releases the slots of its names at its end. -/
theorem sited_closeBlock {body : List Stmt} {kind : BlockKind} {fb : Fragment} {inner : Scope}
    {K : Nat → Shape → Prop} (h : stmts env (sc.enter kind) body = .ok (fb, inner))
    (hp : (releaseSlots fb inner.leave.1).Placed b.code base loop)
    (hbody : BodySited env b loop (sc.enter kind) body fb inner)
    (hstop : K (base + (releaseSlots fb inner.leave.1).size) ⟨0, sc.liveSlots, false⟩)
    (hK : ∀ q s, Leaves (sc.enter kind) loop q s → K q s) :
    Sited b base (base + (releaseSlots fb inner.leave.1).size) ⟨0, sc.liveSlots, false⟩ K
      (stmtsSites env (sc.enter kind) base body) := by
  obtain ⟨hpb, ns, hsum, hns, hsize⟩ := placed_releaseSlots (stmts_tidy h) hp
  obtain ⟨-, hlive⟩ := Scope.leave_of_grows (stmts_grows h)
  have hrel := sited_releases (l := inner.liveSlots) hns (by omega)
  rw [hsum, hlive, Nat.add_sub_cancel] at hrel
  rw [hsize, ← Nat.add_assoc] at hstop ⊢
  have hinside := hbody hpb
  rw [Scope.liveSlots_enter] at hinside
  rw [← List.append_nil (stmtsSites env (sc.enter kind) base body)]
  refine hinside.seq (hrel.mono fun q s hq => ?_) fun q s hq => ?_
  · obtain ⟨rfl, rfl⟩ := hq
    exact hstop
  · unfold Exits at hq
    rw [hlive] at hq
    exact hq.imp And.right (hK q s)

section place

variable {target : Expr} {p : Place} (hb : Linked env b) (hs : sc.Sound) (hp : PlaceCode env sc target p)
include hb hs hp

theorem balanced_load (hpl : p.load.Placed b.code base loop) (h : Nat) :
    Balanced b base (base + p.load.size) sc h (h + 1) := by
  cases hp with
  | slot hslot =>
    obtain ⟨-, hd⟩ := hpl.emit Fragment.tidy_empty
    exact (balanced_empty b base sc h).emit hd ⟨hs.slot?_lt hslot, only_self _ _⟩
  | global =>
    obtain ⟨hpn, hget⟩ := hpl.emitAt (Fragment.tidy_empty.emit _)
    obtain ⟨-, hname⟩ := hpn.emit Fragment.tidy_empty
    exact flows_global hname hget rfl ⟨rfl, only_self _ _⟩
  | element ho hi =>
    obtain ⟨hpp, hd⟩ := hpl.emitAt ((expr_tidy ho).append (expr_tidy hi))
    obtain ⟨hpo, hpi⟩ := hpp.append (expr_tidy ho)
    exact ((expr_balanced hb hs ho hpo h).append (expr_balanced hb hs hi hpi (h + 1))).emitAt hd
      ⟨Nat.le_add_left 2 h, only_self _ _⟩
  | field ho =>
    obtain ⟨hpo, hd⟩ := hpl.emitAt (expr_tidy ho)
    exact (expr_balanced hb hs ho hpo h).emitAt hd ⟨Nat.le_add_left 1 h, only_self _ _⟩

theorem balanced_store (hps : p.store.Placed b.code base loop) (h : Nat) :
    Balanced b base (base + p.store.size) sc (h + 1) h := by
  cases hp with
  | slot hslot =>
    have hlt := hs.slot?_lt hslot
    obtain ⟨-, hd⟩ := hps.emit Fragment.tidy_empty
    refine (balanced_empty b base sc (h + 1)).emit hd
      ⟨Nat.le_add_left 1 h, Nat.le_of_lt hlt, ?_⟩
    rw [Nat.max_eq_left hlt]
    exact only_self _ _
  | global =>
    obtain ⟨hpn, hset⟩ := hps.emit (Fragment.tidy_empty.emit _)
    obtain ⟨-, hname⟩ := hpn.emit Fragment.tidy_empty
    exact flows_global hname hset rfl ⟨rfl, Nat.le_add_left 2 h, only_self _ _⟩
  | element ho hi =>
    obtain ⟨hpp, hd⟩ := hps.emitAt ((expr_tidy ho).append (expr_tidy hi))
    obtain ⟨hpo, hpi⟩ := hpp.append (expr_tidy ho)
    exact ((expr_balanced hb hs ho hpo (h + 1)).append (expr_balanced hb hs hi hpi (h + 2))).emitAt hd
      ⟨Nat.le_add_left 3 h, only_self _ _⟩
  | field ho =>
    obtain ⟨hpo, hd⟩ := hps.emitAt (expr_tidy ho)
    exact (expr_balanced hb hs ho hpo (h + 1)).emitAt hd ⟨Nat.le_add_left 2 h, only_self _ _⟩

end place

/-- An expression at the start of a statement. -/
theorem balanced_marked (hb : Linked env b) (hs : sc.Sound) {e : Expr} {fe : Fragment} {span : Span}
    (he : expr env sc e = .ok fe) (hp : (Fragment.empty.mark span ++ fe).Placed b.code base loop) :
    Balanced b base (base + (Fragment.empty.mark span ++ fe).size) sc 0 1 := by
  rw [size_mark_append]
  exact expr_balanced hb hs he (placed_mark_append hp) 0

/-- The site of a statement that has no parts with scopes of their own. -/
theorem sited_simple {s : Stmt} {next : Scope} {falls : Bool} (h : stmt env sc s = .ok (f, next))
    (hsites : stmtSites env sc base s = [⟨base, base + sizeOf ((stmt env sc s).map Prod.fst), sc⟩])
    (hf : Flows b base (base + f.size) ⟨0, sc.liveSlots, false⟩
      (Exits falls (base + f.size) next sc loop)) :
    Sited b base (base + f.size) ⟨0, sc.liveSlots, false⟩ (Exits falls (base + f.size) next sc loop)
      (stmtSites env sc base s) := by
  rw [hsites, h]
  exact hf.sited

/-- A condition goes on behind its jump, or to where that leads. -/
theorem flows_guard (hb : Linked env b) (hs : sc.Sound) {c : Expr} {fc : Fragment} {t : Nat}
    (hc : expr env sc c = .ok fc) (hp : fc.Placed b.code base loop)
    (hd : Instruction.decode b.code (base + fc.size) = .instruction (.jumpIfFalse (UInt32.ofNat t)))
    (ht : t ≤ b.size) :
    Flows b base (base + fc.size + jumpWidth) ⟨0, sc.liveSlots, false⟩ fun q s =>
      Only (base + fc.size + jumpWidth) ⟨0, sc.liveSlots, false⟩ q s ∨
        Only t ⟨0, sc.liveSlots, false⟩ q s := by
  refine Flows.emit (expr_balanced hb hs hc hp 0) rfl hd ⟨Nat.le_refl 1, .inl (only_self _ _), .inr ?_⟩
  rw [hb.toNat_address ht]
  exact only_self _ _

theorem flows_jump (hb : Linked env b) {e : Shape} {t : Nat} (hnamed : e.named = false)
    (hd : Instruction.decode b.code base = .instruction (.jump (UInt32.ofNat t))) (ht : t ≤ b.size) :
    Flows b base (base + jumpWidth) e (Only t e) := by
  refine flows_single hd ⟨hb.toNat_address ht, ?_⟩
  rw [← hnamed]

theorem leaves_enter_plain {q : Nat} {s : Shape} (h : Leaves (sc.enter .plain) loop q s) :
    Leaves sc loop q s := by
  unfold Leaves at h
  rwa [Scope.outerSlots?_enter_plain] at h

/-- Statements that leave or repeat a loop release all slots that are not live outside of it. -/
theorem sited_loopJump (hb : Linked env b) {span : Span} {count : Nat} {target : JumpTarget}
    (hcount : sc.loopSlots? = some count)
    (hp : ((releaseSlots (Fragment.empty.mark span) count).emitJump .always target).Placed b.code base
      loop) (ht : target.address base loop ≤ b.size)
    (hleave : target.address base loop = loop.exit ∨ target.address base loop = loop.start) :
    Sited b base (base + ((releaseSlots (Fragment.empty.mark span) count).emitJump .always target).size)
      ⟨0, sc.liveSlots, false⟩ (Leaves sc loop) [⟨base, base, sc⟩] := by
  have htidy := Fragment.tidy_empty.mark span
  obtain ⟨hpr, hd⟩ := hp.emitJump (releaseSlots_tidy htidy count)
  obtain ⟨-, ns, hsum, hns, hsize⟩ := placed_releaseSlots htidy hpr
  rw [Fragment.size_mark] at hns hsize
  have hrel := sited_releases (l := sc.liveSlots) hns (hsum ▸ Scope.loopSlots?_le hcount)
  rw [hsize, Fragment.size_empty, Nat.zero_add] at hd
  rw [Fragment.size_emitJump, hsize, Fragment.size_empty, Nat.zero_add, ← Nat.add_assoc]
  refine (hrel.seq (flows_jump hb rfl hd ht).unsited fun q s hq => .inl hq).mark.mono ?_
  rintro q s ⟨rfl, rfl⟩
  exact ⟨sc.liveSlots - count, by rw [Scope.outerSlots?, hcount, Option.map_some], hleave, by rw [hsum]⟩

/-- A loop: what its condition and its body go on with stays inside, up to its end. -/
theorem sited_loop (hb : Linked env b) (hs : sc.Sound) {c : Expr} {body : List Stmt} {span : Span}
    {fc fb : Fragment} {inner : Scope} (hc : expr env sc c = .ok fc)
    (h : stmts env (sc.enter .loop) body = .ok (fb, inner))
    (hp : (Fragment.empty.mark span ++ layoutLoop ⟨fc, releaseSlots fb inner.leave.1⟩).Placed
      b.code base loop)
    (hbody : ∀ {exit : Nat}, exit ≤ b.size → base ≤ b.size →
      BodySited env b ⟨exit, base⟩ (sc.enter .loop) body fb inner) :
    StmtSited env b loop base sc (.loop c body span)
      (Fragment.empty.mark span ++ layoutLoop ⟨fc, releaseSlots fb inner.leave.1⟩) sc := by
  have hpl := placed_mark_append hp
  have hfits : base + (layoutLoop _).size ≤ b.size := hpl.fits
  rw [StmtSited, size_mark_append, size_layoutLoop, stmtSites, hc]
  rw [size_layoutLoop] at hfits
  obtain ⟨hpc, hd, hpb, hback⟩ :=
    placed_layoutLoop (expr_tidy hc) (releaseSlots_tidy (stmts_tidy h) _) hpl
  have hstop : base + Guarded.size ⟨fc, releaseSlots fb inner.leave.1⟩ true =
      base + fc.size + jumpWidth + (releaseSlots fb inner.leave.1).size + jumpWidth := by
    simp only [Guarded.size, if_true]
    omega
  generalize base + Guarded.size ⟨fc, releaseSlots fb inner.leave.1⟩ true = stop at *
  have hguard := (flows_guard hb hs hc hpc hd hfits).sited
  have hjump := (flows_jump (e := ⟨0, sc.liveSlots, false⟩) hb rfl hback (by omega)).unsited
  have hinside := sited_closeBlock (K := fun q s =>
      Only (base + fc.size + jumpWidth + (releaseSlots fb inner.leave.1).size)
        ⟨0, sc.liveSlots, false⟩ q s ∨
      (Only base ⟨0, sc.liveSlots, false⟩ q s ∨ Only stop ⟨0, sc.liveSlots, false⟩ q s))
    h hpb (hbody hfits (by omega)) (.inl (only_self _ _)) fun q s hq => by
      obtain ⟨n, hn, hq, rfl⟩ := hq
      rw [Scope.outerSlots?_enter_loop] at hn
      cases hn
      exact .inr (hq.symm.imp (⟨·, rfl⟩) (⟨·, rfl⟩))
  have htail := hinside.seq (hjump.mono fun q s hq => .inl hq) fun q s hq => hq
  rw [List.append_nil, ← hstop] at htail
  refine (hguard.cycle ?_ htail (fun q s hq => hq) fun q s hq => hq).mono fun q s hq => .inl ⟨rfl, hq⟩
  simp only [Only, jumpWidth] at hstop ⊢
  omega

theorem isEmpty_arms {as : List (Arm Stmt)} {gs : List Guarded} (h : arms env sc as = .ok gs) :
    gs.isEmpty = as.isEmpty := by
  cases as with
  | nil =>
    rw [arms] at h
    cases h
    rfl
  | cons a as =>
    obtain ⟨fc, fb, inner, more, -, -, -, rfl⟩ := arms_cons h
    rfl

/-- An arm goes on behind the branching, or with what follows it. -/
theorem sited_arm (stop : Nat) (hb : Linked env b) (hs : sc.Sound) {c : Expr} {body : List Stmt}
    {fc fb : Fragment} {inner : Scope} {exits : Bool} {pc next : Nat} {K : Nat → Shape → Prop}
    (hc : expr env sc c = .ok fc) (h : stmts env (sc.enter .plain) body = .ok (fb, inner))
    (hnext : next = pc + Guarded.size ⟨fc, releaseSlots fb inner.leave.1⟩ exits)
    (hpc : fc.Placed b.code pc loop)
    (hd : Instruction.decode b.code (pc + fc.size) = .instruction (.jumpIfFalse (UInt32.ofNat next)))
    (hpb : (releaseSlots fb inner.leave.1).Placed b.code (pc + fc.size + jumpWidth) loop)
    (hexit : exits = true → Instruction.decode b.code
      (pc + fc.size + jumpWidth + (releaseSlots fb inner.leave.1).size) =
        .instruction (.jump (UInt32.ofNat stop)))
    (hfits : next ≤ b.size) (hstop : stop ≤ b.size)
    (hbody : BodySited env b loop (sc.enter .plain) body fb inner)
    (hK : K stop ⟨0, sc.liveSlots, false⟩) (hl : ∀ q s, Leaves sc loop q s → K q s) :
    Sited b pc next ⟨0, sc.liveSlots, false⟩
      (fun q s => Only next ⟨0, sc.liveSlots, false⟩ q s ∨ K q s)
      (⟨pc, pc + fc.size + jumpWidth, sc⟩ ::
        stmtsSites env (sc.enter .plain) (pc + fc.size + jumpWidth) body) := by
  have hguard := (flows_guard hb hs hc hpc hd hfits).sited
  have hinside := sited_closeBlock (K := fun q s =>
      Only (pc + fc.size + jumpWidth + (releaseSlots fb inner.leave.1).size)
        ⟨0, sc.liveSlots, false⟩ q s ∨ (Only next ⟨0, sc.liveSlots, false⟩ q s ∨ K q s))
    h hpb hbody (.inl (only_self _ _)) fun q s hq => .inr (.inr (hl q s (leaves_enter_plain hq)))
  -- Behind the body there is a jump to the end of the branching, or nothing.
  have hclose : Sited b (pc + fc.size + jumpWidth + (releaseSlots fb inner.leave.1).size) next
      ⟨0, sc.liveSlots, false⟩ (fun q s => Only next ⟨0, sc.liveSlots, false⟩ q s ∨ K q s) [] := by
    cases exits with
    | true =>
      have hjump := (flows_jump (e := ⟨0, sc.liveSlots, false⟩) hb rfl (hexit rfl) hstop).unsited
      rw [show next = pc + fc.size + jumpWidth + (releaseSlots fb inner.leave.1).size + jumpWidth by
        simp only [hnext, Guarded.size, if_true]; omega]
      refine hjump.mono ?_
      rintro q s ⟨rfl, rfl⟩
      exact .inr hK
    | false =>
      rw [show next = pc + fc.size + jumpWidth + (releaseSlots fb inner.leave.1).size by
        simp [hnext, Guarded.size]; omega]
      exact (flows_nil (.inl (only_self _ _))).unsited
  have htail := hinside.seq hclose fun q s hq => hq
  rw [List.append_nil] at htail
  exact hguard.seq htail fun q s hq => hq.imp id .inl

/-! ### One lemma for each kind of statement -/

section simple

variable (hb : Linked env b) (hs : sc.Sound)
include hb hs

/-- A statement that ends with an instruction that uses the value of an expression. -/
theorem flows_consumer {e : Expr} {span : Span} {fe : Fragment} {i : Instruction}
    {K : Nat → Shape → Prop} (he : expr env sc e = .ok fe)
    (hp : ((Fragment.empty.mark span ++ fe).emit i).Placed b.code base loop)
    (hi : i.Admits b (base + (Fragment.empty.mark span ++ fe).size) ⟨1, sc.liveSlots, false⟩ K) :
    Flows b base (base + ((Fragment.empty.mark span ++ fe).emit i).size) ⟨0, sc.liveSlots, false⟩
      K := by
  obtain ⟨hpe, hd⟩ := hp.emit ((Fragment.tidy_empty.mark span).append (expr_tidy he))
  rw [Fragment.size_emit, ← Nat.add_assoc]
  exact Flows.emit (balanced_marked hb hs he hpe) rfl hd hi

theorem flows_expression {e : Expr} {span : Span} {fe : Fragment} (he : expr env sc e = .ok fe)
    (hp : ((Fragment.empty.mark span ++ fe).emit .drop).Placed b.code base loop) :
    Balanced b base (base + ((Fragment.empty.mark span ++ fe).emit .drop).size) sc 0 0 := by
  refine flows_consumer hb hs he hp ⟨Nat.le_refl 1, ?_⟩
  rw [Fragment.size_emit, ← Nat.add_assoc]
  exact only_self _ _

/-- A declaration goes on with one more slot. -/
theorem flows_declare {name : Symbol} {e : Expr} {span : Span} {fe : Fragment} {slot : UInt8}
    {next : Scope} (he : expr env sc e = .ok fe) (hdecl : sc.declare name = .ok (slot, next))
    (hp : ((Fragment.empty.mark span ++ fe).emit (.setLocal slot)).Placed b.code base loop) :
    Flows b base (base + ((Fragment.empty.mark span ++ fe).emit (.setLocal slot)).size)
      ⟨0, sc.liveSlots, false⟩
      (Only (base + ((Fragment.empty.mark span ++ fe).emit (.setLocal slot)).size)
        ⟨0, next.liveSlots, false⟩) := by
  obtain ⟨-, hslot, -⟩ := Scope.declare_ok hdecl
  refine flows_consumer hb hs he hp ⟨Nat.le_refl 1, Nat.le_of_eq hslot, ?_⟩
  rw [Fragment.size_emit, ← Nat.add_assoc, hslot, Scope.liveSlots_declare hdecl,
    Nat.max_eq_right (Nat.le_succ _)]
  exact only_self _ _

theorem flows_assign {target value : Expr} {span : Span} {p : Place} {fv : Fragment}
    (hplace : PlaceCode env sc target p) (hv : expr env sc value = .ok fv)
    (hp : ((Fragment.empty.mark span ++ fv) ++ p.store).Placed b.code base loop) :
    Balanced b base (base + ((Fragment.empty.mark span ++ fv) ++ p.store).size) sc 0 0 := by
  obtain ⟨hpv, hps⟩ := hp.append ((Fragment.tidy_empty.mark span).append (expr_tidy hv))
  exact (balanced_marked hb hs hv hpv).append (balanced_store hb hs hplace hps 0)

theorem flows_fold {target value : Expr} {op : BinaryOp} {span : Span} {p : Place} {fv : Fragment}
    (hplace : PlaceCode env sc target p) (hv : expr env sc value = .ok fv)
    (hp : (((Fragment.empty.mark span ++ p.load) ++ fv).emitAt (.binary op) span ++ p.store).Placed
      b.code base loop) :
    Balanced b base (base +
      (((Fragment.empty.mark span ++ p.load) ++ fv).emitAt (.binary op) span ++ p.store).size)
      sc 0 0 := by
  have htidy := ((Fragment.tidy_empty.mark span).append hplace.tidy.1).append (expr_tidy hv)
  obtain ⟨hpo, hps⟩ := hp.append (htidy.emitAt (.binary op) span)
  obtain ⟨hpr, hd⟩ := hpo.emitAt htidy
  obtain ⟨hpl, hpv⟩ := hpr.append ((Fragment.tidy_empty.mark span).append hplace.tidy.1)
  have hload : Balanced b base (base + (Fragment.empty.mark span ++ p.load).size) sc 0 1 := by
    rw [size_mark_append]
    exact balanced_load hb hs hplace (placed_mark_append hpl) 0
  exact ((hload.append (expr_balanced hb hs hv hpv 1)).emitAt hd
    ⟨Nat.le_refl 2, only_self _ _⟩).append (balanced_store hb hs hplace hps 0)

omit hb hs in
/-- A return goes on with nothing. -/
theorem flows_giveBack {span : Span} {l : Nat} {K : Nat → Shape → Prop}
    (hp : ((Fragment.empty.mark span).emit .ret).Placed b.code base loop) :
    Flows b base (base + ((Fragment.empty.mark span).emit .ret).size) ⟨0, l, false⟩ K := by
  obtain ⟨-, hd⟩ := hp.emit (Fragment.tidy_empty.mark span)
  rw [Fragment.size_mark] at hd
  rw [Fragment.size_emit, Fragment.size_mark]
  exact flows_single hd trivial

end simple

theorem sited_block {body : List Stmt} {span : Span} {fb : Fragment} {inner : Scope}
    (h : stmts env (sc.enter .plain) body = .ok (fb, inner))
    (hp : (Fragment.empty.mark span ++ releaseSlots fb inner.leave.1).Placed b.code base loop)
    (hbody : BodySited env b loop (sc.enter .plain) body fb inner) :
    StmtSited env b loop base sc (.block body span)
      (Fragment.empty.mark span ++ releaseSlots fb inner.leave.1) sc := by
  rw [StmtSited, stmtSites, size_mark_append]
  exact (sited_closeBlock h (placed_mark_append hp) hbody (.inl ⟨rfl, only_self _ _⟩)
    fun q s hq => .inr (leaves_enter_plain hq)).mark

theorem sited_branch {as : List (Arm Stmt)} {span : Span} {gs : List Guarded}
    (ha : arms env sc as = .ok gs)
    (hp : (Fragment.empty.mark span ++ layoutBranch gs none).Placed b.code base loop)
    (harms : ArmsSited env b loop sc as gs) :
    StmtSited env b loop base sc (.branch as none span)
      (Fragment.empty.mark span ++ layoutBranch gs none) sc := by
  have hpb := placed_mark_append hp
  have hfits : base + (layoutBranch _ none).size ≤ b.size := hpb.fits
  rw [StmtSited, stmtSites, size_mark_append, size_layoutBranch]
  rw [size_layoutBranch] at hfits
  exact (harms (placed_layoutBranch (arms_tidy ha) hpb) hfits hfits
    (.inl ⟨rfl, only_self _ _⟩) (.inl ⟨rfl, only_self _ _⟩) fun q s hq => .inr hq).mark

/-- The arms go on at the start of `else`, if no condition held, or where the statement goes on. -/
theorem sited_branchElse {as : List (Arm Stmt)} {body : List Stmt} {span : Span} {gs : List Guarded}
    {fb : Fragment} {inner : Scope} (ha : arms env sc as = .ok gs)
    (h : stmts env (sc.enter .plain) body = .ok (fb, inner))
    (hp : (Fragment.empty.mark span ++
      layoutBranch gs (some (releaseSlots fb inner.leave.1))).Placed b.code base loop)
    (harms : ArmsSited env b loop sc as gs)
    (hbody : BodySited env b loop (sc.enter .plain) body fb inner) :
    StmtSited env b loop base sc (.branch as (some body) span)
      (Fragment.empty.mark span ++ layoutBranch gs (some (releaseSlots fb inner.leave.1))) sc := by
  have hpb := placed_mark_append hp
  have hfits : base + (layoutBranch gs (some _)).size ≤ b.size := hpb.fits
  rw [StmtSited, stmtSites, size_mark_append, size_layoutBranch_some, ha]
  rw [size_layoutBranch_some] at hfits
  obtain ⟨hpa, hpe⟩ := placed_layoutBranch_some (arms_tidy ha) hpb
  have hfirst := harms (K := fun q s => Only (base + armsSize true gs) ⟨0, sc.liveSlots, false⟩ q s ∨
      Exits true (base + (armsSize true gs + (releaseSlots fb inner.leave.1).size)) sc sc loop q s)
    hpa (by omega) hfits (.inl (only_self _ _)) (.inr (.inl ⟨rfl, only_self _ _⟩))
    fun q s hq => .inr (.inr hq)
  have helse := sited_closeBlock h hpe hbody
    (K := Exits true (base + (armsSize true gs + (releaseSlots fb inner.leave.1).size)) sc sc loop)
    (.inl ⟨rfl, by rw [Nat.add_assoc]; exact only_self _ _⟩)
    fun q s hq => .inr (leaves_enter_plain hq)
  rw [Nat.add_assoc] at helse
  exact (hfirst.seq helse fun q s hq => hq).mark

mutual

/-- The code of a statement starts without operands, and so does what it goes on with. -/
theorem stmt_sited {env : Env} {b : Bytecode} (hb : Linked env b) : ∀ {s : Stmt} {sc : Scope}
    {f : Fragment} {next : Scope} {base : Nat} {loop : LoopAddresses}, stmt env sc s = .ok (f, next) →
    sc.Sound → f.Placed b.code base loop → loop.exit ≤ b.size → loop.start ≤ b.size →
    StmtSited env b loop base sc s f next
  | .expression e span, _, _, _, _, _, h, hs, hp, _, _ => by
    refine sited_simple h (by rw [stmtSites]; all_goals simp) ?_
    cases stmt_code h with
    | expression he => exact Flows.exits (flows_expression hb hs he hp)
  | .declare name e span, _, _, _, _, _, h, hs, hp, _, _ => by
    refine sited_simple h (by rw [stmtSites]; all_goals simp) ?_
    cases stmt_code h with
    | declare he hdecl => exact Flows.exits (flows_declare hb hs he hdecl hp)
  | .assign target none value span, _, _, _, _, _, h, hs, hp, _, _ => by
    refine sited_simple h (by rw [stmtSites]; all_goals simp) ?_
    cases stmt_code h with
    | assign hplace hv => exact Flows.exits (flows_assign hb hs hplace hv hp)
  | .assign target (some op) value span, _, _, _, _, _, h, hs, hp, _, _ => by
    refine sited_simple h (by rw [stmtSites]; all_goals simp) ?_
    cases stmt_code h with
    | fold hplace hv => exact Flows.exits (flows_fold hb hs hplace hv hp)
  | .block body span, _, _, _, _, _, h, hs, hp, hx, hy => by
    cases stmt_code h with
    | block hbody => exact sited_block hbody hp (stmts_sited hb hbody (hs.enter .plain) hx hy)
  | .branch branches none span, _, _, _, _, _, h, hs, hp, hx, hy => by
    cases stmt_code h with
    | branch ha => exact sited_branch ha hp (arms_sited hb ha hs hx hy)
  | .branch branches (some body) span, _, _, _, _, _, h, hs, hp, hx, hy => by
    cases stmt_code h with
    | branchElse ha hbody =>
      exact sited_branchElse ha hbody hp (arms_sited hb ha hs hx hy)
        (stmts_sited hb hbody (hs.enter .plain) hx hy)
  | .loop condition body span, _, _, _, _, _, h, hs, hp, _, _ => by
    cases stmt_code h with
    | loop hc hbody =>
      exact sited_loop hb hs hc hbody hp fun hx hy => stmts_sited hb hbody (hs.enter .loop) hx hy
  | .exitLoop span, _, _, _, _, _, h, _, hp, hx, _ => by
    rw [StmtSited, stmtSites]
    cases stmt_code h with
    | exitLoop hcount =>
      exact (sited_loopJump hb hcount hp hx (.inl rfl)).mono fun q s hq => .inr hq
  | .nextRound span, _, _, _, _, _, h, _, hp, _, hy => by
    rw [StmtSited, stmtSites]
    cases stmt_code h with
    | nextRound hcount =>
      exact (sited_loopJump hb hcount hp hy (.inr rfl)).mono fun q s hq => .inr hq
  | .giveBack none span, _, _, _, _, _, h, _, hp, _, _ => by
    refine sited_simple h (by rw [stmtSites]; all_goals simp) ?_
    cases stmt_code h with
    | giveBack => exact flows_giveBack hp
  | .giveBack (some e) span, _, _, _, _, _, h, hs, hp, _, _ => by
    refine sited_simple h (by rw [stmtSites]; all_goals simp) ?_
    cases stmt_code h with
    | giveBackValue he => exact flows_consumer hb hs he hp (Nat.le_refl 1)
  | .function decl span, _, _, _, _, _, h, _, _, _, _ => by cases stmt_code h
  | .type decl span, _, _, _, _, _, h, _, _, _, _ => by cases stmt_code h

theorem stmts_sited {env : Env} {b : Bytecode} (hb : Linked env b) : ∀ {ss : List Stmt} {sc : Scope}
    {f : Fragment} {last : Scope} {loop : LoopAddresses}, stmts env sc ss = .ok (f, last) →
    sc.Sound → loop.exit ≤ b.size → loop.start ≤ b.size → BodySited env b loop sc ss f last
  | [], _, _, _, _, h, _, _, _, _, _ => by
    rw [stmts] at h
    cases h
    rw [stmtsSites]
    exact (flows_nil (.inl ⟨rfl, only_self _ _⟩)).unsited
  | [s], _, _, _, _, h, hs, hx, hy, _, hp => by
    obtain ⟨fs, next, fss, hst, hss, rfl⟩ := stmts_cons h
    rw [stmts] at hss
    cases hss
    obtain ⟨hps, -⟩ := hp.append (stmt_tidy hst)
    rw [stmtsSites, hst, Fragment.size_append, Fragment.size_empty, Nat.add_zero]
    simp only [stmtsSites, List.append_nil]
    exact stmt_sited hb hst hs hps hx hy
  | s :: t :: ss, _, _, _, _, h, hs, hx, hy, _, hp => by
    obtain ⟨fs, next, fss, hst, hss, rfl⟩ := stmts_cons h
    obtain ⟨hps, hpss⟩ := hp.append (stmt_tidy hst)
    rw [stmtsSites, hst, endsWithReturn_cons, Fragment.size_append, ← Nat.add_assoc]
    have hrest := stmts_sited hb hss (stmt_sound hst hs) hx hy hpss
    refine (stmt_sited hb hst hs hps hx hy).seq (hrest.mono fun q s hq => ?_) fun q s hq =>
      hq.imp And.right .inr
    unfold Exits Leaves at hq
    rw [stmt_outerSlots? hst] at hq
    exact hq

theorem arms_sited {env : Env} {b : Bytecode} (hb : Linked env b) : ∀ {as : List (Arm Stmt)}
    {sc : Scope} {gs : List Guarded} {loop : LoopAddresses}, arms env sc as = .ok gs → sc.Sound →
    loop.exit ≤ b.size → loop.start ≤ b.size → ArmsSited env b loop sc as gs
  | [], _, _, _, h, _, _, _, _, _, _, _, _, _, _, hend, _, _ => by
    rw [arms] at h
    cases h
    rw [armsSites]
    exact (flows_nil hend).unsited
  | ⟨condition, body, span⟩ :: rest, sc, _, _, h, hs, hx, hy, pc, stop, hasElse, _, ha, hfits, hstop,
      hend, hK, hl => by
    obtain ⟨fc, fb, inner, more, hc, hbody, hm, rfl⟩ := arms_cons h
    obtain ⟨hpc, hd, hpb, hexit, hrest⟩ := ha
    rw [armsSize, ← Nat.add_assoc] at hfits hend ⊢
    have harm := sited_arm stop hb hs hc hbody rfl hpc hd hpb hexit (by omega) hstop
      (stmts_sited hb hbody (hs.enter .plain) hx hy) hK hl
    have hmore := arms_sited hb hm hs hx hy hrest hfits hstop hend hK hl
    have hsites : armsSites env sc hasElse pc (⟨condition, body, span⟩ :: rest) =
        ⟨pc, pc + fc.size + jumpWidth, sc⟩ ::
          stmtsSites env (sc.enter .plain) (pc + fc.size + jumpWidth) body ++
        armsSites env sc hasElse (pc + Guarded.size ⟨fc, releaseSlots fb inner.leave.1⟩
          (!more.isEmpty || hasElse)) rest := by
      rw [armsSites, hc, hbody, isEmpty_arms hm]
      simp only [sizeOf, closeBlock, Guarded.size, Except.map, Except.toOption, Option.elim,
        Nat.add_assoc, List.cons_append]
    rw [hsites]
    exact harm.seq hmore fun q s hq => hq

end

/-! ## Programs -/

/-- No exit. -/
def NoExit (_ : Nat) (_ : Shape) : Prop := False

theorem Exits.of_outermost {falls : Bool} {stop : Nat} {next : Scope} {q : Nat} {sh : Shape}
    (hsc : sc.outerSlots? = none) (h : Exits falls stop next sc loop q sh) :
    falls = true ∧ Only stop ⟨0, next.liveSlots, false⟩ q sh := by
  refine h.resolve_right ?_
  rintro ⟨n, hn, -⟩
  rw [hsc] at hn
  cases hn

theorem sited_main (hb : Linked env b) {ss : List Stmt} {last : Scope}
    (h : stmts env Scope.function ss = .ok (f, last)) (hp : (f.emit .halt).Placed b.code 0 ⟨0, 0⟩) :
    Sited b 0 (f.emit .halt).size ⟨0, 0, false⟩ NoExit (stmtsSites env Scope.function 0 ss) := by
  obtain ⟨hps, hd⟩ := hp.emit (stmts_tidy h)
  have hmain := stmts_sited hb h Scope.sound_function (Nat.zero_le _) (Nat.zero_le _) hps
  have hhalt := (flows_single (e := ⟨0, last.liveSlots, false⟩) (K := NoExit) hd trivial).unsited
  have := hmain.seq hhalt fun q s hq => .inl (hq.of_outermost rfl).2
  rw [List.append_nil] at this
  rw [Fragment.size_emit]
  rwa [Nat.zero_add] at this

theorem sited_function (hb : Linked env b) {d : Function} (h : functionBody env d = .ok f)
    (hp : f.Placed b.code base ⟨0, 0⟩) :
    ∃ sc, declareParams env Scope.function d.params = .ok sc ∧ sc.liveSlots = d.params.length ∧
      Sited b base (base + f.size) ⟨0, sc.liveSlots, false⟩ NoExit (functionSites env d base) := by
  obtain ⟨sc, fb, last, hparams, hbody, rfl⟩ := functionBody_ok h
  obtain ⟨hs, hlive, houter⟩ := declareParams_ok hparams Scope.sound_function
  change sc.liveSlots = 0 + _ at hlive
  rw [Nat.zero_add] at hlive
  refine ⟨sc, hparams, hlive, ?_⟩
  rw [functionSites, hparams]
  refine Sited.mark ?_
  cases hr : endsWithReturn d.body with
  | true =>
    rw [hr, if_pos rfl] at hp
    rw [if_pos rfl]
    refine (stmts_sited hb hbody hs (Nat.zero_le _) (Nat.zero_le _) hp).mono fun q s hq => ?_
    have := (hq.of_outermost houter).1
    rw [hr] at this
    cases this
  | false =>
    rw [hr, if_neg Bool.false_ne_true] at hp
    rw [if_neg Bool.false_ne_true]
    obtain ⟨hps, hd⟩ := hp.emit (stmts_tidy hbody)
    have hret := (flows_single (e := ⟨0, last.liveSlots, false⟩) (K := NoExit) hd trivial).unsited
    have := (stmts_sited hb hbody hs (Nat.zero_le _) (Nat.zero_le _) hps).seq hret fun q s hq =>
      .inl (hq.of_outermost houter).2
    rw [List.append_nil] at this
    rwa [Fragment.size_emit, ← Nat.add_assoc]

theorem sited_bodies (hb : Linked env b) {table : Array FunctionEntry} {ds : List Function} {k : Nat}
    {e : Shape} {xs : List Site} (h : BodiesAt env table b.code k base ds)
    (hxs : Sited b 0 base e NoExit xs) : ∃ hi, Sited b 0 hi e NoExit (xs ++
      (ds.zip (table.toList.drop k)).flatMap fun f => functionSites env f.1 f.2.offset) := by
  induction ds generalizing k base xs with
  | nil => exact ⟨base, by simpa using hxs⟩
  | cons d ds ih =>
    obtain ⟨f, he, hf, hp, hrest⟩ := h
    obtain ⟨sc, -, -, hsited⟩ := sited_function hb hf (hp ⟨0, 0⟩)
    obtain ⟨hi, hall⟩ := ih hrest (hxs.seq hsited fun q s hq => .inr hq)
    refine ⟨hi, ?_⟩
    rw [← Array.getElem?_toList] at he
    obtain ⟨hlt, hget⟩ := List.getElem?_eq_some_iff.1 he
    rw [List.drop_eq_getElem_cons hlt, hget]
    simpa using hall

/-- Compiled code has shapes that agree with the sites of the program. -/
theorem shaped_of_compile {p : Program} {pool : Pool} (h : p.compile pool = .ok b)
    (hsize : b.size < 2 ^ 32) : ∃ P, Shaped b P ∧ ∀ x ∈ p.sites pool b, x.Fits P NoExit := by
  obtain ⟨env, hi⟩ := image_of_compile h
  have hb := linked_of_image hi hsize
  obtain ⟨f, last, hmain, hp, hbodies⟩ := hi.code
  obtain ⟨stop, -, P, hP, hent, hxs⟩ := sited_bodies hb hbodies (sited_main hb hmain (hp ⟨0, 0⟩))
  have hsites : p.sites pool b = stmtsSites env Scope.function 0 p.main ++
      (p.functions.zip (b.functions.toList.drop 0)).flatMap fun f =>
        functionSites env f.1 f.2.offset := by
    rw [Program.sites, hi.registered, ← hi.texts]
    rfl
  have hall : ∀ {q s}, Entered P NoExit q s → P q = some s := fun h => h.resolve_right id
  refine ⟨P, ⟨fun pc sh hsh => ?_, hall hent, fun id g hg => ?_⟩, fun x hx => ?_⟩
  · obtain ⟨i, hd, hi⟩ := hP.admits pc sh hsh
    exact ⟨i, hd, hi.mono fun q s hq => hall hq⟩
  · obtain ⟨d, hd, hentry⟩ := hi.declared hg
    obtain ⟨offset, fb, -, hbody, hpb⟩ := hi.body hd
    obtain ⟨sc, hparams, hlive, -⟩ := sited_function hb hbody (hpb ⟨0, 0⟩)
    have hmem : (⟨g.offset, g.offset, sc⟩ : Site) ∈ functionSites env d g.offset := by
      rw [functionSites, hparams]
      exact List.mem_cons_self
    have hzip : (d, g) ∈ p.functions.zip (b.functions.toList.drop 0) := by
      refine List.mem_of_getElem? (i := id.toNat) (List.getElem?_zip_eq_some.2 ⟨hd, ?_⟩)
      rw [List.drop_zero, Array.getElem?_toList]
      exact hg
    have hfit := (hxs _ (List.mem_append_right _ (List.mem_flatMap.2 ⟨_, hzip, hmem⟩))).2.2.entered
    have harity : g.arity = sc.liveSlots := by
      rw [hlive, hentry]
      exact List.length_map _
    rw [harity]
    exact hall hfit
  · rw [hsites] at hx
    exact (hxs x hx).2.2

end Compile

/-! ## Runs -/

open Scriptlet.Ideal in
/-- A machine that runs shaped code stands for an ideal state that fits, and faults as that does. -/
theorem Machine.exists_fits {b : Bytecode} {P : Shapes} (hP : Shaped b P) (cfg : Config) (n : Nat)
    (hn : ((Machine.new b cfg).after n).heap.slots.size < 2 ^ 32) :
    let m := (Machine.new b cfg).after n
    let σ : Setting := ⟨b, cfg.maxCallDepth⟩
    ∃ ρ s a, Sim σ ρ m s ∧ s.Fits P ∧
      m.nextFault? = (s.nextFault? σ a).map fun f => ⟨f, s.pc, b.spanAt? s.pc⟩ := by
  intro m σ
  have hP' : Shaped σ.bytecode P := hP
  obtain ⟨ρ, s, hsim, hs⟩ := Sim.exists_after (I := fun s => s.Fits P)
    (fun s a hs => (hs.step hP' a).1) (sim_new b cfg) (Machine.counted_new b cfg) (fits_initial hP') n hn
  obtain ⟨a₀, h⟩ := hsim.step ((Machine.counted_new b cfg).after n hn).1 hn
  exact ⟨ρ, s, a₀, hsim, hs, (h a₀ fun _ => rfl).next.2⟩

open Scriptlet.Ideal in
/-- Machines that run shaped code have its shapes, and they fault as such code does only. -/
theorem Machine.fits_of_shaped {b : Bytecode} {P : Shapes} (hP : Shaped b P) (cfg : Config) (n : Nat)
    (hn : ((Machine.new b cfg).after n).heap.slots.size < 2 ^ 32) :
    let m := (Machine.new b cfg).after n
    (m.status = .ready → ∃ named, P m.pc = some ⟨m.frame.operands.length, m.frame.locals.size, named⟩) ∧
    ∀ e, m.nextFault? = some e → Tolerable b m.pc e.fault := by
  obtain ⟨ρ, s, a, hsim, hs, hfault⟩ := Machine.exists_fits hP cfg n hn
  refine ⟨fun hready => ?_, fun e he => ?_⟩
  · rw [hsim.status] at hready
    obtain ⟨⟨h, l, named⟩, hsh, hhas⟩ := hs.frame hready
    have hheight : s.frame.operands.length = h := hhas.height
    have hlocals : s.frame.locals.length = l := hhas.locals
    refine ⟨named, ?_⟩
    rw [hsim.pc, hsim.frame.operands.length_eq, ← Array.length_toList,
      hsim.frame.locals.length_eq, hheight, hlocals, hsh]
  · rw [he] at hfault
    obtain ⟨f, hf, rfl⟩ := Option.map_eq_some_iff.1 hfault.symm
    have hP' : Shaped (Setting.mk b cfg.maxCallDepth).bytecode P := hP
    rw [hsim.pc]
    exact (hs.step hP' a).2 f hf

/-- Compiled code obeys a stack discipline: every offset has a number of operands and of local slots,
which is what the innermost call of a machine has there, whatever led to it. A statement starts
without operands, and with the slots that are live in its scope. So a compiled program does not fault
as malformed code does, and what it calls or builds directly is there and takes what it is given. -/
theorem Program.stack_discipline {p : Program} {pool : Pool} {b : Bytecode}
    (h : p.compile pool = .ok b) (hsize : b.size < 2 ^ 32) :
    ∃ shapes : Nat → Option (Nat × Nat),
      (∀ x ∈ p.sites pool b, shapes x.start = some (0, x.scope.liveSlots) ∧
        ∀ pc height locals, x.start ≤ pc → pc < x.stop → shapes pc = some (height, locals) →
          locals = x.scope.liveSlots) ∧
      ∀ (cfg : Config) (n : Nat), ((Machine.new b cfg).after n).heap.slots.size < 2 ^ 32 →
        let m := (Machine.new b cfg).after n
        (m.status = .ready → shapes m.pc = some (m.frame.operands.length, m.frame.locals.size)) ∧
        ∀ e, m.nextFault? = some e → e.fault.isMalformed = false ∧
          ∀ i, Instruction.decode b.code m.pc = .instruction i → i.isDirect = true →
            (∀ kind, e.fault ≠ .notCallable kind) ∧ ∀ a c, e.fault ≠ .wrongArity a c := by
  obtain ⟨P, hP, hsites⟩ := Compile.shaped_of_compile h hsize
  refine ⟨fun pc => (P pc).map fun sh => (sh.height, sh.locals), fun x hx => ?_, fun cfg n hn => ?_⟩
  · have hfit := hsites x hx
    refine ⟨?_, fun pc height locals hlo hhi hpc => ?_⟩
    · dsimp only
      rw [hfit.entered.resolve_right id, Option.map_some]
    · obtain ⟨sh, hsh, heq⟩ := Option.map_eq_some_iff.1 hpc
      cases heq
      exact hfit.locals pc sh hlo hhi hsh
  · obtain ⟨hready, hfault⟩ := Machine.fits_of_shaped hP cfg n hn
    refine ⟨fun hst => ?_, fun e he => ?_⟩
    · obtain ⟨named, hsh⟩ := hready hst
      dsimp only
      rw [hsh, Option.map_some]
    · obtain ⟨i, hd, hclean, hdirect⟩ := hfault e he
      refine ⟨hclean, fun j hj => ?_⟩
      rw [hd] at hj
      cases hj
      exact hdirect

/-- `while true { let x = 1; break; }` -/
def Program.leavingLoop : Program :=
  ⟨[.loop (.literal (.bool true) {}) [.declare 0 (.literal (.int 1) {}) {}, .exitLoop {}] {}]⟩

/-- The `break` starts with one slot in use, also when a machine comes to it. -/
theorem Program.stack_discipline_leavingLoop :
    ∃ b, leavingLoop.compile {} = .ok b ∧ ∃ shapes : Nat → Option (Nat × Nat),
      shapes 13 = some (0, 1) ∧
      let m := (Machine.new b {}).after 4
      m.pc = 13 ∧ shapes m.pc = some (m.frame.operands.length, m.frame.locals.size) := by
  let site : Site := ⟨13, 13, ⟨[⟨.loop, [0]⟩, ⟨.function, []⟩]⟩⟩
  have hrun : (leavingLoop.compile {}).toOption.any (fun b =>
      b.size < 2 ^ 32 ∧ site ∈ leavingLoop.sites {} b ∧
      ((Machine.new b {}).after 4).heap.slots.size < 2 ^ 32 ∧
      ((Machine.new b {}).after 4).status = .ready ∧ ((Machine.new b {}).after 4).pc = 13) = true := by
    decide +kernel
  cases h : leavingLoop.compile {} with
  | error e =>
    rw [h] at hrun
    cases hrun
  | ok b =>
    rw [h] at hrun
    obtain ⟨hsize, hsite, hslots, hready, hpc⟩ := of_decide_eq_true hrun
    obtain ⟨shapes, hsites, hshapes⟩ := Program.stack_discipline h hsize
    exact ⟨b, rfl, shapes, (hsites site hsite).1, hpc, (hshapes {} 4 hslots).1 hready⟩

end Scriptlet
