import Scriptlet.Proofs.Code.Layout
import Scriptlet.Proofs.Code.Scopes

/-!
# All jumps are bound

A jump that leaves or repeats a loop waits for the code of the loop (`Fragment.bindLoop`), and the
scope refuses it where no loop is around it (`Scope.loopSlots?`). These two agree on what is around a
statement: code outside of loops has no jump that still waits (`stmts_bound`). So it can be put
anywhere (`Fragment.Bound.place_ok`), and linking never fails for a jump (`Linkable`).
-/

namespace Scriptlet

namespace Fragment

/-- All jumps know where they go. -/
def Bound (f : Fragment) : Prop := ∀ r ∈ f.relocations.toList, ∃ n, r.target = .offset n

theorem bound_empty : Bound empty := fun r hr => by cases hr

namespace Bound

variable {f g : Fragment}

theorem mark (h : f.Bound) (span : Span) : (f.mark span).Bound := by
  unfold Bound
  rw [mark_relocations]
  exact h

theorem emit (h : f.Bound) (i : Instruction) : (f.emit i).Bound := h

theorem emitAt (h : f.Bound) (i : Instruction) (span : Span) : (f.emitAt i span).Bound :=
  (h.mark span).emit i

theorem emitJump (h : f.Bound) (kind : JumpKind) (n : Nat) : (f.emitJump kind (.offset n)).Bound := by
  intro r hr
  simp only [Fragment.emitJump, Array.toList_push, List.mem_append, List.mem_singleton] at hr
  rcases hr with hr | rfl
  · exact h r hr
  · exact ⟨n, rfl⟩

theorem append (hf : f.Bound) (hg : g.Bound) : (f ++ g).Bound := by
  intro r hr
  change r ∈ (f.relocations ++ g.relocations.map _).toList at hr
  rw [Array.toList_append, Array.toList_map, List.mem_append, List.mem_map] at hr
  rcases hr with hr | ⟨q, hq, rfl⟩
  · exact hf r hr
  · obtain ⟨n, hn⟩ := hg q hq
    exact ⟨n + f.size, by rw [hn]; rfl⟩

end Bound

theorem Plain.bound {f : Fragment} (h : f.Plain) : f.Bound := by
  induction h with
  | empty => exact bound_empty
  | mark _ span ih => exact ih.mark span
  | emit _ i ih => exact ih.emit i
  | append _ _ ihf ihg => exact ihf.append ihg

/-- A loop binds all jumps in it. -/
theorem bound_bindLoop (f : Fragment) (start exit : Nat) : (f.bindLoop start exit).Bound := by
  intro r hr
  rw [bindLoop_relocations, Array.toList_map, List.mem_map] at hr
  obtain ⟨q, -, rfl⟩ := hr
  unfold bound
  split
  · next n hn => exact ⟨n, hn⟩
  · exact ⟨exit, rfl⟩
  · exact ⟨start, rfl⟩

theorem patch_ok {rs : List Relocation} (h : ∀ r ∈ rs, ∃ n, r.target = .offset n) (base : Nat)
    (code : Array UInt8) : ∃ code', patch base code rs = .ok code' := by
  induction rs generalizing code with
  | nil => exact ⟨code, rfl⟩
  | cons r rs ih =>
    obtain ⟨n, hn⟩ := h r List.mem_cons_self
    obtain ⟨code', hc⟩ := ih (fun q hq => h q (List.mem_cons_of_mem _ hq))
      (overwrite code r.site (wordBytes (UInt32.ofNat (base + n))))
    refine ⟨code', ?_⟩
    rw [patch, hn]
    exact hc

/-- Code whose jumps are bound can be put anywhere. -/
theorem Bound.place_ok {f : Fragment} (h : f.Bound) (base : Nat) :
    ∃ placed, f.place base = .ok placed := by
  obtain ⟨code, hc⟩ := patch_ok h base f.code
  unfold place
  rw [hc]
  exact ⟨_, rfl⟩

end Fragment

namespace Compile

open Fragment (Guarded Bound)

variable {env : Env} {sc : Scope} {f : Fragment}

theorem expr_bound {e : Expr} (h : expr env sc e = .ok f) : f.Bound := (expr_plain h).bound

theorem PlaceCode.bound {target : Expr} {p : Place} (h : PlaceCode env sc target p) :
    p.load.Bound ∧ p.store.Bound :=
  ⟨h.plain.1.bound, h.plain.2.bound⟩

theorem releaseSlots_bound (hf : f.Bound) (count : Nat) : (releaseSlots f count).Bound :=
  releaseSlots_keeps (fun _ i h => h.emit i) hf count

theorem layoutArms_bound {stop : Nat} {hasElse : Bool} {out : Fragment} {gs : List Guarded}
    (hout : out.Bound) (hgs : ∀ g ∈ gs, g.condition.Bound ∧ g.body.Bound) :
    (layoutArms stop hasElse out gs).Bound := by
  induction gs generalizing out with
  | nil => exact hout
  | cons arm rest ih =>
    obtain ⟨hcond, hbody⟩ := hgs arm List.mem_cons_self
    rw [layoutArms_cons]
    refine ih ?_ fun g hg => hgs g (List.mem_cons_of_mem _ hg)
    unfold layoutArm
    split
    · exact ((((hout.append hcond).emitJump _ _).append hbody).emitJump _ _)
    · exact ((hout.append hcond).emitJump _ _).append hbody

theorem loopSlots?_eq_none_iff (sc : Scope) : sc.loopSlots? = none ↔ sc.outerSlots? = none :=
  Option.map_eq_none_iff.symm

mutual

/-- Outside of loops the code of a statement has no jump that waits for one. -/
theorem stmt_bound {env : Env} : ∀ {s : Stmt} {sc : Scope} {f : Fragment} {next : Scope},
    stmt env sc s = .ok (f, next) → sc.outerSlots? = none → f.Bound
  | .expression e span, _, _, _, h, _ => by
    cases stmt_code h with
    | expression he => exact ((Fragment.bound_empty.mark _).append (expr_bound he)).emit _
  | .declare name e span, _, _, _, h, _ => by
    cases stmt_code h with
    | declare he hd => exact ((Fragment.bound_empty.mark _).append (expr_bound he)).emit _
  | .assign target op value span, _, _, _, h, _ => by
    cases stmt_code h with
    | assign hp hv =>
      exact ((Fragment.bound_empty.mark _).append (expr_bound hv)).append hp.bound.2
    | fold hp hv =>
      exact ((((Fragment.bound_empty.mark _).append hp.bound.1).append (expr_bound hv)).emitAt _ _).append
        hp.bound.2
  | .block body span, _, _, _, h, hsc => by
    cases stmt_code h with
    | block hb =>
      have hinner := (Scope.outerSlots?_enter_plain _).trans hsc
      exact (Fragment.bound_empty.mark _).append (releaseSlots_bound (stmts_bound hb hinner) _)
  | .branch branches none span, _, _, _, h, hsc => by
    cases stmt_code h with
    | branch ha =>
      exact (Fragment.bound_empty.mark _).append
        (layoutArms_bound Fragment.bound_empty (arms_bound ha hsc))
  | .branch branches (some body) span, _, _, _, h, hsc => by
    cases stmt_code h with
    | branchElse ha hb =>
      have hinner := (Scope.outerSlots?_enter_plain _).trans hsc
      exact (Fragment.bound_empty.mark _).append
        ((layoutArms_bound Fragment.bound_empty (arms_bound ha hsc)).append
          (releaseSlots_bound (stmts_bound hb hinner) _))
  | .loop condition body span, _, _, _, h, _ => by
    cases stmt_code h with
    | loop hc hb => exact (Fragment.bound_empty.mark _).append (Fragment.bound_bindLoop _ _ _)
  | .exitLoop span, _, _, _, h, hsc => by
    cases stmt_code h with
    | exitLoop hl =>
      rw [← loopSlots?_eq_none_iff, hl] at hsc
      cases hsc
  | .nextRound span, _, _, _, h, hsc => by
    cases stmt_code h with
    | nextRound hl =>
      rw [← loopSlots?_eq_none_iff, hl] at hsc
      cases hsc
  | .giveBack none span, _, _, _, h, _ => by
    cases stmt_code h with
    | giveBack => exact (Fragment.bound_empty.mark _).emit _
  | .giveBack (some e) span, _, _, _, h, _ => by
    cases stmt_code h with
    | giveBackValue he => exact ((Fragment.bound_empty.mark _).append (expr_bound he)).emit _
  | .function decl span, _, _, _, h, _ => by cases stmt_code h
  | .type decl span, _, _, _, h, _ => by cases stmt_code h

theorem stmts_bound {env : Env} : ∀ {ss : List Stmt} {sc : Scope} {f : Fragment} {last : Scope},
    stmts env sc ss = .ok (f, last) → sc.outerSlots? = none → f.Bound
  | [], _, _, _, h, _ => by
    rw [stmts] at h
    cases h
    exact Fragment.bound_empty
  | s :: ss, _, _, _, h, hsc => by
    obtain ⟨fs, next, fss, hs, hss, rfl⟩ := stmts_cons h
    exact (stmt_bound hs hsc).append (stmts_bound hss ((stmt_outerSlots? hs).trans hsc))

theorem arms_bound {env : Env} : ∀ {as : List (Arm Stmt)} {sc : Scope} {gs : List Guarded},
    arms env sc as = .ok gs → sc.outerSlots? = none → ∀ g ∈ gs, g.condition.Bound ∧ g.body.Bound
  | [], _, _, h, _ => by
    rw [arms] at h
    cases h
    exact fun g hg => by cases hg
  | ⟨condition, body, span⟩ :: rest, _, _, h, hsc => by
    obtain ⟨fc, fb, inner, more, hc, hb, hm, rfl⟩ := arms_cons h
    intro g hg
    rcases List.mem_cons.1 hg with rfl | hg
    · have hinner := (Scope.outerSlots?_enter_plain _).trans hsc
      exact ⟨expr_bound hc, releaseSlots_bound (stmts_bound hb hinner) _⟩
    · exact arms_bound hm hsc g hg

end

theorem mainBody_bound {ss : List Stmt} (h : mainBody env ss = .ok f) : f.Bound := by
  unfold mainBody at h
  obtain ⟨⟨fm, last⟩, hm, h⟩ := of_bind_ok h
  cases h
  exact (stmts_bound hm rfl).emit _

theorem functionBody_bound {d : Function} (h : functionBody env d = .ok f) : f.Bound := by
  obtain ⟨sc, fb, last, hparams, hbody, rfl⟩ := functionBody_ok h
  obtain ⟨-, -, houter⟩ := declareParams_ok hparams Scope.sound_function
  split
  · exact stmts_bound hbody houter
  · exact (stmts_bound hbody houter).emit _

theorem link_of_bound (hf : f.Bound) (out : PlacedCode) : ∃ next, link out f = .ok next := by
  obtain ⟨placed, hp⟩ := hf.place_ok out.code.size
  unfold link
  rw [hp]
  exact ⟨_, rfl⟩

/-! ## What is refused -/

/-- Nothing is refused for a jump that waits for its address. -/
def Linkable {α : Type} (x : Except Error α) : Prop :=
  ∀ jump span, x ≠ .error ⟨.unboundJump jump, span⟩

theorem linkable_ok {α : Type} (a : α) : Linkable (.ok a) := fun _ _ h => by cases h

theorem Linkable.bind {α β : Type} {x : Except Error α} {k : α → Except Error β} (hx : Linkable x)
    (hk : ∀ a, x = .ok a → Linkable (k a)) : Linkable (x >>= k) := by
  intro jump span h
  cases x with
  | error e =>
    cases h
    exact hx jump span rfl
  | ok a => exact hk a rfl jump span h

theorem checkCount_linkable (args : List Expr) (span : Span) : Linkable (checkCount args span) := by
  unfold checkCount
  split
  · exact fun _ _ h => by cases h
  · exact linkable_ok _

mutual

theorem expr_linkable (env : Env) (sc : Scope) : ∀ e : Expr, Linkable (expr env sc e)
  | .literal v _ => by
    rw [expr]
    exact linkable_ok _
  | .name name span => by
    rw [expr]
    exact linkable_ok _
  | .binary op l r _ => by
    rw [expr]
    exact (expr_linkable env sc l).bind fun _ _ => (expr_linkable env sc r).bind fun _ _ => linkable_ok _
  | .unary op e _ => by
    rw [expr]
    split
    · exact linkable_ok _
    · exact (expr_linkable env sc e).bind fun _ _ => linkable_ok _
  | .array items _ => by
    rw [expr]
    exact (exprs_linkable env sc items).bind fun _ _ => linkable_ok _
  | .index o i _ => by
    rw [expr]
    exact (expr_linkable env sc o).bind fun _ _ => (expr_linkable env sc i).bind fun _ _ => linkable_ok _
  | .field o name _ => by
    rw [expr]
    exact (expr_linkable env sc o).bind fun _ _ => linkable_ok _
  | .call callee args span => by
    rw [expr]
    split
    · split
      · exact fun _ _ h => by cases h
      · exact (checkCount_linkable args span).bind fun _ _ =>
          (exprs_linkable env sc args).bind fun _ _ => linkable_ok _
    · exact (checkCount_linkable args span).bind fun _ _ => (exprs_linkable env sc args).bind fun _ _ =>
        (expr_linkable env sc callee).bind fun _ _ => linkable_ok _
  | .methodCall o name args span => by
    rw [expr]
    exact (expr_linkable env sc o).bind fun _ _ => (checkCount_linkable args span).bind fun _ _ =>
      (exprs_linkable env sc args).bind fun _ _ => linkable_ok _
  | .construct type args span => by
    rw [expr]
    split
    · exact fun _ _ h => by cases h
    · split
      · exact fun _ _ h => by cases h
      · exact (checkCount_linkable args span).bind fun _ _ =>
          (exprs_linkable env sc args).bind fun _ _ => linkable_ok _

theorem exprs_linkable (env : Env) (sc : Scope) : ∀ es : List Expr, Linkable (exprs env sc es)
  | [] => by
    rw [exprs]
    exact linkable_ok _
  | e :: es => by
    rw [exprs]
    exact (expr_linkable env sc e).bind fun _ _ => (exprs_linkable env sc es).bind fun _ _ => linkable_ok _

end

theorem place_linkable (env : Env) (sc : Scope) (target : Expr) : Linkable (place env sc target) := by
  unfold place
  split
  · split
    · exact linkable_ok _
    · exact linkable_ok _
  · exact (expr_linkable env sc _).bind fun _ _ => (expr_linkable env sc _).bind fun _ _ => linkable_ok _
  · exact (expr_linkable env sc _).bind fun _ _ => linkable_ok _
  · exact (expr_linkable env sc _).bind fun _ _ _ _ h => by cases h

theorem declare_linkable (env : Env) (sc : Scope) (name : Symbol) (span : Span) :
    Linkable (declare env sc name span) := by
  unfold declare
  split
  · exact linkable_ok _
  · exact fun _ _ h => by cases h
  · exact fun _ _ h => by cases h

theorem loopJump_linkable (out : Fragment) (sc : Scope) (target : JumpTarget) {e : Error}
    (he : ∀ jump, e.cause ≠ .unboundJump jump) : Linkable (loopJump out sc target e) := by
  unfold loopJump
  split
  · exact linkable_ok _
  · intro jump span h
    cases h
    exact he jump rfl

mutual

theorem stmt_linkable (env : Env) : ∀ (s : Stmt) (sc : Scope), Linkable (stmt env sc s)
  | .expression e _, sc => by
    rw [stmt]
    exact (expr_linkable env sc e).bind fun _ _ => linkable_ok _
  | .declare name e span, sc => by
    rw [stmt]
    exact (expr_linkable env sc e).bind fun _ _ => (declare_linkable env sc name span).bind
      fun _ _ => linkable_ok _
  | .assign target op value span, sc => by
    rw [stmt]
    refine Linkable.bind ?_ fun _ _ => linkable_ok _
    refine (place_linkable env sc target).bind fun _ _ => (expr_linkable env sc value).bind fun _ _ => ?_
    cases op with
    | none => exact linkable_ok _
    | some op => exact linkable_ok _
  | .block body _, sc => by
    rw [stmt]
    exact (stmts_linkable env body _).bind fun _ _ => linkable_ok _
  | .branch branches none _, sc => by
    rw [stmt]
    exact (arms_linkable env branches sc).bind fun _ _ => linkable_ok _
  | .branch branches (some body) _, sc => by
    rw [stmt]
    exact (arms_linkable env branches sc).bind fun _ _ => (stmts_linkable env body _).bind
      fun _ _ => linkable_ok _
  | .loop condition body _, sc => by
    rw [stmt]
    exact (expr_linkable env sc condition).bind fun _ _ => (stmts_linkable env body _).bind
      fun _ _ => linkable_ok _
  | .exitLoop _, sc => by
    rw [stmt]
    exact (loopJump_linkable _ sc _ fun _ h => by cases h).bind fun _ _ => linkable_ok _
  | .nextRound _, sc => by
    rw [stmt]
    exact (loopJump_linkable _ sc _ fun _ h => by cases h).bind fun _ _ => linkable_ok _
  | .giveBack none _, sc => by
    rw [stmt]
    exact linkable_ok _
  | .giveBack (some e) _, sc => by
    rw [stmt]
    exact (expr_linkable env sc e).bind fun _ _ => linkable_ok _
  | .function _ _, _ => by
    rw [stmt]
    exact fun _ _ h => by cases h
  | .type _ _, _ => by
    rw [stmt]
    exact fun _ _ h => by cases h

theorem stmts_linkable (env : Env) : ∀ (ss : List Stmt) (sc : Scope), Linkable (stmts env sc ss)
  | [], sc => by
    rw [stmts]
    exact linkable_ok _
  | s :: ss, sc => by
    rw [stmts]
    exact (stmt_linkable env s sc).bind fun _ _ => (stmts_linkable env ss _).bind fun _ _ => linkable_ok _

theorem arms_linkable (env : Env) : ∀ (as : List (Arm Stmt)) (sc : Scope), Linkable (arms env sc as)
  | [], sc => by
    rw [arms]
    exact linkable_ok _
  | ⟨condition, body, _⟩ :: rest, sc => by
    rw [arms]
    exact (expr_linkable env sc condition).bind fun _ _ => (stmts_linkable env body _).bind fun _ _ =>
      (arms_linkable env rest sc).bind fun _ _ => linkable_ok _

end

theorem registerTypes_linkable (pool : Pool) (ds : List TypeDecl) (p : Prototypes) :
    Linkable (registerTypes pool p ds) := by
  induction ds generalizing p with
  | nil => exact linkable_ok _
  | cons d ds ih =>
    rw [registerTypes]
    split
    · exact ih _
    · exact fun _ _ h => by cases h

theorem registerFunctions_linkable (pool : Pool) (ds : List Function) (p : Prototypes) :
    Linkable (registerFunctions pool p ds) := by
  induction ds generalizing p with
  | nil => exact linkable_ok _
  | cons d ds ih =>
    rw [registerFunctions]
    split
    · exact ih _
    · exact fun _ _ h => by cases h

theorem declareParams_linkable (env : Env) (bs : List Binder) (sc : Scope) :
    Linkable (declareParams env sc bs) := by
  induction bs generalizing sc with
  | nil => exact linkable_ok _
  | cons b bs ih =>
    rw [declareParams]
    exact (declare_linkable env sc b.name b.span).bind fun _ _ => ih _

theorem functionBody_linkable (env : Env) (d : Function) : Linkable (functionBody env d) :=
  (declareParams_linkable env d.params _).bind fun _ _ => (stmts_linkable env d.body _).bind
    fun _ _ => linkable_ok _

theorem link_linkable (hf : f.Bound) (out : PlacedCode) : Linkable (link out f) := by
  obtain ⟨next, hn⟩ := link_of_bound hf out
  rw [hn]
  exact linkable_ok _

theorem linkFunctions_linkable (env : Env) (ds : List Function) (p : Prototypes) (out : PlacedCode) :
    Linkable (linkFunctions env p out ds) := by
  induction ds generalizing p out with
  | nil => exact linkable_ok _
  | cons d ds ih =>
    rw [linkFunctions]
    exact (functionBody_linkable env d).bind fun f hf =>
      (link_linkable (functionBody_bound hf) out).bind fun _ _ => ih _ _

/-- Linking a program never fails for a jump. -/
theorem compile_linkable (p : Program) (pool : Pool) : Linkable (p.compile pool) := by
  refine (registerTypes_linkable pool _ _).bind fun _ _ =>
    (registerFunctions_linkable pool _ _).bind fun _ _ => Linkable.bind ?_ fun main hmain =>
      (link_linkable (mainBody_bound hmain) _).bind fun _ _ =>
        (linkFunctions_linkable _ _ _ _).bind fun _ _ => linkable_ok _
  exact (stmts_linkable _ _ _).bind fun _ _ => linkable_ok _

end Compile

end Scriptlet
