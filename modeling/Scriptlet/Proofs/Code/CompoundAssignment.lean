import Scriptlet.Proofs.Code.Acceptance
import Scriptlet.Proofs.Code.Linking

/-!
# Compound assignment

An assignment with an operator reads its target with code of its own, the load half of the target's
place. That code is the code of the target as an expression (`PlaceCode.load_eq`), except where the
target is the name of a declared function that no variable hides: an expression pushes the function,
and the place reads a global of that name.

So `t op= e` and `t = t op e` are compiled or refused together, and up to source positions
(`Fragment.unmarked`) they have the same code for every target but such a name.

Main statement: `Compile.compound_assignment_unfolds`.
-/

namespace Scriptlet

namespace Fragment

/-- The fragment without its source positions. -/
def unmarked (f : Fragment) : Fragment := { f with positions := #[] }

@[simp] theorem unmarked_emit (f : Fragment) (i : Instruction) :
    (f.emit i).unmarked = f.unmarked.emit i := rfl

@[simp] theorem unmarked_mark (f : Fragment) (span : Span) :
    (f.mark span).unmarked = f.unmarked := by
  simp [unmarked, mark_code, mark_relocations]

@[simp] theorem unmarked_emitAt (f : Fragment) (i : Instruction) (span : Span) :
    (f.emitAt i span).unmarked = f.unmarked.emit i := by
  simp [emitAt]

@[simp] theorem unmarked_append (f g : Fragment) :
    (f ++ g).unmarked = f.unmarked ++ g.unmarked := by
  have hpositions : (f.unmarked ++ g.unmarked).positions = #[] := by
    simp [append_positions, unmarked]
  calc (f ++ g).unmarked
      = ⟨(f.unmarked ++ g.unmarked).code, (f.unmarked ++ g.unmarked).relocations, #[]⟩ := rfl
    _ = f.unmarked ++ g.unmarked := by rw [← hpositions]

theorem unmarked_eq_iff {f g : Fragment} :
    f.unmarked = g.unmarked ↔ f.code = g.code ∧ f.relocations = g.relocations := by
  simp [unmarked]

theorem append_emit (f g : Fragment) (i : Instruction) : f ++ g.emit i = (f ++ g).emit i := by
  have hcode : (f ++ g.emit i).code = ((f ++ g).emit i).code := by
    simp [append_code, emit]
  calc f ++ g.emit i
      = ⟨(f ++ g.emit i).code, ((f ++ g).emit i).relocations, ((f ++ g).emit i).positions⟩ := rfl
    _ = (f ++ g).emit i := by rw [hcode]

end Fragment

namespace Compile

variable {env : Env} {sc : Scope}

/-! ## Reading a place -/

/-- Where a target can be assigned to it can also be evaluated. Unless it names a declared function,
that is what reading the place does. -/
theorem PlaceCode.load_eq {target : Expr} {p : Place} (h : PlaceCode env sc target p)
    (hd : directCallee? env sc target = none) : expr env sc target = .ok p.load := by
  cases h with
  | slot hslot => simp [expr, readName, hslot]
  | @global name _ hslot =>
    have hf : env.prototypes.function? name = none := by
      simpa [directCallee?, hslot] using hd
    simp [expr, readName, hslot, hf]
  | element ho hi =>
    rw [expr, ho, hi]
    rfl
  | field ho =>
    rw [expr, ho]
    rfl

/-- The name of a declared function is an expression of five bytes, and as a place it is read with
six. -/
theorem PlaceCode.load_ne {target : Expr} {p : Place} {callee : Symbol × UInt32 × Nat}
    (h : PlaceCode env sc target p) (hd : directCallee? env sc target = some callee) :
    ∃ fl, expr env sc target = .ok fl ∧ fl.size ≠ p.load.size := by
  cases h with
  | slot hslot => simp [directCallee?, hslot] at hd
  | element => cases hd
  | field => cases hd
  | @global name span hslot =>
    simp only [directCallee?, hslot, Option.map_eq_some_iff] at hd
    obtain ⟨⟨id, entry⟩, hf, -⟩ := hd
    refine ⟨Fragment.empty.emit (.pushFunction id), ?_, ?_⟩
    · simp [expr, readName, hslot, hf]
    · rw [Fragment.size_emitAt, Fragment.size_emit, Fragment.size_emit]
      show 0 + 5 ≠ 0 + 5 + 1
      decide

/-! ## Both assignments -/

theorem accepted_stmt_assign {target value : Expr} {op : Option BinaryOp} {span : Span} :
    Accepted (stmt env sc (.assign target op value span)) ↔
      Accepted (place env sc target) ∧ Accepted (expr env sc value) := by
  rw [stmt, accepted_bind_pure, assignment, accepted_bind_iff fun p _ => ?_]
  refine accepted_bind_of_accepted fun fv => ?_
  cases op with
  | none => exact accepted_ok _
  | some op => exact accepted_ok _

/-- What can be assigned to can be evaluated. -/
theorem accepted_expr_of_place {target : Expr} (h : Accepted (place env sc target)) :
    Accepted (expr env sc target) := by
  obtain ⟨p, hp⟩ := h
  cases hd : directCallee? env sc target with
  | none => exact ⟨p.load, (place_code hp).load_eq hd⟩
  | some callee =>
    obtain ⟨fl, hfl, -⟩ := (place_code hp).load_ne hd
    exact ⟨fl, hfl⟩

theorem accepted_compound {target value : Expr} {op : BinaryOp} {span inner outer : Span} :
    Accepted (stmt env sc (.assign target (some op) value span)) ↔
      Accepted (stmt env sc (.assign target none (.binary op target value inner) outer)) := by
  have hbinary : Accepted (expr env sc (.binary op target value inner)) ↔
      Accepted (expr env sc target) ∧ Accepted (expr env sc value) := by
    rw [expr, accepted_bind_iff fun _ _ => accepted_bind_pure]
  rw [accepted_stmt_assign, accepted_stmt_assign, hbinary]
  constructor
  · rintro ⟨hp, hv⟩
    exact ⟨hp, accepted_expr_of_place hp, hv⟩
  · rintro ⟨hp, -, hv⟩
    exact ⟨hp, hv⟩

theorem stmt_assign {target value : Expr} {span : Span} {p : Place} {fv : Fragment}
    (hp : place env sc target = .ok p) (hv : expr env sc value = .ok fv) :
    stmt env sc (.assign target none value span) =
      .ok ((Fragment.empty.mark span ++ fv) ++ p.store, sc) := by
  rw [stmt, assignment, hp, hv]
  rfl

theorem stmt_fold {target value : Expr} {op : BinaryOp} {span : Span} {p : Place} {fv : Fragment}
    (hp : place env sc target = .ok p) (hv : expr env sc value = .ok fv) :
    stmt env sc (.assign target (some op) value span) = .ok
      (((Fragment.empty.mark span ++ p.load) ++ fv).emitAt (.binary op) span ++ p.store, sc) := by
  rw [stmt, assignment, hp, hv]
  rfl

/-- An assignment with an operator is compiled exactly if the assignment of the operation is. Where
both are, the scope behind them is the same, and bytes and jumps are the same exactly if the target
is not the name of a declared function that no variable hides. -/
theorem compound_assignment_unfolds (env : Env) (sc : Scope) (target value : Expr) (op : BinaryOp)
    (span inner outer : Span) :
    (Accepted (stmt env sc (.assign target (some op) value span)) ↔
      Accepted (stmt env sc (.assign target none (.binary op target value inner) outer))) ∧
    ∀ f g next next', stmt env sc (.assign target (some op) value span) = .ok (f, next) →
      stmt env sc (.assign target none (.binary op target value inner) outer) = .ok (g, next') →
      next = next' ∧ ((f.code = g.code ∧ f.relocations = g.relocations) ↔
        directCallee? env sc target = none) := by
  refine ⟨accepted_compound, fun f g next next' hf hg => ?_⟩
  obtain ⟨⟨p, hp⟩, fv, hv⟩ := accepted_stmt_assign.1 ⟨_, hf⟩
  obtain ⟨fl, hl⟩ := accepted_expr_of_place ⟨p, hp⟩
  have hbinary : expr env sc (.binary op target value inner) =
      .ok ((fl ++ fv).emitAt (.binary op) inner) := by
    rw [expr, hl, hv]
    rfl
  rw [stmt_fold hp hv] at hf
  rw [stmt_assign hp hbinary] at hg
  cases hf
  cases hg
  refine ⟨rfl, ?_⟩
  cases hd : directCallee? env sc target with
  | some callee =>
    -- The two ways to read the target differ in size, and nothing else does.
    obtain ⟨fl', hl', hsize⟩ := (place_code hp).load_ne hd
    cases hl.symm.trans hl'
    refine ⟨fun ⟨hcode, _⟩ => ?_, fun h => by cases h⟩
    have hsizes : Fragment.size _ = Fragment.size _ := congrArg Array.size hcode
    simp only [Fragment.size_append, Fragment.size_emitAt, Fragment.size_mark] at hsizes
    exact absurd (by omega) hsize
  | none =>
    cases hl.symm.trans ((place_code hp).load_eq hd)
    refine ⟨fun _ => rfl, fun _ => Fragment.unmarked_eq_iff.1 ?_⟩
    simp only [Fragment.unmarked_append, Fragment.unmarked_emitAt, Fragment.unmarked_mark]
    rw [Fragment.append_assoc _ p.load.unmarked, Fragment.append_emit]

/-- Where `f` is a declared function, `f += 1` reads a global of that name, and `f = f + 1` the
function. -/
theorem compound_assignment_of_function :
    let env : Env := ⟨.ofList ["f"], { functions := #[⟨0, [], 0⟩] }⟩
    let target : Expr := .name 0 {}
    let one : Expr := .literal (.int 1) {}
    ∃ f g, stmt env .function (.assign target (some .add) one {}) = .ok (f, .function) ∧
      stmt env .function (.assign target none (.binary .add target one {}) {}) =
        .ok (g, .function) ∧
      f.code = #[7, 0, 0, 0, 0, 32, 3, 0, 0, 0, 1, 9, 7, 0, 0, 0, 0, 33] ∧
      g.code = #[8, 0, 0, 0, 0, 3, 0, 0, 0, 1, 9, 7, 0, 0, 0, 0, 33] ∧ f.code ≠ g.code := by
  exact ⟨_, _, rfl, rfl, by decide +kernel⟩

end Compile

end Scriptlet
