import Scriptlet.Proofs.Evaluation.Expressions

/-!
# The code of statements

The code of a statement follows its evaluation (`stmt_runs`). Behind it the slots hold the values of the
variables, and the run has come to where control goes on (`Arrives`): behind the statement, behind or at
the start of the innermost loop with only those slots left that are live outside of it, or behind the
call of the function.
-/

namespace Scriptlet.Evaluation

open Scriptlet.Ideal
open Fragment (Guarded jumpWidth)

/-! ## Where control goes on -/

/-- The run has come behind a call, or to its end. -/
def Returned : List Ideal.Caller → Val → World → State → Prop
  | [], _, w, s => s.status = .halted ∧ s.world = w
  | c :: cs, v, w, s => s = running c.returnTo (v :: c.frame.operands) c.frame.locals cs w

/-- Where the run has come to behind statements. `A` holds of the variables if control goes on behind
them, `B` if it leaves or repeats the innermost loop, outside of which `out` slots are live. -/
def Arrives (falls : Bool) (stop : Nat) (A B : Vars → Prop) (out : Option Nat) (loop : LoopAddresses)
    (cs : List Ideal.Caller) : Flow × Vars → World → State → Prop
  | (.next, vars), w, s => falls = true ∧ A vars ∧ s = running stop [] vars.slots cs w
  | (.exit, vars), w, s =>
    B vars ∧ ∃ m, out = some m ∧ s = running loop.exit [] (vars.slots.take m) cs w
  | (.again, vars), w, s =>
    B vars ∧ ∃ m, out = some m ∧ s = running loop.start [] (vars.slots.take m) cs w
  | (.giveBack v, _), w, s => Returned cs v w s

/-- The variables of a scope, to which some may have been added. -/
def Within (sc : Scope) (vars : Vars) : Prop := ∃ inner, sc.Grows inner ∧ vars.Fits inner

section arrives

variable {falls : Bool} {stop : Nat} {A A' B B' : Vars → Prop} {out : Option Nat} {loop : LoopAddresses}
  {cs : List Ideal.Caller} {r : Flow × Vars} {w : World} {s : State}

theorem Arrives.mono (h : Arrives falls stop A B out loop cs r w s) (hA : ∀ vars, A vars → A' vars)
    (hB : ∀ vars, B vars → B' vars) : Arrives falls stop A' B' out loop cs r w s := by
  obtain ⟨flow, vars⟩ := r
  cases flow with
  | next => exact ⟨h.1, hA vars h.2.1, h.2.2⟩
  | exit => exact ⟨hB vars h.1, h.2⟩
  | again => exact ⟨hB vars h.1, h.2⟩
  | giveBack v => exact h

/-- Control goes on behind the statements, and what it does otherwise stays the same. -/
theorem Arrives.onward {σ : Setting} {n stop' : Nat} {falls' : Bool}
    (h : Arrives falls stop A B out loop cs r w s) (hB : ∀ vars, B vars → B' vars)
    (hA : ∀ vars, A vars → Runs σ n (running stop [] vars.slots cs w) (.ok (.next, vars) w)
      (Arrives falls' stop' A' B' out loop cs)) :
    Runs σ n s (.ok r w) (Arrives falls' stop' A' B' out loop cs) := by
  obtain ⟨flow, vars⟩ := r
  cases flow with
  | next =>
    obtain ⟨-, hv, rfl⟩ := h
    exact hA vars hv
  | exit => exact runs_here ⟨hB vars h.1, h.2⟩
  | again => exact runs_here ⟨hB vars h.1, h.2⟩
  | giveBack v => exact runs_here h

theorem within_of_fits {sc : Scope} {vars : Vars} (h : vars.Fits sc) : Within sc vars :=
  ⟨sc, .refl sc, h⟩

end arrives

/-! ## Jumps and releases -/

section machine

variable {α : Type} {σ : Setting} {n pc : Nat} {ops locals : List Val} {cs : List Ideal.Caller}
  {w : World} {r : EStateM.Result Stop World α} {post : α → World → State → Prop}

theorem carries_return {v : Val} {a : α} (h : ∀ s, Returned cs v w s → post a w s) :
    Carries σ n (Act.returnValue v (running pc ops locals cs w)) (.ok a w) post := by
  cases cs with
  | nil =>
    rw [Act.run_returnValue_nil rfl]
    exact carries_here (h _ ⟨rfl, rfl⟩)
  | cons c cs =>
    rw [Act.run_returnValue_cons rfl]
    exact carries_here (h _ rfl)

theorem runs_jump {t : UInt32} {target : Nat}
    (hd : Instruction.decode σ.bytecode.code pc = .instruction (.jump t)) (ht : t.toNat = target)
    (h : Runs σ (n - 1) (running target ops locals cs w) r post) :
    Runs σ n (running pc ops locals cs w) r post := by
  rw [← ht] at h
  exact runs_step rfl hd rfl h

theorem runs_jumpIfFalse {v : Val} {t : UInt32} {target : Nat}
    (hd : Instruction.decode σ.bytecode.code pc = .instruction (.jumpIfFalse t))
    (ht : t.toNat = target)
    (h : Runs σ (n - 1) (running (if v.face.isTruthy then pc + jumpWidth else target) ops locals cs w) r
      post) : Runs σ n (running pc (v :: ops) locals cs w) r post := by
  refine runs_step rfl hd ?_ h
  change (if v.face.isTruthy then (pure () : Act Unit) else modify fun s => { s with pc := t.toNat })
    (running (pc + jumpWidth) ops locals cs w) = _
  split
  · rfl
  · rw [← ht]
    rfl

theorem run_shrinkLocals {count : Nat} (h : count ≤ locals.length) :
    Act.shrinkLocals count (running pc ops locals cs w) =
      .ok () (running pc ops (locals.take (locals.length - count)) cs w) := by
  induction count generalizing locals with
  | zero =>
    rw [Nat.sub_zero, List.take_length]
    rfl
  | succ count ih =>
    have hne : locals ≠ [] := fun he => by
      rw [he] at h
      cases h
    have hdrop : Act.dropLocal (running pc ops locals cs w) =
        .ok () (running pc ops locals.dropLast cs w) := by
      simp only [Act.dropLocal, List.getLast?_eq_some_getLast hne]
    have hlen : locals.dropLast.length = locals.length - 1 := List.length_dropLast
    rw [Act.shrinkLocals, Act.run_bind_ok hdrop, ih (by omega), List.dropLast_eq_take, List.take_take,
      List.length_take]
    congr 3
    omega

/-- Slots are released one portion after the other. -/
theorem runs_releases {ns : List UInt8} {stop k : Nat}
    (hns : Compile.ReleasesAt σ.bytecode.code ns pc) (hstop : stop = pc + 2 * ns.length)
    (hkeep : locals.length = k + (ns.map UInt8.toNat).sum)
    (h : Runs σ n (running stop ops (locals.take k) cs w) r post) :
    Runs σ n (running pc ops locals cs w) r post := by
  induction ns generalizing pc locals with
  | nil =>
    have hk : k = locals.length := by simpa using hkeep.symm
    rw [hk, List.take_length, hstop] at h
    exact h
  | cons m ns ih =>
    obtain ⟨hd, hns⟩ := hns
    rw [List.map_cons, List.sum_cons] at hkeep
    have hrun : Act.execute σ 0 (.shrinkLocals m) (running (pc + 2) ops locals cs w) =
        .ok () (running (pc + 2) ops (locals.take (locals.length - m.toNat)) cs w) :=
      run_shrinkLocals (by omega)
    refine runs_step rfl hd hrun (Runs.fewer (n := n) ?_ (by omega))
    refine ih hns (by rw [hstop, List.length_cons]; omega) ?_ ?_
    · rw [List.length_take]
      omega
    · rw [List.take_take, Nat.min_eq_left (by omega)]
      exact h

end machine

/-! ## Assignments -/

/-- The variables behind an assignment are in their slots again. -/
def Stores (sc : Scope) (pc : Nat) (cs : List Ideal.Caller) (vars : Vars) (w : World) (s : State) :
    Prop :=
  vars.Fits sc ∧ s = running pc [] vars.slots cs w

section assignment

variable {p : Program} {env : Compile.Env} {σ : Setting} {n depth : Nat}
  {call : UInt32 → List Val → Eval Val} {sc : Scope} {vars : Vars} {cs : List Ideal.Caller}
  {loop : LoopAddresses} {base : Nat} {target : Expr} {place : Compile.Place}
  (hl : Link p env σ) (hcall : CallsRun σ n depth call) (hs : sc.Sound) (hv : vars.Fits sc)
  (hcs : cs.length = depth) (hplace : Compile.PlaceCode env sc target place)
include hl hcall hs hv hcs hplace

theorem load_runs (hp : place.load.Placed σ.bytecode.code base loop) (ops : List Val) (w : World) :
    Runs σ n (running base ops vars.slots cs w) (load p call vars target w)
      (Gives (base + place.load.size) ops vars.slots cs) := by
  cases hplace with
  | @slot name _ slot hslot =>
    obtain ⟨hnone, -⟩ | ⟨slot', v, hsome, hfind, hval⟩ := hv.find? hs name
    · rw [hslot] at hnone
      cases hnone
    · rw [hslot] at hsome
      cases hsome
      simp only [load, hfind]
      exact runs_getLocal hval hp
  | @global name _ hslot =>
    obtain ⟨-, hfind⟩ | ⟨slot', v, hsome, -, -⟩ := hv.find? hs name
    · simp only [load, hfind]
      exact runs_readGlobal hp
    · rw [hslot] at hsome
      cases hsome
  | @element o i span fo fi ho hi =>
    have he : Compile.expr env sc (.index o i span) = .ok ((fo ++ fi).emitAt .getElement span) := by
      rw [Compile.expr, ho, hi]
      rfl
    exact expr_runs hl hcall hs hv hcs he hp ops w
  | @field o name span fo ho =>
    have he : Compile.expr env sc (.field o name span) = .ok (fo.emitAt (.getField name) span) := by
      rw [Compile.expr, ho]
      rfl
    exact expr_runs hl hcall hs hv hcs he hp ops w

theorem store_runs (hp : place.store.Placed σ.bytecode.code base loop) (v : Val) (w : World) :
    Runs σ n (running base [v] vars.slots cs w) (store p call vars v target w)
      (Stores sc (base + place.store.size) cs) := by
  cases hplace with
  | @slot name _ slot hslot =>
    obtain ⟨hnone, -⟩ | ⟨slot', vars', hsome, hassign, hfits, hslots⟩ := hv.assign? hs name v
    · rw [hslot] at hnone
      cases hnone
    · rw [hslot] at hsome
      cases hsome
      obtain ⟨-, hd⟩ := hp.emit Fragment.tidy_empty
      have hlt : slot.toNat < vars.slots.length := by
        rw [hv.length]
        exact hs.slot?_lt hslot
      have hstore : Act.storeLocal slot.toNat v vars.slots = vars'.slots := by
        rw [hslots, Act.storeLocal, if_pos hlt]
      simp only [store, hassign]
      rw [Fragment.size_emit, Fragment.size_empty, Nat.zero_add]
      refine runs_instruction rfl hd (carries_here ⟨hfits, ?_⟩)
      change running _ [] (Act.storeLocal slot.toNat v vars.slots) cs w = _
      rw [hstore]
  | @global name _ hslot =>
    obtain ⟨-, hassign⟩ | ⟨slot', vars', hsome, -, -, -⟩ := hv.assign? hs name v
    · obtain ⟨hpn, hset⟩ := hp.emit (Fragment.tidy_empty.emit _)
      obtain ⟨-, hname⟩ := hpn.emit Fragment.tidy_empty
      rw [Fragment.size_emit, Fragment.size_empty, Nat.zero_add] at hset
      simp only [store, hassign, Fragment.size_emit, Fragment.size_empty, Nat.zero_add, ← Nat.add_assoc]
      refine runs_step (t := running _ [.ref (.literal name), v] vars.slots cs w) rfl hname rfl ?_
      refine (runs_instruction rfl hset
        (carries_change fun w' => .ok (w'.setGlobal (w.tables.text name) v))).map ?_
      rintro _ w' _ rfl
      exact ⟨hv, rfl⟩
    · rw [hslot] at hsome
      cases hsome
  | @element o i span fo fi ho hi =>
    obtain ⟨hp, hd⟩ := hp.emitAt ((Compile.expr_tidy ho).append (Compile.expr_tidy hi))
    obtain ⟨hpo, hpi⟩ := hp.append (Compile.expr_tidy ho)
    simp only [Fragment.size_emitAt, Fragment.size_append, ← Nat.add_assoc] at hd ⊢
    rw [store]
    refine (expr_runs hl hcall hs hv hcs ho hpo [v] w).bind ?_
    rintro o w₁ _ rfl
    refine (expr_runs hl hcall hs hv hcs hi hpi [o, v] w₁).bind ?_
    rintro i w₂ _ rfl
    refine (runs_instruction rfl hd (carries_change fun w => w.setElement o i v)).map ?_
    rintro _ w₃ _ rfl
    exact ⟨hv, rfl⟩
  | @field o name span fo ho =>
    obtain ⟨hp, hd⟩ := hp.emitAt (Compile.expr_tidy ho)
    simp only [Fragment.size_emitAt, ← Nat.add_assoc]
    rw [store]
    refine (expr_runs hl hcall hs hv hcs ho hp [v] w).bind ?_
    rintro o w₁ _ rfl
    refine (runs_instruction rfl hd (carries_change fun w => w.setField o name v)).map ?_
    rintro _ w₂ _ rfl
    exact ⟨hv, rfl⟩

end assignment

/-! ## Blocks and loops -/

section blocks

variable {σ : Setting} {n : Nat} {sc inner : Scope} {vars : Vars} {cs : List Ideal.Caller}
  {loop : LoopAddresses} {base stop : Nat} {w : World}

/-- What leaves a loop keeps no slots of a block inside of it. -/
theorem Within.leave {kind : BlockKind} (h : Within (sc.enter kind) vars) {m : Nat}
    (hm : (sc.enter kind).outerSlots? = some m) :
    Vars.Fits sc vars.tail ∧ (Vars.slots vars.tail).take m = vars.slots.take m := by
  obtain ⟨inner, hg, hfits⟩ := h
  obtain ⟨htail, hslots⟩ := Vars.Fits.leave hg hfits
  have hle := Scope.outerSlots?_le hm
  rw [Scope.liveSlots_enter] at hle
  exact ⟨htail, by rw [hslots, List.take_take, Nat.min_eq_left hle]⟩

/-- A block releases the slots of its variables at its end. What leaves it has released them already. -/
theorem runs_block {kind : BlockKind} {fb : Fragment} {falls : Bool} {body : Vars → Eval (Flow × Vars)}
    (hf : fb.Tidy) (hg : (sc.enter kind).Grows inner) (hv : vars.Fits sc)
    (hp : (Compile.releaseSlots fb inner.leave.1).Placed σ.bytecode.code base loop)
    (h : fb.Placed σ.bytecode.code base loop → ∀ vars : Vars, vars.Fits (sc.enter kind) →
      Runs σ n (running base [] vars.slots cs w) (body vars w) (Arrives falls (base + fb.size)
        (Vars.Fits inner) (Within (sc.enter kind)) (sc.enter kind).outerSlots? loop cs)) :
    Runs σ n (running base [] vars.slots cs w) (inBlock body vars w)
      (Arrives true (base + (Compile.releaseSlots fb inner.leave.1).size) (Vars.Fits sc) (Vars.Fits sc)
        (sc.enter kind).outerSlots? loop cs) := by
  obtain ⟨hpb, ns, hsum, hns, hsize⟩ := Compile.placed_releaseSlots hf hp
  obtain ⟨-, hlive⟩ := Scope.leave_of_grows hg
  have hbody := h hpb _ (hv.enter kind)
  rw [Vars.slots_enter] at hbody
  unfold inBlock
  refine hbody.bind ?_
  rintro ⟨flow, vars'⟩ w' s' harr
  change Runs σ n s' (.ok (flow, vars'.tail) w') _
  cases flow with
  | next =>
    obtain ⟨-, hfits, rfl⟩ := harr
    obtain ⟨htail, hslots⟩ := Vars.Fits.leave hg hfits
    have hlen := hfits.length
    refine runs_releases hns rfl (k := sc.liveSlots) (by omega) (runs_here ⟨rfl, htail, ?_⟩)
    rw [hslots, hsize, Nat.add_assoc]
  | exit =>
    obtain ⟨hw, m, hm, rfl⟩ := harr
    obtain ⟨htail, hslots⟩ := hw.leave hm
    exact runs_here ⟨htail, m, hm, by rw [hslots]⟩
  | again =>
    obtain ⟨hw, m, hm, rfl⟩ := harr
    obtain ⟨htail, hslots⟩ := hw.leave hm
    exact runs_here ⟨htail, m, hm, by rw [hslots]⟩
  | giveBack v => exact runs_here harr

/-- A loop goes on with its condition until that fails, or until its body leaves the loop. -/
theorem runs_rounds {m size : Nat} {fc : Fragment} {condition : Vars → Eval Val}
    {body : Vars → Eval (Flow × Vars)} {B : Vars → Prop} {out : Option Nat}
    (hstop : Instruction.decode σ.bytecode.code (base + fc.size) =
      .instruction (.jumpIfFalse (UInt32.ofNat stop))) (ht : (UInt32.ofNat stop).toNat = stop)
    (hback : Instruction.decode σ.bytecode.code (base + fc.size + jumpWidth + size) =
      .instruction (.jump (UInt32.ofNat base))) (hb : (UInt32.ofNat base).toNat = base)
    (hcond : ∀ vars w, Vars.Fits sc vars → Runs σ n (running base [] vars.slots cs w)
      (condition vars w) (Gives (base + fc.size) [] vars.slots cs))
    (hbody : ∀ vars w, Vars.Fits sc vars → Runs σ n (running (base + fc.size + jumpWidth) [] vars.slots cs w)
      (body vars w) (Arrives true (base + fc.size + jumpWidth + size) (Vars.Fits sc) (Vars.Fits sc)
        (some sc.liveSlots) ⟨stop, base⟩ cs))
    (hm : m ≤ n) (hv : vars.Fits sc) :
    Runs σ m (running base [] vars.slots cs w) (rounds condition body m vars w)
      (Arrives true stop (Vars.Fits sc) B out loop cs) := by
  induction m generalizing vars w with
  | zero => exact ⟨0, Nat.le_refl _, rfl⟩
  | succ m ih =>
    rw [rounds]
    refine ((hcond vars w hv).fewer hm).bind ?_
    rintro v w₁ _ rfl
    refine runs_jumpIfFalse hstop ht ?_
    rw [Nat.add_sub_cancel]
    cases hc : v.face.isTruthy with
    | false => exact runs_here ⟨rfl, hv, rfl⟩
    | true =>
      simp only [if_true]
      refine ((hbody vars w₁ hv).fewer (Nat.le_of_succ_le hm)).bind ?_
      rintro ⟨flow, vars'⟩ w₂ s' harr
      -- Outside of the loop the slots are those of its scope, so none is missing there.
      have hall : ∀ k, Vars.Fits sc vars' → some sc.liveSlots = some k → vars'.slots.take k = vars'.slots :=
        fun k hfits hk => by
          cases hk
          rw [← hfits.length, List.take_length]
      cases flow with
      | next =>
        obtain ⟨-, hfits, rfl⟩ := harr
        exact runs_jump hback hb ((ih (Nat.le_of_succ_le hm) hfits).fewer (Nat.sub_le _ _))
      | exit =>
        obtain ⟨hfits, k, hk, rfl⟩ := harr
        rw [hall k hfits hk]
        exact runs_here ⟨rfl, hfits, rfl⟩
      | again =>
        obtain ⟨hfits, k, hk, rfl⟩ := harr
        rw [hall k hfits hk]
        exact ih (Nat.le_of_succ_le hm) hfits
      | giveBack v => exact runs_here harr

/-- One arm of a branching: what it guards goes on behind the branching, and if its condition fails
the run goes on with what follows the arm. -/
theorem runs_arm {condition : Eval Val} {guarded rest : Eval (Flow × Vars)} {fc : Fragment}
    {pc next size : Nat} {exits : Bool} {out : Option Nat}
    (hd : Instruction.decode σ.bytecode.code (pc + fc.size) =
      .instruction (.jumpIfFalse (UInt32.ofNat next))) (hn : (UInt32.ofNat next).toNat = next)
    (hexit : exits = true → Instruction.decode σ.bytecode.code (pc + fc.size + jumpWidth + size) =
      .instruction (.jump (UInt32.ofNat stop))) (ht : (UInt32.ofNat stop).toNat = stop)
    (hstay : exits = false → stop = pc + fc.size + jumpWidth + size)
    (hcond : Runs σ n (running pc [] vars.slots cs w) (condition w)
      (Gives (pc + fc.size) [] vars.slots cs))
    (hbody : ∀ w, Runs σ n (running (pc + fc.size + jumpWidth) [] vars.slots cs w) (guarded w)
      (Arrives true (pc + fc.size + jumpWidth + size) (Vars.Fits sc) (Vars.Fits sc) out loop cs))
    (hrest : ∀ w, Runs σ n (running next [] vars.slots cs w) (rest w)
      (Arrives true stop (Vars.Fits sc) (Within sc) out loop cs)) :
    Runs σ n (running pc [] vars.slots cs w)
      ((do if (← condition).face.isTruthy then guarded else rest) w)
      (Arrives true stop (Vars.Fits sc) (Within sc) out loop cs) := by
  refine hcond.bind ?_
  rintro v w₁ _ rfl
  refine runs_jumpIfFalse hd hn ?_
  cases v.face.isTruthy with
  | false => exact (hrest w₁).fewer (Nat.sub_le _ _)
  | true =>
    refine ((hbody w₁).fewer (Nat.sub_le _ _)).onward fun r w₂ s' harr => ?_
    refine harr.onward (fun vars' => within_of_fits) fun vars' hfits => ?_
    cases exits with
    | true => exact runs_jump (hexit rfl) ht (runs_here ⟨rfl, hfits, rfl⟩)
    | false =>
      rw [hstay rfl]
      exact runs_here ⟨rfl, hfits, rfl⟩

/-- Slots that are not live outside of the innermost loop are released before control leaves or
repeats it. -/
theorem runs_loopJump {α : Type} {r : EStateM.Result Stop World α} {post : α → World → State → Prop}
    {env : Compile.Env} (hl : Compile.Linked env σ.bytecode) {span : Span} {count : Nat}
    {target : JumpTarget} (hcount : sc.loopSlots? = some count) (hv : vars.Fits sc)
    (hp : ((Compile.releaseSlots (Fragment.empty.mark span) count).emitJump .always target).Placed
      σ.bytecode.code base loop) (ht : target.address base loop ≤ σ.bytecode.size)
    (h : ∀ m, sc.outerSlots? = some m →
      Runs σ n (running (target.address base loop) [] (vars.slots.take m) cs w) r post) :
    Runs σ n (running base [] vars.slots cs w) r post := by
  have htidy := Fragment.tidy_empty.mark span
  obtain ⟨hpr, hd⟩ := hp.emitJump (Compile.releaseSlots_tidy htidy count)
  obtain ⟨-, ns, hsum, hns, hsize⟩ := Compile.placed_releaseSlots htidy hpr
  rw [Fragment.size_mark] at hns hsize
  rw [hsize, Fragment.size_empty, Nat.zero_add] at hd
  have hle := Scope.loopSlots?_le hcount
  have hlen := hv.length
  refine runs_releases hns rfl (k := sc.liveSlots - count) (by omega) ?_
  refine runs_jump hd (hl.toNat_address ht) ((h _ ?_).fewer (Nat.sub_le _ _))
  rw [Scope.outerSlots?, hcount, Option.map_some]

end blocks

/-! ## Statements -/

/-- The start of a statement with an expression. -/
theorem runs_marked {p : Program} {env : Compile.Env} {σ : Setting} (hl : Link p env σ) {n depth : Nat}
    {call : UInt32 → List Val → Eval Val} (hcall : CallsRun σ n depth call) {sc : Scope} (hs : sc.Sound)
    {vars : Vars} (hv : vars.Fits sc) {cs : List Ideal.Caller} (hcs : cs.length = depth)
    {loop : LoopAddresses} {e : Expr} {fe : Fragment} {base : Nat} {span : Span}
    (he : Compile.expr env sc e = .ok fe)
    (hp : (Fragment.empty.mark span ++ fe).Placed σ.bytecode.code base loop) (w : World) :
    Runs σ n (running base [] vars.slots cs w) (expr p call vars e w)
      (Gives (base + (Fragment.empty.mark span ++ fe).size) [] vars.slots cs) := by
  rw [Compile.size_mark_append]
  exact expr_runs hl hcall hs hv hcs he (Compile.placed_mark_append hp) [] w

/-! ### One lemma for each kind of statement -/

-- Code follows the equations of the evaluator.
attribute [local simp] stmt stmts arms

section kinds

variable {p : Program} {env : Compile.Env} {σ : Setting} (hl : Link p env σ) {n depth : Nat}
  {call : UInt32 → List Val → Eval Val} (hcall : CallsRun σ n depth call) {sc : Scope} (hs : sc.Sound)
  {vars : Vars} (hv : vars.Fits sc) {cs : List Ideal.Caller} (hcs : cs.length = depth)
  {base : Nat} {loop : LoopAddresses} (w : World)

/-- The code of a statement follows its evaluation from a scope to the next one. -/
def StmtRuns (p : Program) (σ : Setting) (n : Nat) (call : UInt32 → List Val → Eval Val)
    (cs : List Ideal.Caller) (loop : LoopAddresses) (base : Nat) (vars : Vars) (w : World)
    (sc : Scope) (s : Stmt) (f : Fragment) (next : Scope) : Prop :=
  Runs σ n (running base [] vars.slots cs w) (stmt p call n s vars w)
    (Arrives (!Compile.endsWithReturn [s]) (base + f.size) (Vars.Fits next) (Within sc)
      sc.outerSlots? loop cs)

/-- The code of a body follows its evaluation, wherever it stands, with all variables of its scope. -/
def BodyRuns (p : Program) (σ : Setting) (n : Nat) (call : UInt32 → List Val → Eval Val)
    (cs : List Ideal.Caller) (loop : LoopAddresses) (sc : Scope) (body : List Stmt) (f : Fragment)
    (last : Scope) : Prop :=
  ∀ {base : Nat}, f.Placed σ.bytecode.code base loop → ∀ {vars : Vars}, vars.Fits sc → ∀ w,
    Runs σ n (running base [] vars.slots cs w) (stmts p call n body vars w)
      (Arrives (!Compile.endsWithReturn body) (base + f.size) (Vars.Fits last) (Within sc)
        sc.outerSlots? loop cs)

/-- The code of the arms of a branching follows their evaluation, if what is behind them does. -/
def ArmsRun (p : Program) (σ : Setting) (n : Nat) (call : UInt32 → List Val → Eval Val)
    (cs : List Ideal.Caller) (loop : LoopAddresses) (vars : Vars) (sc : Scope) (as : List (Arm Stmt))
    (gs : List Guarded) : Prop :=
  ∀ {pc stop : Nat} {hasElse : Bool} {otherwise : Vars → Eval (Flow × Vars)},
    Compile.ArmsAt σ.bytecode.code loop stop hasElse gs pc →
    pc + Compile.armsSize hasElse gs ≤ σ.bytecode.size → stop ≤ σ.bytecode.size →
    (hasElse = false → stop = pc + Compile.armsSize hasElse gs) →
    (∀ w, Runs σ n (running (pc + Compile.armsSize hasElse gs) [] vars.slots cs w) (otherwise vars w)
      (Arrives true stop (Vars.Fits sc) (Within sc) sc.outerSlots? loop cs)) →
    ∀ w, Runs σ n (running pc [] vars.slots cs w) (arms p call n as otherwise vars w)
      (Arrives true stop (Vars.Fits sc) (Within sc) sc.outerSlots? loop cs)

include hv

/-- A body in a block of its own. -/
theorem inBlock_runs {kind : BlockKind} {body : List Stmt} {fb : Fragment} {inner : Scope}
    (hb : Compile.stmts env (sc.enter kind) body = .ok (fb, inner))
    (hp : (Compile.releaseSlots fb inner.leave.1).Placed σ.bytecode.code base loop)
    (hbody : BodyRuns p σ n call cs loop (sc.enter kind) body fb inner) :
    Runs σ n (running base [] vars.slots cs w) (inBlock (stmts p call n body) vars w)
      (Arrives true (base + (Compile.releaseSlots fb inner.leave.1).size) (Vars.Fits sc) (Vars.Fits sc)
        (sc.enter kind).outerSlots? loop cs) :=
  runs_block (Compile.stmts_tidy hb) (Compile.stmts_grows hb) hv hp fun hpb _ hv' =>
    hbody hpb hv' w

theorem block_runs {body : List Stmt} {span : Span} {fb : Fragment} {inner : Scope}
    (hb : Compile.stmts env (sc.enter .plain) body = .ok (fb, inner))
    (hp : (Fragment.empty.mark span ++ Compile.releaseSlots fb inner.leave.1).Placed
      σ.bytecode.code base loop)
    (hbody : BodyRuns p σ n call cs loop (sc.enter .plain) body fb inner) :
    StmtRuns p σ n call cs loop base vars w sc (.block body span)
      (Fragment.empty.mark span ++ Compile.releaseSlots fb inner.leave.1) sc := by
  rw [StmtRuns, stmt, Compile.size_mark_append]
  have hblock := inBlock_runs hv w hb (Compile.placed_mark_append hp) hbody
  rw [Scope.outerSlots?_enter_plain] at hblock
  exact hblock.mono fun r w' s' h => h.mono (fun _ => id) fun _ => within_of_fits

theorem branch_runs {branches : List (Arm Stmt)} {span : Span} {gs : List Guarded}
    (ha : Compile.arms env sc branches = .ok gs)
    (hp : (Fragment.empty.mark span ++ Compile.layoutBranch gs none).Placed σ.bytecode.code base loop)
    (harms : ArmsRun p σ n call cs loop vars sc branches gs) :
    StmtRuns p σ n call cs loop base vars w sc (.branch branches none span)
      (Fragment.empty.mark span ++ Compile.layoutBranch gs none) sc := by
  rw [StmtRuns, stmt, Compile.size_mark_append, Compile.size_layoutBranch]
  have hpb := Compile.placed_mark_append hp
  have hfits : base + (Compile.layoutBranch _ none).size ≤ σ.bytecode.size := hpb.fits
  rw [Compile.size_layoutBranch] at hfits
  exact harms (Compile.placed_layoutBranch (Compile.arms_tidy ha) hpb) hfits hfits (fun _ => rfl)
    (fun w => runs_here ⟨rfl, hv, rfl⟩) w

/-- Behind the arms stands the code of `else`, which runs when no condition held. -/
theorem branchElse_runs {branches : List (Arm Stmt)} {body : List Stmt} {span : Span}
    {gs : List Guarded} {fb : Fragment} {inner : Scope} (ha : Compile.arms env sc branches = .ok gs)
    (hb : Compile.stmts env (sc.enter .plain) body = .ok (fb, inner))
    (hp : (Fragment.empty.mark span ++ Compile.layoutBranch gs
      (some (Compile.releaseSlots fb inner.leave.1))).Placed σ.bytecode.code base loop)
    (harms : ArmsRun p σ n call cs loop vars sc branches gs)
    (hbody : BodyRuns p σ n call cs loop (sc.enter .plain) body fb inner) :
    StmtRuns p σ n call cs loop base vars w sc (.branch branches (some body) span)
      (Fragment.empty.mark span ++ Compile.layoutBranch gs
        (some (Compile.releaseSlots fb inner.leave.1))) sc := by
  rw [StmtRuns, stmt, Compile.size_mark_append, Compile.size_layoutBranch_some]
  have hpb := Compile.placed_mark_append hp
  have hfits : base + (Compile.layoutBranch gs (some _)).size ≤ σ.bytecode.size := hpb.fits
  rw [Compile.size_layoutBranch_some] at hfits
  obtain ⟨hpa, hpe⟩ := Compile.placed_layoutBranch_some (Compile.arms_tidy ha) hpb
  refine harms hpa (by omega) hfits (fun hx => by cases hx) (fun w' => ?_) w
  have hblock := inBlock_runs hv w' hb hpe hbody
  rw [Scope.outerSlots?_enter_plain, Nat.add_assoc] at hblock
  exact hblock.mono fun r w' s' h => h.mono (fun _ => id) fun _ => within_of_fits

theorem exitLoop_runs {span : Span} {count : Nat} (hl : Link p env σ)
    (hcount : sc.loopSlots? = some count)
    (hp : ((Compile.releaseSlots (Fragment.empty.mark span) count).emitJump .always .loopExit).Placed
      σ.bytecode.code base loop) (hx : loop.exit ≤ σ.bytecode.size) :
    StmtRuns p σ n call cs loop base vars w sc (.exitLoop span)
      ((Compile.releaseSlots (Fragment.empty.mark span) count).emitJump .always .loopExit) sc := by
  rw [StmtRuns, stmt]
  exact runs_loopJump hl.linked hcount hv hp hx fun m hm => runs_here ⟨within_of_fits hv, m, hm, rfl⟩

theorem nextRound_runs {span : Span} {count : Nat} (hl : Link p env σ)
    (hcount : sc.loopSlots? = some count)
    (hp : ((Compile.releaseSlots (Fragment.empty.mark span) count).emitJump .always .loopStart).Placed
      σ.bytecode.code base loop) (hy : loop.start ≤ σ.bytecode.size) :
    StmtRuns p σ n call cs loop base vars w sc (.nextRound span)
      ((Compile.releaseSlots (Fragment.empty.mark span) count).emitJump .always .loopStart) sc := by
  rw [StmtRuns, stmt]
  exact runs_loopJump hl.linked hcount hv hp hy fun m hm => runs_here ⟨within_of_fits hv, m, hm, rfl⟩

omit hv in
theorem giveBack_runs {span : Span}
    (hp : ((Fragment.empty.mark span).emit .ret).Placed σ.bytecode.code base loop) :
    StmtRuns p σ n call cs loop base vars w sc (.giveBack none span)
      ((Fragment.empty.mark span).emit .ret) sc := by
  obtain ⟨-, hd⟩ := hp.emit (Fragment.tidy_empty.mark span)
  rw [Fragment.size_mark] at hd
  rw [StmtRuns, stmt]
  exact runs_instruction rfl hd (carries_return fun s' h => h)

include hl hcall hs hcs

theorem expression_runs {e : Expr} {span : Span} {fe : Fragment}
    (he : Compile.expr env sc e = .ok fe)
    (hp : ((Fragment.empty.mark span ++ fe).emit .drop).Placed σ.bytecode.code base loop) :
    StmtRuns p σ n call cs loop base vars w sc (.expression e span)
      ((Fragment.empty.mark span ++ fe).emit .drop) sc := by
  obtain ⟨hpe, hd⟩ := hp.emit ((Fragment.tidy_empty.mark span).append (Compile.expr_tidy he))
  rw [StmtRuns, stmt, Fragment.size_emit, ← Nat.add_assoc]
  refine (runs_marked hl hcall hs hv hcs he hpe w).bind ?_
  rintro v w₁ _ rfl
  exact runs_instruction rfl hd (carries_here ⟨rfl, hv, rfl⟩)

theorem declare_runs {name : Symbol} {e : Expr} {span : Span} {fe : Fragment} {slot : UInt8}
    {inner : Scope} (he : Compile.expr env sc e = .ok fe) (hdecl : sc.declare name = .ok (slot, inner))
    (hp : ((Fragment.empty.mark span ++ fe).emit (.setLocal slot)).Placed σ.bytecode.code base loop) :
    StmtRuns p σ n call cs loop base vars w sc (.declare name e span)
      ((Fragment.empty.mark span ++ fe).emit (.setLocal slot)) inner := by
  obtain ⟨hpe, hd⟩ := hp.emit ((Fragment.tidy_empty.mark span).append (Compile.expr_tidy he))
  obtain ⟨-, hslot, -⟩ := Scope.declare_ok hdecl
  rw [StmtRuns, stmt, Fragment.size_emit, ← Nat.add_assoc]
  refine (runs_marked hl hcall hs hv hcs he hpe w).bind ?_
  rintro v w₁ _ rfl
  obtain ⟨hfits, hslots⟩ := hv.declare hdecl v
  -- the slot of a new variable is the one behind those in use
  have hstore : Act.storeLocal slot.toNat v vars.slots = vars.slots ++ [v] := by
    rw [hslot, ← hv.length, Act.storeLocal, if_neg (Nat.lt_irrefl _), Nat.sub_self,
      List.replicate_zero, List.append_nil]
  refine runs_instruction rfl hd (carries_here ⟨rfl, hfits, ?_⟩)
  change running _ [] (Act.storeLocal slot.toNat v vars.slots) cs w₁ = _
  rw [hslots, hstore]

theorem assign_runs {target value : Expr} {span : Span} {place : Compile.Place} {fv : Fragment}
    (hplace : Compile.PlaceCode env sc target place) (hval : Compile.expr env sc value = .ok fv)
    (hp : ((Fragment.empty.mark span ++ fv) ++ place.store).Placed σ.bytecode.code base loop) :
    StmtRuns p σ n call cs loop base vars w sc (.assign target none value span)
      ((Fragment.empty.mark span ++ fv) ++ place.store) sc := by
  obtain ⟨hpv, hps⟩ := hp.append ((Fragment.tidy_empty.mark span).append (Compile.expr_tidy hval))
  rw [StmtRuns, Fragment.size_append, ← Nat.add_assoc, stmt]
  have hassign : Runs σ n (running base [] vars.slots cs w) (assign p call vars target none value w)
      (Stores sc (base + (Fragment.empty.mark span ++ fv).size + place.store.size) cs) := by
    rw [assign]
    refine (runs_marked hl hcall hs hv hcs hval hpv w).bind ?_
    rintro v w₁ _ rfl
    exact store_runs hl hcall hs hv hcs hplace hps v w₁
  refine hassign.map ?_
  rintro vars' w₂ _ ⟨hfits, rfl⟩
  exact ⟨rfl, hfits, rfl⟩

theorem fold_runs {target value : Expr} {op : BinaryOp} {span : Span} {place : Compile.Place}
    {fv : Fragment} (hplace : Compile.PlaceCode env sc target place)
    (hval : Compile.expr env sc value = .ok fv)
    (hp : (((Fragment.empty.mark span ++ place.load) ++ fv).emitAt (.binary op) span ++
      place.store).Placed σ.bytecode.code base loop) :
    StmtRuns p σ n call cs loop base vars w sc (.assign target (some op) value span)
      (((Fragment.empty.mark span ++ place.load) ++ fv).emitAt (.binary op) span ++ place.store) sc := by
  have hmark := Fragment.tidy_empty.mark span
  have htidy := (hmark.append hplace.tidy.1).append (Compile.expr_tidy hval)
  obtain ⟨hpo, hps⟩ := hp.append (htidy.emitAt (.binary op) span)
  obtain ⟨hpr, hd⟩ := hpo.emitAt htidy
  obtain ⟨hpl, hpv⟩ := hpr.append (hmark.append hplace.tidy.1)
  rw [StmtRuns]
  simp only [Fragment.size_append, Fragment.size_emitAt, Fragment.size_mark, Fragment.size_empty,
    Nat.zero_add, ← Nat.add_assoc] at hpv hd hps ⊢
  rw [stmt]
  have hassign : Runs σ n (running base [] vars.slots cs w)
      (assign p call vars target (some op) value w) (Stores sc (base + place.load.size + fv.size +
        (Instruction.binary op).width + place.store.size) cs) := by
    rw [assign]
    refine (load_runs hl hcall hs hv hcs hplace (Compile.placed_mark_append hpl) [] w).bind ?_
    rintro a w₁ _ rfl
    refine (expr_runs hl hcall hs hv hcs hval hpv [a] w₁).bind ?_
    rintro b w₂ _ rfl
    refine Runs.bind (runs_instruction rfl hd (carries_give fun w => w.binary op a b)) ?_
    rintro v w₃ _ rfl
    exact store_runs hl hcall hs hv hcs hplace hps v w₃
  refine hassign.map ?_
  rintro vars' w₄ _ ⟨hfits, rfl⟩
  exact ⟨rfl, hfits, rfl⟩

theorem giveBackValue_runs {e : Expr} {span : Span} {fe : Fragment}
    (he : Compile.expr env sc e = .ok fe)
    (hp : ((Fragment.empty.mark span ++ fe).emit .retValue).Placed σ.bytecode.code base loop) :
    StmtRuns p σ n call cs loop base vars w sc (.giveBack (some e) span)
      ((Fragment.empty.mark span ++ fe).emit .retValue) sc := by
  obtain ⟨hpe, hd⟩ := hp.emit ((Fragment.tidy_empty.mark span).append (Compile.expr_tidy he))
  rw [StmtRuns, stmt]
  refine (runs_marked hl hcall hs hv hcs he hpe w).bind ?_
  rintro v w₁ _ rfl
  exact runs_instruction rfl hd (carries_return fun s' h => h)

/-- What is left of a loop is one round: the condition, and the body from the address behind it. -/
theorem loop_runs {condition : Expr} {body : List Stmt} {span : Span} {fc fb : Fragment}
    {inner : Scope} (hc : Compile.expr env sc condition = .ok fc)
    (hb : Compile.stmts env (sc.enter .loop) body = .ok (fb, inner))
    (hp : (Fragment.empty.mark span ++
      Compile.layoutLoop ⟨fc, Compile.releaseSlots fb inner.leave.1⟩).Placed σ.bytecode.code base loop)
    (hbody : ∀ exit, exit ≤ σ.bytecode.size → base ≤ σ.bytecode.size →
      BodyRuns p σ n call cs ⟨exit, base⟩ (sc.enter .loop) body fb inner) :
    StmtRuns p σ n call cs loop base vars w sc (.loop condition body span)
      (Fragment.empty.mark span ++ Compile.layoutLoop ⟨fc, Compile.releaseSlots fb inner.leave.1⟩)
      sc := by
  rw [StmtRuns, stmt, Compile.size_mark_append, Compile.size_layoutLoop]
  have hpl := Compile.placed_mark_append hp
  have hfits : base + (Compile.layoutLoop _).size ≤ σ.bytecode.size := hpl.fits
  rw [Compile.size_layoutLoop] at hfits
  have hbase : base ≤ σ.bytecode.size := Nat.le_trans (Nat.le_add_right _ _) hfits
  obtain ⟨hpc, hd, hpb, hback⟩ := Compile.placed_layoutLoop (Compile.expr_tidy hc)
    (Compile.releaseSlots_tidy (Compile.stmts_tidy hb) _) hpl
  refine runs_rounds hd (hl.linked.toNat_address hfits) hback (hl.linked.toNat_address hbase)
    (fun vars' w' hv' => expr_runs hl hcall hs hv' hcs hc hpc [] w') (fun vars' w' hv' => ?_)
    (Nat.le_refl _) hv
  have hblock := inBlock_runs hv' w' hb hpb (hbody _ hfits hbase)
  rw [Scope.outerSlots?_enter_loop] at hblock
  exact hblock

end kinds

mutual

/-- The code of a statement follows its evaluation. -/
theorem stmt_runs {p : Program} {env : Compile.Env} {σ : Setting} (hl : Link p env σ) {n depth : Nat}
    {call : UInt32 → List Val → Eval Val} (hcall : CallsRun σ n depth call) {cs : List Ideal.Caller}
    (hcs : cs.length = depth) : ∀ {s : Stmt} {sc : Scope} {f : Fragment} {next : Scope} {base : Nat}
    {loop : LoopAddresses}, Compile.stmt env sc s = .ok (f, next) → sc.Sound →
    f.Placed σ.bytecode.code base loop → loop.exit ≤ σ.bytecode.size → loop.start ≤ σ.bytecode.size →
    ∀ {vars : Vars}, vars.Fits sc → ∀ w, StmtRuns p σ n call cs loop base vars w sc s f next
  | .expression e span, _, _, _, _, _, h, hs, hp, _, _, _, hv, w => by
    cases Compile.stmt_code h with
    | expression he => exact expression_runs hl hcall hs hv hcs w he hp
  | .declare name e span, _, _, _, _, _, h, hs, hp, _, _, _, hv, w => by
    cases Compile.stmt_code h with
    | declare he hdecl => exact declare_runs hl hcall hs hv hcs w he hdecl hp
  | .assign target none value span, _, _, _, _, _, h, hs, hp, _, _, _, hv, w => by
    cases Compile.stmt_code h with
    | assign hplace hval => exact assign_runs hl hcall hs hv hcs w hplace hval hp
  | .assign target (some op) value span, _, _, _, _, _, h, hs, hp, _, _, _, hv, w => by
    cases Compile.stmt_code h with
    | fold hplace hval => exact fold_runs hl hcall hs hv hcs w hplace hval hp
  | .block body span, _, _, _, _, _, h, hs, hp, hx, hy, _, hv, w => by
    cases Compile.stmt_code h with
    | block hb =>
      exact block_runs hv w hb hp (stmts_runs hl hcall hcs hb (hs.enter .plain) hx hy)
  | .branch branches none span, _, _, _, _, _, h, hs, hp, hx, hy, _, hv, w => by
    cases Compile.stmt_code h with
    | branch ha => exact branch_runs hv w ha hp (arms_runs hl hcall hcs ha hs hx hy hv)
  | .branch branches (some body) span, _, _, _, _, _, h, hs, hp, hx, hy, _, hv, w => by
    cases Compile.stmt_code h with
    | branchElse ha hb =>
      exact branchElse_runs hv w ha hb hp (arms_runs hl hcall hcs ha hs hx hy hv)
        (stmts_runs hl hcall hcs hb (hs.enter .plain) hx hy)
  | .loop condition body span, _, _, _, _, _, h, hs, hp, _, _, _, hv, w => by
    cases Compile.stmt_code h with
    | loop hc hb =>
      exact loop_runs hl hcall hs hv hcs w hc hb hp fun _ hx hy =>
        stmts_runs hl hcall hcs hb (hs.enter .loop) hx hy
  | .exitLoop span, _, _, _, _, _, h, _, hp, hx, _, _, hv, w => by
    cases Compile.stmt_code h with
    | exitLoop hcount => exact exitLoop_runs hv w hl hcount hp hx
  | .nextRound span, _, _, _, _, _, h, _, hp, _, hy, _, hv, w => by
    cases Compile.stmt_code h with
    | nextRound hcount => exact nextRound_runs hv w hl hcount hp hy
  | .giveBack none span, _, _, _, _, _, h, _, hp, _, _, _, _, w => by
    cases Compile.stmt_code h with
    | giveBack => exact giveBack_runs w hp
  | .giveBack (some e) span, _, _, _, _, _, h, hs, hp, _, _, _, hv, w => by
    cases Compile.stmt_code h with
    | giveBackValue he => exact giveBackValue_runs hl hcall hs hv hcs w he hp
  | .function decl span, _, _, _, _, _, h, _, _, _, _, _, _, _ => by cases Compile.stmt_code h
  | .type decl span, _, _, _, _, _, h, _, _, _, _, _, _, _ => by cases Compile.stmt_code h

/-- The code of several statements follows their evaluation. -/
theorem stmts_runs {p : Program} {env : Compile.Env} {σ : Setting} (hl : Link p env σ) {n depth : Nat}
    {call : UInt32 → List Val → Eval Val} (hcall : CallsRun σ n depth call) {cs : List Ideal.Caller}
    (hcs : cs.length = depth) : ∀ {ss : List Stmt} {sc : Scope} {f : Fragment} {last : Scope}
    {loop : LoopAddresses}, Compile.stmts env sc ss = .ok (f, last) → sc.Sound →
    loop.exit ≤ σ.bytecode.size → loop.start ≤ σ.bytecode.size →
    BodyRuns p σ n call cs loop sc ss f last
  | [], _, _, _, _, h, _, _, _, _, _, _, hv, w => by
    rw [Compile.stmts] at h
    cases h
    rw [stmts]
    exact runs_here ⟨rfl, hv, rfl⟩
  | [s], _, _, _, _, h, hs, hx, hy, _, hp, _, hv, w => by
    obtain ⟨fs, next, fss, hst, hss, rfl⟩ := Compile.stmts_cons h
    rw [Compile.stmts] at hss
    cases hss
    obtain ⟨hps, -⟩ := hp.append (Compile.stmt_tidy hst)
    rw [stmts, Fragment.size_append, Fragment.size_empty, Nat.add_zero]
    refine (stmt_runs hl hcall hcs hst hs hps hx hy hv w).bind ?_
    rintro ⟨flow, vars'⟩ w' s' harr
    cases flow with
    | next => exact runs_here harr
    | exit => exact runs_here harr
    | again => exact runs_here harr
    | giveBack v => exact runs_here harr
  | s :: t :: ss, _, _, _, _, h, hs, hx, hy, base, hp, _, hv, w => by
    obtain ⟨fs, next, fss, hst, hss, rfl⟩ := Compile.stmts_cons h
    obtain ⟨hps, hpss⟩ := hp.append (Compile.stmt_tidy hst)
    rw [stmts, Compile.endsWithReturn_cons, Fragment.size_append, ← Nat.add_assoc]
    refine (stmt_runs hl hcall hcs hst hs hps hx hy hv w).bind ?_
    rintro ⟨flow, vars'⟩ w' s' harr
    cases flow with
    | next =>
      obtain ⟨-, hfits, rfl⟩ := harr
      have hrest := stmts_runs hl hcall hcs hss (Compile.stmt_sound hst hs) hx hy hpss hfits w'
      rw [Compile.stmt_outerSlots? hst] at hrest
      refine hrest.mono fun r w'' s'' h => h.mono (fun _ => id) ?_
      rintro vars'' ⟨inner, hg, hfits⟩
      exact ⟨inner, (Compile.stmt_grows hst).trans hg, hfits⟩
    | exit => exact runs_here harr
    | again => exact runs_here harr
    | giveBack v => exact runs_here harr

/-- The code of the arms of a branching follows their evaluation. -/
theorem arms_runs {p : Program} {env : Compile.Env} {σ : Setting} (hl : Link p env σ) {n depth : Nat}
    {call : UInt32 → List Val → Eval Val} (hcall : CallsRun σ n depth call) {cs : List Ideal.Caller}
    (hcs : cs.length = depth) : ∀ {as : List (Arm Stmt)} {sc : Scope} {gs : List Guarded}
    {loop : LoopAddresses}, Compile.arms env sc as = .ok gs → sc.Sound →
    loop.exit ≤ σ.bytecode.size → loop.start ≤ σ.bytecode.size → ∀ {vars : Vars}, vars.Fits sc →
    ArmsRun p σ n call cs loop vars sc as gs
  | [], _, _, _, h, _, _, _, _, _, _, _, _, _, _, _, _, _, hend, w => by
    rw [Compile.arms] at h
    cases h
    rw [arms]
    exact hend w
  | ⟨condition, body, span⟩ :: rest, sc, _, _, h, hs, hx, hy, vars, hv, pc, stop, hasElse, _, ha,
      hfits, hstop, hlast, hend, w => by
    obtain ⟨fc, fb, inner, more, hc, hb, hm, rfl⟩ := Compile.arms_cons h
    obtain ⟨hpc, hd, hpb, hexit, hrest⟩ := ha
    rw [Compile.armsSize, ← Nat.add_assoc] at hfits hend hlast
    rw [arms]
    refine runs_arm hd (hl.linked.toNat_address (by omega)) hexit (hl.linked.toNat_address hstop) ?_
      (expr_runs hl hcall hs hv hcs hc hpc [] w) (fun w' => ?_)
      (arms_runs hl hcall hcs hm hs hx hy hv hrest hfits hstop hlast hend)
    · intro hexits
      obtain ⟨rfl, rfl⟩ : more = [] ∧ hasElse = false := by simpa using hexits
      rw [hlast rfl, Compile.armsSize, Guarded.size, if_neg (by rw [hexits]; exact Bool.false_ne_true)]
      omega
    · have hblock := inBlock_runs hv w' hb hpb (stmts_runs hl hcall hcs hb (hs.enter .plain) hx hy)
      rw [Scope.outerSlots?_enter_plain] at hblock
      exact hblock

end

end Scriptlet.Evaluation
