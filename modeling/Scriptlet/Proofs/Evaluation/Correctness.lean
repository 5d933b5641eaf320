import Scriptlet.Proofs.Evaluation.Statements

/-!
# Compiled programs do what they say

The code of a compiled program follows its direct evaluation: calls of declared functions do by
induction on how many of them may be inside of each other (`invoke_runs`), and so do the main statements
(`main_runs`). What the run of the code does, machines do as long as they do not call `gc`.

Main statement: `Program.compile_correct`.
-/

namespace Scriptlet

open Scriptlet.Ideal

namespace Evaluation

/-! ## Calls of functions -/

section image

variable {p : Program} {pool : Pool} {b : Bytecode} {env : Compile.Env} (hi : Compile.Image p pool b env)
include hi

theorem prototypes_of_image : env.prototypes = p.prototypes := by
  have hfunctions : env.prototypes.functions = p.prototypes.functions := Array.ext' hi.functions
  have hstructs : env.prototypes.structs = p.prototypes.structs := Array.ext' hi.types
  calc env.prototypes = ⟨env.prototypes.functions, env.prototypes.structs⟩ := rfl
    _ = p.prototypes := by rw [hfunctions, hstructs]

theorem tables_of_image : b.tables = p.tables pool := by
  have hfunctions : b.functions.map (fun f => (f.name, f.arity)) =
      p.prototypes.functions.map fun f => (f.name, f.arity) := by
    apply Array.ext_getElem?
    intro i
    have hget : env.prototypes.functions[i]? = p.functions[i]?.map Compile.functionEntry := by
      rw [← Array.getElem?_toList, hi.functions, List.getElem?_map]
    rw [Array.getElem?_map, Array.getElem?_map, ← prototypes_of_image hi, hget]
    cases hd : p.functions[i]? with
    | none =>
      have hle : b.functions.size ≤ i := by
        rw [hi.size]
        exact List.getElem?_eq_none_iff.1 hd
      rw [Array.getElem?_eq_none hle]
      rfl
    | some d =>
      obtain ⟨offset, f, he, -⟩ := hi.body hd
      rw [he]
      rfl
  rw [Bytecode.tables, Program.tables, hfunctions, hi.strings, hi.structs, prototypes_of_image hi]

end image

section calls

variable {p : Program} {pool : Pool} {env : Compile.Env} {σ : Setting}
  (hi : Compile.Image p pool σ.bytecode env) (hl : Link p env σ)
include hi hl

/-- The body of a function follows its evaluation, and comes behind the call. -/
theorem body_runs {n depth : Nat} {call : UInt32 → List Val → Eval Val} (hcall : CallsRun σ n depth call)
    {id : UInt32} {d : Function} {g : FunctionEntry} (hd : p.functions[id.toNat]? = some d)
    (hg : σ.bytecode.function? id = some g) {vs : List Val} (hvs : vs.length = d.params.length)
    {c : Ideal.Caller} {cs : List Ideal.Caller} (hcs : (c :: cs).length = depth) (w : World) :
    Runs σ n (running g.offset [] vs (c :: cs) w)
      ((do
        let (flow, _) ← stmts p call n d.body [(d.params.map Binder.name).zip vs]
        match flow with
        | .giveBack v => return v
        | _ => return .null) w) (Gives c.returnTo c.frame.operands c.frame.locals cs) := by
  obtain ⟨offset, f, he, hbody, hp⟩ := hi.body hd
  have hoffset : g.offset = offset := by
    change σ.bytecode.functions[id.toNat]? = _ at hg
    rw [hg] at he
    cases he
    rfl
  obtain ⟨sc, fb, last, hparams, hfb, rfl⟩ := Compile.functionBody_ok hbody
  obtain ⟨hs, -, houter⟩ := Compile.declareParams_ok hparams Scope.sound_function
  obtain ⟨hfits, hslots⟩ := Vars.fits_params hparams hvs
  -- A body that does not end with a return has one behind it.
  obtain ⟨hpb, hret⟩ : fb.Placed σ.bytecode.code g.offset ⟨0, 0⟩ ∧
      (Compile.endsWithReturn d.body = false →
        Instruction.decode σ.bytecode.code (g.offset + fb.size) = .instruction .ret) := by
    have hp := hp ⟨0, 0⟩
    rw [← hoffset] at hp
    cases hr : Compile.endsWithReturn d.body with
    | true =>
      rw [hr, if_pos rfl] at hp
      exact ⟨hp, fun h => (by cases h)⟩
    | false =>
      rw [hr, if_neg Bool.false_ne_true] at hp
      obtain ⟨hpb, hd⟩ := hp.emit (Compile.stmts_tidy hfb)
      exact ⟨hpb, fun _ => hd⟩
  have hrun := stmts_runs hl hcall hcs hfb hs (Nat.zero_le _) (Nat.zero_le _) hpb hfits w
  rw [hslots] at hrun
  refine hrun.bind ?_
  rintro ⟨flow, vars⟩ w' s' harr
  cases flow with
  | next =>
    obtain ⟨hfalls, -, rfl⟩ := harr
    have hends : Compile.endsWithReturn d.body = false := by simpa using hfalls
    refine runs_instruction rfl (hret hends) ?_
    change Carries σ n (Act.returnValue .null (running _ [] vars.slots (c :: cs) w')) (.ok Val.null w') _
    exact carries_return fun s' h => h
  | exit =>
    obtain ⟨-, m, hm, -⟩ := harr
    rw [houter] at hm
    cases hm
  | again =>
    obtain ⟨-, m, hm, -⟩ := harr
    rw [houter] at hm
    cases hm
  | giveBack v => exact runs_here harr

/-- Calls of declared functions are followed, however many may be inside of each other. -/
theorem invoke_runs (n depth : Nat) : CallsRun σ n depth (invoke p σ.limit n depth) := by
  induction n generalizing depth with
  | zero => exact fun id vs pc ops locals cs w hcs => .inl ⟨rfl, w, rfl⟩
  | succ n ih =>
    intro id vs pc ops locals cs w hcs
    unfold Act.callDeclared
    rw [Act.run_get_bind, invoke]
    cases hg : σ.bytecode.function? id with
    | none =>
      cases hd : p.functions[id.toNat]? with
      | none => exact carries_fault _
      | some d =>
        obtain ⟨offset, f, he, -⟩ := hi.body hd
        rw [Bytecode.function?, he] at hg
        cases hg
    | some g =>
      obtain ⟨d, hd, hentry⟩ := hi.declared hg
      have harity : g.arity = d.params.length := by
        rw [hentry]
        exact List.length_map _
      simp only [hd, harity]
      by_cases hlen : vs.length ≠ d.params.length
      · simp only [if_pos hlen]
        exact carries_fault _
      · simp only [if_neg hlen]
        by_cases hlimit : σ.limit ≤ depth
        · rw [← hcs] at hlimit ⊢
          simp only [if_pos hlimit]
          exact carries_fault _
        · have hlimit' : ¬ σ.limit ≤ cs.length := by rwa [hcs]
          simp only [if_neg hlimit, if_neg hlimit']
          rw [Act.run_bind_ok (run_popN_values vs)]
          refine .inr ?_
          exact body_runs hi hl (ih (depth + 1)) hd hg (Decidable.not_not.1 hlen)
            (c := ⟨⟨ops, locals⟩, pc⟩) (congrArg (· + 1) hcs) w

/-- The main statements follow their evaluation, and the run halts behind them. -/
theorem main_runs (n : Nat) : Runs σ n (State.initial σ)
    (stmts p (invoke p σ.limit n 0) n p.main [[]] (World.initial (p.tables pool)))
    fun _ w s => s.status = .halted ∧ s.world = w := by
  obtain ⟨f, last, hmain, hp, -⟩ := hi.code
  obtain ⟨hpm, hd⟩ := (hp ⟨0, 0⟩).emit (Compile.stmts_tidy hmain)
  have hfits : Vars.Fits Scope.function [[]] := rfl
  have hcs : ([] : List Ideal.Caller).length = 0 := rfl
  have hrun := stmts_runs hl (invoke_runs hi hl n 0) hcs hmain Scope.sound_function (Nat.zero_le _)
    (Nat.zero_le _) hpm hfits (World.initial (p.tables pool))
  rw [State.initial, tables_of_image hi]
  refine hrun.onward ?_
  rintro ⟨flow, vars⟩ w s harr
  cases flow with
  | next =>
    obtain ⟨-, -, rfl⟩ := harr
    exact runs_instruction rfl hd (carries_here ⟨rfl, rfl⟩)
  | exit =>
    obtain ⟨-, m, hm, -⟩ := harr
    cases hm
  | again =>
    obtain ⟨-, m, hm, -⟩ := harr
    cases hm
  | giveBack v => exact runs_here harr

end calls

end Evaluation

/-! ## Endings -/

namespace Ideal.State

variable {σ : Setting}

/-- How a run has ended, if it has after a number of steps. -/
def endingAfter? (σ : Setting) (n : Nat) : Option Ending :=
  match (after σ 0 n).status with
  | .halted => some ⟨(after σ 0 n).world.output, (faultWithin? σ 0 n).map RuntimeFault.fault⟩
  | .ready => none

theorem status_of_step_error {s s' : State} {f : Fault} (h : s.step σ 0 = .error f s') :
    s'.status = .halted := by
  unfold step at h
  split at h
  · cases h
  · split at h
    · cases h
    · unfold executeNext at h
      split at h
      · cases h
        rfl
      · cases h
        rfl
      · split at h
        · cases h
        · cases h
          rfl

theorem status_next_of_fault {s : State} {f : Fault} (h : s.nextFault? σ 0 = some f) :
    (s.next σ 0).status = .halted := by
  unfold nextFault? at h
  unfold next
  cases hs : s.step σ 0 with
  | ok u s' =>
    rw [hs] at h
    cases h
  | error g s' => exact status_of_step_error hs

theorem nextFault?_of_halted {s : State} (h : s.status = .halted) : s.nextFault? σ 0 = none := by
  simp only [nextFault?, step, h]

theorem faultWithin?_of_calm {k : Nat} (h : Evaluation.Calm σ (initial σ) k) :
    faultWithin? σ 0 k = none := by
  induction k with
  | zero => rfl
  | succ k ih =>
    have hlast := h k (Nat.lt_succ_self k)
    rw [← after_eq_steps] at hlast
    simp only [faultWithin?, ih fun j hj => h j (Nat.lt_succ_of_lt hj), hlast]
    rfl

theorem endingAfter?_succ {n : Nat} {e : Ending} (h : endingAfter? σ n = some e) :
    endingAfter? σ (n + 1) = some e := by
  cases hst : (after σ 0 n).status with
  | ready =>
    simp only [endingAfter?, hst] at h
    cases h
  | halted =>
    have hafter : after σ 0 (n + 1) = after σ 0 n := next_of_halted hst
    have hfault : faultWithin? σ 0 (n + 1) = faultWithin? σ 0 n := by
      simp only [faultWithin?, nextFault?_of_halted hst, Option.map_none, Option.or_none]
    rw [endingAfter?, hafter, hfault]
    exact h

/-- A run that has ended stays as it is. -/
theorem endingAfter?_add {n : Nat} {e : Ending} (h : endingAfter? σ n = some e) (k : Nat) :
    endingAfter? σ (n + k) = some e := by
  induction k with
  | zero => exact h
  | succ k ih => exact endingAfter?_succ ih

theorem endingAfter?_unique {m n : Nat} {d e : Ending} (hm : endingAfter? σ m = some d)
    (hn : endingAfter? σ n = some e) : d = e := by
  have hm := endingAfter?_add hm n
  have hn := endingAfter?_add hn m
  rw [Nat.add_comm, hn] at hm
  cases hm
  rfl

end Ideal.State

open Ideal.State in
/-- A run that follows an evaluation up to its end ends as the evaluation does, and goes on for as long
as that was not cut off. -/
theorem Evaluation.ending_of_runs {α : Type} {σ : Setting} {n : Nat} {r : EStateM.Result Stop World α}
    (h : Runs σ n (initial σ) r fun _ w s => s.status = .halted ∧ s.world = w) :
    match ending? r with
    | some e => ∃ k, endingAfter? σ k = some e
    | none => ∃ k, n ≤ k ∧ endingAfter? σ k = none := by
  cases r with
  | ok a w =>
    obtain ⟨k, hc, hst, hw⟩ := h
    rw [← after_eq_steps] at hst hw
    refine ⟨k, ?_⟩
    simp only [endingAfter?, hst, hw, faultWithin?_of_calm hc, Option.map_none]
  | error s w =>
    cases s with
    | fault f =>
      obtain ⟨k, hc, hf, hw⟩ := h
      rw [← after_eq_steps] at hf hw
      have hst : (after σ 0 (k + 1)).status = .halted := status_next_of_fault hf
      refine ⟨k + 1, ?_⟩
      simp only [endingAfter?, hst, hw, faultWithin?, faultWithin?_of_calm hc, hf, Option.map_some,
        Option.none_or]
    | unfinished =>
      obtain ⟨k, hk, hready⟩ := h
      rw [← after_eq_steps] at hready
      refine ⟨k, hk, ?_⟩
      simp only [endingAfter?, hready]

/-! ## Machines -/

/-- How a machine has ended, if it has after a number of steps. -/
def Machine.endingAfter? (m : Machine) (n : Nat) : Option Ending :=
  match (m.after n).status with
  | .halted => some ⟨(m.after n).output, (m.faultWithin? n).map RuntimeFault.fault⟩
  | .ready => none

/-- A machine that has halted stays as it is. -/
theorem Machine.after_of_halted {m : Machine} {k n : Nat} (h : (m.after k).status = .halted)
    (hn : k ≤ n) : m.after n = m.after k := by
  induction n, hn using Nat.le_induction with
  | base => rfl
  | succ n _ ih => rw [after, next, ih, step_halted h]

/-- Machines that do not call `gc` end as the run of their code does. -/
theorem Machine.endingAfter?_new (b : Bytecode) (cfg : Config) (n : Nat)
    (hgc : ∀ k < n, ¬ ((new b cfg).after k).CallsGc)
    (hsz : ((new b cfg).after n).heap.slots.size < 2 ^ 32) :
    (new b cfg).endingAfter? n = State.endingAfter? ⟨b, cfg.maxCallDepth⟩ n := by
  obtain ⟨⟨ρ, hs⟩, hf⟩ := sim_after b cfg 0 n hgc hsz
  rw [Machine.endingAfter?, State.endingAfter?, hs.status, hs.output, hf]

/-- A compiled program does what direct evaluation of it does: a machine that runs its code ends if and
only if the evaluation does, with the same lines printed and the same fault, if any. The machine is not
to call `gc`, and not to run out of places for objects. -/
theorem Program.compile_correct {p : Program} {pool : Pool} {b : Bytecode}
    (h : p.compile pool = .ok b) (hsize : b.size < 2 ^ 32) (cfg : Config)
    (hgc : ∀ n, ¬ ((Machine.new b cfg).after n).CallsGc)
    (hsz : ∀ n, ((Machine.new b cfg).after n).heap.slots.size < 2 ^ 32) (e : Ending) :
    (∃ n, (Machine.new b cfg).endingAfter? n = some e) ↔
      ∃ fuel, p.evaluate pool cfg.maxCallDepth fuel = some e := by
  obtain ⟨env, hi⟩ := Compile.image_of_compile h
  let σ : Setting := ⟨b, cfg.maxCallDepth⟩
  have hl : Evaluation.Link p env σ := ⟨Compile.linked_of_image hi hsize, Evaluation.prototypes_of_image hi⟩
  have hnew : ∀ n, (Machine.new b cfg).endingAfter? n = State.endingAfter? σ n := fun n =>
    Machine.endingAfter?_new b cfg n (fun k _ => hgc k) (hsz n)
  have hends : ∀ fuel, match p.evaluate pool cfg.maxCallDepth fuel with
      | some d => ∃ k, State.endingAfter? σ k = some d
      | none => ∃ k, fuel ≤ k ∧ State.endingAfter? σ k = none := fun fuel =>
    Evaluation.ending_of_runs (Evaluation.main_runs (σ := σ) hi hl fuel)
  constructor
  · rintro ⟨n, hn⟩
    rw [hnew] at hn
    refine ⟨n, ?_⟩
    have hrun := hends n
    cases hev : p.evaluate pool cfg.maxCallDepth n with
    | some d =>
      rw [hev] at hrun
      obtain ⟨k, hk⟩ := hrun
      rw [State.endingAfter?_unique hk hn]
    | none =>
      -- The run would have to go on for at least as many steps as it takes to end.
      rw [hev] at hrun
      obtain ⟨k, hk, hnone⟩ := hrun
      have hend := State.endingAfter?_add hn (k - n)
      rw [Nat.add_sub_cancel' hk, hnone] at hend
      cases hend
  · rintro ⟨fuel, hfuel⟩
    have hrun := hends fuel
    rw [hfuel] at hrun
    obtain ⟨k, hk⟩ := hrun
    exact ⟨k, (hnew k).trans hk⟩

/-- `func f(n) { if n < 1 { return 0; } return n + f(n - 1); } let x = 2; print(f(x));` -/
def Program.summing : Program :=
  let n : Expr := .name 1 {}
  let int (k : Int32) : Expr := .literal (.int k) {}
  let body : List Stmt :=
    [.branch [⟨.binary .less n (int 1) {}, [.giveBack (some (int 0)) {}], {}⟩] none {},
      .giveBack (some (.binary .add n (.call (.name 0 {}) [.binary .sub n (int 1) {}] {}) {})) {}]
  ⟨[.function ⟨0, [⟨1, .any, {}⟩], none, body, {}⟩ {},
    .declare 2 (int 2) {},
    .expression (.call (.name 3 {}) [.call (.name 0 {}) [.name 2 {}] {}] {}) {}]⟩

/-- The sum that the evaluation prints is what a machine prints, through three calls inside of each
other. -/
theorem Program.compile_correct_summing :
    let pool : Pool := { entries := #["f", "n", "x", "print"] }
    ∃ b, summing.compile pool = .ok b ∧ b.size < 2 ^ 32 ∧
      (∀ n, ¬ ((Machine.new b {}).after n).CallsGc) ∧
      (∀ n, ((Machine.new b {}).after n).heap.slots.size < 2 ^ 32) ∧
      ∃ n, (Machine.new b {}).endingAfter? n = some ⟨#["3"], none⟩ := by
  intro pool
  have heval : summing.evaluate pool 1024 4 = some ⟨#["3"], none⟩ := by decide +kernel
  have hrun : (summing.compile pool).toOption.any (fun b => b.size < 2 ^ 32 ∧
      ((Machine.new b {}).after 39).status = .halted ∧ ∀ k < 40,
        ¬ ((Machine.new b {}).after k).CallsGc ∧
          ((Machine.new b {}).after k).heap.slots.size < 2 ^ 32) = true := by
    decide +kernel
  cases h : summing.compile pool with
  | error e =>
    rw [h] at hrun
    cases hrun
  | ok b =>
    rw [h] at hrun
    obtain ⟨hsize, hhalted, hsteps⟩ := of_decide_eq_true hrun
    -- The machine has halted by then, so the first steps are all there are.
    have hall : ∀ n, ¬ ((Machine.new b {}).after n).CallsGc ∧
        ((Machine.new b {}).after n).heap.slots.size < 2 ^ 32 := fun n => by
      by_cases hn : n < 40
      · exact hsteps n hn
      · rw [Machine.after_of_halted hhalted (by omega)]
        exact hsteps 39 (by omega)
    refine ⟨b, rfl, hsize, fun n => (hall n).1, fun n => (hall n).2, ?_⟩
    exact (Program.compile_correct h hsize {} (fun n => (hall n).1) (fun n => (hall n).2) _).2
      ⟨4, heval⟩

end Scriptlet
