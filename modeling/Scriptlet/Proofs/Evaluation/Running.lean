import Scriptlet.Proofs.Evaluation.Evaluator
import Scriptlet.Proofs.Ideal.LockStep

/-!
# Runs that follow an evaluation

`Runs σ n s r post`: from the state `s` on, a run of the code does what an evaluation with the result `r`
does. Without a fault it comes to a state as `post` says, or it has the same fault in the same world; and
if the evaluation was cut off, the run takes at least `n` steps more. Evaluations are put together with
`Runs.bind`, and single instructions follow them with `runs_instruction`.
-/

namespace Scriptlet

open Scriptlet.Ideal

namespace Ideal.State

variable (σ : Setting)

/-- The state after a number of steps. -/
def steps : Nat → State → State
  | 0, s => s
  | n + 1, s => steps n (s.next σ 0)

variable {σ}

theorem steps_add (m n : Nat) (s : State) : steps σ (m + n) s = steps σ n (steps σ m s) := by
  induction m generalizing s with
  | zero => rw [Nat.zero_add, steps]
  | succ m ih => rw [Nat.succ_add, steps, steps, ih]

theorem after_eq_steps (n : Nat) : after σ 0 n = steps σ n (initial σ) := by
  induction n with
  | zero => rfl
  | succ n ih => rw [after, ih, steps_add, steps, steps]

theorem next_of_halted {s : State} (h : s.status = .halted) : s.next σ 0 = s := by
  simp only [next, step, h]

/-- What the instruction at the program counter makes the next step do. -/
theorem step_of_decode {s : State} {i : Instruction} (hs : s.status = .ready)
    (hd : Instruction.decode σ.bytecode.code s.pc = .instruction i) :
    s.step σ 0 = match Act.execute σ 0 i { s with pc := s.pc + i.width } with
      | .ok _ s' => .ok () s'
      | .error f s' => .error f { s' with status := .halted } := by
  have hlt : ¬ σ.bytecode.size ≤ s.pc := fun hle => by
    have hnone : σ.bytecode.code[s.pc]? = none := Array.getElem?_eq_none hle
    simp only [Instruction.decode, hnone] at hd
    cases hd
  unfold step executeNext
  rewrite [hs, if_neg hlt, hd]
  rfl

end Ideal.State

namespace Evaluation

/-- The first steps do not fault. -/
def Calm (σ : Setting) (s : State) (k : Nat) : Prop :=
  ∀ j < k, (s.steps σ j).nextFault? σ 0 = none

theorem calm_zero {σ : Setting} {s : State} : Calm σ s 0 := fun _ hj => (by cases hj)

theorem Calm.add {σ : Setting} {s : State} {k m : Nat} (h₁ : Calm σ s k)
    (h₂ : Calm σ (s.steps σ k) m) : Calm σ s (k + m) := by
  intro j hj
  by_cases hk : j < k
  · exact h₁ j hk
  · obtain ⟨i, rfl⟩ : ∃ i, j = k + i := ⟨j - k, by omega⟩
    rw [State.steps_add]
    exact h₂ i (by omega)

/-- A run that follows an evaluation with a result. -/
def Runs {α : Type} (σ : Setting) (n : Nat) (s : State) (r : EStateM.Result Stop World α)
    (post : α → World → State → Prop) : Prop :=
  match r with
  | .ok a w => ∃ k, Calm σ s k ∧ post a w (s.steps σ k)
  | .error (.fault f) w => ∃ k, Calm σ s k ∧ (s.steps σ k).nextFault? σ 0 = some f ∧
      (s.steps σ (k + 1)).world = w
  | .error .unfinished _ => ∃ k, n ≤ k ∧ (s.steps σ k).status = .ready

section runs

variable {α β : Type} {σ : Setting} {m n : Nat} {s : State} {r : EStateM.Result Stop World α}
  {post : α → World → State → Prop}

theorem runs_here {a : α} {w : World} (h : post a w s) : Runs σ n s (.ok a w) post :=
  ⟨0, calm_zero, h⟩

theorem Runs.fewer (h : Runs σ n s r post) (hm : m ≤ n) : Runs σ m s r post := by
  cases r with
  | ok a w => exact h
  | error e w =>
    cases e with
    | fault f => exact h
    | unfinished =>
      obtain ⟨k, hk, hready⟩ := h
      exact ⟨k, Nat.le_trans hm hk, hready⟩

theorem Runs.mono {post' : α → World → State → Prop} (h : Runs σ n s r post)
    (hp : ∀ a w s, post a w s → post' a w s) : Runs σ n s r post' := by
  cases r with
  | ok a w =>
    obtain ⟨k, hc, hk⟩ := h
    exact ⟨k, hc, hp _ _ _ hk⟩
  | error e w =>
    cases e with
    | fault f => exact h
    | unfinished => exact h

/-- A run that goes on with another one. -/
theorem Runs.after {k : Nat} (hc : Calm σ s k) (h : Runs σ n (s.steps σ k) r post) :
    Runs σ (n + k) s r post := by
  cases r with
  | ok a w =>
    obtain ⟨j, hj, hp⟩ := h
    exact ⟨k + j, hc.add hj, by rw [State.steps_add]; exact hp⟩
  | error e w =>
    cases e with
    | fault f =>
      obtain ⟨j, hj, hf, hw⟩ := h
      refine ⟨k + j, hc.add hj, ?_, ?_⟩
      · rw [State.steps_add]
        exact hf
      · rw [Nat.add_assoc, State.steps_add]
        exact hw
    | unfinished =>
      obtain ⟨j, hj, hready⟩ := h
      exact ⟨k + j, by omega, by rw [State.steps_add]; exact hready⟩

/-- A step counts. -/
theorem Runs.tick (hf : s.nextFault? σ 0 = none) (h : Runs σ n (s.next σ 0) r post) :
    Runs σ (n + 1) s r post := by
  refine Runs.after (k := 1) (fun j hj => ?_) h
  cases Nat.lt_one_iff.1 hj
  exact hf

/-- One evaluation behind another. -/
theorem Runs.bind {act : Eval α} {f : α → Eval β} {w : World} {post' : β → World → State → Prop}
    (h : Runs σ n s (act w) post)
    (hk : ∀ a w' s', post a w' s' → Runs σ n s' (f a w') post') :
    Runs σ n s ((act >>= f) w) post' := by
  change Runs σ n s (EStateM.bind act f w) post'
  unfold EStateM.bind
  revert h
  cases act w with
  | ok a w' =>
    rintro ⟨k, hc, hp⟩
    exact ((hk a w' _ hp).after hc).fewer (Nat.le_add_right _ _)
  | error e w' =>
    intro h
    cases e with
    | fault f => exact h
    | unfinished => exact h

/-- A run that goes on behind an evaluation. -/
theorem Runs.onward {post' : α → World → State → Prop} (h : Runs σ n s r post)
    (hk : ∀ a w s', post a w s' → Runs σ n s' (.ok a w) post') : Runs σ n s r post' := by
  cases r with
  | ok a w =>
    obtain ⟨k, hc, hp⟩ := h
    exact ((hk a w _ hp).after hc).fewer (Nat.le_add_right _ _)
  | error e w =>
    cases e with
    | fault f => exact h
    | unfinished => exact h

/-- A result that is changed behind an evaluation. -/
theorem Runs.map {act : Eval α} {g : α → β} {w : World} {post' : β → World → State → Prop}
    (h : Runs σ n s (act w) post) (hk : ∀ a w' s', post a w' s' → post' (g a) w' s') :
    Runs σ n s ((do let a ← act; return g a) w) post' :=
  h.bind fun a w' s' hp => runs_here (hk a w' s' hp)

end runs

/-! ## Instructions -/

/-- An instruction follows an evaluation, or the evaluation is cut off before it. -/
def Carries {α : Type} (σ : Setting) (n : Nat) (res : EStateM.Result Fault State Unit)
    (r : EStateM.Result Stop World α) (post : α → World → State → Prop) : Prop :=
  (n = 0 ∧ ∃ w, r = .error .unfinished w) ∨
    match res with
    | .ok _ s => Runs σ (n - 1) s r post
    | .error f s => r = .error (.fault f) s.world

section carries

variable {α : Type} {σ : Setting} {n : Nat} {r : EStateM.Result Stop World α}
  {post : α → World → State → Prop}

theorem carries_here {s : State} {a : α} {w : World} (h : post a w s) :
    Carries σ n (.ok () s) (.ok a w) post :=
  .inr (runs_here h)

theorem carries_fault {s : State} (f : Fault) :
    Carries σ n (.error f s) (.error (.fault f) s.world) post :=
  .inr rfl

/-- The instruction at the program counter follows an evaluation, and so does the run. -/
theorem runs_instruction {s : State} {i : Instruction} (hs : s.status = .ready)
    (hd : Instruction.decode σ.bytecode.code s.pc = .instruction i)
    (h : Carries σ n (Act.execute σ 0 i { s with pc := s.pc + i.width }) r post) :
    Runs σ n s r post := by
  have hstep := State.step_of_decode hs hd
  obtain ⟨rfl, w, rfl⟩ | h := h
  · exact ⟨0, Nat.le_refl _, hs⟩
  · revert h
    cases hres : Act.execute σ 0 i { s with pc := s.pc + i.width } with
    | ok u s' =>
      intro h
      rw [hres] at hstep
      have hnext : s.next σ 0 = s' := by rw [State.next, hstep]
      have hf : s.nextFault? σ 0 = none := by rw [State.nextFault?, hstep]
      rw [← hnext] at h
      exact (h.tick hf).fewer (by omega)
    | error f s' =>
      intro h
      rw [hres] at hstep
      subst h
      refine ⟨0, calm_zero, ?_, ?_⟩
      · rw [State.steps, State.nextFault?, hstep]
      · change (s.next σ 0).world = _
        rw [State.next, hstep]

/-- An instruction that changes nothing but the state of the run. -/
theorem runs_step {s t : State} {i : Instruction} (hs : s.status = .ready)
    (hd : Instruction.decode σ.bytecode.code s.pc = .instruction i)
    (hx : Act.execute σ 0 i { s with pc := s.pc + i.width } = .ok () t)
    (h : Runs σ (n - 1) t r post) : Runs σ n s r post := by
  refine runs_instruction hs hd (.inr ?_)
  rw [hx]
  exact h

end carries

/-! ## States in the middle of a call -/

/-- A state that is ready to go on. -/
abbrev running (pc : Nat) (operands locals : List Val) (callers : List Ideal.Caller) (w : World) : State :=
  { pc, status := .ready, frame := { operands, locals }, callers, world := w }

/-- The run has come to an offset, with one more operand. -/
def Gives (pc : Nat) (operands locals : List Val) (callers : List Ideal.Caller) (v : Val) (w : World)
    (s : State) : Prop :=
  s = running pc (v :: operands) locals callers w

section operations

variable {σ : Setting} {n pc : Nat} {ops locals : List Val} {cs : List Ideal.Caller} {w : World}

theorem run_popN_values (vs : List Val) :
    Act.popN vs.length (running pc (vs.reverse ++ ops) locals cs w) =
      .ok vs (running pc ops locals cs w) := by
  have hlen : (vs.reverse).length = vs.length := List.length_reverse
  rw [Act.run_popN (by simp)]
  change EStateM.Result.ok ((vs.reverse ++ ops).take vs.length).reverse
    (running pc ((vs.reverse ++ ops).drop vs.length) locals cs w) = _
  rw [List.take_left' hlen, List.drop_left' hlen, List.reverse_reverse]

/-- The result of an operation becomes an operand. -/
theorem carries_give (f : World → Except Fault (Val × World)) :
    Carries σ n ((do Act.push (← Act.onWorld f)) (running pc ops locals cs w)) (onWorld f w)
      (Gives pc ops locals cs) := by
  cases hf : f w with
  | ok r =>
    rw [Act.run_bind_ok (Act.run_onWorld_ok (s := running pc ops locals cs w) (a := r.1) (w := r.2) hf)]
    simp only [onWorld, hf]
    exact carries_here rfl
  | error e =>
    rw [Act.run_bind_error (Act.run_onWorld_error (s := running pc ops locals cs w) hf)]
    simp only [onWorld, hf]
    exact carries_fault e

theorem carries_change (f : World → Except Fault World) :
    Carries σ n (Act.change f (running pc ops locals cs w)) (change f w)
      fun _ w' s => s = running pc ops locals cs w' := by
  unfold change onWorld Act.change Act.onWorld
  dsimp only
  cases f w with
  | ok w' => exact carries_here rfl
  | error e => exact carries_fault e

theorem carries_make (o : Obj) :
    Carries σ n (Act.pushNew o (running pc ops locals cs w)) (make o w) (Gives pc ops locals cs) :=
  carries_give _

end operations

end Evaluation

end Scriptlet
